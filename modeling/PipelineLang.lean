import PipelineLang.Main
import PipelineLang.Proofs.Arrow.Flattening
import PipelineLang.Proofs.Arrow.Retention
import PipelineLang.Proofs.Interface.Loading
import PipelineLang.Proofs.Interface.Offsets
import PipelineLang.Proofs.Interface.Parameters
import PipelineLang.Proofs.Leaf.Arity
import PipelineLang.Proofs.Relocation.Source
import PipelineLang.Proofs.Symbols.Stack
import PipelineLang.Proofs.Symbols.Unused
import PipelineLang.Proofs.Target.ConditionText
import PipelineLang.Proofs.Target.Mappings
import PipelineLang.Proofs.Target.ModuleBlocks
import PipelineLang.Proofs.Target.Unfolding
import PipelineLang.Proofs.Tool.Delivery
