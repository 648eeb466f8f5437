import PipelineLang.Proofs.Symbols.Declarations

/-! Whatever else is wrong with an arrow, all its imports and declarations are among the symbols,
and all declarations among the symbols are its own. -/

namespace PipelineLang

namespace Symbols

variable {s t : Symbols} {ds : List Declaration}

end Symbols

namespace Resolution

variable {r : Resolution} {ds : List Declaration}

end Resolution

namespace Program

variable {p : Program} (file : String) (registry : Registry) (files : FileTree)

variable {e : Arrow} (hdef : p.component.definition = .arrow e)
include hdef

end Program

end PipelineLang
