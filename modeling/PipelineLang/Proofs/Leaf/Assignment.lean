import PipelineLang.Proofs.Leaf.Numbers
import PipelineLang.Proofs.Leaf.Refinement
import PipelineLang.Proofs.Symbols.Body

/-!
Lowered leaf bodies are closed. Each variable is assigned once, whatever is read has been assigned
before in a list of commands that is still open, commands are numbered as they begin, and each
output is returned once.
-/

namespace PipelineLang

/-- A value that is read, with the variables that can be seen where it is read. -/
structure Reading where
  visible : List LocalVariable
  value : LoweredValue

/-- The value is there: its variable can be seen, or it is one of the inputs or states. -/
def LoweredValue.Available (inputs states : List String) (visible : List LocalVariable) :
    LoweredValue → Prop
  | .input x => x ∈ inputs
  | .bound v => v ∈ visible
  | .state x => x ∈ states
  | .constant _ => True

def LoweredCall.readings (visible : List LocalVariable) (c : LoweredCall) : List Reading :=
  c.arguments.map (⟨visible, ·⟩)

def LoweredCondition.values : LoweredCondition → List LoweredValue
  | .binary _ left right => left.values ++ right.values
  | .paren inner => inner.values
  | .value v => [v]

/-- A binding sees those before it. -/
def bindingReadings (visible : List LocalVariable) :
    List (LocalVariable × LoweredCall) → List Reading
  | [] => []
  | b :: bindings => b.2.readings visible ++ bindingReadings (visible ++ [b.1]) bindings

def LoweredCommand.target : LoweredCommand → Option LocalVariable
  | .call _ target _ | .letIn _ target _ _ | .branch _ target _ _ _ => target

/-- The variables that a list of commands leaves behind. -/
def assigned (commands : List LoweredCommand) : List LocalVariable :=
  commands.flatMap fun command => command.target.toList

mutual

/-- What a command reads, where the variables before it are `visible`. Its bindings and branches see
these and what is assigned inside of them so far; its own target is assigned behind all of them. -/
def LoweredCommand.readings (visible : List LocalVariable) : LoweredCommand → List Reading
  | .call _ _ call => call.readings visible
  | .letIn _ _ bindings body =>
    bindingReadings visible bindings ++ body.readings (visible ++ bindings.map Prod.fst)
  | .branch _ _ condition onTrue onFalse =>
    condition.values.map (⟨visible, ·⟩) ++ (onTrue.readings visible ++ onFalse.readings visible)

def LoweredBlock.readings (visible : List LocalVariable) : LoweredBlock → List Reading
  | .mk commands result =>
    allReadings visible commands ++ result.toList.map (⟨visible ++ assigned commands, ·⟩)

def allReadings (visible : List LocalVariable) : List LoweredCommand → List Reading
  | [] => []
  | command :: commands =>
    command.readings visible ++ allReadings (visible ++ command.target.toList) commands

end

namespace LoweredLeaf

def readings (leaf : LoweredLeaf) : List Reading :=
  allReadings [] leaf.commands ++ leaf.returns.map fun x => ⟨assigned leaf.commands, x.2⟩

def numbers (leaf : LoweredLeaf) : List Nat := allNumbers leaf.commands

end LoweredLeaf

theorem DoBlock.numbers_of_lower {body : DoBlock} {t : LeafTables} {leaf : LoweredLeaf}
    (h : body.lower t = .ok leaf) : leaf.numbers = List.range leaf.commandCount := by
  obtain ⟨⟨ls, next⟩, hls, h⟩ := exists_of_bind_eq_ok h
  obtain ⟨returns, -, h⟩ := exists_of_bind_eq_ok h
  cases h
  rw [List.range_eq_range']
  exact (t.numberedBetween_of_lower.2.2 _ _ _ _ hls).2.2

/-- What is read can be seen, and is what one of the operands is lowered to. -/
def Reading.Of (t : LeafTables) (operands : List Operand) (x : Reading) : Prop :=
  x.value.reads ⊆ x.visible ∧ ∃ operand ∈ operands, t.lowerOperand operand = .ok x.value

theorem Reading.Of.mono {t : LeafTables} {operands operands' : List Operand} {x : Reading}
    (h : x.Of t operands) (hsub : operands ⊆ operands') : x.Of t operands' := by
  obtain ⟨hreads, operand, ho, hvalue⟩ := h
  exact ⟨hreads, operand, hsub ho, hvalue⟩

theorem Reading.of_append {t : LeafTables} {operands operands' : List Operand}
    {xs ys : List Reading} (hxs : ∀ x ∈ xs, x.Of t operands) (hys : ∀ x ∈ ys, x.Of t operands') :
    ∀ x ∈ xs ++ ys, x.Of t (operands ++ operands') :=
  List.forall_mem_append.mpr ⟨fun x hx => (hxs x hx).mono (List.subset_append_left _ _),
    fun x hx => (hys x hx).mono (List.subset_append_right _ _)⟩

namespace Numbering

variable {t : LeafTables} {ν : Numbering} {visible vs : List LocalVariable}

theorem Known.mono (h : ν.Known visible) (hsub : visible ⊆ vs) : ν.Known vs :=
  fun frame hframe b hb => hsub (h frame hframe b hb)

theorem Known.congr {ν' : Numbering} (h : ν.Known visible) (hframes : ν'.frames = ν.frames) :
    ν'.Known visible := by
  rw [Known, hframes]
  exact h

theorem Known.target (h : ν.Known visible) (target : Option Ident) :
    (ν.afterTarget target).Known (visible ++ (ν.target target).toList) :=
  (h.mono (List.subset_append_left _ _)).afterTarget (List.subset_append_right _ _)

theorem Known.reading (h : ν.Known visible) {operands : List Operand} {operand : Operand}
    (ho : operand ∈ operands) (hagrees : t.OperandAgrees ν operand) :
    Reading.Of t operands ⟨visible, ν.value operand⟩ :=
  ⟨h.value operand, operand, ho, LeafTables.lowerOperand_eq hagrees⟩

theorem Known.callReadings (h : ν.Known visible) {call : Call} (hagrees : t.CallAgrees ν call) :
    ∀ x ∈ (ν.call call).readings visible, x.Of t call.arguments := by
  simp only [LoweredCall.readings, Numbering.call, List.map_map, List.forall_mem_map,
    Function.comp_apply]
  exact fun operand ho => h.reading ho (hagrees operand ho)

theorem values_condition (ν : Numbering) (condition : Condition) :
    (ν.condition condition).values = condition.operands.map ν.value := by
  induction condition with
  | binary op left right span ihl ihr =>
    rw [Numbering.condition, LoweredCondition.values, ihl, ihr, Condition.operands, List.map_append]
  | paren inner span ih => exact ih
  | terminal operand => rfl

theorem Known.conditionReadings (h : ν.Known visible) {condition : Condition}
    (hagrees : t.ConditionAgrees ν condition) :
    ∀ x ∈ (ν.condition condition).values.map (⟨visible, ·⟩), Reading.Of t condition.operands x := by
  simp only [values_condition, List.map_map, List.forall_mem_map, Function.comp_apply]
  exact fun operand ho => h.reading ho (hagrees operand ho)

theorem Known.resultReadings (h : ν.Known visible) {result : BranchResult}
    (hagrees : t.ResultAgrees ν result) :
    ∀ x ∈ (ν.result result).toList.map (⟨visible, ·⟩), Reading.Of t result.operands x := by
  cases result with
  | unit span => exact List.forall_mem_nil _
  | value operand => exact List.forall_mem_singleton.mpr (h.reading List.mem_cons_self hagrees)

theorem Known.bindingReadings {bindings : List LetBinding} (h : ν.Known visible)
    (hagrees : t.BindingsAgree ν bindings) :
    (∀ x ∈ PipelineLang.bindingReadings visible (ν.bindings bindings),
      x.Of t (bindings.flatMap fun b => b.call.arguments))
      ∧ (ν.afterBindings bindings).Known (visible ++ (ν.bindings bindings).map Prod.fst) := by
  induction bindings generalizing ν visible with
  | nil => exact ⟨List.forall_mem_nil _, h.mono (List.subset_append_left _ _)⟩
  | cons b bindings ih =>
    obtain ⟨hcall, -, hrest⟩ := hagrees
    obtain ⟨hreadings, hafter⟩ := ih (h.target (some b.target)) hrest
    rw [List.append_assoc] at hafter
    exact ⟨Reading.of_append (h.callReadings hcall) hreadings, hafter⟩

theorem readings_of_lowers (t : LeafTables) :
    (∀ command (ν : Numbering) l visible, t.CommandAgrees ν command → ν.CommandLowers command l →
      ν.Known visible → (∀ x ∈ l.readings visible, x.Of t command.operands)
        ∧ (ν.afterCommand command).Known (visible ++ l.target.toList)) ∧
    (∀ block (ν : Numbering) l visible, t.BlockAgrees ν block → ν.BlockLowers block l →
      ν.Known visible → ∀ x ∈ l.readings visible, x.Of t block.operands) ∧
    ∀ commands (ν : Numbering) ls visible, t.CommandsAgree ν commands →
    ν.CommandsLower commands ls →
      ν.Known visible →
      (∀ x ∈ allReadings visible ls, x.Of t (operandsOf commands))
        ∧ (ν.afterCommands commands).Known (visible ++ assigned ls) := by
  refine Command.induct ?call ?letIn ?branch ?failed ?block ?nil ?cons
  case call =>
    rintro target call span ν l visible ⟨hcall, -⟩ ⟨n, rfl⟩ hknown
    exact ⟨hknown.callReadings hcall, hknown.target target⟩
  case letIn =>
    rintro target bindings body span ν l visible ⟨hbindings, hbody, -⟩ ⟨n, rfl⟩ hknown
    obtain ⟨hreadings, hinner⟩ := hknown.push.bindingReadings hbindings
    have hframes := (within_afterBindings (List.cons_ne_nil [] ν.frames) bindings).pop_frames
    exact ⟨Reading.of_append hreadings (hinner.callReadings hbody),
      (hknown.congr hframes).target target⟩
  case branch =>
    rintro target condition onTrue onFalse span iht ihf ν l visible ⟨hcondition, htrue, hfalse, -⟩
      ⟨n, lt, lf, hlt, hlf, rfl⟩ hknown
    -- behind each branch the frames are those before it
    have htframes := (within_after.2.1 onTrue ν.push (List.cons_ne_nil _ _)).pop_frames
    have hmiddle := hknown.congr htframes
    have hfframes := (within_after.2.1 onFalse (ν.push.afterBlock onTrue).pop.push
      (List.cons_ne_nil _ _)).pop_frames
    have htreadings := iht _ _ _ htrue hlt hknown.push
    have hfreadings := ihf _ _ _ hfalse hlf hmiddle.push
    refine ⟨?_, (hmiddle.congr hfframes).target target⟩
    exact Reading.of_append (hknown.conditionReadings hcondition)
      (Reading.of_append htreadings hfreadings)
  case failed =>
    intro span ν l visible h
    exact h.elim
  case block =>
    rintro commands result span ih ν l visible ⟨hcommands, hresult⟩ ⟨ls, hls, rfl⟩ hknown
    obtain ⟨hreadings, hafter⟩ := ih ν ls visible hcommands hls hknown
    exact Reading.of_append hreadings (hafter.resultReadings hresult)
  case nil =>
    rintro ν ls visible - rfl hknown
    exact ⟨List.forall_mem_nil _, hknown.mono (List.subset_append_left _ _)⟩
  case cons =>
    rintro command commands ihc ihs ν ls visible ⟨hcommand, hcommands⟩ ⟨l, rest, hl, hrest, rfl⟩
      hknown
    obtain ⟨hreadings, hafter⟩ := ihc ν l visible hcommand hl hknown
    obtain ⟨hreadings', hafter'⟩ := ihs _ rest _ hcommands hrest hafter
    rw [List.append_assoc] at hafter'
    exact ⟨Reading.of_append hreadings hreadings', hafter'⟩

end Numbering

theorem LeafTables.BodyAgrees.readings {t : LeafTables} {body : DoBlock} {leaf : LoweredLeaf}
    (h : t.BodyAgrees body) (hlowers : Numbering.BodyLowers body leaf) :
    ∀ x ∈ leaf.readings, x.Of t body.operands := by
  have hstart : Numbering.start.Known [] := by simp [Numbering.Known, Numbering.start]
  obtain ⟨hreadings, hafter⟩ := (Numbering.readings_of_lowers t).2.2 _ _ _ _ h.1 hlowers.1 hstart
  refine Reading.of_append hreadings fun x hx => ?_
  rw [hlowers.2, List.map_map] at hx
  obtain ⟨m, hm, rfl⟩ := List.mem_map.mp hx
  exact hafter.reading (List.mem_map_of_mem hm) (h.2 m hm)

namespace Program

variable {p : Program} {file : String} {registry : Registry} {files : FileTree} {body : DoBlock}

theorem available_of_clean (hdef : p.component.definition = .leaf body)
    (hclean : (p.resolve file registry files).Clean) (hnodup : body.marks.Nodup) {x : Reading}
    (hx : x.Of (p.resolve file registry files).symbols.tables body.operands) :
    x.value.Available (p.component.inputs.names.map Ident.name)
      (p.component.configuration.map Ident.name)
      x.visible := by
  obtain ⟨hreads, operand, ho, hvalue⟩ := hx
  have hwarrants : ∀ ref, (p.resolve file registry files).symbols.tables.references.get?
      operand.span = some ref →
      operand.Warrants p.component.inputs (p.component.configuration.map Ident.name) ref :=
    fun ref hget => warrants_of_reference hdef hclean hnodup ho hget
  generalize x.value = value at hvalue hreads ⊢
  cases operand with
  | literal lit =>
    cases hvalue
    trivial
  | ident id =>
    simp only [LeafTables.lowerOperand, LeafTables.lowerName] at hvalue
    split at hvalue <;> cases hvalue
    · rename_i hget
      have hinput : p.component.inputs.contains id.name = true := hwarrants .input hget
      simpa [LoweredValue.Available, SignalClause.contains] using hinput
    · exact hreads List.mem_cons_self
    · rename_i hget
      exact (hwarrants .state hget).elim
  | state id =>
    simp only [LeafTables.lowerOperand, LeafTables.lowerName] at hvalue
    split at hvalue <;> cases hvalue
    · rename_i hget
      exact (hwarrants .input hget).elim
    · exact hreads List.mem_cons_self
    · rename_i hget
      exact hwarrants .state hget

/-- A leaf that was read and resolved without errors is lowered, and what it is lowered to is
closed: its variables are numbered from zero and each is assigned once, all that is read is
available, commands are numbered from zero in the order in which they begin, and the outputs are
returned, each once. -/
theorem lower_closed (source file : String) (registry : Registry) (files : FileTree) (p : Program)
    (body : DoBlock) (hp : (Parsed.ofSource source).program = some p)
    (hparsed : ∀ f ∈ (Parsed.ofSource source).findings, f.isError = false)
    (hleaf : p.component.definition = .leaf body)
    (hclean : ∀ f ∈ (p.resolve file registry files).findings, f.isError = false) :
    ∃ leaf, body.lower (p.resolve file registry files).symbols.tables = .ok leaf
      ∧ leaf.locals.map LocalVariable.number =
          List.range (p.resolve file registry files).symbols.tables.scopes.bindings.length
      ∧ (∀ x ∈ leaf.readings, x.value.Available (p.component.inputs.names.map Ident.name)
          (p.component.configuration.map Ident.name) x.visible)
      ∧ leaf.numbers = List.range leaf.commandCount
      ∧ (leaf.returns.map Prod.fst).Perm (p.component.outputs.names.map Ident.name)
      ∧ (leaf.returns.map Prod.fst).Nodup := by
  have hintact := Parsed.intact_of_clean hp (Parsed.findings_eq_nil_iff.mpr hparsed)
  rw [hleaf] at hintact
  have hagrees := bodyAgrees_of_clean hleaf hintact.1 hintact.2 hclean
  obtain ⟨leaf, hlower, hlowers⟩ := hagrees.exists_lower
  have hnumbers : leaf.locals.map LocalVariable.number =
      List.range (allBound body.commands).length := by
    rw [hlowers.locals, map_number_numberedFrom, List.range_eq_range']
  have hbound : (allBound body.commands).length =
      (p.resolve file registry files).symbols.tables.scopes.bindings.length := by
    have hnext := (Numbering.variables_of_lowers.2.2 _ _ _ hlowers.1).2
    rw [← (shows_of_clean hleaf hintact.1 hintact.2 hclean).next, hnext]
    exact (Nat.zero_add _).symm
  have hreturns : leaf.returns.map Prod.fst = body.returns.map fun m => m.target.name := by
    rw [hlowers.2, List.map_map]
    rfl
  refine ⟨leaf, hlower, hbound ▸ hnumbers, fun x hx => ?_, DoBlock.numbers_of_lower hlower, ?_, ?_⟩
  · exact available_of_clean hleaf hclean hintact.2 (hagrees.readings hlowers x hx)
  · exact hreturns ▸ returns_perm_outputs hleaf hclean
  · exact hreturns ▸ nodup_returns hleaf hclean

def leafOf? (source file : String) (registry : Registry) : Option (Program × DoBlock) := do
  let p ← (Parsed.ofSource source).program
  match p.component.definition with
  | .leaf body =>
    if (Parsed.ofSource source).findings.isEmpty
        && (p.resolve file registry .empty).findings.all fun f => !f.isError then some (p, body)
    else none
  | .arrow _ => none

theorem of_leafOf? {source file : String} {registry : Registry} {p : Program} {body : DoBlock}
    (h : leafOf? source file registry = some (p, body)) :
    (Parsed.ofSource source).program = some p ∧
    (∀ f ∈ (Parsed.ofSource source).findings, f.isError = false)
      ∧ p.component.definition = .leaf body
      ∧ ∀ f ∈ (p.resolve file registry .empty).findings, f.isError = false := by
  obtain ⟨q, hq, h⟩ := Option.bind_eq_some_iff.mp h
  split at h
  · rename_i hdef
    split at h
    · rename_i hfine
      cases h
      obtain ⟨hparsed, hclean⟩ := Bool.and_eq_true_iff.mp hfine
      refine ⟨hq, Parsed.findings_eq_nil_iff.mp (List.isEmpty_iff.mp hparsed), hdef, fun f hf => ?_⟩
      simpa using List.all_eq_true.mp hclean f hf
    · cases h
  · cases h

def nestedScopes : String :=
  "import m as m component c inputs a outputs b, d configuration k do x <- m.f(a) "
    ++ "y <- if x then x <- m.f(x) return x else z <- let u <- m.f(@k) v <- m.f(u) in m.f(v) "
    ++ "return z endif return d <- x, b <- y"

theorem nestedScopes_closed :
    ∃ p body leaf, leafOf? nestedScopes "c.pcl" oneFunction = some (p, body)
      ∧ body.lower (p.resolve "c.pcl" oneFunction .empty).symbols.tables = .ok leaf
      ∧ leaf.locals = [⟨"x", 0⟩, ⟨"x", 1⟩, ⟨"u", 2⟩, ⟨"v", 3⟩, ⟨"z", 4⟩, ⟨"y", 5⟩]
      ∧ leaf.numbers = [0, 1, 2, 3] ∧ leaf.returns.map Prod.fst = ["d", "b"]
      ∧ ∀ x ∈ leaf.readings, x.value.Available ["a"] ["k"] x.visible := by
  have hfacts : (leafOf? nestedScopes "c.pcl" oneFunction).bind (fun x =>
      (x.2.lower (x.1.resolve "c.pcl" oneFunction .empty).symbols.tables).toOption.map fun leaf =>
        (x.1.component.inputs.names.map Ident.name, x.1.component.configuration.map Ident.name,
          leaf.locals, leaf.numbers, leaf.returns.map Prod.fst)) =
      some (["a"], ["k"], [⟨"x", 0⟩, ⟨"x", 1⟩, ⟨"u", 2⟩, ⟨"v", 3⟩, ⟨"z", 4⟩, ⟨"y", 5⟩],
        [0, 1, 2, 3], ["d", "b"]) := by
    decide +kernel
  obtain ⟨⟨p, body⟩, hsome, hfacts⟩ := Option.bind_eq_some_iff.mp hfacts
  obtain ⟨hp, hparsed, hdef, hclean⟩ := of_leafOf? hsome
  obtain ⟨leaf, hlower, -, havailable, -⟩ :=
    lower_closed nestedScopes "c.pcl" oneFunction .empty p body hp hparsed hdef hclean
  simp only [hlower, Except.toOption, Option.map_some, Prod.mk.injEq, Option.some.injEq] at hfacts
  obtain ⟨hinputs, hstates, hlocals, hnumbers, hreturns⟩ := hfacts
  rw [hinputs, hstates] at havailable
  exact ⟨p, body, leaf, hsome, hlower, hlocals, hnumbers, hreturns, havailable⟩

end Program

end PipelineLang
