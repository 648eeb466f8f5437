import Mathlib.Data.List.Forall2
import PipelineLang.Proofs.Grammar.Source
import PipelineLang.Proofs.Leaf.Lowering
import PipelineLang.Proofs.Leaf.Meaning
import PipelineLang.Proofs.Symbols.Leaf

/-! Lowering keeps the meaning of leaf bodies: a lowered form of a body makes the same calls in the
same order and returns the same outputs, whatever the world around it answers. -/

namespace PipelineLang

universe u

variable {V : Type u} {I : Interpretation V} {ν ν' : Numbering} {frames : Frames V}
  {store store' : Store V} {trace : List (CallEvent V)}

/-- A number that was given away holds the value of the name. -/
structure Holds (next : Nat) (store : Store V) (x : String × Nat) (y : String × V) : Prop where
  name : x.1 = y.1
  given : x.2 < next
  value : store x.2 = some y.2

/-- Name by name, the store holds the values of the frames. -/
structure Matches (ν : Numbering) (frames : Frames V) (store : Store V) : Prop where
  frames : List.Forall₂ (List.Forall₂ (Holds ν.next store)) ν.frames frames

/-- The stores agree on all numbers that were given away. -/
def Numbering.Keeps (ν : Numbering) (store store' : Store V) : Prop :=
  ∀ n < ν.next, store' n = store n

namespace Matches

theorem lookup {names : List (String × Nat)} {values : List (String × V)} {next : Nat}
    (h : List.Forall₂ (Holds next store) names values) (x : String) :
    (names.lookup x).map store = (values.lookup x).map some := by
  induction h with
  | nil => rfl
  | @cons a b names values hab _ ih =>
    obtain ⟨y, n⟩ := a
    obtain ⟨y', v⟩ := b
    obtain ⟨rfl, -, hvalue⟩ := hab
    simp only [List.lookup_cons]
    cases x == y with
    | true => simpa using hvalue
    | false => exact ih

theorem find (h : Matches ν frames store) (x : String) :
    (ν.frames.find? x).map store = (frames.find? x).map some := by
  obtain ⟨h⟩ := h
  generalize ν.frames = names at h
  induction h with
  | nil => rfl
  | @cons a b names values hab _ ih =>
    have hhere := lookup hab x
    simp only [Frames.find?]
    cases ha : a.lookup x with
    | some n =>
      rw [ha] at hhere
      cases hb : b.lookup x with
      | some v => simpa [hb] using hhere
      | none => simp [hb] at hhere
    | none =>
      rw [ha] at hhere
      cases hb : b.lookup x with
      | some v => simp [hb] at hhere
      | none => simpa using ih

theorem later (h : Matches ν frames store) (hframes : ν'.frames = ν.frames)
    (hnext : ν.next ≤ ν'.next) (hkeeps : ν.Keeps store store') : Matches ν' frames store' := by
  refine ⟨hframes ▸ h.frames.imp fun _ _ hnames => hnames.imp fun x _ hx => ?_⟩
  exact ⟨hx.name, Nat.lt_of_lt_of_le hx.given hnext, (hkeeps x.2 hx.given).trans hx.value⟩

theorem push (h : Matches ν frames store) : Matches ν.push ([] :: frames) store :=
  ⟨.cons .nil h.frames⟩

theorem bind (h : Matches ν frames store) (id : Ident) (value : V) :
    Matches (ν.bind id.name) (frames.bind id.name value)
      (store.keep (some ⟨id.name, ν.next⟩) value) := by
  have hlater : Matches ⟨ν.frames, ν.next + 1⟩ frames
      (store.keep (some ⟨id.name, ν.next⟩) value) := by
    refine h.later rfl (Nat.le_succ _) fun n hn => ?_
    simp only [Store.keep, if_neg (Nat.ne_of_lt hn)]
  obtain ⟨names, next⟩ := ν
  obtain ⟨hframes⟩ := hlater
  constructor
  cases hframes with
  | nil => exact .nil
  | cons hhead htail =>
    exact .cons (.cons ⟨rfl, Nat.lt_succ_self _, by simp [Store.keep]⟩ hhead) htail

theorem keep (h : Matches ν frames store) (target : Option Ident) (value : V) :
    Matches (ν.afterTarget target) (frames.keep target value)
      (store.keep (ν.target target) value) := by
  cases target with
  | none => exact h
  | some id => exact h.bind id value

end Matches

namespace Numbering.Keeps

theorem trans {store'' : Store V} (h : ν.Keeps store store') (h' : ν'.Keeps store' store'')
    (hnext : ν.next ≤ ν'.next) : ν.Keeps store store'' :=
  fun n hn => (h' n (Nat.lt_of_lt_of_le hn hnext)).trans (h n hn)

theorem keep (ν : Numbering) (store : Store V) (target : Option Ident) (value : V) :
    ν.Keeps store (store.keep (ν.target target) value) := by
  intro n hn
  cases target with
  | none => rfl
  | some id => simp only [Numbering.target, Option.map_some, Store.keep, if_neg (Nat.ne_of_lt hn)]

end Numbering.Keeps

section Reading

variable (I) (h : Matches ν frames store)
include h

theorem eval?_value (operand : Operand) :
    (ν.value operand).eval? I store = some (operand.eval I frames) := by
  cases operand with
  | ident id =>
    have hfind := h.find id.name
    simp only [Numbering.value, Operand.eval]
    cases hν : ν.frames.find? id.name with
    | some n =>
      rw [hν] at hfind
      cases hf : frames.find? id.name with
      | some v => simpa [hf, LoweredValue.eval?] using hfind
      | none => simp [hf] at hfind
    | none =>
      rw [hν] at hfind
      cases hf : frames.find? id.name with
      | some v => simp [hf] at hfind
      | none => rfl
  | state id => rfl
  | literal lit => rfl

theorem eval?_condition (condition : Condition) :
    (ν.condition condition).eval? I store = some (condition.eval I frames) := by
  induction condition with
  | binary op left right span ihl ihr =>
    simp only [Numbering.condition, LoweredCondition.eval?, ihl, ihr, Condition.eval]
    rfl
  | paren inner span ih => exact ih
  | terminal operand => exact eval?_value I h operand

theorem run?_call (call : Call) (trace : List (CallEvent V)) :
    (ν.call call).run? I store trace = some (call.run I frames trace) := by
  have harguments : (ν.call call).arguments.mapM (LoweredValue.eval? I store) =
      some (call.arguments.map (Operand.eval I frames)) := by
    rw [Numbering.call, List.mapM_map, show LoweredValue.eval? I store ∘ ν.value =
      fun operand => pure (operand.eval I frames) from funext (eval?_value I h), List.mapM_pure]
    rfl
  rw [LoweredCall.run?, harguments]
  rfl

theorem resultOf?_result (result : BranchResult) :
    resultOf? I store (ν.result result) = some (result.eval I frames) := by
  cases result with
  | unit span => rfl
  | value operand => exact eval?_value I h operand

end Reading

theorem run?_bindings (I : Interpretation V) (trace : List (CallEvent V))
    (bindings : List LetBinding) (h : Matches ν frames store) :
    ∃ store', runBindings? I store trace (ν.bindings bindings) =
        some (store', (runBindings I frames trace bindings).2) ∧
      Matches (ν.afterBindings bindings) (runBindings I frames trace bindings).1 store' ∧
      ν.Keeps store store' := by
  induction bindings generalizing ν frames store trace with
  | nil => exact ⟨store, rfl, h, fun _ _ => rfl⟩
  | cons b bindings ih =>
    obtain ⟨store', hrun, hmatches, hkeeps⟩ :=
      ih (b.call.run I frames trace).2 (h.bind b.target (b.call.run I frames trace).1)
    refine ⟨store', ?_, hmatches, ?_⟩
    · rw [Numbering.bindings, runBindings?, run?_call I h]
      exact hrun
    · exact (Numbering.Keeps.keep ν store (some b.target) _).trans hkeeps (Nat.le_succ _)

section Simulation

variable (I)

/-- Lowered forms of the command go on from matching frames and stores to matching ones, and make
the same calls on the way. -/
def Command.Simulated (command : Command) : Prop :=
  ∀ (ν : Numbering) (l : LoweredCommand) (frames : Frames V) (store : Store V)
    (trace : List (CallEvent V)),
    ν.CommandLowers command l → ν.frames ≠ [] → Matches ν frames store →
    ∃ store', l.run? I store trace = some (store', (command.run I frames trace).2) ∧
      Matches (ν.afterCommand command) (command.run I frames trace).1 store' ∧ ν.Keeps store store'

/-- The variables of a block are gone behind it, but it has a result. -/
def Block.Simulated (block : Block) : Prop :=
  ∀ (ν : Numbering) (l : LoweredBlock) (frames : Frames V) (store : Store V)
    (trace : List (CallEvent V)),
    ν.BlockLowers block l → ν.frames ≠ [] → Matches ν frames store →
    ∃ store', l.run? I store trace =
      some ((block.run I frames trace).1, store', (block.run I frames trace).2) ∧
      ν.Keeps store store'

def SimulatedAll (commands : List Command) : Prop :=
  ∀ (ν : Numbering) (ls : List LoweredCommand) (frames : Frames V) (store : Store V)
    (trace : List (CallEvent V)),
    ν.CommandsLower commands ls → ν.frames ≠ [] → Matches ν frames store →
    ∃ store', runLowered? I store trace ls =
      some (store', (runCommands I frames trace commands).2) ∧
      Matches (ν.afterCommands commands) (runCommands I frames trace commands).1 store' ∧
      ν.Keeps store store'

theorem simulated_letIn (target : Option Ident) (bindings : List LetBinding) (body : Call)
    (span : Span) :
    (Command.letIn target bindings body span).Simulated I := by
  rintro ν l frames store trace ⟨n, rfl⟩ hne h
  have hwithin : ν.push.Within (ν.push.afterBindings bindings) :=
    Numbering.within_afterBindings (List.cons_ne_nil _ _) bindings
  obtain ⟨store', hrun, hinner, hkeeps⟩ := run?_bindings I trace bindings h.push
  have hpop : Matches (ν.push.afterBindings bindings).pop frames store' :=
    h.later hwithin.pop_frames hwithin.next hkeeps
  refine ⟨_, ?_, hpop.keep target _, hkeeps.trans (.keep _ store' target _) hwithin.next⟩
  rw [LoweredCommand.run?, hrun]
  simp only [bind, Option.bind, run?_call I hinner]
  rfl

theorem simulated_branch {onTrue onFalse : Block} (htrue : onTrue.Simulated I)
    (hfalse : onFalse.Simulated I) (target : Option Ident) (condition : Condition) (span : Span) :
    (Command.branch target condition onTrue onFalse span).Simulated I := by
  rintro ν l frames store trace ⟨n, t, f, ht, hf, rfl⟩ hne h
  have hwithin := Numbering.within_after.2.1 onTrue ν.push (List.cons_ne_nil _ _)
  have hpushed : Matches (ν.push.afterBlock onTrue).pop.push ([] :: frames) store :=
    (h.later hwithin.pop_frames hwithin.next fun _ _ => rfl).push
  have hwithin' := Numbering.within_after.2.1 onFalse (ν.push.afterBlock onTrue).pop.push
    (List.cons_ne_nil _ _)
  have hframes : ((ν.push.afterBlock onTrue).pop.push.afterBlock onFalse).pop.frames = ν.frames :=
    hwithin'.pop_frames.trans hwithin.pop_frames
  have hnext : ν.next ≤ ((ν.push.afterBlock onTrue).pop.push.afterBlock onFalse).pop.next :=
    Nat.le_trans hwithin.next hwithin'.next
  -- variables of the branch that is not taken have numbers, but no values
  let taken := if I.truth (condition.eval I frames) then onTrue.run I ([] :: frames) trace
    else onFalse.run I ([] :: frames) trace
  obtain ⟨store', hrun, hkeeps⟩ : ∃ store',
      (if I.truth (condition.eval I frames) then t.run? I store trace else f.run? I store trace) =
        some (taken.1, store', taken.2) ∧ ν.Keeps store store' := by
    simp only [taken]
    split
    · exact htrue ν.push t _ store trace ht (List.cons_ne_nil _ _) h.push
    · obtain ⟨store', hrun, hkeeps⟩ := hfalse _ f _ store trace hf (List.cons_ne_nil _ _) hpushed
      exact ⟨store', hrun, fun n hn => hkeeps n (Nat.lt_of_lt_of_le hn hwithin.next)⟩
  refine ⟨_, ?_, (h.later hframes hnext hkeeps).keep target taken.1,
    hkeeps.trans (.keep _ store' target taken.1) hnext⟩
  rw [LoweredCommand.run?, eval?_condition I h]
  simp only [bind, Option.bind, hrun]
  rfl

theorem simulates : (∀ command : Command, command.Simulated I) ∧
    (∀ block : Block, block.Simulated I) ∧ ∀ commands, SimulatedAll I commands := by
  refine Command.induct ?call (simulated_letIn I) ?branch ?failed ?block ?nil ?cons
  case call =>
    rintro target call span ν l frames store trace ⟨n, rfl⟩ hne h
    refine ⟨_, ?_, h.keep target _, .keep ν store target _⟩
    rw [LoweredCommand.run?, run?_call I h]
    rfl
  case branch =>
    intro target condition onTrue onFalse span iht ihf
    exact simulated_branch I iht ihf target condition span
  case failed => exact fun span ν l frames store trace hl => hl.elim
  case block =>
    rintro commands result span ih ν l frames store trace ⟨ls, hls, rfl⟩ hne h
    obtain ⟨store', hrun, hmatches, hkeeps⟩ := ih ν ls frames store trace hls hne h
    refine ⟨store', ?_, hkeeps⟩
    rw [LoweredBlock.run?, hrun]
    simp only [bind, Option.bind, resultOf?_result I hmatches]
    rfl
  case nil =>
    rintro ν ls frames store trace rfl hne h
    exact ⟨store, rfl, h, fun _ _ => rfl⟩
  case cons =>
    rintro command commands ihc ihs ν ls frames store trace ⟨l, rest, hl, hrest, rfl⟩ hne h
    obtain ⟨store', hrun, hmatches, hkeeps⟩ := ihc ν l frames store trace hl hne h
    have hwithin := Numbering.within_after.1 command ν hne
    obtain ⟨store'', hrun', hmatches', hkeeps'⟩ :=
      ihs _ rest _ store' (command.run I frames trace).2 hrest
      hwithin.nonempty hmatches
    refine ⟨store'', ?_, hmatches', hkeeps.trans hkeeps' hwithin.next⟩
    rw [runLowered?, hrun]
    exact hrun'

end Simulation

theorem run?_of_bodyLowers {body : DoBlock} {leaf : LoweredLeaf} (I : Interpretation V)
    (h : Numbering.BodyLowers body leaf) : leaf.run? I = some (body.run I) := by
  have hstart : Matches .start [[]] (fun _ => none : Store V) := ⟨.cons .nil .nil⟩
  obtain ⟨store, hrun, hmatches, -⟩ :=
    (simulates I).2.2 body.commands .start leaf.commands [[]] _ []
    h.1 (List.cons_ne_nil _ _) hstart
  have hreturns : leaf.returns.mapM (fun r => do return (r.1, ← r.2.eval? I store)) =
      some (body.returns.map fun m =>
        (m.target.name, m.source.eval I (runCommands I [[]] [] body.commands).1)) := by
    rw [h.2, List.mapM_map, ← Option.pure_def, ← List.mapM_pure]
    congr 1
    funext m
    simp only [Function.comp_apply, eval?_value I hmatches m.source]
    rfl
  rw [LoweredLeaf.run?, hrun]
  simp only [bind, Option.bind] at hreturns ⊢
  rw [hreturns]
  rfl

namespace Program

/-- Lowering succeeds, and what it gives does the same as the body under every interpretation. -/
theorem lower_preserves_meaning (source file : String) (registry : Registry) (files : FileTree)
    (p : Program) (body : DoBlock) (hp : (Parsed.ofSource source).program = some p)
    (hparsed : ∀ f ∈ (Parsed.ofSource source).findings, f.isError = false)
    (hleaf : p.component.definition = .leaf body)
    (hclean : ∀ f ∈ (p.resolve file registry files).findings, f.isError = false) :
    ∃ leaf, body.lower (p.resolve file registry files).symbols.tables = .ok leaf ∧
      ∀ {V : Type u} (I : Interpretation V), leaf.run? I = some (body.run I) := by
  have hintact := Parsed.intact_of_clean hp (Parsed.findings_eq_nil_iff.mpr hparsed)
  rw [hleaf] at hintact
  obtain ⟨leaf, hlower, hlowers⟩ :=
    (bodyAgrees_of_clean hleaf hintact.1 hintact.2 hclean).exists_lower
  exact ⟨leaf, hlower, fun I => run?_of_bodyLowers I hlowers⟩

def shadowing : String :=
  "import m as m component c inputs a outputs b do x <- m.f(a) y <- if x then x <- m.f(x) return x "
    ++ "else z <- let x <- m.f(1) in m.f(x) return z endif return b <- y"

def oneFunction : Registry :=
  Registry.empty.insertPackage "m" (.ofList [("f", ⟨["x"], 0, false, false⟩)])

theorem shadowing_lowered :
    ∃ p body leaf, (Parsed.ofSource shadowing).program = some p ∧
      (∀ f ∈ (Parsed.ofSource shadowing).findings, f.isError = false) ∧
      p.component.definition = .leaf body ∧
      (∀ f ∈ (p.resolve "c.pcl" oneFunction .empty).findings, f.isError = false) ∧
      body.lower (p.resolve "c.pcl" oneFunction .empty).symbols.tables = .ok leaf ∧
      ∀ I : Interpretation Nat, leaf.run? I = some (body.run I) := by
  have hcheck : ((Parsed.ofSource shadowing).findings.isEmpty &&
      (Parsed.ofSource shadowing).program.any fun p => p.component.isLeaf &&
        (p.resolve "c.pcl" oneFunction .empty).findings.all fun f => !f.isError) = true := by
    decide +kernel
  obtain ⟨hempty, hcheck⟩ := Bool.and_eq_true_iff.mp hcheck
  have hparsed := Parsed.findings_eq_nil_iff.mp (List.isEmpty_iff.mp hempty)
  obtain ⟨p, hp⟩ : ∃ p, (Parsed.ofSource shadowing).program = some p :=
    Option.isSome_iff_exists.mp (Option.isSome_of_any hcheck)
  rw [hp, Option.any_some, Bool.and_eq_true, List.all_eq_true] at hcheck
  simp only [Bool.not_eq_true'] at hcheck
  obtain ⟨hleaf, hclean⟩ := hcheck
  obtain ⟨body, hbody⟩ : ∃ body, p.component.definition = .leaf body := by
    unfold Component.isLeaf at hleaf
    split at hleaf
    · exact ⟨_, ‹_›⟩
    · cases hleaf
  obtain ⟨leaf, hlower, hrun⟩ :=
    lower_preserves_meaning shadowing "c.pcl" oneFunction .empty p body hp hparsed hbody hclean
  exact ⟨p, body, leaf, hp, hparsed, hbody, hclean, hlower, fun I => hrun I⟩

end Program

end PipelineLang
