import PipelineLang.Proofs.Leaf.Lowering

/-! The numbers in a lowered leaf body. Variables are numbered in the order in which they are bound,
commands in the order in which they begin; no number is given twice. -/

namespace PipelineLang

mutual

def LoweredCommand.locals : LoweredCommand → List LocalVariable
  | .call _ target _ => target.toList
  | .letIn _ target bindings _ => bindings.map Prod.fst ++ target.toList
  | .branch _ target _ onTrue onFalse => onTrue.locals ++ onFalse.locals ++ target.toList

def LoweredBlock.locals : LoweredBlock → List LocalVariable
  | .mk commands _ => allVariables commands

def allVariables : List LoweredCommand → List LocalVariable
  | [] => []
  | command :: commands => command.locals ++ allVariables commands

end

mutual

/-- The functions that a command is made into, each by the stem and the number of its name. -/
def LoweredCommand.functions : LoweredCommand → List (String × Nat)
  | .call n _ _ => [("cmd", n)]
  | .letIn n _ _ _ => [("cmd", n), ("let", n)]
  | .branch n _ _ onTrue onFalse =>
    [("cmd", n), ("then", n), ("else", n)] ++ (onTrue.functions ++ onFalse.functions)

def LoweredBlock.functions : LoweredBlock → List (String × Nat)
  | .mk commands _ => allFunctions commands

def allFunctions : List LoweredCommand → List (String × Nat)
  | [] => []
  | command :: commands => command.functions ++ allFunctions commands

end

mutual

def LoweredCommand.count : LoweredCommand → Nat
  | .call _ _ _ | .letIn _ _ _ _ => 1
  | .branch _ _ _ onTrue onFalse => 1 + (onTrue.count + onFalse.count)

def LoweredBlock.count : LoweredBlock → Nat
  | .mk commands _ => countAll commands

def countAll : List LoweredCommand → Nat
  | [] => 0
  | command :: commands => command.count + countAll commands

end

mutual

def LoweredCommand.numbers : LoweredCommand → List Nat
  | .call n _ _ | .letIn n _ _ _ => [n]
  | .branch n _ _ onTrue onFalse => n :: (onTrue.numbers ++ onFalse.numbers)

def LoweredBlock.numbers : LoweredBlock → List Nat
  | .mk commands _ => allNumbers commands

def allNumbers : List LoweredCommand → List Nat
  | [] => []
  | command :: commands => command.numbers ++ allNumbers commands

end

def LoweredCall.callee (c : LoweredCall) : String × String := (c.package, c.function)

mutual

def LoweredCommand.calls : LoweredCommand → List LoweredCall
  | .call _ _ call => [call]
  | .letIn _ _ bindings body => bindings.map Prod.snd ++ [body]
  | .branch _ _ _ onTrue onFalse => onTrue.calls ++ onFalse.calls

def LoweredBlock.calls : LoweredBlock → List LoweredCall
  | .mk commands _ => allCalls commands

def allCalls : List LoweredCommand → List LoweredCall
  | [] => []
  | command :: commands => command.calls ++ allCalls commands

end

def LoweredValue.reads : LoweredValue → List LocalVariable
  | .bound v => [v]
  | .input _ | .state _ | .constant _ => []

def LoweredCall.reads (c : LoweredCall) : List LocalVariable :=
  c.arguments.flatMap LoweredValue.reads

def LoweredCondition.reads : LoweredCondition → List LocalVariable
  | .binary _ left right => left.reads ++ right.reads
  | .paren inner => inner.reads
  | .value v => v.reads

mutual

/-- The variables of which a command reads the values. -/
def LoweredCommand.reads : LoweredCommand → List LocalVariable
  | .call _ _ call => call.reads
  | .letIn _ _ bindings body => bindings.flatMap (fun b => b.2.reads) ++ body.reads
  | .branch _ _ condition onTrue onFalse => condition.reads ++ (onTrue.reads ++ onFalse.reads)

def LoweredBlock.reads : LoweredBlock → List LocalVariable
  | .mk commands result => allReads commands ++ result.toList.flatMap LoweredValue.reads

def allReads : List LoweredCommand → List LocalVariable
  | [] => []
  | command :: commands => command.reads ++ allReads commands

end

theorem LoweredCommand.induct {P : LoweredCommand → Prop} {B : LoweredBlock → Prop}
    {L : List LoweredCommand → Prop} (call : ∀ n target call, P (.call n target call))
    (letIn : ∀ n target bindings body, P (.letIn n target bindings body))
    (branch : ∀ n target condition onTrue onFalse, B onTrue → B onFalse →
      P (.branch n target condition onTrue onFalse))
    (block : ∀ commands result, L commands → B (.mk commands result))
    (nil : L []) (cons : ∀ command commands, P command → L commands → L (command :: commands)) :
    (∀ command, P command) ∧ (∀ block, B block) ∧ ∀ commands, L commands :=
  ⟨@LoweredCommand.rec P B L call letIn branch block nil cons,
    @LoweredBlock.rec P B L call letIn branch block nil cons,
    @LoweredCommand.rec_1 P B L call letIn branch block nil cons⟩

def numberedFrom (n : Nat) (ids : List Ident) : List LocalVariable :=
  (ids.zipIdx n).map fun (id, k) => ⟨id.name, k⟩

theorem numberedFrom_append (n : Nat) (ids ids' : List Ident) :
    numberedFrom n (ids ++ ids') = numberedFrom n ids ++ numberedFrom (n + ids.length) ids' := by
  simp [numberedFrom, List.zipIdx_append]

theorem exists_of_mem_numberedFrom {n : Nat} {ids : List Ident} {v : LocalVariable}
    (h : v ∈ numberedFrom n ids) :
    ∃ id ∈ ids, id.name = v.name := by
  obtain ⟨⟨id, k⟩, hmem, rfl⟩ := List.mem_map.mp h
  exact ⟨id, List.fst_mem_of_mem_zipIdx hmem, rfl⟩

theorem map_number_numberedFrom (n : Nat) (ids : List Ident) :
    (numberedFrom n ids).map LocalVariable.number = List.range' n ids.length := by
  rw [numberedFrom, List.map_map]
  exact List.zipIdx_map_snd n ids

theorem nodup_numberedFrom (n : Nat) (ids : List Ident) :
    ((numberedFrom n ids).map LocalVariable.number).Nodup := by
  rw [map_number_numberedFrom]
  exact List.nodup_range'

namespace Numbering

variable {ν : Numbering}

@[simp] theorem next_push (ν : Numbering) : ν.push.next = ν.next := rfl

@[simp] theorem next_pop (ν : Numbering) : ν.pop.next = ν.next := rfl

theorem target_eq (ν : Numbering) (target : Option Ident) :
    (ν.target target).toList = numberedFrom ν.next target.toList := by
  cases target <;> rfl

theorem next_afterTarget (ν : Numbering) (target : Option Ident) :
    (ν.afterTarget target).next = ν.next + target.toList.length := by
  cases target <;> rfl

theorem bindings_eq (ν : Numbering) (bindings : List LetBinding) :
    (ν.bindings bindings).map Prod.fst = numberedFrom ν.next (bindings.map LetBinding.target) ∧
      (ν.afterBindings bindings).next = ν.next + bindings.length := by
  induction bindings generalizing ν with
  | nil => exact ⟨rfl, rfl⟩
  | cons b bindings ih =>
    obtain ⟨hnames, hnext⟩ := ih (ν.bind b.target.name)
    refine ⟨congrArg (_ :: ·) hnames, hnext.trans ?_⟩
    simp only [Numbering.bind, List.length_cons]
    omega

theorem variables_of_lowers :
    (∀ command (ν : Numbering) l, ν.CommandLowers command l →
      l.locals = numberedFrom ν.next command.bound ∧
        (ν.afterCommand command).next = ν.next + command.bound.length) ∧
    (∀ block (ν : Numbering) l, ν.BlockLowers block l →
      l.locals = numberedFrom ν.next block.bound ∧ (ν.afterBlock block).next =
        ν.next + block.bound.length) ∧
    ∀ commands (ν : Numbering) ls, ν.CommandsLower commands ls →
      allVariables ls = numberedFrom ν.next (allBound commands) ∧
        (ν.afterCommands commands).next = ν.next + (allBound commands).length := by
  refine Command.induct ?call ?letIn ?branch ?failed ?block ?nil ?cons
  case call =>
    rintro target call span ν l ⟨n, rfl⟩
    exact ⟨ν.target_eq target, ν.next_afterTarget target⟩
  case letIn =>
    rintro target bindings body span ν l ⟨n, rfl⟩
    obtain ⟨hnames, hnext⟩ := ν.push.bindings_eq bindings
    simp only [LoweredCommand.locals, Command.bound, afterCommand, target_eq, next_afterTarget,
      next_pop, hnames, hnext, next_push, numberedFrom_append, List.length_append, List.length_map,
      Nat.add_assoc, and_self]
  case branch =>
    rintro target condition onTrue onFalse span iht ihf ν l ⟨n, t, f, htrue, hfalse, rfl⟩
    obtain ⟨htnames, htnext⟩ := iht _ _ htrue
    obtain ⟨hfnames, hfnext⟩ := ihf _ _ hfalse
    simp only [LoweredCommand.locals, Command.bound, afterCommand, target_eq, next_afterTarget,
      next_pop, htnames, hfnames, htnext, hfnext, next_push, numberedFrom_append,
      List.length_append, Nat.add_assoc, and_self]
  case failed =>
    intro span ν l h
    exact h.elim
  case block =>
    rintro commands result span ih ν l ⟨ls, hls, rfl⟩
    exact ih ν ls hls
  case nil =>
    rintro ν ls rfl
    exact ⟨rfl, rfl⟩
  case cons =>
    rintro command commands ihc ihs ν ls ⟨l, rest, hl, hrest, rfl⟩
    obtain ⟨hnames, hnext⟩ := ihc ν l hl
    obtain ⟨hnames', hnext'⟩ := ihs _ rest hrest
    simp only [allVariables, allBound, afterCommands, hnames, hnames', hnext, hnext',
      numberedFrom_append, List.length_append, Nat.add_assoc, and_self]

def Known (ν : Numbering) (vs : List LocalVariable) : Prop :=
  ∀ frame ∈ ν.frames, ∀ b ∈ frame, (⟨b.1, b.2⟩ : LocalVariable) ∈ vs

theorem mem_of_lookup {x : String} {n : Nat} {frame : List (String × Nat)}
    (h : frame.lookup x = some n) :
    (x, n) ∈ frame := by
  induction frame with
  | nil => cases h
  | cons b frame ih =>
    rw [List.lookup_cons] at h
    split at h
    · rename_i hx
      cases h
      rw [beq_iff_eq.mp hx]
      exact List.mem_cons_self
    · exact List.mem_cons_of_mem _ (ih h)

theorem exists_of_find? {x : String} {n : Nat} {frames : Frames Nat} (h : frames.find? x = some n) :
    ∃ frame ∈ frames, (x, n) ∈ frame := by
  induction frames with
  | nil => cases h
  | cons frame outer ih =>
    rw [Frames.find?, Option.or_eq_some_iff] at h
    rcases h with h | ⟨-, h⟩
    · exact ⟨frame, List.mem_cons_self, mem_of_lookup h⟩
    · obtain ⟨frame', hframe', hmem⟩ := ih h
      exact ⟨frame', List.mem_cons_of_mem _ hframe', hmem⟩

section Known

variable {vs : List LocalVariable} (h : ν.Known vs)
include h

theorem Known.value (operand : Operand) : (ν.value operand).reads ⊆ vs := by
  cases operand with
  | ident id =>
    cases hid : ν.frames.find? id.name with
    | none => simp [Numbering.value, hid, LoweredValue.reads]
    | some n =>
      obtain ⟨frame, hframe, hmem⟩ := exists_of_find? hid
      simpa [Numbering.value, hid, LoweredValue.reads] using h frame hframe _ hmem
  | state id | literal lit => exact List.nil_subset _

theorem Known.call (c : Call) : (ν.call c).reads ⊆ vs := by
  intro v hv
  simp only [Numbering.call, LoweredCall.reads, List.flatMap_map, List.mem_flatMap] at hv
  obtain ⟨operand, -, hv⟩ := hv
  exact h.value operand hv

theorem Known.condition (c : Condition) : (ν.condition c).reads ⊆ vs := by
  induction c with
  | binary op left right span ihl ihr => exact List.append_subset.mpr ⟨ihl, ihr⟩
  | paren inner span ih => exact ih
  | terminal operand => exact h.value operand

theorem Known.push : ν.push.Known vs := List.forall_mem_cons.mpr ⟨List.forall_mem_nil _, h⟩

theorem Known.pop : ν.pop.Known vs := fun frame hframe => h frame (List.mem_of_mem_tail hframe)

theorem Known.bind {x : String} (hx : ⟨x, ν.next⟩ ∈ vs) : (ν.bind x).Known vs := by
  unfold Known Numbering.bind at *
  cases hframes : ν.frames with
  | nil => exact List.forall_mem_nil _
  | cons frame outer =>
    rw [hframes, List.forall_mem_cons] at h
    exact List.forall_mem_cons.mpr ⟨List.forall_mem_cons.mpr ⟨hx, h.1⟩, h.2⟩

theorem Known.afterTarget {target : Option Ident} (ht : (ν.target target).toList ⊆ vs) :
    (ν.afterTarget target).Known vs := by
  cases target with
  | none => exact h
  | some id => exact h.bind (ht List.mem_cons_self)

omit h in
theorem Known.bindings {ν : Numbering} (h : ν.Known vs) {bindings : List LetBinding}
    (hb : (ν.bindings bindings).map Prod.fst ⊆ vs) :
    (ν.bindings bindings).flatMap (fun b => b.2.reads) ⊆ vs ∧
    (ν.afterBindings bindings).Known vs := by
  induction bindings generalizing ν with
  | nil => exact ⟨List.nil_subset _, h⟩
  | cons b bindings ih =>
    simp only [Numbering.bindings, List.map_cons, List.cons_subset] at hb
    obtain ⟨hreads, hknown⟩ := ih (h.bind hb.1) hb.2
    exact ⟨List.append_subset.mpr ⟨h.call b.call, hreads⟩, hknown⟩

end Known

theorem reads_of_lowers (vs : List LocalVariable) :
    (∀ command (ν : Numbering) l, ν.CommandLowers command l → ν.Known vs → l.locals ⊆ vs →
      l.reads ⊆ vs ∧ (ν.afterCommand command).Known vs) ∧
    (∀ block (ν : Numbering) l, ν.BlockLowers block l → ν.Known vs → l.locals ⊆ vs →
      l.reads ⊆ vs ∧ (ν.afterBlock block).Known vs) ∧
    ∀ commands (ν : Numbering) ls, ν.CommandsLower commands ls → ν.Known vs → allVariables ls ⊆ vs →
      allReads ls ⊆ vs ∧ (ν.afterCommands commands).Known vs := by
  refine Command.induct ?call ?letIn ?branch ?failed ?block ?nil ?cons
  case call =>
    rintro target call span ν l ⟨n, rfl⟩ hknown hvs
    exact ⟨hknown.call call, hknown.afterTarget hvs⟩
  case letIn =>
    rintro target bindings body span ν l ⟨n, rfl⟩ hknown hvs
    obtain ⟨hbindings, htarget⟩ := List.append_subset.mp hvs
    obtain ⟨hreads, hinner⟩ := hknown.push.bindings hbindings
    exact ⟨List.append_subset.mpr ⟨hreads, hinner.call body⟩, hinner.pop.afterTarget htarget⟩
  case branch =>
    rintro target condition onTrue onFalse span iht ihf ν l ⟨n, t, f, htrue, hfalse, rfl⟩ hknown hvs
    obtain ⟨hblocks, htarget⟩ := List.append_subset.mp hvs
    obtain ⟨htvs, hfvs⟩ := List.append_subset.mp hblocks
    obtain ⟨htreads, htknown⟩ := iht _ _ htrue hknown.push htvs
    obtain ⟨hfreads, hfknown⟩ := ihf _ _ hfalse htknown.pop.push hfvs
    exact ⟨List.append_subset.mpr ⟨hknown.condition condition,
      List.append_subset.mpr ⟨htreads, hfreads⟩⟩, hfknown.pop.afterTarget htarget⟩
  case failed =>
    intro span ν l h
    exact h.elim
  case block =>
    rintro commands result span ih ν l ⟨ls, hls, rfl⟩ hknown hvs
    obtain ⟨hreads, hafter⟩ := ih ν ls hls hknown hvs
    refine ⟨List.append_subset.mpr ⟨hreads, ?_⟩, hafter⟩
    cases result with
    | unit span => exact List.nil_subset _
    | value operand => simpa [Numbering.result] using hafter.value operand
  case nil =>
    rintro ν ls rfl hknown -
    exact ⟨List.nil_subset _, hknown⟩
  case cons =>
    rintro command commands ihc ihs ν ls ⟨l, rest, hl, hrest, rfl⟩ hknown hvs
    obtain ⟨hvs, hvs'⟩ := List.append_subset.mp hvs
    obtain ⟨hreads, hafter⟩ := ihc ν l hl hknown hvs
    obtain ⟨hreads', hafter'⟩ := ihs _ rest hrest hafter hvs'
    exact ⟨List.append_subset.mpr ⟨hreads, hreads'⟩, hafter'⟩

theorem callees_bindings (ν : Numbering) (bindings : List LetBinding) :
    (ν.bindings bindings).map (fun b => b.2.callee) =
      bindings.map fun b => (b.call.package.name, b.call.function.name) := by
  induction bindings generalizing ν with
  | nil => rfl
  | cons b bindings ih => exact congrArg (_ :: ·) (ih _)

theorem callees_of_lowers :
    (∀ command (ν : Numbering) l, ν.CommandLowers command l →
      l.calls.map LoweredCall.callee =
        command.calls.map fun c => (c.package.name, c.function.name)) ∧
    (∀ block (ν : Numbering) l, ν.BlockLowers block l →
      l.calls.map LoweredCall.callee = block.calls.map fun c => (c.package.name, c.function.name)) ∧
    ∀ commands (ν : Numbering) ls, ν.CommandsLower commands ls →
      (allCalls ls).map LoweredCall.callee =
        (callsOf commands).map fun c => (c.package.name, c.function.name) := by
  refine Command.induct ?call ?letIn ?branch ?failed ?block ?nil ?cons
  case call =>
    rintro target call span ν l ⟨n, rfl⟩
    rfl
  case letIn =>
    rintro target bindings body span ν l ⟨n, rfl⟩
    simp only [LoweredCommand.calls, Command.calls, List.map_append, List.map_map,
      Function.comp_def, callees_bindings]
    rfl
  case branch =>
    rintro target condition onTrue onFalse span iht ihf ν l ⟨n, t, f, htrue, hfalse, rfl⟩
    simp only [LoweredCommand.calls, Command.calls, List.map_append, iht _ _ htrue, ihf _ _ hfalse]
  case failed =>
    intro span ν l h
    exact h.elim
  case block =>
    rintro commands result span ih ν l ⟨ls, hls, rfl⟩
    exact ih ν ls hls
  case nil =>
    rintro ν ls rfl
    rfl
  case cons =>
    rintro command commands ihc ihs ν ls ⟨l, rest, hl, hrest, rfl⟩
    simp only [allCalls, callsOf, List.map_append, ihc _ _ hl, ihs _ _ hrest]

end Numbering

/-- Functions with numbers from one on and below another, and for each of these numbers a
command. -/
structure NumberedBetween (first : Nat) (fs : List (String × Nat)) (next : Nat) : Prop where
  le : first ≤ next
  nodup : fs.Nodup
  stem : ∀ x ∈ fs, x.1 ∈ ["cmd", "let", "then", "else"]
  range : ∀ x ∈ fs, first ≤ x.2 ∧ x.2 < next
  command : ∀ k, first ≤ k → k < next → ("cmd", k) ∈ fs

namespace NumberedBetween

variable {first mid next : Nat} {fs gs : List (String × Nat)}

theorem nil (n : Nat) : NumberedBetween n [] n :=
  ⟨Nat.le_refl n, List.nodup_nil, List.forall_mem_nil _, List.forall_mem_nil _,
    fun k h h' => by omega⟩

theorem one (n : Nat) (stems : List String) (hnodup : stems.Nodup)
    (hstems : ∀ s ∈ stems, s ∈ ["cmd", "let", "then", "else"]) (hcommand : "cmd" ∈ stems) :
    NumberedBetween n (stems.map (·, n)) (n + 1) where
  le := Nat.le_succ n
  nodup := List.pairwise_map.mpr (hnodup.imp fun hne heq => hne (congrArg Prod.fst heq))
  stem := List.forall_mem_map.mpr hstems
  range := List.forall_mem_map.mpr fun s _ => by simp
  command k hk hk' := by
    obtain rfl : k = n := by omega
    exact List.mem_map.mpr ⟨"cmd", hcommand, rfl⟩

theorem append (h : NumberedBetween first fs mid) (h' : NumberedBetween mid gs next) :
    NumberedBetween first (fs ++ gs) next where
  le := Nat.le_trans h.le h'.le
  nodup := by
    refine List.nodup_append.mpr ⟨h.nodup, h'.nodup, ?_⟩
    rintro x hx y hy rfl
    have := h.range x hx
    have := h'.range x hy
    omega
  stem := List.forall_mem_append.mpr ⟨h.stem, h'.stem⟩
  range := by
    refine List.forall_mem_append.mpr ⟨fun x hx => ?_, fun x hx => ?_⟩
    · have := h.range x hx
      have := h'.le
      omega
    · have := h'.range x hx
      have := h.le
      omega
  command k hk hk' := by
    by_cases hmid : k < mid
    · exact List.mem_append_left _ (h.command k hk hmid)
    · exact List.mem_append_right _ (h'.command k (by omega) hk')

end NumberedBetween

theorem exists_of_bind_eq_ok {ε α β : Type} {x : Except ε α} {f : α → Except ε β} {b : β}
    (h : (x >>= f) = .ok b) : ∃ a, x = .ok a ∧ f a = .ok b := by
  cases x with
  | error e => cases h
  | ok a => exact ⟨a, rfl, h⟩

namespace LeafTables

/-- Along a lowering that succeeds: what the commands are lowered to, and the number behind them. -/
theorem lower_induct (t : LeafTables) {P : Command → Nat → LoweredCommand → Nat → Prop}
    {B : Block → Nat → LoweredBlock → Nat → Prop}
    {L : List Command → Nat → List LoweredCommand → Nat → Prop}
    (hcall : ∀ target call span number v c,
      P (.call target call span) number (.call number v c) (number + 1))
    (hlet : ∀ target bindings body span number v bs c,
      P (.letIn target bindings body span) number (.letIn number v bs c) (number + 1))
    (hbranch : ∀ target condition onTrue onFalse span number v c lt lf mid next,
      t.lowerCondition condition = .ok c → B onTrue (number + 1) lt mid → B onFalse mid lf next →
      P (.branch target condition onTrue onFalse span) number (.branch number v c lt lf) next)
    (hblock : ∀ commands result span number ls v next, L commands number ls next →
      B (.mk commands result span) number (.mk ls v) next)
    (hnil : ∀ number, L [] number [] number)
    (hcons : ∀ command commands number l ls mid next, P command number l mid →
      L commands mid ls next → L (command :: commands) number (l :: ls) next) :
    (∀ command number l next, t.lowerCommand number command = .ok (l, next) →
      P command number l next) ∧
    (∀ block number l next, t.lowerBlock number block = .ok (l, next) → B block number l next) ∧
    ∀ commands number ls next, t.lowerCommands number commands = .ok (ls, next) →
    L commands number ls next := by
  refine Command.induct ?call ?letIn ?branch ?failed ?block ?nil ?cons
  case call =>
    intro target call span number l next h
    obtain ⟨c, -, h⟩ := exists_of_bind_eq_ok h
    obtain ⟨v, -, h⟩ := exists_of_bind_eq_ok h
    cases h
    exact hcall target call span number v c
  case letIn =>
    intro target bindings body span number l next h
    obtain ⟨bs, -, h⟩ := exists_of_bind_eq_ok h
    obtain ⟨c, -, h⟩ := exists_of_bind_eq_ok h
    obtain ⟨v, -, h⟩ := exists_of_bind_eq_ok h
    cases h
    exact hlet target bindings body span number v bs c
  case branch =>
    intro target condition onTrue onFalse span iht ihf number l next h
    obtain ⟨c, hc, h⟩ := exists_of_bind_eq_ok h
    obtain ⟨⟨lt, mid⟩, ht, h⟩ := exists_of_bind_eq_ok h
    obtain ⟨⟨lf, last⟩, hf, h⟩ := exists_of_bind_eq_ok h
    obtain ⟨v, -, h⟩ := exists_of_bind_eq_ok h
    cases h
    exact hbranch target condition onTrue onFalse span number v c lt lf mid next hc (iht _ _ _ ht)
      (ihf _ _ _ hf)
  case failed =>
    intro span number l next h
    cases h
  case block =>
    intro commands result span ih number l next h
    obtain ⟨⟨ls, last⟩, hls, h⟩ := exists_of_bind_eq_ok h
    obtain ⟨v, -, h⟩ := exists_of_bind_eq_ok h
    cases h
    exact hblock commands result span number ls v next (ih _ _ _ hls)
  case nil =>
    intro number ls next h
    cases h
    exact hnil number
  case cons =>
    intro command commands ihc ihs number ls next h
    obtain ⟨⟨l, mid⟩, hl, h⟩ := exists_of_bind_eq_ok h
    obtain ⟨⟨rest, last⟩, hrest, h⟩ := exists_of_bind_eq_ok h
    cases h
    exact hcons command commands number l rest mid next (ihc _ _ _ hl) (ihs _ _ _ hrest)

theorem numberedBetween_of_lower (t : LeafTables) :
    (∀ command number l next, t.lowerCommand number command = .ok (l, next) →
      NumberedBetween number l.functions next ∧ next = number + l.count ∧ l.numbers =
        List.range' number l.count) ∧
    (∀ block number l next, t.lowerBlock number block = .ok (l, next) →
      NumberedBetween number l.functions next ∧ next = number + l.count ∧ l.numbers =
        List.range' number l.count) ∧
    ∀ commands number ls next, t.lowerCommands number commands = .ok (ls, next) →
      NumberedBetween number (allFunctions ls) next ∧ next = number + countAll ls ∧
        allNumbers ls = List.range' number (countAll ls) := by
  refine t.lower_induct ?call ?letIn ?branch ?block ?nil ?cons
  case call =>
    intro target call span number v c
    exact ⟨.one number ["cmd"] (by decide) (by decide) (by decide), rfl, rfl⟩
  case letIn =>
    intro target bindings body span number v bs c
    exact ⟨.one number ["cmd", "let"] (by decide) (by decide) (by decide), rfl, rfl⟩
  case branch =>
    rintro target condition onTrue onFalse span number v c lt lf mid next - ⟨ht, rfl, htnumbers⟩
      ⟨hf, rfl, hfnumbers⟩
    refine ⟨.append (.one number ["cmd", "then", "else"] (by decide) (by decide) (by decide))
      (ht.append hf), ?_, ?_⟩
    · rw [LoweredCommand.count]
      omega
    · rw [LoweredCommand.numbers, htnumbers, hfnumbers, List.range'_append_1, LoweredCommand.count,
        Nat.add_comm 1, List.range'_succ]
  case block =>
    intro commands result span number ls v next h
    exact h
  case nil =>
    intro number
    exact ⟨.nil number, rfl, rfl⟩
  case cons =>
    rintro command commands number l ls mid next ⟨hl, rfl, hnumbers⟩ ⟨hls, rfl, hnumbers'⟩
    refine ⟨hl.append hls, by rw [countAll, Nat.add_assoc], ?_⟩
    rw [allNumbers, hnumbers, hnumbers', List.range'_append_1, countAll]

end LeafTables

namespace LoweredLeaf

def locals (leaf : LoweredLeaf) : List LocalVariable := allVariables leaf.commands

def functions (leaf : LoweredLeaf) : List (String × Nat) := allFunctions leaf.commands

def commandCount (leaf : LoweredLeaf) : Nat := countAll leaf.commands

def calls (leaf : LoweredLeaf) : List LoweredCall := allCalls leaf.commands

def reads (leaf : LoweredLeaf) : List LocalVariable :=
  allReads leaf.commands ++ leaf.returns.flatMap fun x => x.2.reads

end LoweredLeaf

theorem DoBlock.functions_of_lower {body : DoBlock} {t : LeafTables} {leaf : LoweredLeaf}
    (h : body.lower t = .ok leaf) :
    NumberedBetween 0 leaf.functions leaf.commandCount := by
  obtain ⟨⟨ls, next⟩, hls, h⟩ := exists_of_bind_eq_ok h
  obtain ⟨returns, -, h⟩ := exists_of_bind_eq_ok h
  cases h
  obtain ⟨hnumbered, hnext, -⟩ := t.numberedBetween_of_lower.2.2 _ _ _ _ hls
  rw [Nat.zero_add] at hnext
  subst hnext
  exact hnumbered

namespace Numbering.BodyLowers

variable {body : DoBlock} {leaf : LoweredLeaf} (h : BodyLowers body leaf)
include h

theorem locals : leaf.locals = numberedFrom 0 (allBound body.commands) :=
  (variables_of_lowers.2.2 _ _ _ h.1).1

theorem callees : leaf.calls.map LoweredCall.callee =
    (callsOf body.commands).map fun c => (c.package.name, c.function.name) :=
  callees_of_lowers.2.2 _ _ _ h.1

theorem packages : leaf.calls.map LoweredCall.package = (callsOf body.commands).map fun c =>
      c.package.name := by
  simpa [LoweredCall.callee, Function.comp_def] using congrArg (List.map Prod.fst) h.callees

theorem reads : leaf.reads ⊆ leaf.locals := by
  have hstart : start.Known leaf.locals := by simp [Known, start]
  obtain ⟨hreads, hafter⟩ := (reads_of_lowers leaf.locals).2.2 _ _ _ h.1 hstart (List.Subset.refl _)
  refine List.append_subset.mpr ⟨hreads, ?_⟩
  rw [h.2, List.flatMap_map]
  intro v hv
  obtain ⟨m, -, hv⟩ := List.mem_flatMap.mp hv
  exact hafter.value m.source hv

end Numbering.BodyLowers

end PipelineLang
