import PipelineLang.Proofs.Compilation.Acceptance
import PipelineLang.Proofs.Grammar.Names
import PipelineLang.Proofs.Leaf.Numbers
import PipelineLang.Proofs.Leaf.Refinement
import PipelineLang.Proofs.Symbols.Imports
import PipelineLang.Proofs.Target.Layout
import PipelineLang.Proofs.Target.Names

/-! The names in the code of a leaf. Each of its functions and variables has a name of its own
unless the program calls a variable `cmd`, and none hides a module that is called unless the program
has chosen the name of the module so that it does. -/

namespace PipelineLang

namespace Target

open Statement

def ordinals (leaf : LoweredLeaf) : List (String × Nat) :=
  leaf.functions ++ leaf.locals.map fun v => (v.name, v.number)

/-- The names that the code of a leaf binds, without the mark in front of them. -/
def ownNames (instrument : Bool) (leaf : LoweredLeaf) : List String :=
  "leaf" :: ((if instrument then ["outputs"] else []) ++ (ordinals leaf).map ordinal)

section Binds

variable (instrument : Bool)

theorem binds_traceCode (shown function what value : String) :
    (traceCode shown function what value).binds = [] := by
  have htext : "____instr_component(" ++ shown ++ ", id(" ++ function ++ "), '" ++ what ++ "', " ++
      value ++ ", s)" =
      "____instr_component" ++ ("(" ++
        (shown ++ ", id(" ++ function ++ "), '" ++ what ++ "', " ++ value ++ ", s)")) := by
    simp [← String.append_assoc]
  rw [traceCode, htext, binds_call (by decide)]

theorem wordChars_variableName {v : LocalVariable} (h : IsName v.name) :
    WordChars (variableName v) :=
  wordChars_numbered h.isWord.forall v.number

theorem variableName_ne_return (v : LocalVariable) : variableName v ≠ "return" :=
  numbered_ne_return _ _

theorem bodyBinds_runCommand (n : Nat) {target : Option LocalVariable} (body : List Statement)
    (htarget : ∀ v ∈ target.toList, IsName v.name) :
    bodyBinds (runCommand instrument n target body) =
      commandName n :: (bodyBinds body ++ target.toList.map variableName) := by
  have hname : WordChars (commandName n) := wordChars_numbered (by decide) n
  have htrace : bodyBinds (if instrument
      then [traceCode ("'" ++ commandName n ++ "'") (commandName n) "starting" "a"]
      else []) = [] := by
    cases instrument <;> simp [bodyBinds, binds_traceCode]
  have hdefine : ∀ ss, (define (commandName n ++ "()") ss).binds = commandName n :: bodyBinds ss :=
    binds_define hname ")"
  cases target with
  | none =>
    have hcall : (line (commandName n ++ "()")).binds = [] := binds_call hname ")"
    simp [runCommand, bodyBinds, hdefine, bodyBinds_append, htrace, hcall]
  | some v =>
    have hrun : (line (variableName v ++ " = " ++ commandName n ++ "()")).binds =
        [variableName v] := by
      rw [String.append_assoc, String.append_assoc]
      exact binds_assign (wordChars_variableName (htarget v (by simp))) (variableName_ne_return v) _
    simp [runCommand, bodyBinds, hdefine, bodyBinds_append, htrace, hrun]

theorem bodyBinds_bindings {bindings : List (LocalVariable × LoweredCall)}
    (h : ∀ v ∈ bindings.map Prod.fst, IsName v.name) :
    bodyBinds (bindings.map fun (v, call) => line (variableName v ++ " = " ++ callCode call)) =
      (bindings.map Prod.fst).map variableName := by
  induction bindings with
  | nil => rfl
  | cons b bindings ih =>
    rw [List.map_cons, List.forall_mem_cons] at h
    have hassign := binds_assign (wordChars_variableName h.1) (variableName_ne_return b.1)
      (callCode b.2)
    rw [← String.append_assoc] at hassign
    simp [bodyBinds, hassign, ih h.2]

/-- Where the variables have names, the code binds these and those of the functions, and no
others. -/
def BindsOwn (code : List Statement) (functions : List (String × Nat))
    (locals : List LocalVariable) : Prop :=
  (∀ v ∈ locals, IsName v.name) →
    (bodyBinds code).Perm (functions.map (fun x => numbered x.1 x.2) ++ locals.map variableName)

theorem BindsOwn.append {code code' : List Statement} {functions functions' : List (String × Nat)}
    {locals locals' : List LocalVariable} (h : BindsOwn code functions locals)
    (h' : BindsOwn code' functions' locals') :
    BindsOwn (code ++ code') (functions ++ functions') (locals ++ locals') := by
  intro hnames
  obtain ⟨hleft, hright⟩ := List.forall_mem_append.mp hnames
  rw [bodyBinds_append]
  refine List.perm_iff_count.mpr fun name => ?_
  have hcount := List.perm_iff_count.mp (h hleft) name
  have hcount' := List.perm_iff_count.mp (h' hright) name
  simp only [List.count_append, List.map_append] at hcount hcount' ⊢
  omega

theorem bindsOwn_letIn (n : Nat) (target : Option LocalVariable)
    (bindings : List (LocalVariable × LoweredCall)) (body : LoweredCall) :
    let command : LoweredCommand := .letIn n target bindings body
    BindsOwn (commandCode instrument command) command.functions command.locals := by
  intro command h
  obtain ⟨hbindings, htarget⟩ := List.forall_mem_append.mp h
  have hassign := bodyBinds_bindings hbindings
  have hdefine : ∀ ss, (define (letName n ++ "()") ss).binds = letName n :: bodyBinds ss :=
    binds_define (wordChars_numbered (by decide) n) ")"
  have hreturn : (line ("return " ++ letName n ++ "()")).binds = [] := by
    rw [String.append_assoc]
    exact binds_return _
  rw [commandCode, bodyBinds_runCommand instrument n _ htarget]
  simp only [command, bodyBinds, bodyBinds_append, hdefine, hassign, hreturn, binds_return,
    LoweredCommand.functions, LoweredCommand.locals]
  simp [commandName, letName]

theorem bindsOwn_branch {onTrue onFalse : LoweredBlock}
    (ht : BindsOwn (blockCode instrument onTrue) onTrue.functions onTrue.locals)
    (hf : BindsOwn (blockCode instrument onFalse) onFalse.functions onFalse.locals) (n : Nat)
    (target : Option LocalVariable) (condition : LoweredCondition) :
    let command : LoweredCommand := .branch n target condition onTrue onFalse
    BindsOwn (commandCode instrument command) command.functions command.locals := by
  intro command h
  obtain ⟨hblocks, htarget⟩ := List.forall_mem_append.mp h
  obtain ⟨htrue, hfalse⟩ := List.forall_mem_append.mp hblocks
  have hthen : ∀ ss, (define (thenName n ++ "()") ss).binds = thenName n :: bodyBinds ss :=
    binds_define (wordChars_numbered (by decide) n) ")"
  have helse : ∀ ss, (define (elseName n ++ "()") ss).binds = elseName n :: bodyBinds ss :=
    binds_define (wordChars_numbered (by decide) n) ")"
  have hreturn : (line ("return " ++ thenName n ++ "() if " ++ leafCondition condition
      ++ " else " ++ elseName n ++ "()")).binds = [] := by
    simp only [String.append_assoc]
    exact binds_return _
  rw [commandCode, bodyBinds_runCommand instrument n _ htarget]
  simp only [command, bodyBinds, hthen, helse, hreturn, LoweredCommand.functions,
    LoweredCommand.locals]
  -- the names of each block stand behind the name of its function
  refine List.perm_iff_count.mpr fun name => ?_
  have hcount := List.perm_iff_count.mp (ht htrue) name
  have hcount' := List.perm_iff_count.mp (hf hfalse) name
  simp only [List.count_append] at hcount hcount'
  simp [List.count_cons, commandName, thenName, elseName, hcount, hcount']
  omega

theorem bindsOwn_commandsCode :
    (∀ command : LoweredCommand,
      BindsOwn (commandCode instrument command) command.functions command.locals) ∧
    (∀ block : LoweredBlock, BindsOwn (blockCode instrument block) block.functions block.locals) ∧
    ∀ commands, BindsOwn (commandsCode instrument commands) (allFunctions commands)
      (allVariables commands) := by
  refine LoweredCommand.induct ?call (bindsOwn_letIn instrument) ?branch ?block ?nil ?cons
  case call =>
    intro n target call h
    rw [commandCode, bodyBinds_runCommand instrument n _ h]
    simp [bodyBinds, binds_return, LoweredCommand.functions, LoweredCommand.locals, commandName]
  case branch =>
    intro n target condition onTrue onFalse iht ihf
    exact bindsOwn_branch instrument iht ihf n target condition
  case block =>
    intro commands result ih h
    have hblock : bodyBinds (blockCode instrument (.mk commands result)) =
        bodyBinds (commandsCode instrument commands) := by
      rw [blockCode.eq_def]
      simp [bodyBinds_append, bodyBinds, binds_return]
    rw [hblock]
    exact ih h
  case nil => exact fun _ => .refl _
  case cons =>
    intro command commands ihc ihs
    rw [commandsCode]
    exact ihc.append ihs

end Binds

theorem map_moduleName_ownNames (instrument : Bool) (leaf : LoweredLeaf) :
    (ownNames instrument leaf).map moduleName =
      "____leaf" :: ((if instrument then ["____outputs"] else [])
      ++ (leaf.functions.map (fun x => numbered x.1 x.2) ++ leaf.locals.map variableName)) := by
  have hordinals : ((ordinals leaf).map ordinal).map moduleName =
      leaf.functions.map (fun x => numbered x.1 x.2) ++ leaf.locals.map variableName := by
    simp [ordinals, variableName, numbered_eq, Function.comp_def]
  rw [ownNames, List.map_cons, List.map_append, hordinals]
  cases instrument <;> rfl

theorem perm_bodyBinds_leafBody (instrument : Bool) {leaf : LoweredLeaf}
    (h : ∀ v ∈ leaf.locals, IsName v.name) :
    (bodyBinds (leafBody instrument leaf)).Perm ((ownNames instrument leaf).map moduleName) := by
  have hcommands := (bindsOwn_commandsCode instrument).2.2 leaf.commands h
  have hdefine : ∀ ss, (define "____leaf(a, s)" ss).binds = "____leaf" :: bodyBinds ss :=
    binds_define (by decide : WordChars "____leaf") "a, s)"
  have houtputs : ∀ value, (line ("____outputs = " ++ value)).binds = ["____outputs"] := by
    intro value
    have hword : WordChars "____outputs" := by decide
    have hassign := binds_assign hword (by decide) value
    rwa [← String.append_assoc] at hassign
  have hleaf : (line "return ____leaf").binds = [] := binds_return "____leaf"
  have hreturn : (line "return ____outputs").binds = [] := binds_return "____outputs"
  rw [map_moduleName_ownNames]
  refine List.perm_iff_count.mpr fun name => ?_
  have hcount := List.perm_iff_count.mp hcommands name
  rw [List.count_append] at hcount
  cases instrument with
  | true =>
    simp only [leafBody, bodyBinds, hdefine, hleaf, if_true, bodyBinds_append, binds_traceCode,
      houtputs, hreturn, binds_blank]
    simp [List.count_cons, hcount, LoweredLeaf.functions, LoweredLeaf.locals]
  | false =>
    simp only [leafBody, bodyBinds, hdefine, hleaf, Bool.false_eq_true, if_false, bodyBinds_append,
      binds_return, binds_blank]
    simp [List.count_cons, hcount, LoweredLeaf.functions, LoweredLeaf.locals]

/-- No two things in the code of a leaf have one name: nothing is bound twice, and nothing that is
bound hides a module that is called. -/
structure Hygienic (instrument : Bool) (leaf : LoweredLeaf) : Prop where
  distinct : (bodyBinds (leafBody instrument leaf)).Nodup
  modules : ∀ c ∈ leaf.calls, moduleName c.package ∉ bodyBinds (leafBody instrument leaf)
  apart : ∀ c ∈ leaf.calls, ∀ c' ∈ leaf.calls, moduleName c.package = moduleName c'.package →
    c.package = c'.package

section Distinct

variable {leaf : LoweredLeaf} (hfunctions : NumberedBetween 0 leaf.functions leaf.commandCount)
  (hnumbers : (leaf.locals.map LocalVariable.number).Nodup) (hnames : ∀ v ∈ leaf.locals,
    IsName v.name)
include hfunctions hnumbers hnames

/-- A variable takes the name of a function only if it is called `cmd` and its number is that of a
command. -/
theorem nodup_ordinals_iff :
    (ordinals leaf).Nodup ↔ ∀ v ∈ leaf.locals, v.name = "cmd" → leaf.commandCount ≤ v.number := by
  have hvariables : (leaf.locals.map fun v => (v.name, v.number)).Nodup := by
    refine List.pairwise_map.mpr ((List.pairwise_map.mp hnumbers).imp fun hne heq => hne ?_)
    exact congrArg Prod.snd heq
  rw [ordinals, List.nodup_append]
  constructor
  · rintro ⟨-, -, hdisjoint⟩ v hv hcmd
    refine Nat.le_of_not_lt fun hlt => ?_
    exact hdisjoint _ (hfunctions.command v.number (Nat.zero_le _) hlt) _ (List.mem_map_of_mem hv)
      (by rw [hcmd])
  · refine fun hcmd => ⟨hfunctions.nodup, hvariables, ?_⟩
    rintro x hx y hy rfl
    obtain ⟨v, hv, rfl⟩ := List.mem_map.mp hy
    have hstem := hfunctions.stem _ hx
    have hkeyword := (hnames v hv).ne_keyword
    simp only [List.mem_cons, List.not_mem_nil, or_false] at hstem
    rcases hstem with hstem | hstem | hstem | hstem
    · have := hcmd v hv hstem
      have := (hfunctions.range _ hx).2
      omega
    · exact hkeyword .letBind hstem
    · exact hkeyword .thenBranch hstem
    · exact hkeyword .elseBranch hstem

theorem nodup_ownNames_iff (instrument : Bool) :
    (ownNames instrument leaf).Nodup ↔ ∀ v ∈ leaf.locals, v.name = "cmd" →
    leaf.commandCount ≤ v.number := by
  rw [← nodup_ordinals_iff hfunctions hnumbers hnames, ← List.nodup_map_iff ordinal_injective,
    ownNames]
  have hleaf : "leaf" ∉ (ordinals leaf).map ordinal := by
    rw [List.mem_map]
    rintro ⟨x, -, hx⟩
    exact append_decimalDigits_ne (c := 'f') (by decide) (by decide) _ _ hx
  have houtputs : "outputs" ∉ (ordinals leaf).map ordinal := by
    rw [List.mem_map]
    rintro ⟨x, -, hx⟩
    exact append_decimalDigits_ne (c := 's') (by decide) (by decide) _ _ hx
  cases instrument <;> simp_all

theorem hygienic_iff (instrument : Bool) (hpackages : ∀ c ∈ leaf.calls, IsName c.package) :
    Hygienic instrument leaf ↔ (∀ v ∈ leaf.locals, v.name = "cmd" → leaf.commandCount ≤ v.number) ∧
      ∀ c ∈ leaf.calls, c.package ≠ "leaf" ∧ c.package ∉ (ordinals leaf).map ordinal := by
  have hperm := perm_bodyBinds_leafBody instrument hnames
  have hdistinct : (bodyBinds (leafBody instrument leaf)).Nodup ↔
      ∀ v ∈ leaf.locals, v.name = "cmd" → leaf.commandCount ≤ v.number := by
    rw [hperm.nodup_iff, List.nodup_map_iff moduleName_injective]
    exact nodup_ownNames_iff hfunctions hnumbers hnames instrument
  have hmodules : ∀ c ∈ leaf.calls, moduleName c.package ∉ bodyBinds (leafBody instrument leaf) ↔
      c.package ≠ "leaf" ∧ c.package ∉ (ordinals leaf).map ordinal := by
    intro c hc
    have houtputs : c.package ≠ "outputs" := (hpackages c hc).ne_keyword .outputs
    rw [hperm.mem_iff, List.mem_map_of_injective moduleName_injective, ownNames]
    cases instrument <;> simp [houtputs]
  constructor
  · intro h
    exact ⟨hdistinct.mp h.distinct, fun c hc => (hmodules c hc).mp (h.modules c hc)⟩
  · rintro ⟨hcmd, hleaf⟩
    exact ⟨hdistinct.mpr hcmd, fun c hc => (hmodules c hc).mpr (hleaf c hc),
      fun _ _ _ _ h => moduleName_injective h⟩

end Distinct

end Target

open Target in
theorem leaf_hygienic_iff (source file text : String) (registry : Registry) (files : FileTree)
    (o : CodeOptions) (h : (compile source file registry files o).code = some text) :
    ∃ p, (Parsed.ofSource source).program = some p ∧ ∀ body, p.component.definition = .leaf body →
      ∃ leaf front, body.lower (p.resolve file registry files).symbols.tables = .ok leaf ∧
        text.toList = front ++ laidOut (Statement.bodyLines 0
          (Statement.function "initialise" ["config"] (leafBody o.instrument leaf))) ∧
        leaf.reads ⊆ leaf.locals ∧
        (∀ c ∈ leaf.calls, ∃ i ∈ p.imports, i.localName.name = c.package) ∧
        (Hygienic o.instrument leaf ↔
          (∀ v ∈ leaf.locals, v.name = "cmd" → leaf.commandCount ≤ v.number) ∧
          ∀ c ∈ leaf.calls, c.package ≠ "leaf" ∧ c.package ∉ (ordinals leaf).map ordinal) := by
  obtain ⟨p, s, body', code, hp, hclean, hresolved, hleaves, hcode, rfl⟩ := exists_of_code h
  refine ⟨p, hp, fun body hdef => ?_⟩
  have hworded := Parsed.worded_of_clean hp hclean
  have hintact := Parsed.intact_of_clean hp hclean
  rw [hdef] at hintact
  obtain ⟨leaf, hlower, hlowers⟩ :=
    (Program.bodyAgrees_of_clean hdef hintact.1 hintact.2 hresolved).exists_lower
  obtain ⟨statements, log, hstatements, htext⟩ := text_of_generate hcode
  have hbody : statements = leafBody o.instrument leaf := by
    cases hleaves with
    | leaf hdef' hlower' =>
      cases hdef.symm.trans hdef'
      cases hlower.symm.trans hlower'
      simp only [initialiseBody, hdef] at hstatements
      cases hstatements
      rfl
    | arrow hdef' => cases hdef.symm.trans hdef'
  have hnames : ∀ v ∈ leaf.locals, IsName v.name := by
    intro v hv
    obtain ⟨id, hid, hname⟩ := exists_of_mem_numberedFrom (hlowers.locals ▸ hv)
    exact hname ▸ hworded.bound body hdef id hid
  have hcalls : ∀ c ∈ leaf.calls, ∃ i ∈ p.imports, i.localName.name = c.package := by
    intro c hc
    have hmem : c.package ∈ (callsOf body.commands).map fun c => c.package.name :=
      hlowers.packages ▸ List.mem_map_of_mem hc
    obtain ⟨call, hcall, hpackage⟩ := List.mem_map.mp hmem
    exact hpackage ▸ Program.imported_of_clean hdef hresolved call hcall
  refine ⟨leaf, _, hlower, hbody ▸ htext, hlowers.reads, hcalls, ?_⟩
  refine hygienic_iff (DoBlock.functions_of_lower hlower) ?_ hnames o.instrument fun c hc => ?_
  · rw [hlowers.locals]
    exact nodup_numberedFrom 0 _
  · obtain ⟨i, hi, hname⟩ := hcalls c hc
    exact hname ▸ (hworded.imports i hi).2

def LoweredLeaf.ofSource? (source file : String) (registry : Registry) : Option LoweredLeaf := do
  let p ← (Parsed.ofSource source).program
  match p.component.definition with
  | .leaf body => (body.lower (p.resolve file registry .empty).symbols.tables).toOption
  | .arrow _ => none

theorem LoweredLeaf.exists_of_ofSource? {source file : String} {registry : Registry}
    {leaf : LoweredLeaf} (h : ofSource? source file registry = some leaf) :
    ∃ p body, (Parsed.ofSource source).program = some p ∧ p.component.definition = .leaf body ∧
      body.lower (p.resolve file registry .empty).symbols.tables = .ok leaf := by
  obtain ⟨p, hp, h⟩ := Option.bind_eq_some_iff.mp h
  cases hdef : p.component.definition with
  | arrow e => simp [hdef] at h
  | leaf body =>
    simp only [hdef] at h
    cases hlower : body.lower (p.resolve file registry .empty).symbols.tables with
    | error e => simp [hlower, Except.toOption] at h
    | ok leaf' =>
      simp only [hlower, Except.toOption, Option.some.injEq] at h
      exact ⟨p, body, hp, hdef, by rw [hlower, h]⟩

def sparing : String :=
  "import m as then_0 component c inputs a outputs b "
    ++ "do y <- let u <- then_0.f(a) v <- then_0.f(u) in then_0.f(v) "
    ++ "cmd <- then_0.f(y) return b <- cmd"

open Target in
theorem sparing_hygienic :
    ∃ leaf, LoweredLeaf.ofSource? sparing "c.pcl" Program.oneFunction = some leaf ∧
      leaf.locals.map variableName = ["____u_0", "____v_1", "____y_2", "____cmd_3"] ∧
      Hygienic true leaf := by
  have hcode : (compile sparing "c.pcl" Program.oneFunction .empty ⟨true, "now",
      none⟩).code.isSome = true := by
    decide +kernel
  have hleaf : (LoweredLeaf.ofSource? sparing "c.pcl" Program.oneFunction).map (fun leaf =>
      (leaf.locals, leaf.commandCount, leaf.calls.map LoweredCall.package,
        (ordinals leaf).map ordinal)) =
        some ([⟨"u", 0⟩, ⟨"v", 1⟩, ⟨"y", 2⟩, ⟨"cmd", 3⟩], 2,
          ["then_0", "then_0", "then_0", "then_0"],
          ["cmd_0", "let_0", "cmd_1", "u_0", "v_1", "y_2", "cmd_3"]) := by
    decide +kernel
  obtain ⟨leaf, hsome, hfacts⟩ := Option.map_eq_some_iff.mp hleaf
  simp only [Prod.mk.injEq] at hfacts
  obtain ⟨hvariables, hcount, hpackages, hordinals⟩ := hfacts
  obtain ⟨p, body, hp, hdef, hlower⟩ := LoweredLeaf.exists_of_ofSource? hsome
  obtain ⟨text, htext⟩ := Option.isSome_iff_exists.mp hcode
  obtain ⟨q, hq, hall⟩ := leaf_hygienic_iff sparing "c.pcl" text Program.oneFunction .empty
    ⟨true, "now", none⟩ htext
  cases hp.symm.trans hq
  obtain ⟨leaf', front, hlower', -, -, -, hiff⟩ := hall body hdef
  cases hlower.symm.trans hlower'
  refine ⟨leaf, hsome, by rw [hvariables]; decide +kernel, hiff.mpr ⟨?_, ?_⟩⟩
  · rw [hvariables, hcount]
    decide
  · intro c hc
    have hc : c.package ∈ ["then_0", "then_0", "then_0", "then_0"] :=
      hpackages ▸ List.mem_map_of_mem hc
    rw [hordinals]
    revert hc
    generalize c.package = package
    revert package
    decide

def clashing : String :=
  "import m as leaf component c inputs a outputs b do cmd <- leaf.f(a) return b <- cmd"

open Target in
theorem clashing_not_hygienic :
    (compile clashing "c.pcl" Program.oneFunction .empty ⟨false, "now", none⟩).code.isSome = true ∧
      ∃ leaf, LoweredLeaf.ofSource? clashing "c.pcl" Program.oneFunction = some leaf ∧
        Statement.bodyBinds (leafBody false leaf) = ["____leaf", "____cmd_0", "____cmd_0"] ∧
        leaf.calls.map (fun c => moduleName c.package) = ["____leaf"] ∧ ¬ Hygienic false leaf := by
  have hcode : (compile clashing "c.pcl" Program.oneFunction .empty ⟨false, "now",
      none⟩).code.isSome = true := by
    decide +kernel
  have hleaf : (LoweredLeaf.ofSource? clashing "c.pcl" Program.oneFunction).map (fun leaf =>
      (Statement.bodyBinds (leafBody false leaf), leaf.calls.map fun c => moduleName c.package)) =
        some (["____leaf", "____cmd_0", "____cmd_0"], ["____leaf"]) := by
    decide +kernel
  obtain ⟨leaf, hsome, hfacts⟩ := Option.map_eq_some_iff.mp hleaf
  simp only [Prod.mk.injEq] at hfacts
  refine ⟨hcode, leaf, hsome, hfacts.1, hfacts.2, fun h => ?_⟩
  have hdistinct := h.distinct
  rw [hfacts.1] at hdistinct
  revert hdistinct
  decide

end PipelineLang
