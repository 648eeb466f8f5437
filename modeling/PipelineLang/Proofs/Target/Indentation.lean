import PipelineLang.Proofs.Target.ArrowScope
import PipelineLang.Proofs.Target.Blocks
import PipelineLang.Proofs.Target.Constants

/-! The code of leaves and of arrows is laid out in blocks: nothing that is written into a line
breaks it or makes it the head of a function, and every function has a body. -/

namespace PipelineLang

namespace Target

def Unbroken (s : String) : Prop := '\n' ∉ s.toList ∧ '\r' ∉ s.toList

instance : DecidablePred Unbroken :=
  fun s => inferInstanceAs (Decidable ('\n' ∉ s.toList ∧ '\r' ∉ s.toList))

/-- A part of a line, which does not make it the head of a function. -/
def Inline (s : String) : Prop := Unbroken s ∧ s.toList.getLast? ≠ some ':'

instance : DecidablePred Inline := fun s =>
  inferInstanceAs (Decidable (Unbroken s ∧ s.toList.getLast? ≠ some ':'))

section Inline

variable {s t : String}

theorem Unbroken.append (hs : Unbroken s) (ht : Unbroken t) : Unbroken (s ++ t) := by
  simp only [Unbroken, String.toList_append, List.mem_append, not_or]
  exact ⟨⟨hs.1, ht.1⟩, hs.2, ht.2⟩

theorem Inline.append (hs : Inline s) (ht : Inline t) : Inline (s ++ t) := by
  refine ⟨hs.1.append ht.1, ?_⟩
  rw [String.toList_append, List.getLast?_append, ne_eq, Option.or_eq_some_iff, not_or]
  exact ⟨ht.2, fun h => hs.2 h.2⟩

theorem inline_ofList {cs : List Char} (h : ('\n' ∉ cs ∧ '\r' ∉ cs) ∧ cs.getLast? ≠ some ':') :
    Inline (String.ofList cs) := by
  rwa [Inline, Unbroken, String.toList_ofList]

theorem inline_of_notMem (h : '\n' ∉ s.toList ∧ '\r' ∉ s.toList ∧ ':' ∉ s.toList) : Inline s :=
  ⟨⟨h.1, h.2.1⟩, fun hlast => h.2.2 (List.mem_of_getLast? hlast)⟩

theorem inline_wordChars (h : WordChars s) : Inline s := by
  have hnot : ∀ c, Munch.isWordPart c = false → c ∉ s.toList := by
    intro c hc hmem
    rw [h c hmem] at hc
    cases hc
  exact inline_of_notMem ⟨hnot _ (by decide), hnot _ (by decide), hnot _ (by decide)⟩

theorem inline_quote (s : String) : Inline (quote s) := by
  refine ⟨SourceText.notMem_quote s, ?_⟩
  simp [quote, quoteChars, List.getLast?_cons]

theorem inline_decimalDigits (n : Nat) : Inline (NumeralStyle.decimalDigits n) := by
  have hnot : ∀ c, c.isDigit = false → c ∉ (NumeralStyle.decimalDigits n).toList := by
    intro c
    rw [NumeralStyle.decimalDigits, String.toList_ofList]
    exact Python.notMem_of_isDigit (Python.isDigit_toDigits n)
  exact inline_of_notMem ⟨hnot _ (by decide), hnot _ (by decide), hnot _ (by decide)⟩

theorem inline_constant (value : Constant) : Inline (constant value) := by
  cases value with
  | integer n =>
    rw [constant, NumeralStyle.integerText]
    split
    · exact Inline.append (by decide) (inline_decimalDigits _)
    · exact inline_decimalDigits _
  | float x =>
    rw [constant]
    cases hnumber : x.isNumber with
    | true =>
      have hnot : ∀ c, c.isDigit = false → c ∉ ['.', 'e', '-', 'i', 'n', 'f'] →
          c ∉ (NumeralStyle.literal.text x).toList := by
        intro c hdigit hmark
        have hmagnitude := Python.notMem_magnitudeChars x hdigit hmark
        rw [Python.toList_text hnumber]
        split
        · simp_all
        · exact hmagnitude
      exact inline_of_notMem ⟨hnot _ (by decide) (by decide), hnot _ (by decide) (by decide),
        hnot _ (by decide) (by decide)⟩
    | false =>
      have htext : NumeralStyle.literal.text x = "NaN" := by simp [NumeralStyle.text, hnumber]
      rw [htext]
      decide
  | text s => exact inline_quote s
  | boolean b => cases b <;> decide

theorem inline_spreads : Spreads Inline := ⟨Inline.append, inline_quote, by decide⟩

theorem inline_lookup (hs : Inline s) (key : String) : Inline (lookup s key) :=
  ((hs.append (by decide)).append (inline_quote key)).append (by decide)

theorem inline_binary (op : ConditionOp) (hs : Inline s) (ht : Inline t) :
    Inline (binary op s t) := by
  rw [binary]
  split
  · exact (((Inline.append (by decide) hs).append (by decide)).append ht).append (by decide)
  · have hop : Inline (opText op) := by cases op <;> decide
    exact (((((Inline.append (by decide) hs).append (by decide)).append hop).append
      (by decide)).append ht).append
      (by decide)

theorem inline_moduleName (hs : WordChars s) : Inline (moduleName s) :=
  Inline.append (by decide) (inline_wordChars hs)

theorem inline_numbered (hs : WordChars s) (n : Nat) : Inline (numbered s n) :=
  inline_wordChars (wordChars_numbered hs n)

end Inline

def Begins (s : String) : Prop := s.toList.head?.any (· != ' ') = true

instance : DecidablePred Begins :=
  fun s => inferInstanceAs (Decidable (s.toList.head?.any (· != ' ') = true))

theorem Begins.append {s : String} (h : Begins s) (t : String) : Begins (s ++ t) := by
  rw [Begins, String.toList_append]
  cases hs : s.toList with
  | nil => simp [Begins, hs] at h
  | cons c cs => simpa [Begins, hs] using h

theorem begins_ofList {c : Char} (hc : c ≠ ' ') (cs : List Char) :
    Begins (String.ofList (c :: cs)) := by
  simpa [Begins] using hc

theorem begins_isWord {s : String} (h : IsWord s) : Begins s := by
  obtain ⟨c, cs, hs, hc, -⟩ := h
  have hblank : c ≠ ' ' := by
    rintro rfl
    cases hc
  simpa [Begins, hs] using hblank

/-- A line of its own, at any depth. -/
structure IsCode (s : String) : Prop where
  unbroken : Unbroken s
  begins : Begins s
  plain : TextLine.opens s.toList = false

theorem Inline.isCode {s : String} (h : Inline s) (hbegins : Begins s) : IsCode s :=
  ⟨h.1, hbegins, by simp [TextLine.opens, h.2]⟩

/-- A statement whose lines are laid out as they should be: every function has a body, which begins
at once. -/
inductive Written : Statement → Prop
  | line {text : String} : IsCode text → Written (.line text)
  | blank : Written .blank
  | define {head : String} {first : Statement} {body : List Statement} :
      Unbroken head → first ≠ .blank →
      (∀ s ∈ first :: body, Written s) → Written (.define head (first :: body))

/-- Statements without blank lines between them. -/
def Solid (ss : List Statement) : Prop := ∀ s ∈ ss, Written s ∧ s ≠ .blank

section Written

variable {loose : TextLine → Prop} {s : Statement} {ss ss' : List Statement}

theorem Solid.append (h : Solid ss) (h' : Solid ss') : Solid (ss ++ ss') :=
  List.forall_mem_append.mpr ⟨h, h'⟩

theorem solid_line {text : String} (h : IsCode text) : Solid [.line text] :=
  List.forall_mem_singleton.mpr ⟨.line h, by simp⟩

theorem Solid.define {head : String} (h : Solid ss) (hne : ss ≠ []) (hhead : Unbroken head) :
    Solid [.define head ss] := by
  cases ss with
  | nil => exact (hne rfl).elim
  | cons first body =>
    exact List.forall_mem_singleton.mpr
      ⟨.define hhead (h first List.mem_cons_self).2 fun s hs => (h s hs).1, by simp⟩

theorem bodyLines_eq (depth : Nat) (ss : List Statement) :
    Statement.bodyLines depth ss = ss.flatMap (Statement.lines depth) := by
  induction ss with
  | nil => rfl
  | cons s ss ih => rw [Statement.bodyLines, ih, List.flatMap_cons]

theorem toList_indentation (depth : Nat) (text : String) :
    (Statement.indentation depth ++ text).toList =
      List.replicate (2 * depth) ' ' ++ text.toList := by
  simp [Statement.indentation]

def charLines (depth : Nat) (s : Statement) : List TextLine := (s.lines depth).map String.toList

theorem IsCode.exists_first {text : String} (h : IsCode text) :
    ∃ c cs, text.toList = c :: cs ∧ c ≠ ' ' := by
  have hbegins := h.begins
  cases htext : text.toList with
  | nil => simp [Begins, htext] at hbegins
  | cons c cs => exact ⟨c, cs, rfl, by simpa [Begins, htext] using hbegins⟩

theorem isBlank_line {text : String} (h : IsCode text) (depth : Nat) :
    TextLine.isBlank (Statement.indentation depth ++ text).toList = false := by
  obtain ⟨c, cs, htext, hc⟩ := h.exists_first
  rw [toList_indentation, htext]
  exact TextLine.isBlank_replicate hc _ _

theorem suite_line {text : String} (h : IsCode text) (depth : Nat) :
    Suite loose depth [(Statement.indentation depth ++ text).toList] := by
  refine .plain (isBlank_line h depth) ?_ ?_ .nil
  all_goals
    obtain ⟨c, cs, htext, hc⟩ := h.exists_first
    rw [toList_indentation, htext]
  · rw [TextLine.opens_replicate hc, ← htext, h.plain]
  · exact TextLine.indent_replicate hc _ _

def headChars (depth : Nat) (head : String) : TextLine :=
  List.replicate (2 * depth) ' ' ++ 'd' :: 'e' :: 'f' :: ' ' :: (head.toList ++ [':'])

theorem opens_headChars (depth : Nat) (head : String) : (headChars depth head).opens = true := by
  rw [headChars, TextLine.opens_replicate (by decide)]
  simp [TextLine.opens, List.isPrefixOf, List.getLast?_cons]

theorem indent_headChars (depth : Nat) (head : String) :
    (headChars depth head).indent = 2 * depth :=
  TextLine.indent_replicate (by decide) _ _

theorem charLines_define (depth : Nat) (head : String) (body : List Statement) :
    charLines depth (.define head body) =
      headChars depth head :: body.flatMap (charLines (depth + 1)) := by
  simp [charLines, headChars, Statement.lines, Statement.indentation, bodyLines_eq,
    List.map_flatMap]
  rfl

theorem Written.exists_first (h : Written s) (hs : s ≠ .blank) (depth : Nat) :
    ∃ first rest, charLines depth s = first :: rest ∧ first.isBlank = false := by
  cases h with
  | line hcode => exact ⟨_, [], rfl, isBlank_line hcode depth⟩
  | blank => exact (hs rfl).elim
  | define => exact ⟨_, _, charLines_define _ _ _, TextLine.isBlank_replicate (by decide) _ _⟩

theorem suite_flatMap {depth : Nat} (h : ∀ s ∈ ss, Suite loose depth (charLines depth s)) :
    Suite loose depth (ss.flatMap (charLines depth)) := by
  induction ss with
  | nil => exact .nil
  | cons s ss ih =>
    rw [List.forall_mem_cons] at h
    exact h.1.append (ih h.2)

theorem suite_define {depth : Nat} {head : String} {first : Statement} {gap : List TextLine}
    (hgap : IsGap loose (headChars depth head) gap) (hwritten : Written first)
    (hfirst : first ≠ .blank)
    (h : ∀ s ∈ first :: ss, Suite loose (depth + 1) (charLines (depth + 1) s)) :
    Suite loose depth (headChars depth
        head :: (gap ++ (first :: ss).flatMap (charLines (depth + 1)))) := by
  have hbody := suite_flatMap h
  obtain ⟨l, ls, hl, hblank⟩ := hwritten.exists_first hfirst (depth + 1)
  rw [List.flatMap_cons, hl, List.cons_append] at hbody ⊢
  have hblock := Suite.block (opens_headChars depth head) (indent_headChars depth head) hgap hblank
    hbody .nil
  rwa [List.append_nil] at hblock

theorem Written.suite (h : Written s) (depth : Nat) : Suite loose depth (charLines depth s) := by
  induction h generalizing depth with
  | line hcode => exact suite_line hcode depth
  | blank => exact .blank .nil
  | define _ hfirst hbody ih =>
    rw [charLines_define]
    exact suite_define (.inl rfl) (hbody _ List.mem_cons_self) hfirst fun s hs => ih s hs
      (depth + 1)

theorem unbroken_indentation (depth : Nat) : Unbroken (Statement.indentation depth) := by
  simp [Unbroken, Statement.indentation]

theorem Written.unbroken (h : Written s) (depth : Nat) : ∀ l ∈ s.lines depth, Unbroken l := by
  induction h generalizing depth with
  | line hcode =>
    exact List.forall_mem_singleton.mpr ((unbroken_indentation depth).append hcode.unbroken)
  | blank => exact List.forall_mem_singleton.mpr (by decide)
  | define hhead _ _ ih =>
    refine List.forall_mem_cons.mpr ⟨?_, fun l hl => ?_⟩
    · exact (((unbroken_indentation depth).append (by decide)).append hhead).append (by decide)
    · rw [bodyLines_eq, List.mem_flatMap] at hl
      obtain ⟨s, hs, hl⟩ := hl
      exact ih s hs (depth + 1) l hl

end Written

section Leaf

variable {instrument : Bool}

theorem inline_leafValue {value : LoweredValue} (h : ∀ v ∈ value.reads, WordChars v.name) :
    Inline (leafValue value) := by
  cases value with
  | input name | state name => exact inline_lookup (by decide) name
  | bound v => exact inline_numbered (h v List.mem_cons_self) v.number
  | constant value => exact inline_constant value

theorem inline_leafCondition {c : LoweredCondition} (h : ∀ v ∈ c.reads, WordChars v.name) :
    Inline (leafCondition c) := by
  induction c with
  | binary op left right ihl ihr =>
    obtain ⟨hl, hr⟩ := List.forall_mem_append.mp h
    exact inline_binary op (ihl hl) (ihr hr)
  | paren inner ih => exact (Inline.append (by decide) (ih h)).append (by decide)
  | value v => exact inline_leafValue h

theorem inline_callCode {c : LoweredCall} (hcallee : WordChars c.package ∧ WordChars c.function)
    (h : ∀ v ∈ c.reads, WordChars v.name) : Inline (callCode c) := by
  have harguments : Inline (commaList (c.arguments.map leafValue)) := by
    refine inline_spreads.commaList
      (List.forall_mem_map.mpr fun value hvalue => inline_leafValue fun v hv => h v ?_)
    exact List.mem_flatMap.mpr ⟨value, hvalue, hv⟩
  exact (((((inline_moduleName hcallee.1).append (by decide)).append
    (inline_wordChars hcallee.2)).append
    (by decide)).append harguments).append (by decide)

theorem solid_return {value : String} (h : Inline value) : Solid [.line ("return " ++ value)] :=
  solid_line (Inline.isCode (Inline.append (by decide) h) (Begins.append (by decide) _))

theorem solid_traceCode {shown function what value : String} (hshown : Inline shown)
    (hfunction : Inline function) (hwhat : Inline what) (hvalue : Inline value) :
    Solid [traceCode shown function what value] := by
  refine solid_line (Inline.isCode ?_ ?_)
  · exact
      ((((((((inline_ofList (by decide)).append hshown).append (by decide)).append hfunction).append
      (by decide)).append hwhat).append (by decide)).append hvalue).append (by decide)
  · simp only [String.append_assoc]
    exact (begins_ofList (by decide) _).append _

theorem begins_numbered (stem : String) (n : Nat) : Begins (numbered stem n) := by
  simp only [numbered, String.append_assoc]
  exact Begins.append (by decide) _

theorem solid_runCommand (n : Nat) {target : Option LocalVariable} {body : List Statement}
    (htarget : ∀ v ∈ target.toList, WordChars v.name) (hbody : Solid body) (hne : body ≠ []) :
    Solid (runCommand instrument n target body) := by
  have hname : Inline (commandName n) := inline_numbered (by decide) n
  have htrace : Solid (if instrument
      then [traceCode ("'" ++ commandName n ++ "'") (commandName n) "starting" "a"]
      else []) := by
    split
    · exact solid_traceCode ((Inline.append (by decide) hname).append (by decide)) hname (by decide)
        (by decide)
    · exact List.forall_mem_nil _
  refine ((htrace.append hbody).define (by simp [hne]) (hname.append (by decide)).1).append
    (solid_line ?_)
  cases target with
  | none => exact Inline.isCode (hname.append (by decide)) ((begins_numbered _ _).append _)
  | some v =>
    refine Inline.isCode ((((inline_numbered (htarget v List.mem_cons_self) v.number).append
      (by decide)).append
      hname).append (by decide)) ?_
    exact (((begins_numbered _ _).append _).append _).append _

theorem solid_assignment {v : LocalVariable} {call : LoweredCall} (hv : WordChars v.name)
    (hcall : Inline (callCode call)) : Solid [.line (variableName v ++ " = " ++ callCode call)] :=
  solid_line (Inline.isCode (((inline_numbered hv v.number).append (by decide)).append hcall)
    (((begins_numbered _ _).append _).append _))

theorem blockCode_ne_nil (block : LoweredBlock) : blockCode instrument block ≠ [] := by
  cases block
  rw [blockCode.eq_def]
  simp

/-- The code is solid, provided that all names in it are words. -/
def SolidOver (code : List Statement) (locals reads : List LocalVariable)
    (calls : List LoweredCall) : Prop :=
  (∀ v ∈ locals, WordChars v.name) → (∀ v ∈ reads, WordChars v.name) →
    (∀ c ∈ calls, WordChars c.package ∧ WordChars c.function) → Solid code

theorem solidOver_letIn (n : Nat) (target : Option LocalVariable)
    (bindings : List (LocalVariable × LoweredCall)) (body : LoweredCall) :
    let command : LoweredCommand := .letIn n target bindings body
    SolidOver (commandCode instrument command) command.locals command.reads command.calls := by
  intro command hlocals hreads hcalls
  obtain ⟨hbound, htarget⟩ := List.forall_mem_append.mp hlocals
  obtain ⟨hread, hbodyRead⟩ := List.forall_mem_append.mp hreads
  obtain ⟨hcalled, hbodyCalled⟩ := List.forall_mem_append.mp hcalls
  have hreturn := solid_return (inline_callCode (hbodyCalled body List.mem_cons_self) hbodyRead)
  have hname : Inline (letName n ++ "()") := (inline_numbered (by decide) n).append (by decide)
  refine solid_runCommand n htarget
    (.append ((Solid.append ?_ hreturn).define (by simp) hname.1) ?_) (by simp)
  · refine List.forall_mem_map.mpr fun b hb => ?_
    have hcall : Inline (callCode b.2) := inline_callCode (hcalled b.2 (List.mem_map_of_mem hb))
      fun v hv => hread v (List.mem_flatMap.mpr ⟨b, hb, hv⟩)
    exact solid_assignment (hbound b.1 (List.mem_map_of_mem hb)) hcall _ List.mem_cons_self
  · rw [String.append_assoc]
    exact solid_return hname

theorem solidOver_branch {onTrue onFalse : LoweredBlock}
    (ht : SolidOver (blockCode instrument onTrue) onTrue.locals onTrue.reads onTrue.calls)
    (hf : SolidOver (blockCode instrument onFalse) onFalse.locals onFalse.reads onFalse.calls)
    (n : Nat) (target : Option LocalVariable) (condition : LoweredCondition) :
    let command : LoweredCommand := .branch n target condition onTrue onFalse
    SolidOver (commandCode instrument command) command.locals command.reads command.calls := by
  intro command hlocals hreads hcalls
  obtain ⟨hblocks, htarget⟩ := List.forall_mem_append.mp hlocals
  obtain ⟨htrue, hfalse⟩ := List.forall_mem_append.mp hblocks
  obtain ⟨hcondition, hblockReads⟩ := List.forall_mem_append.mp hreads
  obtain ⟨htrueReads, hfalseReads⟩ := List.forall_mem_append.mp hblockReads
  obtain ⟨htrueCalls, hfalseCalls⟩ := List.forall_mem_append.mp hcalls
  have hthen : Inline (thenName n) := inline_numbered (by decide) n
  have hthenHead : Inline (thenName n ++ "()") := hthen.append (by decide)
  have helse : Inline (elseName n ++ "()") := (inline_numbered (by decide) n).append (by decide)
  have hthenCode := (ht htrue htrueReads htrueCalls).define (blockCode_ne_nil _) hthenHead.1
  have helseCode := (hf hfalse hfalseReads hfalseCalls).define (blockCode_ne_nil _) helse.1
  refine solid_runCommand n htarget (hthenCode.append (helseCode.append ?_)) (by simp)
  simp only [String.append_assoc]
  exact solid_return (hthen.append (Inline.append (by decide)
    ((inline_leafCondition hcondition).append (Inline.append (by decide) helse))))

theorem solidOver_commandsCode :
    (∀ command : LoweredCommand,
      SolidOver (commandCode instrument command) command.locals command.reads command.calls) ∧
    (∀ block : LoweredBlock, SolidOver (blockCode instrument block) block.locals block.reads
        block.calls) ∧
    ∀ commands, SolidOver (commandsCode instrument commands) (allVariables commands)
      (allReads commands) (allCalls commands) := by
  refine LoweredCommand.induct ?call solidOver_letIn ?branch ?block ?nil ?cons
  case call =>
    intro n target call hlocals hreads hcalls
    exact solid_runCommand n hlocals
      (solid_return (inline_callCode (hcalls call List.mem_cons_self) hreads)) (by simp)
  case branch =>
    intro n target condition onTrue onFalse iht ihf
    exact solidOver_branch iht ihf n target condition
  case block =>
    intro commands result ih hlocals hreads hcalls
    obtain ⟨hread, hresult⟩ := List.forall_mem_append.mp hreads
    rw [blockCode.eq_def]
    refine (ih hlocals hread hcalls).append (solid_return ?_)
    cases result with
    | none => decide
    | some value => exact inline_leafValue (by simpa using hresult)
  case nil => exact fun _ _ _ => List.forall_mem_nil _
  case cons =>
    intro command commands ihc ihs hlocals hreads hcalls
    obtain ⟨hl, hl'⟩ := List.forall_mem_append.mp hlocals
    obtain ⟨hr, hr'⟩ := List.forall_mem_append.mp hreads
    obtain ⟨hc, hc'⟩ := List.forall_mem_append.mp hcalls
    exact (ihc hl hr hc).append (ihs hl' hr' hc')

theorem exists_leafBody (instrument : Bool) {leaf : LoweredLeaf}
    (hlocals : ∀ v ∈ leaf.locals, WordChars v.name) (hreads : ∀ v ∈ leaf.reads, WordChars v.name)
    (hcalls : ∀ c ∈ leaf.calls, WordChars c.package ∧ WordChars c.function) :
    ∃ body, leafBody instrument leaf =
      [.define "____leaf(a, s)" body, .blank, .line "return ____leaf"] ∧
      Solid body ∧ body ≠ [] := by
  obtain ⟨hcommandReads, hreturnReads⟩ := List.forall_mem_append.mp hreads
  have hcommands : Solid (commandsCode instrument leaf.commands) :=
    solidOver_commandsCode.2.2 _ hlocals hcommandReads hcalls
  have houtputs : Inline (dictionary (outputEntries leaf)) := by
    refine inline_spreads.dictionary (List.forall_mem_map.mpr fun r hr => ?_)
    refine inline_leafValue fun v hv => hreturnReads v ?_
    exact List.mem_flatMap.mpr ⟨r, hr, hv⟩
  refine ⟨_, rfl, ?_, by split <;> simp⟩
  split
  · have htrace : ∀ {what value : String}, Inline what → Inline value →
        Solid [traceCode "get_name()" "____leaf" what value] :=
      solid_traceCode (by decide) (by decide)
    have hassign : Solid [.line ("____outputs = " ++ dictionary (outputEntries leaf))] :=
      solid_line (Inline.isCode (Inline.append (by decide) houtputs) (Begins.append (by decide) _))
    have hreturn : Solid [.line "return ____outputs"] :=
      solid_line (Inline.isCode (by decide) (by decide))
    refine ((htrace (by decide) (by decide)).append hcommands).append ?_
    exact hassign.append ((htrace (by decide) (by decide)).append hreturn)
  · exact hcommands.append (solid_return houtputs)

end Leaf

section Arrow

theorem inline_arrowCondition (c : Condition) : Inline (arrowCondition c) := by
  induction c with
  | binary op left right _ ihl ihr => exact inline_binary op ihl ihr
  | paren inner _ ih => exact (Inline.append (by decide) ih).append (by decide)
  | terminal operand =>
    cases operand with
    | state id | ident id => exact inline_lookup (by decide) id.name
    | literal lit => exact inline_constant lit.value

theorem inline_operandFrom {dict : String} (h : Inline dict) (operand : Operand) :
    Inline (operandFrom dict operand).code := by
  cases operand with
  | ident id | state id => exact inline_lookup h id.name
  | literal lit => exact inline_constant lit.value

theorem inline_fields {fields : List Field} (h : ∀ f ∈ fields, Inline f.2.code) :
    Inline (dictionary (fieldEntries fields)) :=
  inline_spreads.dictionary (List.forall_mem_map.mpr h)

theorem inline_wireCode (entries : List Mapping) : Inline (wireCode entries) := by
  have hfields : Inline (dictionary (fieldEntries (wireFields entries))) :=
    inline_fields (List.forall_mem_map.mpr fun m _ => inline_operandFrom (by decide) m.source)
  exact ((inline_ofList (by decide)).append hfields).append (by decide)

theorem inline_mergeCode (entries : List MergeMapping) : Inline (mergeCode entries) := by
  have hfields : Inline (dictionary (fieldEntries (mergeFields entries))) := by
    refine inline_fields (List.forall_mem_append.mpr ⟨List.forall_mem_append.mpr ⟨?_, ?_⟩, ?_⟩)
    all_goals
      intro f hf
      obtain ⟨m, -, hm⟩ := List.mem_filterMap.mp hf
      split at hm <;> cases hm
    · exact inline_lookup (by decide) _
    · exact inline_lookup (by decide) _
    · exact inline_constant _
  exact ((inline_ofList (by decide)).append hfields).append (by decide)

variable {declared : List String} (hdeclared : ∀ name ∈ declared, WordChars name)
include hdeclared

theorem inline_valueCode {v : ArrowValue} {n : Nat} (h : v.Settled declared n) :
    Inline (valueCode v) := by
  cases v with
  | declared name => exact inline_wordChars (hdeclared name h)
  | temporary step => exact Inline.append (by decide) (inline_decimalDigits step)

theorem inline_stepCode {step : ArrowStep} {n : Nat} (h : ∀ v ∈ step.values, v.Settled declared n) :
    Inline (stepCode step) := by
  cases step with
  | compose left right | pairUp left right | fanOut left right =>
    simp only [ArrowStep.values, List.forall_mem_cons] at h
    exact ((inline_valueCode hdeclared h.1).append (by decide)).append
      (inline_valueCode hdeclared h.2.1)
  | first inner | second inner =>
    exact (inline_valueCode hdeclared (h inner List.mem_cons_self)).append (by decide)
  | split => exact inline_ofList (by decide)
  | merge entries => exact inline_mergeCode entries
  | wire entries => exact inline_wireCode entries
  | wirePair top bottom =>
    exact ((inline_wireCode top).append (by decide)).append (inline_wireCode bottom)
  | choose condition left right =>
    simp only [ArrowStep.values, List.forall_mem_cons] at h
    exact
      ((((((inline_ofList (by decide)).append (inline_arrowCondition condition)).append
        (by decide)).append
      (inline_valueCode hdeclared h.1)).append (by decide)).append
      (inline_valueCode hdeclared h.2.1)).append (by decide)

theorem solid_stepStatements {steps : List ArrowStep}
    (h : ∀ (k : Nat) (step : ArrowStep), steps[k]? = some step →
      ∀ v ∈ step.values, v.Settled declared k) :
    Solid (stepStatements steps) := by
  refine List.forall_mem_map.mpr fun x hx => ?_
  have hstep := inline_stepCode hdeclared (h x.2 x.1 (List.mem_zipIdx_iff_getElem?.mp hx))
  have htarget : Inline (valueCode (.temporary x.2)) :=
    Inline.append (by decide) (inline_decimalDigits x.2)
  exact solid_line (Inline.isCode ((htarget.append (by decide)).append hstep)
    (((Begins.append (by decide) _).append _).append _)) _ List.mem_cons_self

end Arrow

section Instances

variable {id localName : String}

theorem inline_settings {dict : String} (h : Inline dict) (d : Declaration) :
    ∀ e ∈ settingEntries dict d, Inline e.2 := by
  refine List.forall_mem_map.mpr (List.forall_mem_map.mpr fun m _ => ?_)
  exact inline_operandFrom h m.source

theorem isCode_tracingLines (hid : IsWord id) (hlocal : WordChars localName) (line : Nat) :
    ∀ l ∈ tracingLines id localName line, IsCode l := by
  have hname : Inline id := inline_wordChars hid.forall
  have hevent : ∀ {what : String}, Inline what →
      Inline ("cons_function_component(lambda a, s: ____instr_component('" ++ id ++ "', " ++ id
        ++ "_id, '" ++ what ++ "', a, s))") := fun hwhat =>
    ((((((inline_ofList (by decide)).append hname).append (by decide)).append hname).append
      (by decide)).append
      hwhat).append (by decide)
  simp only [tracingLines, List.forall_mem_cons, List.not_mem_nil, false_implies, implies_true,
    and_true]
  refine ⟨Inline.isCode ?_ ?_, Inline.isCode ?_ ?_, Inline.isCode ?_ ?_⟩
  · exact ((hname.append (by decide)).append hname).append (by decide)
  · repeat apply Begins.append
    exact begins_isWord hid
  · exact
      ((((((((((inline_ofList (by decide)).append hname).append (by decide)).append hname).append
      (by decide)).append hname).append (by decide)).append (inline_moduleName hlocal)).append
      (by decide)).append (inline_decimalDigits line)).append (by decide)
  · repeat apply Begins.append
    exact begins_ofList (by decide) _
  · exact ((((((hname.append (by decide)).append (hevent (by decide))).append (by decide)).append
      hname).append
      (by decide)).append (hevent (by decide))).append (by decide)
  · repeat apply Begins.append
    exact begins_isWord hid

theorem isCode_stateLine {d : Declaration} (hid : IsWord d.name.name) : IsCode (stateLine d) := by
  have hname : Inline d.name.name := inline_wordChars hid.forall
  have hstate : Inline (dictionary (settingEntries "s" d ++ [("____prev_", "s")])) :=
    inline_spreads.dictionary (List.forall_mem_append.mpr ⟨inline_settings (by decide) d,
      List.forall_mem_singleton.mpr (by decide)⟩)
  refine Inline.isCode ?_ ?_
  · exact ((((((hname.append (inline_ofList (by decide))).append hstate).append (by decide)).append
      hname).append
      (inline_ofList (by decide))).append (inline_lookup (by decide) _)).append (by decide)
  · repeat apply Begins.append
    exact begins_isWord hid

theorem isCode_declarationLines (instrument : Bool) (line : Nat) {d : Declaration}
    (hid : IsWord d.name.name) (hlocal : WordChars localName) :
    ∀ l ∈ declarationLines instrument line d localName, IsCode l := by
  have hname : Inline d.name.name := inline_wordChars hid.forall
  have hmodule : Inline (moduleName localName) := inline_moduleName hlocal
  refine List.forall_mem_append.mpr ⟨List.forall_mem_append.mpr ⟨?_, ?_⟩, ?_⟩
  · simp only [List.forall_mem_cons, List.not_mem_nil, false_implies, implies_true, and_true]
    refine ⟨Inline.isCode ?_ ?_, Inline.isCode ?_ ?_, Inline.isCode ?_ ?_⟩
    · exact (hname.append (by decide)).append
        (inline_spreads.dictionary (inline_settings (by decide) d))
    · repeat apply Begins.append
      exact begins_isWord hid
    · exact ((((((hname.append (by decide)).append hmodule).append (by decide)).append
        hmodule).append
        (by decide)).append hname).append (by decide)
    · repeat apply Begins.append
      exact begins_isWord hid
    · exact ((((((hname.append (by decide)).append hname).append (by decide)).append hname).append
        (inline_ofList (by decide))).append hname).append (by decide)
    · repeat apply Begins.append
      exact begins_isWord hid
  · split
    · exact isCode_tracingLines hid hlocal line
    · exact List.forall_mem_nil _
  · split
    · exact List.forall_mem_nil _
    · exact List.forall_mem_singleton.mpr (isCode_stateLine hid)

end Instances

theorem statements_arrowLines (instrument : Bool) (lines : LineIndex) (ds : List Declaration)
    (program : ArrowProgram) :
    (arrowLines instrument lines ds program).map CodeLine.statement =
      (ds.flatMap fun d => (declarationLines instrument (lines.lineOf d.span.start) d
          d.component.name).map .line)
        ++ (.blank :: (stepStatements program.steps ++ [.blank,
          .line ("return " ++ valueCode program.result)])) := by
  simp only [arrowLines, List.map_append, List.map_flatMap, statement_instanceCode,
    statement_stepCodes]
  simp [CodeLine.statement, codeOf, Fragment.code, valueCode_eq]

theorem written_arrowLines {instrument : Bool} {lines : LineIndex} {ds : List Declaration}
    {program : ArrowProgram} (hds : ∀ d ∈ ds, IsWord d.name.name ∧ WordChars d.component.name)
    (hsteps : ∀ (k : Nat) (step : ArrowStep), program.steps[k]? = some step →
      ∀ v ∈ step.values, v.Settled (ds.map fun d => d.name.name) k)
    (hresult : program.result.Settled (ds.map fun d => d.name.name) program.steps.length) :
    ∀ s ∈ (arrowLines instrument lines ds program).map CodeLine.statement, Written s := by
  have hdeclared : ∀ name ∈ ds.map (fun d => d.name.name), WordChars name :=
    List.forall_mem_map.mpr fun d hd => (hds d hd).1.forall
  have hinstances : ∀ s ∈ ds.flatMap (fun d =>
      (declarationLines instrument (lines.lineOf d.span.start) d d.component.name).map
        .line), Written s := by
    intro s hs
    obtain ⟨d, hd, hs⟩ := List.mem_flatMap.mp hs
    obtain ⟨l, hl, rfl⟩ := List.mem_map.mp hs
    exact .line (isCode_declarationLines _ _ (hds d hd).1 (hds d hd).2 l hl)
  have hreturn := solid_return (inline_valueCode hdeclared hresult)
  rw [statements_arrowLines]
  refine List.forall_mem_append.mpr ⟨hinstances,
    List.forall_mem_cons.mpr ⟨.blank, List.forall_mem_append.mpr ⟨?_, ?_⟩⟩⟩
  · exact fun s hs => (solid_stepStatements hdeclared hsteps s hs).1
  · exact List.forall_mem_cons.mpr ⟨.blank, fun s hs => (hreturn s hs).1⟩

def isBare (c : Component) : Bool := !c.isLeaf && c.declarations.isEmpty

def leadingGap (c : Component) : List Statement := if isBare c then [.blank] else []

theorem exists_first_arrowLines {instrument : Bool} {lines : LineIndex} {c : Component}
    {program : ArrowProgram} (hc : c.isLeaf = false)
    (hresult : program.result.Settled (c.declarations.map fun d => d.name.name)
        program.steps.length) :
    ∃ first rest, (arrowLines instrument lines c.declarations program).map CodeLine.statement =
      leadingGap c ++ first :: rest ∧ first ≠ .blank := by
  rw [statements_arrowLines]
  cases hds : c.declarations with
  | cons d ds =>
    have hgap : leadingGap c = [] := by simp [leadingGap, isBare, hds]
    exact ⟨.line _, _, by rw [hgap]; rfl, by simp⟩
  | nil =>
    have hgap : leadingGap c = [.blank] := by simp [leadingGap, isBare, hds, hc]
    -- without instances, the result is that of a step
    have hne : program.steps ≠ [] := by
      intro hnil
      rw [hnil, hds] at hresult
      cases hvalue : program.result with
      | declared name => simp [hvalue, ArrowValue.Settled] at hresult
      | temporary k => simp [hvalue, ArrowValue.Settled] at hresult
    obtain ⟨step, steps, hsteps⟩ := List.exists_cons_of_ne_nil hne
    exact ⟨.line _, _, by rw [hgap, hsteps]; rfl, by simp⟩

end Target

end PipelineLang
