import PipelineLang.Proofs.Target.ArrowNames
import PipelineLang.Proofs.Target.Indentation
import PipelineLang.Proofs.Target.Interface
import PipelineLang.Proofs.Target.LeafNames

/-! The text of a generated module is cut into the lines that were written, and they stand in
blocks. -/

namespace PipelineLang

variable {source : String} {registry : Registry} {files : FileTree}

namespace Target

theorem lines_define (name params : String) (body : List Statement) :
    Statement.lines 0 (.define (name ++ "(" ++ params ++ ")") body) =
      headLine name params :: Statement.bodyLines 1 body := by
  simp [Statement.lines, Statement.indentation, headLine]

/-- A line of code as it stands in the body of a function. -/
def Indented (l : String) : Prop :=
  ∃ text, l = Statement.indentation 1 ++ text ∧ Inline text ∧ Begins text

theorem indented_ofList {c : Char} {cs : List Char} (hc : c ≠ ' ')
    (h : ('\n' ∉ c :: cs ∧ '\r' ∉ c :: cs) ∧ (c :: cs).getLast? ≠ some ':') :
    Indented (String.ofList (' ' :: ' ' :: c :: cs)) :=
  ⟨_, by simp [Statement.indentation, ← String.toList_inj], inline_ofList h, begins_ofList hc cs⟩

theorem Indented.append {l rest : String} (h : Indented l) (hrest : Inline rest) :
    Indented (l ++ rest) := by
  obtain ⟨text, rfl, hinline, hbegins⟩ := h
  exact ⟨text ++ rest, String.append_assoc, hinline.append hrest, hbegins.append rest⟩

theorem exists_tracingFunctions :
    ∃ ss, tracingFunctions = Statement.bodyLines 0 ss ∧ ∀ s ∈ ss, Written s := by
  have hlines : ∃ l a b c, tracingFunctions =
      [l, headLine "____instr_component" "component_decl_id, component_id, event, a, s", a, b,
        headLine "____instr_component_construction"
          "component_decl_id, component_id, component_config, invoked_component, decl_line_no", c] ∧
      IsCode l ∧ Indented a ∧ Indented b ∧ Indented c := by
    rw [headLine_component, headLine_construction]
    refine ⟨_, _, _, _, rfl, ?_, ?_, ?_, ?_⟩
    · exact (inline_ofList (by decide)).isCode (begins_ofList (by decide) _)
    · exact (((indented_ofList (by decide) (by decide)).append (inline_ofList (by decide))).append
        (inline_ofList (by decide))).append (inline_ofList (by decide))
    · exact indented_ofList (by decide) (by decide)
    · exact (((indented_ofList (by decide) (by decide)).append (inline_ofList (by decide))).append
        (inline_ofList (by decide))).append (inline_ofList (by decide))
  obtain ⟨l, a, b, c, hlines, hl, ⟨a, rfl, ha⟩, ⟨b, rfl, hb⟩, ⟨c, rfl, hc⟩⟩ := hlines
  have hcomponent : Inline ("____instr_component" ++ "(" ++
      "component_decl_id, component_id, event, a, s" ++ ")") :=
    (((inline_ofList (by decide)).append (by decide)).append (inline_ofList (by decide))).append
      (by decide)
  have hconstruction : Inline ("____instr_component_construction" ++ "("
      ++ "component_decl_id, component_id, component_config, invoked_component, decl_line_no" ++
      ")") :=
    (((inline_ofList (by decide)).append (by decide)).append (inline_ofList (by decide))).append
      (by decide)
  have hfirst := ((solid_line (ha.1.isCode ha.2)).append (solid_line (hb.1.isCode hb.2))).define
    (by simp) hcomponent.1
  have hsecond := (solid_line (hc.1.isCode hc.2)).define (by simp) hconstruction.1
  refine ⟨_, ?_, fun s hs => ((solid_line hl).append (hfirst.append hsecond) s hs).1⟩
  simp only [List.cons_append, List.nil_append, Statement.bodyLines, lines_define, hlines]
  simp [Statement.lines, Statement.indentation]

def IsComment (s : String) : Prop := Unbroken s ∧ s.toList.head? = some '#'

theorem IsComment.isCode {s : String} (h : IsComment s) : IsCode s := by
  obtain ⟨cs, hcs⟩ := List.head?_eq_some_iff.mp h.2
  refine ⟨h.1, by simp [Begins, hcs], ?_⟩
  simp [TextLine.opens, hcs, List.isPrefixOf]

theorem isCode_supportImports : ∀ l ∈ supportImports, IsCode l := by
  have hline : ∀ {c : Char} {cs : List Char}, c ≠ ' ' →
      ('\n' ∉ c :: cs ∧ '\r' ∉ c :: cs) ∧ (c :: cs).getLast? ≠ some ':' →
      IsCode (String.ofList (c :: cs)) :=
    fun hc h => (inline_ofList h).isCode (begins_ofList hc _)
  simp only [supportImports, List.forall_mem_cons, List.not_mem_nil, false_implies, implies_true,
    and_true]
  refine ⟨?_, hline (by decide) (by decide), hline (by decide) (by decide),
    hline (by decide) (by decide), hline (by decide) (by decide)⟩
  exact ((inline_ofList (by decide)).append (inline_ofList (by decide))).isCode
    ((begins_ofList (by decide) _).append _)

theorem isCode_importLines {imports : List Import} (h : ∀ i ∈ imports,
      (∀ c ∈ i.path.name.toList, Munch.isWordPart c = true ∨ c = '.') ∧ IsName i.localName.name) :
    ∀ l ∈ importLines imports, IsCode l := by
  refine List.forall_mem_map.mpr fun i hi => ?_
  obtain ⟨hpath, hlocal⟩ := h i hi
  have hnot : ∀ c, Munch.isWordPart c = false ∧ c ≠ '.' → c ∉ i.path.name.toList := by
    rintro c ⟨hword, hdot⟩ hmem
    rcases hpath c hmem with hpart | rfl
    · rw [hword] at hpart
      cases hpart
    · exact hdot rfl
  have hinline : Inline i.path.name :=
    inline_of_notMem ⟨hnot _ (by decide), hnot _ (by decide), hnot _ (by decide)⟩
  refine Inline.isCode ?_ ?_
  · exact ((Inline.append (by decide) hinline).append (by decide)).append
      (inline_moduleName hlocal.isWord.forall)
  · repeat apply Begins.append
    decide

theorem written_function {name : String} {params : List String} {literal : String}
    (hhead : Unbroken (name ++ "(" ++ ", ".intercalate params ++ ")")) (h : Inline literal) :
    ∀ s ∈ Statement.function name params [.line ("return " ++ literal)], Written s := by
  refine List.forall_mem_cons.mpr ⟨?_, List.forall_mem_singleton.mpr .blank⟩
  exact ((solid_return h).define (by simp) hhead _ List.mem_cons_self).1

theorem written_interfaceFunctions (c : Component) (s : Symbols) :
    ∀ st ∈ interfaceFunctions c s, Written st := by
  simp only [interfaceFunctions, List.forall_mem_append]
  refine ⟨⟨⟨⟨?_, ?_⟩, ?_⟩, ?_⟩, ?_⟩
  · exact written_function (by decide) (inline_quote _)
  · exact written_function (by decide) (inline_spreads.signalList _)
  · exact written_function (by decide) (inline_spreads.signalList _)
  · exact written_function (by decide) (inline_spreads.list _)
  · refine written_function (by decide)
      (inline_spreads.dictionary (List.forall_mem_map.mpr fun key _ => ?_))
    exact inline_lookup (by decide) key

def moduleLines (p : Program) (s : Symbols) (o : CodeOptions) (statements : List Statement) :
    List String :=
  openingLines p s o ++ Statement.bodyLines 0
    (Statement.function "initialise" ["config"] statements)

theorem splitOn_laidOut {lines : List String} (h : ∀ l ∈ lines, '\n' ∉ l.toList)
    (rest : List Char) :
    (laidOut lines ++ rest).splitOn '\n' = lines.map String.toList ++ rest.splitOn '\n' := by
  induction lines with
  | nil => rfl
  | cons l lines ih =>
    rw [List.forall_mem_cons] at h
    rw [laidOut_cons, List.append_assoc, List.cons_append, List.splitOn_append_cons_self,
      List.splitOn_eq_singleton h.1, ih h.2]
    rfl

def Laid (lines : List String) : Prop :=
  ∃ ss, lines = Statement.bodyLines 0 ss ∧ ∀ s ∈ ss, Written s

theorem Laid.append {lines lines' : List String} (h : Laid lines) (h' : Laid lines') :
    Laid (lines ++ lines') := by
  obtain ⟨ss, rfl, hss⟩ := h
  obtain ⟨ss', rfl, hss'⟩ := h'
  exact ⟨ss ++ ss', (bodyLines_append 0 ss ss').symm, List.forall_mem_append.mpr ⟨hss, hss'⟩⟩

theorem laid_code {lines : List String} (h : ∀ l ∈ lines, IsCode l) : Laid lines := by
  refine ⟨lines.map .line, ?_, List.forall_mem_map.mpr fun l hl => .line (h l hl)⟩
  simp [bodyLines_eq, List.flatMap_map, Statement.lines, Statement.indentation]

theorem laid_openingLines {p : Program} {s : Symbols} {o : CodeOptions}
    (hheader : ∀ l ∈ headerLines o, IsComment l) (hworded : p.Worded) :
    Laid (openingLines p s o) := by
  have htracing : Laid (if o.instrument then tracingFunctions else []) := by
    split
    · exact exists_tracingFunctions
    · exact laid_code (List.forall_mem_nil _)
  have hblanks : Laid ["", ""] := ⟨[.blank, .blank], rfl, by simp [Written.blank]⟩
  have hinterface : Laid (Statement.bodyLines 0 (interfaceFunctions p.component s)) :=
    ⟨_, rfl, written_interfaceFunctions p.component s⟩
  exact
    (((((laid_code fun l hl => (hheader l hl).isCode).append
      (laid_code isCode_supportImports)).append
    htracing).append (laid_code
      (isCode_importLines hworded.imports))).append hblanks).append hinterface

theorem Laid.suite {loose : TextLine → Prop} {lines : List String} (h : Laid lines) :
    Suite loose 0 (lines.map String.toList) := by
  obtain ⟨ss, rfl, hss⟩ := h
  rw [bodyLines_eq, List.map_flatMap]
  exact suite_flatMap fun s hs => (hss s hs).suite 0

theorem Laid.unbroken {lines : List String} (h : Laid lines) : ∀ l ∈ lines, Unbroken l := by
  obtain ⟨ss, rfl, hss⟩ := h
  intro l hl
  rw [bodyLines_eq, List.mem_flatMap] at hl
  obtain ⟨s, hs, hl⟩ := hl
  exact (hss s hs).unbroken 0 l hl

def initialiseHead : TextLine := "def initialise(config):".toList

section Module

variable {p : Program} {s : Symbols} {o : CodeOptions} {statements rest : List Statement}
  {first : Statement} (hopening : Laid (openingLines p s o)) (hwritten : ∀ st ∈ statements,
    Written st)
include hopening hwritten

theorem unbroken_moduleLines : ∀ l ∈ moduleLines p s o statements, Unbroken l := by
  rw [moduleLines, bodyLines_initialise]
  refine List.forall_mem_append.mpr ⟨hopening.unbroken, List.forall_mem_cons.mpr ⟨by decide, ?_⟩⟩
  refine List.forall_mem_append.mpr ⟨fun l hl => ?_, List.forall_mem_singleton.mpr (by decide)⟩
  rw [bodyLines_eq, List.mem_flatMap] at hl
  obtain ⟨st, hst, hl⟩ := hl
  exact (hwritten st hst).unbroken 1 l hl

omit hopening hwritten

theorem moduleLines_chars (p : Program) (s : Symbols) (o : CodeOptions)
    (gap body : List Statement) :
    (moduleLines p s o (gap ++ body)).map String.toList ++ [[]] =
      (openingLines p s o).map String.toList ++ (initialiseHead ::
        (gap.flatMap (charLines 1) ++ body.flatMap (charLines 1)) ++ [[], []]) := by
  have hhead : (headLine "initialise" "config").toList = initialiseHead := by decide
  rw [moduleLines, bodyLines_initialise, bodyLines_eq]
  simp [hhead, List.map_flatMap]
  rfl

theorem exists_blank_moduleLines (hbare : isBare p.component = true) (body : List Statement) :
    ∃ before after, (moduleLines p s o (leadingGap p.component ++ body)).map String.toList ++ [[]] =
      before ++ initialiseHead :: [] :: after := by
  have hgap : leadingGap p.component = [.blank] := by simp [leadingGap, hbare]
  rw [moduleLines_chars, hgap]
  exact ⟨_, _, rfl⟩

include hopening

theorem suite_moduleLines (hstatements : ∀ st ∈ leadingGap p.component ++ first :: rest, Written st)
    (hfirst : first ≠ .blank) :
    Suite (fun head => head = initialiseHead ∧ isBare p.component = true) 0
      ((moduleLines p s o (leadingGap p.component ++ first :: rest)).map String.toList ++
          [[]]) := by
  have hhead : initialiseHead = headChars 0 "initialise(config)" := by decide
  have hgap : IsGap (fun head => head = initialiseHead ∧ isBare p.component = true)
      (headChars 0 "initialise(config)") ((leadingGap p.component).flatMap (charLines 1)) := by
    cases hbare : isBare p.component with
    | false => exact .inl (by simp [leadingGap, hbare])
    | true =>
      exact .inr ⟨⟨hhead.symm, rfl⟩, by simp [leadingGap, hbare, charLines, Statement.lines]⟩
  have hbody := (List.forall_mem_append.mp hstatements).2
  have hdefine := suite_define hgap (hbody first List.mem_cons_self) hfirst
    fun st hst => (hbody st hst).suite 1
  rw [moduleLines_chars, hhead]
  exact hopening.suite.append (hdefine.append (.blank (.blank .nil)))

end Module

end Target

theorem words_of_leaf {file : String} {p : Program} {body : DoBlock}
    {leaf : LoweredLeaf} (hp : (Parsed.ofSource source).program = some p)
    (hclean : (Parsed.ofSource source).findings = [])
    (hresolved : (p.resolve file registry files).Clean) (hdef : p.component.definition = .leaf body)
    (hlower : body.lower (p.resolve file registry files).symbols.tables = .ok leaf) :
    (∀ v ∈ leaf.locals, WordChars v.name) ∧ (∀ v ∈ leaf.reads, WordChars v.name) ∧
      ∀ c ∈ leaf.calls, WordChars c.package ∧ WordChars c.function := by
  have hworded := Parsed.worded_of_clean hp hclean
  have hintact := Parsed.intact_of_clean hp hclean
  rw [hdef] at hintact
  obtain ⟨leaf', hlower', hlowers⟩ :=
    (Program.bodyAgrees_of_clean hdef hintact.1 hintact.2 hresolved).exists_lower
  cases hlower.symm.trans hlower'
  have hlocals : ∀ v ∈ leaf.locals, WordChars v.name := by
    intro v hv
    obtain ⟨id, hid, hname⟩ := exists_of_mem_numberedFrom (hlowers.locals ▸ hv)
    exact hname ▸ (hworded.bound body hdef id hid).isWord.forall
  refine ⟨hlocals, fun v hv => hlocals v (hlowers.reads hv), fun c hc => ?_⟩
  obtain ⟨call, hcall, hcallee⟩ := List.mem_map.mp (hlowers.callees ▸ List.mem_map_of_mem hc)
  obtain ⟨hpackage, hfunction⟩ := Prod.mk.inj hcallee
  obtain ⟨i, hi, hname⟩ := Program.imported_of_clean hdef hresolved call hcall
  exact ⟨hname.trans hpackage ▸ (hworded.imports i hi).2.isWord.forall,
    hfunction ▸ (Parsed.isWord_function_of_clean hp hclean hdef call hcall).forall⟩

open Target in
theorem exists_statements {file : String} {p : Program} {s : Symbols}
    {body : Body} {instrument : Bool} {statements : List Statement} {log : List LogEvent}
    (hp : (Parsed.ofSource source).program = some p)
    (hclean : (Parsed.ofSource source).findings = [])
    (hresolved : (p.resolve file registry files).Clean)
    (hleaves : p.Leaves (p.resolve file registry files) s body)
    (hstatements : initialiseBody p.component s body (.ofText source) instrument =
      .ok (statements, log)) :
    (∀ st ∈ statements, Written st) ∧
      ∃ first rest, statements = leadingGap p.component ++ first :: rest ∧ first ≠ .blank := by
  cases hleaves with
  | @leaf body leaf hdef hlower =>
    simp only [initialiseBody, hdef] at hstatements
    cases hstatements
    obtain ⟨hlocals, hreads, hcalls⟩ := words_of_leaf hp hclean hresolved hdef hlower
    have hgap : leadingGap p.component = [] := by simp [leadingGap, isBare, Component.isLeaf, hdef]
    obtain ⟨body, hbody, hsolid, hne⟩ := exists_leafBody instrument hlocals hreads hcalls
    have hdefine : Solid [.define "____leaf(a, s)" body] := hsolid.define hne (by decide)
    have hreturn : Solid [.line "return ____leaf"] :=
      solid_line (Inline.isCode (by decide) (by decide))
    rw [hbody, hgap]
    refine ⟨?_, _, _, rfl, by simp⟩
    exact List.forall_mem_cons.mpr ⟨(hdefine _ List.mem_cons_self).1,
      List.forall_mem_cons.mpr ⟨.blank, fun st hst => (hreturn st hst).1⟩⟩
  | @arrow e hdef =>
    have hworded := Parsed.worded_of_clean hp hclean
    simp only [initialiseBody, hdef] at hstatements
    obtain ⟨⟨statements', n⟩, hbody, hok⟩ := exists_of_bind_eq_ok hstatements
    cases hok
    obtain ⟨program, hprogram, rfl⟩ := statements_of_arrowBody
      (fun d hd => Program.exists_declaration? hdef hresolved hd) rfl hbody
    obtain ⟨hsteps, hresult⟩ := ArrowProgram.settled_of_ofArena hprogram
    have hds : ∀ d ∈ p.component.declarations, IsWord d.name.name ∧ WordChars d.component.name := by
      intro d hd
      obtain ⟨i, hi, hname⟩ := Program.imported_of_declaration hdef hresolved hd
      exact ⟨(hworded.declarations d hd).isWord, hname ▸ (hworded.imports i hi).2.isWord.forall⟩
    exact ⟨written_arrowLines hds hsteps hresult,
      exists_first_arrowLines (by simp [Component.isLeaf, hdef]) hresult⟩

open Target in
theorem exists_moduleLines {file text : String} {o : CodeOptions}
    (h : (compile source file registry files o).code = some text) (hat : Unbroken o.generatedAt)
    (hversion : ∀ p ∈ o.provenance, Unbroken p.version) :
    ∃ p s body log first rest, (Parsed.ofSource source).program = some p ∧
      p.Leaves (p.resolve file registry files) s body ∧
      initialiseBody p.component s body (.ofText source) o.instrument =
        .ok (leadingGap p.component ++ first :: rest, log) ∧
      Laid (openingLines p s (recorded source registry o)) ∧
      (∀ st ∈ leadingGap p.component ++ first :: rest, Written st) ∧ first ≠ .blank ∧
      text.toList.splitOn '\n' = (moduleLines p s (recorded source registry o)
        (leadingGap p.component ++ first :: rest)).map String.toList ++ [[]] ∧
      '\r' ∉ text.toList := by
  obtain ⟨p, s, body, code, hp, hclean, hresolved, hleaves, hcode, rfl⟩ := exists_of_code h
  obtain ⟨statements, log, hstatements, htext⟩ := text_of_generate hcode
  obtain ⟨hwritten, first, rest, rfl, hfirst⟩ :=
    exists_statements hp hclean hresolved hleaves hstatements
  have hheader : ∀ l ∈ headerLines (recorded source registry o), IsComment l := by
    intro l hl
    have hfeed := comments_recorded (.inl rfl) hat.1 (fun p hp => (hversion p hp).1) source registry
      l hl
    have hreturn := comments_recorded (.inr rfl) hat.2 (fun p hp => (hversion p hp).2) source
      registry l hl
    exact ⟨⟨hfeed.2, hreturn.2⟩, hfeed.1⟩
  have hopening : Laid (openingLines p s (recorded source registry o)) :=
    laid_openingLines hheader (Parsed.worded_of_clean hp hclean)
  have hunbroken := unbroken_moduleLines hopening hwritten
  rw [← laidOut_append] at htext
  refine ⟨p, s, body, log, first, rest, hp, hleaves, hstatements, hopening, hwritten, hfirst, ?_,
    ?_⟩
  · rw [htext]
    have hsplit := splitOn_laidOut (fun l hl => (hunbroken l hl).1) []
    rwa [List.append_nil] at hsplit
  · rw [htext]
    intro hmem
    obtain ⟨l, hl, hmem⟩ := List.mem_flatMap.mp hmem
    rcases List.mem_append.mp hmem with hmem | hmem
    · exact (hunbroken l hl).2 hmem
    · simp at hmem

open Target in
/-- The text of a module is cut into the lines that were written, without carriage returns, and they
are in blocks. A blank line stands behind the head of a function only in an arrow without
declarations, and only behind that of `initialise`; there it does stand. -/
theorem compile_blocks (source file text : String) (registry : Registry) (files : FileTree)
    (o : CodeOptions) (h : (compile source file registry files o).code = some text)
    (hat : Unbroken o.generatedAt) (hversion : ∀ p ∈ o.provenance, Unbroken p.version) :
    ∃ p s body statements log, (Parsed.ofSource source).program = some p ∧
      p.Leaves (p.resolve file registry files) s body ∧
      initialiseBody p.component s body (.ofText source) o.instrument = .ok (statements, log) ∧
      text.toList.splitOn '\n' =
        (moduleLines p s (recorded source registry o) statements).map String.toList ++ [[]] ∧
      '\r' ∉ text.toList ∧
      BlockStructure (fun head => head = initialiseHead ∧ isBare p.component = true)
        (text.toList.splitOn '\n') ∧
      (isBare p.component = true →
        ∃ before after, text.toList.splitOn '\n' = before ++ initialiseHead :: [] :: after) := by
  obtain ⟨p, s, body, log, first, rest, hp, hleaves, hstatements, hopening, hwritten, hfirst,
    hlines, hreturn⟩ :=
    exists_moduleLines h hat hversion
  refine ⟨p, s, body, _, log, hp, hleaves, hstatements, hlines, hreturn, ?_, fun hbare => ?_⟩
  · rw [hlines]
    exact (suite_moduleLines hopening hwritten hfirst).blockStructure
  · rw [hlines]
    exact exists_blank_moduleLines hbare _

def nestedBranches : String :=
  "import m as m component c inputs a outputs b "
    ++ "do y <- if a == 1 then x <- let u <- m.f(a) in m.f(u) return x "
    ++ "else if a == 2 then m.f(a) return () else return a endif return a endif return b <- y"

open Target in
theorem nestedBranches_blocks :
    ∃ text p, (compile nestedBranches "c.pcl" Program.oneFunction .empty ⟨true, "now", none⟩).code =
      some text ∧ (Parsed.ofSource nestedBranches).program = some p ∧ '\r' ∉ text.toList ∧
      BlockStructure (fun head => head = initialiseHead ∧ isBare p.component = true)
        (text.toList.splitOn '\n') := by
  have hcode : (compile nestedBranches "c.pcl" Program.oneFunction .empty ⟨true, "now",
      none⟩).code.isSome = true := by
    decide +kernel
  obtain ⟨text, htext⟩ := Option.isSome_iff_exists.mp hcode
  obtain ⟨p, -, -, -, -, hp, -, -, -, hreturn, hblocks, -⟩ :=
    compile_blocks nestedBranches "c.pcl" text Program.oneFunction .empty ⟨true, "now", none⟩ htext
      (by decide) (by simp)
  exact ⟨text, p, htext, hp, hreturn, hblocks⟩

open Target in
/-- Its head of `initialise` is not followed by a line of its block. -/
theorem bareWire_not_tight :
    ∃ text, (compile bareWire "c.pcl" .empty .empty ⟨false, "now", none⟩).code = some text ∧
      ¬ BlockStructure (fun _ => False) (text.toList.splitOn '\n') := by
  have hcode : (compile bareWire "c.pcl" .empty .empty ⟨false, "now", none⟩).code.isSome =
      true := by
    decide +kernel
  have hbare : (Parsed.ofSource bareWire).program.map (fun p => isBare p.component) =
      some true := by
    decide +kernel
  obtain ⟨text, htext⟩ := Option.isSome_iff_exists.mp hcode
  obtain ⟨p, s, -, -, first, rest, hp, -, -, -, -, -, hlines, -⟩ :=
    exists_moduleLines htext (by decide) (by simp)
  rw [hp, Option.map_some, Option.some.injEq] at hbare
  obtain ⟨before, after, hblank⟩ := exists_blank_moduleLines hbare (first :: rest)
  refine ⟨text, htext, fun h => ?_⟩
  obtain ⟨gap, line, others, hafter, hgap, hline, -⟩ := h.opened before initialiseHead ([] :: after)
    (hlines.trans hblank) (by decide)
  rcases hgap with rfl | ⟨hloose, -⟩
  · cases hafter
    cases hline
  · exact hloose

/-- An origin whose version goes on behind its line, and further in. -/
def stray : Provenance :=
  { forged with version := "0\n  1" }

open Target in
/-- With such an origin a line of the header is indented, though no block is open. -/
theorem stray_not_blocks :
    ∃ text, (compile bareWire "c.pcl" .empty .empty ⟨false, "now", some stray⟩).code = some text ∧
      ∀ loose, ¬ BlockStructure loose (text.toList.splitOn '\n') := by
  have hcode : (compile bareWire "c.pcl" .empty .empty ⟨false, "now", some stray⟩).code.isSome =
      true := by
    decide +kernel
  obtain ⟨text, htext⟩ := Option.isSome_iff_exists.mp hcode
  obtain ⟨p, s, body, code, hp, hclean, -, -, hcode, rfl⟩ := exists_of_code htext
  obtain ⟨cs, -, hlines, -⟩ :=
    opens_generate (o := ⟨false, "now", some stray⟩) (Parsed.worded_of_clean hp hclean) hcode
  let front : List String :=
    ["#", "# DO NOT EDIT THIS FILE!", "#", "# This file was automatically generated by PCLc on",
      "# now.", "#"]
  let back : List String :=
    ["# source sha256 " ++ stray.source.hex, "# signatures sha256 " ++ stray.interfaces.hex, "#"]
  have hheader : laidOut (headerLines ⟨false, "now", some stray⟩) =
      laidOut (front ++ "# pclc 0" :: "  1" :: back) := by
    simp [headerLines, laidOut, front, back, stray]
  refine ⟨_, htext, fun loose h => ?_⟩
  have hfeed : ∀ l ∈ front ++ "# pclc 0" :: "  1" :: back, '\n' ∉ l.toList := by decide
  rw [hlines, hheader, splitOn_laidOut hfeed, List.map_append, List.append_assoc] at h
  rcases h.continued _ "# pclc 0".toList [] "  1".toList _ rfl (by decide) (by decide) (by simp)
    (by decide) with
    heq | ⟨outer, head, inner, hbefore, hopens, -⟩
  · exact absurd heq (by decide)
  · have hnone : ∀ l ∈ front.map String.toList, TextLine.opens l = false := by decide
    rw [hnone head (hbefore ▸ List.mem_append_right _ List.mem_cons_self)] at hopens
    cases hopens

end PipelineLang
