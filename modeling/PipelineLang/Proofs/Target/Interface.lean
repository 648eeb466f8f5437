import PipelineLang.Proofs.Compilation.Acceptance
import PipelineLang.Proofs.Grammar.Names
import PipelineLang.Proofs.Leaf.Numbers
import PipelineLang.Proofs.Leaf.Refinement
import PipelineLang.Proofs.Symbols.Header
import PipelineLang.Proofs.Target.Layout

/-! The interface functions of a generated module: whatever stands in front of them, and whatever
the module does, scanning its text finds them and reads off the declared interface. -/

namespace PipelineLang

namespace Target

open SourceText

/-- The lines of the header are comments. What would break them does not come from the digests. -/
theorem headerLines_comments {o : CodeOptions} {c : Char} (hc : c = '\n' ∨ c = '\r')
    (hat : c ∉ o.generatedAt.toList) (hversion : ∀ p ∈ o.provenance, c ∉ p.version.toList) :
    ∀ l ∈ headerLines o, l.toList.head? = some '#' ∧ c ∉ l.toList := by
  have hdigest : ∀ d : Digest, c ∉ d.hex.toList := by
    intro d hmem
    have hword := Digest.isAlphanum_of_mem_hex hmem
    rcases hc with rfl | rfl <;> exact absurd hword (by decide)
  unfold headerLines
  cases hprovenance : o.provenance with
  | none => rcases hc with rfl | rfl <;> simp [hat]
  | some p =>
    have hversion := hversion p hprovenance
    rcases hc with rfl | rfl <;> simp [hat, hversion, hdigest]

section Functions

variable {last : String} {fs : List (String × List (List Char))} {rest : List Char}

theorem headLine_component :
    headLine "____instr_component" "component_decl_id, component_id, event, a, s" =
    "def ____instr_component(component_decl_id, component_id, event, a, s):" :=
  headLine_ofList _ _

theorem headLine_construction : headLine "____instr_component_construction"
    "component_decl_id, component_id, component_config, invoked_component, decl_line_no" =
      "def ____instr_component_construction(component_decl_id, component_id, component_config, "
        ++ "invoked_component, decl_line_no):" := by
  refine .trans ?_ String.ofList_append
  exact headLine_ofList _ _

theorem tracingFunctions_eq : ∃ l lines lines', tracingFunctions =
    [l] ++ (headLine "____instr_component" "component_decl_id, component_id, event, a, s" :: lines)
      ++ (headLine "____instr_component_construction"
        "component_decl_id, component_id, component_config, invoked_component, decl_line_no" ::
          lines') ∧
    Starts 'i' l ∧ (∀ l ∈ lines, Starts ' ' l) ∧ ∀ l ∈ lines', Starts ' ' l := by
  rw [headLine_component, headLine_construction]
  refine ⟨_, [_, _], [_], rfl, starts_ofList (by decide), ?_, ?_⟩
  · simp only [List.forall_mem_cons, List.not_mem_nil, false_implies, implies_true, and_true]
    exact ⟨(((starts_ofList (by decide)).append (tame_ofList (by decide))).append
      (tame_ofList (by decide))).append
      (tame_ofList (by decide)), starts_ofList (by decide)⟩
  · rw [List.forall_mem_singleton]
    exact ((starts_ofList_append (by decide)).append (tame_ofList (by decide))).append
      (tame_ofList (by decide))

theorem isHead_component :
    IsHead "____instr_component" "component_decl_id, component_id, event, a, s" := by
  decide

theorem isHead_construction : IsHead "____instr_component_construction"
    "component_decl_id, component_id, component_config, invoked_component, decl_line_no" := by
  decide

theorem tame_tracing : ∀ l ∈ tracingFunctions, Tame l := by
  obtain ⟨l, lines, lines', htracing, hl, hlines, hlines'⟩ := tracingFunctions_eq
  rw [htracing]
  simp only [List.forall_mem_append, List.forall_mem_cons, List.not_mem_nil, false_implies,
    implies_true, and_true]
  exact ⟨⟨hl.1, isHead_component.tame, fun l hl => (hlines l hl).1⟩, isHead_construction.tame,
    fun l hl => (hlines' l hl).1⟩

theorem opens_tracing (h : Opens rest fs last) :
    ∃ body body', Opens (laidOut tracingFunctions ++ rest)
      (("____instr_component", body) :: ("____instr_component_construction", body') :: fs)
        last := by
  obtain ⟨l, lines, lines', htracing, hl, hlines, hlines'⟩ := tracingFunctions_eq
  obtain ⟨body', hconstruction⟩ := h.define_lines isHead_construction hlines'
  obtain ⟨body, hcomponent⟩ := hconstruction.define_lines isHead_component hlines
  refine ⟨body, body', ?_⟩
  rw [htracing, laidOut_append, laidOut_append, List.append_assoc, List.append_assoc]
  exact hcomponent.asides (List.forall_mem_singleton.mpr hl) (by decide)

theorem starts_support : ∀ l ∈ supportImports, Starts 'f' l := by
  simp only [supportImports, List.forall_mem_cons, List.not_mem_nil, false_implies, implies_true,
    and_true]
  exact ⟨(starts_ofList (by decide)).append (tame_ofList (by decide)), starts_ofList (by decide),
    starts_ofList (by decide), starts_ofList (by decide), starts_ofList (by decide)⟩

def entryLines (name params literal : String) : List String :=
  [headLine name params, "  return " ++ literal, ""]

theorem opens_entry {name params literal : String} (h : Opens rest fs last)
    (hhead : IsHead name params) (hliteral : IsLiteral literal) :
    Opens (laidOut (entryLines name params literal) ++ rest)
      ((name, ComponentSignature.returning literal) :: fs) last := by
  obtain ⟨rest', hrest, hshows⟩ := h.follows
  have htrim : Trimmed ("return ".toList ++ literal.toList) := by
    refine ⟨by simp [isWhiteSpace], ?_⟩
    rw [List.getLast?_append_of_ne_nil _ hliteral.nonempty]
    exact hliteral.trimmed.2
  have hbody := hrest.blank.indented (l := ' ' :: ("return ".toList ++ literal.toList))
    (by simpa using hliteral.tame.2)
  rw [lineText_of_trimmed htrim (by simp), List.append_nil] at hbody
  have hentry := Opens.define hshows hbody hhead
  simpa [laidOut, entryLines, ComponentSignature.returning] using hentry

theorem opens_entries {es : List (String × String × String)} (h : Opens rest fs last)
    (hes : ∀ e ∈ es, IsHead e.1 e.2.1 ∧ IsLiteral e.2.2) :
    Opens (laidOut (es.flatMap fun e => entryLines e.1 e.2.1 e.2.2) ++ rest)
      (es.map (fun e => (e.1, ComponentSignature.returning e.2.2)) ++ fs) last := by
  induction es with
  | nil => exact h
  | cons e es ih =>
    rw [List.forall_mem_cons] at hes
    rw [List.flatMap_cons, laidOut_append, List.append_assoc]
    exact opens_entry (ih hes.2) hes.1.1 hes.1.2

theorem tame_entries {es : List (String × String × String)}
    (hes : ∀ e ∈ es, IsHead e.1 e.2.1 ∧ IsLiteral e.2.2) :
    ∀ l ∈ es.flatMap (fun e => entryLines e.1 e.2.1 e.2.2), Tame l := by
  intro l hl
  obtain ⟨e, he, hl⟩ := List.mem_flatMap.mp hl
  obtain ⟨hhead, hliteral⟩ := hes e he
  simp only [entryLines, List.mem_cons, List.not_mem_nil, or_false] at hl
  rcases hl with rfl | rfl | rfl
  · exact hhead.tame
  · exact Tame.append (by decide) hliteral.tame
  · decide

end Functions

section Module

variable (c : Component) (s : Symbols)

theorem bodyLines_returning (name literal : String) (params : List String) :
    Statement.bodyLines 0 (Statement.function name params [.line ("return " ++ literal)]) =
      entryLines name (", ".intercalate params) literal := by
  simp [Statement.function, Statement.bodyLines, Statement.lines, Statement.indentation, entryLines,
    headLine, ← String.append_assoc]

def entries : List (String × String × String) :=
  let keys := s.configuration.map ConfigurationEntry.name
  [("get_name", "", quote c.name.name), ("get_inputs", "", signalList c.inputs),
   ("get_outputs", "", signalList c.outputs), ("get_configuration", "", list keys),
   ("configure", "args", dictionary (keys.map fun key => (key, lookup "args" key)))]

theorem bodyLines_interface :
    Statement.bodyLines 0 (interfaceFunctions c s) =
      (entries c s).flatMap fun e => entryLines e.1 e.2.1 e.2.2 := by
  simp [interfaceFunctions, entries, bodyLines_append, bodyLines_returning]

theorem forall_mem_entries :
    ∀ e ∈ entries c s, IsHead e.1 e.2.1 ∧ IsLiteral e.2.2 := by
  simp only [entries, List.forall_mem_cons, List.not_mem_nil, false_implies, implies_true, and_true]
  refine ⟨⟨by decide, isLiteral_quote _⟩, ⟨by decide, isLiteral_signalList _⟩,
    ⟨by decide, isLiteral_signalList _⟩,
    ⟨by decide, isLiteral_list _⟩, by decide, isLiteral_dictionary ?_⟩
  rw [List.forall_mem_map]
  exact fun key _ => (Tame.append (by decide) (tame_quote key)).append (by decide)

def leadingLines (instrument : Bool) (imports : List Import) : List String :=
  supportImports ++ (if instrument then tracingFunctions else []) ++ importLines imports ++ ["", ""]
    ++ (entries c s).flatMap (fun e => entryLines e.1 e.2.1 e.2.2) ++
      [headLine "initialise" "config"]

variable {c s} {imports : List Import}

theorem starts_importLine {i : Import}
    (hpath : ∀ c ∈ i.path.name.toList, Munch.isWordPart c = true ∨ c = '.')
    (hlocal : IsName i.localName.name) :
    Starts 'i' ("import " ++ i.path.name ++ " as " ++ moduleName i.localName.name) := by
  have hpath : Tame i.path.name := tame_of_forall fun c hc => (hpath c hc).imp_right fun hc => by
    simp [hc]
  have hlocal : Tame i.localName.name := tame_of_forall fun c hc => .inl (hlocal.isWord.forall c hc)
  exact (((starts_ofList (by decide)).append hpath).append (by decide)).append
    (Tame.append (by decide) hlocal)

variable (himports : ∀ i ∈ imports, (∀ c ∈ i.path.name.toList, Munch.isWordPart c = true ∨ c =
  '.') ∧ IsName i.localName.name)
include himports

theorem starts_importLines : ∀ l ∈ importLines imports, Starts 'i' l :=
  List.forall_mem_map.mpr fun i hi => starts_importLine (himports i hi).1 (himports i hi).2

theorem tame_leadingLines (instrument : Bool) :
    ∀ l ∈ leadingLines c s instrument imports, Tame l := by
  simp only [leadingLines, List.forall_mem_append]
  refine ⟨⟨⟨⟨⟨fun l hl => (starts_support l hl).1, ?_⟩,
    fun l hl => (starts_importLines himports l
      hl).1⟩, by decide⟩, tame_entries (forall_mem_entries c s)⟩, by decide⟩
  cases instrument with
  | true => exact tame_tracing
  | false => exact fun l hl => nomatch hl

theorem opens_leadingLines (instrument : Bool) (cs : List Char) :
    ∃ fs, (∀ f ∈ fs, f.1 ∈ ["____instr_component", "____instr_component_construction"]) ∧
      Opens (laidOut (leadingLines c s instrument imports) ++ cs)
        (fs ++ (entries c s).map fun e => (e.1, ComponentSignature.returning e.2.2))
          "initialise" := by
  have hlast : Opens (laidOut [headLine "initialise" "config"] ++ cs) [] "initialise" :=
    opens_last (by decide) cs
  have hentries := ((opens_entries hlast (forall_mem_entries c s)).blanks 2).asides
    (starts_importLines himports)
    (by decide)
  rw [List.append_nil] at hentries
  simp only [leadingLines, laidOut_append, List.append_assoc]
  cases instrument with
  | true =>
    obtain ⟨body, body', htracing⟩ := opens_tracing hentries
    exact ⟨[_, _], by simp, htracing.asides starts_support (by decide)⟩
  | false => exact ⟨[], by simp, hentries.asides starts_support (by decide)⟩

omit himports

theorem scan_of_begin {text : String} {fs : List (String × List (List Char))} (file : String)
    (hinputs : ∀ id ∈ c.inputs.names, IsName id.name)
    (houtputs : ∀ id ∈ c.outputs.names, IsName id.name)
    (hkeys : ∀ e ∈ s.configuration, IsName e.name)
    (hfs : ∀ f ∈ fs, f.1 ∈ ["____instr_component", "____instr_component_construction"])
    (h : Begin "initialise" (fs ++ (entries c s).map fun e => (e.1,
      ComponentSignature.returning e.2.2)) (functionsOf text)) :
    ComponentSignature.scan text file = .ok
      ⟨some (.ofClause c.inputs), some (.ofClause c.outputs),
        some (s.configuration.map ConfigurationEntry.name), true, true⟩ := by
  have hfind : ∀ key, key ∉ ["____instr_component", "____instr_component_construction"] →
      ((fs ++ (entries c s).map fun e => (e.1, ComponentSignature.returning e.2.2)).find? fun f =>
        f.1 = key) =
        ((entries c s).map fun e => (e.1, ComponentSignature.returning e.2.2)).find? fun f => f.1 =
        key := by
    intro key hkey
    rw [List.find?_append, List.find?_eq_none.mpr, Option.none_or]
    intro f hf hname
    exact hkey (of_decide_eq_true hname ▸ hfs f hf)
  have hget := ComponentSignature.entryShape_of_begin file h (hfind "get_inputs" (by decide))
    (isLiteral_signalList _).trimmed (shape?_signalList fun id hid => (hinputs id hid).isWord)
  have hput := ComponentSignature.entryShape_of_begin file h (hfind "get_outputs" (by decide))
    (isLiteral_signalList _).trimmed (shape?_signalList fun id hid => (houtputs id hid).isWord)
  have hkey := ComponentSignature.entryShape_of_begin file h (hfind "get_configuration" (by decide))
    (isLiteral_list _).trimmed
      (shape?_list (List.forall_mem_map.mpr fun e he => (hkeys e he).isWord))
  obtain ⟨g, hg, -⟩ := h.find? (hfind "configure" (by decide))
  have hconfigure : ((functionsOf text).any fun f => f.name = "configure") = true := by
    simpa using ⟨g, List.mem_of_find?_eq_some hg, by simpa using List.find?_some hg⟩
  simp only [ComponentSignature.scan, hget, hput, hkey, hconfigure, h.any_last]
  rfl

end Module

/-- Behind its header, the text of a module shows the interface, whatever the component does. -/
theorem opens_generate {p : Program} {s : Symbols} {body : Body} {lines : LineIndex}
    {o : CodeOptions} {code : Generated} (hworded : p.Worded)
    (h : p.generate s body lines o = .ok code) :
    ∃ cs fs, code.text.toList = laidOut (headerLines o) ++ cs ∧
      (∀ f ∈ fs, f.1 ∈ ["____instr_component", "____instr_component_construction"]) ∧
      Opens (stripComments none cs)
        (fs ++ (entries p.component s).map fun e => (e.1, ComponentSignature.returning e.2.2))
          "initialise" := by
  obtain ⟨statements, log, -, htext⟩ := text_of_generate h
  let below := laidOut (Statement.bodyLines 1 statements ++ [""])
  obtain ⟨fs, hfs, hopens⟩ :=
    opens_leadingLines (c := p.component) (s := s) hworded.imports o.instrument
    (stripComments none below)
  rw [← stripComments_laidOut (tame_leadingLines hworded.imports _)] at hopens
  refine ⟨_, fs, ?_, hfs, hopens⟩
  rw [htext, bodyLines_initialise]
  simp [below, leadingLines, openingLines, bodyLines_interface, laidOut]

end Target

/-- The options that code is written with: the module names its origin. -/
def recorded (source : String) (registry : Registry) (o : CodeOptions) : CodeOptions :=
  { o with provenance := o.provenance.or (some (.ofSource source registry)) }

theorem comments_recorded {o : CodeOptions} {c : Char} (hc : c = '\n' ∨ c = '\r')
    (hat : c ∉ o.generatedAt.toList) (hversion : ∀ p ∈ o.provenance, c ∉ p.version.toList)
    (source : String) (registry : Registry) :
    ∀ l ∈ Target.headerLines (recorded source registry o), l.toList.head? = some '#' ∧
    c ∉ l.toList := by
  refine Target.headerLines_comments hc hat fun q hq => ?_
  rcases Option.or_eq_some_iff.mp hq with hq | ⟨-, hq⟩
  · exact hversion q hq
  · cases hq
    have hcompiler : '\n' ∉ compilerVersion.toList ∧ '\r' ∉ compilerVersion.toList := by decide
    rcases hc with rfl | rfl
    · exact hcompiler.1
    · exact hcompiler.2

theorem Program.Leaves.promise {p : Program} {r : Resolution} {s : Symbols} {body : Body}
    (h : p.Leaves r s body) :
    s.promise = r.symbols.promise := by
  cases h <;> rfl

open Target SourceText in
/-- The text that a compilation gives is read back as the declared interface, whatever the component
does. -/
theorem scan_compile (source file module text : String) (registry : Registry) (files : FileTree)
    (o : CodeOptions) (h : (compile source file registry files o).code = some text)
    (hat : '\n' ∉ o.generatedAt.toList) (hversion : ∀ p ∈ o.provenance, '\n' ∉ p.version.toList) :
    ∃ p sig, (Parsed.ofSource source).program = some p ∧ ComponentSignature.scan text module =
      .ok sig ∧ sig = ⟨some (.ofClause p.component.inputs), some (.ofClause p.component.outputs),
        some (p.component.configuration.map Ident.name), true, true⟩ ∧
      sig.missing = [] ∧
      (LeafSignature.ofSignature sig).inputs =
        (p.resolve file registry files).symbols.declaredInputs ∧
      (LeafSignature.ofSignature sig).outputs =
        (p.resolve file registry files).symbols.declaredOutputs := by
  obtain ⟨p, s, body, code, hp, hclean, hresolved, hleaves, hcode, rfl⟩ := exists_of_code h
  have hworded := Parsed.worded_of_clean hp hclean
  have hpromise := p.promise_resolve hresolved
  have hkeys : s.configuration.map ConfigurationEntry.name =
      p.component.configuration.map Ident.name :=
    congrArg Prod.fst (hleaves.promise.trans hpromise)
  have hheader := comments_recorded (.inl rfl) hat hversion source registry
  obtain ⟨cs, fs, htext, hfs, hopens⟩ :=
    opens_generate (o := recorded source registry o) hworded hcode
  have hbegin := (hopens.blanks (headerLines (recorded source registry o)).length).shows 1
  rw [← stripComments_comments hheader, ← htext] at hbegin
  have hwords : ∀ e ∈ s.configuration, IsName e.name := by
    intro e he
    obtain ⟨id, hid, hname⟩ := List.mem_map.mp (hkeys ▸ List.mem_map_of_mem he)
    exact hname ▸ hworded.configuration id hid
  have hscan := scan_of_begin module hworded.inputs hworded.outputs hwords hfs hbegin
  rw [hkeys] at hscan
  refine ⟨p, _, hp, hscan, rfl, rfl, ?_, ?_⟩
  · exact (SignalShape.toType_ofClause _).trans (congrArg (·.2.1) hpromise).symm
  · exact (SignalShape.toType_ofClause _).trans (congrArg (·.2.2) hpromise).symm

def quoting : String :=
  "import m as m component c inputs b, a outputs d configuration k "
    ++ "do x <- m.f(\"it's # def get_inputs(): [\") return d <- x"

theorem quoting_scanned :
    ∃ text, (compile quoting "c.pcl" Program.oneFunction .empty ⟨true, "now", none⟩).code =
      some text ∧ ComponentSignature.scan text "c.py" =
        .ok ⟨some (.flat ["b", "a"]), some (.flat ["d"]), some ["k"], true, true⟩ := by
  have hcode : (compile quoting "c.pcl" Program.oneFunction .empty ⟨true, "now",
      none⟩).code.isSome = true := by
    decide +kernel
  have hheader : (Parsed.ofSource quoting).program.map (fun p =>
      (SignalShape.ofClause p.component.inputs, SignalShape.ofClause p.component.outputs,
        p.component.configuration.map Ident.name)) = some (.flat ["b",
        "a"], .flat ["d"], ["k"]) := by
    decide +kernel
  obtain ⟨text, htext⟩ := Option.isSome_iff_exists.mp hcode
  obtain ⟨p, sig, hp, hscan, rfl, -⟩ :=
    scan_compile quoting "c.pcl" "c.py" text Program.oneFunction .empty ⟨true, "now", none⟩ htext
      (by decide) (fun p hp => nomatch hp)
  simp only [hp, Option.map_some, Option.some.injEq, Prod.mk.injEq] at hheader
  rw [hheader.1, hheader.2.1, hheader.2.2] at hscan
  exact ⟨text, htext, hscan⟩

def bareWire : String := "component c inputs a outputs a as wire a -> a"

/-- An origin whose version goes on behind its line. -/
def forged : Provenance where
  source := ⟨List.replicate 32 0, rfl⟩
  interfaces := ⟨List.replicate 32 0, rfl⟩
  version := "0\ndef get_inputs():\n  return ['forged']\n"

theorem ComponentSignature.entryShape_of_scan {source file : String} {sig : ComponentSignature}
    (h : scan source file = .ok sig) :
    entryShape file (SourceText.functionsOf source) "get_inputs" = .ok sig.inputs := by
  obtain ⟨inputs, hinputs, h⟩ := exists_of_bind_eq_ok h
  obtain ⟨outputs, -, h⟩ := exists_of_bind_eq_ok h
  obtain ⟨keys, -, h⟩ := exists_of_bind_eq_ok h
  split at h
  · cases h
    exact hinputs
  · cases h
    exact hinputs
  · cases h

open Target in
theorem laidOut_forged : ∃ front back : List String,
    laidOut (headerLines ⟨false, "now", some forged⟩) =
      laidOut front ++ (laidOut (entryLines "get_inputs" "" (list ["forged"])) ++ laidOut back) ∧
    ∀ l ∈ front ++ back, l.toList.head? = some '#' ∧ '\n' ∉ l.toList := by
  refine ⟨["#", "# DO NOT EDIT THIS FILE!", "#",
    "# This file was automatically generated by PCLc on", "# now.", "#",
    "# pclc 0"], ["# source sha256 " ++ forged.source.hex,
    "# signatures sha256 " ++ forged.interfaces.hex, "#"], ?_, ?_⟩
  · simp [headerLines, laidOut, entryLines, headLine, list, commaList, quote, quoteChars,
      escapeChar, forged]
  · decide

open Target SourceText in
/-- What such a version defines stands in front of the interface, and is read in its place. -/
theorem forged_misread :
    ∃ text p, (compile bareWire "c.pcl" .empty .empty ⟨false, "now", some forged⟩).code =
      some text ∧
      (Parsed.ofSource bareWire).program = some p ∧
      SignalShape.ofClause p.component.inputs = .flat ["a"] ∧
      ∀ sig, ComponentSignature.scan text "c.py" = .ok sig →
      sig.inputs = some (.flat ["forged"]) := by
  have hcode : (compile bareWire "c.pcl" .empty .empty ⟨false, "now", some forged⟩).code.isSome =
      true := by
    decide +kernel
  have hinputs : (Parsed.ofSource bareWire).program.map
      (fun p => SignalShape.ofClause p.component.inputs) = some (.flat ["a"]) := by
    decide +kernel
  obtain ⟨text, htext⟩ := Option.isSome_iff_exists.mp hcode
  obtain ⟨p, s, body, code, hp, hclean, -, -, hcode, rfl⟩ := exists_of_code htext
  rw [hp, Option.map_some, Option.some.injEq] at hinputs
  obtain ⟨cs, fs, hlines, -, hopens⟩ := opens_generate (o := ⟨false, "now", some forged⟩)
    (Parsed.worded_of_clean hp hclean) hcode
  obtain ⟨front, back, hheader, hcomments⟩ := laidOut_forged
  obtain ⟨hfront, hback⟩ := List.forall_mem_append.mp hcomments
  have hhead : IsHead "get_inputs" "" := by decide
  have hentry : ∀ l ∈ entryLines "get_inputs" "" (list ["forged"]), Tame l := by
    have hentries := tame_entries (List.forall_mem_singleton
      (a := ("get_inputs", "", list ["forged"])) |>.mpr ⟨hhead, isLiteral_list _⟩)
    rwa [List.flatMap_singleton] at hentries
  have hbegin := ((opens_entry (hopens.blanks back.length) hhead (isLiteral_list ["forged"])).blanks
    front.length).shows 1
  rw [← stripComments_comments hback, ← stripComments_laidOut hentry,
    ← stripComments_comments hfront, ← List.append_assoc (laidOut (entryLines _ _ _)),
    ← List.append_assoc, ← hheader, ← hlines] at hbegin
  have hword : ∀ name ∈ ["forged"], IsWord name :=
    List.forall_mem_singleton.mpr
      ⟨'f', "orged".toList, rfl, by decide, List.all_eq_true.mp rfl⟩
  have hshape := ComponentSignature.entryShape_of_begin "c.py" hbegin
    (List.find?_cons_of_pos (decide_eq_true rfl)) (isLiteral_list _).trimmed (shape?_list hword)
  refine ⟨_, p, htext, hp, hinputs, fun sig hsig => ?_⟩
  exact Except.ok.inj ((ComponentSignature.entryShape_of_scan hsig).symm.trans hshape)

end PipelineLang
