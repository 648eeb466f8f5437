import PipelineLang.Proofs.Compilation.Acceptance
import PipelineLang.Proofs.Grammar.Names
import PipelineLang.Proofs.Symbols.Declarations
import PipelineLang.Proofs.Target.ArrowScope
import PipelineLang.Proofs.Target.Layout

/-! The names in the code of an arrow. Each thing that is assigned has a name of its own, and hides
nothing that the code reads from outside, unless the program has chosen a name so that it does. -/

namespace PipelineLang

variable {r t : Referent} {s : String}

namespace Target

open Statement

/-- What is assigned, or handed over, shares its name with nothing else in the code. -/
def NamesApart (lines : List CodeLine) : Prop :=
  ∀ t ∈ .config :: targets lines, ∀ r ∈ .config :: (targets lines ++ allUses lines),
  t.name = r.name → t = r

section Run

variable {K V : Type} [DecidableEq K]

/-- What a line leaves under each key, if it makes its value from the values of what it uses. -/
def CodeLine.exec (key : Referent → K) (meaning : CodeLine → List (Option V) → V)
    (values : K → Option V) (l : CodeLine) : K → Option V :=
  match l.target? with
  | some t => Function.update values (key t) (some (meaning l (l.uses.map fun r => values (key r))))
  | none => values

end Run

/-- At each line, what stands under a name is the value of what the name stands for. -/
def ReadsOwn (lines : List CodeLine) : Prop :=
  ∀ (V : Type) (meaning : CodeLine → List (Option V) → V) (values : String → Option V) (k : Nat),
    ∀ r ∈ .config :: (targets lines ++ allUses lines),
      (lines.take k).foldl (CodeLine.exec Referent.name meaning) values r.name =
        (lines.take k).foldl (CodeLine.exec id meaning) (fun r => values r.name) r

section Run

variable {V : Type} {meaning : CodeLine → List (Option V) → V} {scope : List Referent}

/-- A line keeps the values of both runs in step. -/
theorem exec_agrees {l : CodeLine} {named : String → Option V} {own : Referent → Option V}
    (hagree : ∀ r ∈ scope, named r.name = own r) (huses : ∀ r ∈ l.uses, r ∈ scope)
    (hapart : ∀ t, l.target? = some t → ∀ r ∈ scope, t.name = r.name → t = r) :
    ∀ r ∈ scope, l.exec Referent.name meaning named r.name = l.exec id meaning own r := by
  intro r hr
  have hvalues : (l.uses.map fun r => named r.name) = l.uses.map fun r => own (id r) :=
    List.map_congr_left fun r' hr' => hagree r' (huses r' hr')
  cases htarget : l.target? with
  | none =>
    simp only [CodeLine.exec, htarget]
    exact hagree r hr
  | some t =>
    simp only [CodeLine.exec, htarget, hvalues]
    by_cases heq : r = t
    · rw [heq, Function.update_self, id, Function.update_self]
    · have hne : r.name ≠ t.name := fun hname => heq (hapart t htarget r hr hname.symm).symm
      rw [Function.update_of_ne hne, id, Function.update_of_ne heq]
      exact hagree r hr

theorem execAll_agrees {lines : List CodeLine} {named : String → Option V}
    {own : Referent → Option V} (hagree : ∀ r ∈ scope, named r.name = own r)
    (huses : ∀ r ∈ allUses lines, r ∈ scope)
    (hapart : ∀ t ∈ targets lines, ∀ r ∈ scope, t.name = r.name → t = r) :
    ∀ r ∈ scope, lines.foldl (CodeLine.exec Referent.name meaning) named r.name =
      lines.foldl (CodeLine.exec id meaning) own r := by
  induction lines generalizing named own with
  | nil => exact hagree
  | cons l lines ih =>
    simp only [allUses, List.flatMap_cons, List.forall_mem_append] at huses
    refine ih (exec_agrees hagree huses.1 fun t ht => hapart t (mem_targets_cons.mpr (.inl ht)))
      huses.2 ?_
    exact fun t ht => hapart t (mem_targets_cons.mpr (.inr ht))

theorem NamesApart.readsOwn {lines : List CodeLine} (h : NamesApart lines) : ReadsOwn lines := by
  intro V meaning values k
  have hpart : ∀ l ∈ lines.take k, l ∈ lines := fun l => List.mem_of_mem_take
  refine execAll_agrees (fun _ _ => rfl) (fun r hr => ?_) (fun t ht => ?_)
  · obtain ⟨l, hl, hr⟩ := List.mem_flatMap.mp hr
    exact List.mem_cons_of_mem _
      (List.mem_append_right _ (List.mem_flatMap.mpr ⟨l, hpart l hl, hr⟩))
  · obtain ⟨l, hl, ht⟩ := List.mem_filterMap.mp ht
    exact h t (List.mem_cons_of_mem _ (List.mem_filterMap.mpr ⟨l, hpart l hl, ht⟩))

end Run

/-- What the function makes up a name for. -/
def Referent.isDerived : Referent → Bool
  | configuration _ | identity _ | temporary _ => true
  | _ => false

theorem append_ne_of_getLast? {t : String} {c d : Char} (hs : s.toList.getLast? = some c)
    (ht : t.toList.getLast? = some d) (hne : c ≠ d) (x y : String) : x ++ s ≠ y ++ t := by
  intro h
  have hlast := congrArg (fun z : String => z.toList.getLast?) h
  simp only [String.toList_append, List.getLast?_append, hs, ht, Option.some_or, Option.some.injEq]
    at hlast
  exact hne hlast

theorem append_ne_of_not_suffix {t : String} (h : ¬ s.toList <:+ t.toList) (x : String) :
    x ++ s ≠ t := by
  rintro rfl
  exact h (by simp)

namespace Referent

theorem numbered_ne_append {c : Char} (hs : s.toList.getLast? = some c) (hc : c.isDigit = false)
    (stem : String) (n : Nat) (x : String) : numbered stem n ≠ x ++ s := by
  refine append_decimalDigits_ne (c := c) ?_ hc _ n
  rw [String.toList_append, List.getLast?_append, hs, Option.some_or]

theorem name_inj_of_isDerived (hr : r.isDerived = true) (ht : t.isDerived = true)
    (h : r.name = t.name) : r = t := by
  have hconfiguration : "_configuration".toList.getLast? = some 'n' := by decide
  have hidentity : "_id".toList.getLast? = some 'd' := by decide
  cases r <;> cases t <;> simp only [isDerived, Bool.false_eq_true] at hr ht <;>
    simp only [name] at h
  case configuration.configuration d d' => exact congrArg configuration (by simpa using h)
  case configuration.identity d d' =>
    exact absurd h (append_ne_of_getLast? hconfiguration hidentity (by decide) d d')
  case configuration.temporary d n =>
    exact absurd h.symm (numbered_ne_append hconfiguration (by decide) _ n d)
  case identity.configuration d d' =>
    exact absurd h (append_ne_of_getLast? hidentity hconfiguration (by decide) d d')
  case identity.identity d d' => exact congrArg identity (by simpa using h)
  case identity.temporary d n =>
    exact absurd h.symm (numbered_ne_append hidentity (by decide) _ n d)
  case temporary.configuration n d =>
    exact absurd h (numbered_ne_append hconfiguration (by decide) _ n d)
  case temporary.identity n d => exact absurd h (numbered_ne_append hidentity (by decide) _ n d)
  case temporary.temporary m n =>
    rw [numbered_eq, numbered_eq] at h
    exact congrArg temporary (congrArg Prod.snd (ordinal_injective (moduleName_injective h)))

theorem name_ne_config (hr : r.isDerived = true) : r.name ≠ "config" := by
  cases r <;> simp only [isDerived, Bool.false_eq_true] at hr
  case configuration d => exact append_ne_of_not_suffix (by decide) d
  case identity d => exact append_ne_of_not_suffix (by decide) d
  case temporary n => exact append_decimalDigits_ne (c := 'g') (by decide) (by decide) _ n

theorem name_ne_text (hr : r.isDerived = true) (s : Support) : r.name ≠ s.text := by
  cases r <;> simp only [isDerived, Bool.false_eq_true] at hr
  case configuration d =>
    refine append_ne_of_not_suffix ?_ d
    cases s <;> decide
  case identity d =>
    refine append_ne_of_not_suffix ?_ d
    cases s <;> decide
  case temporary n =>
    obtain ⟨c, hc, hdigit⟩ : ∃ c, s.text.toList.getLast? = some c ∧ c.isDigit = false := by
      cases s <;> exact ⟨_, rfl, by decide⟩
    exact append_decimalDigits_ne hc hdigit _ n

end Referent

def derivedNames (instrument : Bool) (ds : List Declaration) (steps : Nat) : List String :=
  ds.map (fun d => d.name.name ++ "_configuration")
    ++ ((if instrument then ds.map (fun d => d.name.name ++ "_id") else [])
      ++ (List.range steps).map fun step => numbered "tmp" step)

def globalNames (lines : List CodeLine) : List String :=
  ((allUses lines).filter Referent.isGlobal).map Referent.name

theorem mem_derivedNames {instrument : Bool} {ds : List Declaration} {steps : Nat} {x : String} :
    x ∈ derivedNames instrument ds steps ↔
      ∃ r, r.isDerived = true ∧ Assigned instrument ds steps r ∧ r.name = x := by
  constructor
  · intro hx
    simp only [derivedNames, List.mem_append, List.mem_map, List.mem_range] at hx
    rcases hx with ⟨d, hd, rfl⟩ | hx | ⟨step, hstep, rfl⟩
    · exact ⟨.configuration d.name.name, rfl, ⟨d, hd, rfl⟩, rfl⟩
    · cases instrument with
      | false => cases hx
      | true =>
        obtain ⟨d, hd, rfl⟩ := List.mem_map.mp hx
        exact ⟨.identity d.name.name, rfl, ⟨rfl, d, hd, rfl⟩, rfl⟩
    · exact ⟨.temporary step, rfl, hstep, rfl⟩
  · rintro ⟨r, hderived, hassigned, rfl⟩
    simp only [derivedNames, List.mem_append, List.mem_map, List.mem_range]
    cases r <;> simp only [Referent.isDerived, Bool.false_eq_true] at hderived
    case configuration =>
      obtain ⟨d, hd, rfl⟩ := hassigned
      exact .inl ⟨d, hd, rfl⟩
    case identity =>
      obtain ⟨rfl, d, hd, rfl⟩ := hassigned
      exact .inr (.inl (List.mem_map.mpr ⟨d, hd, rfl⟩))
    case temporary step => exact .inr (.inr ⟨step, hassigned, rfl⟩)

theorem Referent.name_ne_config_of_isGlobal (hr : r.isGlobal = true) : r.name ≠ "config" := by
  cases r <;> simp only [isGlobal, Bool.false_eq_true] at hr
  case imported localName =>
    intro h
    have hhead := congrArg (fun s : String => s.toList.head?) h
    simp [name, moduleName] at hhead
  case support s => cases s <;> decide

section Arrow

variable {instrument : Bool} {lines : LineIndex} {ds : List Declaration} {program : ArrowProgram}

theorem sort_of_assigned (ht : t ∈ .config :: targets (arrowLines instrument lines ds program)) :
    t = .config ∨ (∃ d ∈ ds, t = .component d.name.name) ∨
      t.isDerived = true ∧ Assigned instrument ds program.steps.length t := by
  rcases List.mem_cons.mp ht with rfl | ht
  · exact .inl rfl
  · have hassigned := mem_targets_arrowLines.mp ht
    cases t with
    | component declared =>
      obtain ⟨d, hd, rfl⟩ := hassigned
      exact .inr (.inl ⟨d, hd, rfl⟩)
    | configuration | identity | temporary => exact .inr (.inr ⟨rfl, hassigned⟩)
    | config | imported | support => exact hassigned.elim

section Apart

variable (h : NamesApart (arrowLines instrument lines ds program)) {d : Declaration} (hd : d ∈ ds)
include h hd

theorem NamesApart.of_declaration : d.name.name ≠ "config" ∧
    d.name.name ∉ derivedNames instrument ds program.steps.length ∧
    d.name.name ∉ globalNames (arrowLines instrument lines ds program) := by
  have hcomponent : .component d.name.name ∈ targets (arrowLines instrument lines ds program) :=
    mem_targets_arrowLines.mpr ⟨d, hd, rfl⟩
  have hscope := List.mem_cons_of_mem Referent.config (List.mem_append_left
    (allUses (arrowLines instrument lines ds program)) hcomponent)
  refine ⟨fun hname => ?_, fun hmem => ?_, fun hmem => ?_⟩
  · cases h .config List.mem_cons_self _ hscope hname.symm
  · obtain ⟨r, hderived, hr, hname⟩ := mem_derivedNames.mp hmem
    cases h r (List.mem_cons_of_mem _ (mem_targets_arrowLines.mpr hr)) _ hscope hname
    cases hderived
  · obtain ⟨r, hr, hname⟩ := List.mem_map.mp hmem
    obtain ⟨huse, hglobal⟩ := List.mem_filter.mp hr
    cases h _ (List.mem_cons_of_mem _ hcomponent) r
      (List.mem_cons_of_mem _ (List.mem_append_right _ huse)) hname.symm
    cases hglobal

theorem NamesApart.of_module :
    moduleName d.component.name ∉ derivedNames instrument ds program.steps.length := by
  intro hmem
  obtain ⟨r, hderived, hr, hname⟩ := mem_derivedNames.mp hmem
  cases h r (List.mem_cons_of_mem _ (mem_targets_arrowLines.mpr hr)) (.imported d.component.name)
    (List.mem_cons_of_mem _ (List.mem_append_right _ (imported_mem_allUses hd))) hname
  cases hderived

end Apart

section Sparing

variable (hnames : ∀ d ∈ ds, d.name.name ≠ "config" ∧
  d.name.name ∉ derivedNames instrument ds program.steps.length ∧
  d.name.name ∉ globalNames (arrowLines instrument lines ds program))
include hnames

theorem eq_of_name_eq (ht : t ∈ .config :: targets (arrowLines instrument lines ds program))
    (hr : r ∈ .config :: targets (arrowLines instrument lines ds program))
    (hname : t.name = r.name) : t = r := by
  rcases sort_of_assigned ht with rfl | ⟨d, hd, rfl⟩ | ⟨hderived, htassigned⟩ <;>
    rcases sort_of_assigned hr with rfl | ⟨d', hd', rfl⟩ | ⟨hderived', hrassigned⟩
  · rfl
  · exact absurd hname.symm (hnames d' hd').1
  · exact absurd hname.symm (Referent.name_ne_config hderived')
  · exact absurd hname (hnames d hd).1
  · exact congrArg Referent.component hname
  · exact absurd (mem_derivedNames.mpr ⟨r, hderived', hrassigned, hname.symm⟩) (hnames d hd).2.1
  · exact absurd hname (Referent.name_ne_config hderived)
  · exact absurd (mem_derivedNames.mpr ⟨t, hderived, htassigned, hname⟩) (hnames d' hd').2.1
  · exact Referent.name_inj_of_isDerived hderived hderived' hname

theorem name_ne_global
    (hmodules : ∀ d ∈ ds, moduleName d.component.name ∉ derivedNames instrument ds
        program.steps.length) (ht : t ∈ .config :: targets (arrowLines instrument lines ds program))
    (hglobal : r.isGlobal = true) (hgiven : Given ds r)
    (huse : r ∈ allUses (arrowLines instrument lines ds program)) : t.name ≠ r.name := by
  intro hname
  rcases sort_of_assigned ht with rfl | ⟨d, hd, rfl⟩ | ⟨hderived, htassigned⟩
  · exact Referent.name_ne_config_of_isGlobal hglobal hname.symm
  · exact (hnames d hd).2.2 (List.mem_map.mpr ⟨r, List.mem_filter.mpr ⟨huse, hglobal⟩, hname.symm⟩)
  · cases r with
    | imported localName =>
      obtain ⟨d, hd, rfl⟩ := hgiven
      exact hmodules d hd (mem_derivedNames.mpr ⟨t, hderived, htassigned, hname⟩)
    | support s => exact Referent.name_ne_text hderived s hname
    | config | component | configuration | identity | temporary => cases hglobal

end Sparing

variable (hgrounded : Grounded (Given ds) (arrowLines instrument lines ds program))
include hgrounded

theorem assigned_or_global
    (hr : r ∈ .config :: (targets (arrowLines instrument lines ds program)
      ++ allUses (arrowLines instrument lines ds program))) :
    r ∈ .config :: targets (arrowLines instrument lines ds program) ∨
      r.isGlobal = true ∧ Given ds r ∧ r ∈ allUses (arrowLines instrument lines ds program) := by
  rw [List.mem_cons, List.mem_append] at hr
  rw [List.mem_cons]
  rcases hr with rfl | hr | hr
  · exact .inl (.inl rfl)
  · exact .inl (.inr hr)
  · rcases hgrounded.of_mem_allUses hr with hgiven | htarget
    · cases r with
      | config => exact .inl (.inl rfl)
      | imported | support => exact .inr ⟨rfl, hgiven, hr⟩
      | component | configuration | identity | temporary => exact hgiven.elim
    · exact .inl (.inr htarget)

theorem namesApart_iff : NamesApart (arrowLines instrument lines ds program) ↔
    (∀ d ∈ ds, d.name.name ≠ "config" ∧
      d.name.name ∉ derivedNames instrument ds program.steps.length ∧
      d.name.name ∉ globalNames (arrowLines instrument lines ds program)) ∧
    ∀ d ∈ ds, moduleName d.component.name ∉ derivedNames instrument ds program.steps.length := by
  refine ⟨fun h => ⟨fun d hd => h.of_declaration hd, fun d hd => h.of_module hd⟩, ?_⟩
  rintro ⟨hnames, hmodules⟩ t ht r hr hname
  rcases assigned_or_global hgrounded hr with hr | ⟨hglobal, hgiven, huse⟩
  · exact eq_of_name_eq hnames ht hr hname
  · exact absurd hname (name_ne_global hnames hmodules ht hglobal hgiven huse)

end Arrow

section Binds

variable {instrument : Bool} {lines : LineIndex} {ds : List Declaration} {program : ArrowProgram}

theorem bodyBinds_statements {ls : List CodeLine}
    (h : ∀ l ∈ ls, l.statement.binds = l.target?.toList.map Referent.name) :
    bodyBinds (ls.map CodeLine.statement) = (targets ls).map Referent.name := by
  induction ls with
  | nil => rfl
  | cons l ls ih =>
    rw [List.forall_mem_cons] at h
    rw [List.map_cons, bodyBinds, h.1, ih h.2]
    cases htarget : l.target? <;> simp [targets, htarget]

theorem wordChars_of_assigned (hnames : ∀ d ∈ ds, IsName d.name.name) {n : Nat}
    (ht : Assigned instrument ds n t) : WordChars t.name := by
  have hword : ∀ {declared : String}, (∃ d ∈ ds, d.name.name = declared) → WordChars declared := by
    rintro declared ⟨d, hd, rfl⟩
    exact (hnames d hd).isWord.forall
  cases t with
  | component => exact hword ht
  | configuration => exact (hword ht).append (by decide)
  | identity => exact (hword ht.2).append (by decide)
  | temporary step => exact wordChars_numbered (by decide) step
  | config | imported | support => exact ht.elim

theorem ne_return_of_assigned (hnames : ∀ d ∈ ds, IsName d.name.name) {n : Nat}
    (ht : Assigned instrument ds n t) : t.name ≠ "return" := by
  cases t with
  | component =>
    obtain ⟨d, hd, rfl⟩ := ht
    exact (hnames d hd).ne_keyword .returnValue
  | configuration d => exact append_ne_of_not_suffix (by decide) d
  | identity d => exact append_ne_of_not_suffix (by decide) d
  | temporary step => exact numbered_ne_return _ step
  | config | imported | support => exact ht.elim

theorem binds_run {fs : List Fragment} (h : .run fs ∈ arrowLines instrument lines ds program) :
    (line (codeOf fs)).binds = [] := by
  simp only [arrowLines, stepCodes, numberedStep, List.mem_append, List.mem_flatMap, List.mem_cons,
    List.mem_map, reduceCtorEq, CodeLine.run.injEq, List.not_mem_nil, or_false, false_or, and_false,
    exists_false] at h
  rcases h with ⟨d, -, h⟩ | rfl
  · have htrace : fs = [.name (.support .traceConstruction), .text ("('" ++ d.name.name ++ "', "),
        .name (.identity d.name.name), .text ", ", .name (.configuration d.name.name), .text ", ",
        .name (.imported d.component.name),
        .text (".get_name(), " ++ NumeralStyle.decimalDigits (lines.lineOf d.span.start) ++
          ")")] := by
      cases instrument <;> cases hempty : d.settings.isEmpty <;>
        simp [instanceCode, tracingCode, stateCode, hempty] at h <;> exact h
    rw [htrace]
    simp only [codeOf, Fragment.code, Referent.name, Support.text, String.append_assoc]
    rw [← append_merge (show "(" ++ "'" = "('" by decide)]
    exact binds_call (by decide) _
  · exact binds_return _

theorem bodyBinds_arrowLines (hnames : ∀ d ∈ ds, IsName d.name.name) :
    bodyBinds ((arrowLines instrument lines ds program).map CodeLine.statement) =
      (targets (arrowLines instrument lines ds program)).map Referent.name := by
  refine bodyBinds_statements fun l hl => ?_
  cases l with
  | blank => rfl
  | run fs => exact binds_run hl
  | assign t value =>
    have ht := mem_targets_arrowLines.mp (List.mem_filterMap.mpr ⟨_, hl, rfl⟩)
    exact binds_assign (wordChars_of_assigned hnames ht) (ne_return_of_assigned hnames ht) _

end Binds

end Target

open Target in
theorem arrow_namesApart_iff (source file text : String) (registry : Registry) (files : FileTree)
    (o : CodeOptions) (h : (compile source file registry files o).code = some text) :
    ∃ p, (Parsed.ofSource source).program = some p ∧ ∀ e, p.component.definition = .arrow e →
      ∃ program front,
        ArrowProgram.ofArena (p.component.declarations.map fun d => d.name.name) (.ofArrow e) =
          .ok program ∧
        let lines := arrowLines o.instrument (.ofText source) p.component.declarations program
        text.toList = front ++ laidOut (Statement.bodyLines 0
          (Statement.function "initialise" ["config"] (lines.map CodeLine.statement))) ∧
        Statement.bodyBinds (lines.map CodeLine.statement) = (targets lines).map Referent.name ∧
        (p.component.declarations.map fun d => d.name.name).Nodup ∧
        (∀ d ∈ p.component.declarations, ∃ i ∈ p.imports, i.localName.name = d.component.name) ∧
        Grounded (Given p.component.declarations) lines ∧ (NamesApart lines → ReadsOwn lines) ∧
        (NamesApart lines ↔
          (∀ d ∈ p.component.declarations, d.name.name ≠ "config" ∧
            d.name.name ∉ derivedNames o.instrument p.component.declarations program.steps.length ∧
            d.name.name ∉ globalNames lines) ∧
          ∀ d ∈ p.component.declarations,
            moduleName d.component.name ∉
            derivedNames o.instrument p.component.declarations program.steps.length) := by
  obtain ⟨p, s, body, code, hp, hclean, hresolved, hleaves, hcode, rfl⟩ := exists_of_code h
  refine ⟨p, hp, fun e hdef => ?_⟩
  have hworded := Parsed.worded_of_clean hp hclean
  obtain ⟨statements, log, hstatements, htext⟩ := text_of_generate hcode
  cases hleaves with
  | leaf hdef' => cases hdef.symm.trans hdef'
  | arrow hdef' =>
    cases hdef.symm.trans hdef'
    simp only [initialiseBody, hdef] at hstatements
    obtain ⟨⟨statements', n⟩, hbody, hok⟩ := exists_of_bind_eq_ok hstatements
    cases hok
    obtain ⟨program, hprogram, rfl⟩ := statements_of_arrowBody
      (fun d hd => Program.exists_declaration? hdef hresolved hd) rfl hbody
    obtain ⟨hsteps, hresult⟩ := ArrowProgram.settled_of_ofArena hprogram
    have hgrounded : Grounded (Given p.component.declarations)
        (arrowLines o.instrument (.ofText source) p.component.declarations program) :=
      grounded_arrowLines hsteps hresult
    have hprogram := (ArrowProgram.ofArena_congr (Arena.shape_nodes_typed _ e)).symm.trans hprogram
    refine ⟨program, _, hprogram, htext, bodyBinds_arrowLines hworded.declarations,
      Program.nodup_declarations hdef hresolved,
      fun d hd => Program.imported_of_declaration hdef hresolved hd, hgrounded, NamesApart.readsOwn,
      namesApart_iff hgrounded⟩

def ArrowProgram.ofSource? (source : String) : Option (List Declaration × ArrowProgram) := do
  let p ← (Parsed.ofSource source).program
  match p.component.definition with
  | .arrow e =>
    let program ← (ofArena (p.component.declarations.map fun d => d.name.name)
      (.ofArrow e)).toOption
    return (p.component.declarations, program)
  | .leaf _ => none

theorem ArrowProgram.exists_of_ofSource? {source : String} {ds : List Declaration}
    {program : ArrowProgram} (h : ofSource? source = some (ds, program)) :
    ∃ p e, (Parsed.ofSource source).program = some p ∧ p.component.definition = .arrow e ∧
      p.component.declarations = ds ∧
      ofArena (ds.map fun d => d.name.name) (.ofArrow e) = .ok program := by
  obtain ⟨p, hp, h⟩ := Option.bind_eq_some_iff.mp h
  cases hdef : p.component.definition with
  | leaf body => simp [hdef] at h
  | arrow e =>
    simp only [hdef] at h
    obtain ⟨program', hprogram, h⟩ := Option.bind_eq_some_iff.mp h
    cases h
    refine ⟨p, e, hp, hdef, rfl, ?_⟩
    cases hofArena : ofArena (p.component.declarations.map fun d => d.name.name) (.ofArrow e) with
    | error fault => simp [hofArena, Except.toOption] at hprogram
    | ok found => simp_all [Except.toOption]

def oneSetting : Registry :=
  Registry.empty.insertComponent "g"
    ⟨some (.flat ["a"]), some (.flat ["a"]), some ["k"], true, true⟩

def sparingArrow : String :=
  "import g as tmp_1 component c inputs a outputs a configuration k "
    ++ "declare bool := new tmp_1 with k -> k ____tmp_2 := new tmp_1 with k -> k "
    ++ "as bool >>> ____tmp_2"

open Target in
theorem sparingArrow_namesApart :
    ∃ ds program, ArrowProgram.ofSource? sparingArrow = some (ds, program) ∧
      let lines := arrowLines true (.ofText sparingArrow) ds program
      (targets lines).map Referent.name =
      ["bool_configuration", "bool", "bool", "bool_id", "bool", "bool",
        "____tmp_2_configuration", "____tmp_2", "____tmp_2", "____tmp_2_id", "____tmp_2",
        "____tmp_2", "____tmp_0"] ∧
      NamesApart lines ∧ ReadsOwn lines := by
  have hcode : (compile sparingArrow "c.pcl" oneSetting .empty ⟨true, "now", none⟩).code.isSome =
      true := by
    decide +kernel
  have hfacts : (ArrowProgram.ofSource? sparingArrow).map (fun (ds, program) =>
      let lines := arrowLines true (.ofText sparingArrow) ds program
      ((targets lines).map Referent.name, decide ((∀ d ∈ ds, d.name.name ≠ "config" ∧
        d.name.name ∉ derivedNames true ds program.steps.length ∧ d.name.name ∉ globalNames lines) ∧
        ∀ d ∈ ds, moduleName d.component.name ∉ derivedNames true ds program.steps.length))) =
      some (["bool_configuration", "bool", "bool", "bool_id", "bool", "bool",
        "____tmp_2_configuration", "____tmp_2", "____tmp_2", "____tmp_2_id", "____tmp_2",
        "____tmp_2", "____tmp_0"], true) := by
    decide +kernel
  obtain ⟨⟨ds, program⟩, hsome, hfacts⟩ := Option.map_eq_some_iff.mp hfacts
  simp only [Prod.mk.injEq, decide_eq_true_iff] at hfacts
  obtain ⟨p, e, hp, hdef, hds, hprogram⟩ := ArrowProgram.exists_of_ofSource? hsome
  obtain ⟨text, htext⟩ := Option.isSome_iff_exists.mp hcode
  obtain ⟨q, hq, hall⟩ := arrow_namesApart_iff sparingArrow "c.pcl" text oneSetting .empty
    ⟨true, "now", none⟩ htext
  cases hp.symm.trans hq
  obtain ⟨program', front, hprogram', -, -, -, -, -, hreads, hiff⟩ := hall e hdef
  subst hds
  cases hprogram.symm.trans hprogram'
  exact ⟨_, program, hsome, hfacts.1, hiff.mpr hfacts.2, hreads (hiff.mpr hfacts.2)⟩

def clashingArrow : String :=
  "import g as g component c inputs a outputs a configuration k "
    ++ "declare config := new g with k -> k d := new g with k -> k as config >>> d"

open Target in
theorem clashingArrow_not_namesApart :
    (compile clashingArrow "c.pcl" oneSetting .empty ⟨false, "now", none⟩).code.isSome = true ∧
      ∃ ds program, ArrowProgram.ofSource? clashingArrow = some (ds, program) ∧
        let lines := arrowLines false (.ofText clashingArrow) ds program
        (targets lines).map Referent.name =
        ["config_configuration", "config", "config", "config", "d_configuration",
          "d", "d", "d", "____tmp_0"] ∧
        lines[4]?.map CodeLine.uses = some [.config] ∧ ¬ ReadsOwn lines ∧ ¬ NamesApart lines := by
  have hcode : (compile clashingArrow "c.pcl" oneSetting .empty ⟨false, "now", none⟩).code.isSome =
      true := by
    decide +kernel
  -- where the second instance is made, the name of the configuration has been assigned, the
  -- configuration has not
  have hfacts : (ArrowProgram.ofSource? clashingArrow).map (fun (ds, program) =>
      let lines := arrowLines false (.ofText clashingArrow) ds program
      ((targets lines).map Referent.name, lines[4]?.map CodeLine.uses,
        (lines.take 4).foldl (CodeLine.exec Referent.name fun _ _ => ()) (fun _ => none)
          Referent.config.name,
        (lines.take 4).foldl (CodeLine.exec id fun _ _ => ()) (fun _ => none) Referent.config)) =
      some (["config_configuration", "config", "config", "config", "d_configuration", "d", "d", "d",
        "____tmp_0"], some [.config], some (), none) := by
    decide +kernel
  obtain ⟨⟨ds, program⟩, hsome, hfacts⟩ := Option.map_eq_some_iff.mp hfacts
  simp only [Prod.mk.injEq] at hfacts
  obtain ⟨htargets, huses, hnamed, hown⟩ := hfacts
  have hreads : ¬ ReadsOwn (arrowLines false (.ofText clashingArrow) ds program) := by
    intro h
    have hconfig := h Unit (fun _ _ => ()) (fun _ => none) 4 .config List.mem_cons_self
    rw [hnamed, hown] at hconfig
    cases hconfig
  exact ⟨hcode, ds, program, hsome, htargets, huses, hreads, fun h => hreads h.readsOwn⟩

end PipelineLang
