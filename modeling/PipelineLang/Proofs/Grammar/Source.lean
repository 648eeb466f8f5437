import PipelineLang.Proofs.Arrow.Agreement
import PipelineLang.Proofs.Grammar.Deriving
import PipelineLang.Proofs.Places.Source

/-! Reading a source text: no text is refused without a finding, and a text without findings is a
phrase of the grammar, so that nothing in its program has failed. -/

namespace PipelineLang

theorem ArrowPhrase.intact {level : ArrowLevel} {ts : List Lexeme} {e : Arrow}
    (h : ArrowPhrase level ts e) :
    e.intact = true := by
  induction h with
  | split | merge | wire | wirePair | use => rfl
  | first _ _ ih | second _ _ ih | paren _ _ _ ih | scalar _ ih | tuple _ ih | expression _ ih =>
    exact ih
  | choose _ _ _ _ _ _ ihl ihr
  | fanOut _ _ _ ihl ihr | pairUp _ _ _ ihl ihr | compose _ _ _ ihl ihr =>
    rw [Arrow.intact, ihl, ihr]
    rfl

theorem intact_of_commands :
    (∀ command ts, CommandPhrase ts command → command.intact = true) ∧
      (∀ block ts, BlockPhrase ts block → block.intact = true) ∧
      ∀ commands ts, Row CommandPhrase ts commands → allIntact commands = true := by
  refine Command.induct ?call ?letIn ?branch ?failed ?block ?nil ?cons
  case call => exact fun target call span ts _ => rfl
  case letIn => exact fun target bindings body span ts _ => rfl
  case branch =>
    intro target condition onTrue onFalse span iht ihf ts h
    cases h with
    | branch _ _ _ _ htrue _ hfalse =>
      rw [Command.intact, iht _ htrue, ihf _ hfalse]
      rfl
  case failed =>
    intro span ts h
    cases h
  case block =>
    intro commands result span ih ts h
    cases h with
    | mk hcommands => exact ih _ hcommands
  case nil => exact fun ts _ => rfl
  case cons =>
    intro command commands ihc ihs ts h
    cases h with
    | cons hcommand hcommands =>
      rw [allIntact, ihc _ hcommand, ihs _ hcommands]
      rfl

/-- A definition that was read whole; the places of a leaf body are all different. -/
def Definition.Intact : Definition → Prop
  | .arrow e => e.intact = true
  | .leaf body => allIntact body.commands = true ∧ body.marks.Nodup

theorem DefinitionPhrase.intact {ts : List Lexeme} {ds : List Declaration} {definition : Definition}
    (h : DefinitionPhrase ts ds definition)
    (hmarks : ∀ body, definition = .leaf body → body.marks.Nodup) :
    definition.Intact := by
  cases h with
  | arrow _ _ he => exact he.intact
  | leaf _ hbody =>
    refine ⟨?_, hmarks _ rfl⟩
    cases hbody with
    | mk hcommands => exact intact_of_commands.2.2 _ _ hcommands

theorem ProgramPhrase.intact {ts : List Lexeme} {p : Program} (h : ProgramPhrase ts p)
    (hmarks : ∀ body, p.component.definition = .leaf body → body.marks.Nodup) :
    p.component.definition.Intact := by
  cases h with
  | mk _ hcomponent =>
    cases hcomponent with
    | mk _ _ _ _ _ _ _ hdefinition => exact hdefinition.intact hmarks

theorem Rule.spanned_eq_some {α : Type} {r : Rule (Span → α)} {a : α} {c c' : Cursor} {t t' : Trail}
    (h : spanned r c t = (some (a, c'), t')) : ∃ f, r c t = (some (f, c'), t') := by
  unfold spanned at h
  split at h
  · cases h
    exact ⟨_, ‹_›⟩
  · cases h

theorem Rule.ahead_program {p : Program} {c c' : Cursor} {t t' : Trail}
    (h : program c t = (some (p, c'), t')) : c'.ahead = [] := by
  obtain ⟨_, h⟩ := spanned_eq_some h
  obtain ⟨imports, c₁, t₁, -, h⟩ := bind_eq_some h
  obtain ⟨component, c₂, t₂, -, h⟩ := bind_eq_some h
  obtain ⟨_, c₃, t₃, hfinish, h⟩ := bind_eq_some h
  have hc : c₃ = c' := congrArg Prod.snd (Option.some.inj (congrArg Prod.fst h))
  unfold finish at hfinish
  split at hfinish
  · rename_i hempty
    cases hfinish
    rw [← hc]
    exact List.isEmpty_iff.mp hempty
  · cases hfinish

namespace Parsed

variable {source : String} {p : Program}

theorem wrong_of_mem_ofSource {f : Finding} (h : f ∈ (ofSource source).findings) : f.Wrong := by
  have hfailure : ∀ index, (failure source (Scan.ofSource source).lexemes index).Wrong := by
    intro index
    unfold failure
    split <;> exact ⟨rfl, rfl⟩
  unfold ofSource at h
  dsimp only at h
  split at h
  all_goals
    rcases List.mem_append.mp h with h | h
    · obtain ⟨⟨span, fault⟩, -, rfl⟩ := List.mem_map.mp h
      exact ⟨rfl, rfl⟩
    · obtain ⟨index, -, rfl⟩ := List.mem_map.mp h
      exact hfailure index

theorem findings_eq_nil_iff :
    (ofSource source).findings = [] ↔ ∀ f ∈ (ofSource source).findings, f.isError = false := by
  constructor
  · intro h
    simp [h]
  · intro h
    rw [List.eq_nil_iff_forall_not_mem]
    intro f hf
    exact absurd (wrong_of_mem_ofSource hf).isError (by simp [h f hf])

theorem outcome_program (source : String) :
    Rule.Outcome (.ofLexemes (Scan.ofSource source).lexemes) [] (Rule.Derivable ProgramPhrase)
      (Rule.program (.ofLexemes (Scan.ofSource source).lexemes) .empty) :=
  Rule.derives_program.outcome _ _ (Nat.lt_succ_self _)

theorem findings_ne_nil_of_none (h : (ofSource source).program = none) :
    (ofSource source).findings ≠ [] := by
  have ho := outcome_program source
  unfold ofSource at h ⊢
  dsimp only at h ⊢
  split at h
  · cases h
  · rename_i trail hrun
    rw [hrun] at ho
    obtain ⟨index, hindex⟩ := Option.isSome_iff_exists.mp ho
    simp [Trail.atEnd, hindex]

theorem run_of_phrase (h : ProgramPhrase (Scan.ofSource source).lexemes p) :
    ∃ c t, Rule.program (.ofLexemes (Scan.ofSource source).lexemes) .empty = (some (p, c), t) ∧
      t.reported = [] := by
  obtain ⟨t, hrun, ht⟩ := Rule.takes_program h (.ofLexemes (Scan.ofSource source).lexemes) .empty
    (List.append_nil _).symm
  exact ⟨_, t, hrun, ht⟩

theorem program_of_phrase (h : ProgramPhrase (Scan.ofSource source).lexemes p) :
    (ofSource source).program = some p ∧
      ((Scan.ofSource source).faults = [] → (ofSource source).findings = []) := by
  obtain ⟨c, t, hrun, ht⟩ := run_of_phrase h
  unfold ofSource
  dsimp only
  rw [hrun]
  refine ⟨rfl, fun hfaults => ?_⟩
  simp [hfaults, ht]

theorem phrase_of_clean (h : (ofSource source).findings = []) :
    (Scan.ofSource source).faults = [] ∧ ∃ p, ProgramPhrase (Scan.ofSource source).lexemes p := by
  have ho := outcome_program source
  have hsome : (ofSource source).program ≠ none := fun hnone => findings_ne_nil_of_none hnone h
  unfold ofSource at h hsome
  dsimp only at h hsome
  split at h
  · rename_i p c t hrun
    rw [hrun] at ho
    obtain ⟨hfaults, hreported⟩ := List.append_eq_nil_iff.mp h
    obtain ⟨read, new, hread, hnew, hphrase⟩ := ho
    rw [Rule.ahead_program hrun, List.append_nil] at hread
    have hclean : new = [] := by
      rw [List.map_eq_nil_iff.mp hreported] at hnew
      exact hnew.symm
    subst hclean
    refine ⟨List.map_eq_nil_iff.mp hfaults, ?_⟩
    rw [show (Scan.ofSource source).lexemes = read from hread]
    exact hphrase rfl
  · rename_i t hrun
    rw [hrun] at hsome
    exact absurd rfl hsome

theorem intact_of_clean (h : (ofSource source).program = some p)
    (hf : (ofSource source).findings = []) :
    p.component.definition.Intact := by
  obtain ⟨-, q, hq⟩ := phrase_of_clean hf
  have heq : q = p := Option.some.inj ((program_of_phrase hq).1.symm.trans h)
  subst heq
  refine hq.intact fun body hbody => ?_
  have hbody := Program.faithful_body (faithful_program h) hbody
  exact (DoBlock.nodup_places hbody).sublist body.sublist_places

end Parsed

end PipelineLang
