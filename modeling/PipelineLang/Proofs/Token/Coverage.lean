import Mathlib.Data.List.Pairwise
import PipelineLang.Proofs.Token.LongestMatch

/-!
No text is lost by the scan of a source: tokens and faults stand apart from each other, between them
there are only blanks and comments, and each token is the longest match at its place.
-/

namespace PipelineLang

variable {s : Span} {source : String}

namespace Scan

/-- The places of all tokens and faults, merged by their starts. -/
def spans (scan : Scan) : List Span :=
  (scan.lexemes.map Lexeme.span).merge (scan.faults.map Prod.fst) fun a b => a.start ≤ b.start

theorem merge_cons_left {xs ys : List Span} (h : ∀ y ∈ ys, s.start ≤ y.start) :
    (s :: xs).merge ys (fun a b => a.start ≤ b.start) =
      s :: xs.merge ys fun a b => a.start ≤ b.start := by
  cases ys with
  | nil => simp
  | cons y ys => exact List.cons_merge_cons_pos _ _ _ (decide_eq_true (h y List.mem_cons_self))

theorem merge_cons_right {xs ys : List Span} (h : ∀ x ∈ xs, s.start < x.start) :
    xs.merge (s :: ys) (fun a b => a.start ≤ b.start) =
      s :: xs.merge ys fun a b => a.start ≤ b.start := by
  cases xs with
  | nil => simp
  | cons x xs =>
    refine List.cons_merge_cons_neg _ _ _ ?_
    simpa using h x List.mem_cons_self

theorem merge_pieces {ps : List Piece} (h : ps.Pairwise fun p q => p.start < q.start) :
    spans ⟨ps.filterMap Piece.lexeme?, ps.filterMap Piece.fault?⟩ =
      (ps.filter fun p => p.found ≠ .blank).map Piece.span := by
  induction ps with
  | nil => simp [spans]
  | cons p ps ih =>
    obtain ⟨hp, hps⟩ := List.pairwise_cons.mp h
    have hrest := ih hps
    have hlexemes : ∀ s ∈ (ps.filterMap Piece.lexeme?).map Lexeme.span, p.start < s.start := by
      intro s hs
      obtain ⟨l, hl, rfl⟩ := List.mem_map.mp hs
      obtain ⟨q, hq, hl⟩ := List.mem_filterMap.mp hl
      rw [(Piece.of_lexeme? hl).2.1]
      exact hp q hq
    have hfaults : ∀ s ∈ (ps.filterMap Piece.fault?).map Prod.fst, p.start < s.start := by
      intro s hs
      obtain ⟨f, hf, rfl⟩ := List.mem_map.mp hs
      obtain ⟨q, hq, hf⟩ := List.mem_filterMap.mp hf
      rw [(Piece.of_fault? hf).1]
      exact hp q hq
    cases hfound : p.found with
    | blank => simpa [spans, Piece.lexeme?, Piece.fault?, hfound] using hrest
    | token t =>
      have hlexeme : p.lexeme? = some ⟨t, String.ofList p.chars, p.span⟩ := by
        simp [Piece.lexeme?, hfound]
      have hfault : p.fault? = none := by simp [Piece.fault?, hfound]
      rw [List.filterMap_cons_some hlexeme, List.filterMap_cons_none hfault,
        List.filter_cons_of_pos (by simp [hfound]), spans, List.map_cons, List.map_cons]
      exact (merge_cons_left fun s hs => Nat.le_of_lt (hfaults s hs)).trans (congrArg _ hrest)
    | fault f =>
      have hlexeme : p.lexeme? = none := by simp [Piece.lexeme?, hfound]
      have hfault : p.fault? = some (p.span, f) := by simp [Piece.fault?, hfound]
      rw [List.filterMap_cons_none hlexeme, List.filterMap_cons_some hfault,
        List.filter_cons_of_pos (by simp [hfound]), spans, List.map_cons, List.map_cons]
      exact (merge_cons_right hlexemes).trans (congrArg _ hrest)

theorem spans_ofSource (source : String) :
    (ofSource source).spans =
      ((pieces 0 source.toList).filter fun p => p.found ≠ .blank).map Piece.span :=
  merge_pieces (pairwise_pieces 0 source.toList)

end Scan

/-- The characters `inside` stand at the place, between `before` and `after`. -/
structure Span.Cuts (s : Span) (text before inside after : List Char) : Prop where
  text : text = before ++ (inside ++ after)
  start : s.start = utf8Length before
  stop : s.stop = utf8Length (before ++ inside)

/-- In front of `after`, the pattern matches `w`, and no pattern matches more. -/
structure Pattern.LongestMatch (P : Pattern) (w after : List Char) : Prop where
  mem : w ∈ P.language
  longest : ∀ Q v, v ∈ Pattern.language Q → v <+: w ++ after → v.length ≤ w.length

/-- Blanks, or a comment up to the end of its line. -/
def IsSkipped (inside after : List Char) : Prop :=
  (∀ c ∈ inside, c = ' ' ∨ c = '\t' ∨ c = '\r' ∨ c = '\n')
    ∨ ∃ body, inside = '#' :: body ∧ '\n' ∉ body ∧ ∀ c ∈ after.head?, c = '\n'

theorem Pattern.LongestMatch.isSkipped {w after : List Char} (h : LongestMatch .skipped w after) :
    IsSkipped w after := by
  rcases mem_skipped.mp h.mem with ⟨-, hblank⟩ | ⟨body, rfl, hfeed⟩
  · left
    intro c hc
    simpa [Munch.isBlank, or_assoc] using hblank c hc
  · -- a comment that stops in front of another character would go on with it
    refine .inr ⟨body, rfl, hfeed, fun c hc => Classical.byContradiction fun hne => ?_⟩
    obtain ⟨after, rfl⟩ := List.head?_eq_some_iff.mp hc
    have hlonger : '#' :: (body ++ [c]) ∈ language skipped := by
      refine mem_skipped.mpr (.inr ⟨body ++ [c], rfl, fun hmem => ?_⟩)
      rcases List.mem_append.mp hmem with hmem | hmem
      · exact hfeed hmem
      · exact hne (List.mem_singleton.mp hmem).symm
    have hlength := h.longest _ _ hlonger ⟨after, by simp⟩
    simp only [List.length_cons, List.length_append, List.length_nil] at hlength
    omega

/-- What a piece is, and what stands around it. -/
structure Piece.Placed (p : Piece) (text before after : List Char) : Prop where
  cuts : p.span.Cuts text before p.chars after
  ne_nil : p.chars ≠ []
  longest : ∀ P, p.found.pattern? = some P → P.LongestMatch p.chars after
  illegal : p.found.pattern? = none → ∀ P v, v ∈ Pattern.language P → ¬ v <+: p.chars ++ after
  reserved : ∀ P, P.IsReserved → p.chars ∈ P.language →
    p.found.pattern? = some (if after.head? = some '.' then .ident else P)

theorem exists_placed {text : List Char} {p : Piece} (h : p ∈ pieces 0 text) :
    ∃ before after, p.Placed text before after := by
  obtain ⟨before, c, rest, htext, hstart, hchars, hfound⟩ := exists_place h
  have hwhole : p.chars ++ rest.drop (Munch.front c rest).more = c :: rest := by
    rw [hchars, List.cons_append, List.take_append_drop]
  refine ⟨before, rest.drop (Munch.front c rest).more, ⟨?_, ?_, ?_⟩, ?_, ?_, ?_, ?_⟩
  · rw [hwhole, htext]
  · rw [Piece.span, hstart, Nat.zero_add]
  · rw [Piece.span, hstart, Nat.zero_add, utf8Length_append]
  · rw [hchars]
    exact List.cons_ne_nil _ _
  · intro P hP
    rw [hfound] at hP
    refine ⟨hchars ▸ Munch.mem_front hP, fun Q v hv hprefix => ?_⟩
    rw [hwhole] at hprefix
    have hreads := (Munch.reads_front hv hprefix).length
    have hle := hprefix.length_le
    rw [hchars, List.length_cons, List.length_take]
    rw [List.length_cons] at hle
    omega
  · intro hnone P v hv hprefix
    rw [hwhole] at hprefix
    exact (Munch.reads_front hv hprefix).legal (hfound ▸ hnone)
  · intro P hP hmem
    rw [hfound]
    exact Munch.pattern?_front_of_reserved hP (hchars ▸ hmem)

/-- A scan of a source by which no text is lost. -/
structure Scan.Lossless (source : String) (scan : Scan) : Prop where
  /-- Tokens and faults take whole characters, and at least one. -/
  whole : ∀ s ∈ scan.spans, ∃ before inside after,
    inside ≠ [] ∧ s.Cuts source.toList before inside after
  apart : scan.spans.Pairwise fun a b => a.start < b.start ∧ a.stop ≤ b.start
  /-- A byte outside of them is a blank or belongs to a comment. -/
  gaps : ∀ i < source.utf8ByteSize, (∀ s ∈ scan.spans, i < s.start ∨ s.stop ≤ i) →
    ∃ gap before inside after, Span.start gap ≤ i ∧ i < gap.stop ∧
    gap.Cuts source.toList before inside after
      ∧ IsSkipped inside after ∧ ∀ s ∈ scan.spans, s.stop ≤ gap.start ∨ gap.stop ≤ s.start
  /-- Tokens are longest matches. What is spelled like a keyword or a truth value is one, but for
  names in front of a dot. -/
  tokens : ∀ l ∈ scan.lexemes, ∃ before after, l.span.Cuts source.toList before l.text.toList after
    ∧ l.token.pattern.LongestMatch l.text.toList after ∧ ∀ P, P.IsReserved →
    l.text.toList ∈ P.language →
      l.token.pattern = if after.head? = some '.' then .ident else P
  /-- An integer that is reported as too large is the longest match, too. At an illegal character,
  no pattern matches anything. -/
  faults : ∀ f ∈ scan.faults, ∃ before inside after, f.1.Cuts source.toList before inside after
    ∧ (∀ numeral, f.2 = .outOfRange numeral → Pattern.integer.LongestMatch inside after)
    ∧ ∀ c, f.2 = .illegal c → ∀ P v, v ∈ Pattern.language P → ¬ v <+: inside ++ after

namespace Scan

theorem mem_spans :
    s ∈ (ofSource source).spans ↔ ∃ p ∈ pieces 0 source.toList, p.found ≠ .blank ∧ p.span = s := by
  rw [spans_ofSource]
  simp [and_assoc]

theorem pairwise_spans (source : String) :
    (ofSource source).spans.Pairwise fun a b => a.start < b.start ∧ a.stop ≤ b.start := by
  rw [spans_ofSource, List.pairwise_map]
  have hpieces := (pairwise_pieces 0 source.toList).and (stop_le_start_pieces 0 source.toList)
  exact hpieces.sublist List.filter_sublist

theorem apart_of_blank {p : Piece} (hp : p ∈ pieces 0 source.toList) (hblank : p.found = .blank)
    (hs : s ∈ (ofSource source).spans) : s.stop ≤ p.span.start ∨ p.span.stop ≤ s.start := by
  obtain ⟨q, hq, hfound, rfl⟩ := mem_spans.mp hs
  have hne : q ≠ p := by
    rintro rfl
    exact hfound hblank
  let R (a b : Piece) : Prop := a.span.stop ≤ b.span.start ∨ b.span.stop ≤ a.span.start
  have : Std.Symm R := ⟨fun _ _ h => h.symm⟩
  have hpieces : (pieces 0 source.toList).Pairwise R :=
    (stop_le_start_pieces 0 source.toList).imp .inl
  exact hpieces.forall hq hp hne

theorem exists_gap {i : Nat} (hi : i < source.utf8ByteSize)
    (hout : ∀ s ∈ (ofSource source).spans, i < s.start ∨ s.stop ≤ i) :
    ∃ p ∈ pieces 0 source.toList, p.found = .blank ∧ p.span.start ≤ i ∧ i < p.span.stop := by
  rw [← source.ofList_toList, utf8ByteSize_ofList] at hi
  obtain ⟨p, hp, hstart, hstop⟩ := exists_piece (Nat.zero_le i) (by rwa [Nat.zero_add])
  refine ⟨p, hp, Classical.byContradiction fun hfound => ?_, hstart, hstop⟩
  have hp := hout p.span (mem_spans.mpr ⟨p, hp, hfound, rfl⟩)
  omega

/-- No text is lost: tokens and faults take whole characters and stand in order, what stands between
them is blanks and comments, and each token is the longest match at its place. -/
theorem lossless (source : String) : (ofSource source).Lossless source := by
  refine ⟨fun s hs => ?_, pairwise_spans source, fun i hi hout => ?_, fun l hl => ?_,
    fun f hf => ?_⟩
  · obtain ⟨p, hp, -, rfl⟩ := mem_spans.mp hs
    obtain ⟨before, after, h⟩ := exists_placed hp
    exact ⟨before, p.chars, after, h.ne_nil, h.cuts⟩
  · obtain ⟨p, hp, hblank, hstart, hstop⟩ := exists_gap hi hout
    obtain ⟨before, after, h⟩ := exists_placed hp
    have hskipped := h.longest .skipped (by rw [hblank]; rfl)
    exact ⟨p.span, before, p.chars, after, hstart, hstop, h.cuts, hskipped.isSkipped,
      fun s hs => apart_of_blank hp hblank hs⟩
  · obtain ⟨p, hp, hl⟩ := List.mem_filterMap.mp hl
    obtain ⟨htext, hspan, htoken⟩ := Piece.of_lexeme? hl
    obtain ⟨before, after, h⟩ := exists_placed hp
    have hpattern : p.found.pattern? = some l.token.pattern := by rw [htoken]; rfl
    rw [htext, hspan, String.toList_ofList]
    refine ⟨before, after, h.cuts, h.longest _ hpattern, fun P hP hmem => ?_⟩
    exact Option.some.inj (hpattern.symm.trans (h.reserved P hP hmem))
  · obtain ⟨p, hp, hf⟩ := List.mem_filterMap.mp hf
    obtain ⟨hspan, hfault⟩ := Piece.of_fault? hf
    obtain ⟨before, after, h⟩ := exists_placed hp
    rw [hspan]
    refine ⟨before, p.chars, after, h.cuts, fun numeral hnumeral => ?_, fun c hc => ?_⟩
    · exact h.longest _ (by rw [hfault, hnumeral]; rfl)
    · exact h.illegal (by rw [hfault, hc]; rfl)

/-- In front of a dot that leads to no further word, even a keyword is taken for a name. -/
theorem keyword_before_dot :
    ∃ l ∈ (ofSource "if.&&").lexemes,
      l.text.toList ∈ (Pattern.keyword .ifTest).language ∧ l.token = .ident "if" := by
  refine ⟨⟨.ident "if", "if", ⟨0, 2⟩⟩, ?_, .inl rfl, rfl⟩
  refine List.mem_filterMap.mpr ⟨⟨0, ['i', 'f'], .token (.ident "if")⟩, ?_, by decide⟩
  have hfront : Munch.front 'i' ['f', '.', '&', '&'] = ⟨1, .token (.ident "if")⟩ := by
    simp [Munch.front_word (c := 'i') (by decide), Munch.word, Munch.dottedWords, Munch.isWordPart,
      Munch.isWordStart]
  have htext : "if.&&".toList = ['i', 'f', '.', '&', '&'] := rfl
  rw [htext, pieces, hfront]
  exact List.mem_cons_self

end Scan

end PipelineLang
