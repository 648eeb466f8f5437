import PipelineLang.Token.Lexer

/-! The pieces of a text follow each other without gaps, from its first byte to its last. -/

namespace PipelineLang

theorem utf8ByteSize_ofList (cs : List Char) : (String.ofList cs).utf8ByteSize = utf8Length cs := by
  induction cs with
  | nil => rfl
  | cons c cs ih =>
    have hcons : String.ofList (c :: cs) = String.singleton c ++ String.ofList cs := by
      apply String.toList_inj.mp
      simp
    rw [hcons, String.utf8ByteSize_append, ih, utf8Length_cons]
    simp

theorem utf8Length_pos {cs : List Char} (h : cs ≠ []) : 0 < utf8Length cs := by
  obtain ⟨c, cs, rfl⟩ := List.exists_cons_of_ne_nil h
  exact Nat.add_pos_left c.utf8Size_pos _

variable {start : Nat} {cs : List Char} {p : Piece}

theorem exists_place (h : p ∈ pieces start cs) :
    ∃ before c rest, cs = before ++ c :: rest ∧ p.start = start + utf8Length before
      ∧ p.chars = c :: rest.take (Munch.front c rest).more ∧ p.found =
        (Munch.front c rest).found := by
  fun_induction pieces start cs with
  | case1 => cases h
  | case2 start c cs munch taken ih =>
    rcases List.mem_cons.mp h with rfl | h
    · exact ⟨[], c, cs, rfl, rfl, rfl, rfl⟩
    · obtain ⟨before, d, rest, hcs, hstart, hpiece⟩ := ih h
      refine ⟨taken ++ before, d, rest, ?_, ?_, hpiece⟩
      · rw [List.append_assoc, ← hcs, List.cons_append, List.take_append_drop]
      · rw [hstart, utf8Length_append, Nat.add_assoc]

theorem mem_pieces (h : p ∈ pieces start cs) :
    ∃ c rest, p.chars = c :: rest.take (Munch.front c rest).more ∧ p.found =
      (Munch.front c rest).found := by
  obtain ⟨-, c, rest, -, -, hpiece⟩ := exists_place h
  exact ⟨c, rest, hpiece⟩

theorem start_le_of_mem_pieces (h : p ∈ pieces start cs) : start ≤ p.start := by
  obtain ⟨before, -, -, -, hstart, -⟩ := exists_place h
  rw [hstart]
  exact Nat.le_add_right _ _

theorem Piece.start_lt_stop (h : p ∈ pieces start cs) : p.span.start < p.span.stop := by
  obtain ⟨c, rest, hchars, -⟩ := mem_pieces h
  have hpos : 0 < utf8Length p.chars := utf8Length_pos (by rw [hchars]; exact List.cons_ne_nil _ _)
  exact Nat.lt_add_of_pos_right hpos

theorem stop_le_start_pieces (start : Nat) (cs : List Char) :
    (pieces start cs).Pairwise fun p q => p.span.stop ≤ q.span.start := by
  fun_induction pieces start cs with
  | case1 => exact .nil
  | case2 start c cs munch taken ih =>
    exact List.pairwise_cons.mpr ⟨fun p hp => start_le_of_mem_pieces hp, ih⟩

theorem pairwise_pieces (start : Nat) (cs : List Char) :
    (pieces start cs).Pairwise fun p q => p.start < q.start := by
  refine (stop_le_start_pieces start cs).imp_of_mem fun hp _ hle => ?_
  exact Nat.lt_of_lt_of_le (Piece.start_lt_stop hp) hle

theorem exists_piece {i : Nat} (hstart : start ≤ i) (hi : i < start + utf8Length cs) :
    ∃ p ∈ pieces start cs, p.span.start ≤ i ∧ i < p.span.stop := by
  fun_induction pieces start cs with
  | case1 => exact absurd hi (Nat.not_lt.mpr hstart)
  | case2 start c cs munch taken ih =>
    by_cases htaken : i < start + utf8Length taken
    · exact ⟨_, List.mem_cons_self, hstart, htaken⟩
    · have hsplit : utf8Length (c :: cs) = utf8Length taken + utf8Length (cs.drop munch.more) := by
        rw [← utf8Length_append, List.cons_append, List.take_append_drop]
      obtain ⟨p, hp, hplace⟩ := ih (by omega) (by omega)
      exact ⟨p, List.mem_cons_of_mem _ hp, hplace⟩

namespace Piece

theorem of_lexeme? {l : Lexeme} (h : p.lexeme? = some l) :
    l.text = String.ofList p.chars ∧ l.span = p.span ∧ p.found = .token l.token := by
  unfold lexeme? at h
  split at h
  · rename_i t ht
    cases h
    exact ⟨rfl, rfl, ht⟩
  · cases h

theorem of_fault? {f : Span × LexicalFault} (h : p.fault? = some f) :
    f.1 = p.span ∧ p.found = .fault f.2 := by
  unfold fault? at h
  split at h
  · rename_i g hg
    cases h
    exact ⟨rfl, hg⟩
  · cases h

end Piece

end PipelineLang
