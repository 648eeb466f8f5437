import PipelineLang.Proofs.Token.Pieces

/-! How names are spelled: a plain name is the word that stands in the text, and a dotted one is cut
at its last dot. -/

namespace PipelineLang

variable {c : Char} {cs : List Char} {t : Token} {s source : String} {l : Lexeme}

def WordChars (s : String) : Prop := ∀ c ∈ s.toList, Munch.isWordPart c = true

instance (s : String) : Decidable (WordChars s) :=
  decidable_of_iff (s.toList.all Munch.isWordPart = true) List.all_eq_true

theorem WordChars.append {t : String} (hs : WordChars s) (ht : WordChars t) :
    WordChars (s ++ t) := by
  rw [WordChars, String.toList_append, List.forall_mem_append]
  exact ⟨hs, ht⟩

/-- A letter or underscore, and behind it letters, digits and underscores. -/
def IsWord (s : String) : Prop :=
  ∃ c cs, s.toList = c :: cs ∧ Munch.isWordStart c = true ∧ ∀ d ∈ cs, Munch.isWordPart d = true

namespace Munch

theorem isWordPart_of_isWordStart (h : isWordStart c = true) : isWordPart c = true := by
  simp only [isWordStart, isWordPart, Bool.or_eq_true, Char.isAlphanum] at h ⊢
  exact h.imp_left .inl

theorem isWordPart_of_isDigit (h : c.isDigit = true) : isWordPart c = true := by
  simp [isWordPart, Char.isAlphanum, h]

theorem not_isWordStart_of_isDigit (h : c.isDigit = true) : isWordStart c = false := by
  rw [Bool.eq_false_iff]
  intro hstart
  unfold isWordStart Char.isAlpha Char.isUpper Char.isLower at hstart
  unfold Char.isDigit at h
  simp only [Bool.or_eq_true, Bool.and_eq_true, decide_eq_true_eq, UInt32.le_iff_toNat_le,
    ge_iff_le] at h hstart
  have hlast : '9'.val.toNat = 57 := rfl
  have hupper : 'A'.val.toNat = 65 := rfl
  have hlower : 'a'.val.toNat = 97 := rfl
  rcases hstart with (hstart | hstart) | rfl
  · omega
  · omega
  · exact absurd h.2 (by decide)

end Munch

theorem IsWord.forall (h : IsWord s) : WordChars s := by
  obtain ⟨c, cs, hs, hc, hcs⟩ := h
  rw [WordChars, hs]
  exact List.forall_mem_cons.mpr ⟨Munch.isWordPart_of_isWordStart hc, hcs⟩

theorem IsWord.not_mem (h : IsWord s) (hc : Munch.isWordPart c = false) : c ∉ s.toList := by
  intro hmem
  rw [h.forall c hmem] at hc
  cases hc

namespace Munch

theorem isWord_takeWhile (h : isWordStart c = true) (cs : List Char) :
    IsWord (String.ofList (c :: cs.takeWhile isWordPart)) :=
  ⟨c, cs.takeWhile isWordPart, String.toList_ofList, h, List.all_eq_true.mp List.all_takeWhile⟩

theorem dottedWords_append (cs : List Char) :
    ∃ rest, cs = (dottedWords cs).flatMap ('.' :: ·) ++ rest := by
  fun_induction dottedWords cs with
  | case1 c cs h ih =>
    obtain ⟨rest, hrest⟩ := ih
    refine ⟨rest, ?_⟩
    simp only [List.flatMap_cons, List.cons_append, List.append_assoc, ← hrest]
    rw [List.takeWhile_append_dropWhile]
  | case2 c cs h => exact ⟨_, rfl⟩
  | case3 cs h => exact ⟨_, rfl⟩

theorem isWord_of_mem_dottedWords {w : List Char} (h : w ∈ dottedWords cs) :
    IsWord (String.ofList w) := by
  fun_induction dottedWords cs with
  | case1 c cs hc ih =>
    rcases List.mem_cons.mp h with rfl | h
    · exact isWord_takeWhile hc cs
    · exact ih h
  | case2 c cs hc => cases h
  | case3 cs hcs => cases h

theorem joinDots_cons (head : List Char) (tail : List (List Char)) :
    joinDots (head :: tail) = head ++ tail.flatMap ('.' :: ·) := by
  induction tail generalizing head with
  | nil => simp [joinDots]
  | cons w ws ih => rw [joinDots, ih w] <;> simp

theorem length_flatMap_dots (ws : List (List Char)) :
    (ws.flatMap ('.' :: ·)).length = ws.foldr (fun w n => w.length + 1 + n) 0 := by
  induction ws with
  | nil => rfl
  | cons w ws ih =>
    rw [List.flatMap_cons, List.length_append, ih]
    rfl

theorem more_word (c : Char) (cs : List Char) :
    (word c cs).more = (cs.takeWhile isWordPart).length
      + ((dottedWords (cs.dropWhile isWordPart)).flatMap ('.' :: ·)).length := by
  rw [length_flatMap_dots]
  simp [word]

/-- What a word takes are its letters and the words behind its dots. -/
theorem take_word (c : Char) (cs : List Char) :
    cs.take (word c cs).more
      = cs.takeWhile isWordPart ++ (dottedWords (cs.dropWhile isWordPart)).flatMap ('.' :: ·) := by
  obtain ⟨rest, hrest⟩ := dottedWords_append (cs.dropWhile isWordPart)
  have hcs : cs = (cs.takeWhile isWordPart
      ++ (dottedWords (cs.dropWhile isWordPart)).flatMap ('.' :: ·)) ++ rest := by
    rw [List.append_assoc, ← hrest, List.takeWhile_append_dropWhile]
  rw [more_word, ← List.length_append]
  exact (congrArg (List.take _) hcs).trans List.take_left

end Munch

/-- The names in a token are spelled by its text. -/
structure Lexeme.Spelled (l : Lexeme) : Prop where
  ident : ∀ name, l.token = .ident name → l.text = name ∧ IsWord name
  qualified : ∀ qualifier name, l.token = .qualified qualifier name →
    l.text = qualifier ++ "." ++ name ∧ IsWord name ∧
      ∀ c ∈ qualifier.toList, Munch.isWordPart c = true ∨ c = '.'

namespace Munch

theorem spelled_word (hc : isWordStart c = true) (cs : List Char) (span : Span)
    (h : (word c cs).found = .token t) :
    Lexeme.Spelled ⟨t, String.ofList (c :: cs.take (word c cs).more), span⟩ := by
  have hhead := isWord_takeWhile hc cs
  rw [take_word, ← List.cons_append]
  cases htail : (dottedWords (cs.dropWhile isWordPart)).getLast? with
  | none =>
    rw [List.getLast?_eq_none_iff] at htail
    rw [htail, List.flatMap_nil, List.append_nil]
    refine ⟨fun name hname => ?_, fun qualifier name hname => ?_⟩
    · have hspelled : String.ofList (c :: cs.takeWhile isWordPart) = name := by
        simp only [word, htail, List.getLast?_nil, Found.token.injEq] at h
        simp only at hname
        subst hname
        split at h
        · exact Token.ident.inj h
        · unfold plainWord at h
          grind
      exact ⟨hspelled, hspelled ▸ hhead⟩
    · simp only [word, htail, List.getLast?_nil, Found.token.injEq] at h
      simp only at hname
      subst hname
      unfold plainWord at h
      grind
  | some last =>
    obtain ⟨ws, hws⟩ := List.getLast?_eq_some_iff.mp htail
    simp only [word, htail, Found.token.injEq] at h
    subst h
    refine ⟨fun name hname => (nomatch hname), fun qualifier name hname => ?_⟩
    simp only [Token.qualified.injEq] at hname
    obtain ⟨rfl, rfl⟩ := hname
    have hwords : ∀ w ∈ dottedWords (cs.dropWhile isWordPart), IsWord (String.ofList w) :=
      fun w hw => isWord_of_mem_dottedWords hw
    refine ⟨?_, hwords last (List.mem_of_getLast? htail), ?_⟩
    · rw [hws, List.dropLast_concat, joinDots_cons]
      apply String.toList_inj.mp
      simp
    · rw [String.toList_ofList, joinDots_cons]
      refine List.forall_mem_append.mpr ⟨fun d hd => .inl (hhead.forall d (by simpa using hd)), ?_⟩
      rw [List.forall_mem_flatMap]
      refine fun w hw => List.forall_mem_cons.mpr ⟨.inr rfl, fun d hd => .inl ?_⟩
      exact (hwords w (List.dropLast_subset _ hw)).forall d (by simpa using hd)

theorem constant_of_numeral {negative : Bool}
    (h : (numeral negative cs).2 = .token t) : ∃ value, t = .constant value := by
  unfold numeral integer at h
  grind

theorem constant_of_quoted (h : (quoted cs).found = .token t) :
    ∃ value, t = .constant value := by
  unfold quoted at h
  grind

theorem symbol_of_symbol (h : (symbol c cs).found = .token t) :
    ∃ sign, t = .symbol sign := by
  unfold symbol at h
  grind

theorem front_cases (h : (front c cs).found = .token t) :
    (isWordStart c = true ∧ front c cs = word c cs) ∨ (∃ value, t = .constant value) ∨
    ∃ sign, t = .symbol sign := by
  unfold front at h ⊢
  by_cases hblank : isBlank c = true
  · rw [if_pos hblank] at h
    cases h
  rw [if_neg hblank] at h ⊢
  by_cases hcomment : c = '#'
  · rw [if_pos hcomment] at h
    cases h
  rw [if_neg hcomment] at h ⊢
  by_cases hword : isWordStart c = true
  · rw [if_pos hword]
    exact .inl ⟨hword, rfl⟩
  rw [if_neg hword] at h
  by_cases hquote : c = '"'
  · rw [if_pos hquote] at h
    exact .inr (.inl (constant_of_quoted h))
  rw [if_neg hquote] at h
  by_cases hdigit : c.isDigit = true
  · rw [if_pos hdigit] at h
    exact .inr (.inl (constant_of_numeral h))
  rw [if_neg hdigit] at h
  split at h
  · exact .inr (.inl (constant_of_numeral h))
  · exact .inr (.inr (symbol_of_symbol h))

theorem spelled_front (c : Char) (cs : List Char) (span : Span)
    (h : (front c cs).found = .token t) :
    Lexeme.Spelled ⟨t, String.ofList (c :: cs.take (front c cs).more), span⟩ := by
  rcases front_cases h with ⟨hstart, hword⟩ | ⟨value, rfl⟩ | ⟨sign, rfl⟩
  · rw [hword] at h ⊢
    exact spelled_word hstart cs span h
  all_goals exact ⟨fun _ hname => (nomatch hname), fun _ _ hname => (nomatch hname)⟩

/-- The qualifier of a dotted name begins with the word in front of its first dot. -/
theorem qualifier_ne_empty {qualifier name : String}
    (h : (front c cs).found = .token (.qualified qualifier name)) : qualifier ≠ "" := by
  rcases front_cases h with ⟨-, hword⟩ | ⟨value, hvalue⟩ | ⟨sign, hsign⟩
  · rw [hword] at h
    cases htail : (dottedWords (cs.dropWhile isWordPart)).getLast? with
    | none =>
      simp only [word, htail, Found.token.injEq] at h
      unfold plainWord at h
      grind
    | some last =>
      simp only [word, htail, Found.token.injEq, Token.qualified.injEq] at h
      rw [← h.1, joinDots_cons]
      simp
  · cases hvalue
  · cases hsign

end Munch

theorem spelled_of_mem (h : l ∈ (Scan.ofSource source).lexemes) :
    l.Spelled := by
  obtain ⟨p, hp, hl⟩ := List.mem_filterMap.mp h
  obtain ⟨c, rest, hchars, hfound⟩ := mem_pieces hp
  obtain ⟨htext, hspan, htoken⟩ := Piece.of_lexeme? hl
  rw [hfound] at htoken
  have hspelled := Munch.spelled_front c rest p.span htoken
  rwa [← hchars, ← htext, ← hspan] at hspelled

theorem qualifier_ne_empty_of_mem (h : l ∈ (Scan.ofSource source).lexemes)
    {qualifier name : String} (hname : l.token = .qualified qualifier name) : qualifier ≠ "" := by
  obtain ⟨p, hp, hl⟩ := List.mem_filterMap.mp h
  obtain ⟨c, rest, -, hfound⟩ := mem_pieces hp
  obtain ⟨-, -, htoken⟩ := Piece.of_lexeme? hl
  rw [hfound, hname] at htoken
  exact Munch.qualifier_ne_empty htoken

/-- A word that is neither a keyword nor a truth value. -/
structure IsName (s : String) : Prop where
  isWord : IsWord s
  notReserved : Munch.plainWord s = .ident s

theorem IsName.ne_keyword (h : IsName s) (k : Keyword) : s ≠ k.text := by
  rintro rfl
  have hreserved := h.notReserved
  revert hreserved
  cases k <;> decide +kernel

namespace Munch

theorem front_dot (cs : List Char) : (front '.' cs).found = .fault (.illegal '.') := by
  have hsymbol : Symbol.leading? ('.' :: cs) = none := by
    simp [Symbol.leading?, Symbol.all, Symbol.text, List.isPrefixOf]
  simp [front, isBlank, isWordStart, symbol, hsymbol]

theorem faults_of_dot {start : Nat} {rest : List Char} :
    (pieces start ('.' :: rest)).filterMap Piece.fault? ≠ [] := by
  rw [pieces]
  simp [Piece.fault?, front_dot]

theorem drop_word (h : dottedWords (cs.dropWhile isWordPart) = []) :
    cs.drop (word c cs).more = cs.dropWhile isWordPart := by
  rw [more_word, h]
  exact (congrArg _ List.takeWhile_append_dropWhile.symm).trans List.drop_left

/-- A word that is taken for a name only because of the dot behind it leaves the dot as a fault. -/
theorem plainWord_of_ident {start : Nat} {name : String}
    (h : (word c cs).found = .token (.ident name))
    (hrest : (pieces start (cs.drop (word c cs).more)).filterMap Piece.fault? = []) :
    plainWord name = .ident name := by
  cases htail : (dottedWords (cs.dropWhile isWordPart)).getLast? with
  | some last => simp [word, htail] at h
  | none =>
    simp only [word, htail, Found.token.injEq] at h
    rw [List.getLast?_eq_none_iff] at htail
    split at h
    · rename_i hdot
      obtain ⟨rest, hdot⟩ := List.head?_eq_some_iff.mp hdot
      rw [drop_word htail, hdot] at hrest
      exact absurd hrest faults_of_dot
    · have hname : String.ofList (c :: cs.takeWhile isWordPart) = name := by
        unfold plainWord at h
        grind
      rwa [hname] at h

end Munch

theorem notReserved_of_pieces {start : Nat}
    (hfaults : (pieces start cs).filterMap Piece.fault? = []) {p : Piece} (hp : p ∈ pieces start cs)
    {name : String} (hname : p.found = .token (.ident name)) :
    Munch.plainWord name = .ident name := by
  fun_induction pieces start cs with
  | case1 => cases hp
  | case2 start c cs munch taken ih =>
    rw [List.filterMap_cons] at hfaults
    have hrest : (pieces (start + utf8Length taken) (cs.drop munch.more)).filterMap Piece.fault? =
        [] := by
      split at hfaults
      · exact hfaults
      · cases hfaults
    rcases List.mem_cons.mp hp with rfl | hp
    · rcases Munch.front_cases hname with ⟨-, hword⟩ | ⟨value, hvalue⟩ | ⟨sign, hsign⟩
      · rw [show munch = Munch.word c cs from hword] at hrest
        exact Munch.plainWord_of_ident (hword ▸ hname) hrest
      · cases hvalue
      · cases hsign
    · exact ih hrest hp

theorem isName_of_mem (hfaults : (Scan.ofSource source).faults = [])
    (h : l ∈ (Scan.ofSource source).lexemes) {name : String} (hname : l.token = .ident name) :
    IsName name := by
  refine ⟨((spelled_of_mem h).ident name hname).2, ?_⟩
  obtain ⟨p, hp, hl⟩ := List.mem_filterMap.mp h
  obtain ⟨-, -, htoken⟩ := Piece.of_lexeme? hl
  rw [hname] at htoken
  exact notReserved_of_pieces hfaults hp htoken

end PipelineLang
