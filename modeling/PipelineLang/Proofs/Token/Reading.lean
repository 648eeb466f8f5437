import PipelineLang.Proofs.Token.Spelling

/-! In a text without faults a token is determined by what it takes of the text: read by itself,
that is the same token again. -/

namespace PipelineLang

variable {c : Char} {cs ds : List Char} {α : Type} {t : Token}

theorem takeWhile_append_stop {p : α → Bool} {xs ys : List α} (hxs : ∀ x ∈ xs, p x = true)
    (hys : ∀ y ∈ ys.head?, p y = false) :
    (xs ++ ys).takeWhile p = xs ∧ (xs ++ ys).dropWhile p = ys := by
  have hstop : ys.takeWhile p = [] ∧ ys.dropWhile p = ys := by
    cases ys with
    | nil => exact ⟨rfl, rfl⟩
    | cons y ys =>
      have hy := hys y rfl
      exact ⟨List.takeWhile_cons_of_neg (by simp [hy]), List.dropWhile_cons_of_neg (by simp [hy])⟩
  rw [List.takeWhile_append_of_pos hxs, List.dropWhile_append_of_pos hxs, hstop.1, hstop.2,
    List.append_nil]
  exact ⟨rfl, rfl⟩

theorem head?_dropWhile_neg (p : α → Bool) (xs : List α) :
    ∀ y ∈ (xs.dropWhile p).head?, p y = false := by
  intro y hy
  have hnot := List.head?_dropWhile_not p xs
  rw [Option.mem_def.mp hy] at hnot
  simpa using hnot

theorem head?_take_of_mem {xs : List α} {n : Nat} {y : α} (h : y ∈ (xs.take n).head?) :
    y ∈ xs.head? := by
  cases xs with
  | nil => simp at h
  | cons x xs =>
    cases n with
    | zero => simp at h
    | succ n => exact h

namespace Munch

theorem head?_flatMap_dots (ws : List (List Char)) :
    ∀ y ∈ (ws.flatMap ('.' :: ·)).head?, isWordPart y = false := by
  intro y hy
  cases ws with
  | nil => cases hy
  | cons w ws =>
    cases hy
    decide

theorem dottedWords_flatMap {ws : List (List Char)} (h : ∀ w ∈ ws, IsWord (String.ofList w)) :
    dottedWords (ws.flatMap ('.' :: ·)) = ws := by
  induction ws with
  | nil => simp [dottedWords]
  | cons w ws ih =>
    obtain ⟨hw, hws⟩ := List.forall_mem_cons.mp h
    obtain ⟨c, cs, hcs, hc, hpart⟩ := hw
    rw [String.toList_ofList] at hcs
    subst hcs
    obtain ⟨htake, hdrop⟩ := takeWhile_append_stop hpart (head?_flatMap_dots ws)
    rw [List.flatMap_cons, List.cons_append, List.cons_append, dottedWords, if_pos hc, htake, hdrop,
      ih hws]

theorem word_take (h : (word c cs).found = .token t)
    (hname : ∀ name, t = .ident name → plainWord name = .ident name) :
    (word c (cs.take (word c cs).more)).found = .token t := by
  have hwords : ∀ w ∈ dottedWords (cs.dropWhile isWordPart), IsWord (String.ofList w) :=
    fun w hw => isWord_of_mem_dottedWords hw
  have hdotted := dottedWords_flatMap hwords
  have hpart : ∀ d ∈ cs.takeWhile isWordPart, isWordPart d = true :=
    List.all_eq_true.mp List.all_takeWhile
  obtain ⟨htake, hdrop⟩ := takeWhile_append_stop hpart
    (head?_flatMap_dots (dottedWords (cs.dropWhile isWordPart)))
  rw [take_word]
  simp only [word, htake, hdrop, hdotted]
  cases htail : (dottedWords (cs.dropWhile isWordPart)).getLast? with
  | some last =>
    simp only [word, htail] at h
    exact h
  | none =>
    simp only [word, htail, Found.token.injEq] at h
    rw [List.getLast?_eq_none_iff] at htail
    simp only [htail, List.flatMap_nil, List.head?_nil, reduceCtorEq, if_false, Found.token.injEq]
    split at h
    · exact (hname _ h.symm).trans h
    · exact h

inductive ExponentSign : List Char → Bool → List Char → Prop where
  | minus (ds : List Char) : ExponentSign ['-'] true ds
  | plus (ds : List Char) : ExponentSign ['+'] false ds
  | absent {ds : List Char} : (∀ d ∈ ds.head?, d ≠ '-' ∧ d ≠ '+') → ExponentSign [] false ds

theorem exists_exponentSign (cs : List Char) :
    ∃ sign negative ds, cs = sign ++ ds ∧ ExponentSign sign negative ds := by
  cases cs with
  | nil => exact ⟨[], false, [], rfl, .absent (by simp)⟩
  | cons c cs =>
    by_cases hminus : c = '-'
    · exact ⟨['-'], true, cs, by rw [hminus]; rfl, .minus cs⟩
    by_cases hplus : c = '+'
    · exact ⟨['+'], false, cs, by rw [hplus]; rfl, .plus cs⟩
    exact ⟨[], false, c :: cs, rfl, .absent (by simp [hminus, hplus])⟩

theorem exponent_cons {e : Char} (he : (e = 'e' || e = 'E') = true) {sign : List Char}
    {negative : Bool} (h : ExponentSign sign negative ds) :
    exponent (e :: (sign ++ ds)) =
      if (ds.takeWhile Char.isDigit).isEmpty then (0, 0)
      else (1 + sign.length + (ds.takeWhile Char.isDigit).length,
        if negative then -(digitsValue (ds.takeWhile Char.isDigit) : Int)
        else digitsValue (ds.takeWhile Char.isDigit)) := by
  cases h with
  | minus =>
    rw [List.cons_append, List.nil_append, exponent, if_pos he]
    rfl
  | plus =>
    rw [List.cons_append, List.nil_append, exponent, if_pos he]
    rfl
  | absent hhead =>
    rw [List.nil_append, exponent, if_pos he]
    · rfl
    · rintro ds rfl
      exact absurd rfl (hhead '-' rfl).1
    · rintro ds rfl
      exact absurd rfl (hhead '+' rfl).2

theorem isDigit_of_mem_takeWhile (cs : List Char) :
    ∀ d ∈ cs.takeWhile Char.isDigit, d.isDigit = true :=
  List.all_eq_true.mp List.all_takeWhile

theorem ExponentSign.digits {sign : List Char} {negative : Bool}
    (h : ExponentSign sign negative ds) :
    ExponentSign sign negative (ds.takeWhile Char.isDigit) := by
  cases h with
  | minus => exact .minus _
  | plus => exact .plus _
  | absent hhead =>
    refine .absent fun d hd => ?_
    have hdigit := isDigit_of_mem_takeWhile ds d (List.mem_of_mem_head? hd)
    constructor <;> rintro rfl <;> revert hdigit <;> decide

theorem whole_of_isDigit (h : ∀ d ∈ ds, d.isDigit = true) :
    ds.takeWhile Char.isDigit = ds ∧ ds.dropWhile Char.isDigit = [] := by
  have hwhole := takeWhile_append_stop h (fun y (hy : y ∈ ([] : List Char).head?) => nomatch hy)
  rwa [List.append_nil] at hwhole

theorem take_takeWhile (p : α → Bool) (xs : List α) :
    xs.take (xs.takeWhile p).length = xs.takeWhile p :=
  (List.prefix_iff_eq_take.mp (List.takeWhile_prefix p)).symm

theorem exponent_take (cs : List Char) : exponent (cs.take (exponent cs).1) = exponent cs := by
  cases cs with
  | nil => rfl
  | cons e cs =>
    by_cases he : (e = 'e' || e = 'E') = true
    · obtain ⟨sign, negative, ds, rfl, hsign⟩ := exists_exponentSign cs
      rw [exponent_cons he hsign]
      by_cases hempty : (ds.takeWhile Char.isDigit).isEmpty = true
      · rw [if_pos hempty]
        rfl
      · rw [if_neg hempty]
        have htake : (e :: (sign ++ ds)).take
            (1 + sign.length + (ds.takeWhile Char.isDigit).length) =
            e :: (sign ++ ds.takeWhile Char.isDigit) := by
          rw [Nat.add_assoc, Nat.add_comm 1, List.take_succ_cons, List.take_length_add_append,
            take_takeWhile]
        rw [htake, exponent_cons he hsign.digits,
          (whole_of_isDigit (isDigit_of_mem_takeWhile ds)).1, if_neg hempty]
    · simp only [exponent, he]
      rfl

theorem numeral_fraction (negative : Bool) {whole fraction tail : List Char}
    (hwhole : ∀ d ∈ whole, d.isDigit = true) (hfraction : ∀ d ∈ fraction, d.isDigit = true)
    (hne : fraction ≠ []) (htail : ∀ y ∈ tail.head?, y.isDigit = false) :
    numeral negative (whole ++ '.' :: (fraction ++ tail)) =
      (whole.length + 1 + fraction.length + (exponent tail).1,
        .token (.constant (.float (Double.ofDecimal negative (digitsValue (whole ++ fraction))
          ((exponent tail).2 - fraction.length))))) := by
  obtain ⟨htake, hdrop⟩ := takeWhile_append_stop hwhole
    (fun y (hy : y ∈ ('.' :: (fraction ++
      tail)).head?) => by cases hy; decide : ∀ y ∈ _, Char.isDigit y = false)
  obtain ⟨htake', hdrop'⟩ := takeWhile_append_stop hfraction htail
  have hbehind : (whole ++ '.' :: (fraction ++ tail)).drop (whole.length + 1 + fraction.length) =
      tail := by
    rw [Nat.add_assoc, List.drop_length_add_append, Nat.add_comm 1, List.drop_succ_cons,
      List.drop_left]
  simp only [numeral, htake, hdrop, htake', List.isEmpty_iff, hne, if_false, hbehind]

theorem take_point (whole fraction tail : List Char) (n : Nat) :
    (whole ++ '.' :: (fraction ++ tail)).take (whole.length + 1 + fraction.length + n) =
      whole ++ '.' :: (fraction ++ tail.take n) := by
  rw [Nat.add_assoc, Nat.add_assoc, List.take_length_add_append, Nat.add_comm 1,
    List.take_succ_cons, List.take_length_add_append]

theorem numeral_fraction_take (negative : Bool) {whole fraction tail : List Char}
    (hwhole : ∀ d ∈ whole, d.isDigit = true) (hfraction : ∀ d ∈ fraction, d.isDigit = true)
    (hne : fraction ≠ []) (htail : ∀ y ∈ tail.head?, y.isDigit = false) :
    let cs := whole ++ '.' :: (fraction ++ tail)
    numeral negative (cs.take (numeral negative cs).1) = numeral negative cs := by
  intro cs
  rw [numeral_fraction negative hwhole hfraction hne htail, take_point,
    numeral_fraction negative hwhole hfraction hne fun y hy => htail y (head?_take_of_mem hy),
    exponent_take]

theorem numeral_whole (negative : Bool)
    (h : ¬ ∃ rest, cs.dropWhile Char.isDigit = '.' :: rest ∧ rest.takeWhile Char.isDigit ≠ []) :
    numeral negative cs =
      ((cs.takeWhile Char.isDigit).length, integer negative (cs.takeWhile Char.isDigit)) := by
  cases hrest : cs.dropWhile Char.isDigit with
  | nil => simp only [numeral, hrest, List.isEmpty_nil, if_true]
  | cons c rest =>
    by_cases hpoint : c = '.'
    · subst hpoint
      have hempty : rest.takeWhile Char.isDigit = [] :=
        Classical.byContradiction fun hne => h ⟨rest, hrest, hne⟩
      simp only [numeral, hrest, hempty, List.isEmpty_nil, if_true]
    · simp [numeral, hrest, hpoint]

theorem eq_of_dropWhile_point {rest : List Char} (h : cs.dropWhile Char.isDigit = '.' :: rest) :
    cs = cs.takeWhile Char.isDigit ++
      '.' :: (rest.takeWhile Char.isDigit ++ rest.dropWhile Char.isDigit) := by
  rw [List.takeWhile_append_dropWhile, ← h, List.takeWhile_append_dropWhile]

theorem numeral_take (negative : Bool) (cs : List Char) :
    numeral negative (cs.take (numeral negative cs).1) = numeral negative cs := by
  have hdigits := isDigit_of_mem_takeWhile cs
  by_cases hfraction : ∃ rest, cs.dropWhile Char.isDigit = '.' :: rest ∧
    rest.takeWhile Char.isDigit ≠ []
  · obtain ⟨rest, hrest, hne⟩ := hfraction
    have htail := head?_dropWhile_neg Char.isDigit rest
    have h := numeral_fraction_take negative hdigits (isDigit_of_mem_takeWhile rest) hne htail
    rwa [← eq_of_dropWhile_point hrest] at h
  · obtain ⟨htake, hdrop⟩ := whole_of_isDigit hdigits
    have hwhole : ¬ ∃ rest, (cs.takeWhile Char.isDigit).dropWhile Char.isDigit = '.' :: rest
        ∧ rest.takeWhile Char.isDigit ≠ [] := by
      rw [hdrop]
      rintro ⟨rest, hrest, -⟩
      cases hrest
    rw [numeral_whole negative hfraction, take_takeWhile, numeral_whole negative hwhole, htake]

theorem numeral_cases (negative : Bool) (cs : List Char) :
    (∃ fraction tail, cs = cs.takeWhile Char.isDigit ++ '.' :: (fraction ++ tail) ∧ fraction ≠ []
      ∧ (∀ d ∈ fraction, d.isDigit = true) ∧ numeral negative cs =
        ((cs.takeWhile Char.isDigit).length + 1 + fraction.length + (exponent tail).1,
          .token (.constant (.float
              (Double.ofDecimal negative (digitsValue (cs.takeWhile Char.isDigit ++ fraction))
            ((exponent tail).2 - fraction.length))))))
      ∨ numeral negative cs = ((cs.takeWhile Char.isDigit).length,
        integer negative (cs.takeWhile Char.isDigit)) := by
  by_cases hfraction : ∃ rest, cs.dropWhile Char.isDigit = '.' :: rest ∧
    rest.takeWhile Char.isDigit ≠ []
  · obtain ⟨rest, hrest, hne⟩ := hfraction
    have hdigits := isDigit_of_mem_takeWhile rest
    have h := numeral_fraction negative (isDigit_of_mem_takeWhile cs) hdigits hne
      (head?_dropWhile_neg Char.isDigit rest)
    rw [← eq_of_dropWhile_point hrest] at h
    exact .inl ⟨_, _, eq_of_dropWhile_point hrest, hne, hdigits, h⟩
  · exact .inr (numeral_whole negative hfraction)

theorem length_whole_le_numeral (negative : Bool) (cs : List Char) :
    (cs.takeWhile Char.isDigit).length ≤ (numeral negative cs).1 := by
  rcases numeral_cases negative cs with ⟨fraction, tail, -, -, -, h⟩ | h
  · rw [h]
    dsimp only
    omega
  · exact Nat.le_of_eq (congrArg Prod.fst h).symm

theorem numeral_pos (negative : Bool) (hc : c.isDigit = true) (cs : List Char) :
    0 < (numeral negative (c :: cs)).1 := by
  have hwhole : 0 < ((c :: cs).takeWhile Char.isDigit).length := by simp [hc]
  exact Nat.lt_of_lt_of_le hwhole (length_whole_le_numeral negative (c :: cs))

theorem take_numeral_cons (negative : Bool) (hc : c.isDigit = true) (cs : List Char) :
    (c :: cs).take (numeral negative (c :: cs)).1 =
      c :: cs.take ((numeral negative (c :: cs)).1 - 1) := by
  rw [← List.take_succ_cons, Nat.sub_add_cancel (numeral_pos negative hc cs)]

theorem quotedBody_plain (hquote : c ≠ '"') (hback : c ≠ '\\') (cs : List Char) :
    quotedBody (c :: cs) = ((quotedBody cs).1 + 1, (quotedBody cs).2) := by
  rw [quotedBody]
  · exact hquote
  · exact fun _ _ h _ => hback h
  · exact fun h _ => hback h

theorem ne_backslash (hescape : ∀ d ds, c = '\\' → cs = d :: ds → False)
    (hlone : c = '\\' → cs = [] → False) : c ≠ '\\' := by
  intro hc
  cases cs with
  | nil => exact hlone hc rfl
  | cons d ds => exact hescape d ds hc rfl

theorem quotedBody_take {n : Nat} (h : quotedBody cs = (n, true)) :
    quotedBody (cs.take n) = (n, true) := by
  fun_induction quotedBody cs generalizing n with
  | case1 => cases h
  | case2 =>
    cases h
    rfl
  | case3 => cases h
  | case4 c cs hc m closed hm ih =>
    cases h
    have hbody := ih hm
    rw [List.take_succ_cons, List.take_succ_cons, quotedBody, if_neg hc, hbody]
  | case5 => cases h
  | case6 c cs hquote hescape hlone m closed hm ih =>
    cases h
    rw [List.take_succ_cons, quotedBody_plain hquote (ne_backslash hescape hlone), ih hm]

theorem quoted_take (h : (quoted cs).found = .token t) :
    (quoted (cs.take (quoted cs).more)).found = .token t := by
  rcases hbody : quotedBody cs with ⟨n, _ | _⟩
  · simp only [quoted, hbody] at h
    cases h
  · simp only [quoted, hbody, if_true] at h
    simp only [quoted, hbody, quotedBody_take hbody, if_true, List.take_take,
      Nat.min_eq_left (Nat.sub_le n 1)]
    exact h

theorem front_symbol {s : Symbol} (h : s.text.toList = c :: cs) :
    (front c cs).found = .token (.symbol s) := by
  cases s <;> cases h <;> decide +kernel

theorem text_of_leading? {s : Symbol} (h : Symbol.leading? (c :: cs) = some s) :
    s.text.toList = c :: cs.take (s.text.length - 1) := by
  have hprefix := List.find?_some h
  have hlength : s.text.toList.length = s.text.length - 1 + 1 := by cases s <;> rfl
  rw [List.prefix_iff_eq_take.mp (List.isPrefixOf_iff_prefix.mp hprefix), hlength,
    List.take_succ_cons]

theorem symbol_take (h : (symbol c cs).found = .token t) :
    (front c (cs.take (symbol c cs).more)).found = .token t := by
  cases hleading : Symbol.leading? (c :: cs) with
  | none =>
    simp only [symbol, hleading] at h
    cases h
  | some s =>
    simp only [symbol, hleading, Found.token.injEq] at h ⊢
    subst h
    exact front_symbol (text_of_leading? hleading)

theorem front_blank (h : isBlank c = true) (cs : List Char) :
    front c cs = ⟨(cs.takeWhile isBlank).length, .blank⟩ := by
  rw [front, if_pos h]

theorem front_comment (cs : List Char) :
    front '#' cs = ⟨(cs.takeWhile (· != '\n')).length, .blank⟩ := rfl

theorem not_isBlank_of_isWordPart (h : isWordPart c = true) : ¬ isBlank c = true := by
  intro hblank
  simp only [isBlank, Bool.or_eq_true, decide_eq_true_eq] at hblank
  rcases hblank with ((rfl | rfl) | rfl) | rfl <;> revert h <;> decide

theorem front_word (h : isWordStart c = true) (cs : List Char) : front c cs = word c cs := by
  have hcomment : c ≠ '#' := by
    rintro rfl
    revert h
    decide
  rw [front, if_neg (not_isBlank_of_isWordPart (isWordPart_of_isWordStart h)), if_neg hcomment,
    if_pos h]

theorem front_quote (cs : List Char) : front '"' cs = quoted cs := rfl

theorem front_digit (h : c.isDigit = true) (cs : List Char) :
    front c cs = ⟨(numeral false (c :: cs)).1 - 1, (numeral false (c :: cs)).2⟩ := by
  have hmark : c ≠ '#' ∧ c ≠ '"' := by
    constructor <;> rintro rfl <;> revert h <;> decide
  rw [front, if_neg (not_isBlank_of_isWordPart (isWordPart_of_isDigit h)), if_neg hmark.1,
    if_neg (by simp [not_isWordStart_of_isDigit h]),
    if_neg hmark.2, if_pos h]

theorem front_minus {d : Char} (h : d.isDigit = true) (ds : List Char) :
    front '-' (d :: ds) = ⟨(numeral true (d :: ds)).1, (numeral true (d :: ds)).2⟩ := by
  have hnegative : ('-' = '-' && ((d :: ds).head?.map Char.isDigit).getD false) = true := by
    simp [h]
  exact if_pos hnegative

theorem front_other (hblank : ¬ isBlank c = true) (hcomment : c ≠ '#')
    (hstart : ¬ isWordStart c = true) (hquote : c ≠ '"') (hdigit : ¬ c.isDigit = true)
    (hnegative : ¬ (c = '-' ∧ ∃ d ds, cs = d :: ds ∧ d.isDigit = true)) :
    front c cs = symbol c cs := by
  have hplain : ¬ (c = '-' && (cs.head?.map Char.isDigit).getD false) = true := by
    intro hminus
    simp only [Bool.and_eq_true, decide_eq_true_eq] at hminus
    cases cs with
    | nil => cases hminus.2
    | cons d ds => exact hnegative ⟨hminus.1, d, ds, rfl, hminus.2⟩
  rw [front, if_neg hblank, if_neg hcomment, if_neg hstart, if_neg hquote, if_neg hdigit,
    if_neg hplain]

theorem front_take (h : (front c cs).found = .token t)
    (hname : ∀ name, t = .ident name → plainWord name = .ident name) :
    (front c (cs.take (front c cs).more)).found = .token t := by
  by_cases hblank : isBlank c = true
  · rw [front_blank hblank] at h
    cases h
  by_cases hcomment : c = '#'
  · subst hcomment
    cases h
  by_cases hstart : isWordStart c = true
  · rw [front_word hstart] at h
    rw [front_word hstart, front_word hstart]
    exact word_take h hname
  by_cases hquote : c = '"'
  · subst hquote
    exact quoted_take h
  by_cases hdigit : c.isDigit = true
  · rw [front_digit hdigit] at h
    rw [front_digit hdigit, front_digit hdigit]
    simp only [← take_numeral_cons false hdigit, numeral_take]
    exact h
  by_cases hnegative : c = '-' ∧ ∃ d ds, cs = d :: ds ∧ d.isDigit = true
  · obtain ⟨rfl, d, ds, rfl, hd⟩ := hnegative
    rw [front_minus hd] at h ⊢
    rw [take_numeral_cons true hd, front_minus hd, ← take_numeral_cons true hd, numeral_take]
    exact h
  · rw [front_other hblank hcomment hstart hquote hdigit hnegative] at h ⊢
    exact symbol_take h

end Munch

theorem front_text {source : String} (hfaults : (Scan.ofSource source).faults = []) {l : Lexeme}
    (h : l ∈ (Scan.ofSource source).lexemes) :
    ∃ c cs, l.text.toList = c :: cs ∧ (Munch.front c cs).found = .token l.token := by
  obtain ⟨p, hp, hl⟩ := List.mem_filterMap.mp h
  obtain ⟨c, rest, hchars, hfound⟩ := mem_pieces hp
  have hname : ∀ name, l.token = .ident name → Munch.plainWord name = .ident name :=
    fun name hname => (isName_of_mem hfaults h hname).notReserved
  obtain ⟨htext, -, htoken⟩ := Piece.of_lexeme? hl
  rw [hfound] at htoken
  refine ⟨c, rest.take (Munch.front c rest).more, ?_, Munch.front_take htoken hname⟩
  rw [htext, String.toList_ofList, hchars]

theorem token_eq_of_text {source source' : String} (hfaults : (Scan.ofSource source).faults = [])
    (hfaults' : (Scan.ofSource source').faults = []) {l l' : Lexeme}
    (h : l ∈ (Scan.ofSource source).lexemes)
    (h' : l' ∈ (Scan.ofSource source').lexemes) (htext : l.text = l'.text) :
    l.token = l'.token := by
  obtain ⟨c, cs, hcs, hfound⟩ := front_text hfaults h
  obtain ⟨c', cs', hcs', hfound'⟩ := front_text hfaults' h'
  rw [htext, hcs'] at hcs
  cases hcs
  exact Found.token.inj (hfound.symm.trans hfound')

end PipelineLang
