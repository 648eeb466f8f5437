import PipelineLang.Proofs.Token.Patterns

/-!
Longest match. What is taken off the front of a text matches the pattern of what it is found to be,
and no pattern matches a longer piece; where an illegal character is found, no pattern matches
anything.
-/

namespace PipelineLang

variable {cs w rest body : List Char} {c : Char} {P : Pattern} {s : Symbol}

open Computability

def Found.pattern? : Found → Option Pattern
  | .blank => some .skipped
  | .token t => some t.pattern
  | .fault (.outOfRange _) => some .integer
  | .fault (.illegal _) => none

namespace Munch

open Pattern

theorem length_le_takeWhile {p : Char → Bool} (h : ∀ c ∈ w, p c = true) (rest : List Char) :
    w.length ≤ ((w ++ rest).takeWhile p).length := by
  rw [List.takeWhile_append_of_pos h, List.length_append]
  exact Nat.le_add_right _ _

theorem length_le_dottedWords {ws : List (List Char)} (hw : ∀ c ∈ w, isWordPart c = true)
    (hws : ∀ v ∈ ws, IsWord (String.ofList v)) (rest : List Char) :
    let cs := w ++ (ws.flatMap ('.' :: ·) ++ rest)
    (w ++ ws.flatMap ('.' :: ·)).length ≤ (cs.takeWhile isWordPart).length
      + ((dottedWords (cs.dropWhile isWordPart)).flatMap ('.' :: ·)).length := by
  induction ws generalizing w with
  | nil =>
    rw [List.flatMap_nil, List.append_nil, List.nil_append]
    exact Nat.le_add_right_of_le (length_le_takeWhile hw rest)
  | cons v ws ih =>
    obtain ⟨⟨c, cs, hv, hc, hpart⟩, hothers⟩ := List.forall_mem_cons.mp hws
    rw [String.toList_ofList] at hv
    subst hv
    have hrest := ih hpart hothers
    have hstop : ∀ y ∈ ('.' :: c :: (cs ++ (ws.flatMap ('.' :: ·) ++ rest))).head?,
        isWordPart y = false := by
      intro y hy
      cases hy
      decide
    obtain ⟨htake, hdrop⟩ := takeWhile_append_stop hw hstop
    simp only [List.flatMap_cons, List.cons_append, List.append_assoc]
    rw [htake, hdrop, dottedWords, if_pos hc]
    simp only [List.flatMap_cons, List.length_append, List.length_cons] at hrest ⊢
    omega

theorem mem_word_front (hc : isWordStart c = true)
    (h : (word c cs).found.pattern? = some P) : c :: cs.take (word c cs).more ∈ P.language := by
  have hhead := isWord_takeWhile hc cs
  rw [take_word, ← List.cons_append]
  cases htail : (dottedWords (cs.dropWhile isWordPart)).getLast? with
  | none =>
    simp only [word, htail, Found.pattern?, Option.some.injEq] at h
    rw [List.getLast?_eq_none_iff] at htail
    rw [htail, List.flatMap_nil, List.append_nil, ← h]
    split
    · exact mem_word.mpr hhead
    · exact mem_plainWord hhead
  | some last =>
    simp only [word, htail, Found.pattern?, Option.some.injEq] at h
    subst h
    refine mem_qualified.mpr ⟨_, _, hhead, ?_, fun v hv => isWord_of_mem_dottedWords hv, rfl⟩
    exact List.ne_nil_of_mem (List.mem_of_getLast? htail)

theorem take_exponent (cs : List Char) : cs.take (exponent cs).1 ∈ optional power := by
  cases cs with
  | nil => exact .inl rfl
  | cons e cs =>
    by_cases he : (e = 'e' || e = 'E') = true
    · obtain ⟨sgn, negative, ds, rfl, hsign⟩ := exists_exponentSign cs
      rw [exponent_cons he hsign]
      by_cases hempty : (ds.takeWhile Char.isDigit).isEmpty = true
      · rw [if_pos hempty]
        exact .inl rfl
      · rw [if_neg hempty, Nat.add_assoc, Nat.add_comm 1, List.take_succ_cons,
          List.take_length_add_append, take_takeWhile]
        refine .inr (mem_power.mpr ⟨e, sgn, _, he, ?_,
          mem_digits.mpr ⟨?_, isDigit_of_mem_takeWhile ds⟩, rfl⟩)
        · cases hsign <;> simp
        · simpa using hempty
    · simp only [exponent, he]
      exact .inl rfl

theorem length_le_exponent (h : w ∈ power) (rest : List Char) :
    w.length ≤ (exponent (w ++ rest)).1 := by
  obtain ⟨e, sgn, ds, he, hsgn, hds, rfl⟩ := mem_power.mp h
  obtain ⟨hne, hdigit⟩ := mem_digits.mp hds
  have hsign : ∃ negative, ExponentSign sgn negative (ds ++ rest) := by
    rcases hsgn with rfl | rfl | rfl
    · refine ⟨false, .absent fun d hd => ?_⟩
      rw [List.head?_append_of_ne_nil _ hne] at hd
      have hd := hdigit d (List.mem_of_mem_head? hd)
      constructor <;> rintro rfl <;> revert hd <;> decide
    · exact ⟨true, .minus _⟩
    · exact ⟨false, .plus _⟩
  obtain ⟨negative, hsign⟩ := hsign
  have hlength := length_le_takeWhile hdigit rest
  have hpos := List.length_pos_iff.mpr hne
  have htaken : ¬ ((ds ++ rest).takeWhile Char.isDigit).isEmpty = true := by
    rw [List.isEmpty_iff, ← List.length_eq_zero_iff]
    omega
  rw [List.cons_append, List.append_assoc, exponent_cons he hsign, if_neg htaken]
  simp only [List.length_cons, List.length_append]
  omega

theorem pattern?_integer (negative : Bool) (ds : List Char) :
    (Munch.integer negative ds).pattern? = some .integer := by
  unfold Munch.integer
  grind [Found.pattern?, Token.pattern]

theorem mem_numeral {negative : Bool} {sgn : List Char} (hsgn : sgn ∈ sign)
    (hcs : cs.takeWhile Char.isDigit ≠ []) (h : (numeral negative cs).2.pattern? = some P) :
    sgn ++ cs.take (numeral negative cs).1 ∈ P.language := by
  have hwhole := mem_digits.mpr ⟨hcs, isDigit_of_mem_takeWhile cs⟩
  rcases numeral_cases negative cs with ⟨fraction, tail, heq, hne, hfraction, hnumeral⟩ | hnumeral
  · have htake := take_point (cs.takeWhile Char.isDigit) fraction tail (exponent tail).1
    rw [← heq] at htake
    rw [hnumeral] at h ⊢
    cases h
    dsimp only
    rw [htake]
    exact mem_float.mpr ⟨sgn, hsgn, _, hwhole, _, mem_digits.mpr ⟨hne, hfraction⟩, _,
      take_exponent tail, rfl⟩
  · rw [hnumeral] at h ⊢
    rw [pattern?_integer] at h
    cases h
    rw [take_takeWhile]
    exact mem_integer.mpr ⟨sgn, hsgn, _, hwhole, rfl⟩

theorem length_le_numeral (negative : Bool) {whole fraction tail : List Char}
    (hwhole : whole ∈ digits) (hfraction : fraction ∈ digits) (htail : tail ∈ optional power)
    (rest : List Char) :
    (whole ++ '.' :: (fraction ++ tail)).length
      ≤ (numeral negative (whole ++ '.' :: (fraction ++ tail) ++ rest)).1 := by
  obtain ⟨-, hwhole⟩ := mem_digits.mp hwhole
  obtain ⟨hne, hfraction⟩ := mem_digits.mp hfraction
  rw [List.append_assoc, List.cons_append, List.append_assoc]
  rcases htail with rfl | htail
  · -- the digits behind the point may go on in `rest`
    have hmore := length_le_takeWhile hfraction rest
    have hmore_ne : (fraction ++ rest).takeWhile Char.isDigit ≠ [] := by
      rw [← List.length_pos_iff] at hne ⊢
      omega
    have h := numeral_fraction negative hwhole (isDigit_of_mem_takeWhile (fraction ++ rest))
      hmore_ne
      (head?_dropWhile_neg Char.isDigit (fraction ++ rest))
    rw [List.takeWhile_append_dropWhile] at h
    rw [List.nil_append, h]
    simp only [List.length_append, List.length_cons, List.length_nil]
    omega
  · have hstop : ∀ y ∈ (tail ++ rest).head?, y.isDigit = false := by
      obtain ⟨e, sgn, ds, he, -, -, rfl⟩ := mem_power.mp htail
      intro y hy
      cases hy
      simp only [Bool.or_eq_true, decide_eq_true_eq] at he
      rcases he with rfl | rfl <;> decide
    have hpower := length_le_exponent htail rest
    rw [numeral_fraction negative hwhole hfraction hne hstop]
    simp only [List.length_append, List.length_cons]
    omega

theorem mem_quotedBody {n : Nat} (h : quotedBody cs = (n, true)) :
    ∃ body ∈ quotedUnit∗, cs.take n = body ++ ['"'] := by
  fun_induction quotedBody cs generalizing n with
  | case1 => cases h
  | case2 =>
    cases h
    exact ⟨[], Language.nil_mem_kstar _, rfl⟩
  | case3 => cases h
  | case4 c cs hc m closed hm ih =>
    cases h
    obtain ⟨body, hbody, htake⟩ := ih hm
    have hunit : ['\\', c] ∈ quotedUnit :=
      .inr (mem_literal_mul.mpr ⟨[c], ⟨c, by simpa using hc, rfl⟩, rfl⟩)
    refine ⟨_, append_mem_kstar hunit hbody, ?_⟩
    rw [List.take_succ_cons, List.take_succ_cons, htake]
    rfl
  | case5 => cases h
  | case6 c cs hquote hescape hlone m closed hm ih =>
    cases h
    obtain ⟨body, hbody, htake⟩ := ih hm
    have hplain : (c ≠ '"' && c ≠ '\\') = true := by
      simp only [Bool.and_eq_true, decide_eq_true_eq]
      exact ⟨hquote, ne_backslash hescape hlone⟩
    have hunit : [c] ∈ quotedUnit := .inl ⟨c, hplain, rfl⟩
    exact ⟨_, append_mem_kstar hunit hbody, by rw [List.take_succ_cons, htake]; rfl⟩

theorem quotedBody_of_mem (h : body ∈ quotedUnit∗) (rest : List Char) :
    quotedBody (body ++ '"' :: rest) = (body.length + 1, true) := by
  obtain ⟨us, rfl, hus⟩ := h
  induction us with
  | nil => rfl
  | cons u us ih =>
    obtain ⟨hu, hus⟩ := List.forall_mem_cons.mp hus
    have hrest := ih hus
    rw [List.flatten_cons, List.append_assoc]
    rcases hu with ⟨c, hc, rfl⟩ | hu
    · simp only [Bool.and_eq_true, decide_eq_true_eq] at hc
      rw [List.cons_append, List.nil_append, quotedBody_plain hc.1 hc.2, hrest]
      rfl
    · obtain ⟨-, ⟨c, hc, rfl⟩, rfl⟩ := mem_literal_mul.mp hu
      simp only [List.cons_append, List.nil_append]
      rw [quotedBody, if_neg (of_decide_eq_true hc), hrest]
      rfl

theorem mem_quoted (h : (quoted cs).found.pattern? = some P) :
    '"' :: cs.take (quoted cs).more ∈ P.language := by
  rcases hbody : quotedBody cs with ⟨n, _ | _⟩
  · simp only [quoted, hbody] at h
    cases h
  · obtain ⟨body, hunits, htake⟩ := mem_quotedBody hbody
    simp only [quoted, hbody, if_true] at h ⊢
    cases h
    exact mem_text.mpr ⟨body, hunits, by rw [htake]⟩

theorem front_of_symbol (h : s.text.toList <+: c :: cs) :
    front c cs = symbol c cs := by
  obtain ⟨rest, hrest⟩ := h
  cases s <;> cases hrest <;> rfl

theorem mem_symbol (h : (symbol c cs).found.pattern? = some P) :
    c :: cs.take (symbol c cs).more ∈ P.language := by
  cases hleading : Symbol.leading? (c :: cs) with
  | none =>
    simp only [symbol, hleading] at h
    cases h
  | some s =>
    simp only [symbol, hleading] at h ⊢
    cases h
    exact mem_literal.mpr (text_of_leading? hleading).symm

theorem mem_symbols (s : Symbol) : s ∈ Symbol.all := by
  cases s <;> decide

theorem length_le_leading? (h : s.text.toList <+: cs) :
    ∃ t, Symbol.leading? cs = some t ∧ s.text.length ≤ t.text.length := by
  have hs : s.text.toList.isPrefixOf cs = true := List.isPrefixOf_iff_prefix.mpr h
  have hsorted : Symbol.all.Pairwise fun s t => t.text.length ≤ s.text.length := by decide
  cases hleading : Symbol.leading? cs with
  | none => exact absurd hs (List.find?_eq_none.mp hleading s (mem_symbols s))
  | some t =>
    refine ⟨t, rfl, ?_⟩
    obtain ⟨-, before, after, hall, hbefore⟩ := List.find?_eq_some_iff_append.mp hleading
    have hmem := mem_symbols s
    rw [hall] at hmem hsorted
    rcases List.mem_append.mp hmem with hmem | hmem
    · have hskipped := hbefore s hmem
      rw [hs] at hskipped
      cases hskipped
    · rcases List.mem_cons.mp hmem with rfl | hmem
      · exact Nat.le_refl _
      · exact (List.pairwise_cons.mp (List.pairwise_append.mp hsorted).2.1).1 s hmem

theorem mem_front (h : (front c cs).found.pattern? = some P) :
    c :: cs.take (front c cs).more ∈ P.language := by
  by_cases hblank : isBlank c = true
  · rw [front_blank hblank] at h ⊢
    cases h
    have hall : ∀ d ∈ c :: cs.takeWhile isBlank, isBlank d = true :=
      List.forall_mem_cons.mpr ⟨hblank, List.all_eq_true.mp List.all_takeWhile⟩
    rw [take_takeWhile]
    exact mem_skipped.mpr (.inl ⟨List.cons_ne_nil _ _, hall⟩)
  by_cases hcomment : c = '#'
  · subst hcomment
    rw [front_comment] at h ⊢
    cases h
    rw [take_takeWhile]
    refine mem_skipped.mpr (.inr ⟨_, rfl, fun hfeed => ?_⟩)
    exact absurd (List.all_eq_true.mp List.all_takeWhile _ hfeed) (by decide)
  by_cases hstart : isWordStart c = true
  · rw [front_word hstart] at h ⊢
    exact mem_word_front hstart h
  by_cases hquote : c = '"'
  · subst hquote
    exact mem_quoted h
  by_cases hdigit : c.isDigit = true
  · rw [front_digit hdigit] at h ⊢
    rw [← take_numeral_cons false hdigit]
    exact mem_numeral (.inl rfl) (by simp [hdigit]) h
  by_cases hnegative : c = '-' ∧ ∃ d ds, cs = d :: ds ∧ d.isDigit = true
  · obtain ⟨rfl, d, ds, rfl, hd⟩ := hnegative
    rw [front_minus hd] at h ⊢
    exact mem_numeral (.inr rfl) (by simp [hd]) h
  · rw [front_other hblank hcomment hstart hquote hdigit hnegative] at h ⊢
    exact mem_symbol h

structure Reads (m : Munch) (n : Nat) : Prop where
  length : n ≤ m.more + 1
  legal : m.found.pattern? ≠ none

theorem reads_words {v : List Char} {ws : List (List Char)}
    (hv : IsWord (String.ofList v)) (hws : ∀ u ∈ ws, IsWord (String.ofList u))
    (h : v ++ ws.flatMap ('.' :: ·) ++ rest = c :: cs) :
    Reads (front c cs) (v ++ ws.flatMap ('.' :: ·)).length := by
  obtain ⟨d, ds, hds, hd, hpart⟩ := hv
  rw [String.toList_ofList] at hds
  subst hds
  rw [List.cons_append, List.cons_append, List.append_assoc] at h
  cases h
  rw [front_word hd]
  refine ⟨?_, Option.some_ne_none _⟩
  rw [more_word, List.cons_append, List.length_cons]
  exact Nat.succ_le_succ (length_le_dottedWords hpart hws rest)

theorem pattern?_numeral (negative : Bool) (cs : List Char) :
    (numeral negative cs).2.pattern? ≠ none := by
  rcases numeral_cases negative cs with ⟨fraction, tail, -, -, -, h⟩ | h
  · rw [h]
    exact Option.some_ne_none _
  · rw [h, pattern?_integer]
    exact Option.some_ne_none _

theorem reads_numeral {sgn : List Char} (hsgn : sgn ∈ sign)
    (hbody : ∃ d ds, body = d :: ds ∧ d.isDigit = true)
    (hlength : ∀ negative, body.length ≤ (numeral negative (body ++ rest)).1)
    (h : sgn ++ body ++ rest = c :: cs) :
    Reads (front c cs) (sgn ++ body).length := by
  obtain ⟨d, ds, rfl, hd⟩ := hbody
  rcases mem_sign.mp hsgn with rfl | rfl
  · cases h
    rw [front_digit hd]
    refine ⟨?_, pattern?_numeral _ _⟩
    have hlength := hlength false
    exact Nat.le_add_of_sub_le (Nat.sub_le_sub_right hlength 1)
  · cases h
    change Reads (front '-' (d :: (ds ++ rest))) _
    rw [front_minus hd]
    exact ⟨Nat.succ_le_succ (hlength true), pattern?_numeral _ _⟩

theorem exists_digit {ds : List Char} (h : ds ∈ digits) (tail : List Char) :
    ∃ e es, ds ++ tail = e :: es ∧ e.isDigit = true := by
  obtain ⟨hne, hdigit⟩ := mem_digits.mp h
  obtain ⟨e, es, rfl⟩ := List.exists_cons_of_ne_nil hne
  exact ⟨e, es ++ tail, rfl, hdigit e List.mem_cons_self⟩

theorem reads_quoted (hbody : body ∈ quotedUnit∗)
    (h : '"' :: (body ++ ['"']) ++ rest = c :: cs) :
    Reads (front c cs) ('"' :: (body ++ ['"'])).length := by
  rw [List.cons_append, List.append_assoc] at h
  cases h
  have hclosed := quotedBody_of_mem hbody rest
  rw [front_quote, List.singleton_append]
  simp only [quoted, hclosed, if_true]
  exact ⟨by simp, Option.some_ne_none _⟩

theorem reads_symbol (h : s.text.toList <+: c :: cs) :
    Reads (front c cs) s.text.toList.length := by
  obtain ⟨t, hleading, hlength⟩ := length_le_leading? h
  rw [front_of_symbol h, String.length_toList]
  simp only [Munch.symbol, hleading]
  exact ⟨Nat.le_add_of_sub_le (Nat.sub_le_sub_right hlength 1), Option.some_ne_none _⟩

theorem reads_skipped
    (hw : (w ≠ [] ∧ ∀ d ∈ w, isBlank d = true) ∨ ∃ body, w = '#' :: body ∧ '\n' ∉ body)
    (h : w ++ rest = c :: cs) :
    Reads (front c cs) w.length := by
  rcases hw with ⟨hne, hblank⟩ | ⟨body, rfl, hfeed⟩
  · obtain ⟨d, ds, rfl⟩ := List.exists_cons_of_ne_nil hne
    cases h
    obtain ⟨hd, hds⟩ := List.forall_mem_cons.mp hblank
    rw [front_blank hd]
    exact ⟨Nat.succ_le_succ (length_le_takeWhile hds rest), Option.some_ne_none _⟩
  · cases h
    have hline : ∀ d ∈ body, (d != '\n') = true := by
      intro d hd
      rw [bne_iff_ne]
      rintro rfl
      exact hfeed hd
    rw [front_comment]
    exact ⟨Nat.succ_le_succ (length_le_takeWhile hline rest), Option.some_ne_none _⟩

/-- No pattern matches more of a text than is read at its front. -/
theorem reads_front (hw : w ∈ P.language)
    (h : w <+: c :: cs) : Reads (front c cs) w.length := by
  obtain ⟨rest, hrest⟩ := h
  have hword : IsWord (String.ofList w) → Reads (front c cs) w.length := by
    intro hword
    have hsingle : w ++ [].flatMap ('.' :: ·) ++ rest = c :: cs := by
      rw [List.flatMap_nil, List.append_nil, hrest]
    have hreads := reads_words hword (fun u hu => by cases hu) hsingle
    rwa [List.flatMap_nil, List.append_nil] at hreads
  cases P with
  | keyword k => exact hword (IsReserved.isWord (P := .keyword k) trivial hw)
  | boolean b => exact hword (IsReserved.isWord (P := .boolean b) trivial hw)
  | ident => exact hword (mem_word.mp hw)
  | qualified =>
    obtain ⟨v, ws, hv, -, hws, rfl⟩ := mem_qualified.mp hw
    exact reads_words hv hws hrest
  | integer =>
    obtain ⟨sgn, hsgn, ds, hds, rfl⟩ := mem_integer.mp hw
    have hbody := exists_digit hds []
    rw [List.append_nil] at hbody
    refine reads_numeral hsgn hbody (fun negative => ?_) hrest
    exact (length_le_takeWhile (mem_digits.mp hds).2 rest).trans
      (length_whole_le_numeral negative _)
  | float =>
    obtain ⟨sgn, hsgn, whole, hwhole, fraction, hfraction, tail, htail, rfl⟩ := mem_float.mp hw
    exact reads_numeral hsgn (exists_digit hwhole _)
      (fun negative => length_le_numeral negative hwhole hfraction htail rest) hrest
  | text =>
    obtain ⟨body, hbody, rfl⟩ := mem_text.mp hw
    exact reads_quoted hbody hrest
  | symbol s =>
    cases mem_literal.mp hw
    exact reads_symbol ⟨rest, hrest⟩
  | skipped => exact reads_skipped (mem_skipped.mp hw) hrest

theorem pattern?_front_of_reserved (hP : P.IsReserved)
    (h : c :: cs.take (front c cs).more ∈ P.language) :
    (front c cs).found.pattern? =
      some (if (cs.drop (front c cs).more).head? = some '.' then .ident else P) := by
  have hword := hP.isWord h
  have hstart : isWordStart c = true := by
    obtain ⟨d, ds, hds, hd, -⟩ := hword
    rw [String.toList_ofList] at hds
    cases hds
    exact hd
  rw [front_word hstart] at h hword ⊢
  have htail : dottedWords (cs.dropWhile isWordPart) = [] := by
    have hdot := hword.not_mem (c := '.') (by decide)
    rw [String.toList_ofList, take_word] at hdot
    cases hwords : dottedWords (cs.dropWhile isWordPart) with
    | nil => rfl
    | cons w ws => simp [hwords] at hdot
  rw [take_word, htail, List.flatMap_nil, List.append_nil] at h
  rw [drop_word htail]
  simp only [word, htail, List.getLast?_nil, Found.pattern?]
  split
  · rfl
  · rw [plainWord_of_mem hP h]

end Munch

end PipelineLang
