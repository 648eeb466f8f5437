import PipelineLang.Proofs.Interface.SourceText
import PipelineLang.Proofs.Target.Lexical

/-! What the constants of a source are written as. Each is written as one literal of its own kind
and value, except for an infinite number, which is written as the name `inf`, and a text with a null
character, which no code can hold. -/

namespace PipelineLang

variable {c : Char} {cs : List Char} {x : Double}

namespace Python

inductive Literal where
  | integer (value : Int)
  | float (negative : Bool) (chars : List Char)
  | text (value : String)
  | boolean (value : Bool)
deriving DecidableEq

/-- The literal that a token is, with or without a minus sign in front. Only numbers have a sign. -/
def Token.literal? (negative : Bool) : Token → Option Literal
  | .integer n => some (.integer (if negative then -n else n))
  | .float chars => some (.float negative chars)
  | .text s => if negative then none else some (.text s)
  | .word w =>
    if negative then none
    else if w = "True" then some (.boolean true)
    else if w = "False" then some (.boolean false)
    else none
  | .symbol _ => none

def whole? (cs : List Char) : Option Token :=
  (token? cs).bind fun found => if found.2.isEmpty then some found.1 else none

def literal? (cs : List Char) : Option Literal :=
  if '\x00' ∈ cs then none
  else if cs.head? = some '-' then (whole? cs.tail).bind (Token.literal? true)
  else (whole? cs).bind (Token.literal? false)

/-- Of the same kind; integers, texts and truth values are also equal, and floats have the same
sign. -/
def Literal.Denotes : Literal → Constant → Prop
  | .integer n, .integer m => n = m
  | .float negative _, .float x => negative = x.negative
  | .text s, .text t => s = t
  | .boolean a, .boolean b => a = b
  | _, _ => False

theorem literal?_signed {t : Token} (h : IsToken cs t) (hnull : '\x00' ∉ cs) (negative : Bool) :
    literal? (if negative then '-' :: cs else cs) = t.literal? negative := by
  have hwhole : whole? cs = some t := by
    rw [whole?, h.whole]
    rfl
  obtain ⟨c, tail, rfl, hc⟩ := h.starts
  have hminus : c ≠ '-' := ne_of_goesOn hc (by decide)
  cases negative with
  | true =>
    have hsigned : '\x00' ∉ '-' :: c :: tail := by simpa using hnull
    rw [if_pos rfl, literal?, if_neg hsigned, List.head?_cons, if_pos rfl, List.tail_cons, hwhole,
      Option.bind_some]
  | false =>
    have hunsigned : (c :: tail).head? ≠ some '-' := by simpa using hminus
    rw [if_neg (by decide), literal?, if_neg hnull, if_neg hunsigned, hwhole, Option.bind_some]

theorem notMem_of_isDigit {ds : List Char} (h : ∀ d ∈ ds, d.isDigit = true)
    (hc : c.isDigit = false) :
    c ∉ ds := by
  intro hmem
  rw [h c hmem] at hc
  cases hc

theorem IsFloat.notMem (h : IsFloat cs) (hdigit : c.isDigit = false)
    (hmark : c ∉ ['.', 'e', '-']) : c ∉ cs := by
  obtain ⟨whole, fraction, power, rfl, -, hwhole, hfraction, hpower, -⟩ := h
  simp only [List.mem_cons, List.not_mem_nil, or_false, not_or] at hmark
  have hnoFraction : c ∉ fraction := by
    rcases hfraction with rfl | ⟨ds, rfl, hds⟩
    · exact List.not_mem_nil
    · simpa [hmark] using notMem_of_isDigit hds hdigit
  have hnoPower : c ∉ power := by
    rcases hpower with rfl | ⟨sign, ds, rfl, hsign, -, hds⟩
    · exact List.not_mem_nil
    · rcases hsign with rfl | rfl <;> simpa [hmark] using notMem_of_isDigit hds hdigit
  simp [notMem_of_isDigit hwhole hdigit, hnoFraction, hnoPower]

theorem notMem_magnitudeChars (x : Double) (hdigit : c.isDigit = false)
    (hmark : c ∉ ['.', 'e', '-', 'i', 'n', 'f']) : c ∉ magnitudeChars x := by
  unfold magnitudeChars
  split
  · have hword : ['i', 'n', 'f'] ⊆ ['.', 'e', '-', 'i', 'n', 'f'] := by simp
    exact fun hmem => hmark (hword hmem)
  · have hmarks : ['.', 'e', '-'] ⊆ ['.', 'e', '-', 'i', 'n', 'f'] := by simp
    exact (isFloat_unsigned x).notMem hdigit fun hmem => hmark (hmarks hmem)

theorem null_mem_escapeChar : '\x00' ∈ Target.escapeChar c ↔ c = '\x00' := by
  unfold Target.escapeChar
  grind

theorem null_mem_quote {s : String} : '\x00' ∈ (Target.quote s).toList ↔ '\x00' ∈ s.toList := by
  simp [Target.quote, Target.quoteChars, null_mem_escapeChar]

/-- The text in single quotes with which a text begins, and what stands behind it. -/
def singleQuoted? (cs : List Char) : Option (String × List Char) :=
  if cs.head? = some '\'' then (body? '\'' cs.tail).map fun b => (String.ofList b.1, b.2) else none

/-- In front of any text, a quoted text is read back and ends where its last mark stands. It breaks
no line, and comments are looked for behind it only. -/
theorem quote_self_delimiting (s : String) (rest : List Char) :
    singleQuoted? ((Target.quote s).toList ++ rest) = some (s, rest) ∧
      ('\n' ∉ (Target.quote s).toList ∧ '\r' ∉ (Target.quote s).toList) ∧
      SourceText.stripComments none ((Target.quote s).toList ++ rest) =
        (Target.quote s).toList ++ SourceText.stripComments none rest := by
  refine ⟨?_, SourceText.notMem_quote s, ?_⟩
  · have htext : (Target.quote s).toList ++ rest =
        '\'' :: (s.toList.flatMap Target.escapeChar ++ '\'' :: rest) := by
      simp [Target.quote, Target.quoteChars]
    rw [htext, singleQuoted?, List.head?_cons, if_pos rfl, List.tail_cons, body?_flatMap,
      Option.map_some, String.ofList_toList]
  · apply SourceText.stripComments_append
    rw [Target.quote, String.toList_ofList, SourceText.quoteAfter_quoteChars]

theorem literal?_integer (n : Int) :
    literal? (Target.constant (.integer n)).toList = some (.integer n) := by
  rw [Target.constant, toList_integerText,
    literal?_signed (isToken_integer n.natAbs) (notMem_of_isDigit (isDigit_toDigits _) (by decide))]
  simp only [Token.literal?, decide_eq_true_eq, Option.some.injEq, Literal.integer.injEq]
  split <;> omega

theorem literal?_float (h : x.isNumber = true) :
    literal? (Target.constant (.float x)).toList =
      if x.isInfinite then none else some
        (.float x.negative (NumeralStyle.literal.unsigned x)) := by
  rw [Target.constant, toList_text h,
    literal?_signed (isToken_magnitudeChars x) (notMem_magnitudeChars x (by decide) (by decide))]
  by_cases hinfinite : x.isInfinite = true
  · rw [if_pos hinfinite, if_pos hinfinite]
    cases x.negative <;> rfl
  · rw [if_neg hinfinite, if_neg hinfinite]
    rfl

theorem literal?_text (s : String) :
    literal? (Target.constant (.text s)).toList =
      if '\x00' ∈ s.toList then none else some (.text s) := by
  rw [Target.constant]
  by_cases hnull : '\x00' ∈ s.toList
  · rw [if_pos hnull, literal?, if_pos (null_mem_quote.mpr hnull)]
  · rw [if_neg hnull]
    exact literal?_signed (isToken_quote s) (fun hmem => hnull (null_mem_quote.mp hmem)) false

theorem literal?_boolean (b : Bool) :
    literal? (Target.constant (.boolean b)).toList = some (.boolean b) := by
  have htoken := isToken_booleanText b
  have hnull : '\x00' ∉ (Constant.booleanText b).toList := by cases b <;> decide
  rw [Target.constant]
  refine (literal?_signed htoken hnull false).trans ?_
  cases b <;> rfl

end Python

theorem Double.isNumber_ofDecimal (negative : Bool) (digits : Nat) (exponent : Int) :
    (Double.ofDecimal negative digits exponent).isNumber = true := by
  have hnearest (num den : Nat) : Double.nearestMagnitude num den ≤ Double.infiniteMagnitude := by
    unfold Double.nearestMagnitude
    exact Nat.min_le_right _ _
  unfold Double.isNumber Double.ofDecimal
  apply decide_eq_true
  simp only
  split
  · exact Nat.zero_le _
  split
  · exact Nat.le_refl _
  split
  · exact Nat.zero_le _
  · exact hnearest _ _

namespace Munch

theorem isNumber_of_numeral {negative : Bool}
    (h : (numeral negative cs).2 = .token (.constant (.float x))) : x.isNumber = true := by
  unfold numeral integer at h
  have hdecimal := @Double.isNumber_ofDecimal negative
  grind

theorem isNumber_of_front
    (h : (front c cs).found = .token (.constant (.float x))) : x.isNumber = true := by
  unfold front at h
  split at h
  · cases h
  split at h
  · cases h
  split at h
  · unfold word plainWord at h
    grind
  split at h
  · unfold quoted at h
    grind
  split at h
  · exact isNumber_of_numeral h
  split at h
  · exact isNumber_of_numeral h
  · obtain ⟨sign, hsign⟩ := symbol_of_symbol h
    cases hsign

end Munch

theorem isNumber_of_mem {source : String} {l : Lexeme} (h : l ∈ (Scan.ofSource source).lexemes)
    (hx : l.token = .constant (.float x)) : x.isNumber = true := by
  obtain ⟨p, hp, hl⟩ := List.mem_filterMap.mp h
  obtain ⟨c, rest, -, hfound⟩ := mem_pieces hp
  unfold Piece.lexeme? at hl
  split at hl
  · rename_i t ht
    cases hl
    cases hx
    exact Munch.isNumber_of_front (hfound ▸ ht)
  · cases hl

/-- A finite number, a text without a null character, or a truth value. -/
def Constant.HasLiteral : Constant → Prop
  | .float x => x.isInfinite = false
  | .text s => '\x00' ∉ s.toList
  | _ => True

/-- A constant of a source is written as a literal of its kind and value exactly if it has one. -/
theorem Scan.constants_literal_iff {source : String} {l : Lexeme}
    (hl : l ∈ (Scan.ofSource source).lexemes) {value : Constant}
    (hvalue : l.token = .constant value) :
    ((Python.literal? (Target.constant value).toList).isSome ↔ value.HasLiteral) ∧
    (∀ literal, Python.literal? (Target.constant value).toList = some literal →
      literal.Denotes value) ∧
    ∀ x : Double, value = .float x → x.isInfinite = true →
      Python.tokens? (Target.constant value).toList =
        some (Python.signTokens x.negative ++ [.word "inf"]) := by
  refine ⟨?_, ?_, ?_⟩
  · cases value with
    | integer n => simp [Python.literal?_integer, Constant.HasLiteral]
    | float x => simp [Python.literal?_float (isNumber_of_mem hl hvalue), Constant.HasLiteral]
    | text s => simp [Python.literal?_text, Constant.HasLiteral]
    | boolean b => simp [Python.literal?_boolean, Constant.HasLiteral]
  · intro literal hliteral
    cases value with
    | integer n =>
      rw [Python.literal?_integer] at hliteral
      cases hliteral
      rfl
    | float x =>
      rw [Python.literal?_float (isNumber_of_mem hl hvalue)] at hliteral
      split at hliteral <;> cases hliteral
      rfl
    | text s =>
      rw [Python.literal?_text] at hliteral
      split at hliteral <;> cases hliteral
      rfl
    | boolean b =>
      rw [Python.literal?_boolean] at hliteral
      cases hliteral
      rfl
  · rintro x rfl hinfinite
    have hnumber := isNumber_of_mem hl hvalue
    rw [(Python.spells_constant _).tokens]
    simp [Python.constantTokens, hnumber, hinfinite]

/-- Marks, backslashes and line ends of a text are still there when the literal is read. -/
theorem Scan.quotedText_literal :
    ∃ l ∈ (Scan.ofSource " \"it's \\\\ \\n\" ").lexemes, l.token = .constant (.text "it's \\ \n") ∧
      Python.literal? (Target.constant (.text "it's \\ \n")).toList =
        some (.text "it's \\ \n") := by
  have hl : (⟨.constant (.text "it's \\ \n"), "\"it's \\\\ \\n\"", ⟨1, 13⟩⟩ : Lexeme) ∈
      (Scan.ofSource " \"it's \\\\ \\n\" ").lexemes := by decide +kernel
  obtain ⟨hsome, hdenotes, -⟩ := Scan.constants_literal_iff hl rfl
  have hplain : Constant.HasLiteral (.text "it's \\ \n") := by simp [Constant.HasLiteral]
  obtain ⟨literal, hliteral⟩ := Option.isSome_iff_exists.mp (hsome.mpr hplain)
  have hvalue := hdenotes literal hliteral
  refine ⟨_, hl, rfl, hliteral.trans ?_⟩
  cases literal with
  | text s => rw [show s = _ from hvalue]
  | integer n => cases hvalue
  | float negative chars => cases hvalue
  | boolean b => cases hvalue

/-- The numeral is read as an infinite number, and written as a name. -/
theorem Scan.largeNumeral_not_literal :
    ∃ l ∈ (Scan.ofSource "1.0e999").lexemes, ∃ value, l.token = .constant value ∧
      Target.constant value = "inf" ∧ Python.literal? (Target.constant value).toList = none ∧
      Python.tokens? (Target.constant value).toList = some [.word "inf"] := by
  refine ⟨⟨.constant (.float ⟨false, Double.infiniteMagnitude⟩), "1.0e999",
    ⟨0, 7⟩⟩, by decide +kernel, _, rfl, ?_⟩
  refine ⟨by decide +kernel, by decide +kernel, ?_⟩
  exact (Python.spells_constant _).tokens

end PipelineLang
