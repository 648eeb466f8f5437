import PipelineLang.Proofs.Json.Roundtrip
import PipelineLang.Proofs.Token.Spelling
import PipelineLang.Target.Literal

/-! The tokens of a line of code, as Python cuts it, and the tokens that written constants are cut
into. A text shows tokens if they are found in front of whatever follows; it spells them if they are
found in front of whatever does not go on with a word, a numeral or a quote. -/

namespace PipelineLang.Python

inductive Token where
  | word (text : String)
  | integer (value : Nat)
  | float (chars : List Char)
  | text (value : String)
  | symbol (chars : List Char)
deriving DecidableEq

/-- Operators and delimiters, longer ones first. -/
def symbols : List (List Char) :=
  [['*', '*', '='], ['/', '/', '='], ['<', '<', '='], ['>', '>', '='],
    ['*', '*'], ['/', '/'], ['<', '<'], ['>', '>'], ['<', '='], ['>', '='], ['=', '='], ['!', '='],
    ['-', '>'], [':', '='], ['+', '='], ['-', '='], ['*', '='], ['/', '='], ['%', '='], ['&', '='],
    ['|', '='], ['^', '='], ['@', '='], ['+'], ['-'], ['*'], ['/'], ['%'], ['@'], ['&'], ['|'],
    ['^'], ['~'], ['<'], ['>'], ['('], [')'], ['['], [']'], ['\x7b'], ['\x7d'], [','], [':'], [';'],
    ['=']]

/-- The characters that a word, a numeral or a quoted text could go on with. -/
def goesOn (c : Char) : Bool := Munch.isWordPart c || c = '.' || c = '\'' || c = '"'

def Stops (cs : List Char) : Prop := ∀ c ∈ cs.head?, goesOn c = false

instance (cs : List Char) : Decidable (Stops cs) :=
  decidable_of_iff (cs.head?.all (fun c => !goesOn c) = true) (by cases cs <;> simp [Stops])

def fractional : List Char → List Char
  | '.' :: cs => '.' :: cs.takeWhile Char.isDigit
  | _ => []

def exponent : List Char → List Char
  | e :: cs =>
    if e = 'e' || e = 'E' then
      let sign := cs.takeWhile fun c => c = '-' || c = '+'
      let digits := (cs.drop sign.length).takeWhile Char.isDigit
      if sign.length ≤ 1 && !digits.isEmpty then e :: (sign ++ digits) else []
    else []
  | [] => []

/-- The decimal numeral with which a text begins. Numerals of other forms, with underscores, with a
base or with leading zeros, are not read. -/
def numeral? (cs : List Char) : Option (Token × List Char) :=
  let whole := cs.takeWhile Char.isDigit
  let behind := cs.dropWhile Char.isDigit
  let fraction := fractional behind
  let power := exponent (behind.drop fraction.length)
  let rest := behind.drop (fraction.length + power.length)
  if Stops rest then
    if fraction.isEmpty && power.isEmpty then
      if whole.head? = some '0' && 1 < whole.length then none
      else some (.integer (Nat.ofDigitChars 10 whole 0), rest)
    else some (.float (whole ++ fraction ++ power), rest)
  else none

/-- The character that is meant by one behind a backslash. Escapes by number or name are not
read. -/
def escaped? (c : Char) : Option Char :=
  if c = '\\' || c = '\'' || c = '"' then some c
  else if c = 'n' then some '\n'
  else if c = 't' then some '\t'
  else if c = 'r' then some '\r'
  else none

/-- The text up to the mark that ends it, and what stands behind the mark. -/
def body? (mark : Char) : List Char → Option (List Char × List Char)
  | [] => none
  | ['\\'] => none
  | '\\' :: e :: cs =>
    match escaped? e, body? mark cs with
    | some c, some (value, rest) => some (c :: value, rest)
    | _, _ => none
  | c :: cs =>
    if c = mark then some ([], cs)
    else if c = '\n' || c = '\r' then none
    else (body? mark cs).map fun b => (c :: b.1, b.2)

/-- The quoted text with which a text begins, behind its first mark. Marks are not tripled. -/
def quoted? (mark : Char) (cs : List Char) : Option (Token × List Char) :=
  match body? mark cs with
  | some (value, rest) =>
    if value.isEmpty && rest.head? = some mark then none else some (.text (String.ofList value),
      rest)
  | none => none

/-- The token with which a text begins, and the text behind it. -/
def token? : List Char → Option (Token × List Char)
  | [] => none
  | c :: cs =>
    if Munch.isWordStart c then
      let rest := cs.dropWhile Munch.isWordPart
      -- a word right in front of a quote tells how the text is quoted
      if rest.head? = some '\'' || rest.head? = some '"' then none
      else some (.word (String.ofList (c :: cs.takeWhile Munch.isWordPart)), rest)
    else if c.isDigit then numeral? (c :: cs)
    else if c = '\'' || c = '"' then quoted? c cs
    else (symbols.find? fun s => s.isPrefixOf (c :: cs)).map fun s => (.symbol s,
      (c :: cs).drop s.length)

def tokens? : List Char → Option (List Token)
  | [] => some []
  | c :: cs =>
    if c = ' ' || c = '\t' then tokens? cs
    else
      match token? (c :: cs) with
      | none => none
      | some (t, rest) => if rest.length ≤ cs.length then (tokens? rest).map (t :: ·) else none
termination_by cs => cs.length

/-- In front of any text these tokens are found. -/
def Shows (cs : List Char) (ts : List Token) : Prop :=
  ∀ rest, tokens? (cs ++ rest) = (tokens? rest).map (ts ++ ·)

/-- In front of any text that does not go on with the last token these tokens are found. -/
def Spells (cs : List Char) (ts : List Token) : Prop :=
  ∀ rest, Stops rest → tokens? (cs ++ rest) = (tokens? rest).map (ts ++ ·)

section Pieces

variable {cs ds : List Char} {ts us : List Token}

theorem Shows.spells (h : Shows cs ts) : Spells cs ts := fun rest _ => h rest

theorem Shows.append (h : Shows cs ts) (k : Shows ds us) : Shows (cs ++ ds) (ts ++ us) := by
  intro rest
  rw [List.append_assoc, h, k, Option.map_map]
  simp only [Function.comp_def, List.append_assoc]

theorem Shows.append_spells (h : Shows cs ts) (k : Spells ds us) :
    Spells (cs ++ ds) (ts ++ us) := by
  intro rest hrest
  rw [List.append_assoc, h, k rest hrest, Option.map_map]
  simp only [Function.comp_def, List.append_assoc]

theorem Spells.append (h : Spells cs ts) (hstops : ∀ rest, Stops (ds ++ rest)) (k : Shows ds us) :
    Shows (cs ++ ds) (ts ++ us) := by
  intro rest
  rw [List.append_assoc, h _ (hstops rest), k, Option.map_map]
  simp only [Function.comp_def, List.append_assoc]

theorem Spells.tokens (h : Spells cs ts) : tokens? cs = some ts := by
  have hcs := h [] (by decide)
  simpa [tokens?] using hcs

theorem shows_blank : Shows [' '] [] := by
  intro rest
  rw [List.singleton_append, tokens?, if_pos (by decide)]
  simp

theorem tokens?_of_token? {c : Char} {rest : List Char} {t : Token} (hblank : c ≠ ' ' ∧ c ≠ '\t')
    (h : token? (c :: (cs ++ rest)) = some (t, rest)) :
    tokens? (c :: (cs ++ rest)) = (tokens? rest).map (t :: ·) := by
  have hlength : rest.length ≤ (cs ++ rest).length := by simp
  rw [tokens?, if_neg (by simpa using hblank), h]
  simp only [hlength, if_true]

theorem shows_symbol {c : Char} (hblank : c ≠ ' ' ∧ c ≠ '\t')
    (h : ∀ rest, token? (c :: (cs ++ rest)) = some (.symbol (c :: cs), rest)) :
    Shows (c :: cs) [.symbol (c :: cs)] := by
  intro rest
  rw [List.cons_append, tokens?_of_token? hblank (h rest)]
  rfl

/-- The text is one token, a word, a numeral or a quoted text, in front of whatever does not go on
with it. -/
structure IsToken (cs : List Char) (t : Token) : Prop where
  starts : ∃ c tail, cs = c :: tail ∧ goesOn c = true
  token : ∀ rest, Stops rest → token? (cs ++ rest) = some (t, rest)

theorem ne_of_goesOn {c d : Char} (h : goesOn c = true) (hd : goesOn d = false) : c ≠ d := by
  rintro rfl
  rw [h] at hd
  cases hd

theorem IsToken.spells {t : Token} (h : IsToken cs t) : Spells cs [t] := by
  intro rest hrest
  obtain ⟨c, tail, rfl, hc⟩ := h.starts
  have htoken := h.token rest hrest
  have hblank : c ≠ ' ' ∧ c ≠ '\t' := ⟨ne_of_goesOn hc (by decide), ne_of_goesOn hc (by decide)⟩
  rw [List.cons_append, tokens?_of_token? hblank htoken]
  rfl

theorem IsToken.whole {t : Token} (h : IsToken cs t) : token? cs = some (t, []) := by
  have htoken := h.token [] (by decide)
  rwa [List.append_nil] at htoken

end Pieces

theorem shows_open : Shows ['('] [.symbol ['(']] := shows_symbol (by decide) fun _ => rfl

theorem shows_close : Shows [')'] [.symbol [')']] := shows_symbol (by decide) fun _ => rfl

theorem shows_openBracket : Shows ['['] [.symbol ['[']] := shows_symbol (by decide) fun _ => rfl

theorem shows_closeBracket : Shows [']'] [.symbol [']']] := shows_symbol (by decide) fun _ => rfl

theorem shows_spaced (c : Char) (cs : List Char) (hblank : c ≠ ' ' ∧ c ≠ '\t')
    (h : ∀ rest, token? (c :: (cs ++ ' ' :: rest)) = some (.symbol (c :: cs), ' ' :: rest)) :
    Shows (' ' :: (c :: cs ++ [' '])) [.symbol (c :: cs)] := by
  intro rest
  have htokens := tokens?_of_token? hblank (h rest)
  have hbehind := shows_blank rest
  rw [List.singleton_append] at hbehind
  have htext : ' ' :: (c :: cs ++ [' ']) ++ rest = [' '] ++ (c :: (cs ++ ' ' :: rest)) := by simp
  rw [htext, shows_blank, htokens, hbehind, Option.map_map, Option.map_map]
  rfl

section Words

variable {c : Char} {cs : List Char}

theorem Stops.takeWhile_eq_nil {p : Char → Bool} (hp : ∀ c, p c = true → goesOn c = true)
    {rest : List Char} (h : Stops rest) : rest.takeWhile p = [] := by
  cases rest with
  | nil => rfl
  | cons d rest =>
    have hd : goesOn d = false := h d rfl
    have hpd : ¬p d = true := fun hpd => by simp [hp d hpd] at hd
    exact List.takeWhile_cons_of_neg hpd

theorem Stops.dropWhile_eq {p : Char → Bool} (hp : ∀ c, p c = true → goesOn c = true)
    {rest : List Char} (h : Stops rest) : rest.dropWhile p = rest := by
  have htake := h.takeWhile_eq_nil hp
  have happend := List.takeWhile_append_dropWhile (p := p) (l := rest)
  rwa [htake, List.nil_append] at happend

theorem goesOn_of_isWordPart (h : Munch.isWordPart c = true) :
    goesOn c = true := by simp [goesOn, h]

theorem isToken_word (hc : Munch.isWordStart c = true) (hcs : ∀ d ∈ cs, Munch.isWordPart d = true) :
    IsToken (c :: cs) (.word (String.ofList (c :: cs))) := by
  refine ⟨⟨c, cs, rfl, goesOn_of_isWordPart (Munch.isWordPart_of_isWordStart hc)⟩,
    fun rest hrest => ?_⟩
  have htake : (cs ++ rest).takeWhile Munch.isWordPart = cs := by
    rw [List.takeWhile_append_of_pos hcs, hrest.takeWhile_eq_nil fun _ => goesOn_of_isWordPart,
      List.append_nil]
  have hdrop : (cs ++ rest).dropWhile Munch.isWordPart = rest := by
    rw [List.dropWhile_append_of_pos hcs, hrest.dropWhile_eq fun _ => goesOn_of_isWordPart]
  have hquote : ¬((rest.head? = some '\'' || rest.head? = some '"') = true) := by
    intro hquote
    simp only [Bool.or_eq_true, decide_eq_true_eq] at hquote
    rcases hquote with hquote | hquote
    · exact absurd (hrest '\'' hquote) (by decide)
    · exact absurd (hrest '"' hquote) (by decide)
  rw [List.cons_append, token?, if_pos hc, hdrop, htake, if_neg hquote]

end Words

section Numerals

variable {whole fraction power rest : List Char}

def IsFraction (cs : List Char) : Prop :=
  cs = [] ∨ ∃ ds, cs = '.' :: ds ∧ ∀ d ∈ ds, d.isDigit = true

def IsPower (cs : List Char) : Prop :=
  cs = [] ∨ ∃ sign ds, cs = 'e' :: (sign ++ ds) ∧ (sign = [] ∨ sign = ['-']) ∧ ds ≠ [] ∧ ∀ d ∈ ds,
  d.isDigit = true

theorem takeWhile_isDigit_append {ds : List Char} (hds : ∀ d ∈ ds, d.isDigit = true)
    (h : ∀ c ∈ rest.head?, c.isDigit = false) :
    (ds ++ rest).takeWhile Char.isDigit = ds ∧ (ds ++ rest).dropWhile Char.isDigit = rest := by
  rw [List.takeWhile_append_of_pos hds, List.dropWhile_append_of_pos hds]
  cases rest with
  | nil => simp
  | cons c rest => simp [h c rfl]

theorem Stops.not_isDigit (h : Stops rest) : ∀ c ∈ rest.head?, c.isDigit = false := by
  intro c hc
  have hgoes := h c hc
  rw [Bool.eq_false_iff]
  intro hdigit
  rw [goesOn_of_isWordPart (Munch.isWordPart_of_isDigit hdigit)] at hgoes
  cases hgoes

theorem exponent_append (hpower : IsPower power) (hrest : Stops rest) :
    exponent (power ++ rest) = power := by
  rcases hpower with rfl | ⟨sign, ds, rfl, hsign, hne, hds⟩
  · cases rest with
    | nil => rfl
    | cons c rest =>
      have hc := hrest c rfl
      have hmark : ¬((c = 'e' || c = 'E') = true) := by
        intro hmark
        simp only [Bool.or_eq_true, decide_eq_true_eq] at hmark
        rcases hmark with rfl | rfl <;> exact absurd hc (by decide)
      rw [List.nil_append, exponent, if_neg hmark]
  · obtain ⟨d, tail, rfl⟩ := List.exists_cons_of_ne_nil hne
    have hd : d.isDigit = true := hds d List.mem_cons_self
    have hminus : d ≠ '-' := Json.ne_of_isDigit hd (by decide)
    have hplus : d ≠ '+' := Json.ne_of_isDigit hd (by decide)
    have htake := (takeWhile_isDigit_append hds hrest.not_isDigit).1
    rw [List.cons_append] at htake
    rcases hsign with rfl | rfl <;> simp [exponent, hminus, hplus, htake]

theorem numeral?_append (hwhole : ∀ d ∈ whole, d.isDigit = true) (hfraction : IsFraction fraction)
    (hpower : IsPower power) (hrest : Stops rest) :
    numeral? (whole ++ (fraction ++ (power ++ rest))) =
      if fraction.isEmpty && power.isEmpty then
        if whole.head? = some '0' && 1 < whole.length then none
        else some (.integer (Nat.ofDigitChars 10 whole 0), rest)
      else some (.float (whole ++ fraction ++ power), rest) := by
  have hbehindPower : ∀ c ∈ (power ++ rest).head?, c.isDigit = false ∧ c ≠ '.' := by
    rcases hpower with rfl | ⟨sign, ds, rfl, -⟩
    · intro c hc
      refine ⟨hrest.not_isDigit c hc, ?_⟩
      rintro rfl
      exact absurd (hrest '.' hc) (by decide)
    · simp
  have hbehind : ∀ c ∈ (fraction ++ (power ++ rest)).head?, c.isDigit = false := by
    rcases hfraction with rfl | ⟨ds, rfl, -⟩
    · exact fun c hc => (hbehindPower c hc).1
    · simp
  have hparts : fractional (fraction ++ (power ++ rest)) = fraction := by
    rcases hfraction with rfl | ⟨ds, rfl, hds⟩
    · rw [List.nil_append]
      unfold fractional
      split
      · rename_i tail heq
        exact absurd rfl (hbehindPower '.' (by simp [heq])).2
      · rfl
    · rw [List.cons_append, fractional,
        (takeWhile_isDigit_append hds fun c hc => (hbehindPower c hc).1).1]
  obtain ⟨htake, hdrop⟩ := takeWhile_isDigit_append hwhole hbehind
  have hexponent := exponent_append hpower hrest
  have hlast : (fraction ++ (power ++ rest)).drop (fraction.length + power.length) = rest := by
    rw [← List.append_assoc, ← List.length_append, List.drop_left]
  rw [numeral?]
  simp only [htake, hdrop, hparts, List.drop_left, hexponent, hlast, hrest, if_true]

theorem isToken_of_numeral? {ds : List Char} {t : Token}
    (hds : ∃ d tail, ds = d :: tail ∧ d.isDigit = true)
    (h : ∀ rest, Stops rest → numeral? (ds ++ rest) = some (t, rest)) : IsToken ds t := by
  obtain ⟨d, tail, rfl, hd⟩ := hds
  refine ⟨⟨d, tail, rfl, goesOn_of_isWordPart (Munch.isWordPart_of_isDigit hd)⟩,
    fun rest hrest => ?_⟩
  rw [List.cons_append, token?, if_neg (by simp [Munch.not_isWordStart_of_isDigit hd]), if_pos hd]
  exact h rest hrest

end Numerals

def IsFloat (cs : List Char) : Prop :=
  ∃ whole fraction power, cs = whole ++ (fraction ++ power) ∧ whole ≠ [] ∧
  (∀ d ∈ whole, d.isDigit = true) ∧
    IsFraction fraction ∧ IsPower power ∧ ¬(fraction = [] ∧ power = [])

theorem isDigit_toDigits (n : Nat) : ∀ d ∈ Nat.toDigits 10 n, d.isDigit = true := fun _ hd =>
  Nat.isDigit_of_mem_toDigits (by decide) (by decide) hd

theorem isDigit_replicate_zero (n : Nat) : ∀ d ∈ List.replicate n '0', d.isDigit = true := by
  intro d hd
  rw [(List.mem_replicate.mp hd).2]
  decide

theorem isFloat_scientific {digits : List Char} (hne : digits ≠ [])
    (hdigits : ∀ d ∈ digits, d.isDigit = true) (point : Int) :
    IsFloat (digits.take 1 ++ (if (digits.drop 1).isEmpty then [] else '.' :: digits.drop 1)
      ++ 'e' :: (NumeralStyle.integerText (point - 1)).toList) := by
  refine ⟨digits.take 1, if (digits.drop 1).isEmpty then [] else '.' :: digits.drop 1,
    'e' :: (NumeralStyle.integerText (point - 1)).toList, by simp, by simpa using hne,
    fun d hd => hdigits d (List.mem_of_mem_take hd), ?_, ?_, by simp⟩
  · split
    · exact .inl rfl
    · exact .inr ⟨_, rfl, fun d hd => hdigits d (List.mem_of_mem_drop hd)⟩
  · right
    have hpower := isDigit_toDigits (point - 1).natAbs
    unfold NumeralStyle.integerText
    split
    · exact ⟨['-'], Nat.toDigits 10 (point - 1).natAbs, by simp [NumeralStyle.decimalDigits],
        .inr rfl, Nat.toDigits_ne_nil, hpower⟩
    · exact ⟨[], Nat.toDigits 10 (point - 1).natAbs, by simp [NumeralStyle.decimalDigits], .inl rfl,
        Nat.toDigits_ne_nil, hpower⟩

theorem isFloat_point {whole fraction : List Char} (hne : whole ≠ [])
    (hwhole : ∀ d ∈ whole, d.isDigit = true) (hfraction : ∀ d ∈ fraction, d.isDigit = true) :
    IsFloat (whole ++ '.' :: fraction) :=
  ⟨whole, '.' :: fraction, [], by simp, hne, hwhole, .inr ⟨fraction, rfl,
    hfraction⟩, .inl rfl, by simp⟩

theorem isFloat_positional {digits : List Char} (hne : digits ≠ [])
    (hdigits : ∀ d ∈ digits, d.isDigit = true) (point : Int) :
    let whole := if point ≤ 0 then ['0']
      else digits.take point.toNat ++ List.replicate (point.toNat - digits.length) '0'
    let fraction := if point ≤ 0 then List.replicate (-point).toNat '0' ++ digits else digits.drop
      point.toNat
    IsFloat (if fraction.isEmpty then whole ++ ['.', '0'] else whole ++ '.' :: fraction) := by
  intro whole fraction
  have hwholeNe : whole ≠ [] := by
    by_cases hpoint : point ≤ 0
    · simp [whole, hpoint]
    · have hpos : point.toNat ≠ 0 := by omega
      simp [whole, hpoint, hne, hpos]
  have hwhole : ∀ d ∈ whole, d.isDigit = true := by
    by_cases hpoint : point ≤ 0
    · simp [whole, hpoint]
    · simp only [whole, hpoint, if_false]
      exact List.forall_mem_append.mpr
        ⟨fun d hd => hdigits d (List.mem_of_mem_take hd), isDigit_replicate_zero _⟩
  have hfraction : ∀ d ∈ fraction, d.isDigit = true := by
    by_cases hpoint : point ≤ 0
    · simp only [fraction, hpoint, if_true]
      exact List.forall_mem_append.mpr ⟨isDigit_replicate_zero _, hdigits⟩
    · simp only [fraction, hpoint, if_false]
      exact fun d hd => hdigits d (List.mem_of_mem_drop hd)
  split
  · exact isFloat_point hwholeNe hwhole (List.all_eq_true.mp rfl)
  · exact isFloat_point hwholeNe hwhole hfraction

theorem isFloat_unsigned (d : Double) : IsFloat (NumeralStyle.literal.unsigned d) := by
  unfold NumeralStyle.unsigned
  by_cases hzero : d.magnitude = 0
  · rw [if_pos hzero]
    exact @isFloat_positional ['0'] (by decide) (List.all_eq_true.mp rfl) 1
  · rw [if_neg hzero]
    by_cases hexponent : NumeralStyle.literal.withExponent d.shortest.point = true
    · simp only [hexponent, if_true]
      exact isFloat_scientific Nat.toDigits_ne_nil (isDigit_toDigits _) _
    · simp only [hexponent]
      exact isFloat_positional Nat.toDigits_ne_nil (isDigit_toDigits _) _

theorem isToken_float {cs : List Char} (h : IsFloat cs) : IsToken cs (.float cs) := by
  obtain ⟨whole, fraction, power, rfl, hne, hwhole, hfraction, hpower, hsome⟩ := h
  have hempty : ¬((fraction.isEmpty && power.isEmpty) = true) := by simpa using hsome
  obtain ⟨d, tail, rfl⟩ := List.exists_cons_of_ne_nil hne
  refine isToken_of_numeral? ⟨d, _, rfl, hwhole d List.mem_cons_self⟩ fun rest hrest => ?_
  rw [List.append_assoc, List.append_assoc, numeral?_append hwhole hfraction hpower hrest,
    if_neg hempty, List.append_assoc]

theorem isToken_integer (n : Nat) : IsToken (Nat.toDigits 10 n) (.integer n) := by
  have hdigits := isDigit_toDigits n
  have hzero : ¬((((Nat.toDigits 10 n).head? = some '0' : Bool) &&
      decide (1 < (Nat.toDigits 10 n).length)) = true) := by
    intro hzero
    simp only [Bool.and_eq_true, decide_eq_true_eq] at hzero
    have hpos : 0 < n := by
      apply Nat.pos_of_ne_zero
      rintro rfl
      simp [Nat.toDigits_zero] at hzero
    exact Json.head?_toDigits_ne_zero hpos hzero.1
  obtain ⟨d, tail, hcons⟩ := List.exists_cons_of_ne_nil (Nat.toDigits_ne_nil (b := 10) (n := n))
  refine isToken_of_numeral? ⟨d, tail, hcons, hdigits d (by simp [hcons])⟩ fun rest hrest => ?_
  have hnumeral := numeral?_append hdigits (.inl rfl) (.inl rfl) hrest
  rw [List.nil_append, List.nil_append] at hnumeral
  rw [hnumeral, if_pos (by rfl), if_neg hzero, Nat.ofDigitChars_toDigits (by decide) (by decide)]

theorem body?_plain {mark c : Char} (hslash : c ≠ '\\') (cs : List Char) :
    body? mark (c :: cs) = if c = mark then some ([], cs)
      else if c = '\n' || c = '\r' then none
      else (body? mark cs).map fun b => (c :: b.1, b.2) :=
  body?.eq_4 mark c cs (fun h => absurd h hslash) (fun _ _ h => absurd h hslash)

theorem body?_escaped {mark e c : Char} (h : escaped? e = some c) (cs : List Char) :
    body? mark ('\\' :: e :: cs) = (body? mark cs).map fun b => (c :: b.1, b.2) := by
  rw [body?, h]
  cases body? mark cs <;> rfl

theorem body?_escapeChar (c : Char) (cs : List Char) :
    body? '\'' (Target.escapeChar c ++ cs) = (body? '\'' cs).map fun b => (c :: b.1, b.2) := by
  by_cases hslash : c = '\\'
  · subst hslash
    exact body?_escaped rfl cs
  by_cases hquote : c = '\''
  · subst hquote
    exact body?_escaped rfl cs
  by_cases hline : c = '\n'
  · subst hline
    exact body?_escaped rfl cs
  by_cases htab : c = '\t'
  · subst htab
    exact body?_escaped rfl cs
  by_cases hreturn : c = '\r'
  · subst hreturn
    exact body?_escaped rfl cs
  have hchar : Target.escapeChar c = [c] := by
    simp [Target.escapeChar, hslash, hquote, hline, htab, hreturn]
  rw [hchar, List.singleton_append, body?_plain hslash, if_neg hquote,
    if_neg (by simp [hline, hreturn])]

theorem body?_flatMap (cs rest : List Char) :
    body? '\'' (cs.flatMap Target.escapeChar ++ '\'' :: rest) = some (cs, rest) := by
  induction cs with
  | nil => rfl
  | cons c cs ih =>
    rw [List.flatMap_cons, List.append_assoc, body?_escapeChar, ih]
    rfl

theorem isToken_quote (s : String) : IsToken (Target.quote s).toList (.text s) := by
  have htext : (Target.quote s).toList =
      '\'' :: (s.toList.flatMap Target.escapeChar ++ ['\'']) := by
    simp [Target.quote, Target.quoteChars]
  refine ⟨⟨'\'', _, htext, by decide⟩, fun rest hrest => ?_⟩
  have hmark : rest.head? ≠ some '\'' := fun hmark => absurd (hrest '\'' hmark) (by decide)
  have hquoted : quoted? '\'' (s.toList.flatMap Target.escapeChar ++ '\'' :: rest) =
      some (.text s, rest) := by
    simp [quoted?, body?_flatMap, hmark]
  rw [htext, List.cons_append, List.append_assoc, List.singleton_append, token?, if_neg (by decide),
    if_neg (by decide), if_pos (by decide), hquoted]

theorem token?_minus {c : Char} (hequal : c ≠ '=') (harrow : c ≠ '>') (cs : List Char) :
    token? ('-' :: c :: cs) = some (.symbol ['-'], c :: cs) := by
  have hfind : (symbols.find? fun s => s.isPrefixOf ('-' :: c :: cs)) = some ['-'] := by
    have hequal : ('=' == c) = false := beq_eq_false_iff_ne.mpr hequal.symm
    have harrow : ('>' == c) = false := beq_eq_false_iff_ne.mpr harrow.symm
    simp [symbols, List.find?, List.isPrefixOf, hequal, harrow]
  rw [token?, if_neg (by decide), if_neg (by decide), if_neg (by decide), hfind]
  rfl

theorem IsToken.minus {cs : List Char} {t : Token} (h : IsToken cs t) :
    Spells ('-' :: cs) [.symbol ['-'], t] := by
  intro rest hrest
  have hspells := h.spells rest hrest
  obtain ⟨c, tail, rfl, hc⟩ := h.starts
  have hminus : tokens? ('-' :: c :: (tail ++ rest)) =
      (tokens? (c :: (tail ++ rest))).map (.symbol ['-'] :: ·) :=
    @tokens?_of_token? [] _ _ _ (by decide)
      (token?_minus (ne_of_goesOn hc (by decide)) (ne_of_goesOn hc (by decide)) (tail ++ rest))
  rw [List.cons_append] at hspells ⊢
  rw [List.cons_append, hminus, hspells, Option.map_map]
  rfl

def signTokens (negative : Bool) : List Token := if negative then [.symbol ['-']] else []

/-- The tokens of a written constant. What is no finite number is written as a word. -/
def constantTokens : Constant → List Token
  | .integer n => signTokens (n < 0) ++ [.integer n.natAbs]
  | .float x =>
    if !x.isNumber then [.word "NaN"]
    else signTokens x.negative ++
      [if x.isInfinite then .word "inf" else .float (NumeralStyle.literal.unsigned x)]
  | .text s => [.text s]
  | .boolean b => [.word (Constant.booleanText b)]

theorem isToken_booleanText (b : Bool) :
    IsToken (Constant.booleanText b).toList (.word (Constant.booleanText b)) := by
  cases b
  · exact show IsToken ['F', 'a', 'l', 's', 'e'] (.word "False") from isToken_word (by decide)
      (List.all_eq_true.mp rfl)
  · exact show IsToken ['T', 'r', 'u', 'e'] (.word "True") from isToken_word (by decide)
      (List.all_eq_true.mp rfl)

theorem isToken_infinite : IsToken ['i', 'n', 'f'] (.word "inf") :=
  isToken_word (by decide) (List.all_eq_true.mp rfl)

theorem IsToken.spells_signed {cs : List Char} {t : Token} (h : IsToken cs t) (negative : Bool) :
    Spells (if negative then '-' :: cs else cs) (signTokens negative ++ [t]) := by
  cases negative with
  | true => exact h.minus
  | false => exact h.spells

theorem toList_integerText (n : Int) :
    (NumeralStyle.integerText n).toList =
      if decide (n < 0) then '-' :: Nat.toDigits 10 n.natAbs else Nat.toDigits 10 n.natAbs := by
  unfold NumeralStyle.integerText
  by_cases hnegative : n < 0 <;> simp [hnegative, NumeralStyle.decimalDigits]

def magnitudeChars (x : Double) : List Char :=
  if x.isInfinite then ['i', 'n', 'f'] else NumeralStyle.literal.unsigned x

theorem toList_text {x : Double} (h : x.isNumber = true) :
    (NumeralStyle.literal.text x).toList =
      if x.negative then '-' :: magnitudeChars x else magnitudeChars x := by
  unfold NumeralStyle.text magnitudeChars
  by_cases hnegative : x.negative = true <;> by_cases hinfinite : x.isInfinite = true <;>
    simp [h, hnegative, hinfinite]

theorem isToken_magnitudeChars (x : Double) :
    IsToken (magnitudeChars x)
      (if x.isInfinite then .word "inf" else .float (NumeralStyle.literal.unsigned x)) := by
  unfold magnitudeChars
  by_cases hinfinite : x.isInfinite = true
  · simpa [hinfinite] using isToken_infinite
  · simpa [hinfinite] using isToken_float (isFloat_unsigned x)

theorem spells_constant (value : Constant) :
    Spells (Target.constant value).toList (constantTokens value) := by
  cases value with
  | integer n =>
    rw [Target.constant, toList_integerText]
    exact (isToken_integer n.natAbs).spells_signed (n < 0)
  | text s => exact (isToken_quote s).spells
  | boolean b => exact (isToken_booleanText b).spells
  | float x =>
    rw [Target.constant, constantTokens]
    by_cases hnumber : x.isNumber = true
    · have hread : ¬((!x.isNumber) = true) := by simp [hnumber]
      rw [if_neg hread, toList_text hnumber]
      exact (isToken_magnitudeChars x).spells_signed x.negative
    · have hnan : IsToken ['N', 'a', 'N'] (.word "NaN") :=
        isToken_word (by decide) (List.all_eq_true.mp rfl)
      simpa [hnumber, NumeralStyle.text] using hnan.spells

theorem shows_lookup {dict : String} (hdict : IsToken dict.toList (.word dict)) (key : String) :
    Shows (Target.lookup dict key).toList
      [.word dict, .symbol ['['], .text key, .symbol [']']] := by
  have hword : Shows (dict.toList ++ ['[']) ([.word dict] ++ [.symbol ['[']]) :=
    hdict.spells.append (fun rest => by simp [Stops, goesOn, Munch.isWordPart]) shows_openBracket
  have hkey : Shows ((Target.quote key).toList ++ [']']) ([.text key] ++ [.symbol [']']]) :=
    (isToken_quote key).spells.append (fun rest => by simp [Stops, goesOn, Munch.isWordPart])
      shows_closeBracket
  have hall := hword.append hkey
  have htext : (Target.lookup dict key).toList =
      dict.toList ++ ['['] ++ ((Target.quote key).toList ++ [']']) := by
    simp [Target.lookup]
  rw [htext]
  exact hall

end PipelineLang.Python
