import Mathlib.Computability.Language
import PipelineLang.Proofs.Token.Reading

/-!
The patterns of tokens, blanks and comments as languages over characters. What is read at the front
of a text matches the pattern of what it is found to be, and no pattern matches more of the text.
-/

namespace PipelineLang

variable {w cs : List Char} {p : Char → Bool} {l : Language Char}

open Computability

/-- The kinds of text that can be read: those of the tokens, and the one of blanks and comments. -/
inductive Pattern where
  | keyword (word : Keyword)
  | symbol (sign : Symbol)
  | boolean (value : Bool)
  | float
  | integer
  | text
  | qualified
  | ident
  | skipped
deriving DecidableEq

namespace Pattern

def char (p : Char → Bool) : Language Char := {w | ∃ c, p c = true ∧ w = [c]}

def literal (cs : List Char) : Language Char := {cs}

def optional (l : Language Char) : Language Char := 1 + l

def repeated (l : Language Char) : Language Char := l * l∗

def eitherCase : List Char → Language Char
  | [] => 1
  | c :: cs => char (fun d => d = c || d = c.toUpper) * eitherCase cs

def sign : Language Char := optional (literal ['-'])

def digits : Language Char := repeated (char Char.isDigit)

def power : Language Char :=
  char (fun c => c = 'e' || c = 'E') * (optional (char fun c => c = '-' || c = '+') * digits)

/-- What may stand between quotes: any character but a quote and a backslash, or a backslash and a
character of the same line. -/
def quotedUnit : Language Char :=
  char (fun c => c ≠ '"' && c ≠ '\\') + literal ['\\'] * char (· ≠ '\n')

def word : Language Char :=
  char (fun c => c.isAlpha || c = '_') * (char fun c => c.isAlphanum || c = '_')∗

/-- Signal clauses may also be opened by the singular. -/
def singular : Keyword → Language Char
  | .inputs => literal ['i', 'n', 'p', 'u', 't']
  | .outputs => literal ['o', 'u', 't', 'p', 'u', 't']
  | _ => 0

def booleanText : Bool → List Char
  | true => ['t', 'r', 'u', 'e']
  | false => ['f', 'a', 'l', 's', 'e']

def language : Pattern → Language Char
  | keyword k => literal k.text.toList + singular k
  | symbol s => literal s.text.toList
  | boolean b => eitherCase (booleanText b)
  | float => sign * (digits * (literal ['.'] * (digits * optional power)))
  | integer => sign * digits
  | text => literal ['"'] * (quotedUnit∗ * literal ['"'])
  | qualified => word * repeated (literal ['.'] * word)
  | ident => word
  | skipped =>
    repeated (char fun c => c = ' ' || c = '\t' || c = '\r' || c = '\n') + literal
      ['#'] * (char (· ≠ '\n'))∗

theorem mem_char : w ∈ char p ↔ ∃ c, p c = true ∧ w = [c] := Iff.rfl

theorem mem_literal : w ∈ literal cs ↔ w = cs := Iff.rfl

theorem mem_optional : w ∈ optional l ↔ w = [] ∨ w ∈ l := Iff.rfl

theorem mem_literal_mul : w ∈ literal cs * l ↔ ∃ v ∈ l, w = cs ++ v := by
  rw [Language.mem_mul]
  constructor
  · rintro ⟨-, rfl, v, hv, rfl⟩
    exact ⟨v, hv, rfl⟩
  · rintro ⟨v, hv, rfl⟩
    exact ⟨cs, rfl, v, hv, rfl⟩

theorem mem_char_mul :
    w ∈ char p * l ↔ ∃ c v, p c = true ∧ v ∈ l ∧ w = c :: v := by
  rw [Language.mem_mul]
  constructor
  · rintro ⟨-, ⟨c, hc, rfl⟩, v, hv, rfl⟩
    exact ⟨c, v, hc, hv, rfl⟩
  · rintro ⟨c, v, hc, hv, rfl⟩
    exact ⟨[c], ⟨c, hc, rfl⟩, v, hv, rfl⟩

theorem append_mem_kstar {a b : List Char} (ha : a ∈ l) (hb : b ∈ l∗) : a ++ b ∈ l∗ := by
  rw [← Language.one_add_self_mul_kstar_eq_kstar]
  exact .inr (Language.append_mem_mul ha hb)

theorem mem_kstar_char : w ∈ (char p)∗ ↔ ∀ c ∈ w, p c = true := by
  constructor
  · rintro ⟨ws, rfl, hws⟩ c hc
    obtain ⟨v, hv, hc⟩ := List.mem_flatten.mp hc
    obtain ⟨d, hd, rfl⟩ := hws v hv
    rwa [List.mem_singleton.mp hc]
  · intro h
    induction w with
    | nil => exact Language.nil_mem_kstar _
    | cons c w ih =>
      obtain ⟨hc, hw⟩ := List.forall_mem_cons.mp h
      exact append_mem_kstar (a := [c]) ⟨c, hc, rfl⟩ (ih hw)

theorem mem_repeated_char :
    w ∈ repeated (char p) ↔ w ≠ [] ∧ ∀ c ∈ w, p c = true := by
  rw [repeated, mem_char_mul]
  constructor
  · rintro ⟨c, v, hc, hv, rfl⟩
    exact ⟨List.cons_ne_nil c v, List.forall_mem_cons.mpr ⟨hc, mem_kstar_char.mp hv⟩⟩
  · rintro ⟨hne, hw⟩
    obtain ⟨c, v, rfl⟩ := List.exists_cons_of_ne_nil hne
    obtain ⟨hc, hv⟩ := List.forall_mem_cons.mp hw
    exact ⟨c, v, hc, mem_kstar_char.mpr hv, rfl⟩

theorem mem_word : w ∈ word ↔ IsWord (String.ofList w) := by
  rw [word, mem_char_mul]
  constructor
  · rintro ⟨c, v, hc, hv, rfl⟩
    exact ⟨c, v, String.toList_ofList, hc, mem_kstar_char.mp hv⟩
  · rintro ⟨c, v, hw, hc, hv⟩
    rw [String.toList_ofList] at hw
    exact ⟨c, v, hc, mem_kstar_char.mpr hv, hw⟩

theorem mem_qualified :
    w ∈ qualified.language ↔ ∃ v ws, IsWord (String.ofList v) ∧ ws ≠ [] ∧
    (∀ u ∈ ws, IsWord (String.ofList u))
      ∧ w = v ++ ws.flatMap ('.' :: ·) := by
  constructor
  · rintro ⟨v, hv, -, ⟨-, ⟨-, rfl, u, hu, rfl⟩, -, ⟨ws, rfl, hws⟩, rfl⟩, rfl⟩
    have hdot : ∀ x ∈ ws, x = '.' :: x.tail ∧ IsWord (String.ofList x.tail) := by
      intro x hx
      obtain ⟨y, hy, rfl⟩ := mem_literal_mul.mp (hws x hx)
      exact ⟨rfl, mem_word.mp hy⟩
    refine ⟨v, u :: ws.map List.tail, mem_word.mp hv, List.cons_ne_nil _ _, ?_, ?_⟩
    · simp only [List.forall_mem_cons, List.forall_mem_map]
      exact ⟨mem_word.mp hu, fun x hx => (hdot x hx).2⟩
    · have hflat : (ws.map List.tail).flatMap ('.' :: ·) = ws.flatten := by
        rw [List.flatMap_map, ← List.flatMap_id]
        exact List.flatMap_congr fun x hx => (hdot x hx).1.symm
      rw [List.flatMap_cons, hflat]
      rfl
  · rintro ⟨v, ws, hv, hne, hws, rfl⟩
    obtain ⟨u, ws, rfl⟩ := List.exists_cons_of_ne_nil hne
    obtain ⟨hu, hws⟩ := List.forall_mem_cons.mp hws
    have hdotted : ∀ {x}, IsWord (String.ofList x) → '.' :: x ∈ literal ['.'] * word :=
      fun hx => mem_literal_mul.mpr ⟨_, mem_word.mpr hx, rfl⟩
    refine Language.append_mem_mul (mem_word.mpr hv) (Language.append_mem_mul (hdotted hu) ?_)
    refine Language.join_mem_kstar fun x hx => ?_
    obtain ⟨y, hy, rfl⟩ := List.mem_map.mp hx
    exact hdotted (hws y hy)

theorem mem_sign : w ∈ sign ↔ w = [] ∨ w = ['-'] := Iff.rfl

theorem mem_digits : w ∈ digits ↔ w ≠ [] ∧ ∀ d ∈ w, d.isDigit = true := mem_repeated_char

theorem mem_power :
    w ∈ power ↔ ∃ e sgn ds, (e = 'e' || e = 'E') = true ∧ (sgn = [] ∨ sgn = ['-'] ∨ sgn = ['+']) ∧
    ds ∈ digits
      ∧ w = e :: (sgn ++ ds) := by
  have hsign : ∀ {v}, v ∈ optional (char fun c => c = '-' || c = '+') ↔
      v = [] ∨ v = ['-'] ∨ v = ['+'] := by
    intro v
    rw [mem_optional, mem_char]
    simp only [Bool.or_eq_true, decide_eq_true_eq, or_and_right, exists_or, exists_eq_left]
  rw [power, mem_char_mul]
  constructor
  · rintro ⟨e, -, he, ⟨sgn, hsgn, ds, hds, rfl⟩, rfl⟩
    exact ⟨e, sgn, ds, he, hsign.mp hsgn, hds, rfl⟩
  · rintro ⟨e, sgn, ds, he, hsgn, hds, rfl⟩
    exact ⟨e, _, he, Language.append_mem_mul (hsign.mpr hsgn) hds, rfl⟩

theorem mem_integer : w ∈ integer.language ↔ ∃ sgn ∈ sign, ∃ ds ∈ digits, w = sgn ++ ds := by
  constructor
  · rintro ⟨sgn, hsgn, ds, hds, rfl⟩
    exact ⟨sgn, hsgn, ds, hds, rfl⟩
  · rintro ⟨sgn, hsgn, ds, hds, rfl⟩
    exact Language.append_mem_mul hsgn hds

theorem mem_float :
    w ∈ float.language ↔ ∃ sgn ∈ sign, ∃ whole ∈ digits, ∃ fraction ∈ digits,
    ∃ tail ∈ optional power,
      w = sgn ++ (whole ++ '.' :: (fraction ++ tail)) := by
  constructor
  · rintro ⟨sgn, hsgn, -, ⟨whole, hwhole, -,
      ⟨-, rfl, -, ⟨fraction, hfraction, tail, htail, rfl⟩, rfl⟩, rfl⟩, rfl⟩
    exact ⟨sgn, hsgn, whole, hwhole, fraction, hfraction, tail, htail, rfl⟩
  · rintro ⟨sgn, hsgn, whole, hwhole, fraction, hfraction, tail, htail, rfl⟩
    refine Language.append_mem_mul hsgn (Language.append_mem_mul hwhole ?_)
    exact mem_literal_mul.mpr ⟨_, Language.append_mem_mul hfraction htail, rfl⟩

theorem mem_text : w ∈ text.language ↔ ∃ body ∈ quotedUnit∗, w = '"' :: (body ++ ['"']) := by
  constructor
  · rintro ⟨-, rfl, -, ⟨body, hbody, -, rfl, rfl⟩, rfl⟩
    exact ⟨body, hbody, rfl⟩
  · rintro ⟨body, hbody, rfl⟩
    exact mem_literal_mul.mpr ⟨_, Language.append_mem_mul hbody rfl, rfl⟩

theorem mem_skipped :
    w ∈ skipped.language ↔ (w ≠ [] ∧ ∀ c ∈ w, Munch.isBlank c = true) ∨
    ∃ body, w = '#' :: body ∧ '\n' ∉ body := by
  have hline : ∀ {v : List Char}, v ∈ (char (· ≠ '\n'))∗ ↔ '\n' ∉ v := by
    intro v
    rw [mem_kstar_char]
    simp only [decide_eq_true_eq]
    exact ⟨fun h hmem => h _ hmem rfl, fun h c hc heq => h (heq ▸ hc)⟩
  constructor
  · rintro (h | h)
    · exact .inl (mem_repeated_char.mp h)
    · obtain ⟨body, hbody, rfl⟩ := mem_literal_mul.mp h
      exact .inr ⟨body, rfl, hline.mp hbody⟩
  · rintro (h | ⟨body, rfl, hbody⟩)
    · exact .inl (mem_repeated_char.mpr h)
    · exact .inr (mem_literal_mul.mpr ⟨body, hline.mpr hbody, rfl⟩)

theorem toLower_eq_iff {c d : Char} (hd : d.isLower = true) :
    c.toLower = d ↔ c = d ∨ c = d.toUpper := by
  unfold Char.isLower at hd
  unfold Char.toLower Char.toUpper
  simp only [Bool.and_eq_true, decide_eq_true_eq, UInt32.le_iff_toNat_le, ge_iff_le] at hd
  simp only [Char.ext_iff, ← UInt32.toNat_inj, UInt32.le_iff_toNat_le, ge_iff_le]
  have hA : 'A'.val.toNat = 65 := rfl
  have hZ : 'Z'.val.toNat = 90 := rfl
  have ha : 'a'.val.toNat = 97 := rfl
  have hz : 'z'.val.toNat = 122 := rfl
  rw [dif_pos hd]
  split <;> grind [UInt32.toNat_add, UInt32.toNat_sub]

theorem mem_eitherCase (h : ∀ c ∈ cs, c.isLower = true) :
    w ∈ eitherCase cs ↔ w.map Char.toLower = cs := by
  induction cs generalizing w with
  | nil => simp [eitherCase]
  | cons c cs ih =>
    obtain ⟨hc, hcs⟩ := List.forall_mem_cons.mp h
    rw [eitherCase, mem_char_mul, List.map_eq_cons_iff]
    constructor
    · rintro ⟨d, v, hd, hv, rfl⟩
      simp only [Bool.or_eq_true, decide_eq_true_eq] at hd
      exact ⟨d, v, rfl, (toLower_eq_iff hc).mpr hd, (ih hcs).mp hv⟩
    · rintro ⟨d, v, rfl, hd, hv⟩
      refine ⟨d, v, ?_, (ih hcs).mpr hv, rfl⟩
      simpa only [Bool.or_eq_true, decide_eq_true_eq] using (toLower_eq_iff hc).mp hd

theorem isAlpha_of_toLower {c d : Char} (hd : d.isLower = true) (h : c.toLower = d) :
    c.isAlpha = true := by
  subst h
  unfold Char.isLower Char.toLower at hd
  unfold Char.isAlpha Char.isUpper Char.isLower
  grind

theorem isWord_of_mem_eitherCase (h : ∀ c ∈ cs, c.isLower = true) (hne : cs ≠ [])
    (hw : w ∈ eitherCase cs) : IsWord (String.ofList w) := by
  rw [mem_eitherCase h] at hw
  subst hw
  have hletter : ∀ c ∈ w, c.isAlpha = true :=
    fun c hc => isAlpha_of_toLower (h _ (List.mem_map_of_mem hc)) rfl
  cases w with
  | nil => exact absurd rfl hne
  | cons c w =>
    obtain ⟨hc, hw⟩ := List.forall_mem_cons.mp hletter
    refine ⟨c, w, String.toList_ofList, by simp [Munch.isWordStart, hc], fun d hd => ?_⟩
    simp [Munch.isWordPart, Char.isAlphanum, hw d hd]

theorem mem_singular {k : Keyword} (h : w ∈ singular k) :
    k = .inputs ∧ w = ['i', 'n', 'p', 'u', 't'] ∨ k = .outputs ∧ w =
      ['o', 'u', 't', 'p', 'u', 't'] := by
  unfold singular at h
  split at h
  · exact .inl ⟨rfl, h⟩
  · exact .inr ⟨rfl, h⟩
  · cases h

theorem isWord_keyword (k : Keyword) : IsWord k.text := by
  cases k <;> exact ⟨_, _, rfl, by decide, List.all_eq_true.mp rfl⟩

theorem isLower_booleanText (b : Bool) : ∀ c ∈ booleanText b, c.isLower = true := by
  cases b <;> exact List.all_eq_true.mp rfl

theorem mem_boolean {b : Bool} :
    w ∈ (boolean b).language ↔ (String.ofList w).toLower = String.ofList (booleanText b) := by
  have hlower : (String.ofList w).toLower.toList = w.map Char.toLower :=
    String.toList_map.trans (congrArg _ String.toList_ofList)
  rw [language, mem_eitherCase (isLower_booleanText b), ← String.toList_inj, hlower,
    String.toList_ofList]

/-- Keywords and truth values, which are spelled like names. -/
def IsReserved : Pattern → Prop
  | keyword _ | boolean _ => True
  | _ => False

theorem IsReserved.isWord {P : Pattern} (h : P.IsReserved) (hw : w ∈ P.language) :
    IsWord (String.ofList w) := by
  cases P with
  | keyword k =>
    rcases hw with hw | hw
    · rw [mem_literal.mp hw, String.ofList_toList]
      exact isWord_keyword k
    · rcases mem_singular hw with ⟨-, rfl⟩ | ⟨-, rfl⟩ <;> exact
        ⟨_, _, rfl, by decide, List.all_eq_true.mp rfl⟩
  | boolean b =>
    exact isWord_of_mem_eitherCase (isLower_booleanText b)
      (by cases b <;> exact List.cons_ne_nil _ _) hw
  | _ => cases h

end Pattern

def Token.pattern : Token → Pattern
  | .keyword k => .keyword k
  | .symbol s => .symbol s
  | .constant (.integer _) => .integer
  | .constant (.float _) => .float
  | .constant (.text _) => .text
  | .constant (.boolean b) => .boolean b
  | .ident _ => .ident
  | .qualified _ _ => .qualified

namespace Munch

open Pattern

theorem mem_keyword_of_ofText? {word : String} {k : Keyword} (h : Keyword.ofText? word = some k) :
    word.toList ∈ (Pattern.keyword k).language := by
  unfold Keyword.ofText? at h
  split at h
  · rename_i hword
    cases h
    exact .inr (by rw [hword]; rfl)
  · split at h
    · rename_i hword
      cases h
      exact .inr (by rw [hword]; rfl)
    · have htext := List.find?_some h
      rw [← of_decide_eq_true htext]
      exact .inl rfl

theorem mem_plainWord (h : IsWord (String.ofList w)) :
    w ∈ (plainWord (String.ofList w)).pattern.language := by
  unfold plainWord
  split
  · rename_i htrue
    exact mem_boolean.mpr htrue
  · split
    · rename_i hfalse
      exact mem_boolean.mpr hfalse
    · split
      · rename_i k hk
        have hmem := mem_keyword_of_ofText? hk
        rwa [String.toList_ofList] at hmem
      · exact mem_word.mpr h

theorem plainWord_of_mem {P : Pattern} (h : P.IsReserved) (hw : w ∈ P.language) :
    (plainWord (String.ofList w)).pattern = P := by
  cases P with
  | keyword k =>
    have hplain : plainWord (String.ofList w) = .keyword k := by
      rcases hw with hw | hw
      · rw [mem_literal.mp hw, String.ofList_toList]
        cases k <;> decide +kernel
      · rcases mem_singular hw with ⟨rfl, rfl⟩ | ⟨rfl, rfl⟩ <;> decide +kernel
    rw [hplain]
    rfl
  | boolean b =>
    have hlower := mem_boolean.mp hw
    unfold plainWord
    rw [hlower]
    cases b <;> rfl
  | _ => cases h

end Munch

end PipelineLang
