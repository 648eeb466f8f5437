import PipelineLang.Proofs.Token.Spelling
import PipelineLang.Target.LeafCode

/-! The names in written code: those that statements bind are read off their texts, and a numbered
name tells its stem and its number. -/

namespace PipelineLang

namespace Statement

def leadingWord (text : String) : String := String.ofList (text.toList.takeWhile Munch.isWordPart)

/-- The name that a line gives a value to, if it does not return. -/
def assigned? (text : String) : Option String :=
  if " = ".toList.isPrefixOf (text.toList.dropWhile Munch.isWordPart) ∧
    leadingWord text ≠ "return" then
    some (leadingWord text)
  else none

mutual

def binds : Statement → List String
  | line text => (assigned? text).toList
  | blank => []
  | define head body => leadingWord head :: bodyBinds body

def bodyBinds : List Statement → List String
  | [] => []
  | s :: ss => s.binds ++ bodyBinds ss

end

theorem binds_blank : blank.binds = [] := rfl

theorem bodyBinds_append (ss ss' : List Statement) :
    bodyBinds (ss ++ ss') = bodyBinds ss ++ bodyBinds ss' := by
  induction ss with
  | nil => rfl
  | cons s ss ih => simp [bodyBinds, ih]

section Words

variable {name rest : String} (h : WordChars name)
include h

theorem leadingWord_append (hrest : ∀ c ∈ rest.toList.head?, Munch.isWordPart c = false) :
    leadingWord (name ++ rest) = name := by
  have htake : rest.toList.takeWhile Munch.isWordPart = [] := by
    cases hcs : rest.toList with
    | nil => rfl
    | cons c cs =>
      rw [hcs] at hrest
      exact List.takeWhile_cons_of_neg (by simp [hrest c rfl])
  rw [leadingWord, String.toList_append, List.takeWhile_append_of_pos h, htake, List.append_nil,
    String.ofList_toList]

theorem dropWhile_append (hrest : ∀ c ∈ rest.toList.head?, Munch.isWordPart c = false) :
    (name ++ rest).toList.dropWhile Munch.isWordPart = rest.toList := by
  rw [String.toList_append, List.dropWhile_append_of_pos h]
  cases hcs : rest.toList with
  | nil => rfl
  | cons c cs =>
    rw [hcs] at hrest
    exact List.dropWhile_cons_of_neg (by simp [hrest c rfl])

theorem assigned?_append (hname : name ≠ "return") (value : String) :
    assigned? (name ++ (" = " ++ value)) = some name := by
  have hrest : ∀ c ∈ (" = " ++ value).toList.head?, Munch.isWordPart c = false := by
    simp [Munch.isWordPart]
  rw [assigned?, leadingWord_append h hrest, dropWhile_append h hrest, if_pos ⟨by simp, hname⟩]

theorem assigned?_call (arguments : String) : assigned? (name ++ ("(" ++ arguments)) = none := by
  have hrest : ∀ c ∈ ("(" ++ arguments).toList.head?, Munch.isWordPart c = false := by
    simp [Munch.isWordPart]
  rw [assigned?, dropWhile_append h hrest, if_neg (by simp [List.isPrefixOf])]

theorem binds_assign (hname : name ≠ "return") (value : String) :
    (line (name ++ (" = " ++ value))).binds = [name] := by
  rw [binds, assigned?_append h hname]
  rfl

theorem binds_call (arguments : String) : (line (name ++ ("(" ++ arguments))).binds = [] := by
  rw [binds, assigned?_call h]
  rfl

theorem binds_define (params : String) (body : List Statement) :
    (define (name ++ ("(" ++ params)) body).binds = name :: bodyBinds body := by
  rw [binds, leadingWord_append h (by simp [Munch.isWordPart])]

end Words

theorem assigned?_return (value : String) : assigned? ("return " ++ value) = none := by
  have htext : "return " ++ value = "return" ++ (" " ++ value) := by simp [← String.append_assoc]
  have hword : leadingWord ("return " ++ value) = "return" := by
    rw [htext]
    exact leadingWord_append (by decide) (by simp [Munch.isWordPart])
  rw [assigned?, if_neg fun h => h.2 hword]

theorem binds_return (value : String) : (line ("return " ++ value)).binds = [] := by
  rw [binds, assigned?_return]
  rfl

end Statement

namespace Target

theorem isDigit_of_mem {n : Nat} {c : Char} (h : c ∈ (NumeralStyle.decimalDigits n).toList) :
    c.isDigit = true := by
  rw [NumeralStyle.decimalDigits, String.toList_ofList] at h
  exact Nat.isDigit_of_mem_toDigits (by decide) (by decide) h

theorem decimalDigits_inj {m n : Nat}
    (h : NumeralStyle.decimalDigits m = NumeralStyle.decimalDigits n) : m = n := by
  have hdigits : Nat.toDigits 10 m = Nat.toDigits 10 n := String.ofList_injective h
  have hvalue := congrArg (fun ds => Nat.ofDigitChars 10 ds 0) hdigits
  simpa using hvalue

theorem append_cons_inj {c : Char} {xs ys ds es : List Char} (hd : c ∉ ds) (he : c ∉ es)
    (h : xs ++ c :: ds = ys ++ c :: es) : xs = ys ∧ ds = es := by
  rcases List.append_eq_append_iff.mp h with ⟨w, rfl, hw⟩ | ⟨w, rfl, hw⟩ <;> cases w with
  | nil => simp_all
  | cons b w => simp_all

def ordinal (x : String × Nat) : String := x.1 ++ "_" ++ NumeralStyle.decimalDigits x.2

theorem numbered_eq (stem : String) (n : Nat) :
    numbered stem n = moduleName (ordinal (stem, n)) := by
  simp [numbered, moduleName, ordinal, String.append_assoc]

theorem moduleName_injective : Function.Injective moduleName := by
  intro s t h
  exact String.toList_inj.mp (by simpa [moduleName] using congrArg String.toList h)

theorem ordinal_injective : Function.Injective ordinal := by
  rintro ⟨s, m⟩ ⟨t, n⟩ h
  have hnot : ∀ k, '_' ∉ (NumeralStyle.decimalDigits k).toList := fun k hk =>
    absurd (isDigit_of_mem hk) (by decide)
  have hlist : s.toList ++ '_' :: (NumeralStyle.decimalDigits m).toList
      = t.toList ++ '_' :: (NumeralStyle.decimalDigits n).toList := by
    simpa [ordinal] using congrArg String.toList h
  obtain ⟨hstem, hdigits⟩ := append_cons_inj (hnot m) (hnot n) hlist
  rw [String.toList_inj.mp hstem, decimalDigits_inj (String.toList_inj.mp hdigits)]

theorem append_decimalDigits_ne {s : String} {c : Char} (hc : s.toList.getLast? = some c)
    (hdigit : c.isDigit = false) (t : String) (n : Nat) :
    t ++ NumeralStyle.decimalDigits n ≠ s := by
  rintro rfl
  have hne : (NumeralStyle.decimalDigits n).toList ≠ [] := by
    rw [NumeralStyle.decimalDigits, String.toList_ofList]
    exact Nat.toDigits_ne_nil
  rw [String.toList_append, List.getLast?_append, List.getLast?_eq_some_getLast hne, Option.some_or]
    at hc
  rw [← Option.some.inj hc, isDigit_of_mem (List.getLast_mem hne)] at hdigit
  cases hdigit

theorem wordChars_numbered {stem : String} (h : WordChars stem) (n : Nat) :
    WordChars (numbered stem n) := by
  have hdigits : WordChars (NumeralStyle.decimalDigits n) := by
    intro c hc
    simp [Munch.isWordPart, Char.isAlphanum, isDigit_of_mem hc]
  have hmark : WordChars "____" := by decide
  exact ((hmark.append h).append (by decide)).append hdigits

theorem numbered_ne_return (stem : String) (n : Nat) : numbered stem n ≠ "return" := by
  intro h
  have hhead := congrArg (fun s : String => s.toList.head?) h
  simp [numbered] at hhead

end Target

end PipelineLang
