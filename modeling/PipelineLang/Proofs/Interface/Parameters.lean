import PipelineLang.Proofs.Collection
import PipelineLang.Proofs.Interface.Functions

/-! The parameters of functions whose defaults are quoted texts. Parentheses count inside of quotes,
too: a function is read as it is written if its defaults open as many as they close, and never close
one that they did not open. Where they do, the parameters are read up to that default. -/

namespace PipelineLang

namespace SourceText

/-- Characters that are read as they stand: no blanks, marks, brackets and commas, and no `#`. -/
def isBare (c : Char) : Bool := isNeutral c && !isWhiteSpace c && c != '#'

def isNameChar (c : Char) : Bool := isBare c && c != '=' && c != '*'

def IsParameter (cs : List Char) : Prop := cs ≠ [] ∧ ∀ c ∈ cs, isNameChar c = true

instance (cs : List Char) : Decidable (IsParameter cs) :=
  decidable_of_iff (cs ≠ [] ∧ cs.all isNameChar = true) (and_congr_right fun _ => List.all_eq_true)

structure TextDefault where
  name : List Char
  mark : Char
  content : List Char
  isParameter : IsParameter name
  isMark : mark = '\'' ∨ mark = '"'
  isPlain : ∀ c ∈ content, c ≠ mark ∧ c ≠ '\\' ∧ c ≠ '\n'

def TextDefault.chars (d : TextDefault) : List Char :=
  d.name ++ '=' :: d.mark :: (d.content ++ [d.mark])

structure FunctionHead where
  name : List Char
  plain : List (List Char)
  defaults : List TextDefault
  star : Option (List Char)
  doubleStar : Option (List Char)
  isWord : ∀ c ∈ name, Munch.isWordPart c = true
  isParameter : ∀ p ∈ plain ++ (star.toList ++ doubleStar.toList), IsParameter p

namespace FunctionHead

def stars (h : FunctionHead) : List (List Char) :=
  h.star.toList.map ('*' :: ·) ++ h.doubleStar.toList.map ('*' :: '*' :: ·)

def pieces (h : FunctionHead) : List (List Char) :=
  h.plain ++ (h.defaults.map TextDefault.chars ++ h.stars)

def params (h : FunctionHead) : List Char := [',', ' '].intercalate h.pieces

def chars (h : FunctionHead) : List Char :=
  "def ".toList ++ (h.name ++ '(' :: (h.params ++ ')' :: ':' :: ['\n']))

def text (h : FunctionHead) : String := String.ofList h.chars

def signature (h : FunctionHead) : FunctionSignature :=
  ⟨(h.plain ++ h.defaults.map TextDefault.name).map String.ofList, .ofNat h.defaults.length,
    h.star.isSome, h.doubleStar.isSome⟩

theorem length_params (h : FunctionHead) :
    h.signature.params.length = h.plain.length + h.defaults.length := by
  simp [signature]

def contents (h : FunctionHead) : List Char := h.defaults.flatMap TextDefault.content

end FunctionHead

def readDefaults : Nat → List TextDefault → List TextDefault
  | _, [] => []
  | depth, d :: ds =>
    d :: (depthAfter '(' ')' depth d.content).elim [] fun depth => readDefaults depth ds

/-- The function as it is read if a default closes the parentheses: nothing behind that default is
there. -/
def FunctionHead.cut (h : FunctionHead) : FunctionHead where
  name := h.name
  plain := h.plain
  defaults := readDefaults 1 h.defaults
  star := none
  doubleStar := none
  isWord := h.isWord
  isParameter := fun p hp => h.isParameter p (List.mem_append_left _ (by simpa using hp))

/-- A piece between two commas is read as one item. -/
structure IsPiece (p : List Char) : Prop where
  unsplit : Unsplit 0 p 0
  trimmed : Trimmed p
  nonempty : p ≠ []
  quoteAfter : quoteAfter none p = some none
  oneLine : '\n' ∉ p

section Bare

variable {p : List Char} (h : ∀ c ∈ p, isBare c = true)
include h

theorem bare_notMem {c : Char} (hc : isBare c = false) : c ∉ p := by
  intro hmem
  rw [h c hmem] at hc
  cases hc

theorem bare_unsplit (depth : Int) : Unsplit depth p depth := by
  refine .neutral fun c hc => ?_
  have hbare := h c hc
  simp only [isBare, Bool.and_eq_true] at hbare
  exact hbare.1.1

theorem bare_not_isWhiteSpace : ∀ c ∈ p, isWhiteSpace c = false := by
  intro c hc
  have hbare := h c hc
  simp only [isBare, Bool.and_eq_true, Bool.not_eq_true'] at hbare
  exact hbare.1.2

theorem bare_quoteAfter : quoteAfter none p = some none := by
  refine quoteAfter_of_plain fun c hc => ?_
  have hne {d : Char} (hd : isBare d = false) : c ≠ d := ne_of_mem_of_not_mem hc (bare_notMem h hd)
  simp [isPlain, hne (d := '#') (by decide), hne (d := '\'') (by decide),
    hne (d := '"') (by decide)]

theorem isPiece_of_bare (hne : p ≠ []) : IsPiece p where
  unsplit := bare_unsplit h 0
  trimmed := ⟨fun c hc => bare_not_isWhiteSpace h c (List.mem_of_mem_head? hc),
    fun c hc => bare_not_isWhiteSpace h c (List.mem_of_getLast? hc)⟩
  nonempty := hne
  quoteAfter := bare_quoteAfter h
  oneLine := bare_notMem h (by decide)

end Bare

namespace IsParameter

variable {p : List Char} (h : IsParameter p)
include h

theorem bare : ∀ c ∈ p, isBare c = true := by
  intro c hc
  have hname := h.2 c hc
  simp only [isNameChar, Bool.and_eq_true] at hname
  exact hname.1.1

theorem notMem {c : Char} (hc : isNameChar c = false) : c ∉ p := by
  intro hmem
  rw [h.2 c hmem] at hc
  cases hc

theorem isPiece : IsPiece p := isPiece_of_bare h.bare h.1

theorem bare_star : ∀ c ∈ '*' :: p, isBare c = true := List.forall_mem_cons.mpr ⟨by decide, h.bare⟩

theorem bare_doubleStar : ∀ c ∈ '*' :: '*' :: p, isBare c = true :=
  List.forall_mem_cons.mpr ⟨by decide, h.bare_star⟩

theorem bare_equals : ∀ c ∈ p ++ ['='], isBare c = true :=
  List.forall_mem_append.mpr ⟨h.bare, List.all_eq_true.mp rfl⟩

end IsParameter

namespace TextDefault

variable (d : TextDefault)

theorem mark_notMem : d.mark ∉ d.content := fun hmem => (d.isPlain _ hmem).1 rfl

theorem chars_eq : d.chars = (d.name ++ ['=']) ++ d.mark :: (d.content ++ [d.mark]) := by
  simp [chars]

theorem quoteAfter_marked : quoteAfter none (d.mark :: (d.content ++ [d.mark])) = some none := by
  have hmark : d.mark ≠ '#' ∧ d.mark ≠ '\\' := by rcases d.isMark with h | h <;> simp [h]
  have hcontent : ∀ cs : List Char, (∀ c ∈ cs, c ≠ d.mark ∧ c ≠ '\\' ∧ c ≠ '\n') →
      quoteAfter (some d.mark) cs = some (some d.mark) := by
    intro cs hcs
    induction cs with
    | nil => rfl
    | cons c cs ih =>
      rw [List.forall_mem_cons] at hcs
      rw [quoteAfter.eq_def]
      simp [hcs.1, ih hcs.2]
  have hopen : (if d.mark = '\'' || d.mark = '"' then some d.mark else none) = some d.mark :=
    if_pos (by simpa using d.isMark)
  rw [quoteAfter, if_neg hmark.1, hopen, quoteAfter_append _ (hcontent _ d.isPlain),
    quoteAfter.eq_def]
  simp [hmark.2, quoteAfter]

theorem exists_name : ∃ c cs, d.name = c :: cs ∧ isWhiteSpace c = false := by
  obtain ⟨c, cs, hcs⟩ := List.exists_cons_of_ne_nil d.isParameter.1
  exact ⟨c, cs, hcs, bare_not_isWhiteSpace d.isParameter.bare c (by simp [hcs])⟩

theorem isPiece : IsPiece d.chars := by
  have hname := d.isParameter.bare_equals
  have hmark : isWhiteSpace d.mark = false := by rcases d.isMark with h | h <;> rw [h] <;> decide
  refine ⟨?_, ?_, ?_, ?_, ?_⟩
  · rw [chars_eq]
    exact (bare_unsplit hname 0).append (.marked d.isMark d.mark_notMem)
  · obtain ⟨c, cs, hcs, hc⟩ := d.exists_name
    have hchars : d.chars = c :: ((cs ++ '=' :: d.mark :: d.content) ++ [d.mark]) := by
      simp [chars, hcs]
    rw [hchars]
    exact trimmed_between hc hmark _
  · simp [chars]
  · rw [chars_eq, quoteAfter_append _ (bare_quoteAfter hname), quoteAfter_marked]
  · have hcontent : '\n' ∉ d.content := fun hmem => (d.isPlain _ hmem).2.2 rfl
    have hfirst : '\n' ∉ d.name ++ ['='] := bare_notMem hname (by decide)
    have hne : '\n' ≠ d.mark := by rcases d.isMark with h | h <;> rw [h] <;> decide
    rw [chars_eq]
    simp_all

end TextDefault

namespace FunctionHead

variable (h : FunctionHead)

theorem isParameter_cases : (∀ p ∈ h.plain, IsParameter p) ∧ (∀ p ∈ h.star.toList, IsParameter p) ∧
    ∀ p ∈ h.doubleStar.toList, IsParameter p := by
  have hparameter := h.isParameter
  rwa [List.forall_mem_append, List.forall_mem_append] at hparameter

theorem isPiece : ∀ p ∈ h.pieces, IsPiece p := by
  obtain ⟨hplain, hstar, hdouble⟩ := h.isParameter_cases
  simp only [pieces, stars, List.forall_mem_append, List.forall_mem_map]
  refine ⟨fun p hp => (hplain p hp).isPiece, fun d _ => d.isPiece, fun p hp => ?_, fun p hp => ?_⟩
  · exact isPiece_of_bare (hstar p hp).bare_star (List.cons_ne_nil _ _)
  · exact isPiece_of_bare (hdouble p hp).bare_doubleStar (List.cons_ne_nil _ _)

theorem oneLine : '\n' ∉ h.params := by
  intro hmem
  rcases mem_intercalate hmem with hmem | hmem | ⟨p, hp, hmem⟩
  · cases hmem
  · cases hmem
  · exact (h.isPiece p hp).oneLine hmem

theorem quoteAfter_params : quoteAfter none h.params = some none := by
  have hjoin : ∀ ps : List (List Char), (∀ p ∈ ps, IsPiece p) →
      quoteAfter none ([',', ' '].intercalate ps) = some none := by
    intro ps hps
    induction ps with
    | nil => rfl
    | cons p ps ih =>
      rw [List.forall_mem_cons] at hps
      cases ps with
      | nil => simpa using hps.1.quoteAfter
      | cons q qs =>
        rw [List.intercalate_cons_cons, List.append_assoc, quoteAfter_append _ hps.1.quoteAfter,
          quoteAfter_append _ (show quoteAfter none [',', ' '] = some none from rfl)]
        exact ih hps.2
  exact hjoin h.pieces h.isPiece

theorem quoteAfter_chars : quoteAfter none h.chars = some none := by
  have hname : quoteAfter none ("def ".toList ++ (h.name ++ ['('])) = some none := by
    refine quoteAfter_of_plain (List.forall_mem_append.mpr ⟨List.all_eq_true.mp rfl,
      List.forall_mem_append.mpr ⟨?_, List.all_eq_true.mp rfl⟩⟩)
    intro c hc
    have hne {d : Char} (hd : Munch.isWordPart d = false) : c ≠ d := by
      rintro rfl
      rw [h.isWord c hc] at hd
      cases hd
    simp [isPlain, hne (d := '#') (by decide), hne (d := '\'') (by decide),
      hne (d := '"') (by decide)]
  have hchars : h.chars = ("def ".toList ++ (h.name ++ ['('])) ++
      (h.params ++ [')', ':', '\n']) := by
    simp [chars]
  rw [hchars, quoteAfter_append _ hname, quoteAfter_append _ h.quoteAfter_params]
  rfl

end FunctionHead

def isParen (c : Char) : Bool := c = '(' || c = ')'

theorem depthAfter_filter (depth : Nat) (cs : List Char) :
    depthAfter '(' ')' depth (cs.filter isParen) = depthAfter '(' ')' depth cs := by
  induction cs generalizing depth with
  | nil => rfl
  | cons c cs ih =>
    by_cases hc : isParen c = true
    · rw [List.filter_cons_of_pos hc, depthAfter, depthAfter, ih, ih, ih]
    · have hne : c ≠ '(' ∧ c ≠ ')' := by simpa [isParen] using hc
      rw [List.filter_cons_of_neg hc, depthAfter, if_neg hne.1, if_neg hne.2, ih]

theorem filter_isParen_intercalate (ps : List (List Char)) :
    ([',', ' '].intercalate ps).filter isParen = ps.flatMap (List.filter isParen) := by
  induction ps with
  | nil => rfl
  | cons p ps ih =>
    cases ps with
    | nil => simp
    | cons q qs =>
      rw [List.intercalate_cons_cons, List.filter_append, List.filter_append, ih]
      simp [isParen]

theorem filter_isParen_of_bare {p : List Char} (h : ∀ c ∈ p, isBare c = true) :
    p.filter isParen = [] := by
  rw [List.filter_eq_nil_iff]
  intro c hc
  have hne {d : Char} (hd : isBare d = false) : c ≠ d := ne_of_mem_of_not_mem hc (bare_notMem h hd)
  simp [isParen, hne (d := '(') (by decide), hne (d := ')') (by decide)]

theorem flatMap_filter_plain {ps : List (List Char)} (h : ∀ p ∈ ps, IsParameter p) :
    ps.flatMap (List.filter isParen) = [] := by
  rw [List.flatMap_eq_nil_iff]
  exact fun p hp => filter_isParen_of_bare (h p hp).bare

theorem TextDefault.filter_isParen (d : TextDefault) (cs : List Char) :
    (d.name ++ '=' :: d.mark :: cs).filter isParen = cs.filter isParen := by
  have hname := filter_isParen_of_bare d.isParameter.bare
  rcases d.isMark with hmark | hmark <;> simp [hname, hmark, isParen]

theorem flatMap_filter_defaults (ds : List TextDefault) :
    (ds.map TextDefault.chars).flatMap (List.filter isParen) =
      (ds.flatMap TextDefault.content).filter isParen := by
  have hone (d : TextDefault) : d.chars.filter isParen = d.content.filter isParen := by
    have hmark : isParen d.mark = false := by rcases d.isMark with h | h <;> rw [h] <;> decide
    rw [TextDefault.chars, d.filter_isParen]
    simp [hmark]
  simp [List.flatMap_map, List.filter_flatMap, hone]

theorem FunctionHead.depthAfter_params (h : FunctionHead) (depth : Nat) :
    depthAfter '(' ')' depth h.params = depthAfter '(' ')' depth h.contents := by
  obtain ⟨hplain, hstar, hdouble⟩ := h.isParameter_cases
  have hstars : h.stars.flatMap (List.filter isParen) = [] := by
    rw [List.flatMap_eq_nil_iff]
    simp only [stars, List.forall_mem_append, List.forall_mem_map]
    exact ⟨fun p hp => filter_isParen_of_bare (hstar p hp).bare_star,
      fun p hp => filter_isParen_of_bare (hdouble p hp).bare_doubleStar⟩
  rw [← depthAfter_filter, params, filter_isParen_intercalate, pieces, List.flatMap_append,
    List.flatMap_append, flatMap_filter_plain hplain, flatMap_filter_defaults, hstars,
    List.append_nil, List.nil_append, depthAfter_filter, contents]

section Items

variable {p : List Char} (h : IsParameter p)
include h

theorem exists_cons_ne_star : ∃ c cs, p = c :: cs ∧ '*' ≠ c := by
  obtain ⟨c, cs, rfl⟩ := List.exists_cons_of_ne_nil h.1
  exact ⟨c, cs, rfl, fun hc => h.notMem (c := '*') (by decide) (hc ▸ List.mem_cons_self)⟩

theorem not_star (tail : List Char) :
    ¬"**".toList.isPrefixOf (p ++ tail) = true ∧ ¬"*".toList.isPrefixOf (p ++ tail) = true := by
  obtain ⟨c, cs, rfl, hc⟩ := exists_cons_ne_star h
  simp [List.isPrefixOf, hc]

theorem readItem_plain (f : FunctionSignature) :
    readItem f p = { f with params := f.params ++ [String.ofList p] } := by
  have hstar := not_star h []
  rw [List.append_nil] at hstar
  have hequals : ¬p.contains '=' = true := by simpa using h.notMem (c := '=') (by decide)
  rw [readItem, if_neg hstar.1, if_neg hstar.2, if_neg hequals]

theorem readItem_default (f : FunctionSignature) (tail : List Char) :
    readItem f (p ++ '=' :: tail) =
      { f with params := f.params ++ [String.ofList p], defaults := f.defaults + 1 } := by
  have hstar := not_star h ('=' :: tail)
  have hequals : (p ++ '=' :: tail).contains '=' = true := by simp
  have hname : (p ++ '=' :: tail).takeWhile (· != '=') = p := by
    rw [List.takeWhile_append_of_pos fun c hc => by
      simpa using ne_of_mem_of_not_mem hc (h.notMem (c := '=') (by decide))]
    simp
  rw [readItem, if_neg hstar.1, if_neg hstar.2, if_pos hequals, hname,
    trim_of_trimmed h.isPiece.trimmed]

theorem readItem_star (f : FunctionSignature) :
    readItem f ('*' :: p) = { f with varargs := true } := by
  obtain ⟨c, cs, rfl, hc⟩ := exists_cons_ne_star h
  simp [readItem, List.isPrefixOf, hc]

omit h in
theorem readItem_doubleStar (f : FunctionSignature) :
    readItem f ('*' :: '*' :: p) = { f with keywords := true } := by
  simp [readItem]

end Items

theorem foldl_readItem_plain {ps : List (List Char)} (h : ∀ p ∈ ps, IsParameter p)
    (f : FunctionSignature) :
    ps.foldl readItem f = { f with params := f.params ++ ps.map String.ofList } := by
  induction ps generalizing f with
  | nil => simp
  | cons p ps ih =>
    rw [List.forall_mem_cons] at h
    rw [List.foldl_cons, readItem_plain h.1, ih h.2]
    simp

theorem foldl_readItem_defaults (ds : List TextDefault) (f : FunctionSignature) :
    (ds.map TextDefault.chars).foldl readItem f =
      { f with
        params := f.params ++ ds.map fun d => String.ofList d.name
        defaults := f.defaults + .ofNat ds.length } := by
  induction ds generalizing f with
  | nil => simp
  | cons d ds ih =>
    rw [List.map_cons, List.foldl_cons, TextDefault.chars, readItem_default d.isParameter, ih]
    simp [UInt64.add_assoc, UInt64.add_comm 1]

theorem foldl_readItem_stars (h : FunctionHead) (f : FunctionSignature) :
    h.stars.foldl readItem f =
      { f with
        varargs := f.varargs || h.star.isSome, keywords := f.keywords || h.doubleStar.isSome } := by
  have hstar := h.isParameter_cases.2.1
  rw [FunctionHead.stars]
  cases hs : h.star with
  | none => cases hd : h.doubleStar <;> simp [readItem_doubleStar]
  | some p =>
    have hp := hstar p (by simp [hs])
    cases hd : h.doubleStar <;> simp [readItem_star hp, readItem_doubleStar]

theorem FunctionHead.parameters_params (h : FunctionHead) : parameters h.params = h.signature := by
  have hitems : items h.params = h.pieces :=
    items_intercalate (fun p hp => (h.isPiece p hp).unsplit)
      fun p hp => ⟨(h.isPiece p hp).trimmed, (h.isPiece p hp).nonempty⟩
  have hplain := h.isParameter_cases.1
  rw [parameters, hitems, pieces, List.foldl_append, List.foldl_append, foldl_readItem_plain hplain,
    foldl_readItem_defaults, foldl_readItem_stars]
  simp [signature]

theorem exists_of_depthAfter_none {depth : Nat} {cs : List Char}
    (h : depthAfter '(' ')' depth cs = none) :
    ∃ xs ys depth', cs = xs ++ ')' :: ys ∧ depthAfter '(' ')' depth xs = some depth' ∧
    depth' ≤ 1 := by
  fun_induction depthAfter '(' ')' depth cs with
  | case1 => cases h
  | case2 depth cs ih =>
    obtain ⟨xs, ys, depth', rfl, hxs, hle⟩ := ih h
    exact ⟨'(' :: xs, ys, depth', rfl, by rwa [depthAfter, if_pos rfl], hle⟩
  | case3 depth cs hdepth hopening => exact ⟨[], cs, depth, rfl, rfl, hdepth⟩
  | case4 depth cs hdepth hopening ih =>
    obtain ⟨xs, ys, depth', rfl, hxs, hle⟩ := ih h
    exact ⟨')' :: xs, ys, depth',
      rfl, by rwa [depthAfter, if_neg hopening, if_pos rfl, if_neg hdepth], hle⟩
  | case5 depth c cs hopening hclosing ih =>
    obtain ⟨xs, ys, depth', rfl, hxs, hle⟩ := ih h
    exact ⟨c :: xs, ys, depth', rfl, by rwa [depthAfter, if_neg hopening, if_neg hclosing], hle⟩

theorem readDefaults_cases {depth : Nat} {ds : List TextDefault}
    (h : depthAfter '(' ')' depth (ds.flatMap TextDefault.content) = none) :
    ∃ before d behind xs ys depth', ds = before ++ d :: behind ∧ readDefaults depth ds =
      before ++ [d] ∧ d.content = xs ++ ')' :: ys ∧
      depthAfter '(' ')' depth (before.flatMap TextDefault.content ++ xs) = some depth' ∧
      depth' ≤ 1 := by
  induction ds generalizing depth with
  | nil => cases h
  | cons d ds ih =>
    rw [List.flatMap_cons, depthAfter_append] at h
    cases hd : depthAfter '(' ')' depth d.content with
    | none =>
      obtain ⟨xs, ys, depth', hcontent, hxs, hle⟩ := exists_of_depthAfter_none hd
      exact ⟨[], d, ds, xs, ys, depth', rfl, by simp [readDefaults, hd], hcontent, hxs, hle⟩
    | some depth₁ =>
      rw [hd] at h
      obtain ⟨before, d', behind, xs, ys, depth', rfl, hread, hcontent, hdepth, hle⟩ := ih h
      refine ⟨d :: before, d', behind, xs, ys, depth',
        rfl, by simp [readDefaults, hd, hread], hcontent, ?_, hle⟩
      rw [List.flatMap_cons, List.append_assoc, depthAfter_append, hd]
      exact hdepth

theorem intercalate_append_cons (xs : List (List Char)) (u v : List Char) (ys : List (List Char)) :
    ∃ w, [',', ' '].intercalate (xs ++ (u ++ v) :: ys) = [',', ' '].intercalate (xs ++ [u]) ++
      (v ++ w) := by
  induction xs with
  | nil =>
    cases ys with
    | nil => exact ⟨[], by simp⟩
    | cons y ys =>
      exact ⟨[',', ' '] ++ [',', ' '].intercalate (y :: ys), by simp [List.intercalate_cons_cons]⟩
  | cons x xs ih =>
    obtain ⟨w, hw⟩ := ih
    refine ⟨w, ?_⟩
    cases xs <;> simp_all [List.intercalate_cons_cons]

theorem TextDefault.trim_cut (d : TextDefault) (xs : List Char) :
    trim (d.name ++ '=' :: d.mark :: xs) = d.name ++ '=' :: trimEnd (d.mark :: xs) := by
  obtain ⟨c, cs, hcs, hc⟩ := d.exists_name
  rw [hcs, List.cons_append, trim_cons hc, trimEnd_append_cons (by decide)]
  rfl

/-- If a default closes the parentheses, the parameters up to it are read. -/
theorem FunctionHead.exists_cut (h : FunctionHead)
    (hnone : depthAfter '(' ')' 1 h.contents = none) :
    ∃ inner tail depth, h.params = inner ++ ')' :: tail ∧ depthAfter '(' ')' 1 inner = some depth ∧
    depth ≤ 1 ∧
      parameters inner = h.cut.signature := by
  obtain ⟨before, d, behind, xs, ys, depth, hdefaults, hread, hcontent, hdepth, hle⟩ :=
    readDefaults_cases hnone
  have hplain := h.isParameter_cases.1
  have hmark : d.mark ∉ xs :=
    fun hmem => d.mark_notMem (by rw [hcontent]; exact List.mem_append_left _ hmem)
  have hchars : d.chars = (d.name ++ '=' :: d.mark :: xs) ++ (')' :: (ys ++ [d.mark])) := by
    simp [TextDefault.chars, hcontent]
  obtain ⟨w, hw⟩ := intercalate_append_cons (h.plain ++ before.map TextDefault.chars)
    (d.name ++ '=' :: d.mark :: xs)
    (')' :: (ys ++ [d.mark])) (behind.map TextDefault.chars ++ h.stars)
  refine ⟨[',', ' '].intercalate (h.plain ++ before.map TextDefault.chars ++
    [d.name ++ '=' :: d.mark :: xs]), ys ++ [d.mark] ++ w, depth, ?_, ?_, hle, ?_⟩
  · rw [← List.cons_append, ← hw, params, pieces, hdefaults, ← hchars]
    simp
  · rw [← depthAfter_filter, filter_isParen_intercalate, List.flatMap_append, List.flatMap_append,
      flatMap_filter_plain hplain, flatMap_filter_defaults, List.flatMap_singleton,
      d.filter_isParen, List.nil_append, ← List.filter_append, depthAfter_filter]
    exact hdepth
  · have hpieces : ∀ p ∈ h.plain ++ before.map TextDefault.chars, IsPiece p := by
      rw [List.forall_mem_append, List.forall_mem_map]
      exact ⟨fun p hp => (hplain p hp).isPiece, fun d _ => d.isPiece⟩
    have hlast (part : List Char) : splitCommas 0 none part (d.name ++ '=' :: d.mark :: xs) =
        [part.reverse ++ (d.name ++ '=' :: d.mark :: xs)] := by
      have hsplit := bare_unsplit d.isParameter.bare_equals 0 part (d.mark :: xs)
      rw [splitCommas_cut d.isMark hmark] at hsplit
      simpa using hsplit
    have hitems := itemsOf_intercalate (fun p hp => (hpieces p hp).unsplit)
      (fun p hp => ⟨(hpieces p hp).trimmed, (hpieces p hp).nonempty⟩) hlast (by simp [d.trim_cut])
      (show Blank [] by simp [Blank])
    rw [parameters, items_eq, hitems, d.trim_cut, List.foldl_append, List.foldl_append,
      foldl_readItem_plain hplain, foldl_readItem_defaults, List.foldl_cons,
      readItem_default d.isParameter, List.foldl_nil, signature, cut, hread]
    simp

/-- A function can begin behind the text: it ends a line, outside of quotes, and its functions are
closed. -/
structure Ready (before : String) : Prop where
  endsLine : EndsLine before.toList
  code : before.toList.foldl Mode.step .code = .code
  closes : headsClose true (stripComments none before.toList) = true

theorem endsLine_strip {cs : List Char} (h : EndsLine cs) (mode : Mode) :
    EndsLine (mode.strip cs) := by
  rcases h with rfl | h
  · exact .inl mode.strip_nil
  · obtain ⟨xs, rfl⟩ := List.getLast?_eq_some_iff.mp h
    rw [Mode.strip_append, Mode.strip_cons, Mode.keep_lineFeed, Mode.strip_nil, List.append_nil]
    exact .inr List.getLast?_concat

theorem Ready.settled {before : String} (h : Ready before) :
    Settled (stripComments none before.toList) :=
  ⟨endsLine_strip h.endsLine .code, h.closes⟩

theorem Ready.stripComments {before : String} (h : Ready before) (cs : List Char) :
    stripComments none (before.toList ++ cs) =
      stripComments none before.toList ++ stripComments none cs := by
  have hstrip := Mode.code.strip_append before.toList cs
  rwa [h.code] at hstrip

theorem functionsOf_behind {before : String} (hbefore : Ready before) (h : FunctionHead)
    (rest : String) :
    ∃ m, functionsOf (before ++ h.text ++ rest) =
      functionsOf before ++ functions m (h.chars ++ SourceText.stripComments none rest.toList) := by
  have htop : StartsTop (h.chars ++ SourceText.stripComments none rest.toList) :=
    ⟨'d', _, rfl, by decide⟩
  obtain ⟨m, hm⟩ := functions_append hbefore.settled htop 1
  refine ⟨m, ?_⟩
  rw [functionsOf, String.toList_append, String.toList_append, FunctionHead.text,
    String.toList_ofList, List.append_assoc, hbefore.stripComments,
    stripComments_append _ h.quoteAfter_chars, hm, functionsOf]

/-- Behind a text that is ready, a function is found with the parameters up to where its parentheses
close, and behind it come the functions of the rest. -/
theorem functionsOf_head {before : String} (hbefore : Ready before) (h : FunctionHead)
    {inner tail : List Char} (hparams : h.params ++ [')'] = inner ++ ')' :: tail) {depth : Nat}
    (hdepth : depthAfter '(' ')' 1 inner = some depth) (hle : depth ≤ 1) (rest : String) :
    ∃ fs gs body, functionsOf (before ++ h.text ++ rest) =
        fs ++ ⟨String.ofList h.name, inner, body⟩ :: gs ∧
      gs.map FunctionText.head = (functionsOf rest).map FunctionText.head := by
  obtain ⟨m, hsource⟩ := functionsOf_behind hbefore h rest
  generalize hbehind : SourceText.stripComments none rest.toList = behind at hsource
  have hchars : h.chars ++ behind =
      "def ".toList ++ (h.name ++ '(' :: (inner ++ ')' :: (tail ++ [':'] ++ '\n' :: behind))) := by
    have hassoc : h.chars = "def ".toList ++
        (h.name ++ '(' :: ((h.params ++ [')']) ++ ':' :: ['\n'])) := by
      simp [FunctionHead.chars]
    rw [hassoc, hparams]
    simp
  have hline : '\n' ∉ tail ++ [':'] := by
    have hmem : '\n' ∉ h.params ++ [')'] := by simpa using h.oneLine
    rw [hparams] at hmem
    simp_all
  have hnext := nextLine_append hline behind
  have hhead := head?_define h.isWord hdepth hle (tail ++ [':'] ++ '\n' :: behind)
  rw [hchars, functions_of_some hhead, hnext] at hsource
  refine ⟨_, _, _, hsource, ?_⟩
  rw [functionsOf, hbehind]
  exact map_head_functions_bodyLines _ _ 1 behind

section Open

variable (h : FunctionHead) {depth : Nat}
  (hdepth : depthAfter '(' ')' 1 h.contents = some (depth + 2))
include hdepth

/-- Parentheses that a default leaves open are looked for in the lines that follow. -/
theorem FunctionHead.head?_open (behind : List Char) :
    head? (h.chars ++ behind) = (upToClosing '(' ')' (depth + 1) behind).map fun x =>
      (h.name, h.params ++ "):\n".toList ++ x.1, x.2) := by
  have hopen : depthAfter '(' ')' 1 (h.params ++ "):\n".toList) = some (depth + 1) := by
    rw [depthAfter_append, h.depthAfter_params, hdepth]
    simp [depthAfter]
  have hchars : h.chars ++ behind =
      "def ".toList ++ (h.name ++ '(' :: (h.params ++ "):\n".toList ++ behind)) := by
    simp [FunctionHead.chars]
  rw [hchars, head?_word h.isWord, upToClosing_of_depthAfter hopen, Option.map_map]
  rfl

variable {before : String} (hbefore : Ready before) (rest : String)
include hbefore

theorem exists_mem_functionsOf_open {inner tail : List Char}
    (hrest : upToClosing '(' ')' (depth + 1) (SourceText.stripComments none rest.toList) =
      some (inner, tail)) :
    ∃ f ∈ functionsOf (before ++ h.text ++ rest), f.name = String.ofList h.name ∧
      f.params = h.params ++ "):\n".toList ++ inner := by
  obtain ⟨m, hsource⟩ := functionsOf_behind hbefore h rest
  have hhead := h.head?_open hdepth (SourceText.stripComments none rest.toList)
  rw [hrest] at hhead
  rw [hsource, functions_of_some hhead]
  exact ⟨_, List.mem_append_right _ List.mem_cons_self, rfl, rfl⟩

theorem head_functionsOf_open
    (hrest : upToClosing '(' ')' (depth + 1) (SourceText.stripComments none rest.toList) = none) :
    (functionsOf (before ++ h.text ++ rest)).map FunctionText.head =
      (functionsOf before ++ functionsOf rest).map FunctionText.head := by
  obtain ⟨m, hsource⟩ := functionsOf_behind hbefore h rest
  have hhead := h.head?_open hdepth (SourceText.stripComments none rest.toList)
  rw [hrest] at hhead
  have hnext : nextLine (h.chars ++ SourceText.stripComments none rest.toList) =
      SourceText.stripComments none rest.toList := by
    have hname : '\n' ∉ h.name := fun hmem => absurd (h.isWord _ hmem) (by decide)
    have hline : '\n' ∉ "def ".toList ++ (h.name ++ '(' :: (h.params ++ [')', ':'])) := by
      simp [hname, h.oneLine]
    have hnext := nextLine_append hline (SourceText.stripComments none rest.toList)
    simpa [FunctionHead.chars] using hnext
  rw [hsource, functions_of_none hhead, hnext, List.map_append, List.map_append, functionsOf,
    functionsOf]
  exact congrArg _ (map_head_functions _ _ _)

end Open

end SourceText

namespace Table

variable {κ α : Type} [Ord κ] [Std.TransOrd κ] [Std.LawfulEqOrd κ] [DecidableEq κ]

theorem get?_ofList_left (xs : List (κ × α)) {k : κ} {ys : List (κ × α)} (h : k ∉ ys.map Prod.fst) :
    (ofList (xs ++ ys)).get? k = (ofList xs).get? k := by
  have hkeep : ∀ t : Table κ α, (ys.foldl (fun t e => t.insert e.1 e.2) t).get? k = t.get? k := by
    induction ys with
    | nil => exact fun t => rfl
    | cons e ys ih =>
      intro t
      rw [List.map_cons, List.mem_cons, not_or] at h
      rw [List.foldl_cons, ih h.2, get?_insert, if_neg h.1]
  rw [ofList, List.foldl_append, hkeep, ofList]

theorem get?_ofList_append (xs : List (κ × α)) (k : κ) (v : α) {ys : List (κ × α)}
    (h : k ∉ ys.map Prod.fst) :
    (ofList (xs ++ (k, v) :: ys)).get? k = some v := by
  rw [List.append_cons, get?_ofList_left _ h, ofList, List.foldl_append, List.foldl_cons,
    List.foldl_nil, get?_insert, if_pos rfl]

theorem mem_of_get?_ofList {l : List (κ × α)} {k : κ} {v : α} (h : (ofList l).get? k = some v) :
    (k, v) ∈ l := by
  have hfold : ∀ (l : List (κ × α)) (t : Table κ α),
      (l.foldl (fun t e => t.insert e.1 e.2) t).get? k = some v →
      (k, v) ∈ l ∨ t.get? k = some v := by
    intro l
    induction l with
    | nil => exact fun t ht => .inr ht
    | cons e l ih =>
      intro t ht
      rcases ih _ ht with hmem | hget
      · exact .inl (List.mem_cons_of_mem e hmem)
      · rw [get?_insert] at hget
        by_cases hk : k = e.1
        · rw [if_pos hk] at hget
          cases hget
          exact .inl (by simp [hk])
        · rw [if_neg hk] at hget
          exact .inr hget
  rcases hfold l empty h with hmem | hget
  · exact hmem
  · cases hget

end Table

open SourceText

theorem get?_scanFunctions {source : String} {fs gs : List FunctionText} {f : FunctionText}
    (h : functionsOf source = fs ++ f :: gs) (hlast : ∀ g ∈ gs, g.name ≠ f.name) :
    (scanFunctions source).get? f.name = some (parameters f.params) := by
  rw [scanFunctions, h, List.map_append, List.map_cons]
  apply Table.get?_ofList_append
  simpa [Function.comp_def] using hlast

section Module

variable {before rest : String} (hbefore : Ready before) (h : FunctionHead)
  (hlast : ∀ g ∈ functionsOf rest, g.name ≠ String.ofList h.name)
include hbefore hlast

theorem get?_scanFunctions_head {inner tail : List Char}
    (hparams : h.params ++ [')'] = inner ++ ')' :: tail) {depth : Nat}
    (hdepth : depthAfter '(' ')' 1 inner = some depth) (hle : depth ≤ 1) :
    (scanFunctions (before ++ h.text ++ rest)).get? (String.ofList h.name) =
      some (parameters inner) := by
  obtain ⟨fs, gs, body, hfunctions, hgs⟩ := functionsOf_head hbefore h hparams hdepth hle rest
  have hothers : ∀ g ∈ gs, g.name ≠ String.ofList h.name := by
    intro g hg
    have hmem : g.head ∈ (functionsOf rest).map FunctionText.head := hgs ▸ List.mem_map_of_mem hg
    obtain ⟨g', hg', heq⟩ := List.mem_map.mp hmem
    have hname : g'.name = g.name := congrArg Prod.fst heq
    rw [← hname]
    exact hlast g' hg'
  have hget := get?_scanFunctions hfunctions hothers
  exact hget

theorem get?_scanFunctions_open {depth : Nat}
    (hdepth : depthAfter '(' ')' 1 h.contents = some (depth + 2))
    (hrest : upToClosing '(' ')' (depth + 1) (stripComments none rest.toList) = none) :
    (scanFunctions (before ++ h.text ++ rest)).get? (String.ofList h.name) =
      (scanFunctions before).get? (String.ofList h.name) := by
  have hread : ∀ fs : List FunctionText, (fs.map fun f => (f.name, parameters f.params)) =
      (fs.map FunctionText.head).map fun x => (x.1, parameters x.2) := fun fs => by
    rw [List.map_map]
    rfl
  rw [scanFunctions, hread, head_functionsOf_open h hdepth hbefore rest hrest, ← hread,
    List.map_append, Table.get?_ofList_left _ (by simpa [Function.comp_def] using hlast),
    scanFunctions]

end Module

theorem wordChars_of_get? {source name : String} (h : ((scanFunctions source).get? name).isSome) :
    WordChars name := by
  obtain ⟨signature, hsignature⟩ := Option.isSome_iff_exists.mp h
  have hmem := Table.mem_of_get?_ofList hsignature
  obtain ⟨f, hf, heq⟩ := List.mem_map.mp hmem
  cases heq
  exact wordChars_of_mem_functions hf

/-- Nothing is lost if the last default closes the parentheses, and no stars follow. -/
theorem cut_signature_eq_iff (h : FunctionHead) (hnone : depthAfter '(' ')' 1 h.contents = none) :
    h.cut.signature = h.signature ↔ h.cut.defaults = h.defaults ∧ h.star = none ∧
    h.doubleStar = none := by
  obtain ⟨before, d, behind, xs, ys, depth, hdefaults, hread, -⟩ := readDefaults_cases hnone
  have hcut : h.cut.defaults = before ++ [d] := hread
  constructor
  · intro heq
    have hlength : h.cut.signature.params.length = h.signature.params.length := by rw [heq]
    have hstar : false = h.star.isSome := congrArg FunctionSignature.varargs heq
    have hdouble : false = h.doubleStar.isSome := congrArg FunctionSignature.keywords heq
    rw [h.cut.length_params, h.length_params, hcut, hdefaults] at hlength
    have hbehind : behind = [] := by
      rw [← List.length_eq_zero_iff]
      simp only [FunctionHead.cut, List.length_append, List.length_cons, List.length_nil] at hlength
      omega
    exact ⟨by rw [hcut, hdefaults, hbehind], by simpa using hstar.symm, by simpa using hdouble.symm⟩
  · rintro ⟨hsame, hstar, hdouble⟩
    rw [FunctionHead.signature, FunctionHead.signature, hsame, hstar, hdouble]
    rfl

/-- A function is read as it is written if its defaults close the parentheses that they open and no
others. If they close one more, it is read up to the default that does. If they leave one open, its
parameters go on into the lines behind it, and without an end to them the function is not found. -/
theorem scanFunctions_reads_head (h : FunctionHead) {before rest : String} (hbefore : Ready before)
    (hlast : ∀ g ∈ functionsOf rest, g.name ≠ String.ofList h.name) :
    (depthAfter '(' ')' 1 h.contents = some 1 →
      (scanFunctions (before ++ h.text ++ rest)).get? (String.ofList h.name) = some h.signature) ∧
    (depthAfter '(' ')' 1 h.contents = none →
      (scanFunctions (before ++ h.text ++ rest)).get? (String.ofList h.name) =
        some h.cut.signature ∧
      (h.cut.signature = h.signature ↔
        h.cut.defaults = h.defaults ∧ h.star = none ∧ h.doubleStar = none)) ∧
    (∀ depth, depthAfter '(' ')' 1 h.contents = some (depth + 2) →
      match upToClosing '(' ')' (depth + 1) (stripComments none rest.toList) with
      | some (inner, _) => ∃ f ∈ functionsOf (before ++ h.text ++ rest),
          f.name = String.ofList h.name ∧ f.params = h.params ++ "):\n".toList ++ inner
      | none => (scanFunctions (before ++ h.text ++ rest)).get? (String.ofList h.name) =
          (scanFunctions before).get? (String.ofList h.name)) ∧
    ∀ source name, ((scanFunctions source).get? name).isSome → WordChars name := by
  refine ⟨fun hbalanced => ?_, fun hnone => ⟨?_, cut_signature_eq_iff h hnone⟩,
    fun depth hdepth => ?_, ?_⟩
  · rw [get?_scanFunctions_head hbefore h hlast rfl ((h.depthAfter_params 1).trans hbalanced)
      (Nat.le_refl 1), h.parameters_params]
  · obtain ⟨inner, tail, depth, hparams, hdepth, hle, hsignature⟩ := h.exists_cut hnone
    have hclose : h.params ++ [')'] = inner ++ ')' :: (tail ++ [')']) := by simp [hparams]
    rw [get?_scanFunctions_head hbefore h hlast hclose hdepth hle, hsignature]
  · split
    · rename_i hrest
      exact exists_mem_functionsOf_open h hdepth hbefore rest hrest
    · rename_i hrest
      exact get?_scanFunctions_open hbefore h hlast hdepth hrest
  · exact fun source name => wordChars_of_get?

def nestedDefault : FunctionHead where
  name := ['f']
  plain := [['a']]
  defaults := [⟨['b'], '\'', ['(', '#', ',', '=', ')'], by decide, by decide, by simp⟩]
  star := some "rest".toList
  doubleStar := none
  isWord := List.all_eq_true.mp rfl
  isParameter := by decide

/-- Between other functions, and behind a comment with a mark in it. -/
theorem scanFunctions_nestedDefault :
    (scanFunctions ("# it's f\ndef g(x):\n  return x\n\n" ++ "def f(a, b='(#,=)', *rest):\n"
        ++ "  return a\n\ndef h():\n  pass")).get? "f" = some ⟨["a", "b"], 1, true, false⟩ := by
  have hbefore : Ready "# it's f\ndef g(x):\n  return x\n\n" :=
    ⟨by decide +kernel, by decide +kernel, by decide +kernel⟩
  have hlast : ∀ g ∈ functionsOf "  return a\n\ndef h():\n  pass", g.name ≠ "f" := by decide +kernel
  exact (scanFunctions_reads_head nestedDefault hbefore hlast).1 (by decide)

/-- Parentheses between quotes: what stands behind a closing one is not read, and with an opening
one the function is not found. -/
theorem scanFunctions_parenDefaults :
    (scanFunctions "def f(a, b=')', c='x'):\n  return a\n").get? "f" =
      some ⟨["a", "b"], 1, false, false⟩ ∧
    (scanFunctions "def f(a, b='('):\n  return a\n").get? "f" = none := by
  decide +kernel

end PipelineLang
