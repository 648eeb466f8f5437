import PipelineLang.Interface.Scan
import PipelineLang.Target.Literal

/-! Reading a text piece by piece: what stripping comments, matching brackets and splitting at
commas do with a piece of text in front of any rest. -/

namespace PipelineLang

variable {c : Char} {part : List Char}

namespace SourceText

/-- The quote that is open behind a text, if no comment begins in it and it does not end in an
escape. -/
def quoteAfter : Option Char → List Char → Option (Option Char)
  | quote, [] => some quote
  | none, c :: cs =>
    if c = '#' then none else quoteAfter (if c = '\'' || c = '"' then some c else none) cs
  | some q, c :: cs =>
    if c = '\\' then
      match cs with
      | [] => none
      | _ :: cs => quoteAfter (some q) cs
    else quoteAfter (if c = q then none else some q) cs

theorem quoteAfter_append {quote quote' : Option Char} {xs : List Char} (ys : List Char)
    (h : quoteAfter quote xs = some quote') :
    quoteAfter quote (xs ++ ys) = quoteAfter quote' ys := by
  fun_induction quoteAfter quote xs with
  | case1 quote => rw [← Option.some.inj h, List.nil_append]
  | case2 => cases h
  | case3 c cs hc ih =>
    rw [List.cons_append, quoteAfter, if_neg hc]
    exact ih h
  | case4 => cases h
  | case5 q c cs ih => simpa [quoteAfter] using ih h
  | case6 q c cs hc ih =>
    rw [List.cons_append, quoteAfter.eq_def]
    simpa only [if_neg hc] using ih h

theorem stripComments_append {quote quote' : Option Char} {xs : List Char} (ys : List Char)
    (h : quoteAfter quote xs = some quote') :
    stripComments quote (xs ++ ys) = xs ++ stripComments quote' ys := by
  fun_induction quoteAfter quote xs with
  | case1 quote => rw [← Option.some.inj h, List.nil_append, List.nil_append]
  | case2 => cases h
  | case3 c cs hc ih =>
    rw [List.cons_append, stripComments, if_neg hc, ih h]
    rfl
  | case4 => cases h
  | case5 q c cs ih => simpa [stripComments] using ih h
  | case6 q c cs hc ih =>
    rw [List.cons_append, stripComments.eq_def]
    simp only [if_neg hc, ih h, List.cons_append]

theorem stripComments_comment {cs : List Char} (h : '\n' ∉ cs) (rest : List Char) :
    stripComments none ('#' :: (cs ++ '\n' :: rest)) = '\n' :: stripComments none rest := by
  have hdrop : (cs ++ '\n' :: rest).dropWhile (· != '\n') = '\n' :: rest := by
    rw [List.dropWhile_append_of_pos fun c hc => by simpa using ne_of_mem_of_not_mem hc h]
    rfl
  rw [stripComments, if_pos rfl, hdrop, stripComments, if_neg (by decide)]
  rfl

/-- Characters that neither open a quote nor begin a comment. -/
def isPlain (c : Char) : Bool := c != '#' && c != '\'' && c != '"'

theorem quoteAfter_of_plain {cs : List Char} (h : ∀ c ∈ cs, isPlain c = true) :
    quoteAfter none cs = some none := by
  induction cs with
  | nil => rfl
  | cons c cs ih =>
    rw [List.forall_mem_cons] at h
    have hc := h.1
    simp only [isPlain, Bool.and_eq_true, bne_iff_ne] at hc
    simp [quoteAfter, hc, ih h.2]

theorem notMem_quote (s : String) :
    '\n' ∉ (Target.quote s).toList ∧ '\r' ∉ (Target.quote s).toList := by
  have hchar : ∀ c, '\n' ∉ Target.escapeChar c ∧ '\r' ∉ Target.escapeChar c := by
    intro c
    unfold Target.escapeChar
    grind
  simp [Target.quote, Target.quoteChars, hchar]

theorem quoteAfter_quoteChars (cs : List Char) :
    quoteAfter none (Target.quoteChars cs) = some none := by
  have hbody : ∀ cs : List Char, quoteAfter (some '\'') (cs.flatMap Target.escapeChar) =
      some (some '\'') := by
    intro cs
    induction cs with
    | nil => rfl
    | cons c cs ih =>
      have hchar : quoteAfter (some '\'') (Target.escapeChar c) = some (some '\'') := by
        unfold Target.escapeChar
        grind [quoteAfter]
      rw [List.flatMap_cons, quoteAfter_append _ hchar, ih]
  rw [Target.quoteChars, quoteAfter, if_neg (by decide)]
  exact quoteAfter_append _ (hbody cs)

/-- Where a text stands: in a comment, between quotes, behind a backslash there, or in none of
these. -/
inductive Mode where
  | code
  | comment
  | quoted (q : Char)
  | escaped (q : Char)
deriving DecidableEq

namespace Mode

def step : Mode → Char → Mode
  | code, c => if c = '#' then comment else if c = '\'' || c = '"' then quoted c else code
  | comment, c => if c = '\n' then code else comment
  | quoted q, c => if c = '\\' then escaped q else if c = q then code else quoted q
  | escaped q, _ => quoted q

def keep : Mode → Char → List Char
  | code, c => if c = '#' then [] else [c]
  | comment, c => if c = '\n' then [c] else []
  | quoted _, c | escaped _, c => [c]

theorem keep_lineFeed (mode : Mode) : mode.keep '\n' = ['\n'] := by
  cases mode <;> rfl

def strip : Mode → List Char → List Char
  | code, cs => stripComments none cs
  | comment, cs => stripComments none (cs.dropWhile (· != '\n'))
  | quoted q, cs => stripComments (some q) cs
  | escaped q, cs => cs.take 1 ++ stripComments (some q) (cs.drop 1)

theorem strip_nil (mode : Mode) : mode.strip [] = [] := by
  cases mode <;> simp [strip, stripComments]

theorem strip_cons (mode : Mode) (c : Char) (cs : List Char) :
    mode.strip (c :: cs) = mode.keep c ++ (mode.step c).strip cs := by
  cases mode with
  | code =>
    rw [strip, stripComments, keep, step]
    by_cases hcomment : c = '#'
    · simp [hcomment, strip]
    · by_cases hmark : c = '\'' ∨ c = '"' <;> simp [hcomment, hmark, strip]
  | comment =>
    rw [strip, keep, step]
    by_cases hline : c = '\n'
    · simp [hline, strip, stripComments]
    · simp [hline, strip]
  | quoted q =>
    rw [strip, stripComments.eq_def, keep, step]
    by_cases hslash : c = '\\'
    · cases cs <;> simp [hslash, strip, stripComments]
    · by_cases hmark : c = q
      · subst hmark
        simp [hslash, strip]
      · simp [hslash, hmark, strip]
  | escaped q => simp [strip, keep, step]

theorem strip_append (mode : Mode) (xs ys : List Char) :
    mode.strip (xs ++ ys) = mode.strip xs ++ (xs.foldl step mode).strip ys := by
  induction xs generalizing mode with
  | nil => rw [strip_nil, List.nil_append, List.nil_append, List.foldl_nil]
  | cons c xs ih =>
    rw [List.cons_append, strip_cons, ih, strip_cons, List.append_assoc, List.foldl_cons]

end Mode

section Brackets

variable {opening closing : Char} {depth depth' : Nat} {xs cs inner rest : List Char}

/-- The depth of brackets behind a text that begins at the given depth, if it does not close them
all. -/
def depthAfter (opening closing : Char) : Nat → List Char → Option Nat
  | depth, [] => some depth
  | depth, c :: cs =>
    if c = opening then depthAfter opening closing (depth + 1) cs
    else if c = closing then if depth ≤ 1 then none else depthAfter opening closing (depth - 1) cs
    else depthAfter opening closing depth cs

theorem depthAfter_append (depth : Nat) (xs ys : List Char) :
    depthAfter opening closing depth (xs ++ ys) =
      (depthAfter opening closing depth xs).bind fun depth => depthAfter opening closing depth
        ys := by
  fun_induction depthAfter opening closing depth xs with
  | case1 => rfl
  | case2 depth xs ih => simp [depthAfter, ih]
  | case3 depth xs hdepth hopening => simp [depthAfter, hopening, hdepth]
  | case4 depth xs hdepth hopening ih => simp [depthAfter, hopening, hdepth, ih]
  | case5 depth c xs hopening hclosing ih => simp [depthAfter, hopening, hclosing, ih]

theorem depthAfter_of_notMem (ho : opening ∉ cs) (hc : closing ∉ cs) (depth : Nat) :
    depthAfter opening closing depth cs = some depth := by
  induction cs with
  | nil => rfl
  | cons c cs ih =>
    simp only [List.mem_cons, not_or] at ho hc
    rw [depthAfter, if_neg (Ne.symm ho.1), if_neg (Ne.symm hc.1), ih ho.2 hc.2]

theorem upToClosing_of_depthAfter (h : depthAfter opening closing depth xs = some depth')
    (cs : List Char) :
    upToClosing opening closing depth (xs ++ cs) =
      (upToClosing opening closing depth' cs).map fun found => (xs ++ found.1, found.2) := by
  fun_induction depthAfter opening closing depth xs with
  | case1 depth =>
    cases h
    simp
  | case2 depth xs ih => simp [upToClosing, ih h, Function.comp_def]
  | case3 => cases h
  | case4 depth xs hdepth hopening ih =>
    simp [upToClosing, hopening, hdepth, ih h, Function.comp_def]
  | case5 depth c xs hopening hclosing ih =>
    simp [upToClosing, hopening, hclosing, ih h, Function.comp_def]

theorem upToClosing_closing (hne : opening ≠ closing)
    (h : depthAfter opening closing depth inner = some depth') (hdepth : depth' ≤ 1)
    (rest : List Char) :
    upToClosing opening closing depth (inner ++ closing :: rest) = some (inner, rest) := by
  rw [upToClosing_of_depthAfter h, upToClosing, if_neg hne.symm, if_pos rfl, if_pos hdepth]
  simp

theorem depthAfter_of_upToClosing (h : upToClosing opening closing depth cs = some (inner, rest)) :
    cs = inner ++ closing :: rest ∧ ∃ depth', depthAfter opening closing depth inner = some depth' ∧
    depth' ≤ 1 := by
  fun_induction upToClosing opening closing depth cs generalizing inner rest with
  | case1 => cases h
  | case3 depth cs hdepth =>
    cases h
    exact ⟨rfl, depth, rfl, hdepth⟩
  | case2 _ _ ih | case4 _ _ _ _ ih | case5 _ _ _ _ _ ih =>
    obtain ⟨x, hx, heq⟩ := Option.map_eq_some_iff.mp h
    cases heq
    obtain ⟨rfl, hdepth⟩ := ih hx
    exact ⟨rfl, by simp [depthAfter, *]⟩

theorem bracketed_closing (hne : opening ≠ closing)
    (h : depthAfter opening closing 1 inner = some depth') (hdepth : depth' ≤ 1)
    (rest : List Char) :
    bracketed opening closing (opening :: (inner ++ closing :: rest)) = some (inner, rest) := by
  rw [bracketed, if_pos rfl, upToClosing_closing hne h hdepth]

theorem depthAfter_of_bracketed (h : bracketed opening closing cs = some (inner, rest)) :
    cs = opening :: (inner ++ closing :: rest) ∧
      ∃ depth', depthAfter opening closing 1 inner = some depth' ∧ depth' ≤ 1 := by
  cases cs with
  | nil => cases h
  | cons c cs =>
    rw [bracketed] at h
    by_cases hopening : c = opening
    · rw [if_pos hopening] at h
      obtain ⟨rfl, hdepth⟩ := depthAfter_of_upToClosing h
      exact ⟨by rw [hopening], hdepth⟩
    · rw [if_neg hopening] at h
      cases h

theorem bracketed_eq (h : bracketed opening closing cs = some (inner, rest)) :
    cs = opening :: (inner ++ closing :: rest) :=
  (depthAfter_of_bracketed h).1

theorem bracketed_of_not_mem (hne : opening ≠ closing) (ho : opening ∉ cs) (hc : closing ∉ cs)
    (rest : List Char) :
    bracketed opening closing (opening :: (cs ++ closing :: rest)) = some (cs, rest) :=
  bracketed_closing hne (depthAfter_of_notMem ho hc 1) (Nat.le_refl 1) rest

theorem bracketed_append (hne : opening ≠ closing)
    (h : bracketed opening closing cs = some (inner, rest)) (more : List Char) :
    bracketed opening closing (cs ++ more) = some (inner, rest ++ more) := by
  obtain ⟨rfl, depth', hdepth, hle⟩ := depthAfter_of_bracketed h
  rw [List.cons_append, List.append_assoc, List.cons_append, bracketed_closing hne hdepth hle]

end Brackets

section Splitting

variable {depth depth' depth'' : Int} {q : Char} {cs cs' : List Char}

attribute [local simp] splitCommas

theorem splitCommas_quoted (h : q ∉ cs) (part rest : List Char) :
    splitCommas depth (some q) part (cs ++ q :: rest) =
      splitCommas depth none (q :: (cs.reverse ++ part)) rest := by
  induction cs generalizing part with
  | nil => simp
  | cons c cs ih =>
    simp only [List.mem_cons, not_or] at h
    rw [List.cons_append, splitCommas, if_neg (Ne.symm h.1), ih h.2]
    simp

theorem splitCommas_unclosed (h : q ∉ cs) (part : List Char) :
    splitCommas depth (some q) part cs = [part.reverse ++ cs] := by
  induction cs generalizing part with
  | nil => simp
  | cons c cs ih =>
    simp only [List.mem_cons, not_or] at h
    rw [splitCommas, if_neg (Ne.symm h.1), ih h.2]
    simp

theorem splitCommas_mark (hq : q = '\'' ∨ q = '"') (part rest : List Char) :
    splitCommas depth none part (q :: rest) = splitCommas depth (some q) (q :: part) rest := by
  rw [splitCommas, if_pos (by simpa using hq)]

theorem splitCommas_cut (hq : q = '\'' ∨ q = '"') (h : q ∉ cs) (depth : Int) (part : List Char) :
    splitCommas depth none part (q :: cs) = [part.reverse ++ q :: cs] := by
  rw [splitCommas_mark hq, splitCommas_unclosed h]
  simp

/-- No comma of the piece splits: behind it the depth has changed and the piece belongs to the
part. -/
def Unsplit (depth : Int) (cs : List Char) (depth' : Int) : Prop :=
  ∀ part rest, splitCommas depth none part (cs ++ rest) =
    splitCommas depth' none (cs.reverse ++ part) rest

/-- Characters that mean nothing where a text is split: no marks, brackets and commas. -/
def isNeutral (c : Char) : Bool :=
  !(['\'', '"', '(', '[', ')', ']', ','].contains c) && c.toNat != 0x7B && c.toNat != 0x7D

namespace Unsplit

theorem nil : Unsplit depth [] depth := fun _ _ => rfl

theorem append (h : Unsplit depth cs depth') (h' : Unsplit depth' cs' depth'') :
    Unsplit depth (cs ++ cs') depth'' := by
  intro part rest
  rw [List.append_assoc, h, h', List.reverse_append, List.append_assoc]

theorem opening : Unsplit depth ['['] (depth + 1) := fun part rest => by simp

theorem closing : Unsplit depth [']'] (depth - 1) := fun part rest => by simp

theorem neutral (h : ∀ c ∈ cs, isNeutral c = true) : Unsplit depth cs depth := by
  induction cs with
  | nil => exact nil
  | cons c cs ih =>
    rw [List.forall_mem_cons] at h
    have hc := h.1
    simp only [isNeutral, List.contains_cons, List.contains_nil, Bool.and_eq_true,
      Bool.not_eq_true', Bool.or_eq_false_iff, beq_eq_false_iff_ne, bne_iff_ne] at hc
    have hone : Unsplit depth [c] depth := by
      intro part rest
      simp [hc]
    exact hone.append (ih h.2)

theorem innerComma (h : depth ≠ 0) : Unsplit depth [','] depth := fun part rest => by simp [h]

theorem comma (h : depth ≠ 0) : Unsplit depth [',', ' '] depth :=
  (innerComma h).append (neutral (List.all_eq_true.mp rfl))

theorem marked (hq : q = '\'' ∨ q = '"') (h : q ∉ cs) : Unsplit depth (q :: (cs ++ [q])) depth := by
  intro part rest
  rw [List.cons_append, List.append_assoc, List.singleton_append, splitCommas_mark hq,
    splitCommas_quoted h]
  simp

theorem quoted (h : '\'' ∉ cs) : Unsplit depth ('\'' :: (cs ++ ['\''])) depth := marked (.inl rfl) h

theorem intercalate (h : depth ≠ 0) {pieces : List (List Char)}
    (hpieces : ∀ p ∈ pieces, Unsplit depth p depth) :
    Unsplit depth ([',', ' '].intercalate pieces) depth := by
  induction pieces with
  | nil => exact nil
  | cons p ps ih =>
    rw [List.forall_mem_cons] at hpieces
    cases ps with
    | nil => simpa using hpieces.1
    | cons q qs =>
      rw [List.intercalate_cons_cons]
      exact (hpieces.1.append (comma h)).append (ih hpieces.2)

end Unsplit

end Splitting

def Trimmed (cs : List Char) : Prop :=
  (∀ c ∈ cs.head?, isWhiteSpace c = false) ∧ ∀ c ∈ cs.getLast?, isWhiteSpace c = false

theorem trimmed_between {d : Char} (hc : isWhiteSpace c = false) (hd : isWhiteSpace d = false)
    (cs : List Char) :
    Trimmed (c :: (cs ++ [d])) := by
  refine ⟨by simpa using hc, ?_⟩
  rw [← List.cons_append, List.getLast?_concat]
  simpa using hd

theorem trim_of_trimmed {cs : List Char} (h : Trimmed cs) : trim cs = cs := by
  have hdrop : ∀ {cs : List Char}, (∀ c ∈ cs.head?, isWhiteSpace c = false) →
      cs.dropWhile isWhiteSpace = cs := by
    intro cs h
    cases cs with
    | nil => rfl
    | cons c cs =>
      rw [List.dropWhile_cons, h c rfl]
      rfl
  rw [trim, trimStart, hdrop h.1, trimEnd, hdrop (by simpa using h.2), List.reverse_reverse]

theorem trim_cons_blank (hc : isWhiteSpace c = true) (cs : List Char) :
    trim (c :: cs) = trim cs := by
  rw [trim, trimStart, List.dropWhile_cons_of_pos hc]
  rfl

def Blank (cs : List Char) : Prop := ∀ c ∈ cs, isWhiteSpace c = true

theorem Blank.notMem {cs : List Char} (h : Blank cs) (hc : isWhiteSpace c = false) : c ∉ cs := by
  intro hmem
  rw [h c hmem] at hc
  cases hc

theorem trimEnd_append (cs : List Char) : ∃ back, Blank back ∧ cs = trimEnd cs ++ back := by
  refine ⟨(cs.reverse.takeWhile isWhiteSpace).reverse, fun c hc => ?_, ?_⟩
  · rw [List.mem_reverse] at hc
    exact List.all_eq_true.mp List.all_takeWhile c hc
  · rw [trimEnd, ← List.reverse_append, List.takeWhile_append_dropWhile, List.reverse_reverse]

theorem trim_between (cs : List Char) :
    ∃ front back, Blank front ∧ Blank back ∧ cs = front ++ (trim cs ++ back) := by
  obtain ⟨back, hback, hcs⟩ := trimEnd_append (trimStart cs)
  refine ⟨cs.takeWhile isWhiteSpace, back, List.all_eq_true.mp List.all_takeWhile, hback, ?_⟩
  rw [trim, ← hcs, trimStart, List.takeWhile_append_dropWhile]

theorem trim_blank_append {front : List Char} (h : Blank front) (cs : List Char) :
    trim (front ++ cs) = trim cs := by
  rw [trim, trim, trimStart, List.dropWhile_append_of_pos h, trimStart]

theorem trimEnd_append_blank {back : List Char} (h : Blank back) (cs : List Char) :
    trimEnd (cs ++ back) = trimEnd cs := by
  have hreverse : ∀ c ∈ back.reverse, isWhiteSpace c = true :=
    fun c hc => h c (List.mem_reverse.mp hc)
  rw [trimEnd, List.reverse_append, List.dropWhile_append_of_pos hreverse, trimEnd]

theorem trimEnd_append_cons (hc : isWhiteSpace c = false) (xs ys : List Char) :
    trimEnd (xs ++ c :: ys) = xs ++ c :: trimEnd ys := by
  have hlast : (c :: xs.reverse).dropWhile isWhiteSpace = c :: xs.reverse := by simp [hc]
  rw [trimEnd, List.reverse_append, List.reverse_cons, List.append_assoc, List.singleton_append,
    List.dropWhile_append, hlast, trimEnd]
  split
  · simp_all
  · simp

theorem trim_cons (hc : isWhiteSpace c = false) (cs : List Char) :
    trim (c :: cs) = c :: trimEnd cs := by
  rw [trim, trimStart, List.dropWhile_cons_of_neg (by simp [hc])]
  exact trimEnd_append_cons hc [] cs

theorem trim_of_between {front e back : List Char} (hfront : Blank front) (he : Trimmed e ∧ e ≠ [])
    (hback : Blank back) : trim (front ++ (e ++ back)) = e := by
  obtain ⟨c, e, rfl⟩ := List.exists_cons_of_ne_nil he.2
  have hc : isWhiteSpace c = false := he.1.1 c rfl
  have htrim := trim_of_trimmed he.1
  rw [trim_cons hc] at htrim
  rw [trim_blank_append hfront, List.cons_append, trim_cons hc, trimEnd_append_blank hback, htrim]

theorem isNeutral_of_isWhiteSpace (h : isWhiteSpace c = true) : isNeutral c = true := by
  have hne {d : Char} (hd : isWhiteSpace d = false) : c ≠ d := by
    rintro rfl
    rw [h] at hd
    cases hd
  have hopening : c.toNat ≠ 0x7B := fun hc => by simp [isWhiteSpace, hc] at h
  have hclosing : c.toNat ≠ 0x7D := fun hc => by simp [isWhiteSpace, hc] at h
  simp [isNeutral, hopening, hclosing, hne (d := '\'') (by decide), hne (d := '"') (by decide),
    hne (d := '(') (by decide), hne (d := '[') (by decide), hne (d := ')') (by decide),
    hne (d := ']') (by decide), hne (d := ',') (by decide)]

theorem Blank.unsplit {cs : List Char} (h : Blank cs) (depth : Int) : Unsplit depth cs depth :=
  .neutral fun c hc => isNeutral_of_isWhiteSpace (h c hc)

/-- The items that parts give: trimmed, and empty ones left out. -/
def itemsOf (parts : List (List Char)) : List (List Char) :=
  (parts.map trim).filter fun item => !item.isEmpty

theorem items_eq (cs : List Char) : items cs = itemsOf (splitCommas 0 none [] cs) := rfl

theorem itemsOf_blank (h : trim part = []) (parts : List (List Char)) :
    itemsOf (part :: parts) = itemsOf parts := by
  simp [itemsOf, h]

theorem itemsOf_cons (h : trim part ≠ []) (parts : List (List Char)) :
    itemsOf (part :: parts) = trim part :: itemsOf parts := by
  simp [itemsOf, h]

/-- Pieces with commas between them are the items. The last of them need not be unsplit for what
would follow. -/
theorem itemsOf_intercalate {pieces : List (List Char)} {last : List Char}
    (h : ∀ p ∈ pieces, Unsplit 0 p 0) (ht : ∀ p ∈ pieces, Trimmed p ∧ p ≠ [])
    (hlast : ∀ part, splitCommas 0 none part last = [part.reverse ++ last])
    (hne : trim last ≠ []) (hpart : Blank part) :
    itemsOf (splitCommas 0 none part ([',', ' '].intercalate (pieces ++ [last]))) =
      pieces ++ [trim last] := by
  have hreverse (part : List Char) (hpart : Blank part) : Blank part.reverse :=
    fun c hc => hpart c (List.mem_reverse.mp hc)
  induction pieces generalizing part with
  | nil =>
    have htrim := trim_blank_append (hreverse part hpart) last
    rw [List.nil_append, List.intercalate_singleton, hlast, itemsOf_cons (by rwa [htrim]), htrim]
    rfl
  | cons p pieces ih =>
    rw [List.forall_mem_cons] at h ht
    have htrim : trim (part.reverse ++ p) = p := by
      rw [trim_blank_append (hreverse part hpart), trim_of_trimmed ht.1.1]
    have hcomma (rest : List Char) : splitCommas 0 none (p.reverse ++ part) ([',', ' '] ++ rest) =
        (part.reverse ++ p) :: splitCommas 0 none [' '] rest := by
      simp [splitCommas]
    have hblank : Blank [' '] := by
      intro c hc
      rw [List.mem_singleton.mp hc]
      decide
    obtain ⟨q, qs, hqs⟩ := List.exists_cons_of_ne_nil (show pieces ++ [last] ≠ [] by simp)
    rw [List.cons_append, hqs, List.intercalate_cons_cons, ← hqs, List.append_assoc, h.1, hcomma,
      itemsOf_cons (by rw [htrim]; exact ht.1.2), htrim, ih h.2 ht.2 hblank]
    rfl

theorem items_intercalate {pieces : List (List Char)} (h : ∀ p ∈ pieces, Unsplit 0 p 0)
    (ht : ∀ p ∈ pieces, Trimmed p ∧ p ≠ []) : items ([',', ' '].intercalate pieces) = pieces := by
  rcases List.eq_nil_or_concat pieces with rfl | ⟨pieces, last, rfl⟩
  · rfl
  · rw [List.concat_eq_append] at h ht ⊢
    rw [List.forall_mem_append, List.forall_mem_singleton] at h ht
    have hlast (part : List Char) : splitCommas 0 none part last = [part.reverse ++ last] := by
      simpa [splitCommas] using h.2 part []
    have htrim : trim last = last := trim_of_trimmed ht.2.1
    have hitems := itemsOf_intercalate h.1 ht.1 hlast (by rw [htrim]; exact ht.2.2)
      (show Blank [] by simp [Blank])
    rwa [htrim] at hitems

end SourceText

namespace Target

/-- A property of written texts that lists and dictionaries have if their elements have it. -/
structure Spreads (P : String → Prop) : Prop where
  append {s t : String} : P s → P t → P (s ++ t)
  quote (s : String) : P (quote s)
  mark : ∀ s ∈ ["", ", ", " : ", "[", "]", "(", ")", "\x7b", "\x7d"], P s

namespace Spreads

variable {P : String → Prop} (h : Spreads P)
include h

theorem commaList {items : List String} (hitems : ∀ s ∈ items, P s) : P (commaList items) := by
  induction items with
  | nil => exact h.mark _ (by decide)
  | cons s items ih =>
    rw [List.forall_mem_cons] at hitems
    cases items with
    | nil => simpa [Target.commaList] using hitems.1
    | cons t items =>
      rw [Target.commaList, String.intercalate_cons_cons]
      exact h.append (h.append hitems.1 (h.mark _ (by decide))) (ih hitems.2)

theorem list (names : List String) : P (list names) :=
  h.append (h.append (h.mark _ (by decide))
      (h.commaList (List.forall_mem_map.mpr fun s _ => h.quote s)))
    (h.mark _ (by decide))

theorem signalList (clause : SignalClause) : P (signalList clause) := by
  cases clause with
  | flat names => exact h.list _
  | pair top bottom =>
    exact h.append (h.append (h.append (h.append (h.mark _ (by decide)) (h.list _))
      (h.mark _ (by decide))) (h.list _))
      (h.mark _ (by decide))

theorem dictionary {entries : List DictEntry} (hentries : ∀ e ∈ entries, P e.2) :
    P (dictionary entries) := by
  refine h.append (h.append (h.mark _ (by decide))
    (h.commaList (List.forall_mem_map.mpr fun e he => ?_)))
    (h.mark _ (by decide))
  exact h.append (h.append (h.quote e.1) (h.mark _ (by decide))) (hentries e he)

end Spreads

end Target

end PipelineLang
