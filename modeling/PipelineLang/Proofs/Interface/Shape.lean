import PipelineLang.Proofs.Interface.SourceText

/-! Which texts are lists of names, and which of them the scanner takes for lists. A text that it
takes is one of the written forms, with the names it gives, if and only if nothing stands behind a
closing bracket, nothing is missing in front of a comma, and no item holds its own mark, a backslash
or a line end. -/

namespace PipelineLang

variable {cs item back : List Char}

namespace SourceText

/-- A text between two marks of one kind, without that mark, backslashes and line ends, and its
content. -/
inductive IsLiteral : List Char → String → Prop
  | marked {q : Char} {content : List Char} (mark : q = '\'' ∨ q = '"')
      (plain : ∀ c ∈ content, c ≠ q ∧ c ≠ '\\' ∧ c ≠ '\n' ∧ c ≠ '\r') :
      IsLiteral (q :: (content ++ [q])) (String.ofList content)

/-- Elements with commas between them and blanks around them. The last one may be followed by a
comma, too. -/
inductive Listed {α : Type} (Element : List Char → α → Prop) : List Char → List α → Prop
  | blank {cs : List Char} (h : Blank cs) : Listed Element cs []
  | last {front e back : List Char} {a : α} (hfront : Blank front) (h : Element e a)
      (hback : Blank back) :
      Listed Element (front ++ (e ++ back)) [a]
  | cons {front e back rest : List Char} {a : α} {as : List α} (hfront : Blank front)
      (h : Element e a) (hback : Blank back) (hrest : Listed Element rest as) :
      Listed Element (front ++ (e ++ (back ++ ',' :: rest))) (a :: as)

def IsLiteralList (cs : List Char) (names : List String) : Prop :=
  ∃ inner, cs = '[' :: (inner ++ [']']) ∧ Listed IsLiteral inner names

def Matching (opening closing : Char) : Prop :=
  opening = '[' ∧ closing = ']' ∨ opening = '(' ∧ closing = ')'

/-- The written forms: a list or a sequence of literals, or a pair of lists. -/
def Written (text : List Char) : SignalShape → Prop
  | .flat names => ∃ opening closing inner, Matching opening closing ∧
    text = opening :: (inner ++ [closing]) ∧ Listed IsLiteral inner names
  | .pair top bottom =>
    ∃ inner, text = '(' :: (inner ++ [')']) ∧ Listed IsLiteralList inner [top, bottom]

/-- Something stands in front of every comma that splits. -/
def NoGaps (cs : List Char) : Prop := ∀ part ∈ (splitCommas 0 none [] cs).dropLast, trim part ≠ []

/-- No own mark, backslash or line end between the first character and the last. -/
def PlainItem (item : List Char) : Prop :=
  ∀ c ∈ item.tail.dropLast, item.head? ≠ some c ∧ c ≠ '\\' ∧ c ≠ '\n' ∧ c ≠ '\r'

instance (item : List Char) : Decidable (PlainItem item) :=
  decidable_of_iff (item.tail.dropLast.all
      (fun c => decide (item.head? ≠ some c ∧ c ≠ '\\' ∧ c ≠ '\n' ∧ c ≠ '\r')) = true) (by
    simp only [PlainItem, List.all_eq_true, decide_eq_true_eq])

def TidyItems (cs : List Char) : Prop := NoGaps cs ∧ ∀ item ∈ items cs, PlainItem item

instance (cs : List Char) : Decidable (TidyItems cs) :=
  inferInstanceAs (Decidable ((∀ part ∈ (splitCommas 0 none [] cs).dropLast, trim part ≠ []) ∧
    ∀ item ∈ items cs, PlainItem item))

/-- Brackets that are closed at the end of the text, and tidy items inside. -/
def Tidy (text : List Char) : SignalShape → Prop
  | .flat _ => ∃ opening closing inner, Matching opening closing ∧
    bracketed opening closing text = some (inner, []) ∧ TidyItems inner
  | .pair _ _ => ∃ inner, bracketed '(' ')' text = some (inner, []) ∧ NoGaps inner ∧
    ∀ item ∈ items inner, ∃ names, bracketed '[' ']' item = some (names, []) ∧ TidyItems names

theorem shape?_cases {shape : SignalShape} (h : shape? cs = some shape) :
    (∃ opening closing inner rest names, Matching opening closing ∧
      bracketed opening closing (trim cs) = some (inner, rest) ∧ quotedItems? inner = some names ∧
      shape = .flat names) ∨
    ∃ inner rest top bottom, bracketed '(' ')' (trim cs) = some (inner, rest) ∧
      (items inner).mapM bracketedItems? = some [top, bottom] ∧ shape = .pair top bottom := by
  rw [shape?] at h
  by_cases hbracket : (trim cs).head? = some '['
  · rw [if_pos hbracket] at h
    obtain ⟨names, hnames, rfl⟩ := Option.map_eq_some_iff.mp h
    obtain ⟨⟨inner, rest⟩, hinner, hnames⟩ := Option.bind_eq_some_iff.mp hnames
    exact .inl ⟨'[', ']', inner, rest, names, .inl ⟨rfl, rfl⟩, hinner, hnames, rfl⟩
  rw [if_neg hbracket] at h
  obtain ⟨⟨inner, rest⟩, hinner, h⟩ := Option.bind_eq_some_iff.mp h
  have hflat (h : (quotedItems? inner).bind (fun names => some (SignalShape.flat names)) =
      some shape) :
      ∃ opening closing inner rest names, Matching opening closing ∧
        bracketed opening closing (trim cs) = some (inner, rest) ∧ quotedItems? inner = some names ∧
        shape = .flat names := by
    obtain ⟨names, hnames, heq⟩ := Option.bind_eq_some_iff.mp h
    cases heq
    exact ⟨'(', ')', inner, rest, names, .inr ⟨rfl, rfl⟩, hinner, hnames, rfl⟩
  simp only at h
  split at h
  · rename_i top bottom hitems
    split at h
    · obtain ⟨tops, htop, h⟩ := Option.bind_eq_some_iff.mp h
      obtain ⟨bottoms, hbottom, h⟩ := Option.bind_eq_some_iff.mp h
      cases h
      refine .inr ⟨inner, rest, tops, bottoms, hinner, ?_, rfl⟩
      simp [hitems, htop, hbottom]
    · exact .inl (hflat h)
  · exact .inl (hflat h)

theorem splitCommas_ne_nil (depth : Int) (quote : Option Char) (part cs : List Char) :
    splitCommas depth quote part cs ≠ [] := by
  fun_induction splitCommas depth quote part cs <;> simp_all

theorem intercalate_splitCommas (depth : Int) (quote : Option Char) (part cs : List Char) :
    [','].intercalate (splitCommas depth quote part cs) = part.reverse ++ cs := by
  fun_induction splitCommas depth quote part cs with
  | case1 => simp
  | case6 depth part c cs hmark hopening hclosing hcomma ih =>
    obtain ⟨p, ps, hparts⟩ := List.exists_cons_of_ne_nil (splitCommas_ne_nil depth none [] cs)
    have hc : c = ',' := by simp_all
    rw [hparts, List.intercalate_cons_cons, ← hparts, ih, hc]
    simp
  | case2 | case3 | case4 | case5 | case7 => simp_all

section Reading

variable {α : Type} {Element : List Char → α → Prop} {read : List Char → Option α}

theorem mapM_cons_eq_some {items : List (List Char)} {values : List α}
    (h : (item :: items).mapM read = some values) :
    ∃ a as, read item = some a ∧ items.mapM read = some as ∧ values = a :: as := by
  rw [List.mapM_cons] at h
  obtain ⟨a, ha, h⟩ := Option.bind_eq_some_iff.mp h
  obtain ⟨as, has, h⟩ := Option.bind_eq_some_iff.mp h
  cases h
  exact ⟨a, as, ha, has, rfl⟩

theorem Listed.of_parts {parts : List (List Char)} {values : List α} (hne : parts ≠ [])
    (hgaps : ∀ part ∈ parts.dropLast, trim part ≠ [])
    (hread : (itemsOf parts).mapM read = some values)
    (helement : ∀ item ∈ itemsOf parts, ∀ a, read item = some a → Element item a) :
    Listed Element ([','].intercalate parts) values := by
  induction parts generalizing values with
  | nil => exact absurd rfl hne
  | cons part parts ih =>
    obtain ⟨front, back, hfront, hback, hpart⟩ := trim_between part
    by_cases htrim : trim part = []
    · cases parts with
      | nil =>
        rw [itemsOf_blank htrim] at hread
        cases hread
        rw [List.intercalate_singleton, hpart, htrim]
        exact .blank (List.forall_mem_append.mpr ⟨hfront, hback⟩)
      | cons next parts => exact absurd htrim (hgaps part List.mem_cons_self)
    · rw [itemsOf_cons htrim] at hread helement
      rw [List.forall_mem_cons] at helement
      obtain ⟨a, as, ha, has, rfl⟩ := mapM_cons_eq_some hread
      have he := helement.1 a ha
      cases parts with
      | nil =>
        cases has
        rw [List.intercalate_singleton, hpart]
        exact .last hfront he hback
      | cons next parts =>
        have hrest := ih (List.cons_ne_nil _ _) (fun p hp => hgaps p (List.mem_cons_of_mem _ hp))
          has helement.2
        rw [List.intercalate_cons_cons, hpart]
        simpa using Listed.cons hfront he hback hrest

theorem Listed.of_items {values : List α} (hgaps : NoGaps cs)
    (hread : (items cs).mapM read = some values)
    (helement : ∀ item ∈ items cs, ∀ a, read item = some a → Element item a) :
    Listed Element cs values := by
  have hlisted := Listed.of_parts (splitCommas_ne_nil 0 none [] cs) hgaps hread helement
  rwa [intercalate_splitCommas, List.reverse_nil, List.nil_append] at hlisted

end Reading

theorem isLiteral_of_plainItem {name : String} (hread : quotedItem? item = some name)
    (hplain : PlainItem item) : IsLiteral item name := by
  cases item with
  | nil => cases hread
  | cons q rest =>
    rw [quotedItem?] at hread
    split at hread
    · rename_i hmark
      cases hread
      simp only [Bool.and_eq_true, Bool.or_eq_true, decide_eq_true_eq] at hmark
      obtain ⟨content, rfl⟩ := List.getLast?_eq_some_iff.mp hmark.2
      rw [List.dropLast_concat]
      refine .marked hmark.1 fun c hc => ?_
      have hc := hplain c (by simpa using hc)
      exact ⟨fun heq => hc.1 (by rw [heq, List.head?_cons]), hc.2⟩
    · cases hread

theorem TidyItems.listed {names : List String} (h : TidyItems cs)
    (hread : quotedItems? cs = some names) : Listed IsLiteral cs names :=
  .of_items h.1 hread fun item hitem _ hname => isLiteral_of_plainItem hname (h.2 item hitem)

theorem Matching.closing_unique {opening closing closing' : Char} (h : Matching opening closing)
    (h' : Matching opening closing') : closing = closing' := by
  rcases h with ⟨rfl, rfl⟩ | ⟨rfl, rfl⟩ <;> simpa [Matching, eq_comm] using h'

theorem written_of_tidy {shape : SignalShape} (h : shape? cs = some shape)
    (htidy : Tidy (trim cs) shape) : Written (trim cs) shape := by
  rcases shape?_cases h with ⟨opening, closing, inner, rest, names, hmatching, hinner, hnames, rfl⟩
    |
    ⟨inner, rest, top, bottom, hinner, hpair, rfl⟩
  · obtain ⟨opening', closing', inner', hmatching', hinner', hitems⟩ := htidy
    have hopening : opening = opening' :=
      (List.cons.inj ((bracketed_eq hinner).symm.trans (bracketed_eq hinner'))).1
    subst hopening
    cases hmatching.closing_unique hmatching'
    rw [hinner] at hinner'
    cases hinner'
    exact ⟨opening, closing, inner, hmatching, bracketed_eq hinner, hitems.listed hnames⟩
  · obtain ⟨inner', hinner', hgaps, hitems⟩ := htidy
    rw [hinner] at hinner'
    cases hinner'
    refine ⟨inner, bracketed_eq hinner, .of_items hgaps hpair fun item hitem names hnames => ?_⟩
    obtain ⟨inner', hbracketed, hlist⟩ := hitems item hitem
    refine ⟨inner', bracketed_eq hbracketed, hlist.listed ?_⟩
    simpa [bracketedItems?, hbracketed] using hnames

-- The brackets of a written form may be matched too early, at a bracket inside a literal; but then
-- the last item is cut off, and the text is not taken.

theorem append_eq_cases {xs ys inner rest : List Char} {c : Char}
    (h : xs ++ ys = inner ++ c :: rest) :
    (∃ tail, xs = inner ++ c :: tail) ∨ ∃ piece, inner = xs ++ piece ∧ ys = piece ++ c :: rest := by
  rcases List.append_eq_append_iff.mp h with ⟨piece, hinner, hys⟩ | ⟨piece, hxs, hrest⟩
  · exact .inr ⟨piece, hinner, hys⟩
  · cases piece with
    | nil =>
      rw [List.append_nil] at hxs
      exact .inr ⟨[], by rw [hxs, List.append_nil], hrest.symm⟩
    | cons d piece =>
      obtain ⟨rfl, -⟩ := List.cons.inj hrest
      exact .inl ⟨piece, hxs⟩

theorem exists_of_append_eq {front inner rest : List Char} {c : Char} (hc : c ∉ front)
    (h : front ++ cs = inner ++ c :: rest) :
    ∃ piece, inner = front ++ piece ∧ cs = piece ++ c :: rest := by
  rcases append_eq_cases h with ⟨tail, rfl⟩ | hpiece
  · exact absurd (by simp) hc
  · exact hpiece

theorem exists_of_eq_append {inner rest : List Char} {c : Char} (hc : c ∉ back)
    (h : cs ++ back = inner ++ c :: rest) : ∃ tail, cs = inner ++ c :: tail := by
  rcases append_eq_cases h with htail | ⟨piece, -, rfl⟩
  · exact htail
  · exact absurd (by simp) hc

section Cutting

variable {e : List Char} {α : Type} {Element : List Char → α → Prop} {read : List Char → Option α}
  {c : Char}

/-- What stands in front of the character in an element is one item, and not a readable one. -/
def CutBy (Element : List Char → α → Prop) (read : List Char → Option α) (c : Char) : Prop :=
  ∀ e a piece tail, Element e a → e = piece ++ c :: tail →
    (∀ part, splitCommas 0 none part piece = [part.reverse ++ piece]) ∧ trim piece ≠ [] ∧
    read (trim piece) = none

def Whole (Element : List Char → α → Prop) : Prop :=
  ∀ e a, Element e a → Unsplit 0 e 0 ∧ Trimmed e ∧ e ≠ []

theorem splitCommas_element {front : List Char} (hfront : Blank front) (he : Unsplit 0 e 0)
    (hback : Blank back) (rest : List Char) :
    splitCommas 0 none [] (front ++ (e ++ (back ++ ',' :: rest))) =
      (front ++ (e ++ back)) :: splitCommas 0 none [] rest := by
  have hpart := (hfront.unsplit 0).append (he.append (hback.unsplit 0)) [] (',' :: rest)
  simp only [List.append_assoc] at hpart
  rw [hpart, splitCommas]
  simp

theorem splitCommas_last {front : List Char} (hfront : Blank front) (he : Unsplit 0 e 0)
    (hback : Blank back) : splitCommas 0 none [] (front ++ (e ++ back)) =
      [front ++ (e ++ back)] := by
  have hpart := (hfront.unsplit 0).append (he.append (hback.unsplit 0)) [] []
  simpa [splitCommas] using hpart

/-- Where a list is cut, the cut goes through its first element or behind the comma that follows
it. -/
theorem Listed.cut_induct {motive : List Char → Prop} (hblank : isWhiteSpace c = false)
    (hcomma : c ≠ ',') (here : ∀ front e a piece tail, Blank front → Element e a → e =
      piece ++ c :: tail → motive (front ++ piece))
    (later : ∀ front e a back inner, Blank front → Element e a → Blank back → motive inner →
      motive (front ++ (e ++ (back ++ ',' :: inner)))) {values : List α} (h :
      Listed Element cs values) {inner rest : List Char}
    (hcs : cs = inner ++ c :: rest) : motive inner := by
  induction h generalizing inner with
  | blank hcs' => exact absurd (by simp [hcs]) (hcs'.notMem hblank)
  | @last front e back a hfront he hback =>
    obtain ⟨piece, rfl, hpiece⟩ := exists_of_append_eq (hfront.notMem hblank) hcs
    obtain ⟨tail, htail⟩ := exists_of_eq_append (hback.notMem hblank) hpiece
    exact here front e a piece tail hfront he htail
  | @cons front e back more a as hfront he hback hmore ih =>
    obtain ⟨piece, rfl, hpiece⟩ := exists_of_append_eq (hfront.notMem hblank) hcs
    rcases append_eq_cases hpiece with ⟨tail, htail⟩ | ⟨piece, rfl, hbehind⟩
    · exact here front e a piece tail hfront he htail
    · have hback' : c ∉ back ++ [','] := by simpa [hcomma] using hback.notMem hblank
      rw [← List.singleton_append, ← List.append_assoc] at hbehind
      obtain ⟨inner, rfl, hmore⟩ := exists_of_append_eq hback' hbehind
      have hlater := later front e a back inner hfront he hback (ih hmore)
      rwa [List.append_assoc back]

theorem items_cons {front : List Char} (hfront : Blank front)
    (he : Unsplit 0 e 0 ∧ Trimmed e ∧ e ≠ []) (hback : Blank back) (rest : List Char) :
    items (front ++ (e ++ (back ++ ',' :: rest))) = e :: items rest := by
  have hitem : trim (front ++ (e ++ back)) = e := trim_of_between hfront he.2 hback
  rw [items_eq, splitCommas_element hfront he.1 hback, itemsOf_cons (by rw [hitem]; exact he.2.2),
    hitem, items_eq]

theorem Listed.cut {values : List α} (h : Listed Element cs values) (hwhole : Whole Element)
    (hcut : CutBy Element read c) (hblank : isWhiteSpace c = false) (hcomma : c ≠ ',')
    {inner rest : List Char} (hcs : cs = inner ++ c :: rest) : (items inner).mapM read = none := by
  refine Listed.cut_induct (motive := fun inner => (items inner).mapM read = none) hblank hcomma ?_
    ?_ h hcs
  · intro front e a piece tail hfront he hpiece
    obtain ⟨hone, htrim, hread⟩ := hcut e a piece tail he hpiece
    have hparts : splitCommas 0 none [] (front ++ piece) = [front ++ piece] := by
      rw [hfront.unsplit 0, hone]
      simp
    have hitem : trim (front ++ piece) = trim piece := trim_blank_append hfront piece
    rw [items_eq, hparts, itemsOf_cons (by rwa [hitem]), hitem]
    simp [hread]
  · intro front e a back inner hfront he hback hinner
    rw [items_cons hfront (hwhole e a he) hback, List.mapM_cons, hinner]
    cases read e <;> rfl

theorem Listed.tidy {values : List α} (h : Listed Element cs values) (hwhole : Whole Element) :
    NoGaps cs ∧ ∀ item ∈ items cs, ∃ a, Element item a := by
  induction h with
  | @blank cs hcs =>
    have hparts : splitCommas 0 none [] cs = [cs] := by
      simpa [splitCommas] using hcs.unsplit 0 [] []
    have htrim : trim cs = [] := by simpa [trim, trimStart, trimEnd] using trim_blank_append hcs []
    rw [NoGaps, items_eq, hparts, itemsOf_blank htrim]
    exact ⟨by simp, by simp [itemsOf]⟩
  | @last front e back a hfront he hback =>
    obtain ⟨hunsplit, htrimmed⟩ := hwhole e a he
    have hitem : trim (front ++ (e ++ back)) = e := trim_of_between hfront htrimmed hback
    rw [NoGaps, items_eq, splitCommas_last hfront hunsplit hback,
      itemsOf_cons (by rw [hitem]; exact htrimmed.2), hitem]
    exact ⟨by simp, by simpa [itemsOf] using ⟨a, he⟩⟩
  | @cons front e back rest a as hfront he hback hrest ih =>
    obtain ⟨hunsplit, htrimmed⟩ := hwhole e a he
    have hitem : trim (front ++ (e ++ back)) = e := trim_of_between hfront htrimmed hback
    refine ⟨?_, ?_⟩
    · rw [NoGaps, splitCommas_element hfront hunsplit hback,
        List.dropLast_cons_of_ne_nil (splitCommas_ne_nil _ _ _ _)]
      exact List.forall_mem_cons.mpr ⟨by rw [hitem]; exact htrimmed.2, ih.1⟩
    · rw [items_cons hfront (hwhole e a he) hback]
      exact List.forall_mem_cons.mpr ⟨⟨a, he⟩, ih.2⟩

theorem Listed.unsplit {values : List α} (h : Listed Element cs values) {depth : Int}
    (hdepth : depth ≠ 0) (helement : ∀ e a, Element e a → Unsplit depth e depth) :
    Unsplit depth cs depth := by
  induction h with
  | blank hcs => exact hcs.unsplit depth
  | last hfront he hback =>
    exact (hfront.unsplit depth).append ((helement _ _ he).append (hback.unsplit depth))
  | cons hfront he hback _ ih =>
    exact (hfront.unsplit depth).append ((helement _ _ he).append
      ((hback.unsplit depth).append ((Unsplit.innerComma hdepth).append ih)))

end Cutting

section Literals

variable {e piece tail inner rest : List Char} {name : String} {names : List String} {c : Char}

theorem IsLiteral.unsplit (h : IsLiteral e name) (depth : Int) : Unsplit depth e depth := by
  obtain ⟨hmark, hplain⟩ := h
  exact .marked hmark fun hmem => (hplain _ hmem).1 rfl

theorem not_isWhiteSpace_of_mark {q : Char} (h : q = '\'' ∨ q = '"') : isWhiteSpace q = false := by
  rcases h with rfl | rfl <;> decide

theorem whole_isLiteral : Whole IsLiteral := by
  rintro e name ⟨hmark, hplain⟩
  have hblank := not_isWhiteSpace_of_mark hmark
  exact ⟨(IsLiteral.marked hmark hplain).unsplit 0, trimmed_between hblank hblank _,
    List.cons_ne_nil _ _⟩

theorem IsLiteral.cut (h : IsLiteral e name) (hc : c ≠ '\'' ∧ c ≠ '"')
    (he : e = piece ++ c :: tail) :
    ∃ q content, (q = '\'' ∨ q = '"') ∧ piece = q :: content ∧ q ∉ content := by
  obtain @⟨q, content, hmark, hplain⟩ := h
  have hne : q ≠ c := by
    rintro rfl
    exact hmark.elim hc.1 hc.2
  cases piece with
  | nil => exact absurd (List.cons.inj he).1 hne
  | cons d content' =>
    obtain ⟨rfl, hcontent⟩ := List.cons.inj he
    obtain ⟨tail', rfl⟩ := exists_of_eq_append (by simpa using hne.symm) hcontent
    exact ⟨q, content', hmark, rfl, fun hmem => (hplain q (List.mem_append_left _ hmem)).1 rfl⟩

theorem cutBy_isLiteral (hc : c ≠ '\'' ∧ c ≠ '"') : CutBy IsLiteral quotedItem? c := by
  intro e name piece tail he hpiece
  obtain ⟨q, content, hq, rfl, hcontent⟩ := he.cut hc hpiece
  have htrim : trim (q :: content) = q :: trimEnd content :=
    trim_cons (not_isWhiteSpace_of_mark hq) content
  refine ⟨splitCommas_cut hq hcontent 0, by simp [htrim], ?_⟩
  obtain ⟨back, -, hback⟩ := trimEnd_append content
  have hlast : (trimEnd content).getLast? ≠ some q := by
    intro hlast
    have hmem := List.mem_of_getLast? hlast
    exact hcontent (by rw [hback]; exact List.mem_append_left _ hmem)
  rw [htrim, quotedItem?, if_neg (by simp [hlast])]

theorem Listed.quotedItems?_cut (h : Listed IsLiteral inner names) (hblank : isWhiteSpace c = false)
    (hc : c ≠ '\'' ∧ c ≠ '"' ∧ c ≠ ',') {cut : List Char} (hcut : inner = cut ++ c :: rest) :
    quotedItems? cut = none :=
  h.cut whole_isLiteral (cutBy_isLiteral ⟨hc.1, hc.2.1⟩) hblank hc.2.2 hcut

theorem Listed.splitCommas_cut (h : Listed IsLiteral inner names) (hblank : isWhiteSpace c = false)
    (hc : c ≠ '\'' ∧ c ≠ '"' ∧ c ≠ ',') {depth : Int} (hdepth : depth ≠ 0) {cut : List Char}
    (hcut : inner = cut ++ c :: rest) (part : List Char) :
    splitCommas depth none part cut = [part.reverse ++ cut] := by
  refine Listed.cut_induct (motive := fun cut => ∀ part,
    splitCommas depth none part cut = [part.reverse ++ cut])
    hblank hc.2.2 ?_ ?_ h hcut part
  · intro front e name piece tail hfront he hpiece part
    obtain ⟨q, content, hq, rfl, hcontent⟩ := he.cut ⟨hc.1, hc.2.1⟩ hpiece
    rw [hfront.unsplit depth, SourceText.splitCommas_cut hq hcontent]
    simp
  · intro front e name back cut hfront he hback hone part
    have hunsplit := (hfront.unsplit depth).append ((he.unsplit depth).append
      ((hback.unsplit depth).append (Unsplit.innerComma hdepth)))
    have hsplit := hunsplit part cut
    simp only [List.append_assoc, List.singleton_append] at hsplit
    rw [hsplit, hone]
    simp

theorem whole_isLiteralList : Whole IsLiteralList := by
  rintro e names ⟨inner, rfl, hinner⟩
  have hinside : Unsplit 1 inner 1 := hinner.unsplit (by decide) fun e name he => he.unsplit 1
  exact ⟨Unsplit.opening.append (hinside.append .closing),
    trimmed_between (by decide) (by decide) _, List.cons_ne_nil _ _⟩

theorem cutBy_isLiteralList : CutBy IsLiteralList bracketedItems? ')' := by
  rintro e names piece tail ⟨inner, rfl, hinner⟩ hpiece
  cases piece with
  | nil => cases hpiece
  | cons d cut =>
    obtain ⟨rfl, hcut⟩ := List.cons.inj hpiece
    obtain ⟨tail', rfl⟩ := exists_of_eq_append (by decide) hcut
    have htrim : trim ('[' :: cut) = '[' :: trimEnd cut := trim_cons (by decide) cut
    refine ⟨fun part => ?_, by simp [htrim], ?_⟩
    · have hone : splitCommas 1 none ('[' :: part) cut = [('[' :: part).reverse ++ cut] :=
        hinner.splitCommas_cut (by decide) (by decide) (by decide) rfl ('[' :: part)
      simpa [splitCommas] using hone
    · obtain ⟨back, -, hback⟩ := trimEnd_append cut
      rw [htrim, bracketedItems?]
      cases hbracketed : bracketed '[' ']' ('[' :: trimEnd cut) with
      | none => rfl
      | some found =>
        -- a bracket that closes the list before the cut is in a literal, too
        have hearly : trimEnd cut = found.1 ++ ']' :: found.2 :=
          (List.cons.inj (bracketed_eq hbracketed)).2
        have hcut : cut ++ ')' :: tail' = found.1 ++ ']' :: (found.2 ++ back ++ ')' :: tail') := by
          rw [hback, hearly]
          simp
        exact hinner.quotedItems?_cut (by decide) (by decide) hcut

end Literals

/-- Brackets are closed at the end of a text that ends with one, if they are not closed earlier. -/
theorem bracketed_end {opening closing : Char} {inner inner' rest : List Char}
    (h : bracketed opening closing (opening :: (inner ++ [closing])) = some (inner', rest))
    (hcut : ∀ tail, inner ≠ inner' ++ closing :: tail) : inner' = inner ∧ rest = [] := by
  have hinner := (List.cons.inj (bracketed_eq h)).2
  rcases append_eq_cases hinner with ⟨tail, htail⟩ | ⟨piece, rfl, hpiece⟩
  · exact absurd htail (hcut tail)
  · cases piece with
    | nil =>
      cases hpiece
      exact ⟨List.append_nil _, rfl⟩
    | cons d piece => simp at hpiece

theorem IsLiteral.plainItem {name : String} (h : IsLiteral item name) : PlainItem item := by
  obtain ⟨-, hplain⟩ := h
  intro c hc
  have hc := hplain c (by simpa using hc)
  exact ⟨fun heq => hc.1 (Option.some.inj heq).symm, hc.2⟩

theorem Listed.tidyItems {inner : List Char} {names : List String}
    (h : Listed IsLiteral inner names) :
    TidyItems inner := by
  obtain ⟨hgaps, hitems⟩ := h.tidy whole_isLiteral
  refine ⟨hgaps, fun item hitem => ?_⟩
  obtain ⟨name, hname⟩ := hitems item hitem
  exact hname.plainItem

theorem IsLiteralList.bracketed_end {names names' : List String} (h : IsLiteralList item names)
    (hread : bracketedItems? item = some names') :
    ∃ inner, bracketed '[' ']' item = some (inner, []) ∧ TidyItems inner := by
  obtain ⟨inner, rfl, hinner⟩ := h
  obtain ⟨⟨inner', rest⟩, hbracketed, hnames⟩ := Option.bind_eq_some_iff.mp hread
  have hcut (tail : List Char) : inner ≠ inner' ++ ']' :: tail := by
    intro htail
    have hnone := hinner.quotedItems?_cut (by decide) (by decide) htail
    rw [hnone] at hnames
    cases hnames
  obtain ⟨rfl, rfl⟩ := SourceText.bracketed_end hbracketed hcut
  exact ⟨inner', hbracketed, hinner.tidyItems⟩

theorem Matching.closing_plain {opening closing : Char} (h : Matching opening closing) :
    isWhiteSpace closing = false ∧ closing ≠ '\'' ∧ closing ≠ '"' ∧ closing ≠ ',' := by
  rcases h with ⟨-, rfl⟩ | ⟨-, rfl⟩ <;> decide

theorem exists_of_mapM_eq_some {α : Type} {read : List Char → Option α} {items : List (List Char)}
    {values : List α} (h : items.mapM read = some values) :
    ∀ item ∈ items, ∃ a, read item = some a := by
  induction items generalizing values with
  | nil => simp
  | cons item items ih =>
    obtain ⟨a, as, ha, has, -⟩ := mapM_cons_eq_some h
    exact List.forall_mem_cons.mpr ⟨⟨a, ha⟩, ih has⟩

theorem tidy_of_written {shape : SignalShape} (h : shape? cs = some shape)
    (hwritten : Written (trim cs) shape) : Tidy (trim cs) shape := by
  rcases shape?_cases h with ⟨opening, closing, inner, rest, names, hmatching, hinner, hnames, rfl⟩
    |
    ⟨inner, rest, top, bottom, hinner, hpair, rfl⟩
  · obtain ⟨opening', closing', inner', hmatching', htext, hlisted⟩ := hwritten
    have hopening : opening' = opening := (List.cons.inj (htext.symm.trans (bracketed_eq hinner))).1
    subst hopening
    cases hmatching.closing_unique hmatching'
    obtain ⟨hblank, hplain⟩ := hmatching.closing_plain
    have hcut (tail : List Char) : inner' ≠ inner ++ closing :: tail := by
      intro htail
      rw [hlisted.quotedItems?_cut hblank hplain htail] at hnames
      cases hnames
    obtain ⟨rfl, rfl⟩ := bracketed_end (htext ▸ hinner) hcut
    exact ⟨opening', closing, inner, hmatching, hinner, hlisted.tidyItems⟩
  · obtain ⟨inner', htext, hlisted⟩ := hwritten
    have hcut (tail : List Char) : inner' ≠ inner ++ ')' :: tail := by
      intro htail
      rw [hlisted.cut whole_isLiteralList cutBy_isLiteralList (by decide) (by decide) htail]
        at hpair
      cases hpair
    obtain ⟨rfl, rfl⟩ := bracketed_end (htext ▸ hinner) hcut
    obtain ⟨hgaps, hitems⟩ := hlisted.tidy whole_isLiteralList
    refine ⟨inner, hinner, hgaps, fun item hitem => ?_⟩
    obtain ⟨names, hnames⟩ := hitems item hitem
    obtain ⟨names', hread⟩ := exists_of_mapM_eq_some hpair item hitem
    exact hnames.bracketed_end hread

/-- A text that is taken is a written form with these names if and only if it is tidy. -/
theorem written_iff_tidy {shape : SignalShape} (h : shape? cs = some shape) :
    Written (trim cs) shape ↔ Tidy (trim cs) shape :=
  ⟨tidy_of_written h, written_of_tidy h⟩

end SourceText

namespace ComponentSignature

open SourceText

def listings : List String := ["get_inputs", "get_outputs", "get_configuration"]

def listed (s : ComponentSignature) (name : String) : Option SignalShape :=
  if name = "get_inputs" then s.inputs
  else if name = "get_outputs" then s.outputs
  else s.configuration.map .flat

theorem entryShape_cases (file : String) (defined : List FunctionText) (name : String) :
    (∃ number fault, entryShape file defined name = .error (.scan file number fault)) ∨
    ∃ shape, entryShape file defined name = .ok shape := by
  unfold entryShape
  split
  · exact .inr ⟨_, rfl⟩
  · split
    · exact .inl ⟨_, _, rfl⟩
    · split
      · exact .inr ⟨_, rfl⟩
      · exact .inl ⟨_, _, rfl⟩

theorem scan_cases (source file : String) :
    (∃ number fault, scan source file = .error (.scan file number fault)) ∨
    ∃ s, scan source file = .ok s ∧
      ∀ name ∈ listings, entryShape file (functionsOf source) name = .ok (s.listed name) := by
  unfold scan
  rcases entryShape_cases file (functionsOf source) "get_inputs" with ⟨n, fault, hinputs⟩ |
    ⟨inputs, hinputs⟩
  · exact .inl ⟨n, fault, by simp [hinputs, bind, Except.bind]⟩
  rcases entryShape_cases file (functionsOf source) "get_outputs" with ⟨n, fault, houtputs⟩ |
    ⟨outputs, houtputs⟩
  · exact .inl ⟨n, fault, by simp [hinputs, houtputs, bind, Except.bind]⟩
  rcases entryShape_cases file (functionsOf source) "get_configuration" with ⟨n, fault, hkeys⟩ |
    ⟨keys, hkeys⟩
  · exact .inl ⟨n, fault, by simp [hinputs, houtputs, hkeys, bind, Except.bind]⟩
  have hlistings {s : ComponentSignature} (hin : s.inputs = inputs) (hout : s.outputs = outputs)
      (hconf : s.configuration.map .flat = keys) :
      ∀ name ∈ listings, entryShape file (functionsOf source) name = .ok (s.listed name) := by
    simp [listings, listed, hinputs, houtputs, hkeys, hin, hout, hconf]
  cases keys with
  | none =>
    exact .inr ⟨_, by simp only [hinputs, houtputs, hkeys, bind, Except.bind]; rfl,
      hlistings rfl rfl rfl⟩
  | some shape =>
    cases shape with
    | flat names =>
      exact .inr ⟨_, by simp only [hinputs, houtputs, hkeys, bind, Except.bind]; rfl,
        hlistings rfl rfl rfl⟩
    | pair top bottom =>
      exact .inl ⟨0, .configurationPair, by simp [hinputs, houtputs, hkeys, bind, Except.bind]⟩

theorem entryShape_of_returned {file name : String} {defined : List FunctionText} {f : FunctionText}
    (hf : defined.find? (fun f => f.name = name) = some f) {number : Nat} {text : List Char}
    (hreturned : returned? f = some (number, text)) {shape : Option SignalShape}
    (h : entryShape file defined name = .ok shape) :
    ∃ s, shape? text = some s ∧ shape = some s := by
  rw [entryShape, hf] at h
  simp only [hreturned] at h
  split at h
  · rename_i s hs
    cases h
    exact ⟨s, hs, rfl⟩
  · cases h

/-- A listing that is not taken is reported. Of one that is taken the interface holds the names; it
is a written form of them if and only if it is tidy. -/
theorem scan_written_iff (source file : String) :
    (∀ text shape, shape? text = some shape →
      (Written (trim text) shape ↔ Tidy (trim text) shape)) ∧
    ∀ name ∈ listings, ∀ f number text, (functionsOf source).find? (fun f => f.name = name) =
      some f → returned? f = some (number, text) →
      (shape? text = none → ∃ number fault, scan source file = .error (.scan file number fault)) ∧
      ∀ s, scan source file = .ok s → ∃ shape, shape? text = some shape ∧ s.listed name =
        some shape ∧ (Written (trim text) shape ↔ Tidy (trim text) shape) := by
  refine ⟨fun text shape h => written_iff_tidy h, fun name hname f number text hf hreturned => ?_⟩
  rcases scan_cases source file with ⟨number', fault, herror⟩ | ⟨s, hs, hlistings⟩
  · refine ⟨fun _ => ⟨number', fault, herror⟩, fun s hs => ?_⟩
    rw [herror] at hs
    cases hs
  · obtain ⟨shape, hshape, hlisted⟩ := entryShape_of_returned hf hreturned (hlistings name hname)
    refine ⟨fun hnone => ?_, fun s' hs' => ?_⟩
    · rw [hshape] at hnone
      cases hnone
    · rw [hs] at hs'
      cases hs'
      exact ⟨shape, hshape, hlisted, written_iff_tidy hshape⟩

/-- Marks of the other kind, brackets and commas in a literal, and commas behind the last. -/
theorem nestedListing_written :
    ∃ s, scan "def get_inputs():\n  # two lists\n  return (['a'], [\"it's\", '[b, c]',],)\n"
      "m.py" = .ok s ∧ s.inputs = some (.pair ["a"] ["it's", "[b, c]"]) ∧
      Written "(['a'], [\"it's\", '[b, c]',],)".toList (.pair ["a"] ["it's", "[b, c]"]) := by
  have hfunctions : functionsOf
      "def get_inputs():\n  # two lists\n  return (['a'], [\"it's\", '[b, c]',],)\n" =
      [⟨"get_inputs", [], [(3, "return (['a'], [\"it's\", '[b, c]',],)".toList)]⟩] := by
    decide +kernel
  have hs : scan "def get_inputs():\n  # two lists\n  return (['a'], [\"it's\", '[b, c]',],)\n"
      "m.py" = .ok ⟨some (.pair ["a"] ["it's", "[b, c]"]), none, none, false, false⟩ := by
    rw [scan, hfunctions]
    rfl
  have hf := congrArg (List.find? fun f => f.name = "get_inputs") hfunctions
  obtain ⟨shape, -, hlisted, hiff⟩ := ((scan_written_iff _ "m.py").2 "get_inputs" (by decide) _ 3
    "(['a'], [\"it's\", '[b, c]',],)".toList hf rfl).2 _ hs
  cases hlisted
  refine ⟨_, hs, rfl, hiff.mpr ?_⟩
  refine ⟨"['a'], [\"it's\", '[b, c]',],".toList, by decide +kernel,
    by unfold NoGaps; decide +kernel, ?_⟩
  have hitems : items "['a'], [\"it's\", '[b, c]',],".toList =
      ["['a']".toList, "[\"it's\", '[b, c]',]".toList] := by
    decide +kernel
  rw [hitems]
  simp only [List.forall_mem_cons]
  exact ⟨⟨"'a'".toList, by decide +kernel, by decide +kernel⟩,
    ⟨"\"it's\", '[b, c]',".toList, by decide +kernel, by decide +kernel⟩, by simp⟩

/-- What is added to a list is dropped. -/
theorem addedListing_not_written :
    (∃ s, scan "def get_inputs():\n  return ['a'] + extra()\n" "m.py" = .ok s ∧ s.inputs =
      some (.flat ["a"])) ∧
    ∀ shape, ¬Written "['a'] + extra()".toList shape := by
  have hfunctions : functionsOf "def get_inputs():\n  return ['a'] + extra()\n" =
      [⟨"get_inputs", [], [(2, "return ['a'] + extra()".toList)]⟩] := by decide +kernel
  refine ⟨⟨⟨some (.flat ["a"]), none, none, false, false⟩, by rw [scan, hfunctions]; rfl, rfl⟩,
    fun shape h => ?_⟩
  cases shape with
  | flat names =>
    obtain ⟨opening, closing, inner, hmatching, htext, -⟩ := h
    have hfirst := congrArg List.head? htext
    have hlast := congrArg List.getLast? htext
    rw [← List.cons_append, List.getLast?_concat] at hlast
    rcases hmatching with ⟨-, rfl⟩ | ⟨rfl, -⟩
    · simp at hlast
    · simp at hfirst
  | pair top bottom =>
    obtain ⟨inner, htext, -⟩ := h
    simp at htext

end ComponentSignature

end PipelineLang
