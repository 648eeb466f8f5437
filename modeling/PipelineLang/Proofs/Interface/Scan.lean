import PipelineLang.Proofs.Interface.SourceText
import PipelineLang.Proofs.Token.Spelling

/-! Scanning written modules: lists of words are read back, and a text that is laid out as functions
is read as these functions. -/

namespace PipelineLang

variable {l : List Char} {c : Char}

/-- The shape in which a module lists the signals of a clause. -/
def SignalShape.ofClause : SignalClause → SignalShape
  | .flat names => .flat (names.map Ident.name)
  | .pair top bottom => .pair (top.map Ident.name) (bottom.map Ident.name)

theorem SignalShape.toType_ofClause (clause : SignalClause) :
    (ofClause clause).toType = SignalType.ofClause clause := by
  cases clause <;> rfl

namespace SourceText

theorem quote_word {s : String} (h : IsWord s) :
    (Target.quote s).toList = '\'' :: (s.toList ++ ['\'']) := by
  have hescape : s.toList.flatMap Target.escapeChar = s.toList := by
    have hone : ∀ c ∈ s.toList, Target.escapeChar c = [c] := by
      intro c hc
      have hne : ∀ d, Munch.isWordPart d = false → c ≠ d := fun d hd hcd => h.not_mem hd (hcd ▸ hc)
      simp [Target.escapeChar, hne '\\' (by decide), hne '\'' (by decide), hne '\n' (by decide),
        hne '\t' (by decide), hne '\r' (by decide)]
    rw [List.flatMap_def, List.map_congr_left hone, ← List.flatMap_def, List.flatMap_singleton']
  rw [Target.quote, Target.quoteChars, hescape, String.toList_ofList]

theorem toList_list {names : List String} (h : ∀ s ∈ names, IsWord s) :
    (Target.list names).toList =
      '[' :: ([',', ' '].intercalate (names.map fun s => '\'' :: (s.toList ++ ['\''])) ++
          [']']) := by
  have hquote : names.map (fun s => (Target.quote s).toList) =
      names.map fun s => '\'' :: (s.toList ++ ['\'']) :=
    List.map_congr_left fun s hs => quote_word (h s hs)
  simp [Target.list, Target.commaList, String.toList_intercalate, Function.comp_def, hquote]

theorem mem_intercalate {pieces : List (List Char)} (h : c ∈ [',', ' '].intercalate pieces) :
    c = ',' ∨ c = ' ' ∨ ∃ p ∈ pieces, c ∈ p := by
  induction pieces with
  | nil => cases h
  | cons p ps ih =>
    cases ps with
    | nil => exact .inr (.inr ⟨p, List.mem_cons_self, by simpa using h⟩)
    | cons q qs =>
      simp only [List.intercalate_cons_cons, List.mem_append, List.mem_cons, List.not_mem_nil,
        or_false] at h
      rcases h with (h | h | h) | h
      · exact .inr (.inr ⟨p, List.mem_cons_self, h⟩)
      · exact .inl h
      · exact .inr (.inl h)
      · rcases ih h with h | h | ⟨p', hp', h⟩
        · exact .inl h
        · exact .inr (.inl h)
        · exact .inr (.inr ⟨p', List.mem_cons_of_mem p hp', h⟩)

section Words

variable {names : List String} (h : ∀ s ∈ names, IsWord s)
include h

theorem not_mem_words (hc : Munch.isWordPart c = false) (hmark : c ∉ [',', ' ', '\'']) :
    c ∉ [',', ' '].intercalate (names.map fun s => '\'' :: (s.toList ++ ['\''])) := by
  simp only [List.mem_cons, List.not_mem_nil, or_false, not_or] at hmark
  intro hmem
  rcases mem_intercalate hmem with hmem | hmem | ⟨p, hp, hmem⟩
  · exact hmark.1 hmem
  · exact hmark.2.1 hmem
  · obtain ⟨s, hs, rfl⟩ := List.mem_map.mp hp
    simp only [List.mem_cons, List.mem_append, List.not_mem_nil, or_false] at hmem
    rcases hmem with hmem | hmem | hmem
    · exact hmark.2.2 hmem
    · exact (h s hs).not_mem hc hmem
    · exact hmark.2.2 hmem

theorem bracketedItems?_list : bracketedItems? (Target.list names).toList = some names := by
  have hunsplit : ∀ p ∈ names.map (fun s => '\'' :: (s.toList ++ ['\''])), Unsplit 0 p 0 := by
    rw [List.forall_mem_map]
    exact fun s hs => .quoted ((h s hs).not_mem (by decide))
  have htrimmed : ∀ p ∈ names.map (fun s => '\'' :: (s.toList ++ ['\''])), Trimmed p ∧ p ≠ [] := by
    rw [List.forall_mem_map]
    exact fun s hs => ⟨trimmed_between (by decide) (by decide) _, List.cons_ne_nil _ _⟩
  have hitem : ∀ s : String, quotedItem? ('\'' :: (s.toList ++ ['\''])) = some s := by
    intro s
    simp [quotedItem?]
  have hbracket : bracketed '[' ']' (Target.list names).toList =
      some ([',', ' '].intercalate (names.map fun s => '\'' :: (s.toList ++ ['\''])), []) := by
    rw [toList_list h]
    exact bracketed_of_not_mem (by decide) (not_mem_words h (by decide) (by decide))
      (not_mem_words h (by decide) (by decide)) []
  simp only [bracketedItems?, hbracket, Option.bind_eq_bind, Option.bind_some, quotedItems?,
    items_intercalate hunsplit htrimmed, List.mapM_map, Function.comp_def, hitem]
  exact List.mapM_pure (f := id) |>.trans (by simp)

theorem trimmed_list : Trimmed (Target.list names).toList ∧ (Target.list names).toList ≠ [] := by
  rw [toList_list h]
  exact ⟨trimmed_between (by decide) (by decide) _, List.cons_ne_nil _ _⟩

theorem unsplit_list : Unsplit 0 (Target.list names).toList 0 := by
  rw [toList_list h]
  refine Unsplit.opening.append ((Unsplit.intercalate (by decide) ?_).append .closing)
  rw [List.forall_mem_map]
  exact fun s hs => .quoted ((h s hs).not_mem (by decide))

theorem head?_list : (Target.list names).toList.head? = some '[' := by
  rw [toList_list h]
  rfl

theorem not_mem_list (hc : Munch.isWordPart c = false) (hmark : c ∉ [',', ' ', '\'', '[', ']']) :
    c ∉ (Target.list names).toList := by
  have hwords := not_mem_words h hc (c := c) (by simp_all)
  rw [toList_list h]
  simp_all

theorem shape?_list : shape? (Target.list names).toList = some (.flat names) := by
  rw [shape?, trim_of_trimmed (trimmed_list h).1, if_pos (head?_list h), bracketedItems?_list h]
  rfl

end Words

theorem shape?_pair {top bottom : List String} (ht : ∀ s ∈ top, IsWord s)
    (hb : ∀ s ∈ bottom, IsWord s) :
    shape? ("(" ++ Target.list top ++ ", " ++ Target.list bottom ++ ")").toList =
      some (.pair top bottom) := by
  have htext : ("(" ++ Target.list top ++ ", " ++ Target.list bottom ++ ")").toList =
      '(' :: ([',', ' '].intercalate [(Target.list top).toList, (Target.list bottom).toList] ++
        [')']) := by
    simp
  have htrim : Trimmed ('(' :: ([',', ' '].intercalate [(Target.list top).toList,
      (Target.list bottom).toList]
      ++ [')'])) :=
    trimmed_between (by decide) (by decide) _
  have hitems : items ([',', ' '].intercalate [(Target.list top).toList,
      (Target.list bottom).toList])
      = [(Target.list top).toList, (Target.list bottom).toList] := by
    refine items_intercalate ?_ ?_ <;> simp only [List.forall_mem_cons, List.not_mem_nil,
      false_implies, implies_true, and_true]
    · exact ⟨unsplit_list ht, unsplit_list hb⟩
    · exact ⟨trimmed_list ht, trimmed_list hb⟩
  have hparen : ∀ c ∈ ['(', ')'],
      c ∉ [',', ' '].intercalate [(Target.list top).toList, (Target.list bottom).toList] := by
    have hlist : ∀ {names : List String}, (∀ s ∈ names, IsWord s) → ∀ c ∈ ['(', ')'],
        c ∉ (Target.list names).toList := by
      intro names h
      simp only [List.forall_mem_cons, List.not_mem_nil, false_implies, implies_true, and_true]
      exact ⟨not_mem_list h (by decide) (by decide), not_mem_list h (by decide) (by decide)⟩
    intro c hc hmem
    rcases mem_intercalate hmem with rfl | rfl | ⟨p, hp, hmem⟩
    · simp at hc
    · simp at hc
    · simp only [List.mem_cons, List.not_mem_nil, or_false] at hp
      rcases hp with rfl | rfl
      · exact hlist ht c hc hmem
      · exact hlist hb c hc hmem
  rw [shape?, htext, trim_of_trimmed htrim, if_neg (by simp)]
  rw [bracketed_of_not_mem (by decide) (hparen '(' (by simp)) (hparen ')' (by simp))]
  simp only [Option.bind_eq_bind, Option.bind_some, hitems, head?_list ht, head?_list hb,
    bracketedItems?_list ht, bracketedItems?_list hb, decide_true, Bool.and_self, if_true]
  rfl

theorem shape?_signalList {clause : SignalClause} (h : ∀ id ∈ clause.names, IsWord id.name) :
    shape? (Target.signalList clause).toList = some (.ofClause clause) := by
  cases clause with
  | flat names => exact shape?_list (List.forall_mem_map.mpr h)
  | pair top bottom =>
    have h : (∀ id ∈ top, IsWord id.name) ∧ ∀ id ∈ bottom, IsWord id.name :=
      List.forall_mem_append.mp h
    exact shape?_pair (List.forall_mem_map.mpr h.1) (List.forall_mem_map.mpr h.2)

theorem line_append (h : '\n' ∉ l) (rest : List Char) : line (l ++ '\n' :: rest) = l := by
  rw [line, List.takeWhile_append_of_pos fun c hc => by simpa using ne_of_mem_of_not_mem hc h]
  simp

theorem nextLine_append (h : '\n' ∉ l) (rest : List Char) :
    nextLine (l ++ '\n' :: rest) = rest := by
  rw [nextLine, List.dropWhile_append_of_pos fun c hc => by simpa using ne_of_mem_of_not_mem hc h]
  rfl

theorem head?_eq (cs : List Char) : head? cs =
    if "def ".toList.isPrefixOf cs then
      (bracketed '(' ')' ((cs.drop 4).drop ((cs.drop 4).takeWhile Munch.isWordPart).length)).map
        fun x =>
        ((cs.drop 4).takeWhile Munch.isWordPart, x.1, x.2)
    else none := rfl

theorem functions_nil (n : Nat) : functions n [] = [] := by
  rw [functions]
  rfl

theorem functions_of_none {cs : List Char} (h : head? cs = none) (n : Nat) :
    functions n cs = functions (n + 1) (nextLine cs) := by
  rw [functions]
  split
  · rename_i hempty
    rw [List.isEmpty_iff.mp hempty]
    exact (functions_nil (n + 1)).symm
  split
  · rfl
  · rename_i hsome
    rw [h] at hsome
    cases hsome

theorem functions_of_some {cs name params after : List Char}
    (h : head? cs = some (name, params, after)) (n : Nat) :
    functions n cs =
      ⟨String.ofList name, params, inlineBody (n + params.count '\n') (line after) ++
          (bodyLines (n + params.count '\n' + 1) (nextLine after)).1⟩ ::
        functions (bodyLines (n + params.count '\n' + 1) (nextLine after)).2.1
          (bodyLines (n + params.count '\n' + 1) (nextLine after)).2.2 := by
  have hne : cs ≠ [] := by
    rintro rfl
    cases h
  rw [functions, if_neg (by simpa using hne)]
  split
  · rename_i hnone
    rw [h] at hnone
    cases hnone
  · rename_i hsome
    rw [h] at hsome
    cases hsome
    rfl

theorem isPrefixOf_def_line (l rest : List Char) :
    "def ".toList.isPrefixOf (l ++ '\n' :: rest) = "def ".toList.isPrefixOf l := by
  rcases l with _ | ⟨a, _ | ⟨b, _ | ⟨c, _ | ⟨d, l⟩⟩⟩⟩ <;> simp [List.isPrefixOf]

theorem functions_skip (h : '\n' ∉ l) (hdef : "def ".toList.isPrefixOf l = false) (n : Nat)
    (rest : List Char) : functions n (l ++ '\n' :: rest) = functions (n + 1) rest := by
  have hhead : head? (l ++ '\n' :: rest) = none := by
    rw [head?_eq, isPrefixOf_def_line, hdef]
    rfl
  rw [functions_of_none hhead, nextLine_append h]

theorem head?_word {name : List Char} (hname : ∀ c ∈ name, Munch.isWordPart c = true)
    (cs : List Char) :
    head? ("def ".toList ++ (name ++ '(' :: cs)) =
      (upToClosing '(' ')' 1 cs).map fun x => (name, x.1, x.2) := by
  have htake : (name ++ '(' :: cs).takeWhile Munch.isWordPart = name := by
    rw [List.takeWhile_append_of_pos hname]
    simp [Munch.isWordPart]
  have hdrop : ("def ".toList ++ (name ++ '(' :: cs)).drop 4 = name ++ '(' :: cs := rfl
  rw [head?_eq, if_pos (by simp), hdrop, htake, List.drop_left, bracketed, if_pos rfl]

theorem head?_define {name params : List Char} (hname : ∀ c ∈ name, Munch.isWordPart c = true)
    {depth : Nat} (hdepth : depthAfter '(' ')' 1 params = some depth) (hle : depth ≤ 1)
    (after : List Char) :
    head? ("def ".toList ++ (name ++ '(' :: (params ++ ')' :: after))) =
      some (name, params, after) := by
  rw [head?_word hname, upToClosing_closing (by decide) hdepth hle]
  rfl

theorem functions_define {name params : List Char} (hname : ∀ c ∈ name, Munch.isWordPart c = true)
    (ho : '(' ∉ params) (hc : ')' ∉ params) (hl : '\n' ∉ params) (n : Nat) (rest : List Char) :
    functions n ("def ".toList ++ (name ++ '(' :: (params ++ ')' :: ':' :: '\n' :: rest))) =
      ⟨String.ofList name, params, (bodyLines (n + 1) rest).1⟩ ::
        functions (bodyLines (n + 1) rest).2.1 (bodyLines (n + 1) rest).2.2 := by
  have hhead := head?_define hname (depthAfter_of_notMem ho hc 1) (Nat.le_refl 1)
    (':' :: '\n' :: rest)
  have hcount : params.count '\n' = 0 := List.count_eq_zero.mpr hl
  have hline : line (':' :: '\n' :: rest) = [':'] := rfl
  have hnext : nextLine (':' :: '\n' :: rest) = rest := rfl
  have hinline : inlineBody n [':'] = [] := rfl
  rw [functions_of_some hhead, hcount, hline, hnext, Nat.add_zero, hinline, List.nil_append]

theorem bodyLines_blank (n : Nat) (rest : List Char) :
    bodyLines n ('\n' :: rest) = bodyLines (n + 1) rest := by
  rw [bodyLines, if_neg (by simp)]
  rfl

def lineText (l : List Char) : List (List Char) := if (trim l).isEmpty then [] else [trim l]

theorem lineText_of_trimmed {t : List Char} (ht : Trimmed t) (hne : t ≠ []) :
    lineText (' ' :: t) = [t] := by
  rw [lineText, trim_cons_blank (by decide), trim_of_trimmed ht, if_neg (by simpa using hne)]

theorem bodyLines_indented (hl : '\n' ∉ l) (n : Nat) (rest : List Char) :
    bodyLines n (' ' :: (l ++ '\n' :: rest)) =
      ((lineText l).map (n, ·) ++ (bodyLines (n + 1) rest).1, (bodyLines (n + 1) rest).2) := by
  have hl' : '\n' ∉ ' ' :: l := by simp [hl]
  have hline := line_append hl' rest
  have hnext := nextLine_append hl' rest
  simp only [List.cons_append] at hline hnext
  rw [bodyLines, if_neg (by simp), hline, hnext, trim_cons_blank (by decide), lineText]
  split
  · rfl
  · rw [if_pos (by rfl)]
    rfl

theorem bodyLines_end (hc : isWhiteSpace c = false) (n : Nat) (cs : List Char) :
    bodyLines n (c :: cs) = ([], n, c :: cs) := by
  have hne : ∀ d, isWhiteSpace d = true → c ≠ d := by
    rintro d hd rfl
    rw [hc] at hd
    cases hd
  have hline : ∃ l, line (c :: cs) = c :: l := by
    rw [line, List.takeWhile_cons_of_pos (by simpa using hne '\n' (by decide))]
    exact ⟨_, rfl⟩
  obtain ⟨l, hline⟩ := hline
  have htrim : (trim (c :: l)).isEmpty = false := by
    have hlast : (c :: l).reverse.dropWhile isWhiteSpace ≠ [] := by
      rw [List.reverse_cons, List.dropWhile_append]
      split <;> simp [hc]
    rw [trim, trimStart, List.dropWhile_cons_of_neg (by simp [hc]), trimEnd]
    simpa using hlast
  rw [bodyLines, if_neg (by simp), hline, htrim]
  simp [isIndented, hne ' ' (by decide), hne '\t' (by decide)]

/-- The body of a function has these lines, and behind it comes the rest. -/
def HasBody (cs : List Char) (texts : List (List Char)) (rest : List Char) : Prop :=
  ∀ n, ∃ m, (bodyLines n cs).1.map Prod.snd = texts ∧ (bodyLines n cs).2 = (m, rest)

section HasBody

variable {cs rest : List Char} {texts : List (List Char)}

theorem HasBody.blank (h : HasBody cs texts rest) : HasBody ('\n' :: cs) texts rest := by
  intro n
  rw [bodyLines_blank]
  exact h (n + 1)

theorem HasBody.indented (hl : '\n' ∉ l) (h : HasBody cs texts rest) :
    HasBody (' ' :: (l ++ '\n' :: cs)) (lineText l ++ texts) rest := by
  intro n
  obtain ⟨m, htexts, hrest⟩ := h (n + 1)
  rw [bodyLines_indented hl]
  exact ⟨m, by simp [htexts, Function.comp_def], hrest⟩

theorem hasBody_end (hc : isWhiteSpace c = false) (cs : List Char) :
    HasBody (c :: cs) [] (c :: cs) := by
  intro n
  rw [bodyLines_end hc]
  exact ⟨n, rfl, rfl⟩

end HasBody

/-- Functions that begin with given ones, of which names and bodies are told, before one of the name
`last`. -/
def Begin (last : String) : List (String × List (List Char)) → List FunctionText → Prop
  | [], gs => ∃ g gs', gs = g :: gs' ∧ g.name = last
  | (name, body) :: fs, gs =>
    ∃ g gs', gs = g :: gs' ∧ g.name = name ∧ g.body.map Prod.snd = body ∧ Begin last fs gs'

def Shows (cs : List Char) (fs : List (String × List (List Char))) (last : String) : Prop :=
  ∀ n, Begin last fs (functions n cs)

section Shows

variable {last : String} {fs : List (String × List (List Char))} {name params cs rest : List Char}

theorem Shows.skip (h : Shows rest fs last) (hl : '\n' ∉ l)
    (hdef : "def ".toList.isPrefixOf l = false) : Shows (l ++ '\n' :: rest) fs last := by
  intro n
  rw [functions_skip hl hdef]
  exact h (n + 1)

theorem Shows.define {texts : List (List Char)} (h : Shows rest fs last)
    (hbody : HasBody cs texts rest) (hname : ∀ c ∈ name, Munch.isWordPart c = true)
    (ho : '(' ∉ params) (hc : ')' ∉ params) (hl : '\n' ∉ params) :
    Shows ("def ".toList ++ (name ++ '(' :: (params ++ ')' :: ':' :: '\n' :: cs)))
      ((String.ofList name, texts) :: fs) last := by
  intro n
  obtain ⟨m, htexts, hrest⟩ := hbody (n + 1)
  rw [functions_define hname ho hc hl, hrest]
  exact ⟨_, _, rfl, rfl, htexts, h m⟩

theorem shows_last (hname : ∀ c ∈ name, Munch.isWordPart c = true) (ho : '(' ∉ params)
    (hc : ')' ∉ params) (hl : '\n' ∉ params) (cs : List Char) :
    Shows ("def ".toList ++ (name ++ '(' :: (params ++ ')' :: ':' :: '\n' :: cs))) []
      (String.ofList name) := by
  intro n
  rw [functions_define hname ho hc hl]
  exact ⟨_, _, rfl, rfl⟩

variable {gs : List FunctionText} {key : String} {body : List (List Char)}

theorem Begin.find? (h : Begin last fs gs) (hf : (fs.find? fun f => f.1 = key) = some (key, body)) :
    ∃ g, (gs.find? fun g => g.name = key) = some g ∧ g.body.map Prod.snd = body := by
  induction fs generalizing gs with
  | nil => cases hf
  | cons f fs ih =>
    obtain ⟨g, gs', rfl, hname, hbody, h⟩ := h
    by_cases hkey : f.1 = key
    · rw [List.find?_cons_of_pos (by simpa using hkey)] at hf
      cases hf
      exact ⟨g, List.find?_cons_of_pos (by simpa using hname), hbody⟩
    · rw [List.find?_cons_of_neg (by simpa using hkey)] at hf
      obtain ⟨g', hg', hbody'⟩ := ih h hf
      exact ⟨g', by rw [List.find?_cons_of_neg (by simpa [hname] using hkey), hg'], hbody'⟩

theorem Begin.any_last (h : Begin last fs gs) : (gs.any fun g => g.name = last) = true := by
  induction fs generalizing gs with
  | nil =>
    obtain ⟨g, gs', rfl, hname⟩ := h
    simp [hname]
  | cons f fs ih =>
    obtain ⟨g, gs', rfl, -, -, h⟩ := h
    simp [ih h]

end Shows

end SourceText

namespace ComponentSignature

open SourceText

def returning (literal : String) : List (List Char) := ["return ".toList ++ literal.toList]

variable {last : String} {fs : List (String × List (List Char))} {gs : List FunctionText}

theorem entryShape_of_begin (file : String) {key literal : String} {shape : SignalShape}
    (h : Begin last fs gs) (hf : (fs.find? fun f => f.1 = key) = some (key, returning literal))
    (ht : Trimmed literal.toList) (hshape : shape? literal.toList = some shape) :
    entryShape file gs key = .ok (some shape) := by
  obtain ⟨g, hg, hbody⟩ := h.find? hf
  have hreturned : ∃ n, returned? g = some (n, literal.toList) := by
    obtain ⟨⟨n, text⟩, hlines, htext⟩ := List.map_eq_singleton_iff.mp hbody
    simp only at htext
    refine ⟨n, ?_⟩
    have htrim : trim (' ' :: literal.toList) = literal.toList := by
      rw [trim_cons_blank (by decide), trim_of_trimmed ht]
    simp [returned?, hlines, htext, htrim]
  obtain ⟨n, hreturned⟩ := hreturned
  simp only [entryShape, hg, hreturned, hshape]

end ComponentSignature

end PipelineLang
