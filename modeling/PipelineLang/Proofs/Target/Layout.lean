import PipelineLang.Proofs.Interface.Scan
import PipelineLang.Target.Module

/-! Written code under the scanner: pieces that leave its state of quoting alone, lines without
functions, and functions with their heads and bodies, in front of any text. -/

namespace PipelineLang

namespace Target

open SourceText

/-- A piece of code on one line, in which every quote is closed and no comment begins. -/
def Tame (s : String) : Prop := quoteAfter none s.toList = some none ∧ '\n' ∉ s.toList

instance : DecidablePred Tame := fun s =>
  inferInstanceAs (Decidable (quoteAfter none s.toList = some none ∧ '\n' ∉ s.toList))

section Tame

variable {s t : String}

theorem Tame.append (hs : Tame s) (ht : Tame t) : Tame (s ++ t) := by
  refine ⟨?_, ?_⟩
  · rw [String.toList_append, quoteAfter_append _ hs.1, ht.1]
  · rw [String.toList_append, List.mem_append, not_or]
    exact ⟨hs.2, ht.2⟩

theorem tame_of_forall (h : ∀ c ∈ s.toList, Munch.isWordPart c = true ∨
    c ∈ [' ', '.', ',', ':', '(', ')']) :
    Tame s := by
  have hne : ∀ c ∈ s.toList, ∀ d, Munch.isWordPart d = false ∧ d ∉ [' ', '.', ',', ':', '(', ')'] →
      c ≠ d := by
    rintro c hc d ⟨hword, hmark⟩ rfl
    rcases h c hc with h | h
    · rw [hword] at h
      cases h
    · exact hmark h
  refine ⟨quoteAfter_of_plain fun c hc => ?_, fun hmem => hne _ hmem '\n' (by decide) rfl⟩
  simp [isPlain, hne c hc '#' (by decide), hne c hc '\'' (by decide), hne c hc '"' (by decide)]

theorem tame_quote (s : String) : Tame (quote s) :=
  ⟨by rw [quote, String.toList_ofList, quoteAfter_quoteChars], (notMem_quote s).1⟩

theorem tame_spreads : Spreads Tame := ⟨Tame.append, tame_quote, by decide⟩

end Tame

/-- A literal that stands on its line without blanks around it. -/
structure IsLiteral (text : String) : Prop where
  tame : Tame text
  trimmed : Trimmed text.toList
  nonempty : text.toList ≠ []

theorem IsLiteral.of_ends {text : String} (h : Tame text) {c d : Char}
    (hc : text.toList.head? = some c) (hd : text.toList.getLast? = some d)
    (hcd : isWhiteSpace c = false ∧ isWhiteSpace d = false) : IsLiteral text where
  tame := h
  trimmed := by simp [Trimmed, hc, hd, hcd]
  nonempty := by
    intro hnil
    rw [hnil] at hc
    cases hc

theorem isLiteral_quote (name : String) : IsLiteral (quote name) :=
  .of_ends (tame_quote name) (c := '\'') (d := '\'') (by simp [quote, quoteChars])
    (by simp [quote, quoteChars, List.getLast?_cons]) (by decide)

theorem isLiteral_list (names : List String) : IsLiteral (list names) :=
  .of_ends (tame_spreads.list names) (c := '[') (d := ']') (by simp [list])
    (by simp [list, List.getLast?_cons]) (by decide)

theorem isLiteral_signalList (clause : SignalClause) : IsLiteral (signalList clause) := by
  cases clause with
  | flat names => exact isLiteral_list _
  | pair top bottom =>
    exact .of_ends (tame_spreads.signalList _) (c := '(') (d := ')') (by simp [signalList])
      (by simp [signalList, List.getLast?_cons]) (by decide)

theorem isLiteral_dictionary {es : List DictEntry} (h : ∀ e ∈ es, Tame e.2) :
    IsLiteral (dictionary es) :=
  .of_ends (tame_spreads.dictionary h) (c := '\x7b') (d := '\x7d') (by simp [dictionary])
    (by simp [dictionary, List.getLast?_cons]) (by decide)

/-- A line of code that begins with the given character. -/
def Starts (c : Char) (s : String) : Prop := Tame s ∧ s.toList.head? = some c

section Starts

variable {s t : String} {c : Char} {cs : List Char}

theorem tame_ofList (h : quoteAfter none cs = some none ∧ '\n' ∉ cs) : Tame (String.ofList cs) := by
  rwa [Tame, String.toList_ofList]

theorem starts_ofList (h : quoteAfter none (c :: cs) = some none ∧ '\n' ∉ c :: cs) :
    Starts c (String.ofList (c :: cs)) :=
  ⟨tame_ofList h, by simp⟩

theorem starts_ofList_append {ds : List Char}
    (h : quoteAfter none (c :: (cs ++ ds)) = some none ∧ '\n' ∉ c :: (cs ++ ds)) :
    Starts c (String.ofList (c :: cs) ++ String.ofList ds) := by
  rw [← String.ofList_append, List.cons_append]
  exact starts_ofList h

theorem Starts.append (hs : Starts c s) (ht : Tame t) : Starts c (s ++ t) :=
  ⟨hs.1.append ht, by simp [hs.2]⟩

end Starts

def laidOut (lines : List String) : List Char := lines.flatMap fun l => l.toList ++ ['\n']

theorem laidOut_cons (l : String) (lines : List String) :
    laidOut (l :: lines) = l.toList ++ '\n' :: laidOut lines := by
  simp [laidOut]

theorem laidOut_append (lines lines' : List String) :
    laidOut (lines ++ lines') = laidOut lines ++ laidOut lines' :=
  List.flatMap_append

theorem toList_text (lines : List String) :
    (String.join (lines.map (· ++ "\n"))).toList = laidOut lines := by
  simp [String.toList_join, laidOut, List.flatMap_map]

theorem stripComments_laidOut {lines : List String} (h : ∀ l ∈ lines, Tame l) (rest : List Char) :
    stripComments none (laidOut lines ++ rest) = laidOut lines ++ stripComments none rest := by
  induction lines with
  | nil => rfl
  | cons l lines ih =>
    rw [List.forall_mem_cons] at h
    have hfeed : quoteAfter none ['\n'] = some none := rfl
    rw [laidOut_cons, List.append_assoc, stripComments_append _ h.1.1]
    rw [List.cons_append, ← List.singleton_append, stripComments_append _ hfeed, ih h.2]
    simp

theorem stripComments_comments {lines : List String}
    (h : ∀ l ∈ lines, l.toList.head? = some '#' ∧ '\n' ∉ l.toList) (rest : List Char) :
    stripComments none (laidOut lines ++ rest)
      = laidOut (List.replicate lines.length "") ++ stripComments none rest := by
  induction lines with
  | nil => rfl
  | cons l lines ih =>
    rw [List.forall_mem_cons] at h
    obtain ⟨⟨hhead, hfeed⟩, h⟩ := h
    obtain ⟨cs, hcs⟩ := List.head?_eq_some_iff.mp hhead
    rw [hcs] at hfeed
    rw [laidOut_cons, hcs]
    simp only [List.cons_append, List.append_assoc]
    rw [stripComments_comment fun hmem => hfeed (List.mem_cons_of_mem _ hmem), ih h]
    rfl

/-- The functions of a text begin so, also where the text stands behind the body of another
function. -/
structure Opens (cs : List Char) (fs : List (String × List (List Char))) (last : String) :
    Prop where
  shows : Shows cs fs last
  follows : ∃ rest, HasBody cs [] rest ∧ Shows rest fs last

section Opens

variable {c : Char} {cs : List Char} {last : String} {fs : List (String × List (List Char))}
  {rest : List Char}

theorem Opens.of_shows (h : Shows (c :: cs) fs last) (hc : isWhiteSpace c = false) :
    Opens (c :: cs) fs last :=
  ⟨h, c :: cs, hasBody_end hc cs, h⟩

theorem Opens.blank (h : Opens rest fs last) : Opens ('\n' :: rest) fs last := by
  obtain ⟨rest', hbody, hrest⟩ := h.follows
  exact ⟨h.shows.skip List.not_mem_nil rfl, rest', hbody.blank, hrest⟩

theorem Opens.blanks (h : Opens rest fs last) (n : Nat) :
    Opens (laidOut (List.replicate n "") ++ rest) fs last := by
  induction n with
  | zero => exact h
  | succ n ih => exact ih.blank

theorem Opens.asides {lines : List String} (h : Opens rest fs last)
    (hlines : ∀ l ∈ lines, Starts c l) (hc : isWhiteSpace c = false ∧ c ≠ 'd') :
    Opens (laidOut lines ++ rest) fs last := by
  induction lines with
  | nil => exact h
  | cons l lines ih =>
    rw [List.forall_mem_cons] at hlines
    obtain ⟨⟨⟨-, hfeed⟩, hhead⟩, hlines⟩ := hlines
    obtain ⟨cs, hcs⟩ := List.head?_eq_some_iff.mp hhead
    have hdef : "def ".toList.isPrefixOf (c :: cs) = false := by
      simp [List.isPrefixOf, hc.2.symm]
    rw [hcs] at hfeed
    rw [laidOut_cons, List.append_assoc, hcs]
    exact .of_shows ((ih hlines).shows.skip hfeed hdef) hc.1

theorem exists_hasBody_lines {lines : List String} (h : HasBody cs [] rest)
    (hlines : ∀ l ∈ lines, Starts ' ' l) : ∃ texts, HasBody (laidOut lines ++ cs) texts rest := by
  induction lines with
  | nil => exact ⟨[], h⟩
  | cons l lines ih =>
    rw [List.forall_mem_cons] at hlines
    obtain ⟨⟨⟨-, hfeed⟩, hhead⟩, hlines⟩ := hlines
    obtain ⟨texts, hbody⟩ := ih hlines
    obtain ⟨cs, hcs⟩ := List.head?_eq_some_iff.mp hhead
    rw [hcs] at hfeed
    rw [laidOut_cons, List.append_assoc, hcs]
    exact ⟨_, hbody.indented fun hmem => hfeed (List.mem_cons_of_mem _ hmem)⟩

def headLine (name params : String) : String := "def " ++ (name ++ "(" ++ params ++ ")") ++ ":"

structure IsHead (name params : String) : Prop where
  name : WordChars name
  params : params.toList.all (fun c => Munch.isWordPart c || [' ', ','].contains c) = true

instance (name params : String) : Decidable (IsHead name params) :=
  decidable_of_iff (WordChars name ∧
      params.toList.all (fun c => Munch.isWordPart c || [' ', ','].contains c) = true)
    ⟨fun h => ⟨h.1, h.2⟩, fun h => ⟨h.1, h.2⟩⟩

theorem IsHead.of_mem {name params : String} (h : IsHead name params) (hc : c ∈ params.toList) :
    Munch.isWordPart c = true ∨ c ∈ [' ', ','] := by
  simpa using List.all_eq_true.mp h.params c hc

theorem toList_headLine (name params : String) (cs : List Char) :
    (headLine name params).toList ++ '\n' :: cs =
      "def ".toList ++ (name.toList ++ '(' :: (params.toList ++ ')' :: ':' :: '\n' :: cs)) := by
  simp [headLine]

theorem IsHead.not_mem {name params : String} (h : IsHead name params)
    (hc : Munch.isWordPart c = false ∧ c ∉ [' ', ',']) : c ∉ params.toList := by
  intro hmem
  rcases h.of_mem hmem with hword | hmark
  · rw [hc.1] at hword
    cases hword
  · exact hc.2 hmark

theorem IsHead.tame {name params : String} (h : IsHead name params) :
    Tame (headLine name params) := by
  have hname : Tame name := tame_of_forall fun c hc => .inl (h.name c hc)
  have hmarks : [' ', ','] ⊆ [' ', '.', ',', ':', '(', ')'] := by simp
  have hparams : Tame params :=
    tame_of_forall fun c hc => (h.of_mem hc).imp_right fun hmark => hmarks hmark
  exact (Tame.append (by decide)
    (((hname.append (by decide)).append hparams).append (by decide))).append (by decide)

theorem Opens.define {name params : String} {texts : List (List Char)} (h : Shows rest fs last)
    (hbody : HasBody cs texts rest) (hhead : IsHead name params) :
    Opens ((headLine name params).toList ++ '\n' :: cs) ((name, texts) :: fs) last := by
  have hdefine := h.define hbody hhead.name (hhead.not_mem (by decide)) (hhead.not_mem (by decide))
    (hhead.not_mem (by decide))
  rw [String.ofList_toList] at hdefine
  rw [toList_headLine]
  exact .of_shows hdefine (by decide)

theorem opens_last {name params : String} (hhead : IsHead name params) (cs : List Char) :
    Opens (laidOut [headLine name params] ++ cs) [] name := by
  have hlast := shows_last hhead.name (hhead.not_mem (by decide)) (hhead.not_mem (by decide))
    (hhead.not_mem (by decide)) cs
  rw [String.ofList_toList] at hlast
  rw [laidOut_cons, List.append_assoc, List.cons_append, toList_headLine]
  exact .of_shows hlast (by decide)

theorem Opens.define_lines {name params : String} {lines : List String} (h : Opens rest fs last)
    (hhead : IsHead name params) (hlines : ∀ l ∈ lines, Starts ' ' l) :
    ∃ texts, Opens (laidOut (headLine name params :: lines) ++ rest) ((name, texts) :: fs)
      last := by
  obtain ⟨rest', hrest, hshows⟩ := h.follows
  obtain ⟨texts, hbody⟩ := exists_hasBody_lines hrest hlines
  refine ⟨texts, ?_⟩
  rw [laidOut_cons, List.append_assoc]
  exact .define hshows hbody hhead

theorem headLine_ofList (name params : List Char) :
    headLine (String.ofList name) (String.ofList params) =
      String.ofList ('d' :: 'e' :: 'f' :: ' ' :: (name ++ '(' :: (params ++ [')', ':']))) := by
  simp [headLine, ← String.toList_inj]
end Opens

theorem bodyLines_append (depth : Nat) (xs ys : List Statement) :
    Statement.bodyLines depth (xs ++ ys) =
      Statement.bodyLines depth xs ++ Statement.bodyLines depth ys := by
  induction xs with
  | nil => rfl
  | cons x xs ih => simp [Statement.bodyLines, ih]

theorem bodyLines_initialise (statements : List Statement) :
    Statement.bodyLines 0 (Statement.function "initialise" ["config"] statements) =
      headLine "initialise" "config" :: (Statement.bodyLines 1 statements ++ [""]) := by
  simp [Statement.function, Statement.bodyLines, Statement.lines, Statement.indentation, headLine]

def openingLines (p : Program) (s : Symbols) (o : CodeOptions) : List String :=
  headerLines o ++ supportImports ++ (if o.instrument then tracingFunctions else []) ++ importLines
    p.imports ++ ["", ""]
    ++ Statement.bodyLines 0 (interfaceFunctions p.component s)

theorem text_of_generate {p : Program} {s : Symbols} {body : Body} {lines : LineIndex}
    {o : CodeOptions} {code : Generated} (h : p.generate s body lines o = .ok code) :
    ∃ statements log, initialiseBody p.component s body lines o.instrument = .ok (statements, log) ∧
      code.text.toList = laidOut (openingLines p s o) ++
        laidOut (Statement.bodyLines 0
            (Statement.function "initialise" ["config"] statements)) := by
  unfold Program.generate at h
  cases hbody : initialiseBody p.component s body lines o.instrument with
  | error e =>
    rw [hbody] at h
    cases h
  | ok r =>
    rw [hbody] at h
    cases h
    refine ⟨r.1, r.2, rfl, ?_⟩
    rw [toList_text, bodyLines_append, openingLines, ← laidOut_append]
    simp

end Target

end PipelineLang
