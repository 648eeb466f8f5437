import PipelineLang.Json.Reader

/-!
Written values read back. A text spells a list of marks if the reader finds those marks in front of
whatever follows it; a list of marks builds a value if it takes the reader through exactly that
value, inside any containers. Both the compact and the indented text of a value spell marks that
build it.
-/

namespace PipelineLang.Json

variable {cs ds sep : List Char} {v : Json} {c : Char} {m : Mark} {ms : List Mark}

/-- The characters that a numeral could go on with. -/
def extendsNumeral (c : Char) : Bool := c.isDigit || c = '.' || c = 'e' || c = 'E'

def Stops (cs : List Char) : Prop := ∀ c ∈ cs.head?, extendsNumeral c = false

/-- In front of any text the reader finds these marks. -/
def Shows (cs : List Char) (ms : List Mark) : Prop :=
  ∀ rest, marks (cs ++ rest) = (marks rest).map (ms ++ ·)

/-- In front of any text that does not go on with a numeral the reader finds these marks. -/
def Spells (cs : List Char) (ms : List Mark) : Prop :=
  ∀ rest, Stops rest → marks (cs ++ rest) = (marks rest).map (ms ++ ·)

theorem Shows.spells (h : Shows cs ms) : Spells cs ms :=
  fun rest _ => h rest

theorem Shows.append {ns : List Mark} (h : Shows cs ms) (k : Shows ds ns) :
    Shows (cs ++ ds) (ms ++ ns) := by
  intro rest
  rw [List.append_assoc, h, k, Option.map_map]
  congr 1
  funext l
  simp

theorem Shows.append_spells {ns : List Mark} (h : Shows cs ms)
    (k : Spells ds ns) : Spells (cs ++ ds) (ms ++ ns) := by
  intro rest hrest
  rw [List.append_assoc, h, k rest hrest, Option.map_map]
  congr 1
  funext l
  simp

/-- What separates values or closes a container: it shows one mark and does not go on with a
numeral. -/
structure Divides (cs : List Char) (m : Mark) : Prop where
  stops : ∀ rest, Stops (cs ++ rest)
  shows : Shows cs [m]

theorem Spells.append_divides (h : Spells cs ms)
    (k : Divides ds m) : Shows (cs ++ ds) (ms ++ [m]) := by
  intro rest
  rw [List.append_assoc, h _ (k.stops rest), k.shows rest, Option.map_map]
  congr 1
  funext l
  simp

theorem shows_blank (h : isJsonBlank c = true) : Shows [c] [] := by
  intro rest
  rw [List.singleton_append, marks, if_pos h]
  simp

theorem shows_blanks (h : ∀ c ∈ cs, isJsonBlank c = true) : Shows cs [] := by
  induction cs with
  | nil => intro rest; simp
  | cons c cs ih =>
    have hc : Shows [c] [] := shows_blank (h c List.mem_cons_self)
    have hcs : Shows cs [] := ih fun d hd => h d (List.mem_cons_of_mem c hd)
    exact hc.append hcs

theorem marks_cons {n : Nat}
    (hc : isJsonBlank c = false) (h : mark? c cs = some (m, n)) :
    marks (c :: cs) = (marks (cs.drop n)).map (m :: ·) := by
  rw [marks, if_neg (by simp [hc]), h]

theorem shows_sign (hc : isJsonBlank c = false)
    (h : ∀ cs, mark? c cs = some (m, 0)) : Shows [c] [m] := by
  intro rest
  rw [List.singleton_append, marks_cons hc (h rest)]
  rfl

theorem shows_openArray : Shows ['['] [.openArray] :=
  shows_sign (by decide) fun _ => rfl

theorem shows_closeArray : Shows [']'] [.closeArray] :=
  shows_sign (by decide) fun _ => rfl

theorem shows_openObject : Shows ['\x7b'] [.openObject] :=
  shows_sign (by decide) fun _ => rfl

theorem shows_closeObject : Shows ['\x7d'] [.closeObject] :=
  shows_sign (by decide) fun _ => rfl

theorem shows_comma : Shows [','] [.comma] :=
  shows_sign (by decide) fun _ => rfl

theorem shows_colon : Shows [':'] [.colon] :=
  shows_sign (by decide) fun _ => rfl

theorem codeUnit?_hexDigits : ∀ n < 32, ∃ c d,
    hexDigits n = ['0', '0', c, d] ∧ codeUnit? '0' '0' c d = some n := by
  have h : ∀ n < 32, hexDigits n = ['0', '0', (n / 16).digitChar, (n % 16).digitChar]
      ∧ codeUnit? '0' '0' (n / 16).digitChar (n % 16).digitChar = some n := by decide
  exact fun n hn => ⟨_, _, h n hn⟩

theorem escapeChar_cases (c : Char) :
    (∃ d, escapeChar c = ['\\', d] ∧ d ≠ 'u' ∧ escaped? d = some c.toNat)
      ∨ (∃ a b, escapeChar c = ['\\', 'u', '0', '0', a, b] ∧ codeUnit? '0' '0' a b = some c.toNat)
      ∨ escapeChar c = [c] ∧ c ≠ '"' ∧ c ≠ '\\' ∧ ¬c.toNat < 32 := by
  by_cases hnamed : c ∈ ['"', '\\', '\n', '\r', '\t', Char.ofNat 8, Char.ofNat 12]
  · left
    simp only [List.mem_cons, List.not_mem_nil, or_false] at hnamed
    rcases hnamed with rfl | rfl | rfl | rfl | rfl | rfl | rfl <;> exact
      ⟨_, rfl, by decide, by decide⟩
  right
  simp only [List.mem_cons, List.not_mem_nil, or_false, not_or] at hnamed
  obtain ⟨hquote, hslash, hline, hreturn, htab, hback, hfeed⟩ := hnamed
  have hback : c.toNat ≠ 8 := fun h => hback (by rw [← h, Char.ofNat_toNat])
  have hfeed : c.toNat ≠ 12 := fun h => hfeed (by rw [← h, Char.ofNat_toNat])
  by_cases hcontrol : c.toNat < 32
  · left
    obtain ⟨a, b, hdigits, hunit⟩ := codeUnit?_hexDigits c.toNat hcontrol
    refine ⟨a, b, ?_, hunit⟩
    simp [escapeChar, hquote, hslash, hline, hreturn, htab, hback, hfeed, hcontrol, hdigits]
  · right
    refine ⟨?_, hquote, hslash, hcontrol⟩
    simp [escapeChar, hquote, hslash, hline, hreturn, htab, hback, hfeed, hcontrol]

theorem textBody_escapeChar (c : Char) (cs : List Char) :
    textBody (escapeChar c ++ cs) =
      (textBody cs).map fun b => (b.1 + (escapeChar c).length, c.toNat :: b.2) := by
  obtain ⟨d, hc, hd, hunit⟩ | ⟨a, b, hc, hunit⟩ | ⟨hc, hquote, hslash, hcontrol⟩ :=
    escapeChar_cases c
  · rw [hc, List.cons_append, List.cons_append, List.nil_append, textBody.eq_3 d cs (by simp [hd]),
      hunit]
    cases textBody cs <;> rfl
  · rw [hc]
    simp only [List.cons_append, List.nil_append, textBody, hunit]
    cases textBody cs <;> rfl
  · rw [hc, List.singleton_append, textBody.eq_4 c cs hquote (by simp [hslash]) (by simp [hslash]),
      if_neg hcontrol]
    cases textBody cs <;> rfl

theorem textBody_flatMap (s rest : List Char) :
    textBody (s.flatMap escapeChar ++ '"' :: rest) =
      some ((s.flatMap escapeChar).length + 1, s.map Char.toNat) := by
  induction s with
  | nil => simp [textBody]
  | cons c s ih =>
    rw [List.flatMap_cons, List.append_assoc, textBody_escapeChar, ih]
    simp only [Option.map_some, List.length_append, List.map_cons]
    congr 2
    omega

theorem joinUnits_map_toNat (s : List Char) : joinUnits (s.map Char.toNat) = some s := by
  induction s with
  | nil => rfl
  | cons c s ih =>
    have hvalid : c.toNat < 0xD800 ∨ 0xDFFF < c.toNat ∧ c.toNat < 0x110000 := c.valid
    have hhigh : ¬(0xD800 ≤ c.toNat ∧ c.toNat < 0xDC00) := by omega
    have hlow : ¬(0xDC00 ≤ c.toNat ∧ c.toNat < 0xE000) := by omega
    rw [List.map_cons, joinUnits.eq_def]
    simp [hhigh, hlow, ih]

theorem shows_quote (s : String) : Shows (quote s).toList [.value (.string s)] := by
  intro rest
  have hbody := textBody_flatMap s.toList rest
  have htext : (quote s).toList ++ rest = '"' :: (s.toList.flatMap escapeChar ++ '"' :: rest) := by
    simp [quote]
  have hmark : mark? '"' (s.toList.flatMap escapeChar ++ '"' :: rest) =
      some (.value (.string s), (s.toList.flatMap escapeChar).length + 1) := by
    simp [mark?, hbody, joinUnits_map_toNat]
  have hdrop : (s.toList.flatMap escapeChar ++ '"' :: rest).drop
      ((s.toList.flatMap escapeChar).length + 1) = rest := by
    rw [List.drop_length_add_append]
    rfl
  rw [htext, marks_cons (by decide) hmark, hdrop]
  rfl

theorem head?_toDigits_ne_zero {n : Nat} (h : 0 < n) : (Nat.toDigits 10 n).head? ≠ some '0' := by
  induction n using Nat.strongRecOn with
  | ind n ih =>
    by_cases hn : n < 10
    · have hdigit : ∀ d < 10, 0 < d → d.digitChar ≠ '0' := by decide
      rw [Nat.toDigits_of_lt_base hn]
      simpa using hdigit n hn h
    · have hhead := ih (n / 10) (by omega) (by omega)
      have hne : Nat.toDigits 10 (n / 10) ≠ [] := Nat.toDigits_ne_nil
      obtain ⟨d, tail, hcons⟩ := List.exists_cons_of_ne_nil hne
      rw [Nat.toDigits_of_base_le (by decide) (by omega), hcons]
      simpa [hcons] using hhead

theorem digitRun_append {rest : List Char} (hds : ∀ d ∈ ds, d.isDigit = true)
    (h : Stops rest) : digitRun (ds ++ rest) = ds.length := by
  have hrest : rest.takeWhile Char.isDigit = [] := by
    cases rest with
    | nil => rfl
    | cons c rest =>
      have hc := h c rfl
      simp only [extendsNumeral, Bool.or_eq_false_iff] at hc
      simp [hc.1.1.1]
  rw [digitRun, List.takeWhile_append_of_pos hds, hrest, List.append_nil]

theorem ne_of_isDigit {d : Char} (h : c.isDigit = true) (hd : d.isDigit = false) : c ≠ d := by
  rintro rfl
  simp [h] at hd

theorem numeralLength_append {rest : List Char} (hne : ds ≠ [])
    (hds : ∀ d ∈ ds, d.isDigit = true) (hzero : 1 < ds.length → ds.head? ≠ some '0')
    (h : Stops rest) : numeralLength (ds ++ rest) = some ds.length := by
  have hrun := digitRun_append hds h
  obtain ⟨d, tail, rfl⟩ := List.exists_cons_of_ne_nil hne
  have hminus : d ≠ '-' := ne_of_isDigit (hds d List.mem_cons_self) (by decide)
  have hwhole : 0 < tail.length → d ≠ '0' := fun hlong => by
    simpa using hzero (by simpa using hlong)
  have hnext : ∀ e tail, rest = e :: tail → e ≠ '.' ∧ e ≠ 'e' ∧ e ≠ 'E' := by
    rintro e tail rfl
    have he := h e rfl
    simp only [extendsNumeral, Bool.or_eq_false_iff, decide_eq_false_iff_not] at he
    exact ⟨he.1.1.2, he.1.2, he.2⟩
  have hdrop : ((d :: tail) ++ rest).drop (d :: tail).length = rest := List.drop_left
  unfold numeralLength
  simp only [List.cons_append, List.head?_cons, Option.some.injEq, hminus, if_false, List.drop_zero]
    at hrun hdrop ⊢
  rw [hrun, hdrop]
  cases rest with
  | nil => simpa using hwhole
  | cons e rest => simpa [hnext e rest rfl] using hwhole

theorem mark?_digit (h : c.isDigit = true) (cs : List Char) :
    mark? c cs = (numeralLength (c :: cs)).map fun n =>
      (.value (number (String.ofList ((c :: cs).take n))), n - 1) := by
  have hne : ∀ d : Char, d.isDigit = false → c ≠ d := fun d hd => ne_of_isDigit h hd
  have hopen : c.toNat ≠ 0x7B := fun hc => hne '\x7b' (by decide) (Char.toNat_inj.mp hc)
  have hclose : c.toNat ≠ 0x7D := fun hc => hne '\x7d' (by decide) (Char.toNat_inj.mp hc)
  have hkeyword : (keywords.find? fun w => w.1.toList.isPrefixOf (c :: cs)) = none := by
    simp [keywords, (hne 't' (by decide)).symm, (hne 'f' (by decide)).symm,
      (hne 'n' (by decide)).symm]
  rw [mark?, if_neg (hne _ (by decide)), if_neg (hne _ (by decide)), if_neg hopen, if_neg hclose,
    if_neg (hne _ (by decide)), if_neg (hne _ (by decide)), if_neg (hne _ (by decide)), hkeyword]
  cases numeralLength (c :: cs) <;> rfl

theorem spells_ofNat (n : Nat) : Spells (Nat.toDigits 10 n) [.value (ofNat n)] := by
  intro rest hrest
  have hdigits : ∀ d ∈ Nat.toDigits 10 n, d.isDigit = true := fun d hd =>
    Nat.isDigit_of_mem_toDigits (by decide) (by decide) hd
  have hzero : 1 < (Nat.toDigits 10 n).length → (Nat.toDigits 10 n).head? ≠ some '0' := by
    intro hlong
    apply head?_toDigits_ne_zero
    apply Nat.pos_of_ne_zero
    rintro rfl
    simp [Nat.toDigits_zero] at hlong
  have hlength := numeralLength_append Nat.toDigits_ne_nil hdigits hzero hrest
  rw [ofNat]
  obtain ⟨d, tail, hcons⟩ := List.exists_cons_of_ne_nil (Nat.toDigits_ne_nil (n := n) (b := 10))
  rw [hcons] at hdigits hlength ⊢
  have hd : d.isDigit = true := hdigits d List.mem_cons_self
  have hblank : isJsonBlank d = false := by
    simp [isJsonBlank, ne_of_isDigit hd]
  have hmark := mark?_digit hd (tail ++ rest)
  rw [List.cons_append] at hlength ⊢
  rw [hlength, Option.map_some] at hmark
  rw [marks_cons hblank hmark, ← List.cons_append, List.take_left, List.length_cons,
    Nat.add_sub_cancel, List.drop_left]
  rfl

theorem shows_word (hc : isJsonBlank c = false)
    (h : ∀ rest, mark? c (cs ++ rest) = some (.value v, cs.length)) :
    Shows (c :: cs) [.value v] := by
  intro rest
  rw [List.cons_append, marks_cons hc (h rest), List.drop_left]
  rfl

theorem shows_null : Shows "null".toList [.value null] :=
  shows_word (by decide) fun _ => rfl

theorem shows_boolean (b : Bool) : Shows (boolean b).compact.toList [.value (boolean b)] := by
  cases b
  · exact shows_word (by decide) fun _ => rfl
  · exact shows_word (by decide) fun _ => rfl

def Reading.run (ms : List Mark) (r : Reading) : Option Reading := ms.foldlM (fun r m => r.step m) r

@[simp] theorem Reading.run_nil (r : Reading) : r.run [] = some r := rfl

@[simp] theorem Reading.run_cons (m : Mark) (ms : List Mark) (r : Reading) :
    r.run (m :: ms) = (r.step m).bind (Reading.run ms) := rfl

theorem Reading.run_append (ms ns : List Mark) (r : Reading) :
    r.run (ms ++ ns) = (r.run ms).bind (Reading.run ns) := by
  simp only [Reading.run, List.foldlM_append]
  rfl

/-- Where a value may stand, the marks supply `v`. -/
def Builds (ms : List Mark) (v : Json) : Prop :=
  ∀ frames next, next = .value ∨ next = .itemOrClose →
    (Reading.open frames next).run ms = some (.supply v frames)

/-- The text reads as the value wherever a value may stand. -/
def Writes (cs : List Char) (v : Json) : Prop := ∃ ms, Spells cs ms ∧ Builds ms v

theorem writes_of_spells (h : Spells cs [.value v]) : Writes cs v := by
  refine ⟨_, h, ?_⟩
  rintro frames next (rfl | rfl) <;> rfl

/-- How a container goes on: `awaits` holds where an element may come, and after an element there is
either a comma or the closing mark. -/
structure Row {α : Type} (awaits : List Frame → List α → Reading → Prop)
    (after finish : List Frame → List α → Reading) (close : Mark) : Prop where
  comma : ∀ frames done, ∃ r, (after frames done).step .comma = some r ∧ awaits frames done r
  close : ∀ frames done, (after frames done).step close = some (finish frames done)

theorem Row.shows {α : Type} {awaits : List Frame → List α → Reading → Prop}
    {after finish : List Frame → List α → Reading} {close : Mark}
    (row : Row awaits after finish close)
    {closing : List Char} (hsep : Divides sep .comma) (hclosing : Divides closing close)
    (text : α → List Char) (a : α) (rest : List α)
    (h : ∀ b ∈ a :: rest, ∃ ms, Spells (text b) ms ∧
      ∀ frames done r, awaits frames done r → r.run ms = some (after frames (done ++ [b]))) :
    ∃ ms, Shows (sep.intercalate ((a :: rest).map text) ++ closing) ms ∧
      ∀ frames done r, awaits frames done r →
      r.run ms = some (finish frames (done ++ a :: rest)) := by
  induction rest generalizing a with
  | nil =>
    obtain ⟨ms, hspells, hrun⟩ := h a (by simp)
    refine ⟨ms ++ [close], ?_, ?_⟩
    · simpa using hspells.append_divides hclosing
    · intro frames done r hr
      rw [Reading.run_append, hrun frames done r hr]
      simp [row.close]
  | cons b rest ih =>
    obtain ⟨ms, hspells, hrun⟩ := h a (by simp)
    obtain ⟨ns, hshows, hrest⟩ := ih b fun c hc => h c (List.mem_cons_of_mem a hc)
    refine ⟨ms ++ [.comma] ++ ns, ?_, ?_⟩
    · have hall := (hspells.append_divides hsep).append hshows
      simpa [List.intercalate, List.intersperse] using hall
    · intro frames done r hr
      obtain ⟨r', hcomma, hr'⟩ := row.comma frames (done ++ [a])
      rw [Reading.run_append, Reading.run_append, hrun frames done r hr]
      simp [hcomma, hrest frames _ r' hr']

theorem arrayRow : Row
    (fun frames done r => ∃ next, (next = .value ∨ next = .itemOrClose) ∧
      r = .open (.array done.reverse :: frames) next)
    (fun frames done => .open (.array done.reverse :: frames) .separator)
    (fun frames done => .supply (.array done) frames) .closeArray where
  comma _ _ := ⟨_, rfl, .value, Or.inl rfl, rfl⟩
  close _ done := by simp [Reading.step]

theorem writes_array {opening closing : List Char} (hopening : Shows opening [.openArray])
    (hsep : Divides sep .comma) (hclosing : Divides closing .closeArray) (text : Json → List Char)
    {items : List Json} (hne : items ≠ []) (h : ∀ v ∈ items, Writes (text v) v) :
    Writes (opening ++ (sep.intercalate (items.map text) ++ closing)) (.array items) := by
  obtain ⟨v, vs, rfl⟩ := List.exists_cons_of_ne_nil hne
  obtain ⟨ms, hshows, hrun⟩ := arrayRow.shows hsep hclosing text v vs fun w hw => by
    obtain ⟨ms, hspells, hbuilds⟩ := h w hw
    refine ⟨ms, hspells, ?_⟩
    rintro frames done r ⟨next, hnext, rfl⟩
    rw [hbuilds _ _ hnext]
    simp [Reading.supply]
  refine ⟨_, (hopening.append hshows).spells, ?_⟩
  rintro frames next (rfl | rfl) <;> exact hrun frames [] _ ⟨_, Or.inr rfl, rfl⟩

def keyed (fields : List (String × Json)) : List (Json × Json) :=
  fields.map fun f => (.string f.1, f.2)

theorem closeFields_keyed (fields : List (String × Json)) :
    closeFields (keyed fields).reverse = .object fields := by
  have h : ((keyed fields).mapM fun f => (keyText? f.1).map fun k => (k, f.2)) = some fields := by
    induction fields with
    | nil => rfl
    | cons f fields ih => simp_all [keyed, keyText?]
  rw [closeFields, List.reverse_reverse, h]

theorem objectRow : Row
    (fun frames done r => ∃ next key, (next = .key ∨ next = .keyOrClose) ∧
      r = .open (.object (keyed done).reverse key :: frames) next)
    (fun frames done => .open (.object (keyed done).reverse null :: frames) .separator)
    (fun frames done => .supply (.object done) frames) .closeObject where
  comma _ _ := ⟨_, rfl, .key, null, Or.inl rfl, rfl⟩
  close _ done := by simp [Reading.step, closeFields_keyed]

theorem writes_object {opening colon closing : List Char} (hopening : Shows opening [.openObject])
    (hsep : Divides sep .comma) (hcolon : Shows colon [.colon])
    (hclosing : Divides closing .closeObject)
    (text : Json → List Char) {fields : List (String × Json)} (hne : fields ≠ [])
    (h : ∀ f ∈ fields, Writes (text f.2) f.2) :
    Writes (opening ++ (sep.intercalate
        (fields.map fun f => (quote f.1).toList ++ colon ++ text f.2)
      ++ closing)) (.object fields) := by
  obtain ⟨f, fs, rfl⟩ := List.exists_cons_of_ne_nil hne
  obtain ⟨ms, hshows, hrun⟩ := objectRow.shows hsep hclosing
      (fun f => (quote f.1).toList ++ colon ++ text f.2) f fs fun g hg => by
    obtain ⟨ms, hspells, hbuilds⟩ := h g hg
    refine ⟨_, ((shows_quote g.1).append hcolon).append_spells hspells, ?_⟩
    rintro frames done r ⟨next, key, hnext, rfl⟩
    rw [Reading.run_append, Reading.run_append]
    rcases hnext with rfl | rfl <;>
      simp [Reading.step, hbuilds _ _ (Or.inl rfl), Reading.supply, keyed, Reading.step.key]
  refine ⟨_, (hopening.append hshows).spells, ?_⟩
  rintro frames next (rfl | rfl) <;> exact hrun frames [] _ ⟨_, _, Or.inr rfl, rfl⟩

theorem writes_empty_array : Writes ['[', ']'] (.array []) := by
  refine ⟨_, (shows_openArray.append shows_closeArray).spells, ?_⟩
  rintro frames next (rfl | rfl) <;> rfl

theorem writes_empty_object : Writes ['\x7b', '\x7d'] (.object []) := by
  refine ⟨_, (shows_openObject.append shows_closeObject).spells, ?_⟩
  rintro frames next (rfl | rfl) <;> rfl

/-- Values whose numbers are natural and that hold nothing unreadable. -/
inductive Plain : Json → Prop
  | null : Plain null
  | boolean (b : Bool) : Plain (boolean b)
  | ofNat (n : Nat) : Plain (ofNat n)
  | string (s : String) : Plain (string s)
  | array {items : List Json} (h : ∀ v ∈ items, Plain v) : Plain (array items)
  | object {fields : List (String × Json)} (h : ∀ f ∈ fields, Plain f.2) : Plain (object fields)

theorem divides_comma : Divides [','] .comma :=
  ⟨fun _ => by simp [Stops, extendsNumeral], shows_comma⟩

theorem divides_closeArray : Divides [']'] .closeArray :=
  ⟨fun _ => by simp [Stops, extendsNumeral], shows_closeArray⟩

theorem divides_closeObject : Divides ['\x7d'] .closeObject :=
  ⟨fun _ => by simp [Stops, extendsNumeral], shows_closeObject⟩

def Blank (cs : List Char) : Prop := ∀ c ∈ cs, isJsonBlank c = true

theorem Divides.append_blank (h : Divides cs m) (hds : Blank ds) :
    Divides (cs ++ ds) m := by
  constructor
  · intro rest
    rw [List.append_assoc]
    exact h.stops _
  · simpa using h.shows.append (shows_blanks hds)

theorem Divides.blank_append (h : Divides cs m) (hds : Blank ds) :
    Divides (ds ++ cs) m := by
  refine ⟨fun rest => ?_, (shows_blanks hds).append h.shows⟩
  cases ds with
  | nil => exact h.stops rest
  | cons d ds =>
    have hd : isJsonBlank d = true := hds d List.mem_cons_self
    simp only [isJsonBlank, Bool.or_eq_true, decide_eq_true_eq] at hd
    rcases hd with ((rfl | rfl) | rfl) | rfl <;> simp [Stops, extendsNumeral]

theorem compactItems_eq (items : List Json) : compactItems items = items.map compact := by
  induction items with
  | nil => rfl
  | cons v vs ih => simp [compactItems, ih]

theorem compactFields_eq (fields : List (String × Json)) :
    compactFields fields = fields.map fun f => quote f.1 ++ ":" ++ f.2.compact := by
  induction fields with
  | nil => rfl
  | cons f fs ih => simp [compactFields, ih]

theorem writes_compact (h : v.Plain) : Writes v.compact.toList v := by
  induction h with
  | null => exact writes_of_spells shows_null.spells
  | boolean b => exact writes_of_spells (shows_boolean b).spells
  | ofNat n => exact writes_of_spells (by simpa [ofNat, compact] using spells_ofNat n)
  | string s => exact writes_of_spells (shows_quote s).spells
  | @array items _ ih =>
    by_cases hne : items = []
    · subst hne
      exact writes_empty_array
    · have harray := writes_array shows_openArray divides_comma divides_closeArray _ hne ih
      simpa [compact, compactItems_eq, String.toList_intercalate, Function.comp_def] using harray
  | @object fields _ ih =>
    by_cases hne : fields = []
    · subst hne
      exact writes_empty_object
    · have hobject := writes_object shows_openObject divides_comma shows_colon divides_closeObject
        (fun v => v.compact.toList) hne ih
      simpa [compact, compactFields_eq, String.toList_intercalate, Function.comp_def] using hobject

theorem read?_of_writes {text : String} (h : Writes text.toList v) : read? text = some v := by
  obtain ⟨ms, hspells, hbuilds⟩ := h
  have hmarks : marks text.toList = some ms := by
    simpa [marks] using hspells [] (by simp [Stops])
  have hrun : ms.foldlM (fun r m => r.step m) (Reading.open [] .value) = some (.done v) :=
    hbuilds [] .value (Or.inl rfl)
  simp [read?, hmarks, hrun]

theorem read?_compact (h : v.Plain) : read? v.compact = some v :=
  read?_of_writes (writes_compact h)

theorem indentedItems_eq (margin : String) (items : List Json) :
    indentedItems margin items = items.map (indented margin) := by
  induction items with
  | nil => rfl
  | cons v vs ih => simp [indentedItems, ih]

theorem indentedFields_eq (margin : String) (fields : List (String × Json)) :
    indentedFields margin fields =
      fields.map fun f => quote f.1 ++ ": " ++ f.2.indented margin := by
  induction fields with
  | nil => rfl
  | cons f fs ih => simp [indentedFields, ih]

def lineStart (margin : String) : List Char := '\n' :: margin.toList

theorem blank_lineStart {margin : String} (h : Blank margin.toList) : Blank (lineStart margin) := by
  simpa [Blank, lineStart, isJsonBlank] using h

theorem toList_block {opening closing margin : String} {lines : List String} (h : lines ≠ []) :
    (block opening closing margin lines).toList =
      (opening.toList ++ lineStart (margin ++ "  "))
        ++ (([','] ++ lineStart (margin ++ "  ")).intercalate (lines.map String.toList)
          ++ (lineStart margin ++ closing.toList)) := by
  simp [block, h, lineStart, String.toList_intercalate]

theorem blank_deeper {margin : String} (h : Blank margin.toList) :
    Blank (margin ++ "  ").toList := by
  intro c hc
  rw [String.toList_append, List.mem_append] at hc
  rcases hc with hc | hc
  · exact h c hc
  · have hblanks : "  ".toList.all isJsonBlank = true := rfl
    exact List.all_eq_true.mp hblanks c hc

theorem writes_indented (h : v.Plain) {margin : String} (hm : Blank margin.toList) :
    Writes (v.indented margin).toList v := by
  induction h generalizing margin with
  | null => exact writes_compact .null
  | boolean b => exact writes_compact (.boolean b)
  | ofNat n => exact writes_compact (.ofNat n)
  | string s => exact writes_compact (.string s)
  | @array items _ ih =>
    by_cases hne : items = []
    · subst hne
      simpa [indented, indentedItems, block] using writes_empty_array
    · have hline := blank_lineStart (blank_deeper hm)
      have harray := writes_array (shows_openArray.append (shows_blanks hline))
        (divides_comma.append_blank hline) (divides_closeArray.blank_append (blank_lineStart hm)) _
          hne
        fun v hv => ih v hv (blank_deeper hm)
      rw [indented, indentedItems_eq, toList_block (by simpa using hne), List.map_map]
      exact harray
  | @object fields _ ih =>
    by_cases hne : fields = []
    · subst hne
      simpa [indented, indentedFields, block] using writes_empty_object
    · have hline := blank_lineStart (blank_deeper hm)
      have hobject := writes_object (shows_openObject.append (shows_blanks hline))
        (divides_comma.append_blank hline) (shows_colon.append (shows_blank (c := ' ') rfl))
        (divides_closeObject.blank_append (blank_lineStart hm))
        (fun v => (v.indented (margin ++ "  ")).toList) hne fun v hv => ih v hv (blank_deeper hm)
      rw [indented, indentedFields_eq, toList_block (by simpa using hne), List.map_map]
      simpa [Function.comp_def] using hobject

theorem read?_pretty (h : v.Plain) : read? v.pretty = some v :=
  read?_of_writes (writes_indented h (by simp [Blank]))

end PipelineLang.Json
