import PipelineLang.Proofs.Interface.Comments
import PipelineLang.Proofs.Interface.Shape

/-! The scanner of modules by byte offsets. Every index is looked up and every slice is cut with a
check; the result is none if one of them lies outside of the text or inside of a character, or if a
loop or a recursion makes no progress. The checks always pass, and what is read is what the scanner
on characters reads. -/

namespace PipelineLang

variable {i : Nat} {d : Char} {α : Type}

namespace ByOffset

open SourceText

/-- The text in front of an offset and the text behind it, unless the offset lies inside of a
character or behind the text. -/
def cut? : Nat → List Char → Option (List Char × List Char)
  | 0, cs => some ([], cs)
  | _ + 1, [] => none
  | n + 1, c :: cs =>
    if c.utf8Size ≤ n + 1 then (cut? (n + 1 - c.utf8Size) cs).map fun parts => (c :: parts.1,
      parts.2) else none

theorem cut?_append (left right : List Char) :
    cut? (utf8Length left) (left ++ right) = some (left, right) := by
  induction left with
  | nil => cases right <;> rfl
  | cons c left ih =>
    obtain ⟨n, hn⟩ := Nat.exists_eq_add_of_lt c.utf8Size_pos
    have hsize : utf8Length (c :: left) = n + utf8Length left + 1 := by
      rw [utf8Length_cons]
      omega
    have hrest : n + utf8Length left + 1 - c.utf8Size = utf8Length left := by omega
    rw [hsize, List.cons_append, cut?, if_pos (by omega), hrest, ih, Option.map_some]

def slice? (cs : List Char) (start stop : Nat) : Option (List Char) :=
  if start ≤ stop then (cut? start cs).bind fun parts => (cut? (stop - start) parts.2).map Prod.fst
  else none

theorem slice?_append (before inside behind : List Char) :
    slice? (before ++ (inside ++ behind)) (utf8Length before) (utf8Length (before ++ inside)) =
      some inside := by
  rw [slice?, utf8Length_append, if_pos (Nat.le_add_right _ _), cut?_append, Option.bind_some,
    Nat.add_sub_cancel_left, cut?_append, Option.map_some]

/-- A loop over the indices of a list from `i` on. A step gives the next state or ends the loop with
a result. -/
def loop {α σ β : Type} (step : σ → Nat → α → Option (σ ⊕ β)) (xs : List α) (state : σ) (i : Nat) :
    Option (σ ⊕ β) :=
  if i < xs.length then
    xs[i]?.bind fun x => (step state i x).bind fun next =>
      next.elim (loop step xs · (i + 1)) (some ∘ .inr)
  else some (.inl state)
termination_by xs.length - i

theorem loop_of_getElem? {σ β : Type} {step : σ → Nat → α → Option (σ ⊕ β)} {xs : List α} {x : α}
    (h : xs[i]? = some x) (state : σ) :
    loop step xs state i = (step state i x).bind fun next => next.elim (loop step xs · (i + 1))
      (some ∘ .inr) := by
  rw [loop, if_pos (List.getElem?_eq_some_iff.mp h).1, h, Option.bind_some]

theorem toUInt8_eq_iff (hd : d.toNat < 128) {b : UInt8} : d.toUInt8 = b ↔ d.toNat = b.toNat := by
  have hbyte : d.toUInt8.toNat = d.toNat % 256 := rfl
  rw [← UInt8.toNat_inj]
  omega

theorem utf8Length_concat (hd : d.toNat < 128) (cs : List Char) :
    utf8Length (cs ++ [d]) = utf8Length cs + 1 := by
  have hsize : d.utf8Size = 1 := Char.utf8Size_eq_one_iff.mpr (Nat.le_of_lt_succ hd)
  rw [utf8Length_append, utf8Length_cons, hsize]
  rfl

section Bytes

variable {σ β : Type} {step : σ → Nat → UInt8 → Option (σ ⊕ β)} {state : σ}
  (hskip : ∀ i b, 128 ≤ b.toNat → step state i b = some (.inl state))
include hskip

theorem loop_skip {skipped : List UInt8} (h : ∀ b ∈ skipped, 128 ≤ b.toNat) (bs rest : List UInt8) :
    loop step (bs ++ (skipped ++ rest)) state bs.length =
      loop step (bs ++ (skipped ++ rest)) state (bs ++ skipped).length := by
  induction skipped generalizing bs with
  | nil => rw [List.append_nil]
  | cons b skipped ih =>
    rw [List.forall_mem_cons] at h
    have hhere : (bs ++ (b :: skipped ++ rest))[bs.length]? = some b := by simp
    have ih := ih h.2 (bs ++ [b])
    simp only [List.append_assoc, List.singleton_append, List.length_append, List.length_singleton]
      at ih
    rw [loop_of_getElem? hhere, hskip _ _ h.1]
    simpa [Nat.add_assoc, Nat.add_comm] using ih

theorem loop_utf8Bytes (before : List Char) (c : Char) (cs : List Char) :
    loop step (utf8Bytes (before ++ c :: cs)) state (utf8Length before) =
      if c.toNat < 128 then
        (step state (utf8Length before) c.toUInt8).bind fun next =>
          next.elim (loop step (utf8Bytes (before ++ c :: cs)) · (utf8Length (before ++ [c])))
            (some ∘ .inr)
      else loop step (utf8Bytes (before ++ c :: cs)) state (utf8Length (before ++ [c])) := by
  rw [utf8Bytes_append, utf8Bytes_cons, ← length_utf8Bytes, ← length_utf8Bytes]
  rcases utf8EncodeChar_cases c with ⟨hc, hbytes⟩ | ⟨hc, hbytes⟩
  · have hhere : (utf8Bytes before ++
        (String.utf8EncodeChar c ++ utf8Bytes cs))[(utf8Bytes before).length]? =
        some c.toUInt8 := by simp [hbytes]
    have hnext : (utf8Bytes (before ++ [c])).length = (utf8Bytes before).length + 1 := by
      simp only [utf8Bytes_append, utf8Bytes_cons, hbytes, utf8Bytes_nil, List.length_append,
        List.length_singleton, List.append_nil]
    rw [if_pos hc, loop_of_getElem? hhere, hnext]
  · rw [if_neg (Nat.not_lt.mpr hc), loop_skip hskip hbytes, utf8Bytes_append, utf8Bytes_cons,
      utf8Bytes_nil, List.append_nil]

end Bytes

def closingStep (opening closing : UInt8) (depth i : Nat) (b : UInt8) : Option (Nat ⊕ Nat) :=
  some (if b = opening then .inl (depth + 1)
    else if b = closing then if depth - 1 = 0 then .inr i else .inl (depth - 1)
    else .inl depth)

/-- The index of the byte that closes the bracket at an index, if a bracket stands there and is
closed. -/
def balanced? (bytes : List UInt8) (opening closing : UInt8) (start : Nat) : Option (Option Nat) :=
  if bytes.length ≤ start then some none
  else bytes[start]?.bind fun b =>
    if b = opening then (loop (closingStep opening closing) bytes 0 start).map Sum.getRight?
      else some none

section Brackets

variable {opening closing : Char} (ho : opening.toNat < 128) (hc : closing.toNat < 128)
include ho hc

theorem loop_closing (depth : Nat) (before cs : List Char) :
    (loop (closingStep opening.toUInt8 closing.toUInt8) (utf8Bytes (before ++ cs)) depth
        (utf8Length before)).map
      Sum.getRight? = some ((upToClosing opening closing depth cs).map fun x => utf8Length
          (before ++ x.1)) := by
  induction cs generalizing depth before with
  | nil =>
    rw [loop, if_neg (by simp)]
    rfl
  | cons d cs ih =>
    have hskip : ∀ i b, 128 ≤ b.toNat →
        closingStep opening.toUInt8 closing.toUInt8 depth i b = some (.inl depth) := by
      intro i b hb
      rw [closingStep, if_neg (ne_toUInt8 hb ho), if_neg (ne_toUInt8 hb hc)]
    have hrest (depth : Nat) :
        (loop (closingStep opening.toUInt8 closing.toUInt8) (utf8Bytes (before ++ d :: cs)) depth
        (utf8Length (before ++ [d]))).map Sum.getRight? =
          some (((upToClosing opening closing depth cs).map fun x => (d :: x.1, x.2)).map fun x =>
            utf8Length (before ++ x.1)) := by
      have ih := ih depth (before ++ [d])
      rw [List.append_assoc, List.singleton_append] at ih
      rw [ih, Option.map_map]
      simp [Function.comp_def]
    rw [loop_utf8Bytes hskip, upToClosing]
    by_cases hd : d.toNat < 128
    · rw [if_pos hd, closingStep, Option.bind_some]
      simp only [toUInt8_inj hd ho, toUInt8_inj hd hc]
      by_cases hopening : d = opening
      · rw [if_pos hopening, if_pos hopening, ← hrest, Sum.elim_inl]
      rw [if_neg hopening, if_neg hopening]
      by_cases hclosing : d = closing
      · rw [if_pos hclosing, if_pos hclosing]
        by_cases hdepth : depth ≤ 1
        · rw [if_pos (by omega), if_pos hdepth, Option.map_some, List.append_nil]
          rfl
        · rw [if_neg (by omega), if_neg hdepth, ← hrest, Sum.elim_inl]
      · rw [if_neg hclosing, if_neg hclosing, ← hrest, Sum.elim_inl]
    · have hne : d ≠ opening ∧ d ≠ closing := by
        constructor <;> rintro rfl <;> contradiction
      rw [if_neg hd, if_neg hne.1, if_neg hne.2, hrest]

theorem balanced?_eq (before cs : List Char) :
    balanced? (utf8Bytes (before ++ cs)) opening.toUInt8 closing.toUInt8 (utf8Length before) =
      some ((bracketed opening closing cs).map fun x => utf8Length (before ++ opening :: x.1)) := by
  rw [balanced?]
  cases cs with
  | nil =>
    rw [if_pos (by simp)]
    rfl
  | cons d cs =>
    have hfirst : ∃ b, (utf8Bytes (before ++ d :: cs))[utf8Length before]? = some b ∧
        (b = opening.toUInt8 ↔ d = opening) := by
      obtain ⟨b, bs, hbs⟩ := List.exists_cons_of_length_pos (l := String.utf8EncodeChar d)
        (by rw [String.length_utf8EncodeChar]; exact d.utf8Size_pos)
      refine ⟨b, by rw [← length_utf8Bytes]; simp [hbs], ?_⟩
      rcases utf8EncodeChar_cases d with ⟨hd, hbytes⟩ | ⟨hd, hbytes⟩
      · rw [(List.cons.inj (hbs.symm.trans hbytes)).1, toUInt8_inj hd ho]
      · have hb := hbytes b (by rw [hbs]; exact List.mem_cons_self)
        exact iff_of_false (ne_toUInt8 hb ho) (by rintro rfl; omega)
    obtain ⟨b, hb, hopening⟩ := hfirst
    have hin := (List.getElem?_eq_some_iff.mp hb).1
    rw [if_neg (by omega), hb, Option.bind_some, bracketed]
    by_cases hd : d = opening
    · have hdepth := loop_closing ho hc 0 before (d :: cs)
      rw [upToClosing, if_pos hd, Option.map_map, hd] at hdepth
      rw [if_pos (hopening.mpr hd), if_pos hd, hd, hdepth]
      rfl
    · rw [if_neg (mt hopening.mp hd), if_neg hd]
      rfl

end Brackets

structure Split where
  depth : Int
  quote : Option UInt8
  start : Nat
  parts : List (List Char)

def splitStep (cs : List Char) (s : Split) (i : Nat) (b : UInt8) :
    Option (Split ⊕ List (List Char)) :=
  if s.quote.isSome then some (.inl { s with quote := if s.quote = some b then none else s.quote })
  else if b = '\''.toUInt8 || b = '"'.toUInt8 then some (.inl { s with quote := some b })
  else if b = '('.toUInt8 || b = '['.toUInt8 || b =
    0x7B then some (.inl { s with depth := s.depth + 1 })
  else if b = ')'.toUInt8 || b = ']'.toUInt8 || b =
    0x7D then some (.inl { s with depth := s.depth - 1 })
  else if b = ','.toUInt8 && s.depth = 0 then
    (slice? cs s.start i).map fun part => .inl { s with start := i + 1, parts := s.parts ++ [part] }
  else some (.inl s)

def Split.finish (cs : List Char) (s : Split) : Option (List (List Char)) :=
  (slice? cs s.start (utf8Length cs)).map fun part => s.parts ++ [part]

def parts? (cs : List Char) : Option (List (List Char)) :=
  (loop (splitStep cs) (utf8Bytes cs) ⟨0, none, 0, []⟩ 0).bind (Sum.elim (Split.finish cs) some)

/-- What one more character does on both sides: it goes into the part, or closes it. -/
inductive Advances (cs : List Char) (depth : Int) (quote : Option Char) (d : Char) : Prop where
  | within (depth' : Int) (quote' : Option Char) : (∀ q ∈ quote', q.toNat < 128) →
      (∀ start i parts, splitStep cs ⟨depth, quote.map Char.toUInt8, start, parts⟩ i d.toUInt8 =
        some (.inl ⟨depth', quote'.map Char.toUInt8, start, parts⟩)) →
      (∀ part rest, splitCommas depth quote part (d :: rest) =
        splitCommas depth' quote' (d :: part) rest) →
      Advances cs depth quote d
  | behind :
      (∀ start i parts, splitStep cs ⟨depth, quote.map Char.toUInt8, start, parts⟩ i d.toUInt8 =
        (slice? cs start i).map fun part => .inl ⟨depth, quote.map Char.toUInt8, i + 1,
          parts ++ [part]⟩) →
      (∀ part rest, splitCommas depth quote part (d :: rest) =
        part.reverse :: splitCommas depth quote [] rest) →
      Advances cs depth quote d

section Commas

variable {cs : List Char} {depth : Int} {quote : Option Char} (hquote : ∀ q ∈ quote, q.toNat < 128)
include hquote

theorem splitStep_of_not_ascii {b : UInt8} (hb : 128 ≤ b.toNat) (start i : Nat)
    (parts : List (List Char)) :
    splitStep cs ⟨depth, quote.map Char.toUInt8, start, parts⟩ i b =
      some (.inl ⟨depth, quote.map Char.toUInt8, start, parts⟩) := by
  have hne : ∀ e : Char, e.toNat < 128 → b ≠ e.toUInt8 := fun e he => ne_toUInt8 hb he
  have hbraces : b ≠ 0x7B ∧ b ≠ 0x7D :=
    ⟨hne (Char.ofNat 0x7B) (by decide), hne (Char.ofNat 0x7D) (by decide)⟩
  cases quote with
  | none =>
    simp [splitStep, hne '\'' (by decide), hne '"' (by decide), hne '(' (by decide),
      hne '[' (by decide), hne ')' (by decide), hne ']' (by decide), hne ',' (by decide), hbraces]
  | some q => simp [splitStep, (hne q (hquote q rfl)).symm]

theorem splitCommas_of_not_ascii (hd : ¬d.toNat < 128) (part rest : List Char) :
    splitCommas depth quote part (d :: rest) = splitCommas depth quote (d :: part) rest := by
  have hne : ∀ e : Char, e.toNat < 128 → d ≠ e := fun e he h => hd (h ▸ he)
  cases quote with
  | none =>
    have hbraces : d.toNat ≠ 0x7B ∧ d.toNat ≠ 0x7D := by omega
    have hneutral : isNeutral d = true := by simp [isNeutral, hne, hbraces]
    exact Unsplit.neutral (List.forall_mem_singleton.mpr hneutral) part rest
  | some q => rw [splitCommas, if_neg (hne q (hquote q rfl))]

theorem advances_of_ascii (hd : d.toNat < 128) : Advances cs depth quote d := by
  cases quote with
  | some q =>
    have hclose : (some q.toUInt8 = some d.toUInt8) ↔ d = q := by
      rw [Option.some_inj, toUInt8_inj (hquote q rfl) hd, eq_comm]
    by_cases hdq : d = q
    · exact .within depth none (by simp) (fun _ _ _ => by simp [splitStep, hdq])
        fun _ _ => by rw [splitCommas, if_pos hdq]
    · exact .within depth (some q) hquote (fun _ _ _ => by simp [splitStep, hclose, hdq])
        fun _ _ => by rw [splitCommas, if_neg hdq]
  | none =>
    have hbyte : ∀ e : Char, e.toNat < 128 → (d.toUInt8 = e.toUInt8 ↔ d = e) :=
      fun e he => toUInt8_inj hd he
    have hbraces : (d.toUInt8 = 0x7B ↔ d.toNat = 0x7B) ∧ (d.toUInt8 = 0x7D ↔ d.toNat = 0x7D) :=
      ⟨toUInt8_eq_iff hd, toUInt8_eq_iff hd⟩
    -- the byte is asked the same questions as the character
    have hstep (start i : Nat) (parts : List (List Char)) := by
      have h := splitStep.eq_def cs ⟨depth, none, start, parts⟩ i d.toUInt8
      simpa only [Option.isSome_none, Bool.false_eq_true, if_false, hbyte '\'' (by decide),
        hbyte '"' (by decide), hbyte '(' (by decide), hbyte '[' (by decide), hbyte ')' (by decide),
        hbyte ']' (by decide), hbyte ',' (by decide), hbraces] using h
    by_cases hquotes : (d = '\'' || d = '"') = true
    · exact .within depth (some d) (by simpa using hd)
        (fun _ _ _ => (hstep _ _ _).trans (if_pos hquotes))
        fun _ _ => by rw [splitCommas, if_pos hquotes]
    by_cases hopens : (d = '(' || d = '[' || d.toNat = 0x7B) = true
    · exact .within (depth + 1) none (by simp)
        (fun _ _ _ => (hstep _ _ _).trans (by
          rw [if_neg hquotes, if_pos hopens]
          rfl))
        fun _ _ => by rw [splitCommas, if_neg hquotes, if_pos hopens]
    by_cases hcloses : (d = ')' || d = ']' || d.toNat = 0x7D) = true
    · exact .within (depth - 1) none (by simp)
        (fun _ _ _ => (hstep _ _ _).trans (by
          rw [if_neg hquotes, if_neg hopens, if_pos hcloses]
          rfl))
        fun _ _ => by rw [splitCommas, if_neg hquotes, if_neg hopens, if_pos hcloses]
    by_cases hcomma : (d = ',' && depth = 0) = true
    · exact .behind
        (fun _ _ _ => (hstep _ _ _).trans (by
          rw [if_neg hquotes, if_neg hopens, if_neg hcloses, if_pos hcomma]
          rfl))
        fun _ _ => by rw [splitCommas, if_neg hquotes, if_neg hopens, if_neg hcloses, if_pos hcomma]
    · exact .within depth none (by simp)
        (fun _ _ _ => (hstep _ _ _).trans (by
          rw [if_neg hquotes, if_neg hopens, if_neg hcloses, if_neg hcomma]
          rfl))
        fun _ _ => by rw [splitCommas, if_neg hquotes, if_neg hopens, if_neg hcloses, if_neg hcomma]

theorem loop_splitStep {done part rest : List Char} (hcs : cs = done ++ (part.reverse ++ rest))
    (parts : List (List Char)) :
    (loop (splitStep cs) (utf8Bytes cs) ⟨depth, quote.map Char.toUInt8, utf8Length done, parts⟩
      (utf8Length (done ++ part.reverse))).bind (Sum.elim (Split.finish cs) some) =
        some (parts ++ splitCommas depth quote part rest) := by
  induction rest generalizing depth quote done part parts with
  | nil =>
    have hend : ¬utf8Length (done ++ part.reverse) < (utf8Bytes cs).length := by simp [hcs]
    have hslice := slice?_append done part.reverse []
    rw [List.append_nil] at hcs hslice
    rw [loop, if_neg hend, Option.bind_some, Sum.elim_inl, Split.finish, splitCommas, hcs, hslice,
      Option.map_some]
  | cons d rest ih =>
    have hhere : cs = (done ++ part.reverse) ++ d :: rest := by rw [hcs, List.append_assoc]
    have hlength : done ++ (d :: part).reverse = (done ++ part.reverse) ++ [d] := by simp
    rw [hhere, loop_utf8Bytes (fun i b hb => splitStep_of_not_ascii hquote hb _ i _), ← hhere,
      ← hlength]
    by_cases hd : d.toNat < 128
    · rw [if_pos hd]
      have hadvances : Advances cs depth quote d := advances_of_ascii hquote hd
      cases hadvances with
      | within depth' quote' hquote' hstep hsplit =>
        rw [hstep, hsplit]
        exact ih hquote' (by simp [hcs]) parts
      | behind hstep hsplit =>
        have hslice := slice?_append done part.reverse (d :: rest)
        have hdone := @ih depth quote hquote (done ++ (d :: part).reverse) [] (by simp [hcs])
          (parts ++ [part.reverse])
        rw [List.reverse_nil, List.append_nil, List.append_assoc _ [part.reverse]] at hdone
        rw [hstep, hsplit, hcs, hslice, ← hcs, ← utf8Length_concat hd, ← hlength]
        exact hdone
    · rw [if_neg hd, splitCommas_of_not_ascii hquote hd]
      exact ih hquote (by simp [hcs]) parts

end Commas

theorem parts?_eq (cs : List Char) : parts? cs = some (splitCommas 0 none [] cs) :=
  @loop_splitStep cs 0 none (by simp) [] [] cs rfl []

def items? (cs : List Char) : Option (List (List Char)) := (parts? cs).map itemsOf

theorem items?_eq (cs : List Char) : items? cs = some (items cs) := by
  rw [items?, parts?_eq, Option.map_some, items_eq]

def quotedItem? (item : List Char) : Option (Option String) :=
  item.head?.elim (some none) fun q =>
    if (q = '\'' || q = '"') && 2 ≤ utf8Length item && item.getLast? = some q then
      (slice? item 1 (utf8Length item - 1)).map fun text => some (String.ofList text)
    else some none

theorem quotedItem?_eq (item : List Char) :
    quotedItem? item = some (SourceText.quotedItem? item) := by
  cases item with
  | nil => rfl
  | cons q rest =>
    rw [quotedItem?, List.head?_cons, Option.elim_some, SourceText.quotedItem?]
    by_cases hq : q = '\'' ∨ q = '"'
    · have hsize : q.utf8Size = 1 := by rcases hq with rfl | rfl <;> rfl
      rcases rest.eq_nil_or_concat' with rfl | ⟨inside, d, rfl⟩
      · simp [hsize]
      · by_cases hd : d = q
        · subst hd
          have hslice := slice?_append [d] inside [d]
          have hstart : utf8Length [d] = 1 := by simp [hsize]
          have hend : utf8Length (d :: (inside ++ [d])) = utf8Length ([d] ++ inside) + 1 := by
            simp [hsize, Nat.add_assoc]
          rw [hstart] at hslice
          rw [if_pos (by simp [hq, hsize, List.getLast?_cons]; omega), if_pos (by simp [hq]), hend,
            Nat.add_sub_cancel, List.dropLast_concat]
          exact congrArg _ hslice
        · simp [hd, List.getLast?_cons]
    · simp [hq]

def quotedItems? (cs : List Char) : Option (Option (List String)) :=
  (items? cs).bind fun its => (its.mapM quotedItem?).map fun values => values.mapM id

theorem quotedItems?_eq (cs : List Char) : quotedItems? cs = some (SourceText.quotedItems? cs) := by
  have hread : quotedItem? = fun item => pure (SourceText.quotedItem? item) := funext quotedItem?_eq
  rw [quotedItems?, items?_eq, Option.bind_some, SourceText.quotedItems?, hread, List.mapM_pure]
  show some (((items cs).map SourceText.quotedItem?).mapM id) = _
  rw [List.mapM_map]
  rfl

theorem run_mk_bind {β : Type} {x : Option (Option α)} {a : Option α} (h : x = some a)
    (f : α → OptionT Option β) :
    (OptionT.mk x >>= f).run = a.elim (some none) fun v => (f v).run := by
  rw [OptionT.run_bind, h]
  cases a <;> rfl

def checked {α : Type} (x : Option α) : OptionT Option α := OptionT.mk (x.map some)

theorem run_checked_bind {β : Type} {x : Option α} {v : α} (h : x = some v)
    (f : α → OptionT Option β) :
    (checked x >>= f).run = (f v).run := by
  rw [checked, run_mk_bind (congrArg (Option.map some) h)]
  rfl

def inside? (opening closing : Char) (cs : List Char) : Option (Option (List Char)) :=
  OptionT.run do
  let close ← OptionT.mk (balanced? (utf8Bytes cs) opening.toUInt8 closing.toUInt8 0)
  checked (slice? cs 1 close)

theorem inside?_eq {opening closing : Char} (ho : opening.toNat < 128) (hc : closing.toNat < 128)
    (cs : List Char) :
    inside? opening closing cs = some ((bracketed opening closing cs).map Prod.fst) := by
  have hclose : balanced? (utf8Bytes cs) opening.toUInt8 closing.toUInt8 0 =
      some ((bracketed opening closing cs).map fun x => utf8Length (opening :: x.1)) :=
    balanced?_eq ho hc [] cs
  rw [inside?, run_mk_bind hclose]
  cases hinner : bracketed opening closing cs with
  | none => rfl
  | some x =>
    have hslice := slice?_append [opening] x.1 (closing :: x.2)
    have hone : utf8Length [opening] = 1 := utf8Length_concat ho []
    rw [List.singleton_append, List.singleton_append, ← bracketed_eq hinner, hone] at hslice
    exact congrArg (Option.map some) hslice

def names? : SignalShape → Option (List String)
  | .flat names => some names
  | .pair _ _ => none

/-- Where two items are bracketed, each of them is read in the same way, and it has to be
shorter. -/
def shape? (cs : List Char) : Option (Option SignalShape) := OptionT.run do
  let text := trim cs
  if text.head? = some '[' then
    let inner ← OptionT.mk (inside? '[' ']' text)
    return .flat (← OptionT.mk (quotedItems? inner))
  else if text.head? = some '(' then
    let inner ← OptionT.mk (inside? '(' ')' text)
    let parts ← checked (items? inner)
    if parts.length = 2 && parts.all (·.head? = some '[') then
      let top ← checked parts[0]?
      let bottom ← checked parts[1]?
      if _h : top.length < cs.length ∧ bottom.length < cs.length then
        let top ← OptionT.mk (shape? top)
        let bottom ← OptionT.mk (shape? bottom)
        OptionT.mk (some ((names? top).bind fun top => (names? bottom).map (.pair top)))
      else checked none
    else return .flat (← OptionT.mk (quotedItems? inner))
  else failure
termination_by cs.length

theorem length_le_of_mem_splitCommas {depth : Int} {quote : Option Char} {part cs p : List Char}
    (h : p ∈ splitCommas depth quote part cs) : p.length ≤ part.length + cs.length := by
  fun_induction splitCommas depth quote part cs <;> grind

theorem length_le_of_mem_items {cs item : List Char} (h : item ∈ items cs) :
    item.length ≤ cs.length := by
  obtain ⟨part, hpart, rfl⟩ := List.mem_map.mp (List.mem_of_mem_filter h)
  obtain ⟨front, back, -, -, heq⟩ := trim_between part
  have hlength := congrArg List.length heq
  have hle := length_le_of_mem_splitCommas hpart
  simp only [List.length_append, List.length_nil] at hlength hle
  omega

theorem shape?_list {cs : List Char} (h : (trim cs).head? = some '[') :
    shape? cs = some ((bracketedItems? (trim cs)).map .flat) := by
  rw [shape?, if_pos h, run_mk_bind (inside?_eq (by decide) (by decide) _), bracketedItems?]
  cases bracketed '[' ']' (trim cs) with
  | none => rfl
  | some x =>
    rw [Option.map_some, Option.elim_some, run_mk_bind (quotedItems?_eq x.1)]
    cases hnames : SourceText.quotedItems? x.1 <;> simp [hnames]

theorem shape?_item {cs item : List Char} (hitem : item ∈ items cs)
    (hhead : item.head? = some '[') :
    shape? item = some ((bracketedItems? item).map .flat) := by
  have htrim : trim item = item := by
    obtain ⟨part, -, rfl⟩ := List.mem_map.mp (List.mem_of_mem_filter hitem)
    obtain ⟨tail, htail⟩ := List.head?_eq_some_iff.mp hhead
    obtain ⟨front, back, hfront, hback, hpart⟩ := trim_between part
    have hagain := htail
    rw [hpart, htail, trim_blank_append hfront, List.cons_append, trim_cons (by decide),
      trimEnd_append_blank hback] at hagain
    rw [htail, trim_cons (by decide), hagain]
  rw [shape?_list (by rwa [htrim]), htrim]

theorem shape?_eq (cs : List Char) : shape? cs = some (SourceText.shape? cs) := by
  rw [SourceText.shape?]
  by_cases hbracket : (trim cs).head? = some '['
  · rw [if_pos hbracket, shape?_list hbracket]
  rw [shape?, if_neg hbracket, if_neg hbracket]
  by_cases hparenthesis : (trim cs).head? = some '('
  · rw [if_pos hparenthesis, run_mk_bind (inside?_eq (by decide) (by decide) _)]
    cases hinner : bracketed '(' ')' (trim cs) with
    | none => rfl
    | some x =>
      obtain ⟨inner, rest⟩ := x
      have hflat : (OptionT.mk (quotedItems? inner) >>= fun names =>
          pure (SignalShape.flat names)).run =
          some ((SourceText.quotedItems? inner).bind fun names =>
            pure (SignalShape.flat names)) := by
        rw [run_mk_bind (quotedItems?_eq inner)]
        cases SourceText.quotedItems? inner <;> rfl
      have hlength : inner.length < cs.length := by
        obtain ⟨front, back, -, -, hcs⟩ := trim_between cs
        rw [hcs, bracketed_eq hinner]
        simp
        omega
      rw [Option.map_some, Option.elim_some, run_checked_bind (items?_eq inner)]
      simp only [Option.bind_eq_bind, Option.bind_some]
      by_cases hpair : ∃ top bottom, items inner = [top, bottom] ∧ top.head? = some '[' ∧
        bottom.head? = some '['
      · obtain ⟨top, bottom, hitems, hheads⟩ := hpair
        have hmem : top ∈ items inner ∧ bottom ∈ items inner := by simp [hitems]
        have htop := length_le_of_mem_items hmem.1
        have hbottom := length_le_of_mem_items hmem.2
        rw [if_pos (by simp [hitems, hheads]), run_checked_bind (congrArg (·[0]?) hitems),
          run_checked_bind (congrArg (·[1]?) hitems), dif_pos (by omega),
          run_mk_bind (shape?_item hmem.1 hheads.1), hitems]
        simp only [hheads, decide_true, Bool.and_self, if_true]
        cases bracketedItems? top with
        | none => rfl
        | some names =>
          rw [Option.map_some, Option.elim_some, run_mk_bind (shape?_item hmem.2 hheads.2)]
          cases bracketedItems? bottom <;> rfl
      · rw [if_neg ?_, hflat]
        · split
          · rename_i top bottom hitems
            rw [if_neg (by simpa using fun htop hbottom => hpair ⟨top, bottom, hitems, htop,
              hbottom⟩)]
          · rfl
        · rw [Bool.and_eq_true, decide_eq_true_eq, List.length_eq_two]
          rintro ⟨⟨top, bottom, hitems⟩, hheads⟩
          exact hpair ⟨top, bottom, hitems, by simpa [hitems] using hheads⟩
  · rw [if_neg hparenthesis, bracketed_eq_none hparenthesis]
    rfl

def lineStarts (offset : Nat) : List (List Char) → List Nat
  | [] => []
  | l :: lines => offset :: lineStarts (offset + utf8Length l + 1) lines

def lastLine? (starts : List Nat) (count offset j : Nat) : Option Nat :=
  if j + 1 < count then
    starts[j + 1]?.bind fun start => if start ≤
    offset then lastLine? starts count offset (j + 1) else some j
  else some j
termination_by count - j

def bodyStep (body : List (Nat × List Char)) (j : Nat) (l : List Char) :
    Option (List (Nat × List Char) ⊕ List (Nat × List Char) × Nat) :=
  some (if (trim l).isEmpty then .inl body
    else if isIndented l then .inl (body ++ [(j + 1, trim l)])
    else .inr (body, j))

/-- The head of a function that begins a line: the name, the parameters, and the offset where they
are closed. -/
def headAt? (text : List Char) (lines : List (List Char)) (starts : List Nat) (i : Nat) :
    Option (Option (List Char × List Char × Nat)) := OptionT.run do
  let l ← checked lines[i]?
  if "def ".toList.isPrefixOf l then
    let rest := l.drop 4
    let name ← checked (slice? rest 0 (utf8Length (rest.takeWhile Munch.isWordPart)))
    let start ← checked starts[i]?
    let paren := start + 4 + utf8Length name
    let close ← OptionT.mk (balanced? (utf8Bytes text) '('.toUInt8 ')'.toUInt8 paren)
    let params ← checked (slice? text (paren + 1) close)
    return (name, params, close)
  else failure

/-- The function whose head begins a line, and the line where its body ends. -/
def functionAt? (text : List Char) (lines : List (List Char)) (starts : List Nat) (i : Nat) :
    Option (Option (FunctionText × Nat)) := OptionT.run do
  let head ← OptionT.mk (headAt? text lines starts i)
  let close := head.2.2
  let last ← checked (lastLine? starts lines.length close i)
  let start ← checked starts[last]?
  let l ← checked lines[last]?
  let tail ← checked (slice? text (close + 1) (start + utf8Length l))
  let below ← checked ((loop bodyStep lines [] (last + 1)).map (Sum.elim (·, lines.length) id))
  return (⟨String.ofList head.1, head.2.1, inlineBody (last + 1) tail ++ below.1⟩, below.2)

/-- The functions from a line on; behind a function the search goes on further below. -/
def functionsFrom? (text : List Char) (lines : List (List Char)) (starts : List Nat) (i : Nat) :
    Option (List FunctionText) :=
  if _hi : i < lines.length then
    (functionAt? text lines starts i).bind fun found =>
      found.elim (functionsFrom? text lines starts (i + 1)) fun f =>
        if _h : i < f.2 then (functionsFrom? text lines starts f.2).map (f.1 :: ·) else none
  else some []
termination_by lines.length - i

def functions? (text : List Char) : Option (List FunctionText) :=
  functionsFrom? text (text.splitOn '\n') (lineStarts 0 (text.splitOn '\n')) 0

@[simp] theorem length_lineStarts (offset : Nat) (lines : List (List Char)) :
    (lineStarts offset lines).length = lines.length := by
  induction lines generalizing offset with
  | nil => rfl
  | cons l lines ih => rw [lineStarts, List.length_cons, ih, List.length_cons]

theorem textFrom_cons (l : List Char) {lines : List (List Char)} (hne : lines ≠ []) :
    textFrom (l :: lines) 0 = l ++ '\n' :: textFrom lines 0 := by
  obtain ⟨m, lines, rfl⟩ := List.exists_cons_of_ne_nil hne
  simp [textFrom, List.intercalate_cons_cons]

theorem isIndented_line (cs : List Char) : isIndented (line cs) = isIndented cs := by
  cases cs with
  | nil => rfl
  | cons c cs => by_cases hc : c = '\n' <;> simp [line, isIndented, hc]

theorem bodyLines_nil (n : Nat) : bodyLines n [] = ([], n, []) := by
  rw [bodyLines]
  rfl

theorem bodyLines_blank {cs : List Char} (h : (trim (line cs)).isEmpty = true) (n : Nat) :
    (bodyLines n cs).1 = (bodyLines (n + 1) (nextLine cs)).1 ∧
      functions (bodyLines n cs).2.1 (bodyLines n cs).2.2 =
        functions (bodyLines (n + 1) (nextLine cs)).2.1 (bodyLines (n + 1) (nextLine cs)).2.2 := by
  cases cs with
  | nil =>
    have hnext : nextLine [] = [] := rfl
    rw [hnext, bodyLines_nil, bodyLines_nil, functions_nil, functions_nil]
    exact ⟨rfl, rfl⟩
  | cons c cs =>
    rw [bodyLines, if_neg (by simp), if_pos h]
    exact ⟨rfl, rfl⟩

section Lines

variable {lines : List (List Char)} (hlines : ∀ l ∈ lines, '\n' ∉ l)
include hlines

theorem lineStarts_getElem? (hi : i < lines.length) (offset : Nat) :
    ∃ before, textFrom lines 0 = before ++ textFrom lines i ∧ before.count '\n' = i ∧
      (lineStarts offset lines)[i]? = some (offset + utf8Length before) := by
  induction lines generalizing i offset with
  | nil => cases hi
  | cons l lines ih =>
    rw [List.forall_mem_cons] at hlines
    cases i with
    | zero => exact ⟨[], rfl, rfl, rfl⟩
    | succ i =>
      rw [List.length_cons, Nat.add_lt_add_iff_right] at hi
      obtain ⟨before, htext, hcount, hstart⟩ := ih hlines.2 hi (offset + utf8Length l + 1)
      have hne : lines ≠ [] := List.ne_nil_of_length_pos (Nat.lt_of_le_of_lt (Nat.zero_le i) hi)
      refine ⟨l ++ '\n' :: before, ?_, ?_, ?_⟩
      · rw [textFrom_cons l hne, htext, List.append_assoc]
        rfl
      · rw [List.count_append, List.count_eq_zero.mpr hlines.1, List.count_cons_self, hcount,
          Nat.zero_add]
      · have hone : '\n'.utf8Size = 1 := rfl
        rw [lineStarts, List.getElem?_cons_succ, hstart, utf8Length_append, utf8Length_cons, hone]
        congr 1
        omega

theorem lineStarts_le_iff {before behind : List Char} (htext : textFrom lines 0 = before ++ behind)
    {offset start k : Nat} (hstart : (lineStarts offset lines)[k]? = some start) :
    start ≤ offset + utf8Length before ↔ k ≤ before.count '\n' := by
  induction lines generalizing before k offset with
  | nil => cases hstart
  | cons l lines ih =>
    rw [List.forall_mem_cons] at hlines
    cases k with
    | zero =>
      cases hstart
      simp
    | succ k =>
      rw [lineStarts, List.getElem?_cons_succ] at hstart
      have hk : k < lines.length := by simpa using (List.getElem?_eq_some_iff.mp hstart).1
      have hne : lines ≠ [] := List.ne_nil_of_length_pos (Nat.lt_of_le_of_lt (Nat.zero_le k) hk)
      rw [textFrom_cons l hne] at htext
      rcases append_eq_cases htext.symm with ⟨tail, rfl⟩ | ⟨piece, rfl, -⟩
      · have hrest : textFrom lines 0 = tail ++ behind := by simpa using htext
        have hone : '\n'.utf8Size = 1 := rfl
        have ih := ih hlines.2 hrest hstart
        rw [utf8Length_append, utf8Length_cons, List.count_append, List.count_eq_zero.mpr hlines.1,
          List.count_cons_self, hone]
        omega
      · obtain ⟨front, -, -, hfront⟩ :=
          lineStarts_getElem? hlines.2 hk (offset + utf8Length (before ++ piece) + 1)
        have hcount : before.count '\n' = 0 :=
          List.count_eq_zero.mpr fun h => hlines.1 (List.mem_append_left _ h)
        obtain rfl := Option.some.inj (hstart.symm.trans hfront)
        rw [utf8Length_append]
        omega

theorem lastLine?_eq {before behind : List Char} (htext : textFrom lines 0 = before ++ behind)
    (hlast : before.count '\n' < lines.length) (hi : i ≤ before.count '\n') :
    lastLine? (lineStarts 0 lines) lines.length (utf8Length before) i =
      some (before.count '\n') := by
  fun_induction lastLine? (lineStarts 0 lines) lines.length (utf8Length before) i with
  | case1 i hnext ih =>
    obtain ⟨front, -, -, hstart⟩ := lineStarts_getElem? hlines hnext 0
    rw [Nat.zero_add] at hstart
    have hle := lineStarts_le_iff hlines htext hstart
    rw [Nat.zero_add] at hle
    rw [hstart, Option.bind_some]
    by_cases hnext : i + 1 ≤ before.count '\n'
    · rw [if_pos (hle.mpr hnext), ih hnext]
    · rw [if_neg (mt hle.mp hnext), Nat.le_antisymm hi (by omega)]
  | case2 i hend => rw [Nat.le_antisymm hi (by omega)]

theorem loop_bodyStep (hi : i ≤ lines.length) (body : List (Nat × List Char)) :
    ∃ next, (loop bodyStep lines body i).map (Sum.elim (·, lines.length) id) =
        some (body ++ (bodyLines (i + 1) (textFrom lines i)).1, next) ∧ i ≤ next ∧
      functions (bodyLines (i + 1) (textFrom lines i)).2.1
        (bodyLines (i + 1) (textFrom lines i)).2.2 =
        functions (next + 1) (textFrom lines next) := by
  induction hleft : lines.length - i generalizing i body with
  | zero =>
    obtain rfl : i = lines.length := by omega
    have hend : textFrom lines lines.length = [] := by
      rw [textFrom, List.drop_length]
      rfl
    refine ⟨lines.length, ?_, hi, ?_⟩
    · rw [loop, if_neg (Nat.lt_irrefl _), hend, bodyLines_nil, List.append_nil]
      rfl
    · rw [hend, bodyLines_nil]
  | succ left ih =>
    have hlt : i < lines.length := by omega
    have hstands := stands_textFrom hlines hlt
    have hline := hstands.getElem?
    rw [List.nil_append] at hline
    have ih := fun body => @ih (i + 1) hlt body (by omega)
    rw [hstands.textFrom_succ] at ih
    rw [loop_of_getElem? hline, bodyStep, Option.bind_some]
    generalize hcs : textFrom lines i = cs at ih ⊢
    by_cases hblank : (trim (line cs)).isEmpty = true
    · obtain ⟨hbody, hfunctions⟩ := bodyLines_blank hblank (i + 1)
      obtain ⟨next, hloop, hnext, hrest⟩ := ih body
      rw [if_pos hblank, hbody, hfunctions]
      exact ⟨next, hloop, by omega, hrest⟩
    have hne : ¬cs.isEmpty = true := by
      intro hempty
      rw [List.isEmpty_iff.mp hempty] at hblank
      exact hblank rfl
    rw [if_neg hblank, isIndented_line, bodyLines, if_neg hne, if_neg hblank]
    by_cases hindented : isIndented cs = true
    · obtain ⟨next, hloop, hnext, hrest⟩ := ih (body ++ [(i + 1, trim (line cs))])
      rw [List.append_assoc] at hloop
      rw [if_pos hindented, if_pos hindented]
      exact ⟨next, hloop, by omega, hrest⟩
    · rw [if_neg hindented, if_neg hindented, List.append_nil]
      exact ⟨i, rfl, Nat.le_refl i, by rw [hcs]⟩

end Lines

theorem takeWhile_isWordPart_line (cs : List Char) :
    (line cs).takeWhile Munch.isWordPart = cs.takeWhile Munch.isWordPart := by
  rw [line, List.takeWhile_takeWhile]
  congr 1
  funext c
  by_cases hc : c = '\n'
  · subst hc
    decide
  · simp [hc]

theorem headAt?_eq {text before cs : List Char} {lines : List (List Char)} {starts : List Nat}
    (htext : text = before ++ cs) (hline : lines[i]? = some (line cs))
    (hstart : starts[i]? = some (utf8Length before)) :
    headAt? text lines starts i = some ((head? cs).map fun x =>
      (x.1, x.2.1, utf8Length (before ++ ("def ".toList ++ (x.1 ++ '(' :: x.2.1))))) := by
  rw [headAt?, run_checked_bind hline, head?_eq]
  by_cases hdef : "def ".toList.isPrefixOf cs = true
  · obtain ⟨word, rfl⟩ := List.isPrefixOf_iff_prefix.mp hdef
    have hword : line ("def ".toList ++ word) = "def ".toList ++ line word := rfl
    have hdrop (rest : List Char) : ("def ".toList ++ rest).drop 4 = rest := rfl
    have hname : slice? (line word) 0 (utf8Length (word.takeWhile Munch.isWordPart)) =
        some (word.takeWhile Munch.isWordPart) := by
      have hslice := slice?_append [] ((line word).takeWhile Munch.isWordPart)
        ((line word).dropWhile Munch.isWordPart)
      rw [List.takeWhile_append_dropWhile, takeWhile_isWordPart_line] at hslice
      exact hslice
    have hprefix : "def ".toList.isPrefixOf ("def ".toList ++ line word) = true :=
      List.isPrefixOf_iff_prefix.mpr (List.prefix_append _ _)
    rw [hword, if_pos hprefix, if_pos hdef]
    simp only [hdrop, takeWhile_isWordPart_line, drop_takeWhile]
    rw [run_checked_bind hname, run_checked_bind hstart]
    have hopening : text = (before ++ ("def ".toList ++ word.takeWhile Munch.isWordPart)) ++
        word.dropWhile Munch.isWordPart := by
      rw [htext, List.append_assoc, List.append_assoc, List.takeWhile_append_dropWhile]
    generalize word.takeWhile Munch.isWordPart = name, word.dropWhile Munch.isWordPart =
      behind at hopening ⊢
    have hparen : utf8Length before + 4 + utf8Length name =
        utf8Length (before ++ ("def ".toList ++ name)) := by
      have hfour : utf8Length "def ".toList = 4 := rfl
      rw [utf8Length_append, utf8Length_append, hfour, Nat.add_assoc]
    rw [hparen, run_mk_bind (hopening ▸ balanced?_eq (by decide) (by decide) _ behind)]
    cases hfound : bracketed '(' ')' behind with
    | none => rfl
    | some x =>
      have hslice := slice?_append (before ++ ("def ".toList ++ name) ++ ['(']) x.1 (')' :: x.2)
      rw [List.append_assoc _ ['('], List.singleton_append, ← bracketed_eq hfound, ← hopening,
        utf8Length_concat (by decide), List.append_assoc _ ['('], List.singleton_append] at hslice
      rw [Option.map_some, Option.elim_some, run_checked_bind hslice, Option.map_some,
        Option.map_some, List.append_assoc, List.append_assoc]
      rfl
  · have hline : ¬"def ".toList.isPrefixOf (line cs) = true := by
      intro h
      rw [List.isPrefixOf_iff_prefix] at h hdef
      exact hdef (h.trans (List.takeWhile_prefix _))
    rw [if_neg hline, if_neg hdef]
    rfl

theorem slice?_behind_closing {text front before l after : List Char}
    (hclose : text = front ++ ')' :: after) (htext : text = before ++ (l ++ after)) :
    slice? text (utf8Length front + 1) (utf8Length before + utf8Length (l ++ line after)) =
      some (line after) := by
  have hsame : before ++ l = front ++ [')'] := by
    refine (List.append_left_inj after).mp ?_
    rw [List.append_assoc, ← htext, hclose, List.append_assoc]
    rfl
  have hslice := slice?_append (front ++ [')']) (line after) (after.dropWhile (· != '\n'))
  rw [line, List.takeWhile_append_dropWhile, ← line, List.append_assoc, List.singleton_append,
    ← hclose, utf8Length_concat (by decide), ← hsame, List.append_assoc,
    utf8Length_append] at hslice
  exact hslice

section Functions

variable {lines : List (List Char)} (hlines : ∀ l ∈ lines, '\n' ∉ l)
include hlines

theorem functionAt?_eq (hi : i < lines.length) :
    functionAt? (textFrom lines 0) lines (lineStarts 0 lines) i = some none ∧
        functions (i + 1) (textFrom lines i) = functions (i + 1 + 1) (textFrom lines (i + 1)) ∨
      ∃ f next, functionAt? (textFrom lines 0) lines (lineStarts 0 lines) i =
        some (some (f, next)) ∧ i < next ∧
        functions (i + 1) (textFrom lines i) = f :: functions (next + 1) (textFrom lines next) := by
  have hstands := stands_textFrom hlines hi
  have hline := hstands.getElem?
  rw [List.nil_append] at hline
  obtain ⟨before, htext, hcount, hstart⟩ := lineStarts_getElem? hlines hi 0
  rw [Nat.zero_add] at hstart
  rw [functionAt?, run_mk_bind (headAt?_eq htext hline hstart)]
  cases hhead : head? (textFrom lines i) with
  | none =>
    rw [hstands.textFrom_succ]
    exact .inl ⟨rfl, functions_of_none hhead (i + 1)⟩
  | some x =>
    obtain ⟨name, params, after⟩ := x
    obtain ⟨hname, hparts⟩ := head?_cases hhead
    obtain ⟨l, hafter⟩ := hstands.behind_head hhead
    have hlast := hafter.getElem?
    have hlt := (List.getElem?_eq_some_iff.mp hlast).1
    obtain ⟨before', htext', -, hstart'⟩ := lineStarts_getElem? hlines hlt 0
    obtain ⟨next, hloop, hnext, hrest⟩ := loop_bodyStep hlines (Nat.succ_le_of_lt hlt) []
    rw [hafter.textFrom_eq] at htext'
    rw [hafter.textFrom_succ] at hloop hrest
    rw [Nat.zero_add] at hstart'
    -- the offset of the closing parenthesis, and the line where it stands
    obtain ⟨front, hfront⟩ : ∃ front,
      front = before ++ ("def ".toList ++ (name ++ '(' :: params)) := ⟨_, rfl⟩
    have hclose : textFrom lines 0 = front ++ ')' :: after := by
      rw [htext, hparts, hfront]
      simp
    have hfeeds : front.count '\n' = i + params.count '\n' := by
      rw [hfront, List.count_append, hcount, count_head hname]
    have hline' := lastLine?_eq hlines hclose (hfeeds ▸ hlt) (hfeeds ▸ Nat.le_add_right _ _)
    have htail := slice?_behind_closing hclose htext'
    rw [hfeeds] at hline'
    rw [Option.map_some, Option.elim_some]
    simp only [← hfront]
    rw [run_checked_bind hline', run_checked_bind hstart', run_checked_bind hlast,
      run_checked_bind htail, run_checked_bind hloop]
    refine .inr ⟨_, next, rfl, by omega, ?_⟩
    rw [functions_of_some hhead, Nat.add_right_comm, hrest]
    rfl

theorem functionsFrom?_eq (i : Nat) :
    functionsFrom? (textFrom lines 0) lines (lineStarts 0 lines) i =
      some (functions (i + 1) (textFrom lines i)) := by
  fun_induction functionsFrom? (textFrom lines 0) lines (lineStarts 0 lines) i with
  | case1 i hlt ihnext ih =>
    rcases functionAt?_eq hlines hlt with ⟨hfound, hrest⟩ | ⟨f, next, hfound, hnext, hrest⟩
    · rw [hfound, hrest]
      exact ihnext
    · rw [hfound, hrest, Option.bind_some, Option.elim_some, dif_pos hnext, ih (f, next) hnext,
        Option.map_some]
  | case2 i hend =>
    rw [textFrom, List.drop_eq_nil_of_le (by omega)]
    exact congrArg some (functions_nil _).symm

end Functions

theorem functions?_eq (text : List Char) : functions? text = some (functions 1 text) := by
  have hlines : ∀ l ∈ text.splitOn '\n', '\n' ∉ l := fun l hl => Path.not_mem_of_mem_splitOn hl
  have hfrom := functionsFrom?_eq hlines 0
  have htext : textFrom (text.splitOn '\n') 0 = text := List.intercalate_splitOn '\n'
  rwa [htext] at hfrom

def parameters? (cs : List Char) : Option FunctionSignature :=
  (items? cs).map fun its => its.foldl readItem ⟨[], 0, false, false⟩

def package? (source : String) : Option FunctionPackage :=
  (functions? (stripComments none source.toList)).bind fun defined =>
    (defined.mapM fun f => (parameters? f.params).map (f.name, ·)).map .ofList

def entryShape? (file : String) (defined : List FunctionText) (name : String) :
    Option (Except InterfaceError (Option SignalShape)) :=
  (defined.find? fun f => f.name = name).elim (some (.ok none)) fun f =>
    (returned? f).elim (some (.error
        (.scan file ((f.body.head?.map Prod.fst).getD 0) (.noLiteral name)))) fun found =>
      (shape? found.2).map fun shape =>
        shape.elim (.error (.scan file found.1 (.unsupported name (String.ofList found.2))))
          fun s => .ok (some s)

def component? (source file : String) : Option (Except InterfaceError ComponentSignature) :=
  (functions? (stripComments none source.toList)).bind fun defined => ExceptT.run do
    let inputs ← ExceptT.mk (entryShape? file defined "get_inputs")
    let outputs ← ExceptT.mk (entryShape? file defined "get_outputs")
    let configuration ← ExceptT.mk (entryShape? file defined "get_configuration")
    let keys ← configuration.elim (pure none) fun shape =>
      (names? shape).elim (throw (.scan file 0 .configurationPair)) (pure ∘ some)
    return ⟨inputs, outputs, keys, defined.any (·.name = "configure"),
      defined.any (·.name = "initialise")⟩

theorem entryShape?_eq (file : String) (defined : List FunctionText) (name : String) :
    entryShape? file defined name = some (ComponentSignature.entryShape file defined name) := by
  rw [entryShape?, ComponentSignature.entryShape]
  cases defined.find? fun f => f.name = name with
  | none => rfl
  | some f =>
    cases hfound : returned? f with
    | none => simp [hfound]
    | some found =>
      simp only [Option.elim_some, hfound, shape?_eq]
      cases SourceText.shape? found.2 <;> rfl

/-- Every index and every slice that the scanner takes lies in its text and between characters, and
all its loops and recursions end: the interfaces of the modules are read off every text. -/
theorem scan_in_range (source file : String) :
    component? source file = some (ComponentSignature.scan source file) ∧
      package? source = some (scanFunctions source) := by
  constructor
  · rw [component?, functions?_eq, Option.bind_some, ComponentSignature.scan, functionsOf]
    simp only [entryShape?_eq]
    generalize functions 1 (stripComments none source.toList) = defined
    cases ComponentSignature.entryShape file defined "get_inputs" with
    | error => rfl
    | ok inputs =>
      cases ComponentSignature.entryShape file defined "get_outputs" with
      | error => rfl
      | ok outputs =>
        cases ComponentSignature.entryShape file defined "get_configuration" with
        | error => rfl
        | ok configuration =>
          cases configuration with
          | none => rfl
          | some shape => cases shape <;> rfl
  · have hread : (fun f : FunctionText => (parameters? f.params).map (f.name, ·)) =
        fun f => pure (f.name, parameters f.params) := by
      funext f
      rw [parameters?, items?_eq]
      rfl
    rw [package?, functions?_eq, Option.bind_some, hread, List.mapM_pure]
    rfl

end ByOffset

end PipelineLang
