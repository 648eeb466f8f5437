import Mathlib.Order.Monotone.Basic
import PipelineLang.Text.Lines

/-! Bytes of texts, and the line numbers that are looked up for byte offsets. -/

namespace PipelineLang

def utf8Bytes (cs : List Char) : List UInt8 := cs.flatMap String.utf8EncodeChar

theorem toList_toUTF8 (s : String) : s.toUTF8.data.toList = utf8Bytes s.toList := by
  obtain ⟨cs, rfl⟩ : ∃ cs, s = String.ofList cs := ⟨s.toList, String.ofList_toList.symm⟩
  rw [String.toList_ofList, String.toUTF8_eq_toByteArray, String.toByteArray_ofList,
    List.utf8Encode, List.toList_data_toByteArray, utf8Bytes]

@[simp] theorem utf8Bytes_nil : utf8Bytes [] = [] := rfl

@[simp] theorem utf8Bytes_cons (c : Char) (cs : List Char) :
    utf8Bytes (c :: cs) = String.utf8EncodeChar c ++ utf8Bytes cs := rfl

@[simp] theorem utf8Bytes_append (cs ds : List Char) :
    utf8Bytes (cs ++ ds) = utf8Bytes cs ++ utf8Bytes ds :=
  List.flatMap_append

@[simp] theorem length_utf8Bytes (cs : List Char) : (utf8Bytes cs).length = utf8Length cs := by
  induction cs with
  | nil => rfl
  | cons c cs ih =>
    rw [utf8Bytes_cons, List.length_append, String.length_utf8EncodeChar, ih, utf8Length_cons]

theorem utf8EncodeChar_cases (c : Char) :
    c.toNat < 128 ∧ String.utf8EncodeChar c = [c.toUInt8] ∨
      128 ≤ c.toNat ∧ ∀ b ∈ String.utf8EncodeChar c, 128 ≤ b.toNat := by
  by_cases hc : c.toNat < 128
  · refine .inl ⟨hc, String.utf8EncodeChar_eq_singleton ?_⟩
    rw [Char.utf8Size_eq_one_iff, UInt32.le_iff_toNat_le]
    exact Nat.le_of_lt_succ hc
  · have hval : ¬c.val.toNat ≤ 127 := fun h => hc (Nat.lt_succ_of_le h)
    refine .inr ⟨Nat.le_of_not_lt hc, fun b hb => ?_⟩
    unfold String.utf8EncodeChar at hb
    simp only [hval, if_false] at hb
    split at hb
    · simp only [List.mem_cons, List.not_mem_nil, or_false] at hb
      rcases hb with rfl | rfl <;> rw [UInt8.toNat_ofNat'] <;> omega
    · split at hb
      · simp only [List.mem_cons, List.not_mem_nil, or_false] at hb
        rcases hb with rfl | rfl | rfl <;> rw [UInt8.toNat_ofNat'] <;> omega
      · simp only [List.mem_cons, List.not_mem_nil, or_false] at hb
        rcases hb with rfl | rfl | rfl | rfl <;> rw [UInt8.toNat_ofNat'] <;> omega

theorem toUInt8_inj {c d : Char} (hc : c.toNat < 128) (hd : d.toNat < 128) :
    c.toUInt8 = d.toUInt8 ↔ c = d := by
  refine ⟨fun h => Char.toNat_inj.mp ?_, congrArg Char.toUInt8⟩
  have hnat : c.toNat % 256 = d.toNat % 256 := congrArg UInt8.toNat h
  omega

theorem ne_toUInt8 {b : UInt8} {c : Char} (hb : 128 ≤ b.toNat) (hc : c.toNat < 128) :
    b ≠ c.toUInt8 := by
  rintro rfl
  have hbyte : c.toUInt8.toNat = c.toNat % 256 := rfl
  omega

theorem count_utf8EncodeChar {d : Char} (hd : d.toNat < 128) (c : Char) :
    (String.utf8EncodeChar c).count d.toUInt8 = if c = d then 1 else 0 := by
  rcases utf8EncodeChar_cases c with ⟨hc, hbytes⟩ | ⟨hc, hbytes⟩
  · simp [hbytes, List.count_singleton, toUInt8_inj hc hd]
  · have hne : c ≠ d := by
      rintro rfl
      omega
    rw [if_neg hne, List.count_eq_zero.mpr fun hmem => ne_toUInt8 (hbytes _ hmem) hd rfl]

theorem count_utf8Bytes {d : Char} (hd : d.toNat < 128) (cs : List Char) :
    (utf8Bytes cs).count d.toUInt8 = cs.count d := by
  induction cs with
  | nil => rfl
  | cons c cs ih =>
    rw [utf8Bytes_cons, List.count_append, count_utf8EncodeChar hd, ih, List.count_cons,
      Nat.add_comm]
    simp

theorem length_splitOn (d : Char) (cs : List Char) : (cs.splitOn d).length = cs.count d + 1 := by
  induction cs with
  | nil => rfl
  | cons c cs ih =>
    rw [List.splitOn_cons_eq_if_modifyHead, List.count_cons]
    split <;> simp [ih]

namespace LineIndex

/-- As many line feeds begin before an offset as lines begin up to it behind the first. -/
theorem countP_afterLineFeeds (offset n : Nat) (cs : List Char) :
    (afterLineFeeds n cs).countP (· ≤ offset) =
      ((utf8Bytes cs).take (offset - n)).count '\n'.toUInt8 := by
  induction cs generalizing n with
  | nil => simp [afterLineFeeds]
  | cons c cs ih =>
    have hrest : offset - n - c.utf8Size = offset - (n + c.utf8Size) := by omega
    rw [utf8Bytes_cons, List.take_append, List.count_append, String.length_utf8EncodeChar, hrest,
      ← ih]
    by_cases hc : c = '\n'
    · subst hc
      have hbytes : String.utf8EncodeChar '\n' = ['\n'.toUInt8] := rfl
      have hsize : '\n'.utf8Size = 1 := rfl
      rw [afterLineFeeds, if_pos rfl, List.countP_cons, hbytes, hsize, Nat.add_comm]
      congr 1
      by_cases hn : n + 1 ≤ offset
      · rw [List.take_of_length_le (by simp; omega)]
        simp [hn]
      · have hzero : offset - n = 0 := by omega
        simp [hn, hzero]
    · have hnone : ((String.utf8EncodeChar c).take (offset - n)).count '\n'.toUInt8 = 0 := by
        have hle := (List.take_sublist (offset - n) (String.utf8EncodeChar c)).count_le '\n'.toUInt8
        rw [count_utf8EncodeChar (by decide), if_neg hc] at hle
        exact Nat.le_zero.mp hle
      rw [afterLineFeeds, if_neg hc, hnone, Nat.zero_add]

theorem lt_of_mem_afterLineFeeds {n m : Nat} {cs : List Char} (h : m ∈ afterLineFeeds n cs) :
    n < m := by
  induction cs generalizing n with
  | nil => cases h
  | cons c cs ih =>
    have hpos := c.utf8Size_pos
    rw [afterLineFeeds] at h
    split at h
    · rcases List.mem_cons.mp h with rfl | h
      · omega
      · have := ih h
        omega
    · have := ih h
      omega

theorem sorted_afterLineFeeds (n : Nat) (cs : List Char) :
    (n :: afterLineFeeds n cs).Pairwise (· < ·) := by
  refine List.pairwise_cons.mpr ⟨fun m => lt_of_mem_afterLineFeeds, ?_⟩
  induction cs generalizing n with
  | nil => exact .nil
  | cons c cs ih =>
    rw [afterLineFeeds]
    split
    · exact List.pairwise_cons.mpr ⟨fun m => lt_of_mem_afterLineFeeds, ih _⟩
    · exact ih _

def Place.count : Place → Nat
  | found line => line + 1
  | missing next => next

theorem lineOf_eq_count (index : LineIndex) (offset : Nat) :
    index.lineOf offset = (place index.starts offset 0 index.starts.size
        (Nat.le_refl _)).count := by
  rw [lineOf]
  split <;> rename_i h <;> rw [h, Place.count]

theorem countP_eq_of_parted {starts : Array Nat} {offset k : Nat} (hk : k ≤ starts.size)
    (hsmall : ∀ i (hi : i < starts.size), i < k → starts[i] ≤ offset)
    (hlarge : ∀ i (hi : i < starts.size), k ≤ i → offset < starts[i]) :
    starts.toList.countP (· ≤ offset) = k := by
  have htake : (starts.toList.take k).countP (· ≤ offset) = k := by
    rw [List.countP_eq_length.mpr, List.length_take, Array.length_toList, Nat.min_eq_left hk]
    intro n hn
    obtain ⟨i, hi, rfl⟩ := List.mem_take_iff_getElem.mp hn
    simpa using hsmall i (by simp at hi; omega) (by omega)
  have hdrop : (starts.toList.drop k).countP (· ≤ offset) = 0 := by
    rw [List.countP_eq_zero]
    intro n hn
    obtain ⟨i, hi, rfl⟩ := List.mem_drop_iff_getElem.mp hn
    simpa using hlarge (k + i) (by simpa [Nat.add_comm] using hi) (by omega)
  rw [← List.take_append_drop k starts.toList, List.countP_append, htake, hdrop, Nat.add_zero]

/-- Below `low` the starts are small enough, and from `high` on they are too large; the search keeps
this. -/
theorem count_place {starts : Array Nat}
    (hsorted : ∀ i j (hj : j < starts.size) (hij : i < j), starts[i] < starts[j])
    {offset low high : Nat} (h : high ≤ starts.size) (hle : low ≤ high)
    (hlow : ∀ i (hi : i < starts.size), i < low → starts[i] ≤ offset)
    (hhigh : ∀ i (hi : i < starts.size), high ≤ i → offset < starts[i]) :
    (place starts offset low high h).count = starts.toList.countP (· ≤ offset) := by
  fun_induction place starts offset low high h with
  | case1 low high h hactive middle hmiddle hfound =>
    refine (countP_eq_of_parted hmiddle (fun i hi hle => ?_) (fun i hi hle => ?_)).symm
    · rcases Nat.lt_or_eq_of_le (Nat.le_of_lt_succ hle) with hle | rfl
      · have := hsorted i middle hmiddle hle
        omega
      · omega
    · have := hsorted middle i hi hle
      omega
  | case2 low high h hactive middle hmiddle hne hless ih =>
    refine ih (by omega) (fun i hi hle => ?_) hhigh
    rcases Nat.lt_or_eq_of_le (Nat.le_of_lt_succ hle) with hle | rfl
    · have := hsorted i middle hmiddle hle
      omega
    · omega
  | case3 low high h hactive middle hmiddle hne hless ih =>
    refine ih (by omega) hlow (fun i hi hle => ?_)
    rcases Nat.lt_or_eq_of_le hle with hle | rfl
    · have := hsorted middle i hi hle
      omega
    · omega
  | case4 low high h hdone =>
    obtain rfl : low = high := by omega
    exact (countP_eq_of_parted h hlow hhigh).symm

theorem lineOf_ofText (source : String) (offset : Nat) : (ofText source).lineOf offset =
    1 + ((utf8Bytes source.toList).take offset).count '\n'.toUInt8 := by
  have hsorted := List.pairwise_iff_getElem.mp (sorted_afterLineFeeds 0 source.toList)
  rw [lineOf_eq_count, ofText,
    count_place (fun i j hj hij => hsorted i j (Nat.lt_trans hij hj) hj hij) _
    (Nat.zero_le _) (fun i _ hlow => absurd hlow (Nat.not_lt_zero i))
    (fun i hi hhigh => absurd hi (Nat.not_lt.mpr hhigh)), List.countP_cons_of_pos (by simp),
    countP_afterLineFeeds, Nat.sub_zero, Nat.add_comm]

/-- The line of an offset is one more than the number of line feeds before it. So lines do not
decrease along the offsets, and lie between the first line and the last. -/
theorem lineOf_exact (source : String) :
    (∀ offset, (ofText source).lineOf offset =
      1 + (source.toUTF8.data.toList.take offset).count '\n'.toUInt8) ∧
      Monotone (ofText source).lineOf ∧
      ∀ offset, 1 ≤ (ofText source).lineOf offset ∧
        (ofText source).lineOf offset ≤ (source.toList.splitOn '\n').length := by
  have hline := lineOf_ofText source
  refine ⟨fun offset => by rw [hline, toList_toUTF8], fun m n hmn => ?_, fun offset => ?_⟩
  · rw [hline, hline]
    have hsub := List.take_sublist_take_left (l := utf8Bytes source.toList) hmn
    exact Nat.add_le_add_left (hsub.count_le _) 1
  · have hle := (List.take_sublist offset (utf8Bytes source.toList)).count_le '\n'.toUInt8
    rw [count_utf8Bytes (by decide)] at hle
    rw [hline, length_splitOn]
    omega

end LineIndex

end PipelineLang
