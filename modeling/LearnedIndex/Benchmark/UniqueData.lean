import LearnedIndex.Benchmark.Workload

/-! # What `unique_data` keeps

`load_keys` leaves distinct keys in `keys`, and on these `unique_data` removes nothing that it
should remove: the two parts have no key in common.  It still may lose a key.  The inner loop reads
`key1[size1]`, which is `key2[0]`, so when every key of the first part is smaller than the second
part, the smallest key of the second part is taken for a duplicate. -/

namespace LearnedIndex.Benchmark

open LearnedIndex.Ranges

variable {K : Type} [LinearOrder K]

/-! ### The table of distinct keys -/

/-- Without `data_shift` the table holds distinct keys. -/
theorem prepareKeys_spec {c : Params} (hc : c.dataShift = false) (d : Draws K) (data : List K) :
    (prepareKeys c d data).2 ≤ (prepareKeys c d data).1.length ∧
      ((prepareKeys c d data).1.take (prepareKeys c d data).2).Nodup := by
  have hsorted : sortRange 0 data.length data = data.insertionSort (· ≤ ·) := editRange_all _ data
  have hlen : (data.insertionSort (· ≤ ·)).length = data.length := length_sorted data
  obtain ⟨kept, hkept⟩ : ∃ kept, kept = (data.insertionSort (· ≤ ·)).destutter (· ≠ ·) := ⟨_, rfl⟩
  have hcompact : uniqueRange 0 data.length (data.insertionSort (· ≤ ·)) =
      (compact (data.insertionSort (· ≤ ·)), kept.length) := by
    rw [← hlen, uniqueRange, editRange_all, slice_all, hkept]
  have hle : kept.length ≤ (compact (data.insertionSort (· ≤ ·))).length := by
    rw [length_compact, hkept]
    exact (List.destutter_sublist _ _).length_le
  have hseg : slice (compact (data.insertionSort (· ≤ ·))) 0 kept.length = kept := by
    rw [hkept]
    exact slice_compact _
  have hprep : prepareKeys c d data = (shuffleRange d.shuffle 0 kept.length
      (compact (data.insertionSort (· ≤ ·))), kept.length) := by
    unfold prepareKeys
    rw [hc, hsorted, hcompact]
    rfl
  rw [hprep]
  refine ⟨?_, ?_⟩
  · show kept.length ≤ (editRange d.shuffle.val 0 kept.length _).length
    rw [length_editRange (length_shuffle d.shuffle) (Nat.zero_le _) hle]
    exact hle
  · show ((editRange d.shuffle.val 0 kept.length _).take kept.length).Nodup
    have := slice_editRange (l := compact (data.insertionSort (· ≤ ·)))
      (length_shuffle d.shuffle) (Nat.zero_le _) hle
    unfold slice at this hseg
    rw [List.drop_zero] at this hseg
    rw [this, List.drop_zero, hseg, (d.shuffle.property kept).nodup_iff, hkept]
    exact (pairwise_destutter (List.pairwise_insertionSort _ _)).imp (fun h => ne_of_lt h)

/-! ### The loops -/

/-- The inner loop stops at the first key of the first part that is not smaller, or behind it. -/
theorem skipSmaller_spec (keys : List K) (size1 : ℕ) (key : K) (hlen : size1 < keys.length) :
    ∀ (fuel ptr1 : ℕ), ptr1 ≤ size1 → size1 < ptr1 + fuel →
      ∃ p, skipSmaller keys size1 key fuel ptr1 = some p ∧ ptr1 ≤ p ∧ p ≤ size1 ∧
        (∀ i, ptr1 ≤ i → i < p → ∃ k, keys[i]? = some k ∧ k < key) ∧
        (p < size1 → ∃ k, keys[p]? = some k ∧ ¬ k < key)
  | 0, ptr1, h1, h2 => absurd h2 (by omega)
  | fuel + 1, ptr1, h1, h2 => by
      obtain ⟨k, hk⟩ : ∃ k, keys[ptr1]? = some k := ⟨_, List.getElem?_eq_getElem (by omega)⟩
      unfold skipSmaller
      rw [hk, Option.bind_eq_bind, Option.bind_some]
      split
      · rename_i hcond
        obtain ⟨p, hp, hle, hle', hbelow, hstop⟩ :=
          skipSmaller_spec keys size1 key hlen fuel (ptr1 + 1) (by omega) (by omega)
        refine ⟨p, hp, by omega, hle', fun i hi hip => ?_, hstop⟩
        rcases Nat.eq_or_lt_of_le hi with rfl | hi
        · exact ⟨k, hk, hcond.1⟩
        · exact hbelow i hi hip
      · rename_i hcond
        refine ⟨ptr1, rfl, le_rfl, h1, fun i hi hip => absurd hip (by omega), fun hlt => ?_⟩
        exact ⟨k, hk, fun hk' => hcond ⟨hk', hlt⟩⟩

omit [LinearOrder K] in
/-- Writing back a key where it stands changes nothing. -/
theorem store_self {keys : List K} {pos : ℕ} {key : K} (h : keys[pos]? = some key) :
    store keys pos key = some keys := by
  obtain ⟨hlt, hkey⟩ := List.getElem?_eq_some_iff.mp h
  unfold store
  rw [if_pos hlt, ← hkey, List.set_getElem_self]

/-- The parts of the array are disjoint and each has distinct keys. -/
def Distinct (keys : List K) (n : ℕ) : Prop := (keys.take n).Nodup

omit [LinearOrder K] in
theorem Distinct.ne {keys : List K} {n i j : ℕ} (h : Distinct keys n) (hi : i < n) (hj : j < n)
    (hne : i ≠ j) {a b : K} (ha : keys[i]? = some a) (hb : keys[j]? = some b) : a ≠ b := by
  rintro rfl
  have hi' : (keys.take n)[i]? = some a := by rw [List.getElem?_take_of_lt hi, ha]
  have hj' : (keys.take n)[j]? = some a := by rw [List.getElem?_take_of_lt hj, hb]
  obtain ⟨hli, hia⟩ := List.getElem?_eq_some_iff.mp hi'
  obtain ⟨hlj, hja⟩ := List.getElem?_eq_some_iff.mp hj'
  exact hne ((List.Nodup.getElem_inj_iff h).mp (hia.trans hja.symm))

section merge
variable {keys : List K} {size1 size2 : ℕ}

/-- Once the second pointer has moved with a key kept, every key is written back where it stands. -/
theorem mergeLoop_kept (hd : Distinct keys (size1 + size2)) (hlen : size1 + size2 ≤ keys.length) :
    ∀ (fuel ptr1 ptr2 : ℕ), ptr1 ≤ size1 → 0 < ptr2 → ptr2 ≤ size2 → size2 ≤ ptr2 + fuel →
      ∃ p, p ≤ size2 ∧ mergeLoop size1 size1 size2 fuel keys ptr1 ptr2 ptr2 = some (keys, p, p)
  | 0, ptr1, ptr2, h1, h0, h2, hf => by
      refine ⟨ptr2, h2, ?_⟩
      unfold mergeLoop
      rw [if_neg (by omega)]
  | fuel + 1, ptr1, ptr2, h1, h0, h2, hf => by
      unfold mergeLoop
      split
      · rename_i hcond
        obtain ⟨key, hkey⟩ : ∃ k, keys[size1 + ptr2]? = some k :=
          ⟨_, List.getElem?_eq_getElem (by omega)⟩
        obtain ⟨p, hp, _, hle, _, _⟩ :=
          skipSmaller_spec keys size1 key (by omega) (size1 + 1) ptr1 (by omega) (by omega)
        obtain ⟨k, hk⟩ : ∃ k, keys[p]? = some k := ⟨_, List.getElem?_eq_getElem (by omega)⟩
        have hne : k ≠ key := hd.ne (by omega) (by omega) (by omega) hk hkey
        simp only [hkey, hp, hk, hne, store_self hkey, Option.bind_eq_bind,
          Option.bind_some, if_false]
        exact mergeLoop_kept hd hlen fuel p (ptr2 + 1) hle (by omega) (by omega) (by omega)
      · exact ⟨ptr2, h2, rfl⟩

/-- Every key of the first part is smaller than the first key of the second. -/
def AllSmaller (keys : List K) (size1 : ℕ) : Prop :=
  ∀ i, i < size1 → ∀ a b, keys[i]? = some a → keys[size1]? = some b → a < b

/-- The first loop keeps every key it sees, except that it skips the first key of the second part
when the whole first part is smaller. -/
theorem mergeLoop_spec (hd : Distinct keys (size1 + size2)) (hlen : size1 + size2 ≤ keys.length) :
    ∃ p r, mergeLoop size1 size1 size2 size2 keys 0 0 0 = some (keys, p, r) ∧ p ≤ size2 ∧
      ((p = r ∧ ¬ (0 < size1 ∧ 0 < size2 ∧ AllSmaller keys size1)) ∨
        (p = 1 ∧ r = 0 ∧ 0 < size1 ∧ 0 < size2 ∧ AllSmaller keys size1)) := by
  cases hsize : size2 with
  | zero =>
      refine ⟨0, 0, ?_, le_rfl, Or.inl ⟨rfl, fun h => absurd h.2.1 (by omega)⟩⟩
      unfold mergeLoop
      rw [if_neg (by omega)]
  | succ n =>
      unfold mergeLoop
      split
      · rename_i hcond
        obtain ⟨key, hkey⟩ : ∃ k, keys[size1 + 0]? = some k :=
          ⟨_, List.getElem?_eq_getElem (by omega)⟩
        obtain ⟨p, hp, _, hle, hbelow, hstop⟩ :=
          skipSmaller_spec keys size1 key (by omega) (size1 + 1) 0 (by omega) (by omega)
        rcases Nat.eq_or_lt_of_le hle with rfl | hlt
        · -- the key behind the first part is the one it is compared with
          rw [Nat.add_zero] at hkey
          simp only [Nat.add_zero, hkey, hp, Option.bind_eq_bind, Option.bind_some, if_true]
          refine ⟨1, 0, ?_, by omega, Or.inr ⟨rfl, rfl, hcond.1, hcond.2, fun i hi a b ha hb => ?_⟩⟩
          · cases n with
            | zero =>
                unfold mergeLoop
                rw [if_neg (by omega)]
            | succ n =>
                unfold mergeLoop
                rw [if_neg (by omega)]
          · obtain ⟨k, hk, hlt⟩ := hbelow i (Nat.zero_le _) hi
            rw [ha] at hk
            rw [hkey] at hb
            cases hk
            cases hb
            exact hlt
        · obtain ⟨k, hk, hnot⟩ := hstop hlt
          have hne : k ≠ key := hd.ne (by omega) (by omega) (by omega) hk hkey
          simp only [hkey, hp, hk, hne, store_self hkey, Option.bind_eq_bind, Option.bind_some,
            if_false]
          subst hsize
          obtain ⟨q, hq, hloop⟩ := mergeLoop_kept hd hlen n p 1 hle (by omega) (by omega) (by omega)
          refine ⟨q, q, hloop, hq, Or.inl ⟨rfl, fun hall => hnot (hall.2.2 p hlt k key hk ?_)⟩⟩
          rwa [Nat.add_zero] at hkey
      · rename_i hcond
        exact ⟨0, 0, rfl, by omega, Or.inl ⟨rfl, fun hall => hcond ⟨hall.1, hall.2.1⟩⟩⟩

end merge

omit [LinearOrder K] in
/-- The second loop moves the keys that are left down to the keys that were kept. -/
theorem copyRest_spec (start size2 : ℕ) : ∀ (fuel : ℕ) (keys : List K) (ptr2 result : ℕ),
    result ≤ ptr2 → ptr2 ≤ size2 → size2 ≤ ptr2 + fuel → start + size2 ≤ keys.length →
    ∃ keys', copyRest start size2 fuel keys ptr2 result = some (keys', result + (size2 - ptr2)) ∧
      keys'.length = keys.length ∧
      slice keys' start (start + (result + (size2 - ptr2))) =
        slice keys start (start + result) ++ slice keys (start + ptr2) (start + size2)
  | 0, keys, ptr2, result, hr, hp, hf, hlen => by
      obtain rfl : ptr2 = size2 := by omega
      refine ⟨keys, ?_, rfl, ?_⟩
      · unfold copyRest
        rw [if_neg (by omega), Nat.sub_self, Nat.add_zero]
      · rw [slice_self, List.append_nil, Nat.sub_self, Nat.add_zero]
  | fuel + 1, keys, ptr2, result, hr, hp, hf, hlen => by
      unfold copyRest
      split
      · rename_i hlt
        obtain ⟨key, hkey⟩ : ∃ k, keys[start + ptr2]? = some k :=
          ⟨_, List.getElem?_eq_getElem (by omega)⟩
        have hstore : store keys (start + result) key = some (keys.set (start + result) key) :=
          if_pos (by omega)
        have hlen' : start + size2 ≤ (keys.set (start + result) key).length := by
          rw [List.length_set]
          exact hlen
        obtain ⟨keys', hcopy, hlength, hslice⟩ :=
          copyRest_spec start size2 fuel _ (ptr2 + 1) (result + 1) (by omega) (by omega)
            (by omega) hlen'
        have hcount : result + 1 + (size2 - (ptr2 + 1)) = result + (size2 - ptr2) := by omega
        rw [hcount] at hcopy hslice
        have hset : (keys.set (start + result) key)[start + result]? = some key :=
          List.getElem?_set_self (by omega)
        refine ⟨keys', ?_, by rw [hlength, List.length_set], ?_⟩
        · simp only [hkey, hstore, Option.bind_eq_bind, Option.bind_some]
          exact hcopy
        · rw [hslice, ← Nat.add_assoc, slice_concat hset (by omega), slice_set_of_le le_rfl,
            ← Nat.add_assoc, slice_set_of_lt (by omega), List.append_assoc, List.singleton_append,
            ← slice_cons hkey (by omega)]
      · obtain rfl : ptr2 = size2 := by omega
        refine ⟨keys, by rw [Nat.sub_self, Nat.add_zero], rfl, ?_⟩
        rw [slice_self, List.append_nil, Nat.sub_self, Nat.add_zero]

/-! ### The function -/

/-- Every key of the first part is smaller than every key of the second, and both have keys. -/
def LosesKey (keys : List K) (size1 size2 : ℕ) : Prop :=
  0 < size1 ∧ ∀ a ∈ keys.take size1, ∀ b ∈ slice keys size1 (size1 + size2), a < b

instance (keys : List K) (size1 size2 : ℕ) : Decidable (LosesKey keys size1 size2) :=
  inferInstanceAs (Decidable (_ ∧ _))

/-- The number of keys that `unique_data` keeps of the second part. -/
def restKeyNum (keys : List K) (size1 size2 : ℕ) : ℕ :=
  if LosesKey keys size1 size2 then size2 - 1 else size2

section unique
variable {keys : List K} {size1 size2 : ℕ}

/-- The array when the two parts have been sorted. -/
def sortParts (keys : List K) (size1 size2 : ℕ) : List K :=
  sortRange size1 (size1 + size2) (sortRange 0 size1 keys)

theorem length_sortParts (hlen : size1 + size2 ≤ keys.length) :
    (sortParts keys size1 size2).length = keys.length := by
  have h1 : (sortRange 0 size1 keys).length = keys.length :=
    length_editRange length_sorted (Nat.zero_le _) (by omega)
  have h2 : (sortParts keys size1 size2).length = (sortRange 0 size1 keys).length :=
    length_editRange length_sorted (by omega) (by omega)
  rw [h2, h1]

theorem take_sortParts (hlen : size1 + size2 ≤ keys.length) :
    (sortParts keys size1 size2).take size1 = (keys.take size1).insertionSort (· ≤ ·) := by
  have h1 : (sortRange 0 size1 keys).length = keys.length :=
    length_editRange length_sorted (Nat.zero_le _) (by omega)
  unfold sortParts sortRange at *
  rw [take_editRange (by omega) (by omega), take_right_editRange length_sorted (Nat.zero_le _)
    (by omega), List.take_zero, List.nil_append]
  rfl

theorem slice_sortParts (hlen : size1 + size2 ≤ keys.length) :
    slice (sortParts keys size1 size2) size1 (size1 + size2) =
      (slice keys size1 (size1 + size2)).insertionSort (· ≤ ·) := by
  have h1 : (sortRange 0 size1 keys).length = keys.length :=
    length_editRange length_sorted (Nat.zero_le _) (by omega)
  unfold sortParts sortRange at *
  rw [slice_editRange length_sorted (by omega) (by omega),
    slice_editRange_of_ge length_sorted le_rfl (Nat.zero_le _) (by omega)]

omit [LinearOrder K] in
theorem take_eq_append (l : List K) (a b : ℕ) : l.take (a + b) = l.take a ++ slice l a (a + b) :=
  (take_append_slice (Nat.le_add_right a b)).symm

theorem Distinct.sortParts (hd : Distinct keys (size1 + size2))
    (hlen : size1 + size2 ≤ keys.length) :
    Distinct (sortParts keys size1 size2) (size1 + size2) := by
  unfold Distinct at *
  rw [take_eq_append, take_sortParts hlen, slice_sortParts hlen]
  rw [take_eq_append] at hd
  refine (List.Perm.nodup_iff ?_).mpr hd
  exact (List.perm_insertionSort _ _).append (List.perm_insertionSort _ _)

/-- After sorting, the first loop compares with the smallest key of the second part. -/
theorem allSmaller_iff (hlen : size1 + size2 ≤ keys.length) (h2 : 0 < size2) :
    AllSmaller (sortParts keys size1 size2) size1 ↔
      ∀ a ∈ keys.take size1, ∀ b ∈ slice keys size1 (size1 + size2), a < b := by
  have hfront : ∀ i a, i < size1 → ((sortParts keys size1 size2)[i]? = some a ↔
      ((keys.take size1).insertionSort (· ≤ ·))[i]? = some a) := by
    intro i a hi
    rw [← take_sortParts hlen, List.getElem?_take_of_lt hi]
  have hsecond : (sortParts keys size1 size2)[size1]? =
      ((slice keys size1 (size1 + size2)).insertionSort (· ≤ ·))[0]? := by
    rw [← slice_sortParts hlen, getElem?_slice (by omega), Nat.add_zero]
  have hlenfront : ((keys.take size1).insertionSort (· ≤ ·)).length = size1 := by
    rw [length_sorted, List.length_take]
    omega
  have hsorted := List.pairwise_insertionSort (· ≤ ·) (slice keys size1 (size1 + size2))
  unfold AllSmaller
  rw [hsecond]
  constructor
  · intro h a ha b hb
    obtain ⟨i, hi, rfl⟩ := List.getElem_of_mem ((List.mem_insertionSort (· ≤ ·)).mpr ha)
    have hb' := (List.mem_insertionSort (· ≤ ·)).mpr hb
    cases hB : (slice keys size1 (size1 + size2)).insertionSort (· ≤ ·) with
    | nil =>
        rw [hB] at hb'
        cases hb'
    | cons b₀ rest =>
        rw [hB] at hb' h hsorted
        have hlt := h i (by omega) _ b₀
          ((hfront i _ (by omega)).mpr (List.getElem?_eq_getElem hi)) rfl
        rcases List.mem_cons.mp hb' with rfl | hb'
        · exact hlt
        · exact hlt.trans_le ((List.pairwise_cons.mp hsorted).1 b hb')
  · intro h i hi a b ha hb
    refine h a ?_ b ?_
    · exact (List.mem_insertionSort (· ≤ ·)).mp (List.mem_of_getElem? ((hfront i a hi).mp ha))
    · exact (List.mem_insertionSort (· ≤ ·)).mp (List.mem_of_getElem? hb)

/-- On distinct keys `unique_data` keeps the second part, or all of it but its smallest key. -/
theorem uniqueData_spec (s : Shuffle K) (hd : Distinct keys (size1 + size2))
    (hlen : size1 + size2 ≤ keys.length) :
    ∃ keys', uniqueData s keys size1 size2 = some (keys', restKeyNum keys size1 size2) ∧
      keys'.length = keys.length ∧
      (slice keys' size1 (size1 + restKeyNum keys size1 size2)).Nodup ∧
      ∀ k ∈ slice keys' size1 (size1 + restKeyNum keys size1 size2),
        k ∈ slice keys size1 (size1 + size2) := by
  have hd' := hd.sortParts hlen
  have hlen' := length_sortParts hlen
  have hfirst : (slice (sortRange 0 size1 keys) 0 size1).Nodup := by
    have hs : slice (sortRange 0 size1 keys) 0 size1 =
        (slice keys 0 size1).insertionSort (· ≤ ·) :=
      slice_editRange length_sorted (Nat.zero_le _) (by omega)
    rw [hs, (List.perm_insertionSort _ _).nodup_iff]
    unfold Distinct at hd
    rw [take_eq_append] at hd
    exact (List.nodup_append.mp hd).1
  have hsecond : (slice (sortParts keys size1 size2) size1 (size1 + size2)).Nodup := by
    unfold Distinct at hd'
    rw [take_eq_append] at hd'
    exact (List.nodup_append.mp hd').2.1
  have hlen1 : (sortRange 0 size1 keys).length = keys.length :=
    length_editRange length_sorted (Nat.zero_le _) (by omega)
  obtain ⟨p, r, hmerge, hp, hcases⟩ := mergeLoop_spec hd' (by omega)
  obtain ⟨keys₁, hcopy, hlength, hslice⟩ :=
    copyRest_spec size1 size2 size2 (sortParts keys size1 size2) p r (by omega) hp (by omega)
      (by omega)
  have hcount : r + (size2 - p) = restKeyNum keys size1 size2 := by
    unfold restKeyNum
    rcases hcases with ⟨rfl, hnot⟩ | ⟨rfl, rfl, h1, h2, hall⟩
    · rcases Nat.eq_zero_or_pos size2 with rfl | h2
      · simp only [Nat.zero_sub, ite_self]
        omega
      · rw [if_neg (fun h => hnot ⟨h.1, h2, (allSmaller_iff hlen h2).mpr h.2⟩)]
        omega
    · rw [if_pos ⟨h1, (allSmaller_iff hlen h2).mp hall⟩, Nat.zero_add]
  rw [hcount] at hcopy hslice
  have hsub : (slice keys₁ size1 (size1 + restKeyNum keys size1 size2)).Sublist
      (slice (sortParts keys size1 size2) size1 (size1 + size2)) := by
    have hsplit := slice_append (l := sortParts keys size1 size2) (Nat.le_add_right size1 p)
      (show size1 + p ≤ size1 + size2 by omega) (by omega)
    rw [hslice, ← hsplit]
    refine List.Sublist.append ?_ (List.Sublist.refl _)
    rcases hcases with ⟨rfl, _⟩ | ⟨rfl, rfl, _⟩
    · exact List.Sublist.refl _
    · rw [Nat.add_zero, slice_self]
      exact List.nil_sublist _
  have hrest : restKeyNum keys size1 size2 ≤ size2 := by
    rw [← hcount]
    rcases hcases with ⟨rfl, _⟩ | ⟨rfl, rfl, _⟩ <;> omega
  have hperm : (slice (shuffleRange s size1 (size1 + restKeyNum keys size1 size2) keys₁) size1
      (size1 + restKeyNum keys size1 size2)).Perm
      (slice keys₁ size1 (size1 + restKeyNum keys size1 size2)) := by
    unfold shuffleRange
    rw [slice_editRange (length_shuffle s) (by omega) (by omega)]
    exact s.property _
  refine ⟨shuffleRange s size1 (size1 + restKeyNum keys size1 size2) keys₁, ?_, ?_, ?_,
    fun k hk => ?_⟩
  · have huniq1 := uniqueRange_of_nodup (Nat.zero_le _) (by omega) hfirst
    have huniq2 : uniqueRange size1 (size1 + size2)
        (sortRange size1 (size1 + size2) (sortRange 0 size1 keys)) =
        (sortParts keys size1 size2, size1 + size2 - size1) :=
      uniqueRange_of_nodup (Nat.le_add_right _ _) (hlen.trans hlen'.ge) hsecond
    rw [Nat.add_sub_cancel_left] at huniq2
    simp only [uniqueData, huniq1, huniq2, Nat.sub_zero, hmerge, hcopy, Option.bind_eq_bind,
      Option.bind_some]
  · unfold shuffleRange
    rw [length_editRange (length_shuffle s) (by omega) (by omega), hlength, hlen']
  · exact hperm.nodup_iff.mpr (hsecond.sublist hsub)
  · have hk' := hsub.subset (hperm.subset hk)
    rw [slice_sortParts hlen] at hk'
    exact (List.mem_insertionSort (· ≤ ·)).mp hk'

end unique

end LearnedIndex.Benchmark
