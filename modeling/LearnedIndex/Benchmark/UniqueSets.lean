import LearnedIndex.Benchmark.UniqueData

/-! # `unique_data` as a set difference

For any two arrays, with duplicates and with common keys, `unique_data` is meant to leave the
distinct keys of the first one and the keys of the second one that are not in the first.  `Merging`
is the invariant of its first loop, with the two arrays without duplicates as `A` and `B`.

The inner loop tests its bound after the access.  It reads behind the first array as soon as a key
of the second one is larger than the whole first one, and only then (`Merging.reads_iff`).  What it
finds there decides whether that key is kept (`Merging.loop`). -/

namespace LearnedIndex.Benchmark

open LearnedIndex.Ranges

variable {K : Type} [LinearOrder K]

/-! ### The function with all that it returns -/

/-- `skipSmaller` with the positions of `key1` that it reads. -/
def skipReads (keys : List K) (size1 : ℕ) (key : K) : ℕ → ℕ → Option (ℕ × List ℕ)
  | 0, _ => none
  | fuel + 1, ptr1 => do
      let k ← keys[ptr1]?
      if k < key ∧ ptr1 < size1 then do
        let skipped ← skipReads keys size1 key fuel (ptr1 + 1)
        some (skipped.1, ptr1 :: skipped.2)
      else some (ptr1, [ptr1])

/-- `mergeLoop` with the positions of `key1` that it reads. -/
def mergeReads (size1 start size2 : ℕ) :
    ℕ → List K → ℕ → ℕ → ℕ → Option ((List K × ℕ × ℕ) × List ℕ)
  | 0, keys, ptr1, ptr2, result =>
      if ptr1 < size1 ∧ ptr2 < size2 then none else some ((keys, ptr2, result), [])
  | fuel + 1, keys, ptr1, ptr2, result =>
      if ptr1 < size1 ∧ ptr2 < size2 then do
        let key ← keys[start + ptr2]?
        let skipped ← skipReads keys size1 key (size1 + 1) ptr1
        let k ← keys[skipped.1]?
        if k = key then do
          let out ← mergeReads size1 start size2 fuel keys skipped.1 (ptr2 + 1) result
          some (out.1, skipped.2 ++ skipped.1 :: out.2)
        else do
          let keys ← store keys (start + result) key
          let out ← mergeReads size1 start size2 fuel keys skipped.1 (ptr2 + 1) (result + 1)
          some (out.1, skipped.2 ++ skipped.1 :: out.2)
      else some ((keys, ptr2, result), [])

/-- What `unique_data` leaves: the array, the two sizes, the place that the returned pointer points
to, and the positions of `key1` that the loops have read. -/
structure Unique (K : Type) where
  keys : List K
  size1 : ℕ
  size2 : ℕ
  tail : ℕ
  reads : List ℕ
deriving DecidableEq

/-- `unique_data` with everything that it leaves. -/
def uniqueDataAll (s : Shuffle K) (keys : List K) (size1 size2 : ℕ) : Option (Unique K) := do
  let start := size1
  let first := uniqueRange 0 size1 (sortRange 0 size1 keys)
  let second := uniqueRange start (start + size2) (sortRange start (start + size2) first.1)
  let merged ← mergeReads first.2 start second.2 second.2 second.1 0 0 0
  let copied ← copyRest start second.2 second.2 merged.1.1 merged.1.2.1 merged.1.2.2
  some {
    keys := shuffleRange s start (start + copied.2) copied.1
    size1 := first.2
    size2 := copied.2
    tail := start + copied.2
    reads := merged.2 }

theorem skipSmaller_le {keys : List K} {size1 : ℕ} {key : K} : ∀ {fuel ptr1 p : ℕ},
    skipSmaller keys size1 key fuel ptr1 = some p → ptr1 ≤ p
  | 0, _, _, h => by cases h
  | fuel + 1, ptr1, p, h => by
      unfold skipSmaller at h
      obtain ⟨k, -, h⟩ := Option.bind_eq_some_iff.mp h
      split at h
      · exact (Nat.le_succ ptr1).trans (skipSmaller_le h)
      · exact (Option.some.inj h).le

/-- The inner loop reads every position up to the one where it stops. -/
theorem skipReads_eq (keys : List K) (size1 : ℕ) (key : K) : ∀ fuel ptr1,
    skipReads keys size1 key fuel ptr1 =
      (skipSmaller keys size1 key fuel ptr1).map (fun p => (p, List.range' ptr1 (p + 1 - ptr1)))
  | 0, _ => rfl
  | fuel + 1, ptr1 => by
      unfold skipReads skipSmaller
      simp only [Option.bind_eq_bind]
      cases keys[ptr1]? with
      | none => rfl
      | some k =>
          simp only [Option.bind_some]
          split
          · rw [skipReads_eq keys size1 key fuel (ptr1 + 1)]
            cases hp : skipSmaller keys size1 key fuel (ptr1 + 1) with
            | none => rfl
            | some p =>
                have hle := skipSmaller_le hp
                simp only [Option.map_some, Option.bind_some]
                rw [show p + 1 - ptr1 = p + 1 - (ptr1 + 1) + 1 by omega, List.range'_succ]
          · simp

theorem mergeReads_map (size1 start size2 : ℕ) : ∀ (fuel : ℕ) (keys : List K)
    (ptr1 ptr2 result : ℕ),
    (mergeReads size1 start size2 fuel keys ptr1 ptr2 result).map Prod.fst =
      mergeLoop size1 start size2 fuel keys ptr1 ptr2 result
  | 0, keys, ptr1, ptr2, result => by
      unfold mergeReads mergeLoop
      split <;> rfl
  | fuel + 1, keys, ptr1, ptr2, result => by
      have hread := mergeReads_map size1 start size2 fuel
      unfold mergeReads mergeLoop
      split
      · simp only [Option.bind_eq_bind, skipReads_eq, Option.bind_map, Function.comp_def]
        cases keys[start + ptr2]? with
        | none => rfl
        | some key =>
            simp only [Option.bind_some]
            cases skipSmaller keys size1 key (size1 + 1) ptr1 with
            | none => rfl
            | some p =>
                simp only [Option.bind_some]
                cases keys[p]? with
                | none => rfl
                | some k =>
                    simp only [Option.bind_some, ← hread]
                    split
                    · cases mergeReads size1 start size2 fuel keys p (ptr2 + 1) result <;> rfl
                    · cases store keys (start + result) key with
                      | none => rfl
                      | some keys' =>
                          simp only [Option.bind_some]
                          cases mergeReads size1 start size2 fuel keys' p (ptr2 + 1)
                            (result + 1) <;> rfl
      · rfl

/-- Without the positions and the first size it is the function of the workload. -/
theorem uniqueDataAll_map (s : Shuffle K) (keys : List K) (size1 size2 : ℕ) :
    (uniqueDataAll s keys size1 size2).map (fun u => (u.keys, u.size2)) =
      uniqueData s keys size1 size2 := by
  unfold uniqueDataAll uniqueData
  simp only [Option.bind_eq_bind, ← mergeReads_map]
  generalize mergeReads (K := K) _ size1 _ _ _ 0 0 0 = merged
  cases merged with
  | none => rfl
  | some merged =>
      simp only [Option.bind_some, Option.map_some]
      generalize copyRest size1 _ _ merged.1.1 _ _ = copied
      cases copied <;> rfl

/-! ### The invariant of the first loop -/

/-- Between two rounds of the first loop `ptr1` keys of `A` have been found too small for what is
left of `B`, `ptr2` keys of `B` have been read, and what is left of `B` stands where it did. -/
structure Merging (A B : List K) (start : ℕ) (keys : List K) (ptr1 ptr2 result : ℕ) : Prop where
  first : keys.take A.length = A
  fits : A.length ≤ start
  room : start + B.length ≤ keys.length
  ptr1_le : ptr1 ≤ A.length
  ptr2_le : ptr2 ≤ B.length
  result_le : result ≤ ptr2
  rest : slice keys (start + ptr2) (start + B.length) = B.drop ptr2
  below : ∀ a ∈ A.take ptr1, ∀ b ∈ B.drop ptr2, a < b

namespace Merging
variable {A B keys : List K} {start ptr1 ptr2 result p : ℕ} {key k : K}

theorem getElem_first (h : Merging A B start keys ptr1 ptr2 result) (hp : p < A.length) :
    keys[p]? = A[p]? := by
  conv_rhs => rw [← h.first]
  rw [List.getElem?_take_of_lt hp]

theorem drop_eq (h : Merging A B start keys ptr1 ptr2 result)
    (hkey : keys[start + ptr2]? = some key)
    (hlt : ptr2 < B.length) : B.drop ptr2 = key :: B.drop (ptr2 + 1) := by
  have hcons := slice_cons hkey (show start + ptr2 < start + B.length by omega)
  rw [h.rest, List.drop_eq_getElem_cons hlt] at hcons
  rw [List.drop_eq_getElem_cons hlt, (List.cons.inj hcons).1]

/-- Where the inner loop stops. -/
theorem skip (h : Merging A B start keys ptr1 ptr2 result) (hlt : ptr2 < B.length)
    (hkey : keys[start + ptr2]? = some key) :
    ∃ p, skipSmaller keys A.length key (A.length + 1) ptr1 = some p ∧ ptr1 ≤ p ∧ p ≤ A.length ∧
      (∀ a ∈ A.take p, a < key) ∧ (p < A.length → ∃ k, A[p]? = some k ∧ key ≤ k) := by
  have hroom := h.room
  have hfits := h.fits
  have hle := h.ptr1_le
  obtain ⟨p, hp, h1, h2, hbelow, hstop⟩ :=
    skipSmaller_spec keys A.length key (by omega) (A.length + 1) ptr1 hle (by omega)
  refine ⟨p, hp, h1, h2, fun a ha => ?_, fun hpA => ?_⟩
  · obtain ⟨i, hi, rfl⟩ := List.getElem_of_mem ha
    have hip : i < p := by
      rw [List.length_take] at hi
      omega
    rw [List.getElem_take]
    rcases Nat.lt_or_ge i ptr1 with hi1 | hi1
    · refine h.below _ ?_ key ?_
      · exact List.mem_take_iff_getElem.mpr ⟨i, by omega, rfl⟩
      · rw [h.drop_eq hkey hlt]
        exact List.mem_cons_self ..
    · obtain ⟨k, hk, hklt⟩ := hbelow i hi1 hip
      rw [h.getElem_first (by omega), List.getElem?_eq_getElem (by omega)] at hk
      rw [Option.some.inj hk]
      exact hklt
  · obtain ⟨k, hk, hnot⟩ := hstop hpA
    rw [h.getElem_first hpA] at hk
    exact ⟨k, hk, not_lt.mp hnot⟩

/-- What one round finds: the key that is next, the place where the inner loop stops for it, and
what stands there. -/
theorem round (h : Merging A B start keys ptr1 ptr2 result) (hlt : ptr2 < B.length) :
    ∃ key p k, keys[start + ptr2]? = some key ∧
      skipSmaller keys A.length key (A.length + 1) ptr1 = some p ∧ keys[p]? = some k ∧
      p ≤ A.length ∧
      (∀ a ∈ A.take p, a < key) ∧ (p < A.length → ∃ k, A[p]? = some k ∧ key ≤ k) := by
  have hroom := h.room
  have hfits := h.fits
  obtain ⟨key, hkey⟩ : ∃ k, keys[start + ptr2]? = some k := ⟨_, List.getElem?_eq_getElem (by omega)⟩
  obtain ⟨p, hskip, -, hp, hbelow, hstop⟩ := h.skip hlt hkey
  exact ⟨key, p, _, hkey, hskip, List.getElem?_eq_getElem (by omega), hp, hbelow, hstop⟩

/-- A key that is a duplicate is passed. -/
theorem pass (h : Merging A B start keys ptr1 ptr2 result) (hB : B.Pairwise (· < ·))
    (hlt : ptr2 < B.length) (hkey : keys[start + ptr2]? = some key) (hp : p ≤ A.length)
    (hbelow : ∀ a ∈ A.take p, a < key) : Merging A B start keys p (ptr2 + 1) result where
  first := h.first
  fits := h.fits
  room := h.room
  ptr1_le := hp
  ptr2_le := hlt
  result_le := h.result_le.trans (Nat.le_succ ptr2)
  rest := by
    have hcons := slice_cons hkey (show start + ptr2 < start + B.length by omega)
    rw [h.rest, h.drop_eq hkey hlt] at hcons
    exact (List.cons.inj hcons).2.symm
  below := fun a ha b hb => by
    have hdrop : (B.drop ptr2).Pairwise (· < ·) := hB.sublist (List.drop_sublist ..)
    rw [h.drop_eq hkey hlt] at hdrop
    exact (hbelow a ha).trans ((List.pairwise_cons.mp hdrop).1 b hb)

/-- Any other key is moved down to the keys that are kept. -/
theorem move (h : Merging A B start keys ptr1 ptr2 result) (hB : B.Pairwise (· < ·))
    (hlt : ptr2 < B.length) (hkey : keys[start + ptr2]? = some key) (hp : p ≤ A.length)
    (hbelow : ∀ a ∈ A.take p, a < key) :
    store keys (start + result) key = some (keys.set (start + result) key) ∧
      slice (keys.set (start + result) key) start (start + (result + 1)) =
        slice keys start (start + result) ++ [key] ∧
      Merging A B start (keys.set (start + result) key) p (ptr2 + 1) (result + 1) := by
  have hroom := h.room
  have hres := h.result_le
  have hfits := h.fits
  have hpass := h.pass hB hlt hkey hp hbelow
  refine ⟨if_pos (by omega), ?_, ?_⟩
  · rw [← Nat.add_assoc, slice_concat (List.getElem?_set_self (by omega)) (Nat.le_add_right ..),
      slice_set_of_le le_rfl]
  · exact {
      first := by rw [List.take_set_of_le (by omega), h.first]
      fits := h.fits
      room := by rw [List.length_set]; exact h.room
      ptr1_le := hp
      ptr2_le := hlt
      result_le := by omega
      rest := by rw [slice_set_of_lt (by omega), hpass.rest]
      below := hpass.below }

/-- Inside the first array the comparison finds the duplicates. -/
theorem mem_iff (hA : A.Pairwise (· < ·)) (hk : A[p]? = some k) (hbelow : ∀ a ∈ A.take p, a < key)
    (hle : key ≤ k) : k = key ↔ key ∈ A := by
  obtain ⟨hp, hkp⟩ := List.getElem?_eq_some_iff.mp hk
  constructor
  · rintro rfl
    exact List.mem_of_getElem? hk
  · intro hmem
    obtain ⟨j, hj, hkey⟩ := List.getElem_of_mem hmem
    have hpj : p ≤ j := by
      by_contra hcon
      have hlt := hbelow _ (List.mem_take_iff_getElem.mpr ⟨j, by omega, rfl⟩)
      rw [hkey] at hlt
      exact lt_irrefl _ hlt
    have hkj : A[p] ≤ A[j] := by
      rcases Nat.eq_or_lt_of_le hpj with rfl | hlt
      · exact le_rfl
      · exact (List.pairwise_iff_getElem.mp hA p j hp hj hlt).le
    rw [hkp, hkey] at hkj
    exact le_antisymm hkj hle

/-- A key is not above the whole first array exactly if the inner loop stops inside. -/
theorem stops_inside_iff (hp : p ≤ A.length) (hbelow : ∀ a ∈ A.take p, a < key)
    (hstop : p < A.length → ∃ k, A[p]? = some k ∧ key ≤ k) : p < A.length ↔ ∃ a ∈ A, key ≤ a := by
  constructor
  · intro hlt
    obtain ⟨k, hk, hle⟩ := hstop hlt
    exact ⟨k, List.mem_of_getElem? hk, hle⟩
  · rintro ⟨a, ha, hle⟩
    by_contra hcon
    rw [List.take_of_length_le (by omega)] at hbelow
    exact absurd (hbelow a ha) (not_lt.mpr hle)

/-- The loop reads inside the first array exactly if no key that is left of the second one is larger
than all of it.  The induction is over the rounds. -/
theorem reads_iff (hA : A.Pairwise (· < ·)) (hB : B.Pairwise (· < ·)) :
    ∀ (fuel : ℕ) (keys : List K) (ptr1 ptr2 result : ℕ) (out : (List K × ℕ × ℕ) × List ℕ),
    Merging A B start keys ptr1 ptr2 result → ptr1 < A.length →
    mergeReads A.length start B.length fuel keys ptr1 ptr2 result = some out →
    ((∀ i ∈ out.2, i < A.length) ↔ ∀ b ∈ B.drop ptr2, ∃ a ∈ A, b ≤ a)
  | 0, keys, ptr1, ptr2, result, out, h, h1, hout => by
      unfold mergeReads at hout
      split at hout
      · cases hout
      · obtain rfl := Option.some.inj hout
        simp [List.drop_eq_nil_of_le (show B.length ≤ ptr2 by omega)]
  | fuel + 1, keys, ptr1, ptr2, result, out, h, h1, hout => by
      unfold mergeReads at hout
      split at hout
      · rename_i hcond
        obtain ⟨key, p, k, hkey, hskip, hk, hp, hbelow, hstop⟩ := h.round hcond.2
        have hin := stops_inside_iff hp hbelow hstop
        simp only [hkey, skipReads_eq, hskip, hk, Option.map_some, Option.bind_eq_bind,
          Option.bind_some] at hout
        rw [h.drop_eq hkey hcond.2, List.forall_mem_cons, ← hin]
        -- what this round reads ends at `p`
        have hround : ∀ rest : List ℕ,
            (∀ i ∈ List.range' ptr1 (p + 1 - ptr1) ++ p :: rest, i < A.length) ↔
              p < A.length ∧ ∀ i ∈ rest, i < A.length := by
          intro rest
          simp only [List.mem_append, List.mem_cons, List.mem_range'_1]
          constructor
          · exact fun hall => ⟨hall p (by simp), fun i hi => hall i (by simp [hi])⟩
          · rintro ⟨hp, hrest⟩ i (hi | rfl | hi)
            · omega
            · exact hp
            · exact hrest i hi
        split at hout
        · obtain ⟨r, hr, hout⟩ := Option.bind_eq_some_iff.mp hout
          obtain rfl := Option.some.inj hout
          rw [hround]
          refine and_congr_right (fun hpA => ?_)
          exact reads_iff hA hB fuel keys p (ptr2 + 1) result r
            (h.pass hB hcond.2 hkey hp hbelow) hpA hr
        · obtain ⟨hstore, -, hnext⟩ := h.move hB hcond.2 hkey hp hbelow
          rw [hstore, Option.bind_some] at hout
          obtain ⟨r, hr, hout⟩ := Option.bind_eq_some_iff.mp hout
          obtain rfl := Option.some.inj hout
          rw [hround]
          refine and_congr_right (fun hpA => ?_)
          exact reads_iff hA hB fuel _ p (ptr2 + 1) (result + 1) r hnext hpA hr
      · obtain rfl := Option.some.inj hout
        simp [List.drop_eq_nil_of_le (show B.length ≤ ptr2 by omega)]

/-- What stands behind the first array is not taken for a key that is left and larger than all of
it. -/
def PastDiffers (A B keys : List K) (ptr2 : ℕ) : Prop :=
  ∀ b ∈ B.drop ptr2, (∀ a ∈ A, a < b) → keys[A.length]? ≠ some b

theorem PastDiffers.tail (h : PastDiffers A B keys ptr2) : PastDiffers A B keys (ptr2 + 1) := by
  intro b hb
  refine h b ?_
  rw [← List.drop_drop] at hb
  exact List.mem_of_mem_drop hb

theorem PastDiffers.set (h : PastDiffers A B keys ptr2)
    (hm : Merging A B start keys ptr1 ptr2 result)
    (hB : B.Pairwise (· < ·)) (hlt : ptr2 < B.length) (hkey : keys[start + ptr2]? = some key) :
    PastDiffers A B (keys.set (start + result) key) (ptr2 + 1) := by
  intro b hb habove hget
  have hdrop : (B.drop ptr2).Pairwise (· < ·) := hB.sublist (List.drop_sublist ..)
  rw [hm.drop_eq hkey hlt] at hdrop
  have hkb := (List.pairwise_cons.mp hdrop).1 b hb
  rw [List.getElem?_set] at hget
  split at hget
  · split at hget
    · exact absurd (Option.some.inj hget) hkb.ne
    · cases hget
  · exact h.tail b hb habove hget

/-- One round decides rightly, also where it looks behind the first array. -/
theorem decides (h : Merging A B start keys ptr1 ptr2 result) (hA : A.Pairwise (· < ·))
    (hpast : PastDiffers A B keys ptr2) (hlt : ptr2 < B.length)
    (hkey : keys[start + ptr2]? = some key) (hp : p ≤ A.length) (hbelow : ∀ a ∈ A.take p, a < key)
    (hstop : p < A.length → ∃ k, A[p]? = some k ∧ key ≤ k) (hk : keys[p]? = some k) :
    k = key ↔ key ∈ A := by
  rcases Nat.eq_or_lt_of_le hp with rfl | hpA
  · rw [List.take_length] at hbelow
    have hmem : key ∈ B.drop ptr2 := by
      rw [h.drop_eq hkey hlt]
      exact List.mem_cons_self ..
    constructor
    · rintro rfl
      exact absurd hk (hpast k hmem hbelow)
    · exact fun hmem => absurd (hbelow key hmem) (lt_irrefl _)
  · obtain ⟨k', hk', hle⟩ := hstop hpA
    rw [h.getElem_first hpA, hk'] at hk
    obtain rfl := Option.some.inj hk
    exact mem_iff hA hk' hbelow hle

/-- Whatever stands behind the first array, the loop ends in its invariant.  It keeps the keys that
are not in the first array, and leaves the others that it has not reached, unless what stands there
is taken for one of them. -/
theorem loop (hA : A.Pairwise (· < ·)) (hB : B.Pairwise (· < ·)) :
    ∀ (fuel : ℕ) (keys : List K) (ptr1 ptr2 result : ℕ),
    Merging A B start keys ptr1 ptr2 result → B.length ≤ ptr2 + fuel →
    ∃ keys' ptr1' ptr2' result',
      mergeLoop A.length start B.length fuel keys ptr1 ptr2 result = some (keys', ptr2', result') ∧
      Merging A B start keys' ptr1' ptr2' result' ∧ keys'.length = keys.length ∧
      (PastDiffers A B keys ptr2 → slice keys' start (start + result') ++ B.drop ptr2' =
        slice keys start (start + result) ++ (B.drop ptr2).filter (· ∉ A))
  | 0, keys, ptr1, ptr2, result, h, hfuel => by
      have hle := h.ptr2_le
      obtain rfl : ptr2 = B.length := by omega
      refine ⟨keys, ptr1, B.length, result, ?_, h, rfl, fun _ => ?_⟩
      · unfold mergeLoop
        rw [if_neg (by omega)]
      · rw [List.drop_length, List.filter_nil]
  | fuel + 1, keys, ptr1, ptr2, result, h, hfuel => by
      unfold mergeLoop
      split
      · rename_i hcond
        obtain ⟨key, p, k, hkey, hskip, hk, hp, hbelow, hstop⟩ := h.round hcond.2
        have hdup := fun hpast => h.decides hA hpast hcond.2 hkey hp hbelow hstop hk
        simp only [hkey, hskip, hk, Option.bind_eq_bind, Option.bind_some]
        rw [h.drop_eq hkey hcond.2]
        split
        · rename_i heq
          obtain ⟨keys', ptr1', ptr2', result', hloop, hm, hlen, hkept⟩ :=
            loop hA hB fuel keys p (ptr2 + 1) result (h.pass hB hcond.2 hkey hp hbelow) (by omega)
          refine ⟨keys', ptr1', ptr2', result', hloop, hm, hlen, fun hpast => ?_⟩
          have hmem := (hdup hpast).mp heq
          rw [hkept hpast.tail, List.filter_cons_of_neg (by simpa using hmem)]
        · rename_i hne
          obtain ⟨hstore, hslice, hnext⟩ := h.move hB hcond.2 hkey hp hbelow
          rw [hstore, Option.bind_some]
          obtain ⟨keys', ptr1', ptr2', result', hloop, hm, hlen, hkept⟩ :=
            loop hA hB fuel _ p (ptr2 + 1) (result + 1) hnext (by omega)
          refine ⟨keys', ptr1', ptr2', result', hloop, hm, by rw [hlen, List.length_set],
            fun hpast => ?_⟩
          have hmem : key ∉ A := fun hmem => hne ((hdup hpast).mpr hmem)
          rw [hkept (hpast.set h hB hcond.2 hkey), hslice, List.append_assoc, List.singleton_append,
            List.filter_cons_of_pos (by simpa using hmem)]
      · -- what is left is empty, or larger than the whole first array
        rename_i hcond
        refine ⟨keys, ptr1, ptr2, result, rfl, h, rfl, fun _ => ?_⟩
        congr 1
        refine (List.filter_eq_self.mpr (fun b hb => ?_)).symm
        have h2 : ptr2 < B.length := by
          have := List.length_pos_of_mem hb
          rw [List.length_drop] at this
          omega
        have hbelow := h.below
        rw [List.take_of_length_le (by omega)] at hbelow
        simpa using fun hmem => lt_irrefl b (hbelow b hmem b hb)

end Merging

/-! ### The function -/

omit [LinearOrder K] in
theorem copyRest_take (start size2 : ℕ) : ∀ (fuel : ℕ) (keys : List K) (ptr2 result : ℕ)
    (out : List K × ℕ), copyRest start size2 fuel keys ptr2 result = some out →
    out.1.take start = keys.take start
  | 0, keys, ptr2, result, out, h => by
      unfold copyRest at h
      split at h
      · cases h
      · rw [← Option.some.inj h]
  | fuel + 1, keys, ptr2, result, out, h => by
      unfold copyRest at h
      split at h
      · obtain ⟨key, -, h⟩ := Option.bind_eq_some_iff.mp h
        obtain ⟨keys', hstore, h⟩ := Option.bind_eq_some_iff.mp h
        unfold store at hstore
        split at hstore
        · rw [copyRest_take start size2 fuel keys' _ _ out h, ← Option.some.inj hstore,
            List.take_set_of_le (Nat.le_add_right ..)]
        · cases hstore
      · rw [← Option.some.inj h]

/-- The array when each part has been sorted and its duplicates have been removed. -/
def compactParts (key1 key2 behind : List K) : List K :=
  compact (key1.insertionSort (· ≤ ·)) ++ compact (key2.insertionSort (· ≤ ·)) ++ behind

section function
variable (s : Shuffle K) (key1 key2 behind : List K)

theorem length_compact_sorted (l : List K) :
    (compact (l.insertionSort (· ≤ ·))).length = l.length := by
  rw [length_compact, length_sorted]

theorem uniqueDataAll_eq :
    uniqueDataAll s (key1 ++ key2 ++ behind) key1.length key2.length =
      (mergeReads (distinctSorted key1).length key1.length (distinctSorted key2).length
        (distinctSorted key2).length (compactParts key1 key2 behind) 0 0 0).bind (fun merged =>
          (copyRest key1.length (distinctSorted key2).length (distinctSorted key2).length merged.1.1
            merged.1.2.1 merged.1.2.2).bind (fun copied =>
              some {
                keys := shuffleRange s key1.length (key1.length + copied.2) copied.1
                size1 := (distinctSorted key1).length
                size2 := copied.2
                tail := key1.length + copied.2
                reads := merged.2 })) := by
  have hsort1 : sortRange 0 key1.length (key1 ++ key2 ++ behind) =
      key1.insertionSort (· ≤ ·) ++ key2 ++ behind := by
    have h := editRange_middle (List.insertionSort (· ≤ ·)) [] key1 (key2 ++ behind)
    simp only [List.nil_append, List.length_nil, Nat.zero_add, ← List.append_assoc] at h
    exact h
  have hfirst : uniqueRange 0 key1.length (key1.insertionSort (· ≤ ·) ++ key2 ++ behind) =
      (compact (key1.insertionSort (· ≤ ·)) ++ key2 ++ behind, (distinctSorted key1).length) := by
    have h := editRange_middle compact [] (key1.insertionSort (· ≤ ·)) (key2 ++ behind)
    have hs := slice_middle [] (key1.insertionSort (· ≤ ·)) (key2 ++ behind)
    simp only [List.nil_append, List.length_nil, Nat.zero_add, ← List.append_assoc,
      List.length_insertionSort] at h hs
    rw [uniqueRange, h, hs]
    rfl
  have hlen := length_compact_sorted key1
  have hsort2 : sortRange key1.length (key1.length + key2.length)
      (compact (key1.insertionSort (· ≤ ·)) ++ key2 ++ behind) =
      compact (key1.insertionSort (· ≤ ·)) ++ key2.insertionSort (· ≤ ·) ++ behind := by
    have h := editRange_middle (List.insertionSort (· ≤ ·))
      (compact (key1.insertionSort (· ≤ ·))) key2
      behind
    rw [hlen] at h
    exact h
  have hsecond : uniqueRange key1.length (key1.length + key2.length)
      (compact (key1.insertionSort (· ≤ ·)) ++ key2.insertionSort (· ≤ ·) ++ behind) =
      (compactParts key1 key2 behind, (distinctSorted key2).length) := by
    have h := editRange_middle compact (compact (key1.insertionSort (· ≤ ·)))
      (key2.insertionSort (· ≤ ·)) behind
    have hs := slice_middle (compact (key1.insertionSort (· ≤ ·)))
      (key2.insertionSort (· ≤ ·)) behind
    rw [hlen, List.length_insertionSort] at h hs
    rw [uniqueRange, h, hs]
    rfl
  unfold uniqueDataAll
  simp only [hsort1, hfirst, hsort2, hsecond, Option.bind_eq_bind]

theorem merging_start :
    Merging (distinctSorted key1) (distinctSorted key2) key1.length (compactParts key1 key2 behind)
      0 0 0 := by
  have hlen1 := length_compact_sorted key1
  have hlen2 := length_compact_sorted key2
  have hle1 := length_distinctSorted_le key1
  have hle2 := length_distinctSorted_le key2
  have htake : ∀ l : List K,
      (compact (l.insertionSort (· ≤ ·))).take (distinctSorted l).length = distinctSorted l :=
    fun l => List.take_left' rfl
  refine ⟨?_, hle1, ?_, Nat.zero_le _, Nat.zero_le _, le_rfl, ?_, ?_⟩
  · rw [compactParts, List.append_assoc, List.take_append_of_le_length (by omega), htake]
  · simp only [compactParts, List.length_append]
    omega
  · rw [Nat.add_zero, List.drop_zero, slice, compactParts, List.append_assoc, List.take_append,
      List.take_of_length_le (by omega), List.drop_append_of_le_length (by omega),
      List.drop_of_length_le (by omega), hlen1, Nat.add_sub_cancel_left, List.nil_append,
      List.take_append_of_le_length (by omega), htake]
  · intro a ha
    rw [List.take_zero] at ha
    cases ha

variable {s key1 key2 behind}

/-- The second loop and the shuffle, after a first loop that ends in its invariant. -/
theorem uniqueDataAll_of_merge {keys : List K} {ptr1 ptr2 result : ℕ} {reads : List ℕ}
    (hmerge : mergeReads (distinctSorted key1).length key1.length (distinctSorted key2).length
      (distinctSorted key2).length (compactParts key1 key2 behind) 0 0 0 =
        some ((keys, ptr2, result), reads))
    (hm : Merging (distinctSorted key1) (distinctSorted key2) key1.length keys ptr1 ptr2 result)
    {kept : List K} (hkept : slice keys key1.length (key1.length + result) ++
      (distinctSorted key2).drop ptr2 = kept) :
    ∃ u, uniqueDataAll s (key1 ++ key2 ++ behind) key1.length key2.length = some u ∧
      u.size1 = (distinctSorted key1).length ∧ u.size2 = kept.length ∧
      u.tail = key1.length + kept.length ∧ u.reads = reads ∧ u.keys.length = keys.length ∧
      u.keys.take (distinctSorted key1).length = distinctSorted key1 ∧
      slice u.keys key1.length (key1.length + kept.length) = s.val kept := by
  have hroom := hm.room
  have hres := hm.result_le
  have hp2 := hm.ptr2_le
  have hfits := hm.fits
  obtain ⟨keys', hcopy, hlen, hslice⟩ := copyRest_spec key1.length (distinctSorted key2).length
    (distinctSorted key2).length keys ptr2 result hres hp2 (by omega) hroom
  rw [hm.rest, hkept] at hslice
  have hcount : kept.length = result + ((distinctSorted key2).length - ptr2) := by
    rw [← hslice, length_slice (by omega)]
    omega
  rw [← hcount] at hcopy hslice
  refine ⟨_, by rw [uniqueDataAll_eq, hmerge, Option.bind_some, hcopy, Option.bind_some],
    rfl, rfl, rfl,
    rfl, ?_, ?_, ?_⟩
  · show (editRange s.val key1.length (key1.length + kept.length) keys').length = _
    rw [length_editRange (length_shuffle s) (by omega) (by omega), hlen]
  · have hframe : (editRange s.val key1.length (key1.length + kept.length) keys').take key1.length =
        keys.take key1.length := by
      rw [take_editRange (by omega) (by omega)]
      exact copyRest_take _ _ _ _ _ _ _ hcopy
    have h := congrArg (fun l => l.take (distinctSorted key1).length) hframe
    simp only [List.take_take, Nat.min_eq_left hfits] at h
    exact h.trans hm.first
  · show slice (editRange s.val key1.length (key1.length + kept.length) keys') _ _ = _
    rw [slice_editRange (length_shuffle s) (by omega) (by omega), hslice]

theorem exists_mergeReads {out : List K × ℕ × ℕ}
    (h : mergeLoop (distinctSorted key1).length key1.length (distinctSorted key2).length
      (distinctSorted key2).length (compactParts key1 key2 behind) 0 0 0 = some out) :
    ∃ reads, mergeReads (distinctSorted key1).length key1.length (distinctSorted key2).length
      (distinctSorted key2).length (compactParts key1 key2 behind) 0 0 0 = some (out, reads) := by
  rw [← mergeReads_map] at h
  obtain ⟨⟨_, reads⟩, hout, rfl⟩ := Option.map_eq_some_iff.mp h
  exact ⟨reads, hout⟩

theorem length_compactParts :
    (compactParts key1 key2 behind).length = (key1 ++ key2 ++ behind).length := by
  simp only [compactParts, List.length_append, length_compact_sorted]

/-- The function returns for any two arrays. -/
theorem uniqueDataAll_returns (s : Shuffle K) (key1 key2 behind : List K) :
    ∃ u, uniqueDataAll s (key1 ++ key2 ++ behind) key1.length key2.length = some u ∧
      u.keys.length = (key1 ++ key2 ++ behind).length ∧ u.size2 ≤ key2.length := by
  obtain ⟨keys, ptr1, ptr2, result, hloop, hm, hlen, -⟩ :=
    Merging.loop (pairwise_distinctSorted key1) (pairwise_distinctSorted key2)
      (distinctSorted key2).length _ 0 0 0 (merging_start key1 key2 behind) (by omega)
  obtain ⟨reads, hreads⟩ := exists_mergeReads hloop
  obtain ⟨u, hu, -, h2, -, -, h5, -⟩ := uniqueDataAll_of_merge (s := s) hreads hm rfl
  refine ⟨u, hu, by rw [h5, hlen, length_compactParts], ?_⟩
  have hres := hm.result_le
  have hp2 := hm.ptr2_le
  have hroom := hm.room
  have hle := length_distinctSorted_le key2
  rw [h2, List.length_append, length_slice (by omega), List.length_drop]
  omega

/-- The keys of the second array that are not in the first one are kept, unless what stands behind
the first array is taken for one of them. -/
theorem uniqueDataAll_spec (hpast : Merging.PastDiffers (distinctSorted key1) (distinctSorted key2)
      (compactParts key1 key2 behind) 0)
    {kept : List K} (hkept : (distinctSorted key2).filter (· ∉ distinctSorted key1) = kept) :
    ∃ u reads, uniqueDataAll s (key1 ++ key2 ++ behind) key1.length key2.length = some u ∧
      mergeReads (distinctSorted key1).length key1.length (distinctSorted key2).length
        (distinctSorted key2).length (compactParts key1 key2 behind) 0 0 0 = some reads ∧
      u.reads = reads.2 ∧ u.size1 = (distinctSorted key1).length ∧ u.size2 = kept.length ∧
      u.tail = key1.length + kept.length ∧
      u.keys.length = (compactParts key1 key2 behind).length ∧
      u.keys.take (distinctSorted key1).length = distinctSorted key1 ∧
      slice u.keys key1.length (key1.length + kept.length) = s.val kept := by
  obtain ⟨keys, ptr1, ptr2, result, hloop, hm, hlen, hslice⟩ :=
    Merging.loop (pairwise_distinctSorted key1) (pairwise_distinctSorted key2)
      (distinctSorted key2).length _ 0 0 0 (merging_start key1 key2 behind) (by omega)
  have hslice := hslice hpast
  obtain ⟨reads, hout⟩ := exists_mergeReads hloop
  rw [Nat.add_zero, slice_self, List.nil_append, List.drop_zero, hkept] at hslice
  obtain ⟨u, hu, h1, h2, h3, h4, h5, h6, h7⟩ := uniqueDataAll_of_merge (s := s) hout hm hslice
  exact ⟨u, _, hu, hout, h4, h1, h2, h3, by rw [h5, hlen], h6, h7⟩

end function

/-- The result is the set difference, and the loops have read inside the first array. -/
structure Unique.SetDifference (u : Unique K) (key1 key2 : List K) : Prop where
  size1_le : u.size1 ≤ key1.length
  size2_le : u.size2 ≤ key2.length
  first_sorted : (u.keys.take u.size1).Pairwise (· < ·)
  first_mem : ∀ k, k ∈ u.keys.take u.size1 ↔ k ∈ key1
  rest_nodup : (slice u.keys key1.length (key1.length + u.size2)).Nodup
  rest_mem : ∀ k, k ∈ slice u.keys key1.length (key1.length + u.size2) ↔ k ∈ key2 ∧ k ∉ key1
  tail : u.tail = key1.length + u.size2
  inside : ∀ i ∈ u.reads, i < u.size1

section difference
variable {s : Shuffle K} {key1 key2 behind : List K} {u : Unique K}

/-- What is left is the difference as soon as the right keys are kept and the reads stay inside. -/
theorem Unique.SetDifference.of_kept {kept : List K}
    (hkept : (distinctSorted key2).filter (· ∉ distinctSorted key1) = kept)
    (h1 : u.size1 = (distinctSorted key1).length) (h2 : u.size2 = kept.length)
    (h3 : u.tail = key1.length + kept.length)
    (h4 : u.keys.take (distinctSorted key1).length = distinctSorted key1)
    (h5 : slice u.keys key1.length (key1.length + kept.length) = s.val kept)
    (h6 : ∀ i ∈ u.reads, i < u.size1) : u.SetDifference key1 key2 where
  size1_le := by
    rw [h1]
    exact length_distinctSorted_le key1
  size2_le := by
    rw [h2, ← hkept]
    exact (List.length_filter_le _ _).trans (length_distinctSorted_le key2)
  first_sorted := by
    rw [h1, h4]
    exact pairwise_distinctSorted key1
  first_mem := fun k => by rw [h1, h4, mem_distinctSorted]
  rest_nodup := by
    rw [h2, h5, (s.property kept).nodup_iff, ← hkept]
    exact (nodup_distinctSorted key2).filter _
  rest_mem := fun k => by
    rw [h2, h5, (s.property kept).mem_iff, ← hkept, List.mem_filter, mem_distinctSorted,
      decide_eq_true_eq, mem_distinctSorted]
  tail := by rw [h3, h2]
  inside := h6

/-- With an empty first array the second one is left as it is. -/
theorem uniqueDataAll_nil (hnil : key1 = []) :
    ∃ u, uniqueDataAll s (key1 ++ key2 ++ behind) key1.length key2.length = some u ∧
      u.SetDifference key1 key2 := by
  subst hnil
  have hstart := merging_start [] key2 behind
  have hmerge : mergeReads (distinctSorted ([] : List K)).length ([] : List K).length
      (distinctSorted key2).length (distinctSorted key2).length
        (compactParts [] key2 behind) 0 0 0 =
        some ((compactParts [] key2 behind, 0, 0), []) := by
    show mergeReads 0 0 _ (distinctSorted key2).length _ 0 0 0 = _
    unfold mergeReads
    split <;> simp
  have hkept : slice (compactParts [] key2 behind) ([] : List K).length
    (([] : List K).length + 0) ++
      (distinctSorted key2).drop 0 = distinctSorted key2 := by
    rw [Nat.add_zero, slice_self, List.drop_zero, List.nil_append]
  obtain ⟨u, hu, h1, h2, h3, h4, -, h6, h7⟩ := uniqueDataAll_of_merge (s := s) hmerge hstart hkept
  refine ⟨u, hu, .of_kept ?_ h1 h2 h3 h6 h7 ?_⟩
  · exact List.filter_eq_self.mpr (fun k _ => decide_eq_true List.not_mem_nil)
  · rw [h4]
    exact List.forall_mem_nil _

end difference

/-- **`unique_data` computes the set difference**, and compares only keys of the two arrays without
duplicates, exactly if the first array is empty or no key of the second one is larger than all of
it. -/
theorem uniqueDataAll_difference_iff (s : Shuffle K) (key1 key2 behind : List K) :
    (∃ u, uniqueDataAll s (key1 ++ key2 ++ behind) key1.length key2.length = some u ∧
      u.SetDifference key1 key2) ↔ key1 = [] ∨ ∀ b ∈ key2, ∃ a ∈ key1, b ≤ a := by
  have hstart := merging_start key1 key2 behind
  have hA := pairwise_distinctSorted key1
  have hB := pairwise_distinctSorted key2
  have hpos : key1 ≠ [] → 0 < (distinctSorted key1).length := by
    intro hne
    obtain ⟨a, ha⟩ := List.exists_mem_of_ne_nil key1 hne
    exact List.length_pos_of_mem (mem_distinctSorted.mpr ha)
  constructor
  · rintro ⟨u, hu, hdiff⟩
    by_cases hne : key1 = []
    · exact Or.inl hne
    · rw [uniqueDataAll_eq] at hu
      obtain ⟨out, hout, hu⟩ := Option.bind_eq_some_iff.mp hu
      obtain ⟨copied, -, hu⟩ := Option.bind_eq_some_iff.mp hu
      obtain rfl := Option.some.inj hu
      have hall := (Merging.reads_iff hA hB _ _ 0 0 0 out hstart (hpos hne) hout).mp hdiff.inside
      refine Or.inr (fun b hb => ?_)
      obtain ⟨a, ha, hle⟩ := hall b (mem_distinctSorted.mpr hb)
      exact ⟨a, mem_distinctSorted.mp ha, hle⟩
  · by_cases hne : key1 = []
    · exact fun _ => uniqueDataAll_nil hne
    · intro hcond
      have hcond := hcond.resolve_left hne
      have hall : ∀ b ∈ (distinctSorted key2).drop 0, ∃ a ∈ distinctSorted key1, b ≤ a := by
        intro b hb
        obtain ⟨a, ha, hle⟩ := hcond b (mem_distinctSorted.mp hb)
        exact ⟨a, mem_distinctSorted.mpr ha, hle⟩
      have hpast : Merging.PastDiffers (distinctSorted key1) (distinctSorted key2)
          (compactParts key1 key2 behind) 0 := by
        intro b hb habove
        obtain ⟨a, ha, hle⟩ := hall b hb
        exact absurd (habove a ha) (not_lt.mpr hle)
      obtain ⟨u, out, hu, hout, h4, h1, h2, h3, -, h6, h7⟩ := uniqueDataAll_spec (s := s) hpast rfl
      refine ⟨u, hu, .of_kept rfl h1 h2 h3 h6 h7 ?_⟩
      rw [h4, h1]
      exact (Merging.reads_iff hA hB _ _ 0 0 0 out hstart (hpos hne) hout).mpr hall

/-- The key 2 is not in the first array, but `key1[1]`, where the inner loop ends, is `key2[0]`: it
is taken for a duplicate and lost. -/
theorem uniqueDataAll_loses_key :
    uniqueDataAll ⟨id, List.Perm.refl⟩ [1, 2] 1 1 = some ⟨[1, 2], 1, 0, 1, [0, 1, 1]⟩ ∧
      ¬ ∃ u, uniqueDataAll ⟨id, List.Perm.refl⟩ ([1] ++ [2] ++ []) [1].length [2].length = some u ∧
        u.SetDifference [1] [2] := by
  have hrun : uniqueDataAll ⟨id, List.Perm.refl⟩ [1, 2] 1 1 =
      some ⟨[1, 2], 1, 0, 1, [0, 1, 1]⟩ := by decide +kernel
  refine ⟨hrun, ?_⟩
  rintro ⟨u, hu, hdiff⟩
  obtain rfl := Option.some.inj (hrun.symm.trans hu)
  have hkept := (hdiff.rest_mem 2).mpr (by decide)
  exact absurd hkept (by decide)

end LearnedIndex.Benchmark
