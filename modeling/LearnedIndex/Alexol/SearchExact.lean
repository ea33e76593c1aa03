import LearnedIndex.Alexol.DataNodeExact

/-! # The searches of a data node

On any sorted array of key slots, and from any start position, the exponential searches count the
slots up to a key and below it.  So `find_key`, `find_payload` and `update` find a stored key of a
well-formed node whatever the model predicts (`search_exact`).

The search bounds are of type `int` in the source, where a bound is doubled once more after it has
passed half of the array; `exponentialSearchInt` is the search with this check, which never fails in
an array of at most `2 ^ 30` slots. -/

namespace LearnedIndex.Alexol

open LearnedIndex.Search

/-! ### Bounds of type `int` -/

/-- `doubleBound` for a bound of type `int`; `none` is an overflow. -/
def doubleBoundInt (size : ℕ) (test : ℕ → Option Bool) : ℕ → ℕ → ℕ → Option (ℕ × ℕ)
  | 0, bound, iters => if bound < size then none else some (bound, iters)
  | fuel + 1, bound, iters =>
      if bound < size then do
        if ← test bound then
          if bound * 2 < 2 ^ 31 then doubleBoundInt size test fuel (bound * 2) (iters + 1) else none
        else some (bound, iters)
      else some (bound, iters)

def exponentialSearchInt (below : ℕ → Option Bool) (cap m : ℕ) : Option (ℕ × ℕ) := do
  if ← below m then
    let size := cap - m
    let (bound, iters) ← doubleBoundInt size (fun b => below (m + b)) size 1 0
    let pos ← binarySearch below cap (m + bound / 2) (m + min bound size)
    some (pos, iters)
  else
    let size := m
    let (bound, iters) ← doubleBoundInt size (fun b => (below (m - b)).map not) size 1 0
    let pos ← binarySearch below cap (m - min bound size) (m - bound / 2)
    some (pos, iters)

theorem doubleBoundInt_eq {size : ℕ} {test : ℕ → Option Bool} (hsize : size ≤ 2 ^ 30) :
    ∀ fuel bound iters : ℕ,
      doubleBoundInt size test fuel bound iters = doubleBound size test fuel bound iters
  | 0, _, _ => rfl
  | fuel + 1, bound, iters => by
      unfold doubleBoundInt doubleBound
      by_cases hlt : bound < size
      · rw [if_pos hlt, if_pos hlt, if_pos (show bound * 2 < 2 ^ 31 by omega),
          doubleBoundInt_eq hsize fuel]
      · rw [if_neg hlt, if_neg hlt]

/-- In an array of at most `2 ^ 30` slots no bound overflows. -/
theorem exponentialSearchInt_eq (below : ℕ → Option Bool) {cap m : ℕ} (hcap : cap ≤ 2 ^ 30)
    (hm : m < cap) : exponentialSearchInt below cap m = exponentialSearch below cap m := by
  unfold exponentialSearchInt exponentialSearch
  simp only [doubleBoundInt_eq (show cap - m ≤ 2 ^ 30 by omega),
    doubleBoundInt_eq (show m ≤ 2 ^ 30 by omega)]

/-! ### Counting in a sorted list -/

/-- In a sorted list a downward closed property holds of the elements before its count. -/
theorem sat_iff_lt_countP {below : ℤ → Prop} [DecidablePred below]
    (hdown : ∀ x y, x ≤ y → below y → below x) : ∀ {xs : List ℤ}, xs.Pairwise (· ≤ ·) →
    ∀ {i : ℕ} {x : ℤ}, xs[i]? = some x → (below x ↔ i < xs.countP (fun x => decide (below x)))
  | [], _, i, x, hx => absurd hx (by simp)
  | a :: xs, hs, i, x, hx => by
      obtain ⟨ha, hs'⟩ := List.pairwise_cons.mp hs
      by_cases hb : below a
      · rw [List.countP_cons_of_pos (by simpa using hb)]
        cases i with
        | zero =>
            obtain rfl := Option.some.inj hx
            exact ⟨fun _ => Nat.succ_pos _, fun _ => hb⟩
        | succ i =>
            rw [List.getElem?_cons_succ] at hx
            rw [sat_iff_lt_countP hdown hs' hx, Nat.succ_lt_succ_iff]
      · have hzero : (a :: xs).countP (fun x => decide (below x)) = 0 := by
          refine List.countP_eq_zero.mpr (fun y hy => ?_)
          rcases List.mem_cons.mp hy with rfl | hy
          · simpa using hb
          · simpa using fun hyb => hb (hdown a y (ha y hy) hyb)
        rw [hzero]
        refine ⟨fun hx' => ?_, fun h => absurd h (Nat.not_lt_zero _)⟩
        rcases List.mem_cons.mp (List.mem_of_getElem? hx) with rfl | hmem
        · exact absurd hx' hb
        · exact absurd (hdown a x (ha x hmem) hx') hb

namespace DataNode
variable {M P : Type} {n : DataNode M P}

/-- The key slots hold a non-decreasing list. -/
structure SortedKeys (n : DataNode M P) (xs : List ℤ) : Prop where
  slots : n.keySlots = xs.map some
  cap : n.dataCapacity = xs.length
  sorted : xs.Pairwise (· ≤ ·)

theorem SortedKeys.cut {xs : List ℤ} (h : n.SortedKeys xs) (below : ℤ → Prop) [DecidablePred below]
    (hdown : ∀ x y, x ≤ y → below y → below x) :
    Cut (fun i => (n.keyAt i).map (fun x => decide (below x))) n.dataCapacity
      (xs.countP (fun x => decide (below x))) := by
  refine ⟨h.cap ▸ List.countP_le_length, fun i hi => ?_⟩
  rw [h.cap] at hi
  have hkey : n.keyAt i = some xs[i] := by
    unfold Slots.keyAt
    rw [h.slots, List.getElem?_map, List.getElem?_eq_getElem hi]
    rfl
  have hiff := sat_iff_lt_countP hdown h.sorted (List.getElem?_eq_getElem hi)
  rw [hkey, Option.map_some, Option.some_inj, decide_eq_decide]
  exact hiff

/-- `exponential_search_upper_bound` with bounds of type `int`. -/
def exponentialSearchUpperBoundInt (n : DataNode M P) (m : ℕ) (key : ℚ) :
    Option (ℕ × DataNode M P) := do
  let (pos, iters) ← exponentialSearchInt
    (fun i => (n.keyAt i).map (fun x : ℤ => decide ((x : ℚ) ≤ key))) n.dataCapacity m
  some (pos, n.countIterations iters)

/-- `exponential_search_lower_bound` with bounds of type `int`. -/
def exponentialSearchLowerBoundInt (n : DataNode M P) (m : ℕ) (key : ℚ) :
    Option (ℕ × DataNode M P) := do
  let (pos, iters) ← exponentialSearchInt
    (fun i => (n.keyAt i).map (fun x : ℤ => decide ((x : ℚ) < key))) n.dataCapacity m
  some (pos, n.countIterations iters)

theorem SortedKeys.upper {xs : List ℤ} (h : n.SortedKeys xs) {m : ℕ} (hm : m < n.dataCapacity)
    (key : ℚ) : ∃ iters, n.exponentialSearchUpperBound m key =
      some (xs.countP (fun x : ℤ => decide ((x : ℚ) ≤ key)), n.countIterations iters) := by
  obtain ⟨iters, he⟩ := exponentialSearch_eq
    (h.cut (fun x => (x : ℚ) ≤ key) (fun x y hxy hy => le_trans (by exact_mod_cast hxy) hy)) hm
  refine ⟨iters, ?_⟩
  unfold exponentialSearchUpperBound
  rw [he]
  rfl

theorem SortedKeys.lower {xs : List ℤ} (h : n.SortedKeys xs) {m : ℕ} (hm : m < n.dataCapacity)
    (key : ℚ) : ∃ iters, n.exponentialSearchLowerBound m key =
      some (xs.countP (fun x : ℤ => decide ((x : ℚ) < key)), n.countIterations iters) := by
  obtain ⟨iters, he⟩ := exponentialSearch_eq
    (h.cut (fun x => (x : ℚ) < key)
      (fun x y hxy hy => lt_of_le_of_lt (by exact_mod_cast hxy) hy)) hm
  refine ⟨iters, ?_⟩
  unfold exponentialSearchLowerBound
  rw [he]
  rfl

/-- The searches with bounds of type `int` are the same in an array of at most `2 ^ 30` slots. -/
theorem searchInt_eq {m : ℕ} (hcap : n.dataCapacity ≤ 2 ^ 30) (hm : m < n.dataCapacity) (key : ℚ) :
    n.exponentialSearchUpperBoundInt m key = n.exponentialSearchUpperBound m key ∧
      n.exponentialSearchLowerBoundInt m key = n.exponentialSearchLowerBound m key := by
  unfold exponentialSearchUpperBoundInt exponentialSearchLowerBoundInt exponentialSearchUpperBound
    exponentialSearchLowerBound
  rw [exponentialSearchInt_eq _ hcap hm, exponentialSearchInt_eq _ hcap hm]
  exact ⟨rfl, rfl⟩

variable [NodeModel M] {T : KeyType}

/-- A pair with the key is stored. -/
def StoresKey (n : DataNode M P) (key : ℤ) : Prop := ∃ x ∈ n.pairs, x.1 = key

/-- `find_key`, `find_payload` and `update` find the pair with the key exactly if it is stored; a
locked node refuses the last two. -/
structure Finds (T : KeyType) (n : DataNode M P) (key : ℤ) : Prop where
  findKey : ∃ r n', n.findKey key = some (r, n') ∧ (r = none ↔ ¬ n.StoresKey key) ∧
    ∀ i, r = some i → n.Filled i ∧ n.keyAt i = some key
  findPayload : isSet n.lock = false → ∃ r n', n.findPayload key = some (some r, n') ∧
    (r = none ↔ ¬ n.StoresKey key) ∧ ∀ p, r = some p → (key, p) ∈ n.pairs
  update : isSet n.lock = false → ∀ payload, ∃ r n', n.update key payload = some (some r, n') ∧
    WellFormed T n' ∧ (r = false ↔ ¬ n.StoresKey key) ∧ (r = false → n'.pairs = n.pairs) ∧
    (r = true → ∃ A p B, n.pairs = A ++ (key, p) :: B ∧ n'.pairs = A ++ (key, payload) :: B)
  locked : isSet n.lock = true → n.findPayload key = some (none, n) ∧
    ∀ payload, n.update key payload = some (none, n)

omit [NodeModel M] in
theorem Holds.storesKey_iff {v : View P} {k : ℕ → ℤ} (h : Holds T n v k) (key : ℤ) :
    n.StoresKey key ↔ ∃ x ∈ v.entries, x.1 = key := by
  unfold StoresKey
  rw [h.pairs_eq]

theorem WellFormed.finds (h : WellFormed T n) {key : ℤ} (hkey : key < T.max) : Finds T n key where
  findKey := by
    have hh := h.holds
    obtain ⟨r, a, b, hf, hr⟩ := hh.findKey hkey
    refine ⟨r, _, hf, ?_, fun i hi => ?_⟩
    · rw [hh.storesKey_iff]
      rcases hr with ⟨rfl, hnone⟩ | ⟨i, rfl, hi, hb, hki, _⟩
      · exact ⟨fun _ ⟨x, hx, hxk⟩ => hnone x hx hxk, fun _ => rfl⟩
      · obtain ⟨p, _, hcell⟩ := hh.gapped.cell hi hb
        refine ⟨nofun, fun hno => absurd ⟨(key, p), ?_, rfl⟩ hno⟩
        exact View.mem_seg.mpr ⟨i, Nat.zero_le i, hi, by rw [← hki]; exact hcell⟩
    · rcases hr with ⟨rfl, _⟩ | ⟨j, rfl, hj, hb, hkj, _⟩
      · cases hi
      · obtain rfl := Option.some.inj hi
        exact ⟨hb, by rw [hh.keyAt hj, hkj]⟩
  findPayload := fun hl => by
    have hh := h.holds
    obtain ⟨r, a, b, hf, hsome, hnone⟩ := hh.findPayload hl hkey
    refine ⟨r, _, hf, ?_, fun p hp => by rw [hh.pairs_eq]; exact hsome p hp⟩
    rw [hh.storesKey_iff]
    constructor
    · rintro rfl ⟨x, hx, hxk⟩
      exact hnone rfl x hx hxk
    · intro hno
      cases r with
      | none => rfl
      | some p => exact absurd ⟨(key, p), hsome p rfl, rfl⟩ hno
  update := fun hl payload => by
    have hh := h.holds
    obtain ⟨r, n', v', hu, hh', _, _, _, _, _, hcases⟩ := hh.update hl hkey payload
    refine ⟨r, n', hu, hh'.wellFormed, ?_, fun hr => ?_, fun hr => ?_⟩
    · rw [hh.storesKey_iff]
      rcases hcases with ⟨rfl, _, hnone⟩ | ⟨rfl, A, p, B, hents, _⟩
      · exact ⟨fun _ ⟨x, hx, hxk⟩ => hnone x hx hxk, fun _ => rfl⟩
      · exact ⟨nofun, fun hno => absurd ⟨(key, p), by rw [hents]; simp, rfl⟩ hno⟩
    · rcases hcases with ⟨_, rfl, _⟩ | ⟨rfl, _⟩
      · rw [hh'.pairs_eq, hh.pairs_eq]
      · cases hr
    · rcases hcases with ⟨rfl, _⟩ | ⟨_, A, p, B, hents, hents'⟩
      · cases hr
      · exact ⟨A, p, B, by rw [hh.pairs_eq, hents], by rw [hh'.pairs_eq, hents']⟩
  locked := fun hl => by
    refine ⟨findPayload_locked hl key, fun payload => ?_⟩
    unfold DataNode.update
    rw [tryGetLock_locked hl]

/-- **Model-guided search is linear search**: on sorted key slots, from any start position, the
exponential searches end inside the array and count the slots up to the key and below it, and on a
well-formed node lookups and updates find exactly the stored keys below the end sentinel, whatever
the model predicts. -/
theorem search_exact (T : KeyType) :
    (∀ (n : DataNode M P) (xs : List ℤ) (m : ℕ) (key : ℚ), n.SortedKeys xs → m < n.dataCapacity →
      (∃ iters, n.exponentialSearchUpperBound m key =
        some (xs.countP (fun x : ℤ => decide ((x : ℚ) ≤ key)), n.countIterations iters)) ∧
      (∃ iters, n.exponentialSearchLowerBound m key =
        some (xs.countP (fun x : ℤ => decide ((x : ℚ) < key)), n.countIterations iters)) ∧
      (n.dataCapacity ≤ 2 ^ 30 →
        n.exponentialSearchUpperBoundInt m key = n.exponentialSearchUpperBound m key ∧
        n.exponentialSearchLowerBoundInt m key = n.exponentialSearchLowerBound m key)) ∧
      ∀ (n : DataNode M P) (key : ℤ), WellFormed T n → key < T.max → Finds T n key :=
  ⟨fun _ _ _ key h hm => ⟨h.upper hm key, h.lower hm key, fun hcap => searchInt_eq hcap hm key⟩,
    fun _ _ h hkey => h.finds hkey⟩

theorem search_exact_threeKeys : ∃ n, threeKeys = some n ∧
    (∃ iters, n.exponentialSearchUpperBound 3 2 =
      some ([1, 2, 3, 2 ^ 64 - 1].countP (fun x : ℤ => decide ((x : ℚ) ≤ 2)),
        n.countIterations iters)) ∧
    Finds KeyType.uint64 n 2 := by
  obtain ⟨n, hn, h⟩ := threeKeys_wellFormed
  have hread : threeKeys.map (fun n => (n.keySlots, n.dataCapacity)) =
      some ([some 1, some 2, some 3, some (2 ^ 64 - 1)], 4) := by decide +kernel
  rw [hn, Option.map_some] at hread
  obtain ⟨hslots, hcap⟩ := Prod.mk.inj (Option.some.inj hread)
  have hsearch := search_exact (M := LinearModel) (P := ℕ) KeyType.uint64
  exact ⟨n, hn, (hsearch.1 n [1, 2, 3, 2 ^ 64 - 1] 3 2 ⟨hslots, hcap, by decide⟩ (by omega)).1,
    hsearch.2 n 2 h (by decide)⟩

end DataNode

end LearnedIndex.Alexol
