import Mathlib.Data.List.Sort
import Mathlib.Order.Basic
import Mathlib.Tactic

/-! # `scan` of the adapters

`BTreeInterface`, `alexInterface`, `pgmInterface` and `HotInterface` each wrap a container and walk
its iterator in their `scan`.  Of a container only its iterator is used, which visits the stored
pairs from `lower_bound` on (`Container`).

Three of the loops are the same but for the type of their counter.  `BTreeInterface::scan` counts
the pair it starts at before it has room for one, and writes nothing. -/

namespace LearnedIndex.Benchmark

variable {K V : Type} [LinearOrder K]

/-- The stored pairs of a map. -/
structure StoredMap (K V : Type) [LinearOrder K] where
  pairs : List (K × V)
  increasing : (pairs.map Prod.fst).Pairwise (· < ·)

/-- The stored pairs whose key is at least `k`. -/
def StoredMap.atLeast (m : StoredMap K V) (k : K) : List (K × V) :=
  m.pairs.filter (fun e => k ≤ e.1)

/-- An iterator: the test for the end, the pair under it, and `++`.  The pair is `none` where there
is nothing to read. -/
structure Iter (ι K V : Type) where
  isEnd : ι → Bool
  value : ι → Option (K × V)
  next : ι → ι

/-- From `it` on the iterator visits the pairs `l`, and then it is at the end. -/
def Iter.Visits {ι : Type} (I : Iter ι K V) : ι → List (K × V) → Prop
  | it, [] => I.isEnd it = true
  | it, e :: l => I.isEnd it = false ∧ I.value it = some e ∧ I.Visits (I.next it) l

/-- A container that stores a map. -/
structure Container (m : StoredMap K V) where
  ι : Type
  iter : Iter ι K V
  lowerBound : K → ι
  visits : ∀ k, iter.Visits (lowerBound k) (m.atLeast k)

/-- The array `result` of the caller. -/
abbrev ResultArray (K V : Type) : Type := ℕ → K × V

/-- `for (; size < key_num && !end; size++) { result[size] = *iter; ++iter; }` with `left` places to
go, for a counter that must stay below `limit`. -/
def forwardScan {ι : Type} (I : Iter ι K V) (limit : ℕ) :
    ℕ → ι → ℕ → ResultArray K V → Option (ℕ × ResultArray K V)
  | 0, _, size, result => some (size, result)
  | left + 1, it, size, result =>
      if I.isEnd it then some (size, result)
      else do
        let e ← I.value it
        if size + 1 < limit then
          forwardScan I limit left (I.next it) (size + 1) (Function.update result size e)
        else none

/-- The loop of `BTreeInterface::scan` with `left` iterations to go. -/
def countLoop {ι : Type} (I : Iter ι K V) : ℕ → ι → ℕ → ℕ
  | 0, _, sum => sum
  | left + 1, it, sum =>
      if I.isEnd (I.next it) then sum + 1 else countLoop I left (I.next it) (sum + 1)

namespace Container
variable {m : StoredMap K V} (c : Container m) (keyLowBound : K) (keyNum : ℕ)
  (result : ResultArray K V)

/-- `alexInterface::scan`; `scan_size` is an `int`. -/
def alexScan : Option (ℕ × ResultArray K V) :=
  forwardScan c.iter (2 ^ 31) keyNum (c.lowerBound keyLowBound) 0 result

/-- `pgmInterface::scan`; `scan_size` is an `int`. -/
def pgmScan : Option (ℕ × ResultArray K V) :=
  forwardScan c.iter (2 ^ 31) keyNum (c.lowerBound keyLowBound) 0 result

/-- `HotInterface::scan`; `num` is a `size_t`. -/
def hotScan : Option (ℕ × ResultArray K V) :=
  forwardScan c.iter (2 ^ 64) keyNum (c.lowerBound keyLowBound) 0 result

/-- `BTreeInterface::scan`; the sum of the values is not used. -/
def btreeScan : Option (ℕ × ResultArray K V) :=
  if c.iter.isEnd (c.lowerBound keyLowBound) then some (0, result)
  else some (countLoop c.iter keyNum (c.lowerBound keyLowBound) 1, result)

end Container

/-! ### The loops -/

section loops
variable {ι : Type} {I : Iter ι K V} {limit : ℕ}

omit [LinearOrder K] in
/-- The loop writes the pairs that it visits, and nothing else.  The induction is over the places
that are left. -/
theorem forwardScan_spec : ∀ (left : ℕ) (it : ι) (size : ℕ) (result : ResultArray K V)
    {l : List (K × V)}, I.Visits it l → size + min left l.length < limit →
    ∃ result', forwardScan I limit left it size result = some (size + min left l.length, result') ∧
      (∀ i < min left l.length, l[i]? = some (result' (size + i))) ∧
      ∀ i, i < size ∨ size + min left l.length ≤ i → result' i = result i
  | 0, it, size, result, l, _, _ => ⟨result, by simp [forwardScan], by simp, fun _ _ => rfl⟩
  | left + 1, it, size, result, [], hv, _ => by
      have hend : I.isEnd it = true := hv
      exact ⟨result, by simp [forwardScan, hend], by simp, fun _ _ => rfl⟩
  | left + 1, it, size, result, e :: l, hv, hlimit => by
      obtain ⟨hend, hvalue, hnext⟩ := hv
      rw [List.length_cons, Nat.add_min_add_right] at hlimit ⊢
      obtain ⟨result', hscan, hwritten, hkept⟩ :=
        forwardScan_spec left (I.next it) (size + 1) (Function.update result size e)
          hnext (by omega)
      refine ⟨result', ?_, fun i hi => ?_, fun i hi => ?_⟩
      · simp only [forwardScan, hend, Bool.false_eq_true, if_false, hvalue, Option.bind_eq_bind,
          Option.bind_some]
        rw [if_pos (by omega), hscan, Nat.add_right_comm, Nat.add_assoc]
      · cases i with
        | zero => rw [Nat.add_zero, hkept size (by omega), Function.update_self]; rfl
        | succ i =>
            rw [List.getElem?_cons_succ, hwritten i (by omega)]
            congr 2
            omega
      · rw [hkept i (by omega), Function.update_of_ne (by omega)]

omit [LinearOrder K] in
/-- The loop counts one pair more than there are, or than were asked for. -/
theorem countLoop_eq : ∀ (left : ℕ) (it : ι) (sum : ℕ) {e : K × V} {l : List (K × V)},
    I.Visits it (e :: l) → countLoop I left it sum = sum + min left (l.length + 1)
  | 0, _, _, _, _, _ => by simp [countLoop]
  | left + 1, it, sum, e, [], hv => by
      have hend : I.isEnd (I.next it) = true := hv.2.2
      simp [countLoop, hend]
  | left + 1, it, sum, e, e' :: l, hv => by
      have hend : I.isEnd (I.next it) = false := hv.2.2.1
      rw [countLoop, hend, if_neg (by simp), countLoop_eq left _ _ hv.2.2, List.length_cons]
      omega

end loops

/-! ### The adapters -/

/-- The answer of a scan: as many pairs as there are from `k` on or as were asked for, in order. -/
def Answers (m : StoredMap K V) (k : K) (keyNum : ℕ) (out : Option (ℕ × ResultArray K V)) : Prop :=
  ∃ num result', out = some (num, result') ∧ num = min keyNum (m.pairs.countP (fun e => k ≤ e.1)) ∧
    ∀ i < num, (m.atLeast k)[i]? = some (result' i)

section answers
variable {m : StoredMap K V} (c : Container m) (k : K) (keyNum : ℕ) (result : ResultArray K V)

theorem StoredMap.length_atLeast (m : StoredMap K V) (k : K) :
    (m.atLeast k).length = m.pairs.countP (fun e => k ≤ e.1) := List.countP_eq_length_filter.symm

/-- The common loop answers, as long as its counter does not overflow. -/
theorem forwardScan_answers {limit : ℕ}
    (h : min keyNum (m.pairs.countP (fun e => k ≤ e.1)) < limit) :
    Answers m k keyNum (forwardScan c.iter limit keyNum (c.lowerBound k) 0 result) := by
  rw [← m.length_atLeast k] at h
  have hlimit : 0 + min keyNum (m.atLeast k).length < limit := by rwa [Nat.zero_add]
  obtain ⟨result', hscan, hwritten, -⟩ :=
    forwardScan_spec keyNum (c.lowerBound k) 0 result (c.visits k) hlimit
  rw [Nat.zero_add] at hscan
  refine ⟨_, result', hscan, by rw [← m.length_atLeast], fun i hi => ?_⟩
  rw [hwritten i hi, Nat.zero_add]

/-- `BTreeInterface::scan` counts one pair too many, unless there is none. -/
theorem btreeScan_answers_iff :
    Answers m k keyNum (c.btreeScan k keyNum result) ↔ ∀ e ∈ m.pairs, e.1 < k := by
  have hnone : (m.atLeast k) = [] ↔ ∀ e ∈ m.pairs, e.1 < k := by
    unfold StoredMap.atLeast
    rw [List.filter_eq_nil_iff]
    simp
  have hvisits := c.visits k
  rw [← hnone]
  unfold Container.btreeScan Answers
  rw [← m.length_atLeast k]
  cases hl : m.atLeast k with
  | nil =>
      rw [hl] at hvisits
      have hend : c.iter.isEnd (c.lowerBound k) = true := hvisits
      rw [if_pos hend]
      exact ⟨fun _ => rfl, fun _ => ⟨0, result, rfl, by simp, by simp⟩⟩
  | cons e l =>
      rw [hl] at hvisits
      have hend : c.iter.isEnd (c.lowerBound k) = false := hvisits.1
      rw [hend, if_neg (by simp), countLoop_eq keyNum _ _ hvisits, List.length_cons]
      refine ⟨?_, nofun⟩
      rintro ⟨num, result', hout, hnum, -⟩
      obtain ⟨rfl, -⟩ := Prod.mk.inj (Option.some.inj hout)
      omega

end answers

/-- All adapters answer, so that they return the same number and write the same pairs. -/
def ScansAgree {m : StoredMap K V} (btree alex pgm hot : Container m) (k : K) (keyNum : ℕ)
    (result : ResultArray K V) : Prop :=
  Answers m k keyNum (btree.btreeScan k keyNum result) ∧
    Answers m k keyNum (alex.alexScan k keyNum result) ∧
    Answers m k keyNum (pgm.pgmScan k keyNum result) ∧
    Answers m k keyNum (hot.hotScan k keyNum result)

/-- **When the adapters agree on `scan`**: only where nothing is stored from the key on. -/
theorem scansAgree_iff {m : StoredMap K V} (btree alex pgm hot : Container m) (k : K) (keyNum : ℕ)
    (result : ResultArray K V) :
    ScansAgree btree alex pgm hot k keyNum result ↔ ∀ e ∈ m.pairs, e.1 < k := by
  constructor
  · intro h
    exact (btreeScan_answers_iff btree k keyNum result).mp h.1
  · intro h
    have hcount : m.pairs.countP (fun e => k ≤ e.1) = 0 :=
      List.countP_eq_zero.mpr (fun e he => by simpa using h e he)
    have hzero : ∀ limit : ℕ, 0 < limit →
        min keyNum (m.pairs.countP (fun e => k ≤ e.1)) < limit := by
      intro limit hlimit
      rw [hcount, Nat.min_zero]
      exact hlimit
    exact ⟨(btreeScan_answers_iff btree k keyNum result).mpr h,
      forwardScan_answers alex k keyNum result (hzero _ (by norm_num)),
      forwardScan_answers pgm k keyNum result (hzero _ (by norm_num)),
      forwardScan_answers hot k keyNum result (hzero _ (by norm_num))⟩

/-- The iterator of a list of pairs is what is left of it. -/
def listIter : Iter (List (K × V)) K V where
  isEnd := List.isEmpty
  value := List.head?
  next := List.tail

omit [LinearOrder K] in
theorem listIter_visits : ∀ l : List (K × V), (listIter (K := K)).Visits l l
  | [] => rfl
  | _ :: l => ⟨rfl, rfl, listIter_visits l⟩

/-- A sorted list of pairs as a container. -/
def listContainer (m : StoredMap K V) : Container m where
  ι := List (K × V)
  iter := listIter
  lowerBound := m.atLeast
  visits := fun k => listIter_visits (m.atLeast k)

/-- With one stored pair `BTreeInterface::scan` returns 2 for `key_num` 1. -/
theorem not_scansAgree : ¬ ∀ (m : StoredMap ℕ ℕ) (btree alex pgm hot : Container m) (k keyNum : ℕ)
    (result : ResultArray ℕ ℕ), ScansAgree btree alex pgm hot k keyNum result := by
  intro h
  obtain ⟨m, hm⟩ : ∃ m : StoredMap ℕ ℕ, m = ⟨[(1, 10)], by simp⟩ := ⟨_, rfl⟩
  obtain ⟨⟨num, result', hout, hnum, -⟩, -⟩ := h m (listContainer m) (listContainer m)
    (listContainer m) (listContainer m) 1 1 (fun _ => (0, 0))
  subst hm
  have hnum₂ : 2 = num := congrArg Prod.fst (Option.some.inj hout)
  rw [← hnum₂] at hnum
  exact absurd hnum (by decide)

end LearnedIndex.Benchmark
