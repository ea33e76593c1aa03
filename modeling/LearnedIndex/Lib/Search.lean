import Mathlib.Tactic

/-! # Doubling and binary search for a cut

Both searches look for the point where a sequence of answers turns from `true` to `false`.
The answers come from an oracle `below : ℕ → Option Bool`, where `none` is a read outside the
searched array, and `Cut below cap c` says that the oracle answers everywhere below `cap` and
that `c ≤ cap` is the turning point.

`exponentialSearch` doubles a bound away from a start position and finishes with
`binarySearch`; `exponentialSearch_eq` says that it finds the cut from every start position.
The loops carry fuel, and the lemmas give an amount that is always enough. -/

namespace LearnedIndex.Search

/-- The oracle answers on `[0, cap)` and turns from `true` to `false` at `c`. -/
structure Cut (below : ℕ → Option Bool) (cap c : ℕ) : Prop where
  le : c ≤ cap
  eq : ∀ i, i < cap → below i = some (decide (i < c))

/-- Binary search in `[l, r)`; `below mid` sends the search to the right half. -/
def binarySearch (below : ℕ → Option Bool) : ℕ → ℕ → ℕ → Option ℕ
  | 0, l, r => if l < r then none else some l
  | fuel + 1, l, r =>
      if l < r then do
        let mid := l + (r - l) / 2
        if ← below mid then binarySearch below fuel (mid + 1) r
        else binarySearch below fuel l mid
      else some l

/-- `while (bound < size && test bound) bound *= 2`, counting the iterations. -/
def doubleBound (size : ℕ) (test : ℕ → Option Bool) : ℕ → ℕ → ℕ → Option (ℕ × ℕ)
  | 0, bound, iters => if bound < size then none else some (bound, iters)
  | fuel + 1, bound, iters =>
      if bound < size then do
        if ← test bound then doubleBound size test fuel (bound * 2) (iters + 1)
        else some (bound, iters)
      else some (bound, iters)

/-- Doubling search from position `m`, then binary search: the cut and the number of
doublings. -/
def exponentialSearch (below : ℕ → Option Bool) (cap m : ℕ) : Option (ℕ × ℕ) := do
  if ← below m then
    let size := cap - m
    let (bound, iters) ← doubleBound size (fun b => below (m + b)) size 1 0
    let pos ← binarySearch below cap (m + bound / 2) (m + min bound size)
    some (pos, iters)
  else
    let size := m
    let (bound, iters) ← doubleBound size (fun b => (below (m - b)).map not) size 1 0
    let pos ← binarySearch below cap (m - min bound size) (m - bound / 2)
    some (pos, iters)

section cut
variable {below : ℕ → Option Bool} {cap c : ℕ}

theorem binarySearch_eq (hc : Cut below cap c) : ∀ (fuel l r : ℕ), l ≤ c → c ≤ r → r ≤ cap →
    r - l ≤ fuel → binarySearch below fuel l r = some c
  | 0, l, r, hl, hr, _, hf => by
      have h : ¬ l < r := by omega
      simp only [binarySearch, h, if_false]
      congr 1
      omega
  | fuel + 1, l, r, hl, hr, hcap, hf => by
      unfold binarySearch
      by_cases h : l < r
      · have hmid : l + (r - l) / 2 < cap := by omega
        simp only [h, if_true, hc.eq _ hmid, Option.bind_eq_bind, Option.bind_some]
        by_cases hb : l + (r - l) / 2 < c
        · simp only [hb, decide_true, if_true]
          exact binarySearch_eq hc fuel _ _ (by omega) hr hcap (by omega)
        · simp only [hb, decide_false, Bool.false_eq_true, if_false]
          exact binarySearch_eq hc fuel _ _ hl (by omega) (by omega) (by omega)
      · simp only [h, if_false]
        congr 1
        omega

/-- The doubling loop ends with a bound that has passed the size or failed the test, while half
of it (unless it is the first bound) passed both. -/
theorem doubleBound_spec {size : ℕ} {test : ℕ → Option Bool} {g : ℕ → Prop} [DecidablePred g]
    (ht : ∀ b, b < size → test b = some (decide (g b))) :
    ∀ (fuel bound iters : ℕ), size ≤ fuel + bound → 0 < bound →
      (bound = 1 ∨ (bound / 2 < size ∧ g (bound / 2))) →
      ∃ bound' iters', doubleBound size test fuel bound iters = some (bound', iters') ∧
        (size ≤ bound' ∨ ¬ g bound') ∧
        (bound' = 1 ∨ (bound' / 2 < size ∧ g (bound' / 2)))
  | 0, bound, iters, hf, hb, hinv => by
      have hs : ¬ bound < size := by omega
      simp only [doubleBound, hs, if_false]
      exact ⟨bound, iters, rfl, Or.inl (by omega), hinv⟩
  | fuel + 1, bound, iters, hf, hb, hinv => by
      unfold doubleBound
      by_cases hs : bound < size
      · simp only [hs, if_true, ht _ hs, Option.bind_eq_bind, Option.bind_some]
        by_cases hg : g bound
        · simp only [hg, decide_true, if_true]
          have he : bound * 2 / 2 = bound := by omega
          refine doubleBound_spec ht fuel (bound * 2) (iters + 1) (by omega) (by omega) (Or.inr ?_)
          rw [he]
          exact ⟨hs, hg⟩
        · simp only [hg, decide_false, Bool.false_eq_true, if_false]
          exact ⟨bound, iters, rfl, Or.inr hg, hinv⟩
      · simp only [hs, if_false]
        exact ⟨bound, iters, rfl, Or.inl (by omega), hinv⟩

/-- From every start position the search returns the cut. -/
theorem exponentialSearch_eq (hc : Cut below cap c) {m : ℕ} (hm : m < cap) :
    ∃ iters, exponentialSearch below cap m = some (c, iters) := by
  have hle := hc.le
  unfold exponentialSearch
  rw [hc.eq m hm]
  simp only [Option.bind_eq_bind, Option.bind_some]
  by_cases h : m < c
  · have ht : ∀ b, b < cap - m → below (m + b) = some (decide (m + b < c)) :=
      fun b hb => hc.eq _ (by omega)
    obtain ⟨bound, iters, he, hend, hhalf⟩ :=
      doubleBound_spec (g := fun b => m + b < c) ht (cap - m) 1 0 (by omega) (by omega)
        (Or.inl rfl)
    refine ⟨iters, ?_⟩
    simp only [h, decide_true, if_true, he, Option.bind_some]
    rw [binarySearch_eq hc cap _ _ (by omega) (by omega) (by omega) (by omega)]
    rfl
  · have ht : ∀ b, b < m → (below (m - b)).map not = some (decide (c ≤ m - b)) := by
      intro b hb
      rw [hc.eq _ (by omega), Option.map_some, ← decide_not]
      simp only [not_lt]
    obtain ⟨bound, iters, he, hend, hhalf⟩ :=
      doubleBound_spec (g := fun b => c ≤ m - b) ht m 1 0 (by omega) (by omega)
        (Or.inl rfl)
    refine ⟨iters, ?_⟩
    simp only [h, decide_false, Bool.false_eq_true, if_false, he, Option.bind_some]
    rw [binarySearch_eq hc cap _ _ (by omega) (by omega) (by omega) (by omega)]
    rfl

end cut

end LearnedIndex.Search
