import LearnedIndex.Alexol.WellFormed

/-! # Bounds over filled positions

`find_lower` and `find_upper` search the slots and go on to the next filled position.  The search
may end at `data_capacity_` itself, and the scan of the bitmap then starts at the word that would
hold that position: the last word when the capacity is not a multiple of 64, and otherwise a word
behind the bitmap. -/

namespace LearnedIndex.Alexol

open LearnedIndex.Words

/-! ### The next filled position from the capacity -/

/-- From the capacity there is nothing to find; the word read lies behind the bitmap exactly if
the capacity is a multiple of 64. -/
theorem Reps.getNextFilledPosition_cap {P : Type} {s : Slots P} {v : View P} (h : Reps s v) :
    s.getNextFilledPosition none v.cap false = if 64 ∣ v.cap then none else some v.cap := by
  have hsize := h.size
  unfold Slots.getNextFilledPosition
  simp only [Bool.false_eq_true, false_and, if_false, Reps.shift_div, Reps.shift_mod]
  by_cases hd : 64 ∣ v.cap
  · have hword : s.wordAt none (v.cap / 64) = none := by
      unfold Slots.wordAt
      rw [if_pos (by omega)]
    rw [if_pos hd, hword]
    rfl
  · have hidx : v.cap / 64 < s.bitmapSize := by omega
    obtain ⟨w, hw, _⟩ := h.getElem_bitmap hidx
    have hword : s.wordAt none (v.cap / 64) = some w := by
      unfold Slots.wordAt
      rw [if_neg (by omega)]
      exact hw
    rw [if_neg hd, hword, Option.bind_eq_bind, Option.bind_some]
    have hpend := h.pending_mask hidx hw
    rcases h.scanWords_spec s.bitmapSize _ _ hidx (by omega) hpend (fun i h1 h2 => by omega) with
      ⟨he, _⟩ | ⟨idx, data, he, _, hdata, hpend', hbefore⟩
    · rw [he]
      exact congrArg some h.cap
    · -- no bit at or beyond the capacity is set
      obtain ⟨j, _, hj, hb, _⟩ := pending_first hpend' hdata hbefore
      rw [h.clear j hj] at hb
      cases hb

namespace DataNode

variable {M P : Type} {T : KeyType} {n : DataNode M P} {v : View P} {k : ℕ → ℤ}

/-- The smallest filled position whose key passes the test, or the capacity if there is none. -/
structure FirstFilled (n : DataNode M P) (test : ℤ → Prop) (pos : ℕ) : Prop where
  le : pos ≤ n.dataCapacity
  filled : pos < n.dataCapacity → n.Filled pos ∧ ∃ x, n.keyAt pos = some x ∧ test x
  least : ∀ i x, i < pos → n.Filled i → n.keyAt i = some x → ¬ test x

theorem Holds.firstFilled (h : Holds T n v k) {below : ℤ → Prop} {c j : ℕ}
    (hc : v.CutAt k below c) (hcj : c ≤ j) (hj : j ≤ v.cap) (hb : j < v.cap → v.bit j = true)
    (hgap : ∀ i, c ≤ i → i < j → v.bit i = false) : n.FirstFilled (fun x => ¬ below x) j := by
  have hcap := h.reps.cap
  refine ⟨by omega, fun hlt => ?_, fun i x hi hf hx => ?_⟩
  · have hlt' : j < v.cap := by omega
    exact ⟨(h.filled_iff j).mpr (hb hlt'), k j, h.keyAt hlt', hc.ge j hcj hlt'⟩
  · have hbit := (h.filled_iff i).mp hf
    rw [h.keyAt (by omega)] at hx
    rcases Nat.lt_or_ge i c with hic | hic
    · rw [← Option.some.inj hx]
      exact not_not.mpr (hc.lt i hic)
    · rw [hgap i hic hi] at hbit
      cases hbit

/-- The scan after a search: right, unless the search ended at a capacity that is a multiple of
64. -/
theorem Holds.nextFilled (h : Holds T n v k) {below : ℤ → Prop} {c : ℕ}
    (hc : v.CutAt k below c) :
    (c = v.cap ∧ 64 ∣ v.cap ∧ n.getNextFilledPosition none c false = none) ∨
      (¬ (c = v.cap ∧ 64 ∣ v.cap) ∧ ∃ j, n.getNextFilledPosition none c false = some j ∧
        n.FirstFilled (fun x => ¬ below x) j) := by
  rcases Nat.lt_or_ge c v.cap with hlt | hge
  · obtain ⟨j, he, hcj, hj, hb, hgap⟩ :=
      h.reps.getNextFilledPosition_spec none
        (show (if false then c + 1 else c) < v.cap from hlt)
    exact Or.inr ⟨by omega, j, he, h.firstFilled hc hcj hj hb hgap⟩
  · obtain rfl : c = v.cap := le_antisymm hc.le hge
    have he := h.reps.getNextFilledPosition_cap
    by_cases hd : 64 ∣ v.cap
    · rw [if_pos hd] at he
      exact Or.inl ⟨rfl, hd, he⟩
    · rw [if_neg hd] at he
      refine Or.inr ⟨by tauto, _, he, h.firstFilled hc (le_refl _) (le_refl _) ?_ ?_⟩
      · exact fun hlt => absurd hlt (lt_irrefl _)
      · exact fun i h1 h2 => absurd h2 (by omega)

/-- A cut lies at the capacity exactly if the last slot is below it. -/
theorem Holds.cut_eq_cap (h : Holds T n v k) {below : ℤ → Prop} {c : ℕ}
    (hc : v.CutAt k below c) : c = v.cap ↔ below (k (v.cap - 1)) := by
  have hpos := h.reps.pos
  have hle := hc.le
  constructor
  · rintro rfl
    exact hc.lt _ (by omega)
  · intro hb
    by_contra hne
    exact hc.ge (v.cap - 1) (by omega) (by omega) hb

/-- What a bound over filled positions gives after the search has ended at the cut `c`. -/
theorem Holds.scanFrom (h : Holds T n v k) {below : ℤ → Prop} {c : ℕ} (hc : v.CutAt k below c)
    (a b : ℕ) :
    (64 ∣ v.cap ∧ below (k (v.cap - 1)) ∧
        ((n.withCounters a b).getNextFilledPosition none c false).bind
          (fun pos => some (pos, n.withCounters a b)) = none) ∨
      (¬ (64 ∣ v.cap ∧ below (k (v.cap - 1))) ∧ ∃ pos n',
        ((n.withCounters a b).getNextFilledPosition none c false).bind
          (fun pos => some (pos, n.withCounters a b)) = some (pos, n') ∧
        n.FirstFilled (fun x => ¬ below x) pos) := by
  have hend := h.cut_eq_cap hc
  have hs : (n.withCounters a b).toSlots = n.toSlots := rfl
  rw [hs]
  rcases h.nextFilled hc with ⟨h1, h2, h3⟩ | ⟨h1, j, h2, h3⟩
  · exact Or.inl ⟨h2, hend.mp h1, by rw [h3, Option.bind_none]⟩
  · refine Or.inr ⟨fun hcon => h1 ⟨hend.mpr hcon.2, hcon.1⟩, j, n.withCounters a b, ?_, h3⟩
    rw [h2, Option.bind_some]

variable [NodeModel M]

theorem Holds.findLower (h : Holds T n v k) (key : ℤ) :
    (64 ∣ v.cap ∧ k (v.cap - 1) < key ∧ n.findLower none key = none) ∨
      (¬ (64 ∣ v.cap ∧ k (v.cap - 1) < key) ∧ ∃ pos n', n.findLower none key = some (pos, n') ∧
        n.FirstFilled (key ≤ ·) pos) := by
  obtain ⟨c, hcq⟩ := h.exists_lower key
  obtain ⟨a, b, he⟩ := h.lowerBound hcq
  unfold DataNode.findLower
  rw [he, Option.bind_eq_bind, Option.bind_some]
  have hscan := h.scanFrom hcq a b
  simp only [not_lt, Int.cast_lt] at hscan ⊢
  exact hscan

theorem Holds.findUpper (h : Holds T n v k) (key : ℤ) :
    (64 ∣ v.cap ∧ k (v.cap - 1) ≤ key ∧ n.findUpper none key = none) ∨
      (¬ (64 ∣ v.cap ∧ k (v.cap - 1) ≤ key) ∧ ∃ pos n', n.findUpper none key = some (pos, n') ∧
        n.FirstFilled (key < ·) pos) := by
  obtain ⟨c, hcq⟩ := h.exists_upper key
  obtain ⟨a, b, he⟩ := h.upperBound hcq
  unfold DataNode.findUpper
  rw [he, Option.bind_eq_bind, Option.bind_some]
  have hscan := h.scanFrom hcq a b
  simp only [not_le, Int.cast_le] at hscan ⊢
  exact hscan

/-- `find_lower` and `find_upper` find the right filled positions without reading behind the
bitmap exactly if the capacity is not a multiple of 64 or the last slot holds a larger key. -/
theorem findBounds_iff (h : WellFormed T n) (key : ℤ) :
    ((∃ pos n', n.findLower none key = some (pos, n') ∧ n.FirstFilled (key ≤ ·) pos) ∧
      ∃ pos n', n.findUpper none key = some (pos, n') ∧ n.FirstFilled (key < ·) pos) ↔
      ¬ 64 ∣ n.dataCapacity ∨ ∃ x, n.keyAt (n.dataCapacity - 1) = some x ∧ key < x := by
  have hh := h.holds
  have hlast : n.keyAt (n.dataCapacity - 1) = some (n.keyFrom T (n.dataCapacity - 1)) :=
    h.keyAt (Nat.sub_lt h.pos Nat.one_pos)
  have hlow := hh.findLower key
  have hup := hh.findUpper key
  have hcap : n.view.cap = n.dataCapacity := rfl
  rw [hcap] at hlow hup
  constructor
  · rintro ⟨_, pos, n', he, _⟩
    rcases hup with ⟨_, _, hnone⟩ | ⟨hcond, _⟩
    · rw [hnone] at he
      cases he
    · by_cases hd : 64 ∣ n.dataCapacity
      · exact Or.inr ⟨_, hlast, not_le.mp (fun hle => hcond ⟨hd, hle⟩)⟩
      · exact Or.inl hd
  · intro hcond
    have hne : ¬ (64 ∣ n.dataCapacity ∧ n.keyFrom T (n.dataCapacity - 1) ≤ key) := by
      rintro ⟨hd, hle⟩
      rcases hcond with hcond | ⟨x, hx, hlt⟩
      · exact hcond hd
      · rw [hlast] at hx
        have := Option.some.inj hx
        omega
    constructor
    · rcases hlow with ⟨hd, hlt, _⟩ | ⟨_, hfound⟩
      · exact absurd ⟨hd, hlt.le⟩ hne
      · exact hfound
    · rcases hup with ⟨hd, hle, _⟩ | ⟨_, hfound⟩
      · exact absurd ⟨hd, hle⟩ hne
      · exact hfound

theorem findBounds_threeKeys : ∃ n, threeKeys = some n ∧
    (∃ pos n', n.findLower none 2 = some (pos, n') ∧ n.FirstFilled (2 ≤ ·) pos) ∧
    ∃ pos n', n.findUpper none 2 = some (pos, n') ∧ n.FirstFilled (2 < ·) pos := by
  obtain ⟨n, hn, h⟩ := threeKeys_wellFormed
  have hcap : threeKeys.map (fun n => n.dataCapacity) = some 4 := by decide +kernel
  rw [hn, Option.map_some] at hcap
  have hcap := Option.some.inj hcap
  exact ⟨n, hn, (findBounds_iff h 2).mpr (Or.inl (by omega))⟩

/-! ### A node whose last slot is filled -/

/-- The node that `bulk_load` makes of the keys from 0 to 44, after the insert of 100. -/
def fullToTheRight : Option (DataNode LinearModel ℕ) := do
  let n ← (DataNode.new KeyType.uint64 0 100).bulkLoad KeyType.uint64
    ((List.range 45).map (fun i : ℕ => ((i : ℤ), i))) none false
  let r ← n.insert false 100 0
  some r.1

/-- The claimed bounds fail on a node of capacity 64: above its keys `find_lower` and `find_upper`
read behind the bitmap. -/
theorem findBounds_reads_behind_bitmap : ∃ n : DataNode LinearModel ℕ,
    WellFormed KeyType.uint64 n ∧ n.dataCapacity = 64 ∧ n.bitmapSize = 1 ∧
      n.findLower none 200 = none ∧ n.findUpper none 200 = none := by
  obtain ⟨n, hn⟩ : ∃ n, fullToTheRight = some n :=
    Option.isSome_iff_exists.mp (by decide +kernel)
  have hread : fullToTheRight.map (fun n => (n.dataCapacity, n.bitmapSize,
      (n.findLower none 200).isNone, (n.findUpper none 200).isNone)) =
      some (64, 1, true, true) := by decide +kernel
  rw [hn, Option.map_some] at hread
  have hread := Option.some.inj hread
  simp only [Prod.mk.injEq, Option.isNone_iff_eq_none] at hread
  unfold fullToTheRight at hn
  obtain ⟨n₁, h₁, hn⟩ := Option.bind_eq_some_iff.mp hn
  obtain ⟨r, h₂, hn⟩ := Option.bind_eq_some_iff.mp hn
  obtain rfl := Option.some.inj hn
  have hload : Reachable KeyType.uint64 false n₁ :=
    Reachable.bulkLoad (by decide) (by decide) h₁
  have hkey : Admissible KeyType.uint64 n₁ (.insert 100 0) :=
    (by decide : (100 : ℤ) < KeyType.uint64.max)
  have hins : n₁.apply KeyType.uint64 false (.insert 100 0) = some r.1 :=
    (congrArg (Option.map Prod.fst) h₂ :)
  have hreach : Reachable KeyType.uint64 false r.1 := Reachable.apply hload hkey hins
  exact ⟨r.1, hreach.wellFormed, hread.1, hread.2.1, hread.2.2.1, hread.2.2.2⟩

end DataNode

end LearnedIndex.Alexol
