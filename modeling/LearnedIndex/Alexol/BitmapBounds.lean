import LearnedIndex.Alexol.LeafParts
import LearnedIndex.Alexol.FilledBounds

/-! # Ranges of the bitmap

`num_keys_in_range` and the data-node iterator start at the word that holds `left`.  With `left` at
a capacity that is a multiple of 64 there is no such word: `num_keys_in_range` looks behind the
bitmap in its branch for a range within one word, although it does not in the other one, and so does
the iterator.  Everywhere else both stay inside (`ranges_iff`). -/

namespace LearnedIndex.Alexol

open LearnedIndex.Words

namespace Slots
variable {P : Type} {s : Slots P} {left right : ℕ}

/-- What lies behind the bitmap matters only to who looks at the word there. -/
theorem wordAt_of_ne {idx : ℕ} (h : idx ≠ s.bitmapSize) (past : Option Word) :
    s.wordAt past idx = s.wordAt none idx := by
  unfold wordAt
  rw [if_neg h, if_neg h]

theorem numKeysInRange_of_ne (h : left / 64 ≠ s.bitmapSize) (past : Option Word) :
    s.numKeysInRange past left right = s.numKeysInRange none left right := by
  unfold numKeysInRange
  simp only [Reps.shift_div, wordAt_of_ne h past]

theorem numKeysInRange_behind (hl : left / 64 = s.bitmapSize) (hr : right / 64 = s.bitmapSize) :
    s.numKeysInRange none left right = none := by
  unfold numKeysInRange
  simp only [Reps.shift_div, hl, hr, wordAt, if_true, Option.bind_eq_bind, Option.bind_none]

theorem positionsFrom_behind (hl : left / 64 = s.bitmapSize) : s.positionsFrom none
    left = none := by
  unfold positionsFrom Iter.init
  simp only [Reps.shift_div, hl, wordAt, if_true, Option.bind_eq_bind, Option.bind_none]

end Slots

namespace Reps
variable {P : Type} {s : Slots P} {v : View P}

theorem div_ne_size (h : Reps s v) {left : ℕ} (hle : left ≤ v.cap)
    (hin : left < v.cap ∨ ¬ 64 ∣ v.cap) : left / 64 ≠ s.bitmapSize := by
  have hsize := h.size
  omega

theorem div_eq_size (h : Reps s v) {left : ℕ} (hle : left ≤ v.cap)
    (hin : ¬ (left < v.cap ∨ ¬ 64 ∣ v.cap)) : left = v.cap ∧ left / 64 = s.bitmapSize := by
  have hsize := h.size
  omega

/-- From the capacity on there is nothing to visit. -/
theorem positionsFrom_last_word (h : Reps s v) (hcap : ¬ 64 ∣ v.cap) :
    s.positionsFrom none v.cap = some [] := by
  have hne := h.div_ne_size le_rfl (Or.inr hcap)
  have hsize := h.size
  have hidx : v.cap / 64 < s.bitmapSize := by omega
  obtain ⟨w, hw, _⟩ := h.getElem_bitmap hidx
  have hword : s.wordAt none (v.cap / 64) = some w := by
    unfold Slots.wordAt
    rw [if_neg hne]
    exact hw
  obtain ⟨it, hnext, hcase⟩ := h.iter_next_spec
    ⟨some v.cap, v.cap / 64, w &&& ~~~((1#64 <<< (v.cap % 64)) - 1#64)⟩ hidx
    (h.pending_mask hidx hw) (fun i h1 h2 => by simp only at h2; omega)
  unfold Slots.positionsFrom Slots.Iter.init
  simp only [shift_div, shift_mod, hword, Option.bind_eq_bind, Option.bind_some, hnext]
  rcases hcase with ⟨hend, _⟩ | ⟨j, _, hj, hb, _⟩
  · unfold Slots.Iter.positions
    simp [hend]
  · rw [h.clear j hj] at hb
    cases hb

theorem numKeysInRange_inside (h : Reps s v) {left right : ℕ} (hlr : left ≤ right)
    (hr : right ≤ v.cap) (hin : left < v.cap ∨ ¬ 64 ∣ v.cap) :
    s.numKeysInRange none left right = some (filledIn v left right) := by
  rw [← Slots.numKeysInRange_of_ne (h.div_ne_size (hlr.trans hr) hin) (some 0#64)]
  exact h.numKeysInRange 0#64 hlr hr

theorem positionsFrom_inside (h : Reps s v) {left : ℕ} (hle : left ≤ v.cap)
    (hin : left < v.cap ∨ ¬ 64 ∣ v.cap) : s.positionsFrom none left = some (v.filledFrom left) := by
  rcases Nat.lt_or_ge left v.cap with hlt | hge
  · exact h.positionsFrom_eq none hlt
  · obtain rfl : left = v.cap := le_antisymm hle hge
    rw [h.positionsFrom_last_word (hin.resolve_left (lt_irrefl _)), View.filledFrom_of_ge le_rfl]

theorem filledIn_eq_countP (v : View P) (lo hi : ℕ) :
    filledIn v lo hi = (List.range' lo (hi - lo)).countP v.bit := by
  unfold filledIn
  rw [Nat.count_eq_card_filter_range, List.range'_eq_map_range, List.countP_map]
  have hset : (Finset.range (hi - lo)).filter (fun i => v.bit (lo + i) = true) =
      ((List.range (hi - lo)).filter (v.bit ∘ fun i => lo + i)).toFinset := by
    ext i
    simp
  rw [hset, List.toFinset_card_of_nodup (List.nodup_range.filter _), List.countP_eq_length_filter]

end Reps

namespace DataNode
variable {M P : Type} {T : KeyType} {n : DataNode M P}

/-- The filled positions of `[lo, hi)`, in increasing order. -/
def filledBetween (n : DataNode M P) (lo hi : ℕ) : List ℕ :=
  (List.range' lo (hi - lo)).filter (fun i => n.Filled i)

theorem filledBetween_eq (n : DataNode M P) (lo hi : ℕ) :
    n.filledBetween lo hi = (List.range' lo (hi - lo)).filter n.view.bit := by
  unfold filledBetween
  congr 1
  funext i
  exact Bool.decide_coe _

/-- **Counting and iterating stay inside the bitmap** and give the filled positions, unless they
start at the capacity and the capacity is a multiple of 64. -/
theorem ranges_iff (h : WellFormed T n) {left right : ℕ} (hlr : left ≤ right)
    (hr : right ≤ n.dataCapacity) :
    (n.numKeysInRange none left right = some (n.filledBetween left right).length ∧
      n.positionsFrom none left = some (n.filledBetween left n.dataCapacity)) ↔
      left < n.dataCapacity ∨ ¬ 64 ∣ n.dataCapacity := by
  have hreps := h.reps
  constructor
  · rintro ⟨-, hpos⟩
    by_contra hin
    obtain ⟨-, hbehind⟩ := hreps.div_eq_size (hlr.trans hr) hin
    rw [Slots.positionsFrom_behind hbehind] at hpos
    cases hpos
  · intro hin
    constructor
    · rw [hreps.numKeysInRange_inside hlr hr hin, Reps.filledIn_eq_countP,
        List.countP_eq_length_filter, filledBetween_eq]
    · rw [hreps.positionsFrom_inside (hlr.trans hr) hin, filledBetween_eq]
      rfl

theorem ranges_threeKeys : ∃ n, threeKeys = some n ∧
    n.numKeysInRange none 1 4 = some (n.filledBetween 1 4).length ∧
      n.positionsFrom none 1 = some (n.filledBetween 1 n.dataCapacity) := by
  obtain ⟨n, hn, h⟩ := threeKeys_wellFormed
  have hcap : threeKeys.map (fun n => n.dataCapacity) = some 4 := by decide +kernel
  rw [hn, Option.map_some] at hcap
  have hcap := Option.some.inj hcap
  exact ⟨n, hn, (ranges_iff h (show 1 ≤ 4 by decide) hcap.ge).mpr (Or.inl (by omega))⟩

/-- The node that `bulk_load` makes of the keys from 0 to 44. -/
def loadedNode : Option (DataNode LinearModel ℕ) :=
  (DataNode.new KeyType.uint64 0 100).bulkLoad KeyType.uint64
    ((List.range 45).map (fun i : ℕ => ((i : ℤ), i))) none false

/-- It has 64 slots, and at their end `num_keys_in_range` and the iterator both read the word behind
its only one. -/
theorem ranges_read_behind_bitmap : ∃ n : DataNode LinearModel ℕ,
    WellFormed KeyType.uint64 n ∧ n.dataCapacity = 64 ∧ n.bitmapSize = 1 ∧
      n.numKeysInRange none 64 64 = none ∧ n.positionsFrom none 64 = none := by
  obtain ⟨n, hn⟩ : ∃ n, loadedNode = some n := Option.isSome_iff_exists.mp (by decide +kernel)
  have hread : loadedNode.map (fun n => (n.dataCapacity, n.bitmapSize)) = some (64, 1) := by
    decide +kernel
  rw [hn, Option.map_some] at hread
  obtain ⟨hcap, hsize⟩ := Prod.mk.inj (Option.some.inj hread)
  have hreach : Reachable KeyType.uint64 false n := Reachable.bulkLoad (by decide) (by decide) hn
  have hend : 64 / 64 = n.bitmapSize := hsize.symm
  exact ⟨n, hreach.wellFormed, hcap, hsize, Slots.numKeysInRange_behind hend hend,
    Slots.positionsFrom_behind hend⟩

end DataNode

end LearnedIndex.Alexol
