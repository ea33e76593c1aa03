import LearnedIndex.Alexol.ClosestGap

/-! # The slow `closest_gap`

Without `ALEX_USE_LZCNT` the source looks for the closest gap one position at a time.  Both versions
answer with the nearest gap, the left one on ties (`GapAnswer`), which there is at most one of, so
that they agree wherever the slow one is meant to be used: on a filled position, or behind the last
slot.

Only the bitmap matters here (`GapMap`). -/

namespace LearnedIndex.Alexol

open LearnedIndex.Words

namespace Slots
variable {P : Type}

/-- `while (distance <= max_bidirectional_offset)`: the gap at the smallest distance, or none. -/
def slowRounds (s : Slots P) (pos : ℕ) : ℕ → ℕ → Option (Option ℤ)
  | 0, _ => some none
  | rounds + 1, distance => do
      if !(← s.checkExists (pos - distance)) then some (some ((pos : ℤ) - distance))
      else if !(← s.checkExists (pos + distance)) then some (some ((pos : ℤ) + distance))
      else slowRounds s pos rounds (distance + 1)

/-- `for (i = start - 1; i >= 0; i--)`: the last gap below `start`. -/
def slowScanLeft (s : Slots P) : ℕ → Option ℤ
  | 0 => some (-1)
  | i + 1 => do if !(← s.checkExists i) then some i else slowScanLeft s i

/-- `for (; i < data_capacity_; i++)`, with `n` positions to go: the first gap from `i` on. -/
def slowScanRight (s : Slots P) : ℕ → ℕ → Option ℤ
  | 0, _ => some (-1)
  | n + 1, i => do if !(← s.checkExists i) then some i else slowScanRight s n (i + 1)

/-- The one-sided search after the rounds. -/
def slowOneSided (s : Slots P) (pos distance : ℕ) : Option ℤ :=
  if (s.dataCapacity : ℤ) - pos - 1 < pos then s.slowScanLeft (pos - distance + 1)
  else s.slowScanRight (s.dataCapacity - (pos + distance)) (pos + distance)

/-- The slow version of `closest_gap`. -/
def closestGapSlow (s : Slots P) (pos : ℕ) : Option ℤ := do
  let rounds := (min (pos : ℤ) (s.dataCapacity - pos - 1)).toNat
  match ← s.slowRounds pos rounds 1 with
  | some gap => some gap
  | none => s.slowOneSided pos (rounds + 1)

end Slots

namespace View
variable {P : Type} {v : View P} {p : ℕ}

theorem NearestGap.eq {g g' : ℕ} (h : v.NearestGap p g) (h' : v.NearestGap p g') : g = g' := by
  have h1 := h.near g' h'.lt h'.gap
  have h2 := h'.near g h.lt h.gap
  omega

/-- There is one answer. -/
theorem GapAnswer.eq {r r' : ℤ} (h : v.GapAnswer p r) (h' : v.GapAnswer p r') : r = r' := by
  rcases h with ⟨g, rfl, hg⟩ | ⟨rfl, hall⟩
  · rcases h' with ⟨g', rfl, hg'⟩ | ⟨rfl, hall⟩
    · rw [hg.eq hg']
    · exact absurd (hall g (Nat.zero_le _) hg.lt hg.lt) (by rw [hg.gap]; simp)
  · rcases h' with ⟨g', rfl, hg'⟩ | ⟨rfl, -⟩
    · exact absurd (hall g' (Nat.zero_le _) hg'.lt hg'.lt) (by rw [hg'.gap]; simp)
    · rfl

theorem GapAnswer.lt {r : ℤ} (h : v.GapAnswer p r) (hpos : 0 < v.cap) : r < v.cap := by
  rcases h with ⟨g, rfl, hg⟩ | ⟨rfl, -⟩
  · exact_mod_cast hg.lt
  · omega

theorem GapAnswer.eq_neg_one_iff {r : ℤ} (h : v.GapAnswer p r) : r = -1 ↔ v.Filled 0 v.cap := by
  constructor
  · rintro rfl
    rcases h with ⟨g, hg, -⟩ | ⟨-, hall⟩
    · omega
    · exact hall
  · intro hall
    exact h.eq (Or.inr ⟨rfl, hall⟩)

theorem Filled.snoc {a b : ℕ} (h : v.Filled a b) (hb : v.bit b = true) : v.Filled a (b + 1) := by
  intro i h1 h2 h3
  rcases Nat.eq_or_lt_of_le (Nat.le_of_lt_succ h2) with rfl | hlt
  · exact hb
  · exact h i h1 hlt h3

theorem Filled.cons {a b : ℕ} (h : v.Filled (a + 1) b) (ha : v.bit a = true) : v.Filled a b := by
  intro i h1 h2 h3
  rcases Nat.eq_or_lt_of_le h1 with rfl | hlt
  · exact ha
  · exact h i hlt h2 h3

end View

namespace Reps
variable {P : Type} {s : Slots P} {v : View P} {p : ℕ}

/-- The rounds find the nearest gap, or everything within their reach is filled.  The induction is
over the rounds that are left. -/
theorem slowRounds_spec (h : Reps s v) : ∀ (rounds distance : ℕ), 0 < distance →
    distance + rounds ≤ p + 1 → p + distance + rounds ≤ v.cap →
    v.Filled (p + 1 - distance) (p + distance) →
    (∃ r, s.slowRounds p rounds distance = some (some r) ∧ v.GapAnswer p r) ∨
      (s.slowRounds p rounds distance = some none ∧
        v.Filled (p + 1 - (distance + rounds)) (p + (distance + rounds)))
  | 0, distance, _, _, _, hfill => Or.inr ⟨rfl, hfill⟩
  | rounds + 1, distance, h0, hl, hr, hfill => by
      have hleft := h.checkExists (show p - distance < v.cap by omega)
      have hright := h.checkExists (show p + distance < v.cap by omega)
      have hfill' : v.Filled (p - distance + 1) (p + distance) := hfill.mono (by omega) le_rfl
      unfold Slots.slowRounds
      simp only [hleft, Option.bind_eq_bind, Option.bind_some]
      cases hbl : v.bit (p - distance) with
      | false =>
          refine Or.inl ⟨((p - distance : ℕ) : ℤ), ?_, ?_⟩
          · rw [Bool.not_false, if_pos rfl, Int.ofNat_sub (by omega)]
          · exact View.GapAnswer.left (by omega) (by omega) hbl hfill' (by omega) (by omega)
      | true =>
          have hfill₁ := hfill'.cons hbl
          rw [Bool.not_true, if_neg Bool.false_ne_true, hright, Option.bind_some]
          cases hbr : v.bit (p + distance) with
          | false =>
              refine Or.inl ⟨((p + distance : ℕ) : ℤ), ?_, ?_⟩
              · rw [Bool.not_false, if_pos rfl, Nat.cast_add]
              · exact View.GapAnswer.right (by omega) (by omega) hbr hfill₁ (by omega) (by omega)
          | true =>
              rw [Bool.not_true, if_neg Bool.false_ne_true]
              have hnext := h.slowRounds_spec rounds (distance + 1) (by omega) (by omega) (by omega)
                ((hfill₁.snoc hbr).mono (by omega) le_rfl)
              rw [Nat.add_right_comm distance 1 rounds] at hnext
              exact hnext

theorem slowScanLeft_spec (h : Reps s v) (hp : p < v.cap) : ∀ k, k ≤ p + 1 → v.Filled k v.cap →
    ∃ r, s.slowScanLeft k = some r ∧ v.GapAnswer p r
  | 0, _, hfill => ⟨-1, rfl, Or.inr ⟨rfl, hfill⟩⟩
  | k + 1, hk, hfill => by
      unfold Slots.slowScanLeft
      simp only [h.checkExists (show k < v.cap by omega), Option.bind_eq_bind, Option.bind_some]
      cases hb : v.bit k with
      | false =>
          exact ⟨k, rfl, View.GapAnswer.left (by omega) (by omega) hb hfill hp (by omega)⟩
      | true => exact h.slowScanLeft_spec hp k (by omega) (hfill.cons hb)

theorem slowScanRight_spec (h : Reps s v) : ∀ n i, i + n = v.cap → p < i → v.Filled 0 i →
    ∃ r, s.slowScanRight n i = some r ∧ v.GapAnswer p r
  | 0, i, hi, _, hfill => ⟨-1, rfl, Or.inr ⟨rfl, hi ▸ hfill⟩⟩
  | n + 1, i, hi, hp, hfill => by
      unfold Slots.slowScanRight
      simp only [h.checkExists (show i < v.cap by omega), Option.bind_eq_bind, Option.bind_some]
      cases hb : v.bit i with
      | false =>
          exact ⟨i, rfl, View.GapAnswer.right (by omega) (by omega) hb hfill
            (Nat.zero_le _) (by omega)⟩
      | true => exact h.slowScanRight_spec n (i + 1) (by omega) (by omega) (hfill.snoc hb)

/-- The slow version finds the nearest gap, too. -/
theorem closestGapSlow_spec (h : Reps s v) {pos : ℕ} (hle : pos ≤ v.cap)
    (hpos : pos = v.cap ∨ v.bit pos = true) :
    ∃ r, s.closestGapSlow pos = some r ∧ v.GapAnswer (min pos (v.cap - 1)) r := by
  have hcap := h.pos
  unfold Slots.closestGapSlow
  simp only [h.cap, Option.bind_eq_bind]
  rcases Nat.eq_or_lt_of_le hle with rfl | hlt
  · -- behind the last slot only the scan to the left runs
    obtain ⟨r, hr, hans⟩ := h.slowScanLeft_spec (show v.cap - 1 < v.cap by omega) v.cap (by omega)
      (fun i h1 h2 h3 => absurd h1 (by omega))
    refine ⟨r, ?_, by rwa [Nat.min_eq_right (by omega)]⟩
    rw [show (min (v.cap : ℤ) (v.cap - v.cap - 1)).toNat = 0 by omega]
    show s.slowOneSided v.cap 1 = some r
    unfold Slots.slowOneSided
    rw [h.cap, if_pos (by omega), show v.cap - 1 + 1 = v.cap by omega]
    exact hr
  · have hbit : v.bit pos = true := hpos.resolve_left (by omega)
    rw [Nat.min_eq_left (by omega)]
    obtain ⟨rounds, hrounds⟩ : ∃ n, n = (min (pos : ℤ) (v.cap - pos - 1)).toNat := ⟨_, rfl⟩
    rw [← hrounds]
    have hstart : v.Filled (pos + 1 - 1) (pos + 1) := by
      intro i h1 h2 _
      obtain rfl : i = pos := by omega
      exact hbit
    rcases h.slowRounds_spec rounds 1 (by omega) (by omega) (by omega) hstart with
      ⟨r, hr, hans⟩ | ⟨hr, hfill⟩
    · exact ⟨r, by rw [hr]; rfl, hans⟩
    · rw [hr, Option.bind_some]
      show ∃ r, s.slowOneSided pos (rounds + 1) = some r ∧ v.GapAnswer pos r
      unfold Slots.slowOneSided
      rw [h.cap]
      split
      · refine h.slowScanLeft_spec hlt _ (by omega) ?_
        exact fun i h1 h2 h3 => hfill i (by omega) (by omega) h3
      · refine h.slowScanRight_spec _ _ (by omega) (by omega) ?_
        exact fun i h1 h2 h3 => hfill i (by omega) (by omega) h3

end Reps

/-! ### Both versions -/

namespace Slots
variable {P : Type}

/-- The same bitmap with arrays that hold nothing. -/
def bare (s : Slots P) : Slots P :=
  { s with
    keySlots := List.replicate s.dataCapacity none
    payloadSlots := List.replicate s.dataCapacity none }

section bare
variable (s : Slots P) (pos : ℕ)

theorem closestGapRounds_bare (b q : ℕ) : ∀ rounds distance,
    s.bare.closestGapRounds pos b q rounds distance = s.closestGapRounds pos b q rounds distance
  | 0, _ => rfl
  | rounds + 1, distance => by
      have hround : s.bare.closestGapRound pos b q distance = s.closestGapRound pos b q distance :=
        rfl
      unfold closestGapRounds
      rw [hround]
      cases s.closestGapRound pos b q distance with
      | none => rfl
      | some gap =>
          cases gap with
          | none => exact closestGapRounds_bare b q rounds (distance + 1)
          | some gap => rfl

theorem scanGapLeft_bare : ∀ i, s.bare.scanGapLeft i = s.scanGapLeft i
  | 0 => rfl
  | i + 1 => by
      unfold scanGapLeft
      rw [scanGapLeft_bare i]
      rfl

theorem scanGapRight_bare : ∀ n i, s.bare.scanGapRight n i = s.scanGapRight n i
  | 0, _ => rfl
  | n + 1, i => by
      unfold scanGapRight
      rw [scanGapRight_bare n (i + 1)]
      rfl

theorem closestGap_bare : s.bare.closestGap pos = s.closestGap pos := by
  unfold closestGap closestGapOutside
  simp only [closestGapRounds_bare, scanGapLeft_bare, scanGapRight_bare]
  rfl

theorem slowRounds_bare : ∀ rounds distance,
    s.bare.slowRounds pos rounds distance = s.slowRounds pos rounds distance
  | 0, _ => rfl
  | rounds + 1, distance => by
      unfold slowRounds
      rw [slowRounds_bare rounds (distance + 1)]
      rfl

theorem slowScanLeft_bare : ∀ i, s.bare.slowScanLeft i = s.slowScanLeft i
  | 0 => rfl
  | i + 1 => by
      unfold slowScanLeft
      rw [slowScanLeft_bare i]
      rfl

theorem slowScanRight_bare : ∀ n i, s.bare.slowScanRight n i = s.slowScanRight n i
  | 0, _ => rfl
  | n + 1, i => by
      unfold slowScanRight
      rw [slowScanRight_bare n (i + 1)]
      rfl

theorem closestGapSlow_bare : s.bare.closestGapSlow pos = s.closestGapSlow pos := by
  unfold closestGapSlow slowOneSided
  simp only [slowRounds_bare, slowScanLeft_bare, slowScanRight_bare]
  rfl

end bare

end Slots

/-- A bitmap with a word for every 64 slots and no bit set behind the capacity.  What the other
arrays hold does not matter. -/
structure GapMap (P : Type) where
  slots : Slots P
  pos : 1 ≤ slots.dataCapacity
  size : slots.bitmapSize = (slots.dataCapacity + 63) / 64
  length : slots.bitmap.length = slots.bitmapSize
  clear : ∀ i, slots.dataCapacity ≤ i → bitAt slots.bitmap i = false

namespace GapMap
variable {P : Type}

def view (m : GapMap P) : View P where
  cap := m.slots.dataCapacity
  key := fun _ => none
  pay := fun _ => none
  bit := bitAt m.slots.bitmap

theorem reps_bare (m : GapMap P) : Reps m.slots.bare m.view where
  cap := rfl
  pos := m.pos
  keyLen := List.length_replicate
  payLen := List.length_replicate
  size := m.size
  bmLen := m.length
  key := fun i => by
    show ((List.replicate m.slots.dataCapacity none)[i]?).join = none
    rw [List.getElem?_replicate]
    split <;> rfl
  pay := fun i => by
    show ((List.replicate m.slots.dataCapacity none)[i]?).join = none
    rw [List.getElem?_replicate]
    split <;> rfl
  bit := fun _ => rfl
  clear := m.clear

end GapMap

/-- **The word-parallel `closest_gap` is the slow one**: on a filled position, and behind the last
slot, both find the gap nearest to `min(pos, data_capacity_ - 1)`, the left one on ties, and `-1`
exactly if all slots are filled. -/
theorem closestGap_eq_slow {P : Type} (m : GapMap P) (pos : ℕ) (hle : pos ≤ m.slots.dataCapacity)
    (hpos : pos = m.slots.dataCapacity ∨ bitAt m.slots.bitmap pos = true) :
    ∃ r, m.slots.closestGap pos = some r ∧ m.slots.closestGapSlow pos = some r ∧
      m.view.GapAnswer (min pos (m.slots.dataCapacity - 1)) r ∧ r < m.slots.dataCapacity ∧
      (r = -1 ↔ ∀ i < m.slots.dataCapacity, bitAt m.slots.bitmap i = true) := by
  have h := m.reps_bare
  obtain ⟨r, hfast, hans⟩ := h.closestGap_spec pos
  obtain ⟨r', hslow, hans'⟩ := h.closestGapSlow_spec hle hpos
  obtain rfl := hans.eq hans'
  rw [Slots.closestGap_bare] at hfast
  rw [Slots.closestGapSlow_bare] at hslow
  refine ⟨r, hfast, hslow, hans, hans.lt m.pos, hans.eq_neg_one_iff.trans ?_⟩
  exact ⟨fun hall i hi => hall i (Nat.zero_le _) hi hi, fun hall i _ hi _ => hall i hi⟩

/-- Slots 0, 2, 3 and 4 of five are filled. -/
def fiveSlots : GapMap ℕ where
  slots := ⟨5, 1, [], [], [0b11101#64]⟩
  pos := by decide
  size := rfl
  length := rfl
  clear := fun i hi => by
    rcases Nat.lt_or_ge i 64 with hlt | hge
    · have hall : ∀ i < 64, 5 ≤ i → bitAt [0b11101#64] i = false := by decide +kernel
      exact hall i hlt hi
    · exact bitAt_of_ge hge

theorem closestGap_eq_slow_five : ∃ r, fiveSlots.slots.closestGap 3 = some r ∧
    fiveSlots.slots.closestGapSlow 3 = some r ∧ fiveSlots.view.GapAnswer (min 3 (5 - 1)) r ∧ r < 5 ∧
    (r = -1 ↔ ∀ i < 5, bitAt fiveSlots.slots.bitmap i = true) :=
  closestGap_eq_slow fiveSlots 3 (by decide) (Or.inr (by decide +kernel))

end LearnedIndex.Alexol
