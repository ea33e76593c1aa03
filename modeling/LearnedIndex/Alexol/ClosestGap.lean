import LearnedIndex.Alexol.SlotsScan

/-! # The closest gap

The word-parallel `closest_gap` looks at the block of the start position first and then at whole
words on both sides, and reads a gap off a word by counting the leading or trailing ones.  The
result is the gap nearest to `min(pos, data_capacity_ - 1)`, the left one on ties, and `-1` when
every slot is filled (`closestGap_spec`).

The invariant of the two-sided loop is `FilledWithin`: every slot whose block is less than
`distance` blocks away from the start block is filled. -/

namespace LearnedIndex.Alexol

open LearnedIndex.Words

namespace View
variable {P : Type}

/-- `g` is the gap nearest to `p`, the left one on ties. -/
structure NearestGap (v : View P) (p g : ℕ) : Prop where
  lt : g < v.cap
  gap : v.bit g = false
  near : ∀ j, j < v.cap → v.bit j = false →
    |(p : ℤ) - g| < |(p : ℤ) - j| ∨ (|(p : ℤ) - g| = |(p : ℤ) - j| ∧ g ≤ j)

/-- Every slot of `[lo, hi)` is filled. -/
def Filled (v : View P) (lo hi : ℕ) : Prop := ∀ i, lo ≤ i → i < hi → i < v.cap → v.bit i = true

/-- The answer of a gap search: the nearest gap, or `-1` when there is none. -/
def GapAnswer (v : View P) (p : ℕ) (r : ℤ) : Prop :=
  (∃ g : ℕ, r = g ∧ v.NearestGap p g) ∨ (r = -1 ∧ v.Filled 0 v.cap)

/-- A left gap with nothing but filled slots between it and `p`, and no closer gap on the
right. -/
theorem nearestGap_left {v : View P} {p g : ℕ} (hg : g ≤ p) (hlt : g < v.cap)
    (hgap : v.bit g = false) (hbetween : v.Filled (g + 1) (p + 1))
    (hright : ∀ j, p < j → j < v.cap → v.bit j = false → p + p ≤ j + g) : v.NearestGap p g := by
  refine ⟨hlt, hgap, ?_⟩
  intro j hj hb
  rw [abs_of_nonneg (by omega : (0 : ℤ) ≤ (p : ℤ) - g)]
  rcases Nat.lt_or_ge p j with h | h
  · have := hright j h hj hb
    rw [abs_of_neg (by omega : (p : ℤ) - j < 0)]
    omega
  · rw [abs_of_nonneg (by omega : (0 : ℤ) ≤ (p : ℤ) - j)]
    have hle : j ≤ g := by
      by_contra hcon
      rw [hbetween j (by omega) (by omega) hj] at hb
      cases hb
    omega

/-- A right gap with nothing but filled slots between `p` and it, and a farther gap on the
left. -/
theorem nearestGap_right {v : View P} {p g : ℕ} (hg : p ≤ g) (hlt : g < v.cap)
    (hgap : v.bit g = false) (hbetween : v.Filled p g)
    (hleft : ∀ j, j < p → v.bit j = false → g + j < p + p) : v.NearestGap p g := by
  refine ⟨hlt, hgap, ?_⟩
  intro j hj hb
  rw [abs_of_nonpos (by omega : (p : ℤ) - g ≤ 0)]
  rcases Nat.lt_or_ge j p with h | h
  · have := hleft j h hb
    rw [abs_of_pos (by omega : (0 : ℤ) < (p : ℤ) - j)]
    omega
  · rw [abs_of_nonpos (by omega : (p : ℤ) - j ≤ 0)]
    have hle : g ≤ j := by
      by_contra hcon
      rw [hbetween j h (by omega) hj] at hb
      cases hb
    omega

namespace Filled
variable {v : View P} {a b b' c : ℕ}

theorem mono (h : v.Filled a b) {a' : ℕ} (ha : a ≤ a') (hb : b' ≤ b) : v.Filled a' b' :=
  fun i h1 h2 h3 => h i (ha.trans h1) (h2.trans_le hb) h3

theorem append (h : v.Filled a b) (h' : v.Filled b' c) (hb : b' ≤ b) : v.Filled a c := by
  intro i h1 h2 h3
  by_cases hi : i < b
  · exact h i h1 hi h3
  · exact h' i (by omega) h2 h3

/-- A gap lies outside of what is filled. -/
theorem outside (h : v.Filled a b) {j : ℕ} (hj : j < v.cap) (hgap : v.bit j = false) :
    j < a ∨ b ≤ j := by
  by_contra hcon
  rw [h j (by omega) (by omega) hj] at hgap
  cases hgap

end Filled

/-- A gap on the left answers the search when the filled slots reach far enough to the right. -/
theorem GapAnswer.left {v : View P} {p g stop : ℕ} (hg : g ≤ p) (hlt : g < v.cap)
    (hgap : v.bit g = false) (hfill : v.Filled (g + 1) stop) (hp : p < stop)
    (hstop : stop < v.cap → p + p ≤ stop + g) : v.GapAnswer p g := by
  refine Or.inl ⟨g, rfl, nearestGap_left hg hlt hgap (hfill.mono (le_refl _) (by omega)) ?_⟩
  intro j h1 h2 hj
  rcases hfill.outside h2 hj with h | h
  · omega
  · have := hstop (by omega)
    omega

/-- A gap on the right answers the search when the filled slots reach far enough to the left. -/
theorem GapAnswer.right {v : View P} {p g start : ℕ} (hg : p ≤ g) (hlt : g < v.cap)
    (hgap : v.bit g = false) (hfill : v.Filled start g) (hp : start ≤ p)
    (hstart : 0 < start → g + start ≤ p + p) : v.GapAnswer p g := by
  refine Or.inl ⟨g, rfl, nearestGap_right hg hlt hgap (hfill.mono hp (le_refl _)) ?_⟩
  intro j h1 hj
  rcases hfill.outside (by omega) hj with h | h
  · have := hstart (by omega)
    omega
  · omega

end View

/-! ### Gaps of one word -/

theorem tzcnt_zero : tzcnt 0#64 = 64 := by decide +kernel

theorem lzcnt_zero : lzcnt 0#64 = 64 := by decide +kernel

theorem not_allOnes : ~~~(BitVec.allOnes 64) = 0#64 := by decide

theorem not_ne_zero {w : Word} (h : w ≠ BitVec.allOnes 64) : ~~~w ≠ 0#64 := by
  intro h0
  apply h
  rw [← BitVec.not_not (b := w), h0]
  decide

/-- The position named by a trailing zero count. -/
theorem tzcnt_spec {w : Word} (h : w ≠ 0#64) :
    tzcnt w < 64 ∧ w.getLsbD (tzcnt w) = true ∧ ∀ i, i < tzcnt w → w.getLsbD i = false :=
  ⟨ctz_lt h, BitVec.getLsbD_true_ctz_of_ne_zero h, fun _ hi => BitVec.getLsbD_false_of_lt_ctz hi⟩

/-- The position named by a leading zero count. -/
theorem lzcnt_spec {w : Word} (h : w ≠ 0#64) :
    lzcnt w < 64 ∧ w.getLsbD (63 - lzcnt w) = true ∧
      ∀ i, 63 - lzcnt w < i → w.getLsbD i = false := by
  have hlt : lzcnt w < 64 := by
    have hl := BitVec.lt_def.mp (BitVec.clz_lt_iff_ne_zero.mpr h)
    simpa [lzcnt] using hl
  refine ⟨hlt, BitVec.getLsbD_true_clz_of_ne_zero (by omega) h, ?_⟩
  intro i hi
  apply getLsbD_false_of_clz
  unfold lzcnt at hi hlt
  omega

namespace Reps

variable {P : Type} {s : Slots P} {v : View P}

theorem allOnes_iff (h : Reps s v) {idx : ℕ} {w : Word} (hi : idx < s.bitmapSize)
    (hw : s.bitmap[idx]? = some w) :
    w = BitVec.allOnes 64 ↔ ∀ i, 64 * idx ≤ i → i < 64 * idx + 64 → v.bit i = true := by
  obtain ⟨w', hw', hb⟩ := h.getElem_bitmap hi
  rw [hw] at hw'
  obtain rfl := Option.some.inj hw'
  constructor
  · rintro rfl i h1 h2
    have := hb (i - 64 * idx) (by omega)
    rw [show 64 * idx + (i - 64 * idx) = i by omega, BitVec.getLsbD_allOnes] at this
    rw [← this]
    simpa using by omega
  · intro hall
    apply BitVec.eq_of_getLsbD_eq
    intro i hi64
    rw [hb i hi64, hall _ (by omega) (by omega), BitVec.getLsbD_allOnes, decide_eq_true hi64]

theorem filled_word (h : Reps s v) {idx : ℕ} (hi : idx < s.bitmapSize)
    (hw : s.bitmap[idx]? = some (BitVec.allOnes 64)) : v.Filled (64 * idx) (64 * idx + 64) :=
  fun i h1 h2 _ => (h.allOnes_iff hi hw).mp rfl i h1 h2

/-- The first gap of a word that is not full. -/
theorem firstGap (h : Reps s v) {idx : ℕ} {w : Word} (hi : idx < s.bitmapSize)
    (hw : s.bitmap[idx]? = some w) (hne : w ≠ BitVec.allOnes 64) :
    ∃ g : ℕ, Slots.firstGapOf idx w = g ∧ 64 * idx ≤ g ∧ g < 64 * idx + 64 ∧ v.bit g = false ∧
      v.Filled (64 * idx) g := by
  obtain ⟨w', hw', hb⟩ := h.getElem_bitmap hi
  rw [hw] at hw'
  obtain rfl := Option.some.inj hw'
  obtain ⟨hlt, htop, hlow⟩ := tzcnt_spec (not_ne_zero hne)
  refine ⟨64 * idx + tzcnt (~~~w), by unfold Slots.firstGapOf; push_cast; ring, by omega, by omega,
    ?_, ?_⟩
  · rw [BitVec.getLsbD_not, hb _ hlt] at htop
    simpa [hlt] using htop
  · intro i h1 h2 _
    have := hlow (i - 64 * idx) (by omega)
    rw [BitVec.getLsbD_not, hb _ (by omega), show 64 * idx + (i - 64 * idx) = i by omega] at this
    have hlt' : i - 64 * idx < 64 := by omega
    simpa [hlt'] using this

/-- The last gap of a word that is not full. -/
theorem lastGap (h : Reps s v) {idx : ℕ} {w : Word} (hi : idx < s.bitmapSize)
    (hw : s.bitmap[idx]? = some w) (hne : w ≠ BitVec.allOnes 64) :
    ∃ g : ℕ, Slots.lastGapOf idx w = g ∧ 64 * idx ≤ g ∧ g < 64 * idx + 64 ∧ v.bit g = false ∧
      v.Filled (g + 1) (64 * idx + 64) := by
  obtain ⟨w', hw', hb⟩ := h.getElem_bitmap hi
  rw [hw] at hw'
  obtain rfl := Option.some.inj hw'
  obtain ⟨hlt, htop, hhigh⟩ := lzcnt_spec (not_ne_zero hne)
  refine ⟨64 * idx + (63 - lzcnt (~~~w)), ?_, by omega, by omega, ?_, ?_⟩
  · unfold Slots.lastGapOf
    push_cast [show lzcnt (~~~w) ≤ 63 by omega]
    ring
  · rw [BitVec.getLsbD_not, hb _ (by omega)] at htop
    have hlt' : 63 - lzcnt (~~~w) < 64 := by omega
    simpa [hlt'] using htop
  · intro i h1 h2 _
    have := hhigh (i - 64 * idx) (by omega)
    rw [BitVec.getLsbD_not, hb _ (by omega), show 64 * idx + (i - 64 * idx) = i by omega] at this
    have hlt' : i - 64 * idx < 64 := by omega
    simpa [hlt'] using this

/-! ### Outside the block -/

/-- Every slot whose block is less than `d` blocks away from block `b` is filled. -/
def FilledWithin (v : View P) (b d : ℕ) : Prop :=
  ∀ i, i < v.cap → i / 64 < b + d → b < i / 64 + d → v.bit i = true

/-- The slots between the words of the next round. -/
theorem FilledWithin.filled {b d : ℕ} (hin : FilledWithin v b d) (hdl : d ≤ b) :
    v.Filled (64 * (b - d) + 64) (64 * (b + d)) :=
  fun i _ _ h3 => hin i h3 (by omega) (by omega)

/-- The words of a round are full. -/
theorem FilledWithin.succ {b d : ℕ} (hin : FilledWithin v b d) (hdl : d ≤ b)
    (hl : v.Filled (64 * (b - d)) (64 * (b - d) + 64))
    (hr : v.Filled (64 * (b + d)) (64 * (b + d) + 64)) : FilledWithin v b (d + 1) := by
  have hfill := (hl.append (hin.filled hdl) (le_refl _)).append hr (le_refl _)
  exact fun i h1 h2 h3 => hfill i (by omega) (by omega) h1

/-- The choice between the last gap on the left and the first gap on the right. -/
theorem chooseGap_spec (h : Reps s v) {p gl gr : ℕ} (hl : gl < p) (hr : p < gr) (hp : p < v.cap)
    (hgl : v.bit gl = false) (hgr : v.bit gr = false) (hfill : v.Filled (gl + 1) gr) :
    v.GapAnswer p (s.chooseGap p gl gr) := by
  unfold Slots.chooseGap
  rw [h.cap]
  by_cases hc : (p : ℤ) - gl ≤ gr - p ∨ (v.cap : ℤ) ≤ gr
  · rw [if_pos hc]
    exact View.GapAnswer.left hl.le (by omega) hgl hfill hr (by omega)
  · rw [if_neg hc]
    exact View.GapAnswer.right hr.le (by omega) hgr hfill (by omega) (by omega)

section rounds
variable {p b d : ℕ}

/-- The left word is full and the right one has a gap: the word to the left of the left one may
still have a closer gap. -/
theorem closestGapRound_rightGap (h : Reps s v) (hp : p < v.cap) (hb : b = p / 64) (hd : 0 < d)
    (hdl : d ≤ b) (hdr : b + d < s.bitmapSize) (hin : FilledWithin v b d)
    (hwl : s.bitmap[b - d]? = some (BitVec.allOnes 64)) {wr : Word}
    (hwr : s.bitmap[b + d]? = some wr) (hr : wr ≠ BitVec.allOnes 64) :
    (∃ r, s.closestGapRound p b (p % 64) d = some (some r) ∧ v.GapAnswer p r) ∨
      (s.closestGapRound p b (p % 64) d = some none ∧ FilledWithin v b (d + 1)) := by
  have hsize := h.size
  have hlfull := h.filled_word (by omega) hwl
  obtain ⟨gr, hgr, hgr1, hgr2, hgrb, hgrf⟩ := h.firstGap hdr hwr hr
  have hfill := (hlfull.append (hin.filled hdl) (le_refl _)).append hgrf (le_refl _)
  unfold Slots.closestGapRound
  simp only [hwl, hwr, Option.bind_eq_bind, Option.bind_some]
  by_cases hcap : (gr : ℤ) < s.dataCapacity
  · have hgrcap : gr < v.cap := by rw [h.cap] at hcap; omega
    left
    by_cases hlook : p % 64 < 32 ∧ 0 < b - d
    · obtain ⟨wll, hwll, _⟩ := h.getElem_bitmap (show b - d - 1 < s.bitmapSize by omega)
      by_cases hll : wll = BitVec.allOnes 64
      · have hllfull := h.filled_word (by omega) (hll ▸ hwll)
        refine ⟨gr, by simp [-BitVec.reduceAllOnes, hr, hgr, hcap, hlook, hwll, hll], ?_⟩
        exact View.GapAnswer.right (by omega) hgrcap hgrb (hllfull.append hfill (by omega))
          (by omega) (by omega)
      · obtain ⟨gl, hgl, hgl1, hgl2, hglb, hglf⟩ := h.lastGap (by omega) hwll hll
        refine ⟨s.chooseGap p gl gr,
          by simp [-BitVec.reduceAllOnes, hr, hgr, hcap, hlook, hwll, hll, hgl], ?_⟩
        exact h.chooseGap_spec (by omega) (by omega) hp hglb hgrb (hglf.append hfill (by omega))
    · refine ⟨gr, by simp only [ne_eq, hr, hgr, hcap, hlook, not_true_eq_false,
        not_false_eq_true, false_and, if_true, if_false], ?_⟩
      exact View.GapAnswer.right (by omega) hgrcap hgrb hfill (by omega) (by omega)
  · right
    refine ⟨by simp [-BitVec.reduceAllOnes, hr, hgr, hcap], hin.succ hdl hlfull ?_⟩
    rw [h.cap] at hcap
    exact fun i h1 _ h3 => hgrf i h1 (by omega) h3

/-- The left word has a gap: the right word, or the word to the right of it, may have a closer
one. -/
theorem closestGapRound_leftGap (h : Reps s v) (hp : p < v.cap) (hb : b = p / 64) (hd : 0 < d)
    (hdl : d ≤ b) (hdr : b + d < s.bitmapSize) (hin : FilledWithin v b d) {wl wr : Word}
    (hwl : s.bitmap[b - d]? = some wl) (hl : wl ≠ BitVec.allOnes 64)
    (hwr : s.bitmap[b + d]? = some wr) :
    ∃ r, s.closestGapRound p b (p % 64) d = some (some r) ∧ v.GapAnswer p r := by
  have hsize := h.size
  obtain ⟨gl, hgl, hgl1, hgl2, hglb, hglf⟩ := h.lastGap (by omega) hwl hl
  have hfill := hglf.append (hin.filled hdl) (le_refl _)
  unfold Slots.closestGapRound
  simp only [hwl, hwr, Option.bind_eq_bind, Option.bind_some]
  by_cases hr : wr = BitVec.allOnes 64
  · have hfill' := hfill.append (h.filled_word hdr (hr ▸ hwr)) (le_refl _)
    by_cases hlook : 32 < p % 64 ∧ b + d + 1 < s.bitmapSize
    · obtain ⟨wrr, hwrr, _⟩ := h.getElem_bitmap hlook.2
      by_cases hrr : wrr = BitVec.allOnes 64
      · have hrrfull := h.filled_word hlook.2 (hrr ▸ hwrr)
        refine ⟨gl, by simp [-BitVec.reduceAllOnes, hl, hr, hgl, hlook, hwrr, hrr], ?_⟩
        exact View.GapAnswer.left (by omega) (by omega) hglb (hfill'.append hrrfull (by omega))
          (by omega) (by omega)
      · obtain ⟨gr, hgr, hgr1, hgr2, hgrb, hgrf⟩ := h.firstGap hlook.2 hwrr hrr
        refine ⟨s.chooseGap p gl gr,
          by simp [-BitVec.reduceAllOnes, hl, hr, hgl, hlook, hwrr, hrr, hgr], ?_⟩
        exact h.chooseGap_spec (by omega) (by omega) hp hglb hgrb (hfill'.append hgrf (by omega))
    · refine ⟨gl, by simp only [ne_eq, hl, hr, hgl, hlook, not_true_eq_false,
        not_false_eq_true, and_false, if_true, if_false], ?_⟩
      exact View.GapAnswer.left (by omega) (by omega) hglb hfill' (by omega) (by omega)
  · obtain ⟨gr, hgr, hgr1, hgr2, hgrb, hgrf⟩ := h.firstGap hdr hwr hr
    refine ⟨s.chooseGap p gl gr, by simp [-BitVec.reduceAllOnes, hl, hr, hgl, hgr], ?_⟩
    exact h.chooseGap_spec (by omega) (by omega) hp hglb hgrb (hfill.append hgrf (le_refl _))

/-- One round of the two-sided search: the nearest gap, or the slots one block further on both
sides are filled too. -/
theorem closestGapRound_spec (h : Reps s v) (hp : p < v.cap) (hb : b = p / 64) (hd : 0 < d)
    (hdl : d ≤ b) (hdr : b + d < s.bitmapSize) (hin : FilledWithin v b d) :
    (∃ r, s.closestGapRound p b (p % 64) d = some (some r) ∧ v.GapAnswer p r) ∨
      (s.closestGapRound p b (p % 64) d = some none ∧ FilledWithin v b (d + 1)) := by
  obtain ⟨wl, hwl, _⟩ := h.getElem_bitmap (show b - d < s.bitmapSize by omega)
  obtain ⟨wr, hwr, _⟩ := h.getElem_bitmap hdr
  by_cases hl : wl = BitVec.allOnes 64
  · subst hl
    by_cases hr : wr = BitVec.allOnes 64
    · subst hr
      right
      refine ⟨?_, hin.succ hdl (h.filled_word (by omega) hwl) (h.filled_word hdr hwr)⟩
      unfold Slots.closestGapRound
      simp only [hwl, hwr, Option.bind_eq_bind, Option.bind_some, ne_eq, not_true_eq_false,
        false_and, if_false]
    · exact h.closestGapRound_rightGap hp hb hd hdl hdr hin hwl hwr hr
  · exact Or.inl (h.closestGapRound_leftGap hp hb hd hdl hdr hin hwl hl hwr)

theorem closestGapRounds_spec (h : Reps s v) (hp : p < v.cap) (hb : b = p / 64) :
    ∀ (rounds d : ℕ), 0 < d → rounds + d ≤ b + 1 → b + rounds + d ≤ s.bitmapSize →
      FilledWithin v b d →
      (∃ r, s.closestGapRounds p b (p % 64) rounds d = some (some r) ∧ v.GapAnswer p r) ∨
        (s.closestGapRounds p b (p % 64) rounds d = some none ∧ FilledWithin v b (d + rounds))
  | 0, d, _, _, _, hin => Or.inr ⟨rfl, hin⟩
  | rounds + 1, d, hd, hl, hr, hin => by
      unfold Slots.closestGapRounds
      rcases h.closestGapRound_spec hp hb hd (by omega) (by omega) hin with
        ⟨r, he, hans⟩ | ⟨he, hin'⟩
      · left
        exact ⟨r, by rw [he]; rfl, hans⟩
      · rw [he]
        have := closestGapRounds_spec h hp hb rounds (d + 1) (by omega) (by omega) (by omega) hin'
        rw [show d + 1 + rounds = d + (rounds + 1) by omega] at this
        exact this

/-- The scan to the left, once nothing on the right is a gap. -/
theorem scanGapLeft_spec (h : Reps s v) (hp : p < v.cap) : ∀ i, i ≤ s.bitmapSize → 64 * i ≤ p →
    v.Filled (64 * i) v.cap → ∃ r, s.scanGapLeft i = some r ∧ v.GapAnswer p r
  | 0, _, _, hfill => ⟨-1, rfl, Or.inr ⟨rfl, hfill⟩⟩
  | i + 1, hi, hle, hfill => by
      obtain ⟨w, hw, _⟩ := h.getElem_bitmap (show i < s.bitmapSize by omega)
      unfold Slots.scanGapLeft
      simp only [hw, Option.bind_eq_bind, Option.bind_some]
      by_cases hfull : w = BitVec.allOnes 64
      · have hone := h.filled_word (by omega) (hfull ▸ hw)
        rw [if_neg (not_not.mpr hfull)]
        exact scanGapLeft_spec h hp i (by omega) (by omega) (hone.append hfill (by omega))
      · obtain ⟨g, hg, hg1, hg2, hgb, hgf⟩ := h.lastGap (by omega) hw hfull
        have hafter := hgf.append hfill (by omega)
        rw [if_pos hfull, hg]
        exact ⟨g, rfl, View.GapAnswer.left (by omega) (by omega) hgb hafter hp (by omega)⟩

/-- The scan to the right, once nothing on the left is a gap. -/
theorem scanGapRight_spec (h : Reps s v) : ∀ n i, i + n = s.bitmapSize → p < 64 * i →
    v.Filled 0 (64 * i) → ∃ r, s.scanGapRight n i = some r ∧ v.GapAnswer p r
  | 0, i, hi, hlt, hfill => by
      have := h.size
      exact ⟨-1, rfl, Or.inr ⟨rfl, hfill.mono (le_refl _) (by omega)⟩⟩
  | n + 1, i, hi, hlt, hfill => by
      obtain ⟨w, hw, _⟩ := h.getElem_bitmap (show i < s.bitmapSize by omega)
      unfold Slots.scanGapRight
      simp only [hw, Option.bind_eq_bind, Option.bind_some]
      by_cases hfull : w = BitVec.allOnes 64
      · have hone := h.filled_word (by omega) (hfull ▸ hw)
        rw [if_neg (not_not.mpr hfull)]
        exact scanGapRight_spec h n (i + 1) (by omega) (by omega)
          ((hfill.append hone (le_refl _)).mono (le_refl _) (by omega))
      · obtain ⟨g, hg, hg1, hg2, hgb, hgf⟩ := h.firstGap (by omega) hw hfull
        have hbefore := hfill.append hgf (le_refl _)
        rw [if_pos hfull, hg, h.cap]
        by_cases hcap : (v.cap : ℤ) ≤ g
        · rw [if_pos hcap]
          exact ⟨-1, rfl, Or.inr ⟨rfl, hbefore.mono (le_refl _) (by omega)⟩⟩
        · rw [if_neg hcap]
          exact ⟨g, rfl, View.GapAnswer.right (by omega) (by omega) hgb hbefore (by omega)
            (by omega)⟩

theorem closestGapOutside_spec (h : Reps s v) (hp : p < v.cap) (hb : b = p / 64)
    (hin : FilledWithin v b 1) : ∃ r, s.closestGapOutside p b (p % 64) = some r ∧
      v.GapAnswer p r := by
  have hsize := h.size
  have hlast : (v.cap - 1) / 64 = s.bitmapSize - 1 := by omega
  unfold Slots.closestGapOutside
  simp only [shift_div, h.cap, hlast, Option.bind_eq_bind]
  generalize hm : min b (s.bitmapSize - 1 - b) = m
  rcases h.closestGapRounds_spec hp hb m 1 (by omega) (by omega) (by omega) hin with
    ⟨r, he, hans⟩ | ⟨he, hin'⟩
  · exact ⟨r, by rw [he]; rfl, hans⟩
  · simp only [he, Option.bind_some]
    by_cases hlr : s.bitmapSize - 1 - b < b
    · rw [if_pos hlr]
      refine h.scanGapLeft_spec hp _ (by omega) (by omega) ?_
      intro i h1 h2 h3
      exact hin' i h3 (by omega) (by omega)
    · rw [if_neg hlr]
      refine h.scanGapRight_spec _ _ (by omega) (by omega) ?_
      intro i h1 h2 h3
      exact hin' i h3 (by omega) (by omega)

end rounds

/-! ### Inside the block -/

section inside
variable {p b : ℕ} {w : Word}

/-- What a distance to the right promises: the slots before it are filled, and it leads to a gap
unless it is too large to matter. -/
def RightDistance (v : View P) (p rd : ℕ) : Prop :=
  v.Filled p (p + rd) ∧ (rd < 64 → v.bit (p + rd) = false)

/-- What a distance to the left promises. -/
def LeftDistance (v : View P) (p ld : ℕ) : Prop :=
  0 < ld ∧ v.Filled (p + 1 - ld) p ∧ (ld < 64 → ld ≤ p ∧ v.bit (p - ld) = false)

theorem getLsbD_below {q i : ℕ} (hq : q < 64) (hi : i < 64) :
    ((1#64 <<< q) - 1#64).getLsbD i = decide (i < q) := by
  have hmask := getLsbD_and_not_mask (BitVec.allOnes 64) hq hi
  rw [BitVec.getLsbD_and, BitVec.getLsbD_not, BitVec.getLsbD_allOnes] at hmask
  have hi' : decide (i < 64) = true := by simpa using hi
  rw [hi', Bool.true_and, Bool.true_and, Bool.true_and] at hmask
  have hneg : decide (q ≤ i) = !decide (i < q) := by
    rw [← decide_not]
    simp only [not_lt]
  rw [hneg] at hmask
  exact Bool.not_inj hmask

theorem rightGaps_bit (h : Reps s v) (hbs : b < s.bitmapSize)
    (hw : s.bitmap[b]? = some w) {i : ℕ} (hi : i < 64) :
    (~~~(w ||| ((1#64 <<< (p % 64)) - 1#64))).getLsbD i =
      (!v.bit (64 * b + i) && decide (p % 64 ≤ i)) := by
  obtain ⟨w', hw', hbit⟩ := h.getElem_bitmap hbs
  rw [hw] at hw'
  obtain rfl := Option.some.inj hw'
  rw [BitVec.getLsbD_not, BitVec.getLsbD_or, hbit i hi,
    getLsbD_below (Nat.mod_lt _ (by omega)) hi]
  by_cases hlt : i < p % 64 <;> simp [hlt, hi]; omega

theorem leftGaps_bit (h : Reps s v) (hbs : b < s.bitmapSize)
    (hw : s.bitmap[b]? = some w) {i : ℕ} (hi : i < 64) :
    (~~~w &&& ((1#64 <<< (p % 64)) - 1#64)).getLsbD i =
      (!v.bit (64 * b + i) && decide (i < p % 64)) := by
  obtain ⟨w', hw', hbit⟩ := h.getElem_bitmap hbs
  rw [hw] at hw'
  obtain rfl := Option.some.inj hw'
  rw [BitVec.getLsbD_and, BitVec.getLsbD_not, hbit i hi,
    getLsbD_below (Nat.mod_lt _ (by omega)) hi]
  simp [hi]

/-- The distance to the right, when a gap of the block lies there. -/
theorem rightDistance_inside (h : Reps s v) (hb : b = p / 64) (hbs : b < s.bitmapSize)
    (hw : s.bitmap[b]? = some w) (hne : ~~~(w ||| ((1#64 <<< (p % 64)) - 1#64)) ≠ 0#64) :
    ∃ rd : ℕ, s.closestRightGapDistance b (p % 64) w = some (rd : ℤ) ∧ RightDistance v p rd ∧
    ∀ g, p ≤ g → g < 64 * b + 64 → v.bit g = false → p + rd ≤ g := by
  obtain ⟨hlt, htop, hlow⟩ := tzcnt_spec hne
  unfold Slots.closestRightGapDistance
  rw [if_pos hne]
  generalize tzcnt (~~~(w ||| ((1#64 <<< (p % 64)) - 1#64))) = t at hlt htop hlow ⊢
  rw [h.rightGaps_bit hbs hw hlt] at htop
  obtain ⟨htgap, htle⟩ : v.bit (64 * b + t) = false ∧ p % 64 ≤ t := by simpa using htop
  have hfirst : ∀ i, p ≤ i → i < 64 * b + t → v.bit i = true := by
    intro i h1 h2
    have hbit := hlow (i - 64 * b) (by omega)
    rw [h.rightGaps_bit hbs hw (by omega), show 64 * b + (i - 64 * b) = i by omega] at hbit
    have hle : p % 64 ≤ i - 64 * b := by omega
    simpa [hle] using hbit
  refine ⟨t - p % 64, by congr 1; omega, ⟨?_, ?_⟩, ?_⟩
  · intro i h1 h2 _
    exact hfirst i h1 (by omega)
  · intro _
    rw [show p + (t - p % 64) = 64 * b + t by omega]
    exact htgap
  · intro g h1 h2 hg
    by_contra hcon
    rw [hfirst g h1 (by omega)] at hg
    cases hg

/-- The distance to the left, when a gap of the block lies there. -/
theorem leftDistance_inside (h : Reps s v) (hb : b = p / 64) (hbs : b < s.bitmapSize)
    (hw : s.bitmap[b]? = some w) (hne : ~~~w &&& ((1#64 <<< (p % 64)) - 1#64) ≠ 0#64) :
    ∃ ld : ℕ, s.closestLeftGapDistance b (p % 64) w = some (ld : ℤ) ∧ LeftDistance v p ld ∧
      ld < 64 := by
  obtain ⟨hlt, htop, hhigh⟩ := lzcnt_spec hne
  unfold Slots.closestLeftGapDistance
  rw [if_pos hne]
  generalize lzcnt (~~~w &&& ((1#64 <<< (p % 64)) - 1#64)) = t at hlt htop hhigh ⊢
  rw [h.leftGaps_bit hbs hw (by omega)] at htop
  obtain ⟨htgap, htlt⟩ : v.bit (64 * b + (63 - t)) = false ∧ 63 - t < p % 64 := by simpa using htop
  refine ⟨p % 64 - (63 - t), by congr 1; omega, ⟨by omega, ?_, ?_⟩, by omega⟩
  · intro i h1 h2 _
    have hbit := hhigh (i - 64 * b) (by omega)
    rw [h.leftGaps_bit hbs hw (by omega), show 64 * b + (i - 64 * b) = i by omega] at hbit
    have hlt' : i - 64 * b < p % 64 := by omega
    simpa [hlt'] using hbit
  · intro _
    refine ⟨by omega, ?_⟩
    rw [show p - (p % 64 - (63 - t)) = 64 * b + (63 - t) by omega]
    exact htgap

/-- The choice between the two distances. -/
theorem nearestGap_of_distances {rd ld : ℕ} (hp : p < v.cap) (hr : RightDistance v p rd)
    (hl : LeftDistance v p ld) (hsome : ld < 64 ∨ (rd < 64 ∧ p + rd < v.cap)) :
    v.GapAnswer p (if (rd : ℤ) < ld ∧ (p : ℤ) + rd < v.cap then (p : ℤ) + rd else p - ld) := by
  obtain ⟨hrf, hrg⟩ := hr
  obtain ⟨hld, hlf, hlg⟩ := hl
  left
  by_cases hc : (rd : ℤ) < ld ∧ (p : ℤ) + rd < v.cap
  · rw [if_pos hc]
    refine ⟨p + rd, by push_cast; rfl, View.nearestGap_right (by omega) (by omega)
      (hrg (by omega)) hrf ?_⟩
    intro j hj hjb
    by_contra hcon
    rw [hlf j (by omega) hj (by omega)] at hjb
    cases hjb
  · rw [if_neg hc]
    obtain ⟨hle, hgap⟩ := hlg (by omega)
    refine ⟨p - ld, by omega, View.nearestGap_left (by omega) (by omega) hgap ?_ ?_⟩
    · intro i h1 h2 h3
      by_cases hi : i = p
      · exact hrf i (by omega) (by omega) h3
      · exact hlf i (by omega) (by omega) h3
    · intro j h1 h2 hjb
      by_contra hcon
      rw [hrf j (by omega) (by omega) h2] at hjb
      cases hjb

/-- The distance to the right, when no gap of the block lies there: it leads into the next
block. -/
theorem rightDistance_next (h : Reps s v) (hb : b = p / 64) (hbs : b < s.bitmapSize)
    (hw : s.bitmap[b]? = some w) (heq : ~~~(w ||| ((1#64 <<< (p % 64)) - 1#64)) = 0#64) :
    ∃ rd : ℕ, s.closestRightGapDistance b (p % 64) w = some (rd : ℤ) ∧ RightDistance v p rd := by
  have hsize := h.size
  have hblock : v.Filled p (64 * b + 64) := by
    intro i h1 h2 _
    have hbit := h.rightGaps_bit (p := p) hbs hw (show i - 64 * b < 64 by omega)
    rw [heq, show 64 * b + (i - 64 * b) = i by omega] at hbit
    have hle : p % 64 ≤ i - 64 * b := by omega
    simpa [hle] using hbit
  unfold Slots.closestRightGapDistance
  rw [if_neg (not_not.mpr heq)]
  by_cases hnext : b + 1 < s.bitmapSize
  · obtain ⟨wn, hwn, _⟩ := h.getElem_bitmap hnext
    rw [if_pos hnext, hwn]
    by_cases hfull : wn = BitVec.allOnes 64
    · have hone := h.filled_word hnext (hfull ▸ hwn)
      refine ⟨128 - p % 64, ?_, ?_, by omega⟩
      · rw [Option.bind_eq_bind, Option.bind_some, hfull, not_allOnes, tzcnt_zero]
        congr 1
        omega
      · exact (hblock.append hone (by omega)).mono (le_refl _) (by omega)
    · obtain ⟨g, hg, hg1, hg2, hgb, hgf⟩ := h.firstGap hnext hwn hfull
      unfold Slots.firstGapOf at hg
      refine ⟨g - p, ?_, ?_, ?_⟩
      · rw [Option.bind_eq_bind, Option.bind_some]
        congr 1
        omega
      · exact (hblock.append hgf (by omega)).mono (le_refl _) (by omega)
      · intro _
        rw [show p + (g - p) = g by omega]
        exact hgb
  · rw [if_neg hnext]
    refine ⟨64, rfl, ?_, by omega⟩
    exact fun i h1 _ h3 => hblock i h1 (by omega) h3

/-- The distance to the left, when no gap of the block lies there: it leads into the block
before. -/
theorem leftDistance_prev (h : Reps s v) (hb : b = p / 64)
    (hbs : b < s.bitmapSize) (hw : s.bitmap[b]? = some w)
    (heq : ~~~w &&& ((1#64 <<< (p % 64)) - 1#64) = 0#64) :
    ∃ ld : ℕ, s.closestLeftGapDistance b (p % 64) w = some (ld : ℤ) ∧ LeftDistance v p ld := by
  have hblock : v.Filled (64 * b) p := by
    intro i h1 h2 _
    have hbit := h.leftGaps_bit (p := p) hbs hw (show i - 64 * b < 64 by omega)
    rw [heq, show 64 * b + (i - 64 * b) = i by omega] at hbit
    have hlt : i - 64 * b < p % 64 := by omega
    simpa [hlt] using hbit
  unfold Slots.closestLeftGapDistance
  rw [if_neg (not_not.mpr heq)]
  by_cases hprev : 0 < b
  · obtain ⟨wp, hwp, _⟩ := h.getElem_bitmap (show b - 1 < s.bitmapSize by omega)
    rw [if_pos hprev, hwp]
    by_cases hfull : wp = BitVec.allOnes 64
    · have hone := h.filled_word (by omega) (hfull ▸ hwp)
      refine ⟨p % 64 + 65, ?_, by omega, ?_, by omega⟩
      · rw [Option.bind_eq_bind, Option.bind_some, hfull, not_allOnes, lzcnt_zero]
        congr 1
      · exact (hone.append hblock (by omega)).mono (by omega) (le_refl _)
    · obtain ⟨g, hg, hg1, hg2, hgb, hgf⟩ := h.lastGap (by omega) hwp hfull
      unfold Slots.lastGapOf at hg
      refine ⟨p - g, ?_, by omega, ?_, ?_⟩
      · rw [Option.bind_eq_bind, Option.bind_some]
        congr 1
        omega
      · exact (hgf.append hblock (by omega)).mono (by omega) (le_refl _)
      · intro _
        refine ⟨by omega, ?_⟩
        rw [show p - (p - g) = g by omega]
        exact hgb
  · rw [if_neg hprev]
    exact ⟨64, rfl, by omega, hblock.mono (by omega) (le_refl _), by omega⟩

theorem closestGapInside_spec (h : Reps s v) (hp : p < v.cap) (hb : b = p / 64)
    (hw : s.bitmap[b]? = some w)
    (hgap : ∃ g, 64 * b ≤ g ∧ g < 64 * b + 64 ∧ g < v.cap ∧ v.bit g = false) :
    ∃ r, s.closestGapInside p b (p % 64) w = some r ∧ v.GapAnswer p r := by
  have hbs : b < s.bitmapSize := by
    have := h.size
    omega
  obtain ⟨g, hg1, hg2, hg3, hgb⟩ := hgap
  unfold Slots.closestGapInside
  simp only [Option.bind_eq_bind, h.cap]
  by_cases hl : ~~~w &&& ((1#64 <<< (p % 64)) - 1#64) = 0#64
  · -- no gap on the left of the block, so the gap of the block is on the right
    obtain ⟨ld, hld, hlspec⟩ := h.leftDistance_prev hb hbs hw hl
    have hgp : p ≤ g := by
      by_contra hcon
      have hbit := h.leftGaps_bit (p := p) hbs hw (show g - 64 * b < 64 by omega)
      rw [hl, show 64 * b + (g - 64 * b) = g by omega, hgb] at hbit
      have hlt : g - 64 * b < p % 64 := by omega
      simp [hlt] at hbit
    have hr : ~~~(w ||| ((1#64 <<< (p % 64)) - 1#64)) ≠ 0#64 := by
      intro hr
      have hbit := h.rightGaps_bit (p := p) hbs hw (show g - 64 * b < 64 by omega)
      rw [hr, show 64 * b + (g - 64 * b) = g by omega, hgb] at hbit
      have hle : p % 64 ≤ g - 64 * b := by omega
      simp [hle] at hbit
    obtain ⟨rd, hrd, hrspec, hrle⟩ := h.rightDistance_inside hb hbs hw hr
    have hle := hrle g hgp hg2 hgb
    refine ⟨_, ?_, nearestGap_of_distances hp hrspec hlspec (Or.inr ⟨by omega, by omega⟩)⟩
    simp only [hrd, hld, Option.bind_some]
    split <;> rfl
  · obtain ⟨ld, hld, hlspec, hlt⟩ := h.leftDistance_inside hb hbs hw hl
    by_cases hr : ~~~(w ||| ((1#64 <<< (p % 64)) - 1#64)) = 0#64
    · obtain ⟨rd, hrd, hrspec⟩ := h.rightDistance_next hb hbs hw hr
      refine ⟨_, ?_, nearestGap_of_distances hp hrspec hlspec (Or.inl hlt)⟩
      simp only [hrd, hld, Option.bind_some]
      split <;> rfl
    · obtain ⟨rd, hrd, hrspec, _⟩ := h.rightDistance_inside hb hbs hw hr
      refine ⟨_, ?_, nearestGap_of_distances hp hrspec hlspec (Or.inl hlt)⟩
      simp only [hrd, hld, Option.bind_some]
      split <;> rfl

end inside

/-! ### The whole search -/

/-- A last word has as many ones as it has filled slots. -/
theorem countOnes_last (h : Reps s v) {w : Word} (hw : s.bitmap[s.bitmapSize - 1]? = some w) :
    countOnes w = Nat.count (fun i => v.bit (64 * (s.bitmapSize - 1) + i) = true)
      (v.cap - 64 * (s.bitmapSize - 1)) := by
  have hpos := h.pos
  have hsize := h.size
  obtain ⟨w', hw', hbit⟩ := h.getElem_bitmap (show s.bitmapSize - 1 < s.bitmapSize by omega)
  rw [hw] at hw'
  obtain rfl := Option.some.inj hw'
  have hsplit : (64 : ℕ) = (v.cap - 64 * (s.bitmapSize - 1)) + (64 * s.bitmapSize - v.cap) := by
    omega
  have htail : Nat.count (fun k => w.getLsbD (v.cap - 64 * (s.bitmapSize - 1) + k) = true)
      (64 * s.bitmapSize - v.cap) = 0 := by
    apply Nat.count_of_forall_not
    intro k hk
    rw [hbit _ (by omega), h.clear _ (by omega)]
    exact Bool.false_ne_true
  calc countOnes w = Nat.count (fun i => w.getLsbD i = true) 64 := cpop_eq_count w
    _ = Nat.count (fun i => w.getLsbD i = true) (v.cap - 64 * (s.bitmapSize - 1)) := by
        rw [congrArg (Nat.count _) hsplit, Nat.count_add, htail, Nat.add_zero]
    _ = _ := by
        refine le_antisymm (Nat.count_mono_left ?_) (Nat.count_mono_left ?_)
        all_goals
          intro k hk
          rw [hbit k (by omega)]
          exact id

/-- A full word, or a last word with as many ones as it has slots, has no gap. -/
theorem block_filled (h : Reps s v) {b : ℕ} {w : Word} (hb : b < s.bitmapSize)
    (hw : s.bitmap[b]? = some w) :
    (w = BitVec.allOnes 64 ∨ (b = s.bitmapSize - 1 ∧
      countOnes w = v.cap - ((s.bitmapSize - 1) <<< 6))) ↔
      ∀ i, 64 * b ≤ i → i < 64 * b + 64 → i < v.cap → v.bit i = true := by
  have hsize := h.size
  have hone := h.allOnes_iff hb hw
  rw [Nat.shiftLeft_eq, Nat.mul_comm]
  constructor
  · rintro (hfull | ⟨rfl, hcount⟩) i h1 h2 h3
    · exact hone.mp hfull i h1 h2
    · rw [h.countOnes_last hw] at hcount
      have := Nat.count_iff_forall.mp hcount (i - 64 * (s.bitmapSize - 1)) (by omega)
      rwa [show 64 * (s.bitmapSize - 1) + (i - 64 * (s.bitmapSize - 1)) = i by omega] at this
  · intro hall
    rcases Nat.lt_or_ge v.cap (64 * b + 64) with hlt | hge
    · obtain rfl : b = s.bitmapSize - 1 := by omega
      refine Or.inr ⟨rfl, ?_⟩
      rw [h.countOnes_last hw]
      refine Nat.count_iff_forall.mpr ?_
      intro k hk
      exact hall _ (by omega) (by omega) (by omega)
    · exact Or.inl (hone.mpr (fun i h1 h2 => hall i h1 h2 (by omega)))

/-- `closest_gap` finds the nearest gap. -/
theorem closestGap_spec (h : Reps s v) (pos : ℕ) :
    ∃ r, s.closestGap pos = some r ∧ v.GapAnswer (min pos (v.cap - 1)) r := by
  have hpos := h.pos
  unfold Slots.closestGap
  simp only [h.cap, Option.bind_eq_bind, shift_div, shift_mod]
  have hp : min pos (v.cap - 1) < v.cap := by omega
  generalize min pos (v.cap - 1) = p at hp ⊢
  have hbs : p / 64 < s.bitmapSize := by
    rw [← h.bmLen]
    exact h.div_lt hp
  obtain ⟨w, hw, _⟩ := h.word hp
  simp only [hw, Option.bind_some]
  have hfull := h.block_filled hbs hw
  by_cases hc : w = BitVec.allOnes 64 ∨ (p / 64 = s.bitmapSize - 1 ∧
      countOnes w = v.cap - ((s.bitmapSize - 1) <<< 6))
  · rw [if_pos hc]
    refine h.closestGapOutside_spec hp rfl ?_
    intro i h1 h2 h3
    exact hfull.mp hc i (by omega) (by omega) h1
  · rw [if_neg hc]
    refine h.closestGapInside_spec hp rfl hw ?_
    have hnot := (not_congr hfull).mp hc
    push Not at hnot
    obtain ⟨g, h1, h2, h3, h4⟩ := hnot
    exact ⟨g, h1, h2, h3, by simpa using h4⟩

end Reps

end LearnedIndex.Alexol
