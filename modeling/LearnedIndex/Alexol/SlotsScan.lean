import LearnedIndex.Alexol.SlotsView

/-! # Scanning the filled positions

`get_next_filled_position` and the data-node iterator walk the bitmap word by word, peeling the
rightmost one off a cached word.  `Pending v idx data lo` is the invariant of both: the cached
word `data` holds exactly the filled positions of word `idx` from `lo` on.  One scan
(`scanWords_spec`) finds the next filled position or the end, and an iterator started at `left`
visits the filled positions from `left` on in increasing order (`positionsFrom_eq`). -/

namespace LearnedIndex.Alexol

open LearnedIndex.Words

namespace View
variable {P : Type}

/-- The filled positions from `lo` on, in increasing order. -/
def filledFrom (v : View P) (lo : ℕ) : List ℕ := (List.range' lo (v.cap - lo)).filter v.bit

theorem mem_filledFrom {v : View P} {lo i : ℕ} :
    i ∈ v.filledFrom lo ↔ lo ≤ i ∧ i < v.cap ∧ v.bit i = true := by
  unfold filledFrom
  rw [List.mem_filter, List.mem_range'_1]
  constructor
  · rintro ⟨⟨h1, h2⟩, h3⟩
    exact ⟨h1, by omega, h3⟩
  · rintro ⟨h1, h2, h3⟩
    exact ⟨⟨h1, by omega⟩, h3⟩

theorem filledFrom_eq_nil {v : View P} {lo : ℕ} (h : ∀ i, lo ≤ i → i < v.cap → v.bit i = false) :
    v.filledFrom lo = [] := by
  apply List.eq_nil_iff_forall_not_mem.mpr
  intro i hi
  obtain ⟨h1, h2, h3⟩ := mem_filledFrom.mp hi
  rw [h i h1 h2] at h3
  cases h3

theorem filledFrom_eq_cons {v : View P} {lo j : ℕ} (hlo : lo ≤ j) (hj : j < v.cap)
    (hb : v.bit j = true) (hgap : ∀ i, lo ≤ i → i < j → v.bit i = false) :
    v.filledFrom lo = j :: v.filledFrom (j + 1) := by
  unfold filledFrom
  have hsplit : List.range' lo (v.cap - lo) =
      List.range' lo (j - lo) ++ j :: List.range' (j + 1) (v.cap - (j + 1)) := by
    have h1 : v.cap - lo = (j - lo) + (v.cap - j) := by omega
    have h2 : v.cap - j = (v.cap - (j + 1)) + 1 := by omega
    have h3 : lo + (j - lo) = j := by omega
    rw [h1, ← List.range'_append_1, h3, h2, List.range'_succ]
  rw [hsplit, List.filter_append]
  have hnil : (List.range' lo (j - lo)).filter v.bit = [] := by
    apply List.filter_eq_nil_iff.mpr
    intro i hi
    rw [List.mem_range'_1] at hi
    rw [hgap i hi.1 (by omega)]
    simp
  rw [hnil, List.nil_append, List.filter_cons_of_pos hb]

theorem filledFrom_of_ge {v : View P} {lo : ℕ} (h : v.cap ≤ lo) : v.filledFrom lo = [] :=
  filledFrom_eq_nil (fun i h1 h2 => by omega)

end View

/-- The cached word holds the filled positions of word `idx` from `lo` on. -/
structure Pending {P : Type} (v : View P) (idx : ℕ) (data : Word) (lo : ℕ) : Prop where
  le : lo ≤ 64 * (idx + 1)
  bit : ∀ i, i < 64 → data.getLsbD i = (v.bit (64 * idx + i) && decide (lo ≤ 64 * idx + i))

namespace Reps

variable {P : Type} {s : Slots P} {v : View P}

theorem size_pos (h : Reps s v) : 0 < s.bitmapSize := by
  have := h.pos
  rw [h.size]
  omega

theorem bit_of_size (h : Reps s v) {i : ℕ} (hi : 64 * s.bitmapSize ≤ i) : v.bit i = false := by
  apply h.clear
  rw [h.size] at hi
  omega

theorem getElem_bitmap (h : Reps s v) {idx : ℕ} (hi : idx < s.bitmapSize) :
    ∃ w, s.bitmap[idx]? = some w ∧ ∀ i, i < 64 → w.getLsbD i = v.bit (64 * idx + i) := by
  have hlt : idx < s.bitmap.length := by rw [h.bmLen]; exact hi
  refine ⟨_, List.getElem?_eq_getElem hlt, ?_⟩
  intro i hi64
  have h1 : (64 * idx + i) / 64 = idx := by omega
  have h2 : (64 * idx + i) % 64 = i := by omega
  rw [← h.bit]
  have hget : s.bitmap[(64 * idx + i) / 64]? = some s.bitmap[idx] := by
    rw [h1]
    exact List.getElem?_eq_getElem hlt
  rw [bitAt_eq hget, h2]

/-- A whole word caches its filled positions. -/
theorem pending_word (h : Reps s v) {idx : ℕ} {w : Word} (hi : idx < s.bitmapSize)
    (hw : s.bitmap[idx]? = some w) {lo : ℕ} (hlo : lo ≤ 64 * idx) : Pending v idx w lo := by
  obtain ⟨w', hw', hb⟩ := h.getElem_bitmap hi
  rw [hw] at hw'
  obtain rfl := Option.some.inj hw'
  refine ⟨by omega, ?_⟩
  intro i hi64
  have hle : lo ≤ 64 * idx + i := by omega
  rw [hb i hi64]
  simp [hle]

/-- Zeroing the bits below the start position of a word. -/
theorem pending_mask (h : Reps s v) {pos : ℕ} {w : Word} (hi : pos / 64 < s.bitmapSize)
    (hw : s.bitmap[pos / 64]? = some w) :
    Pending v (pos / 64) (w &&& ~~~((1#64 <<< (pos % 64)) - 1#64)) pos := by
  obtain ⟨w', hw', hb⟩ := h.getElem_bitmap hi
  rw [hw] at hw'
  obtain rfl := Option.some.inj hw'
  refine ⟨by omega, ?_⟩
  intro i hi64
  rw [getLsbD_and_not_mask _ (Nat.mod_lt _ (by omega)) hi64, hb i hi64]
  have : pos % 64 ≤ i ↔ pos ≤ 64 * (pos / 64) + i := by omega
  simp only [this]

theorem Pending.clear {idx lo : ℕ} (hp : Pending v idx 0#64 lo) {i : ℕ} (h1 : lo ≤ i)
    (h2 : 64 * idx ≤ i) (h3 : i < 64 * (idx + 1)) : v.bit i = false := by
  have h := hp.bit (i - 64 * idx) (by omega)
  have he : 64 * idx + (i - 64 * idx) = i := by omega
  rw [he] at h
  simpa [h1] using h

/-- One scan: the end of the bitmap, or the first word with a filled position from `lo` on. -/
theorem scanWords_spec (h : Reps s v) {lo : ℕ} : ∀ (fuel idx : ℕ) (data : Word),
    idx < s.bitmapSize → s.bitmapSize ≤ idx + 1 + fuel → Pending v idx data lo →
    (∀ i, lo ≤ i → i < 64 * idx → v.bit i = false) →
    (s.scanWords fuel idx data = some none ∧ ∀ i, lo ≤ i → v.bit i = false) ∨
    ∃ idx' data', s.scanWords fuel idx data = some (some (idx', data')) ∧ idx' < s.bitmapSize ∧
      data' ≠ 0#64 ∧ Pending v idx' data' lo ∧ ∀ i, lo ≤ i → i < 64 * idx' → v.bit i = false := by
  intro fuel
  induction fuel with
  | zero =>
      intro idx data hidx hfuel hp hbefore
      by_cases hd : data = 0#64
      · subst hd
        have hend : s.bitmapSize ≤ idx + 1 := by omega
        refine Or.inl ⟨by simp [Slots.scanWords, hend], ?_⟩
        intro i hi
        rcases Nat.lt_or_ge i (64 * idx) with hlt | hge
        · exact hbefore i hi hlt
        · rcases Nat.lt_or_ge i (64 * (idx + 1)) with hlt' | hge'
          · exact Pending.clear hp hi hge hlt'
          · exact h.bit_of_size (by omega)
      · exact Or.inr ⟨idx, data, by simp [Slots.scanWords, hd], hidx, hd, hp, hbefore⟩
  | succ fuel ih =>
      intro idx data hidx hfuel hp hbefore
      by_cases hd : data = 0#64
      · subst hd
        have hbefore' : ∀ i, lo ≤ i → i < 64 * (idx + 1) → v.bit i = false := by
          intro i hi hlt
          rcases Nat.lt_or_ge i (64 * idx) with hlt' | hge
          · exact hbefore i hi hlt'
          · exact Pending.clear hp hi hge hlt
        by_cases hend : s.bitmapSize ≤ idx + 1
        · refine Or.inl ⟨by unfold Slots.scanWords; simp [hend], ?_⟩
          intro i hi
          rcases Nat.lt_or_ge i (64 * (idx + 1)) with hlt | hge
          · exact hbefore' i hi hlt
          · exact h.bit_of_size (by omega)
        · obtain ⟨w, hw, _⟩ := h.getElem_bitmap (show idx + 1 < s.bitmapSize by omega)
          have hstep : s.scanWords (fuel + 1) idx 0#64 = s.scanWords fuel (idx + 1) w := by
            rw [Slots.scanWords]
            simp [hend, hw]
          rw [hstep]
          exact ih (idx + 1) w (by omega) (by omega) (h.pending_word (by omega) hw hp.le) hbefore'
      · exact Or.inr ⟨idx, data, by unfold Slots.scanWords; simp [hd], hidx, hd, hp, hbefore⟩

/-- The rightmost one of a cached word is the next filled position. -/
theorem pending_first {idx lo : ℕ} {data : Word} (hp : Pending v idx data lo)
    (hd : data ≠ 0#64) (hbefore : ∀ i, lo ≤ i → i < 64 * idx → v.bit i = false) :
    ∃ j, getOffset idx (extractRightmostOne data) = j ∧ lo ≤ j ∧ v.bit j = true ∧
      (∀ i, lo ≤ i → i < j → v.bit i = false) ∧
      Pending v idx (removeRightmostOne data) (j + 1) := by
  have hlt := ctz_lt hd
  have htop := BitVec.getLsbD_true_ctz_of_ne_zero hd
  have hj := hp.bit _ hlt
  rw [htop] at hj
  have hj' := hj.symm
  rw [Bool.and_eq_true, decide_eq_true_eq] at hj'
  refine ⟨64 * idx + data.ctz.toNat, getOffset_extractRightmostOne hd idx, hj'.2, hj'.1, ?_, ?_⟩
  · intro i h1 h2
    rcases Nat.lt_or_ge i (64 * idx) with hlt' | hge
    · exact hbefore i h1 hlt'
    · have hb := hp.bit (i - 64 * idx) (by omega)
      have he : 64 * idx + (i - 64 * idx) = i := by omega
      rw [he, BitVec.getLsbD_false_of_lt_ctz (by omega)] at hb
      simpa [h1] using hb
  · refine ⟨by omega, ?_⟩
    intro i hi
    rw [getLsbD_removeRightmostOne hd, hp.bit i hi]
    have hiff : (lo ≤ 64 * idx + i ∧ i ≠ data.ctz.toNat ∧ v.bit (64 * idx + i) = true) ↔
        (64 * idx + data.ctz.toNat + 1 ≤ 64 * idx + i ∧ v.bit (64 * idx + i) = true) := by
      constructor
      · rintro ⟨h1, h2, h3⟩
        refine ⟨?_, h3⟩
        have hb := hp.bit i hi
        rw [h3] at hb
        by_contra hcon
        rw [BitVec.getLsbD_false_of_lt_ctz (by omega)] at hb
        simp [h1] at hb
      · rintro ⟨h1, h2⟩
        exact ⟨by omega, by omega, h2⟩
    apply Bool.eq_iff_iff.mpr
    simp only [Bool.and_eq_true, decide_eq_true_eq]
    constructor
    · rintro ⟨⟨h1, h2⟩, h3⟩
      exact ⟨h1, (hiff.mp ⟨h2, h3, h1⟩).1⟩
    · rintro ⟨h1, h2⟩
      have := hiff.mpr ⟨h2, h1⟩
      exact ⟨⟨h1, this.1⟩, this.2.1⟩

/-! ### The next filled position -/

/-- The position found is filled, or is the capacity, and there is no filled one before it. -/
theorem getNextFilledPosition_spec (h : Reps s v) (past : Option Word) {pos : ℕ} {exclusive : Bool}
    (hp : (if exclusive then pos + 1 else pos) < v.cap) :
    ∃ j, s.getNextFilledPosition past pos exclusive = some j ∧
      (if exclusive then pos + 1 else pos) ≤ j ∧ j ≤ v.cap ∧ (j < v.cap → v.bit j = true) ∧
      ∀ i, (if exclusive then pos + 1 else pos) ≤ i → i < j → v.bit i = false := by
  unfold Slots.getNextFilledPosition
  generalize hq : (if exclusive = true then pos + 1 else pos) = q at hp ⊢
  have hne : ¬ (exclusive = true ∧ q = s.dataCapacity) := by
    rw [h.cap]
    omega
  have hidx : q / 64 < s.bitmapSize := by
    rw [← h.bmLen]
    exact h.div_lt hp
  obtain ⟨w, hw, _⟩ := h.word hp
  have hword : s.wordAt past (q / 64) = some w := by
    unfold Slots.wordAt
    rw [if_neg (by omega)]
    exact hw
  simp only [hne, if_false, shift_div, shift_mod, hword, Option.bind_eq_bind, Option.bind_some]
  have hpend := h.pending_mask hidx hw
  rcases h.scanWords_spec s.bitmapSize _ _ hidx (by omega) hpend (fun i h1 h2 => by omega) with
    ⟨he, hclear⟩ | ⟨idx', data', he, hidx', hd, hpend', hbefore⟩
  · rw [he]
    refine ⟨v.cap, by simp [h.cap], by omega, le_rfl, fun hc => absurd hc (lt_irrefl _), ?_⟩
    exact fun i h1 _ => hclear i h1
  · obtain ⟨j, hj, h1, h2, h3, _⟩ := pending_first hpend' hd hbefore
    rw [he]
    have hjcap : j < v.cap := by
      by_contra hcon
      rw [h.clear j (by omega)] at h2
      cases h2
    exact ⟨j, by simp [hj], h1, hjcap.le, fun _ => h2, h3⟩

/-! ### The iterator -/

/-- `operator++` from a cached word: the end, or the next filled position. -/
theorem iter_next_spec (h : Reps s v) (it : Slots.Iter) {lo : ℕ}
    (hidx : it.curBitmapIdx < s.bitmapSize) (hp : Pending v it.curBitmapIdx it.curBitmapData lo)
    (hbefore : ∀ i, lo ≤ i → i < 64 * it.curBitmapIdx → v.bit i = false) :
    ∃ it', Slots.Iter.next s it = some it' ∧
      ((it'.curIdx = none ∧ ∀ i, lo ≤ i → v.bit i = false) ∨
        ∃ j, it'.curIdx = some j ∧ lo ≤ j ∧ v.bit j = true ∧
          (∀ i, lo ≤ i → i < j → v.bit i = false) ∧ it'.curBitmapIdx < s.bitmapSize ∧
          64 * it'.curBitmapIdx ≤ j ∧ Pending v it'.curBitmapIdx it'.curBitmapData (j + 1)) := by
  unfold Slots.Iter.next
  rcases h.scanWords_spec s.bitmapSize _ _ hidx (by omega) hp hbefore with
    ⟨he, hclear⟩ | ⟨idx', data', he, hidx', hd, hpend', hbefore'⟩
  · exact ⟨_, by rw [he]; rfl, Or.inl ⟨rfl, hclear⟩⟩
  · obtain ⟨j, hj, h1, h2, h3, h4⟩ := pending_first hpend' hd hbefore'
    refine ⟨_, by rw [he]; rfl, Or.inr ⟨j, by simp [hj], h1, h2, h3, hidx', ?_, h4⟩⟩
    rw [← hj, getOffset_extractRightmostOne hd]
    exact Nat.le_add_right _ _

theorem iter_positions_spec (h : Reps s v) : ∀ (fuel : ℕ) (it : Slots.Iter) (j : ℕ),
    v.cap ≤ j + fuel → it.curIdx = some j → j < v.cap → v.bit j = true →
    it.curBitmapIdx < s.bitmapSize → 64 * it.curBitmapIdx ≤ j →
    Pending v it.curBitmapIdx it.curBitmapData (j + 1) →
    Slots.Iter.positions s fuel it = some (j :: v.filledFrom (j + 1))
  | 0, it, j, hf, _, hj, _, _, _, _ => by omega
  | fuel + 1, it, j, hf, hcur, hj, hb, hidx, hle, hp => by
      obtain ⟨it', hnext, hcase⟩ := h.iter_next_spec it hidx hp (fun i h1 h2 => by omega)
      unfold Slots.Iter.positions
      simp only [hcur, hnext, Option.bind_eq_bind, Option.bind_some]
      rcases hcase with ⟨hend, hclear⟩ | ⟨j', hcur', h1, h2, h3, h4, h5, h6⟩
      · rw [View.filledFrom_eq_nil (fun i h1 _ => hclear i h1)]
        have hnil : Slots.Iter.positions s fuel it' = some [] := by
          unfold Slots.Iter.positions
          simp [hend]
        rw [hnil]
        rfl
      · have hj' : j' < v.cap := by
          by_contra hcon
          rw [h.clear j' (by omega)] at h2
          cases h2
        rw [iter_positions_spec h fuel it' j' (by omega) hcur' hj' h2 h4 h5 h6,
          View.filledFrom_eq_cons h1 hj' h2 h3]
        rfl

/-- An iterator over a word past the bitmap visits only positions at or above the capacity. -/
theorem iter_positions_past (h : Reps s v) : ∀ (fuel : ℕ) (it : Slots.Iter) (j : ℕ),
    64 * (s.bitmapSize + 1) ≤ j + fuel → it.curIdx = some j → j < 64 * (s.bitmapSize + 1) →
    v.cap ≤ j → it.curBitmapIdx = s.bitmapSize →
    (∀ i, it.curBitmapData.getLsbD i = true → j < 64 * s.bitmapSize + i) →
    ∃ l, Slots.Iter.positions s fuel it = some l ∧ ∀ i ∈ l, v.cap ≤ i
  | 0, it, j, hf, _, hj, _, _, _ => by omega
  | fuel + 1, it, j, hf, hcur, hj, hcap, hidx, hbits => by
      unfold Slots.Iter.positions
      simp only [hcur, Option.bind_eq_bind]
      by_cases hd : it.curBitmapData = 0#64
      · have hnext : Slots.Iter.next s it =
            some { it with curIdx := none, curBitmapIdx :=
              s.bitmapSize, curBitmapData := 0#64 } := by
          unfold Slots.Iter.next Slots.scanWords
          simp [hd, hidx]
        refine ⟨[j], ?_, by simpa using hcap⟩
        rw [hnext, Option.bind_some]
        unfold Slots.Iter.positions
        rfl
      · have hnext : Slots.Iter.next s it =
            some ⟨some (64 * s.bitmapSize + it.curBitmapData.ctz.toNat), s.bitmapSize,
              removeRightmostOne it.curBitmapData⟩ := by
          unfold Slots.Iter.next Slots.scanWords
          simp only [hd, if_false, Option.bind_eq_bind, Option.bind_some]
          rw [getOffset_extractRightmostOne hd, hidx]
        have hlt := ctz_lt hd
        have hgt := hbits _ (BitVec.getLsbD_true_ctz_of_ne_zero hd)
        obtain ⟨l, hl, hall⟩ := iter_positions_past h fuel
          ⟨some (64 * s.bitmapSize + it.curBitmapData.ctz.toNat), s.bitmapSize,
            removeRightmostOne it.curBitmapData⟩ _ (by omega) rfl (by omega) (by omega) rfl (by
            intro i hi
            rw [getLsbD_removeRightmostOne hd, Bool.and_eq_true, decide_eq_true_eq] at hi
            have hle : it.curBitmapData.ctz.toNat ≤ i := by
              by_contra hcon
              rw [BitVec.getLsbD_false_of_lt_ctz (by omega)] at hi
              cases hi.1
            omega)
        refine ⟨j :: l, ?_, ?_⟩
        · rw [hnext, Option.bind_some, hl]
          rfl
        · intro i hi
          rcases List.mem_cons.mp hi with rfl | hi
          · exact hcap
          · exact hall i hi

/-- An iterator from a position below the capacity is at its end, or at the next filled
position. -/
theorem iter_init_spec (h : Reps s v) (past : Option Word) {left : ℕ} (hl : left < v.cap) :
    ∃ it, Slots.Iter.init past s left = some it ∧
      ((it.curIdx = none ∧ ∀ i, left ≤ i → v.bit i = false) ∨
        ∃ j, it.curIdx = some j ∧ left ≤ j ∧ v.bit j = true ∧
          (∀ i, left ≤ i → i < j → v.bit i = false) ∧ it.curBitmapIdx < s.bitmapSize ∧
          64 * it.curBitmapIdx ≤ j ∧ Pending v it.curBitmapIdx it.curBitmapData (j + 1)) := by
  have hidx : left / 64 < s.bitmapSize := by
    rw [← h.bmLen]
    exact h.div_lt hl
  obtain ⟨w, hw, _⟩ := h.word hl
  have hword : s.wordAt past (left / 64) = some w := by
    unfold Slots.wordAt
    rw [if_neg (by omega)]
    exact hw
  obtain ⟨it, hnext, hcase⟩ := h.iter_next_spec
    ⟨some left, left / 64, w &&& ~~~((1#64 <<< (left % 64)) - 1#64)⟩ hidx (h.pending_mask hidx hw)
    (fun i h1 h2 => by simp only at h2; omega)
  refine ⟨it, ?_, hcase⟩
  unfold Slots.Iter.init
  simp only [shift_div, shift_mod, hword, Option.bind_eq_bind, Option.bind_some, hnext]

theorem lt_cap (h : Reps s v) {j : ℕ} (hb : v.bit j = true) : j < v.cap := by
  by_contra hcon
  rw [h.clear j (by omega)] at hb
  cases hb

/-- From a position below the capacity the iterator visits exactly the filled positions. -/
theorem positionsFrom_eq (h : Reps s v) (past : Option Word) {left : ℕ} (hl : left < v.cap) :
    s.positionsFrom past left = some (v.filledFrom left) := by
  obtain ⟨it, hinit, hcase⟩ := h.iter_init_spec past hl
  unfold Slots.positionsFrom
  rw [hinit, Option.bind_eq_bind, Option.bind_some]
  rcases hcase with ⟨hend, hclear⟩ | ⟨j, hcur, h1, h2, h3, h4, h5, h6⟩
  · rw [View.filledFrom_eq_nil (fun i h1 _ => hclear i h1)]
    unfold Slots.Iter.positions
    simp [hend]
  · have hj := h.lt_cap h2
    have hfuel : v.cap ≤ j + 64 * (s.bitmapSize + 1) := by
      rw [h.size]
      omega
    rw [h.iter_positions_spec _ it j hfuel hcur hj h2 h4 h5 h6, View.filledFrom_eq_cons h1 hj h2 h3]

/-- Started at the capacity the iterator visits nothing below the capacity, whatever the word
past the bitmap holds. -/
theorem positionsFrom_cap (h : Reps s v) (past : Word) :
    ∃ l, s.positionsFrom (some past) v.cap = some l ∧ ∀ i ∈ l, v.cap ≤ i := by
  unfold Slots.positionsFrom Slots.Iter.init
  simp only [shift_div, shift_mod, Option.bind_eq_bind]
  rcases Nat.lt_or_ge (v.cap / 64) s.bitmapSize with hidx | hidx
  · obtain ⟨w, hw, _⟩ := h.getElem_bitmap hidx
    have hword : s.wordAt (some past) (v.cap / 64) = some w := by
      unfold Slots.wordAt
      rw [if_neg (by omega)]
      exact hw
    rw [hword, Option.bind_some]
    obtain ⟨it, hnext, hcase⟩ := h.iter_next_spec
      ⟨some v.cap, v.cap / 64, w &&& ~~~((1#64 <<< (v.cap % 64)) - 1#64)⟩ hidx
      (h.pending_mask hidx hw) (fun i h1 h2 => by simp only at h2; omega)
    rw [hnext, Option.bind_some]
    rcases hcase with ⟨hend, _⟩ | ⟨j, _, h1, h2, _⟩
    · refine ⟨[], ?_, by simp⟩
      unfold Slots.Iter.positions
      simp [hend]
    · rw [h.clear j h1] at h2
      cases h2
  · have hsize := h.size
    have hcap : v.cap = 64 * s.bitmapSize := by omega
    have hdiv : v.cap / 64 = s.bitmapSize := by omega
    have hmod : v.cap % 64 = 0 := by omega
    have hword : s.wordAt (some past) (v.cap / 64) = some past := by
      unfold Slots.wordAt
      rw [if_pos hdiv]
    rw [hword, Option.bind_some, hmod]
    generalize hdata : past &&& ~~~((1#64 <<< 0) - 1#64) = data
    -- the start position stands for a position visited just before the word
    by_cases hd : data = 0#64
    · refine ⟨[], ?_, by simp⟩
      have hnext : Slots.Iter.next s ⟨some v.cap, v.cap / 64, data⟩ =
          some ⟨none, s.bitmapSize, 0#64⟩ := by
        unfold Slots.Iter.next Slots.scanWords
        simp [hd, hdiv]
      rw [hnext, Option.bind_some]
      unfold Slots.Iter.positions
      rfl
    · have hlt := ctz_lt hd
      have hnext : Slots.Iter.next s ⟨some v.cap, v.cap / 64, data⟩ =
          some ⟨some (64 * s.bitmapSize + data.ctz.toNat), s.bitmapSize,
            removeRightmostOne data⟩ := by
        unfold Slots.Iter.next Slots.scanWords
        simp only [hd, if_false, Option.bind_eq_bind, Option.bind_some]
        rw [getOffset_extractRightmostOne hd, hdiv]
      rw [hnext, Option.bind_some]
      refine h.iter_positions_past _ _ _ (by omega) rfl (by omega) (by omega) rfl ?_
      intro i hi
      rw [getLsbD_removeRightmostOne hd, Bool.and_eq_true, decide_eq_true_eq] at hi
      have hle : data.ctz.toNat ≤ i := by
        by_contra hcon
        rw [BitVec.getLsbD_false_of_lt_ctz (by omega)] at hi
        cases hi.1
      omega

end Reps

end LearnedIndex.Alexol
