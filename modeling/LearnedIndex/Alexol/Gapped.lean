import LearnedIndex.Alexol.ClosestGap

/-! # Gapped arrays

A gapped array keeps its pairs in key order with gaps between them, and every gap repeats the key
of the next filled slot (the end sentinel when there is none).  `GappedTo v k n e` says so of the
slots below `n`, where `k` extends the key slots by the constant `e` from `n` on; `Gapped T v k`
is the invariant of a whole data node.  `View.entries` lists the pairs in slot order.

For each routine that writes there is a lemma with its effect on the view, on `k` and on the
entries. -/

namespace LearnedIndex.Alexol

open LearnedIndex.Words

namespace View
variable {P : Type} {v v' : View P}

/-! ### Entries -/

/-- The pair stored at a filled position. -/
def cell (v : View P) (i : ℕ) : Option (ℤ × P) :=
  if v.bit i then (v.key i).bind (fun k => (v.pay i).map (fun p => (k, p))) else none

/-- The pairs stored in `[lo, hi)`. -/
def seg (v : View P) (lo hi : ℕ) : List (ℤ × P) := (List.range' lo (hi - lo)).filterMap v.cell

/-- The pairs of the array, in slot order. -/
def entries (v : View P) : List (ℤ × P) := v.seg 0 v.cap

theorem cell_gap {i : ℕ} (h : v.bit i = false) : v.cell i = none := by
  simp [cell, h]

theorem cell_filled {i : ℕ} {k : ℤ} {p : P} (hb : v.bit i = true) (hk : v.key i = some k)
    (hp : v.pay i = some p) : v.cell i = some (k, p) := by
  simp [cell, hb, hk, hp]

theorem cell_congr {i j : ℕ} (hb : v'.bit i = v.bit j) (hk : v'.key i = v.key j)
    (hp : v'.pay i = v.pay j) : v'.cell i = v.cell j := by
  unfold cell
  rw [hb, hk, hp]

theorem seg_append {lo mid hi : ℕ} (h1 : lo ≤ mid) (h2 : mid ≤ hi) :
    v.seg lo hi = v.seg lo mid ++ v.seg mid hi := by
  unfold seg
  rw [← List.filterMap_append]
  congr 1
  have h := List.range'_append_1 (s := lo) (m := mid - lo) (n := hi - mid)
  rw [show lo + (mid - lo) = mid by omega, show mid - lo + (hi - mid) = hi - lo by omega] at h
  exact h.symm

theorem seg_empty {lo hi : ℕ} (h : hi ≤ lo) : v.seg lo hi = [] := by
  unfold seg
  rw [show hi - lo = 0 by omega]
  rfl

theorem seg_congr {lo hi : ℕ} (h : ∀ i, lo ≤ i → i < hi → v'.cell i = v.cell i) :
    v'.seg lo hi = v.seg lo hi := by
  unfold seg
  apply List.filterMap_congr
  intro i hi'
  rw [List.mem_range'_1] at hi'
  exact h i hi'.1 (by omega)

/-- Segments that differ by a shift of one. -/
theorem seg_shift {lo hi : ℕ} (h : ∀ i, lo ≤ i → i < hi → v'.cell (i + 1) = v.cell i) :
    v'.seg (lo + 1) (hi + 1) = v.seg lo hi := by
  unfold seg
  rw [show hi + 1 - (lo + 1) = hi - lo by omega, Nat.add_comm lo 1,
    ← List.map_add_range' lo (hi - lo) 1, List.filterMap_map]
  apply List.filterMap_congr
  intro i hi'
  rw [List.mem_range'_1] at hi'
  rw [Function.comp_apply, Nat.add_comm]
  exact h i hi'.1 (by omega)

theorem seg_gaps {lo hi : ℕ} (h : ∀ i, lo ≤ i → i < hi → v.bit i = false) : v.seg lo hi = [] := by
  unfold seg
  rw [List.filterMap_eq_nil_iff]
  intro i hi'
  rw [List.mem_range'_1] at hi'
  exact cell_gap (h i hi'.1 (by omega))

theorem seg_single {i : ℕ} : v.seg i (i + 1) = (v.cell i).toList := by
  unfold seg
  rw [show i + 1 - i = 1 by omega]
  show List.filterMap v.cell [i] = _
  cases h : v.cell i <;> simp [h]

theorem mem_seg {lo hi : ℕ} {e : ℤ × P} :
    e ∈ v.seg lo hi ↔ ∃ i, lo ≤ i ∧ i < hi ∧ v.cell i = some e := by
  unfold seg
  rw [List.mem_filterMap]
  constructor
  · rintro ⟨i, hi, hc⟩
    rw [List.mem_range'_1] at hi
    exact ⟨i, hi.1, by omega, hc⟩
  · rintro ⟨i, h1, h2, hc⟩
    exact ⟨i, by rw [List.mem_range'_1]; omega, hc⟩

theorem cell_eq_some {i : ℕ} {k : ℤ} {p : P} :
    v.cell i = some (k, p) ↔ v.bit i = true ∧ v.key i = some k ∧ v.pay i = some p := by
  unfold cell
  cases hb : v.bit i with
  | false => simp
  | true =>
      cases hk : v.key i with
      | none => simp
      | some k' => cases hp : v.pay i <;> simp

/-! ### The invariant -/

/-- Set the keys of `[lo, lo + n)`. -/
def fill (v : View P) (key : ℤ) (lo n : ℕ) : View P :=
  { v with key := fun i => if lo ≤ i ∧ i < lo + n then some key else v.key i }

/-- Move the slots of `[pos, pos + n)` one to the right. -/
def moveRight (v : View P) (pos n : ℕ) : View P :=
  { v with
    key := fun i => if pos < i ∧ i ≤ pos + n then v.key (i - 1) else v.key i
    pay := fun i => if pos < i ∧ i ≤ pos + n then v.pay (i - 1) else v.pay i }

/-- Move the slots of `[gap + 1, gap + 1 + n)` one to the left. -/
def moveLeft (v : View P) (gap n : ℕ) : View P :=
  { v with
    key := fun i => if gap ≤ i ∧ i < gap + n then v.key (i + 1) else v.key i
    pay := fun i => if gap ≤ i ∧ i < gap + n then v.pay (i + 1) else v.pay i }

/-- Make gaps of the slots of `[lo, hi)`, all with the key `key`. -/
def clear (v : View P) (key : ℤ) (lo hi : ℕ) : View P :=
  { v with
    key := fun i => if lo ≤ i ∧ i < hi then some key else v.key i
    bit := fun i => if lo ≤ i ∧ i < hi then false else v.bit i }

@[simp] theorem fill_cap (v : View P) (key : ℤ) (lo n : ℕ) : (v.fill key lo n).cap = v.cap := rfl
@[simp] theorem fill_bit (v : View P) (key : ℤ) (lo n : ℕ) : (v.fill key lo n).bit = v.bit := rfl
@[simp] theorem fill_pay (v : View P) (key : ℤ) (lo n : ℕ) : (v.fill key lo n).pay = v.pay := rfl
@[simp] theorem moveRight_cap (v : View P) (pos n : ℕ) : (v.moveRight pos n).cap = v.cap := rfl
@[simp] theorem moveRight_bit (v : View P) (pos n : ℕ) : (v.moveRight pos n).bit = v.bit := rfl
@[simp] theorem moveLeft_cap (v : View P) (gap n : ℕ) : (v.moveLeft gap n).cap = v.cap := rfl
@[simp] theorem moveLeft_bit (v : View P) (gap n : ℕ) : (v.moveLeft gap n).bit = v.bit := rfl
@[simp] theorem clear_cap (v : View P) (key : ℤ) (lo hi : ℕ) : (v.clear key lo hi).cap = v.cap :=
  rfl
@[simp] theorem clear_pay (v : View P) (key : ℤ) (lo hi : ℕ) : (v.clear key lo hi).pay = v.pay :=
  rfl

theorem setKey_fill (v : View P) (key : ℤ) (lo n : ℕ) :
    (v.setKey lo key).fill key (lo + 1) n = v.fill key lo (n + 1) := by
  unfold setKey fill
  congr 1
  funext i
  simp only [Function.update_apply]
  split_ifs <;> first | rfl | omega

theorem setKey_fill_above (v : View P) (key : ℤ) {j pos : ℕ} (hj : j ≤ pos) :
    (v.setKey pos key).fill key j (pos - j) = v.fill key j (pos + 1 - j) := by
  unfold setKey fill
  congr 1
  funext i
  simp only [Function.update_apply]
  split_ifs <;> first | rfl | omega

/-- A pair that was just written, after the slots below it have been overwritten. -/
theorem put_fill_cell (v : View P) (key : ℤ) (p : P) {c pos : ℕ} (hcp : c ≤ pos) :
    ((v.put pos key p).fill key c (pos - c)).cell pos = some (key, p) := by
  refine cell_eq_some.mpr ⟨Function.update_self _ _ _, ?_, Function.update_self _ _ _⟩
  show (if c ≤ pos ∧ pos < c + (pos - c) then some key else (v.put pos key p).key pos) = some key
  rw [if_neg (by omega)]
  exact Function.update_self _ _ _

theorem put_cell (v : View P) (key : ℤ) (p : P) (pos : ℕ) :
    (v.put pos key p).cell pos = some (key, p) :=
  cell_eq_some.mpr ⟨Function.update_self _ _ _, Function.update_self _ _ _,
    Function.update_self _ _ _⟩

theorem fill_zero (v : View P) (key : ℤ) (lo : ℕ) : v.fill key lo 0 = v := by
  unfold fill
  congr 1
  funext i
  rw [if_neg (by omega)]

theorem copy_moveRight (v : View P) (pos n : ℕ) :
    (v.copy (pos + n + 1) (pos + n)).moveRight pos n = v.moveRight pos (n + 1) := by
  unfold copy moveRight
  congr 1
  all_goals
    funext i
    simp only [Function.update_apply]
    by_cases hi : i = pos + n + 1
    · subst hi
      rw [if_neg (by omega), if_pos rfl, if_pos (by omega), Nat.add_sub_cancel]
    · split_ifs <;> first | rfl | omega

theorem copy_moveLeft (v : View P) (gap n : ℕ) :
    (v.copy gap (gap + 1)).moveLeft (gap + 1) n = v.moveLeft gap (n + 1) := by
  unfold copy moveLeft
  congr 1
  all_goals
    funext i
    simp only [Function.update_apply]
    by_cases hi : i = gap
    · subst hi
      rw [if_neg (by omega), if_pos rfl, if_pos (by omega)]
    · split_ifs <;> first | rfl | omega

theorem clear_empty (v : View P) (key : ℤ) (lo : ℕ) : v.clear key lo lo = v := by
  unfold clear
  congr 1
  all_goals
    funext i
    rw [if_neg (by omega)]

theorem setKey_clear (v : View P) (key : ℤ) {lo pos : ℕ} (h : lo ≤ pos) :
    ((v.setKey pos key).setBit pos false).clear key lo pos = v.clear key lo (pos + 1) := by
  unfold setKey setBit clear
  congr 1
  all_goals
    funext i
    simp only [Function.update_apply]
    split_ifs <;> first | rfl | omega

/-- The slots below `n` form a gapped array whose keys are `k`; `k` continues with `e`. -/
structure GappedTo (v : View P) (k : ℕ → ℤ) (n : ℕ) (e : ℤ) : Prop where
  init : ∀ i, i < n → v.key i = some (k i)
  past : ∀ i, n ≤ i → k i = e
  step : ∀ i, k i ≤ k (i + 1)
  gap : ∀ i, i < n → v.bit i = false → k i = k (i + 1)
  pay : ∀ i, i < n → v.bit i = true → ∃ p, v.pay i = some p

/-- The invariant of the arrays of a data node. -/
structure Gapped (T : KeyType) (v : View P) (k : ℕ → ℤ) : Prop
    extends GappedTo v k v.cap T.max

namespace GappedTo

variable {k : ℕ → ℤ} {n : ℕ} {e : ℤ}

theorem mono (h : GappedTo v k n e) : Monotone k := monotone_nat_of_le_succ h.step

theorem le_past (h : GappedTo v k n e) (i : ℕ) : k i ≤ e := by
  rw [← h.past (max i n) (le_max_right i n)]
  exact h.mono (le_max_left i n)

/-- Along gaps the key does not change. -/
theorem gaps (h : GappedTo v k n e) {i : ℕ} : ∀ d, i + d ≤ n →
    (∀ j, i ≤ j → j < i + d → v.bit j = false) → k i = k (i + d)
  | 0, _, _ => rfl
  | d + 1, hd, hg => by
      rw [h.gaps d (by omega) (fun j h1 h2 => hg j h1 (by omega)),
        h.gap (i + d) (by omega) (hg _ (by omega) (by omega))]
      rfl

/-- Before the point where the keys pass a value the slot is filled. -/
theorem filled_of_lt (h : GappedTo v k n e) {i : ℕ} (hi : i < n) (hlt : k i < k (i + 1)) :
    v.bit i = true := by
  cases hb : v.bit i with
  | true => rfl
  | false =>
      have := h.gap i hi hb
      omega

/-- The entries of a gapped segment, by their keys. -/
theorem cell (h : GappedTo v k n e) {i : ℕ} (hi : i < n) (hb : v.bit i = true) :
    ∃ p, v.pay i = some p ∧ v.cell i = some (k i, p) := by
  obtain ⟨p, hp⟩ := h.pay i hi hb
  exact ⟨p, hp, cell_filled hb (h.init i hi) hp⟩

theorem key_of_cell (h : GappedTo v k n e) {i : ℕ} (hi : i < n) {x : ℤ × P}
    (hc : v.cell i = some x) : v.bit i = true ∧ x.1 = k i := by
  obtain ⟨kx, px⟩ := x
  obtain ⟨hb, hk, _⟩ := cell_eq_some.mp hc
  rw [h.init i hi] at hk
  exact ⟨hb, (Option.some.inj hk).symm⟩

/-- The entries are in key order. -/
theorem sorted (h : GappedTo v k n e) {lo hi : ℕ} (hhi : hi ≤ n) :
    (v.seg lo hi).Pairwise (fun x y => x.1 ≤ y.1) := by
  unfold seg
  rw [List.pairwise_filterMap]
  refine List.Pairwise.imp_of_mem ?_ List.pairwise_lt_range'
  intro a b ha hb hab x hx y hy
  rw [List.mem_range'_1] at ha hb
  rw [(h.key_of_cell (by omega) hx).2, (h.key_of_cell (by omega) hy).2]
  exact h.mono hab.le

/-- One step of a layout: repeat `key` up to `position` and store the pair there. -/
theorem push (h : GappedTo v k n e) (hlast : n = 0 ∨ v.bit (n - 1) = true)
    (hclear : ∀ i, n ≤ i → v.bit i = false) {key : ℤ} (hkey : e ≤ key) {position : ℕ}
    (hpos : n ≤ position) (p : P) :
    GappedTo ((v.fill key n (position - n)).put position key p)
      (fun i => if i < n then k i else key) (position + 1) key := by
  have hbit : ∀ i, ((v.fill key n (position - n)).put position key p).bit i =
      if i = position then true else v.bit i := by
    intro i
    show Function.update v.bit position true i = _
    rw [Function.update_apply]
  refine ⟨?_, ?_, ?_, ?_, ?_⟩
  · intro i hi
    show Function.update (v.fill key n (position - n)).key position (some key) i = _
    rw [Function.update_apply]
    by_cases hip : i = position
    · rw [if_pos hip, if_neg (by omega)]
    · rw [if_neg hip]
      show (if n ≤ i ∧ i < n + (position - n) then some key else v.key i) = _
      by_cases hin : i < n
      · rw [if_neg (by omega), if_pos hin]
        exact h.init i hin
      · rw [if_pos (by omega), if_neg hin]
  · intro i hi
    show (if i < n then k i else key) = key
    rw [if_neg (by omega)]
  · intro i
    show (if i < n then k i else key) ≤ (if i + 1 < n then k (i + 1) else key)
    have hle := h.le_past i
    have hst := h.step i
    split_ifs <;> omega
  · intro i hi hb
    rw [hbit] at hb
    have hne : i ≠ position := by
      rintro rfl
      simp at hb
    rw [if_neg hne] at hb
    show (if i < n then k i else key) = (if i + 1 < n then k (i + 1) else key)
    by_cases hin : i < n
    · have hne' : i ≠ n - 1 := by
        rintro rfl
        rcases hlast with h0 | h1
        · omega
        · rw [h1] at hb
          cases hb
      rw [if_pos hin, if_pos (by omega)]
      exact h.gap i hin hb
    · rw [if_neg hin, if_neg (by omega)]
  · intro i hi hb
    rw [hbit] at hb
    show ∃ p', Function.update v.pay position (some p) i = some p'
    rw [Function.update_apply]
    by_cases hip : i = position
    · exact ⟨p, if_pos hip⟩
    · rw [if_neg hip] at hb ⊢
      have hin : i < n := by
        by_contra hcon
        rw [hclear i (by omega)] at hb
        cases hb
      exact h.pay i hin hb

end GappedTo

end View

/-! ### The loops on views -/

namespace Reps

variable {P : Type} {s : Slots P} {v : View P}

theorem fillKeys (key : ℤ) : ∀ (n : ℕ) {s : Slots P} {v : View P} (lo : ℕ), Reps s v →
    lo + n ≤ v.cap → ∃ s', s.fillKeys key lo n = some s' ∧ Reps s' (v.fill key lo n)
  | 0, s, v, lo, h, _ => ⟨s, by unfold Slots.fillKeys; rfl, by rw [View.fill_zero]; exact h⟩
  | n + 1, s, v, lo, h, hle => by
      obtain ⟨s₁, e₁, h₁⟩ := h.setKey (show lo < v.cap by omega) key
      obtain ⟨s₂, e₂, h₂⟩ := fillKeys key n (lo + 1) h₁ (by rw [View.setKey_cap]; omega)
      refine ⟨s₂, ?_, by rw [← View.setKey_fill]; exact h₂⟩
      unfold Slots.fillKeys
      rw [e₁, Option.bind_eq_bind, Option.bind_some, e₂]

/-- The back-fill loop writes the gaps just before `pos`. -/
theorem backFill (key : ℤ) : ∀ (pos : ℕ) {s : Slots P} {v : View P}, Reps s v → pos ≤ v.cap →
    ∃ j, j ≤ pos ∧ (∀ i, j ≤ i → i < pos → v.bit i = false) ∧ (j = 0 ∨ v.bit (j - 1) = true) ∧
      ∃ s', s.backFill key pos = some s' ∧ Reps s' (v.fill key j (pos - j))
  | 0, s, v, h, _ =>
      ⟨0, le_refl 0, fun i _ h2 => absurd h2 (by omega), Or.inl rfl, s, rfl,
        by rw [View.fill_zero]; exact h⟩
  | pos + 1, s, v, h, hle => by
      have hcheck := h.checkExists (show pos < v.cap by omega)
      unfold Slots.backFill
      rw [hcheck, Option.bind_eq_bind, Option.bind_some]
      cases hb : v.bit pos with
      | true =>
          refine ⟨pos + 1, le_refl _, fun i h1 h2 => absurd h2 (by omega), Or.inr hb, s, rfl, ?_⟩
          rw [Nat.sub_self, View.fill_zero]
          exact h
      | false =>
          obtain ⟨s₁, e₁, h₁⟩ := h.setKey (show pos < v.cap by omega) key
          obtain ⟨j, hj, hgap, hend, s₂, e₂, h₂⟩ :=
            backFill key pos h₁ (by rw [View.setKey_cap]; omega)
          refine ⟨j, by omega, ?_, hend, s₂, ?_, ?_⟩
          · intro i h1 h2
            by_cases hi : i = pos
            · rw [hi]
              exact hb
            · exact hgap i h1 (by omega)
          · simp only [Bool.false_eq_true, if_false, e₁, Option.bind_eq_bind, Option.bind_some, e₂]
          · rw [← View.setKey_fill_above v key hj]
            exact h₂

theorem shiftRight : ∀ (n : ℕ) {s : Slots P} {v : View P} (pos : ℕ), Reps s v →
    pos + n < v.cap → ∃ s', s.shiftRight pos n = some s' ∧ Reps s' (v.moveRight pos n)
  | 0, s, v, pos, h, _ => by
      refine ⟨s, rfl, ?_⟩
      have : v.moveRight pos 0 = v := by
        unfold View.moveRight
        congr 1
        all_goals
          funext i
          rw [if_neg (by omega)]
      rw [this]
      exact h
  | n + 1, s, v, pos, h, hlt => by
      obtain ⟨s₁, e₁, h₁⟩ :=
        h.copySlot (show pos + n + 1 < v.cap by omega) (show pos + n < v.cap by omega)
      obtain ⟨s₂, e₂, h₂⟩ := shiftRight n pos h₁ (by rw [View.copy_cap]; omega)
      refine ⟨s₂, ?_, by rw [← View.copy_moveRight]; exact h₂⟩
      unfold Slots.shiftRight
      rw [e₁, Option.bind_eq_bind, Option.bind_some, e₂]

theorem shiftLeft : ∀ (n : ℕ) {s : Slots P} {v : View P} (gap : ℕ), Reps s v →
    gap + n < v.cap → ∃ s', s.shiftLeft gap n = some s' ∧ Reps s' (v.moveLeft gap n)
  | 0, s, v, gap, h, _ => by
      refine ⟨s, by unfold Slots.shiftLeft; rfl, ?_⟩
      have : v.moveLeft gap 0 = v := by
        unfold View.moveLeft
        congr 1
        all_goals
          funext i
          rw [if_neg (by omega)]
      rw [this]
      exact h
  | n + 1, s, v, gap, h, hlt => by
      obtain ⟨s₁, e₁, h₁⟩ :=
        h.copySlot (show gap < v.cap by omega) (show gap + 1 < v.cap by omega)
      obtain ⟨s₂, e₂, h₂⟩ := shiftLeft n (gap + 1) h₁ (by rw [View.copy_cap]; omega)
      refine ⟨s₂, ?_, by rw [← View.copy_moveLeft]; exact h₂⟩
      unfold Slots.shiftLeft
      rw [e₁, Option.bind_eq_bind, Option.bind_some, e₂]

/-- The erasing loop clears the slots below `pos` down to the first one that fails the test. -/
theorem eraseWhile {test : ℤ → Bool} (nextKey : ℤ) {k : ℕ → ℤ} (lo : ℕ) :
    ∀ (pos : ℕ) {s : Slots P} {v : View P} (c : ℕ), Reps s v → lo ≤ pos → pos ≤ v.cap →
    (∀ i, i < pos → v.key i = some (k i)) → (∀ i, i < pos → test (k i) = decide (lo ≤ i)) →
    ∃ s', s.eraseWhile test nextKey pos c =
        some (s', c + Nat.count (fun i => v.bit (lo + i) = true) (pos - lo)) ∧
      Reps s' (v.clear nextKey lo pos)
  | 0, s, v, c, h, hlo, _, _, _ => by
      obtain rfl : lo = 0 := by omega
      refine ⟨s, by simp [Slots.eraseWhile], ?_⟩
      rw [View.clear_empty]
      exact h
  | pos + 1, s, v, c, h, hlo, hle, hinit, htest => by
      unfold Slots.eraseWhile
      have hkey : s.keyAt pos = some (k pos) := by
        rw [h.key]
        exact hinit pos (by omega)
      rw [hkey, Option.bind_eq_bind, Option.bind_some, htest pos (by omega)]
      by_cases hc : lo ≤ pos
      · obtain ⟨s₁, e₁, h₁⟩ := h.setKey (show pos < v.cap by omega) nextKey
        have hcheck := h₁.checkExists (show pos < (v.setKey pos nextKey).cap from by
          rw [View.setKey_cap]; omega)
        obtain ⟨s₂, e₂, h₂⟩ := h₁.unsetBit (show pos < (v.setKey pos nextKey).cap from by
          rw [View.setKey_cap]; omega)
        have hkey' : ∀ i, i < pos →
            ((v.setKey pos nextKey).setBit pos false).key i = some (k i) := by
          intro i hi
          show Function.update v.key pos (some nextKey) i = _
          rw [Function.update_of_ne (by omega)]
          exact hinit i (by omega)
        obtain ⟨s₃, e₃, h₃⟩ := eraseWhile nextKey lo pos (c + (v.bit pos).toNat) h₂ hc
          (by rw [View.setBit_cap, View.setKey_cap]; omega) hkey'
          (fun i hi => htest i (by omega))
        refine ⟨s₃, ?_, by rw [← View.setKey_clear v nextKey hc]; exact h₃⟩
        have hbit : (v.setKey pos nextKey).bit pos = v.bit pos := rfl
        simp only [hc, decide_true, if_true, e₁, Option.bind_eq_bind, Option.bind_some, hcheck, e₂,
          hbit, e₃]
        have hcount : Nat.count (fun i => ((v.setKey pos nextKey).setBit pos false).bit (lo + i)
            = true) (pos - lo) = Nat.count (fun i => v.bit (lo + i) = true) (pos - lo) := by
          have hsame : ∀ i, i < pos - lo →
              ((v.setKey pos nextKey).setBit pos false).bit (lo + i) = v.bit (lo + i) := by
            intro i hi
            show Function.update v.bit pos false (lo + i) = _
            rw [Function.update_of_ne (by omega)]
          exact le_antisymm (Nat.count_mono_left (fun i hi hb => by rwa [← hsame i hi]))
            (Nat.count_mono_left (fun i hi hb => by rwa [hsame i hi]))
        rw [hcount, show pos + 1 - lo = (pos - lo) + 1 by omega, Nat.count_succ,
          show lo + (pos - lo) = pos by omega]
        congr 2
        cases v.bit pos with
        | false => simp
        | true =>
            simp only [Bool.toNat_true, if_true]
            omega
      · obtain rfl : lo = pos + 1 := by omega
        refine ⟨s, ?_, by rw [View.clear_empty]; exact h⟩
        simp

theorem fresh {cap : ℕ} (hcap : 0 < cap) :
    Reps (Slots.fresh cap : Slots P) ⟨cap, fun _ => none, fun _ => none, fun _ => false⟩ := by
  refine ⟨rfl, hcap, by simp [Slots.fresh], by simp [Slots.fresh], rfl, by simp [Slots.fresh],
    ?_, ?_, fun i => bitAt_replicate_zero _ i, fun _ _ => rfl⟩
  · intro i
    unfold Slots.keyAt Slots.fresh
    rw [List.getElem?_replicate]
    split <;> rfl
  · intro i
    unfold Slots.payloadAt Slots.fresh
    rw [List.getElem?_replicate]
    split <;> rfl

end Reps

/-! ### Laying out -/

namespace View
variable {P : Type} {v : View P}

/-- A layout in progress: the slots below `n` are done and hold the pairs `es`, the last of them
is filled, and nothing above is. -/
structure Laid (v : View P) (k : ℕ → ℤ) (n : ℕ) (es : List (ℤ × P)) (e : ℤ) : Prop
    extends GappedTo v k n e where
  last : n = 0 ∨ v.bit (n - 1) = true
  clear : ∀ i, n ≤ i → v.bit i = false
  ents : v.seg 0 n = es

theorem Laid.push {k : ℕ → ℤ} {n : ℕ} {es : List (ℤ × P)} {e : ℤ} (h : Laid v k n es e)
    {x : ℤ × P} (hkey : e ≤ x.1) {position : ℕ} (hpos : n ≤ position) :
    Laid ((v.fill x.1 n (position - n)).put position x.1 x.2)
      (fun i => if i < n then k i else x.1) (position + 1) (es ++ [x]) x.1 := by
  have hbit : ∀ i, ((v.fill x.1 n (position - n)).put position x.1 x.2).bit i =
      if i = position then true else v.bit i := by
    intro i
    show Function.update v.bit position true i = _
    rw [Function.update_apply]
  refine ⟨h.toGappedTo.push h.last h.clear hkey hpos x.2, Or.inr ?_, ?_, ?_⟩
  · rw [hbit, Nat.add_sub_cancel, if_pos rfl]
  · intro i hi
    rw [hbit, if_neg (by omega)]
    exact h.clear i (by omega)
  · have hcell : ((v.fill x.1 n (position - n)).put position x.1 x.2).cell position = some x :=
      cell_eq_some.mpr ⟨by rw [hbit, if_pos rfl], Function.update_self _ _ _,
        Function.update_self _ _ _⟩
    rw [seg_append (Nat.zero_le n) (by omega : n ≤ position + 1),
      seg_append hpos (by omega : position ≤ position + 1), seg_single, hcell]
    have hgaps : ((v.fill x.1 n (position - n)).put position x.1 x.2).seg n position = [] := by
      refine seg_gaps (fun i h1 h2 => ?_)
      rw [hbit, if_neg (by omega)]
      exact h.clear i h1
    have hold : ((v.fill x.1 n (position - n)).put position x.1 x.2).seg 0 n = v.seg 0 n := by
      refine seg_congr (fun i _ h2 => ?_)
      have hk : ((v.fill x.1 n (position - n)).put position x.1 x.2).key i = v.key i := by
        show Function.update (v.fill x.1 n (position - n)).key position _ i = _
        rw [Function.update_of_ne (by omega)]
        show (if n ≤ i ∧ i < n + (position - n) then some x.1 else v.key i) = _
        rw [if_neg (by omega)]
      have hp : ((v.fill x.1 n (position - n)).put position x.1 x.2).pay i = v.pay i :=
        Function.update_of_ne (by omega) _ _
      exact cell_congr (by rw [hbit, if_neg (by omega)]) hk hp
    rw [hgaps, hold, h.ents]
    rfl

/-- Writing the sentinel after the last pair ends a layout. -/
theorem Laid.finish {T : KeyType} {k : ℕ → ℤ} {n : ℕ} {es : List (ℤ × P)} {e : ℤ}
    (h : Laid v k n es e) (he : e ≤ T.max) (hn : n ≤ v.cap) :
    Gapped T (v.fill T.max n (v.cap - n)) (fun i => if i < n then k i else T.max) ∧
      (v.fill T.max n (v.cap - n)).entries = es := by
  have hents : (v.fill T.max n (v.cap - n)).entries = es := by
    unfold entries
    have hgaps : (v.fill T.max n (v.cap - n)).seg n v.cap = [] :=
      seg_gaps (fun i h1 _ => h.clear i h1)
    rw [fill_cap, seg_append (Nat.zero_le n) hn, hgaps, List.append_nil, ← h.ents]
    refine seg_congr (fun i _ h2 => cell_congr rfl ?_ rfl)
    show (if n ≤ i ∧ i < n + (v.cap - n) then some T.max else v.key i) = _
    rw [if_neg (by omega)]
  refine ⟨⟨⟨?_, ?_, ?_, ?_, ?_⟩⟩, hents⟩
  · intro i hi
    show (if n ≤ i ∧ i < n + (v.cap - n) then some T.max else v.key i) = _
    rw [fill_cap] at hi
    by_cases hin : i < n
    · rw [if_neg (by omega), if_pos hin]
      exact h.init i hin
    · rw [if_pos (by omega), if_neg hin]
  · intro i hi
    rw [fill_cap] at hi
    rw [if_neg (by omega)]
  · intro i
    show (if i < n then k i else T.max) ≤ (if i + 1 < n then k (i + 1) else T.max)
    have hle := h.le_past i
    have hst := h.step i
    split_ifs <;> omega
  · intro i _ hb
    show (if i < n then k i else T.max) = (if i + 1 < n then k (i + 1) else T.max)
    rw [fill_bit] at hb
    by_cases hin : i < n
    · have hne : i ≠ n - 1 := by
        rintro rfl
        rcases h.last with h0 | h1
        · omega
        · rw [h1] at hb
          cases hb
      rw [if_pos hin, if_pos (by omega)]
      exact h.gap i hin hb
    · rw [if_neg hin, if_neg (by omega)]
  · intro i _ hb
    rw [fill_bit] at hb
    have hin : i < n := by
      by_contra hcon
      rw [h.clear i (by omega)] at hb
      cases hb
    exact h.pay i hin hb

end View

namespace Reps

variable {P : Type} {s : Slots P} {v : View P} {read : ℕ → Option (ℤ × P)}

/-- The contiguous fill of the tail. -/
theorem fillRest {B : ℤ} (back : List ℕ) : ∀ (rest : List (ℤ × P)) (x : ℤ × P) (front : List ℕ)
    {s : Slots P} {v : View P} {k : ℕ → ℤ} {n pos : ℕ} {es : List (ℤ × P)} {e : ℤ},
    List.Forall₂ (fun i y => read i = some y) front (x :: rest) →
    Reps s (v.fill x.1 n (pos - n)) → v.Laid k n es e → n ≤ pos → e ≤ x.1 →
    (x :: rest).Pairwise (fun a b => a.1 ≤ b.1) → (∀ y ∈ x :: rest, y.1 ≤ B) →
    pos + (rest.length + 1) = v.cap →
    ∃ s' v' k' e', s.fillRest read (front ++ back) pos (rest.length + 1) = some s' ∧ Reps s' v' ∧
      v'.cap = v.cap ∧ v'.Laid k' v.cap (es ++ x :: rest) e' ∧ e' ≤ B
  | rest, x, front, s, v, k, n, pos, es, e, hread, h, hl, hn, he, hs, hB, hlen => by
      cases hread with
      | cons hi hrest =>
          rename_i i front
          obtain ⟨s₁, e₁, h₁⟩ := h.putAt (show pos < (v.fill x.1 n (pos - n)).cap by
            rw [View.fill_cap]; omega) x.1 x.2
          have hl₁ := hl.push he hn
          have hcap₁ : ((v.fill x.1 n (pos - n)).put pos x.1 x.2).cap = v.cap := rfl
          cases rest with
          | nil =>
              have hpos : pos + 1 = v.cap := hlen
              refine ⟨s₁, _, _, _, ?_, h₁, hcap₁, hpos ▸ hl₁, hB x (List.mem_cons_self ..)⟩
              rw [List.cons_append]
              unfold Slots.fillRest
              simp only [hi, Option.bind_eq_bind, Option.bind_some, e₁, List.length_nil]
              unfold Slots.fillRest
              rfl
          | cons y rest =>
              have hxy : x.1 ≤ y.1 := (List.pairwise_cons.mp hs).1 y (List.mem_cons_self ..)
              have h₂ : Reps s₁ (((v.fill x.1 n (pos - n)).put pos x.1 x.2).fill y.1 (pos + 1)
                  (pos + 1 - (pos + 1))) := by
                rw [Nat.sub_self, View.fill_zero]
                exact h₁
              obtain ⟨s', v', k', e', he', hr', hc', hl', hb'⟩ :=
                fillRest back rest y front hrest h₂ hl₁ (le_refl _) hxy (List.pairwise_cons.mp hs).2
                (fun z hz => hB z (List.mem_cons_of_mem _ hz))
                (by rw [hcap₁]; simp only [List.length_cons] at hlen; omega)
              refine ⟨s', v', k', e', ?_, hr', by rw [hc', hcap₁], ?_, hb'⟩
              · rw [List.cons_append]
                unfold Slots.fillRest
                simp only [hi, Option.bind_eq_bind, Option.bind_some, e₁, List.length_cons]
                exact he'
              · rw [List.append_assoc] at hl'
                exact hl'

/-- The model-based insert loop, for any predictions. -/
theorem placeKeys {B : ℤ} {right : ℕ} {back : List ℕ} (predict : ℤ → ℤ)
    (hback : ∀ i ∈ back.head?, right ≤ i) : ∀ (pairs : List (ℤ × P)) (front : List ℕ)
    {s : Slots P} {v : View P} {k : ℕ → ℤ} {n : ℕ} {es : List (ℤ × P)} {e : ℤ},
    List.Forall₂ (fun i y => i < right ∧ read i = some y) front pairs →
    Reps s v → v.Laid k n es e → n + pairs.length ≤ v.cap → (∀ y ∈ pairs, e ≤ y.1) → e ≤ B →
    pairs.Pairwise (fun a b => a.1 ≤ b.1) → (∀ y ∈ pairs, y.1 ≤ B) →
    ∃ s' n' v' k' e', Slots.placeKeys predict read right (front ++ back) s n pairs.length =
        some (s', n') ∧ Reps s' v' ∧ v'.cap = v.cap ∧ n' ≤ v.cap ∧
      v'.Laid k' n' (es ++ pairs) e' ∧ e' ≤ B
  | [], front, s, v, k, n, es, e, hread, h, hl, hn, _, heB, _, _ => by
      obtain rfl := List.forall₂_nil_right_iff.mp hread
      refine ⟨s, n, v, k, e, ?_, h, rfl, by simpa using hn, by simpa using hl, heB⟩
      cases back with
      | nil => rfl
      | cons i back =>
          have hi : ¬ i < right := not_lt.mpr (hback i rfl)
          simp [Slots.placeKeys, hi]
  | x :: pairs, front, s, v, k, n, es, e, hread, h, hl, hn, he, heB, hs, hB => by
      obtain ⟨i, front, ⟨hir, hi⟩, hrest, rfl⟩ := List.forall₂_cons_right_iff.mp hread
      have hx := he x (List.mem_cons_self ..)
      have hsx := List.pairwise_cons.mp hs
      simp only [List.length_cons] at hn
      rw [List.cons_append]
      unfold Slots.placeKeys
      simp only [hir, if_true, hi, Option.bind_eq_bind, Option.bind_some, h.cap]
      generalize hposition : max (predict x.1).toNat n = position
      have hnp : n ≤ position := by omega
      by_cases htail : (v.cap : ℤ) - position < ((x :: pairs).length : ℕ)
      · -- no room left: the remaining pairs fill the end of the array
        have hpos : ((v.cap : ℤ) - ((x :: pairs).length : ℕ)).toNat =
            v.cap - (pairs.length + 1) := by
          simp only [List.length_cons]
          omega
        obtain ⟨s₁, e₁, h₁⟩ := Reps.fillKeys x.1 (v.cap - (pairs.length + 1) - n) n h (by omega)
        have hread' : List.Forall₂ (fun i y => read i = some y) (i :: front) (x :: pairs) :=
          hread.imp (fun _ _ h => h.2)
        obtain ⟨s', v', k', e', he', hr', hc', hl', hb'⟩ :=
          fillRest back pairs x (i :: front) hread' h₁ hl (by omega) hx hs hB (by omega)
        refine ⟨s', v.cap, v', k', e', ?_, hr', hc', le_refl _, hl', hb'⟩
        rw [if_pos htail, hpos, e₁]
        simp only [Option.bind_some, h₁.cap, View.fill_cap]
        rw [show v.cap - (v.cap - (pairs.length + 1)) = pairs.length + 1 by omega,
          ← List.cons_append, he']
        simp only [Option.bind_some, hr'.cap, hc']
      · simp only [List.length_cons] at htail
        obtain ⟨s₁, e₁, h₁⟩ := Reps.fillKeys x.1 (position - n) n h (by omega)
        obtain ⟨s₂, e₂, h₂⟩ := h₁.putAt (show position < (v.fill x.1 n (position - n)).cap by
          rw [View.fill_cap]; omega) x.1 x.2
        obtain ⟨s', n', v', k', e', he', hr', hc', hn', hl', hb'⟩ :=
          placeKeys predict hback pairs front hrest h₂ (hl.push hx hnp)
            (by rw [View.put_cap, View.fill_cap]; omega) hsx.1
            (hB x (List.mem_cons_self ..)) hsx.2 (fun y hy => hB y (List.mem_cons_of_mem _ hy))
        refine ⟨s', n', v', k', e', ?_, hr', hc', hn', ?_, hb'⟩
        · have hlen : (((x :: pairs).length : ℕ) : ℤ) - 1 = (pairs.length : ℕ) := by
            simp only [List.length_cons]
            omega
          rw [if_neg (by simpa using htail), e₁]
          simp only [Option.bind_some, e₂, hlen]
          exact he'
        · rw [List.append_assoc] at hl'
          exact hl'

/-- Laying a non-decreasing sequence of pairs out in fresh arrays gives a gapped array with
exactly these pairs, for any predictions. -/
theorem layout {T : KeyType} {right cap : ℕ} {front back : List ℕ} {pairs : List (ℤ × P)}
    (predict : ℤ → ℤ) (hback : ∀ i ∈ back.head?, right ≤ i)
    (hread : List.Forall₂ (fun i y => i < right ∧ read i = some y) front pairs)
    (hcap : 0 < cap) (hlen : pairs.length ≤ cap)
    (hs : pairs.Pairwise (fun a b => a.1 ≤ b.1)) (hB : ∀ y ∈ pairs, y.1 ≤ T.max) :
    ∃ s' v' k', Slots.layout T.max cap pairs.length predict read (front ++ back) right = some s' ∧
      Reps s' v' ∧ v'.cap = cap ∧ v'.Gapped T k' ∧ v'.entries = pairs := by
  obtain ⟨e, he, heB⟩ : ∃ e, (∀ y ∈ pairs, e ≤ y.1) ∧ e ≤ T.max := by
    cases pairs with
    | nil => exact ⟨T.max, by simp, le_refl _⟩
    | cons x rest =>
        refine ⟨x.1, ?_, hB x (List.mem_cons_self ..)⟩
        intro y hy
        rcases List.mem_cons.mp hy with rfl | hy
        · exact le_refl _
        · exact (List.pairwise_cons.mp hs).1 y hy
  have hl : View.Laid (⟨cap, fun _ => none, fun _ => none, fun _ => false⟩ : View P)
      (fun _ => e) 0 [] e :=
    ⟨⟨fun i hi => absurd hi (by omega), fun _ _ => rfl, fun _ => le_refl _,
      fun i hi => absurd hi (by omega), fun i hi => absurd hi (by omega)⟩, Or.inl rfl,
      fun _ _ => rfl, rfl⟩
  obtain ⟨s₁, n, v₁, k₁, e₁, hp, hr, hc, hn, hl₁, hb⟩ := placeKeys predict hback pairs front hread
    (fresh hcap) hl (by simpa using hlen) he heB hs hB
  have hcap₁ : v₁.cap = cap := hc
  obtain ⟨s₂, e₂, h₂⟩ := Reps.fillKeys T.max (cap - n) n hr (by rw [hcap₁]; omega)
  obtain ⟨hg, hents⟩ := hl₁.finish hb (by rw [hcap₁]; exact hn)
  rw [hcap₁] at hg hents
  refine ⟨s₂, _, _, ?_, h₂, by rw [View.fill_cap, hcap₁], hg, hents⟩
  unfold Slots.layout
  rw [hp, Option.bind_eq_bind, Option.bind_some]
  exact e₂

end Reps

end LearnedIndex.Alexol
