import LearnedIndex.Alexol.Gapped

/-! # Inserting into and erasing from a gapped array

The position of a key is its upper bound `c`: the slots below hold keys at most `key`, the slots
from `c` on larger ones (`UpperAt`).  Inserting stores the pair in a gap at or after `c`, or makes
room at `c` by moving the slots between `c` and the nearest gap; either way the entries below `c`
come before the new pair and the others after it.  Erasing turns a range of slots into gaps. -/

namespace LearnedIndex.Alexol

open LearnedIndex.Words

namespace View
variable {P : Type} {v : View P} {T : KeyType} {k : ℕ → ℤ}

/-- The slots below `c` satisfy `below`, those from `c` on do not. -/
structure CutAt (v : View P) (k : ℕ → ℤ) (below : ℤ → Prop) (c : ℕ) : Prop where
  le : c ≤ v.cap
  lt : ∀ i, i < c → below (k i)
  ge : ∀ i, c ≤ i → i < v.cap → ¬ below (k i)

namespace Gapped

/-- Just below a cut by key the slot is filled. -/
theorem filled_pred (h : Gapped T v k) {key : ℤ} (hkey : key < T.max) {c : ℕ}
    (hc : CutAt v k (· ≤ key) c) (h0 : 0 < c) : v.bit (c - 1) = true := by
  have hle := hc.le
  refine h.toGappedTo.filled_of_lt (by omega) ?_
  have h1 := hc.lt (c - 1) (by omega)
  rw [Nat.sub_add_cancel h0]
  rcases Nat.lt_or_ge c v.cap with hlt | hge
  · have := hc.ge c (le_refl c) hlt
    omega
  · rw [h.past c hge]
    omega

theorem cut_key_gt (h : Gapped T v k) {key : ℤ} (hkey : key < T.max) {c : ℕ}
    (hc : CutAt v k (· ≤ key) c) {i : ℕ} (hi : c ≤ i) : key < k i := by
  rcases Nat.lt_or_ge i v.cap with hlt | hge
  · exact not_le.mp (hc.ge i hi hlt)
  · rw [h.past i hge]
    exact hkey

/-- Storing a pair in a gap at or after its upper bound. -/
theorem insert_gap (h : Gapped T v k) {key : ℤ} (hkey : key < T.max) {c : ℕ}
    (hc : CutAt v k (· ≤ key) c) {pos : ℕ} (hcp : c ≤ pos) (hpos : pos < v.cap)
    (hgaps : ∀ i, c ≤ i → i ≤ pos → v.bit i = false) (p : P) :
    Gapped T ((v.put pos key p).fill key c (pos - c))
        (fun i => if c ≤ i ∧ i ≤ pos then key else k i) ∧
      ((v.put pos key p).fill key c (pos - c)).entries = v.seg 0 c ++ (key, p) :: v.seg
      c v.cap := by
  have hbit : ∀ i, ((v.put pos key p).fill key c (pos - c)).bit i =
      if i = pos then true else v.bit i := by
    intro i
    show Function.update v.bit pos true i = _
    rw [Function.update_apply]
  have hkeys : ∀ i, ((v.put pos key p).fill key c (pos - c)).key i =
      if c ≤ i ∧ i ≤ pos then some key else v.key i := by
    intro i
    show (if c ≤ i ∧ i < c + (pos - c) then some key
      else Function.update v.key pos (some key) i) = _
    rw [Function.update_apply]
    split_ifs <;> first | rfl | omega
  have hpay : ∀ i, ((v.put pos key p).fill key c (pos - c)).pay i =
      if i = pos then some p else v.pay i := by
    intro i
    show Function.update v.pay pos (some p) i = _
    rw [Function.update_apply]
  refine ⟨⟨⟨?_, ?_, ?_, ?_, ?_⟩⟩, ?_⟩
  · intro i hi
    rw [hkeys]
    split_ifs with hin
    · rfl
    · exact h.init i hi
  · intro i hi
    have hi' : v.cap ≤ i := hi
    show (if c ≤ i ∧ i ≤ pos then key else k i) = T.max
    rw [if_neg (by omega)]
    exact h.past i hi'
  · intro i
    show (if c ≤ i ∧ i ≤ pos then key else k i) ≤
      (if c ≤ i + 1 ∧ i + 1 ≤ pos then key else k (i + 1))
    have hst := h.step i
    by_cases hin : c ≤ i ∧ i ≤ pos
    · rw [if_pos hin]
      split_ifs with hin'
      · exact le_refl _
      · exact (h.cut_key_gt hkey hc (by omega)).le
    · rw [if_neg hin]
      split_ifs with hin'
      · exact hc.lt i (by omega)
      · exact hst
  · intro i hi hb
    show (if c ≤ i ∧ i ≤ pos then key else k i) =
      (if c ≤ i + 1 ∧ i + 1 ≤ pos then key else k (i + 1))
    rw [hbit] at hb
    have hne : i ≠ pos := by
      rintro rfl
      simp at hb
    rw [if_neg hne] at hb
    by_cases hin : c ≤ i ∧ i ≤ pos
    · rw [if_pos hin, if_pos (by omega)]
    · rw [if_neg hin]
      by_cases hin' : c ≤ i + 1 ∧ i + 1 ≤ pos
      · -- `i` is the slot just below the cut, which is filled
        have hfilled := h.filled_pred hkey hc (by omega)
        rw [show c - 1 = i by omega, hb] at hfilled
        cases hfilled
      · rw [if_neg hin']
        exact h.gap i hi hb
  · intro i hi hb
    rw [hbit] at hb
    rw [hpay]
    split_ifs at hb ⊢ with hip
    · exact ⟨p, rfl⟩
    · exact h.pay i hi hb
  · have hcell : ((v.put pos key p).fill key c (pos - c)).cell pos = some (key, p) :=
      cell_eq_some.mpr ⟨by rw [hbit, if_pos rfl], by rw [hkeys, if_pos ⟨hcp, le_refl _⟩],
        by rw [hpay, if_pos rfl]⟩
    have hsame : ∀ i, i < c ∨ pos < i →
        ((v.put pos key p).fill key c (pos - c)).cell i = v.cell i := by
      intro i hi
      exact cell_congr (by rw [hbit, if_neg (by omega)]) (by rw [hkeys, if_neg (by omega)])
        (by rw [hpay, if_neg (by omega)])
    have hgap' : ((v.put pos key p).fill key c (pos - c)).seg c pos = [] :=
      seg_gaps (fun i h1 h2 => by rw [hbit, if_neg (by omega)]; exact hgaps i h1 (by omega))
    have hgapv : v.seg c (pos + 1) = [] := seg_gaps (fun i h1 h2 => hgaps i h1 (by omega))
    unfold entries
    rw [fill_cap, put_cap, seg_append (Nat.zero_le c) (by omega : c ≤ v.cap),
      seg_append hcp hpos.le, seg_append (Nat.le_succ pos) hpos, seg_single, hcell, hgap',
      seg_congr (fun i _ h2 => hsame i (Or.inl h2)), seg_congr (fun i h1 _ => hsame i (Or.inr h1)),
      seg_append (by omega : c ≤ pos + 1) hpos, hgapv]
    rfl

/-- Making room at the upper bound by moving the slots up to a gap on the right. -/
theorem insert_right (h : Gapped T v k) {key : ℤ} (hkey : key < T.max) {c : ℕ}
    (hc : CutAt v k (· ≤ key) c) {g : ℕ} (hcg : c ≤ g) (hg : g < v.cap) (hgap : v.bit g = false)
    (hfull : ∀ i, c ≤ i → i < g → v.bit i = true) (p : P) :
    Gapped T (((v.setBit g true).moveRight c (g - c)).put c key p)
        (fun i => if i < c then k i else if i = c then key else if i ≤ g then k (i - 1) else k i) ∧
      (((v.setBit g true).moveRight c (g - c)).put c key p).entries =
        v.seg 0 c ++ (key, p) :: v.seg c v.cap := by
  generalize hv' : ((v.setBit g true).moveRight c (g - c)).put c key p = v'
  have hcap : v'.cap = v.cap := by rw [← hv']; rfl
  have hbit : ∀ i, v'.bit i = if c ≤ i ∧ i ≤ g then true else v.bit i := by
    intro i
    rw [← hv']
    show Function.update (Function.update v.bit g true) c true i = _
    rw [Function.update_apply, Function.update_apply]
    by_cases hin : c ≤ i ∧ i < g
    · rw [hfull i hin.1 hin.2]
      simp
    · split_ifs <;> first | rfl | omega
  have hkeys : ∀ i, v'.key i = if i = c then some key
      else if c < i ∧ i ≤ g then v.key (i - 1) else v.key i := by
    intro i
    rw [← hv']
    show Function.update (fun i => if c < i ∧ i ≤ c + (g - c) then v.key (i - 1) else v.key i)
      c (some key) i = _
    rw [Function.update_apply, show c + (g - c) = g by omega]
  have hpay : ∀ i, v'.pay i = if i = c then some p
      else if c < i ∧ i ≤ g then v.pay (i - 1) else v.pay i := by
    intro i
    rw [← hv']
    show Function.update (fun i => if c < i ∧ i ≤ c + (g - c) then v.pay (i - 1) else v.pay i)
      c (some p) i = _
    rw [Function.update_apply, show c + (g - c) = g by omega]
  have hle := hc.le
  refine ⟨⟨⟨?_, ?_, ?_, ?_, ?_⟩⟩, ?_⟩
  · intro i hi
    rw [hcap] at hi
    rw [hkeys]
    by_cases hic : i = c
    · rw [if_pos hic, if_neg (by omega), if_pos hic]
    · rw [if_neg hic]
      by_cases hin : c < i ∧ i ≤ g
      · rw [if_pos hin, if_neg (by omega), if_neg hic, if_pos hin.2]
        exact h.init (i - 1) (by omega)
      · rw [if_neg hin, h.init i hi]
        split_ifs <;> first | rfl | omega
  · intro i hi
    rw [hcap] at hi
    rw [if_neg (by omega), if_neg (by omega), if_neg (by omega)]
    exact h.past i hi
  · intro i
    have hst := h.step i
    have hlt := hc.lt i
    have hgt := h.cut_key_gt hkey hc (i := i)
    by_cases hic : i + 1 < c
    · rw [if_pos (by omega), if_pos hic]
      exact hst
    · by_cases hic' : i + 1 = c
      · rw [if_pos (by omega), if_neg (by omega), if_pos hic']
        exact hlt (by omega)
      · rw [if_neg (show ¬ i < c by omega), if_neg hic, if_neg hic', Nat.add_sub_cancel]
        by_cases hi : i = c
        · rw [if_pos hi]
          split_ifs
          · exact (hgt (by omega)).le
          · exact (hgt (by omega)).le.trans hst
        · rw [if_neg hi]
          have hst' := h.step (i - 1)
          rw [show i - 1 + 1 = i by omega] at hst'
          split_ifs <;> omega
  · intro i hi hb
    rw [hcap] at hi
    rw [hbit] at hb
    split_ifs at hb with hin
    have hst := h.gap i hi hb
    by_cases hic : i < c
    · have hne : i ≠ c - 1 := by
        rintro rfl
        rw [h.filled_pred hkey hc (by omega)] at hb
        cases hb
      rw [if_pos hic, if_pos (by omega)]
      exact hst
    · rw [if_neg hic, if_neg (by omega), if_neg (by omega), if_neg (by omega), if_neg (by omega),
        if_neg (by omega)]
      exact hst
  · intro i hi hb
    rw [hcap] at hi
    rw [hbit] at hb
    rw [hpay]
    by_cases hic : i = c
    · exact ⟨p, if_pos hic⟩
    · rw [if_neg hic]
      by_cases hin : c < i ∧ i ≤ g
      · rw [if_pos hin]
        exact h.pay (i - 1) (by omega) (hfull _ (by omega) (by omega))
      · rw [if_neg hin]
        rw [if_neg (by omega)] at hb
        exact h.pay i hi hb
  · have hcell : v'.cell c = some (key, p) :=
      cell_eq_some.mpr ⟨by rw [hbit, if_pos ⟨le_refl _, hcg⟩], by rw [hkeys, if_pos rfl],
        by rw [hpay, if_pos rfl]⟩
    have hsame : ∀ i, i < c ∨ g < i → v'.cell i = v.cell i := by
      intro i hi
      exact cell_congr (by rw [hbit, if_neg (by omega)])
        (by rw [hkeys, if_neg (by omega), if_neg (by omega)])
        (by rw [hpay, if_neg (by omega), if_neg (by omega)])
    have hmoved : v'.seg (c + 1) (g + 1) = v.seg c g := by
      refine seg_shift (fun i h1 h2 => ?_)
      refine cell_congr ?_ ?_ ?_
      · rw [hbit, if_pos (by omega), hfull i h1 h2]
      · rw [hkeys, if_neg (by omega), if_pos (by omega), Nat.add_sub_cancel]
      · rw [hpay, if_neg (by omega), if_pos (by omega), Nat.add_sub_cancel]
    have hgapv : v.seg g (g + 1) = [] := by
      rw [seg_single, cell_gap hgap]
      rfl
    unfold entries
    rw [hcap, seg_append (Nat.zero_le c) (by omega : c ≤ v.cap),
      seg_append (Nat.le_succ c) (by omega : c + 1 ≤ v.cap),
      seg_append (by omega : c + 1 ≤ g + 1) hg, seg_single, hcell, hmoved,
      seg_congr (fun i _ h2 => hsame i (Or.inl h2)), seg_congr (fun i h1 _ => hsame i (Or.inr h1)),
      seg_append hcg hg.le, seg_append (Nat.le_succ g) hg, hgapv]
    rfl

/-- Making room just below the upper bound by moving the slots down to a gap on the left. -/
theorem insert_left (h : Gapped T v k) {key : ℤ} (hkey : key < T.max) {c : ℕ}
    (hc : CutAt v k (· ≤ key) c) {g : ℕ} (hcg : g < c) (hgap : v.bit g = false)
    (hfull : ∀ i, g < i → i < c → v.bit i = true) (p : P) :
    Gapped T (((v.setBit g true).moveLeft g (c - 1 - g)).put (c - 1) key p)
        (fun i => if i < g then k i else if i + 1 < c then k (i + 1)
          else if i + 1 = c then key else k i) ∧
      (((v.setBit g true).moveLeft g (c - 1 - g)).put (c - 1) key p).entries =
        v.seg 0 c ++ (key, p) :: v.seg c v.cap := by
  generalize hv' : ((v.setBit g true).moveLeft g (c - 1 - g)).put (c - 1) key p = v'
  have hle := hc.le
  have hcap : v'.cap = v.cap := by rw [← hv']; rfl
  have hbit : ∀ i, v'.bit i = if g ≤ i ∧ i < c then true else v.bit i := by
    intro i
    rw [← hv']
    show Function.update (Function.update v.bit g true) (c - 1) true i = _
    rw [Function.update_apply, Function.update_apply]
    by_cases hin : g < i ∧ i < c
    · rw [hfull i hin.1 hin.2]
      simp
    · split_ifs <;> first | rfl | omega
  have hkeys : ∀ i, v'.key i = if i + 1 = c then some key
      else if g ≤ i ∧ i + 1 < c then v.key (i + 1) else v.key i := by
    intro i
    rw [← hv']
    show Function.update (fun i => if g ≤ i ∧ i < g + (c - 1 - g) then v.key (i + 1) else v.key i)
      (c - 1) (some key) i = _
    rw [Function.update_apply]
    split_ifs <;> first | rfl | omega
  have hpay : ∀ i, v'.pay i = if i + 1 = c then some p
      else if g ≤ i ∧ i + 1 < c then v.pay (i + 1) else v.pay i := by
    intro i
    rw [← hv']
    show Function.update (fun i => if g ≤ i ∧ i < g + (c - 1 - g) then v.pay (i + 1) else v.pay i)
      (c - 1) (some p) i = _
    rw [Function.update_apply]
    split_ifs <;> first | rfl | omega
  refine ⟨⟨⟨?_, ?_, ?_, ?_, ?_⟩⟩, ?_⟩
  · intro i hi
    rw [hcap] at hi
    rw [hkeys]
    by_cases hic : i + 1 = c
    · rw [if_pos hic, if_neg (by omega), if_neg (by omega), if_pos hic]
    · rw [if_neg hic]
      by_cases hin : g ≤ i ∧ i + 1 < c
      · rw [if_pos hin, if_neg (by omega), if_pos hin.2]
        exact h.init (i + 1) (by omega)
      · rw [if_neg hin, h.init i hi]
        split_ifs <;> first | rfl | omega
  · intro i hi
    rw [hcap] at hi
    rw [if_neg (by omega), if_neg (by omega), if_neg (by omega)]
    exact h.past i hi
  · intro i
    have hst := h.step i
    have hst' := h.step (i + 1)
    by_cases hig : i + 1 < g
    · rw [if_pos (by omega), if_pos hig]
      exact hst
    · by_cases hic : i + 1 + 1 < c
      · rw [if_neg hig, if_pos hic]
        split_ifs <;> omega
      · by_cases hic' : i + 1 + 1 = c
        · rw [if_neg hig, if_neg hic, if_pos hic']
          have hlt := hc.lt (i + 1) (by omega)
          have hlt' := hc.lt i (by omega)
          split_ifs <;> omega
        · rw [if_neg hig, if_neg hic, if_neg hic', if_neg (by omega), if_neg (by omega)]
          split_ifs with hi
          · exact (h.cut_key_gt hkey hc (by omega)).le
          · exact hst
  · intro i hi hb
    rw [hcap] at hi
    rw [hbit] at hb
    split_ifs at hb with hin
    have hst := h.gap i hi hb
    by_cases hig : i < g
    · rw [if_pos hig]
      by_cases hig' : i + 1 < g
      · rw [if_pos hig']
        exact hst
      · -- the gap below `g` repeats the key that has moved into `g`
        have hg' : i + 1 = g := by omega
        have hstep := h.gap g (by omega) hgap
        rw [hst, if_neg hig', hg', hstep]
        by_cases hc2 : g + 1 < c
        · rw [if_pos hc2]
        · have hfilled := h.filled_pred hkey hc (by omega)
          rw [show c - 1 = g by omega, hgap] at hfilled
          cases hfilled
    · rw [if_neg hig, if_neg (by omega), if_neg (by omega), if_neg (by omega), if_neg (by omega),
        if_neg (by omega)]
      exact hst
  · intro i hi hb
    rw [hcap] at hi
    rw [hbit] at hb
    rw [hpay]
    by_cases hic : i + 1 = c
    · exact ⟨p, if_pos hic⟩
    · rw [if_neg hic]
      by_cases hin : g ≤ i ∧ i + 1 < c
      · rw [if_pos hin]
        exact h.pay (i + 1) (by omega) (hfull _ (by omega) (by omega))
      · rw [if_neg hin]
        rw [if_neg (by omega)] at hb
        exact h.pay i hi hb
  · have hcell : v'.cell (c - 1) = some (key, p) :=
      cell_eq_some.mpr ⟨by rw [hbit, if_pos (by omega)], by rw [hkeys, if_pos (by omega)],
        by rw [hpay, if_pos (by omega)]⟩
    have hsame : ∀ i, i < g ∨ c ≤ i → v'.cell i = v.cell i := by
      intro i hi
      exact cell_congr (by rw [hbit, if_neg (by omega)])
        (by rw [hkeys, if_neg (by omega), if_neg (by omega)])
        (by rw [hpay, if_neg (by omega), if_neg (by omega)])
    have hmoved : v.seg (g + 1) (c - 1 + 1) = v'.seg g (c - 1) := by
      refine seg_shift (fun i h1 h2 => ?_)
      refine cell_congr ?_ ?_ ?_
      · rw [hbit, if_pos (by omega), hfull (i + 1) (by omega) (by omega)]
      · rw [hkeys, if_neg (by omega), if_pos (by omega)]
      · rw [hpay, if_neg (by omega), if_pos (by omega)]
    have hgapv : v.seg g (g + 1) = [] := by
      rw [seg_single, cell_gap hgap]
      rfl
    have hc1 : c - 1 + 1 = c := by omega
    have hsingle : v'.seg (c - 1) c = [(key, p)] := by
      have := seg_single (v := v') (i := c - 1)
      rw [hc1, hcell] at this
      exact this
    rw [hc1] at hmoved
    unfold entries
    rw [hcap, seg_append (v := v') (Nat.zero_le g) (by omega : g ≤ v.cap),
      seg_append (v := v') (by omega : g ≤ c - 1) (by omega : c - 1 ≤ v.cap),
      seg_append (v := v') (by omega : c - 1 ≤ c) hle, hsingle, ← hmoved,
      seg_congr (fun i _ h2 => hsame i (Or.inl h2)), seg_congr (fun i h1 _ => hsame i (Or.inr h1)),
      seg_append (v := v) (Nat.zero_le g) (by omega : g ≤ c),
      seg_append (v := v) (Nat.le_succ g) (by omega : g + 1 ≤ c), hgapv]
    simp

/-- Turning the slots of `[lo, hi)` into gaps. -/
theorem erase (h : Gapped T v k) {lo hi : ℕ} (hlo : lo ≤ hi) (hhi : hi ≤ v.cap)
    (hend : lo = 0 ∨ lo = hi ∨ v.bit (lo - 1) = true) :
    Gapped T (v.clear (k hi) lo hi) (fun i => if lo ≤ i ∧ i < hi then k hi else k i) ∧
      (v.clear (k hi) lo hi).entries = v.seg 0 lo ++ v.seg hi v.cap := by
  have hbit : ∀ i, (v.clear (k hi) lo hi).bit i = if lo ≤ i ∧ i < hi then false else v.bit i :=
    fun _ => rfl
  have hkeys : ∀ i, (v.clear (k hi) lo hi).key i =
      if lo ≤ i ∧ i < hi then some (k hi) else v.key i := fun _ => rfl
  refine ⟨⟨⟨?_, ?_, ?_, ?_, ?_⟩⟩, ?_⟩
  · intro i hi'
    rw [hkeys]
    split_ifs
    · rfl
    · exact h.init i hi'
  · intro i hi'
    rw [clear_cap] at hi'
    rw [if_neg (by omega)]
    exact h.past i hi'
  · intro i
    have hst := h.step i
    have hmono := h.mono
    split_ifs with h1 h2 h2
    · exact le_refl _
    · exact hmono (by omega)
    · exact hmono (by omega)
    · exact hst
  · intro i hi' hb
    rw [hbit] at hb
    by_cases hin : lo ≤ i ∧ i < hi
    · rw [if_pos hin]
      split_ifs with hin'
      · rfl
      · rw [show i + 1 = hi by omega]
    · rw [if_neg hin] at hb ⊢
      have hst := h.gap i hi' hb
      by_cases hin' : lo ≤ i + 1 ∧ i + 1 < hi
      · rw [show lo - 1 = i by omega, hb] at hend
        simp at hend
        omega
      · rw [if_neg hin']
        exact hst
  · intro i hi' hb
    rw [hbit] at hb
    split_ifs at hb
    exact h.pay i hi' hb
  · have hsame : ∀ i, i < lo ∨ hi ≤ i → (v.clear (k hi) lo hi).cell i = v.cell i := by
      intro i hi'
      exact cell_congr (by rw [hbit, if_neg (by omega)]) (by rw [hkeys, if_neg (by omega)]) rfl
    have hgaps : (v.clear (k hi) lo hi).seg lo hi = [] :=
      seg_gaps (fun i h1 h2 => by rw [hbit, if_pos ⟨h1, h2⟩])
    unfold entries
    rw [clear_cap, seg_append (Nat.zero_le lo) (by omega : lo ≤ v.cap), seg_append hlo hhi, hgaps,
      seg_congr (fun i _ h2 => hsame i (Or.inl h2)), seg_congr (fun i h1 _ => hsame i (Or.inr h1))]
    rfl

/-- Clearing slots that are gaps already changes nothing. -/
theorem clear_gaps (h : Gapped T v k) {lo hi : ℕ} (hhi : hi ≤ v.cap)
    (hgap : ∀ i, lo ≤ i → i < hi → v.bit i = false) : v.clear (k hi) lo hi = v := by
  have hkey : (v.clear (k hi) lo hi).key = v.key := by
    funext i
    show (if lo ≤ i ∧ i < hi then some (k hi) else v.key i) = v.key i
    split_ifs with hin
    · have hk := h.toGappedTo.gaps (i := i) (hi - i) (by omega)
        (fun j h1 h2 => hgap j (by omega) (by omega))
      rw [show i + (hi - i) = hi by omega] at hk
      rw [h.init i (by omega), hk]
    · rfl
  have hbit : (v.clear (k hi) lo hi).bit = v.bit := by
    funext i
    show (if lo ≤ i ∧ i < hi then false else v.bit i) = v.bit i
    split_ifs with hin
    · exact (hgap i hin.1 hin.2).symm
    · rfl
  unfold clear at hkey hbit ⊢
  simp only at hkey hbit
  rw [hkey, hbit]

/-- Overwriting the payload of a filled slot. -/
theorem setPay (h : Gapped T v k) {i : ℕ} (hi : i < v.cap) (hb : v.bit i = true) (p : P) :
    Gapped T (v.setPay i p) k ∧
      (v.setPay i p).entries = v.seg 0 i ++ (k i, p) :: v.seg (i + 1) v.cap := by
  have hpay : ∀ j, (v.setPay i p).pay j = if j = i then some p else v.pay j :=
    fun j => Function.update_apply ..
  refine ⟨⟨⟨h.init, h.past, h.step, h.gap, ?_⟩⟩, ?_⟩
  · intro j hj hbj
    rw [hpay]
    split_ifs
    · exact ⟨p, rfl⟩
    · exact h.pay j hj hbj
  · have hcell : (v.setPay i p).cell i = some (k i, p) :=
      cell_eq_some.mpr ⟨hb, h.init i hi, by rw [hpay, if_pos rfl]⟩
    have hsame : ∀ j, j ≠ i → (v.setPay i p).cell j = v.cell j :=
      fun j hj => cell_congr rfl rfl (by rw [hpay, if_neg hj])
    unfold entries
    rw [setPay_cap, seg_append (Nat.zero_le i) hi.le, seg_append (Nat.le_succ i) hi, seg_single,
      hcell, seg_congr (fun j _ h2 => hsame j (by omega)),
      seg_congr (fun j h1 _ => hsame j (by omega))]
    rfl

/-- The entries around a filled slot. -/
theorem entries_at (h : Gapped T v k) {i : ℕ} (hi : i < v.cap) (hb : v.bit i = true) :
    ∃ p, v.pay i = some p ∧ v.entries = v.seg 0 i ++ (k i, p) :: v.seg (i + 1) v.cap := by
  obtain ⟨p, hp, hc⟩ := h.cell hi hb
  refine ⟨p, hp, ?_⟩
  unfold entries
  rw [seg_append (Nat.zero_le i) hi.le, seg_append (Nat.le_succ i) hi, seg_single, hc]
  rfl

end Gapped
end View

/-! ### The routines of the slot arrays -/

namespace Reps

variable {P : Type} {s : Slots P} {v : View P} {T : KeyType} {k : ℕ → ℤ}

theorem insertElementAt (h : Reps s v) (hg : v.Gapped T k) {key : ℤ} (hkey : key < T.max) {c : ℕ}
    (hc : v.CutAt k (· ≤ key) c) {pos : ℕ} (hcp : c ≤ pos) (hpos : pos < v.cap)
    (hgaps : ∀ i, c ≤ i → i ≤ pos → v.bit i = false) (p : P) :
    ∃ s' v' k', s.insertElementAt key p pos = some s' ∧ Reps s' v' ∧ v'.cap = v.cap ∧
      v'.Gapped T k' ∧ v'.entries = v.seg 0 c ++ (key, p) :: v.seg c v.cap ∧
      v'.cell pos = some (key, p) := by
  obtain ⟨s₁, e₁, h₁⟩ := h.putAt hpos key p
  have hbit : ∀ i, i ≠ pos → (v.put pos key p).bit i = v.bit i := by
    intro i hi
    show Function.update v.bit pos true i = _
    rw [Function.update_of_ne hi]
  obtain ⟨j, hj, hjgap, hjend, s₂, e₂, h₂⟩ := Reps.backFill key pos h₁ hpos.le
  -- the back-fill stops at the upper bound
  have hjc : j = c := by
    refine le_antisymm ?_ ?_
    · by_contra hcon
      rcases hjend with h0 | h1
      · omega
      · rw [hbit _ (by omega), hgaps (j - 1) (by omega) (by omega)] at h1
        cases h1
    · by_contra hcon
      have hgap := hjgap (c - 1) (by omega) (by omega)
      rw [hbit _ (by omega), hg.filled_pred hkey hc (by omega)] at hgap
      cases hgap
  subst hjc
  obtain ⟨hg', hents⟩ := hg.insert_gap hkey hc hcp hpos hgaps p
  refine ⟨s₂, _, _, ?_, h₂, rfl, hg', hents, View.put_fill_cell v key p hcp⟩
  unfold Slots.insertElementAt
  rw [e₁, Option.bind_eq_bind, Option.bind_some, e₂]

theorem backFill_stop (h : Reps s v) (key : ℤ) (pos : ℕ) (hpos : pos ≤ v.cap)
    (hend : pos = 0 ∨ v.bit (pos - 1) = true) : s.backFill key pos = some s := by
  cases pos with
  | zero => rfl
  | succ pos =>
      have hb : v.bit pos = true := by simpa using hend
      unfold Slots.backFill
      rw [h.checkExists (by omega), hb]
      rfl

/-- The slots between an upper bound and the gap nearest to it are filled. -/
theorem nearestGap_filled {c g : ℕ} (hcap : c ≤ v.cap)
    (hn : v.NearestGap (min c (v.cap - 1)) g) :
    (c ≤ g → ∀ i, c ≤ i → i < g → v.bit i = true) ∧
      (g < c → ∀ i, g < i → i < c → v.bit i = true) := by
  have hlt := hn.lt
  refine ⟨?_, ?_⟩
  · intro hcg i h1 h2
    by_contra hb
    have hnear := hn.near i (by omega) (by simpa using hb)
    rw [show min c (v.cap - 1) = c by omega, abs_of_nonpos (by omega), abs_of_nonpos (by omega)]
      at hnear
    omega
  · intro hcg i h1 h2
    by_contra hb
    have hnear := hn.near i (by omega) (by simpa using hb)
    rw [abs_of_nonneg (by omega), abs_of_nonneg (by omega)] at hnear
    omega

theorem insertUsingShifts (h : Reps s v) (hg : v.Gapped T k) {key : ℤ} (hkey : key < T.max)
    {c : ℕ} (hc : v.CutAt k (· ≤ key) c) (hroom : ∃ i, i < v.cap ∧ v.bit i = false) (p : P) :
    ∃ s' pos shifts v' k', s.insertUsingShifts key p c = some (s', pos, shifts) ∧ Reps s' v' ∧
      v'.cap = v.cap ∧ v'.Gapped T k' ∧ v'.entries = v.seg 0 c ++ (key, p) :: v.seg c v.cap ∧
      pos < v.cap ∧ v'.cell pos = some (key, p) := by
  have hle := hc.le
  obtain ⟨r, hr, hans⟩ := h.closestGap_spec c
  unfold Slots.insertUsingShifts
  simp only [hr, Option.bind_eq_bind, Option.bind_some]
  rcases hans with ⟨g, rfl, hn⟩ | ⟨_, hfull⟩
  · have hgcap := hn.lt
    obtain ⟨hfr, hfl⟩ := nearestGap_filled hle hn
    obtain ⟨s₁, e₁, h₁⟩ := h.setBit hgcap
    have hnonneg : ¬ ((g : ℤ) < 0) := by omega
    rw [if_neg hnonneg, Int.toNat_natCast]
    simp only [e₁, Option.bind_some]
    rcases Nat.lt_or_ge g c with hgc | hgc
    · obtain ⟨s₂, e₂, h₂⟩ := Reps.shiftLeft (c - 1 - g) g h₁ (by rw [View.setBit_cap]; omega)
      obtain ⟨s₃, e₃, h₃⟩ := h₂.putAt
        (show c - 1 < ((v.setBit g true).moveLeft g (c - 1 - g)).cap by
          rw [View.moveLeft_cap, View.setBit_cap]; omega) key p
      obtain ⟨hg', hents⟩ := hg.insert_left hkey hc hgc hn.gap (hfl hgc) p
      -- the slot below the new pair is filled, so nothing is back-filled
      have hfilled := hg.filled_pred hkey hc (by omega)
      have hgc' : g < c - 1 := by
        by_contra hcon
        rw [show c - 1 = g by omega, hn.gap] at hfilled
        cases hfilled
      have hend : (((v.setBit g true).moveLeft g (c - 1 - g)).put (c - 1) key p).bit (c - 1 - 1)
          = true := by
        show Function.update (Function.update v.bit g true) (c - 1) true (c - 1 - 1) = true
        rw [Function.update_of_ne (by omega), Function.update_apply]
        split_ifs with hcg
        · rfl
        · exact hfl hgc _ (by omega) (by omega)
      have e₄ := h₃.backFill_stop key (c - 1)
        (by rw [View.put_cap, View.moveLeft_cap, View.setBit_cap]; omega) (Or.inr hend)
      refine ⟨s₃, c - 1, c - g - 1, _, _, ?_, h₃, rfl, hg', hents, by omega,
        View.put_cell _ key p (c - 1)⟩
      rw [if_neg (by omega)]
      simp only [e₂, Option.bind_some, Slots.insertElementAt, Option.bind_eq_bind, e₃, e₄]
    · obtain ⟨s₂, e₂, h₂⟩ := Reps.shiftRight (g - c) c h₁ (by rw [View.setBit_cap]; omega)
      obtain ⟨s₃, e₃, h₃⟩ := h₂.putAt
        (show c < ((v.setBit g true).moveRight c (g - c)).cap by
          rw [View.moveRight_cap, View.setBit_cap]; omega) key p
      obtain ⟨hg', hents⟩ := hg.insert_right hkey hc hgc hgcap hn.gap (hfr hgc) p
      have hend : c = 0 ∨
          (((v.setBit g true).moveRight c (g - c)).put c key p).bit (c - 1) = true := by
        rcases Nat.eq_zero_or_pos c with h0 | hpos
        · exact Or.inl h0
        · right
          show Function.update (Function.update v.bit g true) c true (c - 1) = true
          rw [Function.update_of_ne (by omega), Function.update_of_ne (by omega)]
          exact hg.filled_pred hkey hc hpos
      have e₄ := h₃.backFill_stop key c
        (by rw [View.put_cap, View.moveRight_cap, View.setBit_cap]; omega) hend
      refine ⟨s₃, c, g - c, _, _, ?_, h₃, rfl, hg', hents, by omega, View.put_cell _ key p c⟩
      rw [if_pos hgc]
      simp only [e₂, Option.bind_some, Slots.insertElementAt, Option.bind_eq_bind, e₃, e₄]
  · obtain ⟨i, hi, hb⟩ := hroom
    rw [hfull i (Nat.zero_le i) hi hi] at hb
    cases hb

end Reps

end LearnedIndex.Alexol
