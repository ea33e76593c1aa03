import Mathlib.Data.Set.Insert
import Mathlib.Data.List.Sort
import Mathlib.Tactic.Ring

/-! # Dyadic cells

Level `l` of the complete binary tree of depth `D` divides the slots `0 … 2^D - 1` into `2^l`
cells of the same size.  A set of cells of mixed levels is an exact cover (`ExactCover`) if every
slot lies in one and only one of them.  The cells of one level are an exact cover, replacing two
siblings by their parent keeps it, and the cells of an exact cover that are sorted by their first
slots follow each other without a gap (`Tiles`). -/

namespace LearnedIndex.Dyadic

/-- A cell: its level and its index there. -/
abbrev Cell := ℕ × ℕ

/-- The number of slots of a cell. -/
def size (D : ℕ) (c : Cell) : ℕ := 2 ^ (D - c.1)

/-- The first slot of a cell. -/
def slot (D : ℕ) (c : Cell) : ℕ := c.2 * size D c

/-- The slot lies in the cell. -/
def Covers (D : ℕ) (c : Cell) (j : ℕ) : Prop := slot D c ≤ j ∧ j < slot D c + size D c

theorem size_pos (D : ℕ) (c : Cell) : 0 < size D c := Nat.two_pow_pos _

theorem covers_slot (D : ℕ) (c : Cell) : Covers D c (slot D c) :=
  ⟨le_refl _, Nat.lt_add_of_pos_right (size_pos D c)⟩

/-- A cell lies inside the range of all slots. -/
theorem slot_add_size_le {D : ℕ} {c : Cell} (hl : c.1 ≤ D) (hi : c.2 < 2 ^ c.1) :
    slot D c + size D c ≤ 2 ^ D := by
  have hD : 2 ^ D = 2 ^ c.1 * size D c := by
    unfold size
    rw [← pow_add, Nat.add_sub_cancel' hl]
  unfold slot
  rw [hD, ← Nat.succ_mul]
  exact Nat.mul_le_mul_right _ hi

/-- The index of the cell of a level that covers a slot. -/
theorem covers_iff {D : ℕ} {c : Cell} {j : ℕ} : Covers D c j ↔ j / size D c = c.2 := by
  unfold Covers slot
  rw [Nat.div_eq_iff (size_pos D c)]
  have := size_pos D c
  omega

/-- A cell covers what its two halves cover. -/
theorem covers_parent {D l i j : ℕ} (hl : l < D) :
    Covers D (l, i) j ↔ Covers D (l + 1, 2 * i) j ∨ Covers D (l + 1, 2 * i + 1) j := by
  have hs : size D (l, i) = 2 * size D (l + 1, 2 * i) := by
    unfold size
    rw [← pow_succ', show D - (l + 1) + 1 = D - l by omega]
  have hs' : size D (l + 1, 2 * i + 1) = size D (l + 1, 2 * i) := rfl
  have h0 : slot D (l, i) = slot D (l + 1, 2 * i) := by
    unfold slot
    rw [hs]
    ring
  have h1 : slot D (l + 1, 2 * i + 1) = slot D (l + 1, 2 * i) + size D (l + 1, 2 * i) := by
    unfold slot
    rw [hs']
    ring
  unfold Covers
  rw [h0, hs, h1, hs']
  omega

/-! ### Exact covers -/

/-- Every slot lies in one and only one of the cells. -/
structure ExactCover (D : ℕ) (used : Set Cell) : Prop where
  level : ∀ c ∈ used, c.1 ≤ D
  index : ∀ c ∈ used, c.2 < 2 ^ c.1
  cover : ∀ j, j < 2 ^ D → ∃ c ∈ used, Covers D c j
  unique : ∀ j c c', c ∈ used → c' ∈ used → Covers D c j → Covers D c' j → c = c'

/-- The cells of the deepest level. -/
theorem exactCover_level (D : ℕ) : ExactCover D {c | c.1 = D ∧ c.2 < 2 ^ D} := by
  have hsize : ∀ i, size D (D, i) = 1 := by
    intro i
    unfold size
    rw [Nat.sub_self, pow_zero]
  refine ⟨fun c hc => hc.1.le, ?_, fun j hj => ⟨(D, j), ⟨rfl, hj⟩, ?_⟩, ?_⟩
  · rintro ⟨l, i⟩ ⟨rfl, hi⟩
    exact hi
  · rw [covers_iff, hsize, Nat.div_one]
  · rintro j ⟨l, i⟩ ⟨l', i'⟩ ⟨rfl, _⟩ ⟨rfl, _⟩ h h'
    rw [covers_iff, hsize, Nat.div_one] at h h'
    exact Prod.ext rfl (h.symm.trans h')

namespace ExactCover

variable {D : ℕ} {used used' : Set Cell}

/-- Two siblings are replaced by their parent. -/
theorem merge (h : ExactCover D used) {l i : ℕ} (hleft : (l + 1, 2 * i) ∈ used)
    (hright : (l + 1, 2 * i + 1) ∈ used)
    (hused : ∀ c, c ∈ used' ↔ c = (l, i) ∨
    (c ∈ used ∧ c ≠ (l + 1, 2 * i) ∧ c ≠ (l + 1, 2 * i + 1))) :
    ExactCover D used' := by
  have hl : l < D := h.level _ hleft
  have hpar := fun j => covers_parent (i := i) (j := j) hl
  -- the parent covers no slot of another cell
  have hother : ∀ j c, c ∈ used → c ≠ (l + 1, 2 * i) → c ≠ (l + 1, 2 * i + 1) → Covers D c j →
      ¬ Covers D (l, i) j := by
    intro j c hc hne hne' hcov hp
    rcases (hpar j).mp hp with h' | h'
    · exact hne (h.unique j c _ hc hleft hcov h')
    · exact hne' (h.unique j c _ hc hright hcov h')
  refine ⟨fun c hc => ?_, fun c hc => ?_, fun j hj => ?_, fun j c c' hc hc' hcov hcov' => ?_⟩
  · rcases (hused c).mp hc with rfl | ⟨hc, _⟩
    · exact hl.le
    · exact h.level c hc
  · rcases (hused c).mp hc with rfl | ⟨hc, _⟩
    · have := h.index _ hleft
      simp only [pow_succ] at this ⊢
      omega
    · exact h.index c hc
  · obtain ⟨c, hc, hcov⟩ := h.cover j hj
    by_cases hp : Covers D (l, i) j
    · exact ⟨(l, i), (hused _).mpr (Or.inl rfl), hp⟩
    · refine ⟨c, (hused c).mpr (Or.inr ⟨hc, ?_, ?_⟩), hcov⟩
      · rintro rfl
        exact hp ((hpar j).mpr (Or.inl hcov))
      · rintro rfl
        exact hp ((hpar j).mpr (Or.inr hcov))
  · rcases (hused c).mp hc with rfl | ⟨hc, h1, h2⟩ <;>
      rcases (hused c').mp hc' with rfl | ⟨hc', h1', h2'⟩
    · rfl
    · exact absurd hcov (hother j c' hc' h1' h2' hcov')
    · exact absurd hcov' (hother j c hc h1 h2 hcov)
    · exact h.unique j c c' hc hc' hcov hcov'

end ExactCover

/-! ### Tilings -/

/-- The cells follow each other from slot `cur` to the end. -/
def Tiles (D : ℕ) : List Cell → ℕ → Prop
  | [], cur => cur = 2 ^ D
  | c :: cs, cur => c.1 ≤ D ∧ slot D c = cur ∧ Tiles D cs (cur + size D c)

theorem Tiles.cur_le {D : ℕ} {cs : List Cell} {cur : ℕ} (h : Tiles D cs cur) : cur ≤ 2 ^ D := by
  induction cs generalizing cur with
  | nil => exact Nat.le_of_eq h
  | cons c cs ih => exact (Nat.le_add_right _ _).trans (ih h.2.2)

theorem Tiles.size_le {D : ℕ} {cs : List Cell} {cur : ℕ} (h : Tiles D cs cur) {c : Cell}
    (hc : c ∈ cs) : cur + size D c ≤ 2 ^ D := by
  induction cs generalizing cur with
  | nil => cases hc
  | cons c' cs ih =>
      rcases List.mem_cons.mp hc with rfl | hc
      · exact h.2.2.cur_le
      · have := ih h.2.2 hc
        omega

/-- The cell of level 0 leaves no room for another one. -/
theorem Tiles.eq_singleton {D : ℕ} {cs : List Cell} (h : Tiles D cs 0) {c : Cell} (hc : c ∈ cs)
    (hl : c.1 = 0) : cs = [c] := by
  have hsize : size D c = 2 ^ D := by
    unfold size
    rw [hl, Nat.sub_zero]
  cases cs with
  | nil => cases hc
  | cons c' cs =>
      have hpos := size_pos D c'
      rcases List.mem_cons.mp hc with rfl | hmem
      · cases cs with
        | nil => rfl
        | cons c'' cs =>
            have hle := h.2.2.size_le (List.mem_cons_self ..)
            have := size_pos D c''
            omega
      · have := h.2.2.size_le hmem
        omega

/-- No cell of a cover straddles the slot `cur`. -/
theorem ExactCover.disjoint {D : ℕ} {used : Set Cell} (h : ExactCover D used) {c c' : Cell}
    (hc : c ∈ used) (hc' : c' ∈ used) (hne : c ≠ c') (hle : slot D c ≤ slot D c') :
    slot D c + size D c ≤ slot D c' := by
  by_contra hlt
  exact hne (h.unique (slot D c') c c' hc hc' ⟨hle, by omega⟩ (covers_slot D c'))

/-- The sorted cells behind the slot `cur` tile the rest of the slots. -/
theorem ExactCover.tiles_from {D : ℕ} {used : Set Cell} (h : ExactCover D used) :
    ∀ (cs : List Cell) (cur : ℕ), cur ≤ 2 ^ D → cs.Nodup →
      cs.Pairwise (fun c c' => slot D c ≤ slot D c') →
      (∀ c, c ∈ cs ↔ c ∈ used ∧ cur ≤ slot D c) →
      (∀ c ∈ used, cur ≤ slot D c ∨ slot D c + size D c ≤ cur) → Tiles D cs cur
  | [], cur, hle, _, _, hmem, hcut => by
      by_contra hne
      have hlt : cur < 2 ^ D := lt_of_le_of_ne hle hne
      obtain ⟨c, hc, hcov⟩ := h.cover cur hlt
      rcases hcut c hc with h1 | h1
      · exact absurd ((hmem c).mpr ⟨hc, h1⟩) (by simp)
      · exact absurd hcov.2 (by omega)
  | c :: cs, cur, hle, hnd, hsort, hmem, hcut => by
      obtain ⟨hc, hge⟩ := (hmem c).mp (List.mem_cons_self ..)
      have hend := slot_add_size_le (h.level c hc) (h.index c hc)
      have hpos := size_pos D c
      obtain ⟨c₀, hc₀, hcov⟩ := h.cover cur (by omega)
      -- the cell that covers `cur` begins there, so it is the first of the list
      have hstart : slot D c₀ = cur := by
        rcases hcut c₀ hc₀ with h1 | h1
        · exact le_antisymm hcov.1 h1
        · exact absurd hcov.2 (by omega)
      have hslot : slot D c = cur := by
        rcases List.mem_cons.mp ((hmem c₀).mpr ⟨hc₀, hstart.ge⟩) with rfl | h1
        · exact hstart
        · have := (List.pairwise_cons.mp hsort).1 c₀ h1
          omega
      refine ⟨h.level c hc, hslot, ?_⟩
      have hbehind : ∀ c' ∈ used, c' ≠ c → cur ≤ slot D c' → cur + size D c ≤ slot D c' := by
        intro c' hc' hne hge'
        have := h.disjoint hc hc' (fun h => hne h.symm) (by omega)
        omega
      refine h.tiles_from cs _ (by omega) (List.nodup_cons.mp hnd).2
        (List.pairwise_cons.mp hsort).2 (fun c' => ?_) (fun c' hc' => ?_)
      · constructor
        · intro h1
          obtain ⟨hc', hge'⟩ := (hmem c').mp (List.mem_cons_of_mem c h1)
          have hne : c' ≠ c := fun h => (List.nodup_cons.mp hnd).1 (h ▸ h1)
          exact ⟨hc', hbehind c' hc' hne hge'⟩
        · rintro ⟨hc', hge'⟩
          rcases List.mem_cons.mp ((hmem c').mpr ⟨hc', by omega⟩) with rfl | h1
          · omega
          · exact h1
      · by_cases hne : c' = c
        · subst hne
          right
          omega
        · rcases hcut c' hc' with h1 | h1
          · exact Or.inl (hbehind c' hc' hne h1)
          · right
            omega

/-- The sorted cells of an exact cover tile the slots. -/
theorem ExactCover.tiles {D : ℕ} {used : Set Cell} (h : ExactCover D used) {cs : List Cell}
    (hnd : cs.Nodup) (hsort : cs.Pairwise (fun c c' => slot D c ≤ slot D c'))
    (hmem : ∀ c, c ∈ cs ↔ c ∈ used) : Tiles D cs 0 :=
  h.tiles_from cs 0 (Nat.zero_le _) hnd hsort (fun c => by simp [hmem]) (fun c _ => by simp)

/-! ### Levels only -/

/-- Cells of the given levels follow each other from slot `cur` to the end, each one aligned. -/
def Steps (D : ℕ) : List ℕ → ℕ → Prop
  | [], cur => cur = 2 ^ D
  | l :: ls, cur => l ≤ D ∧ 2 ^ (D - l) ∣ cur ∧ Steps D ls (cur + 2 ^ (D - l))

theorem Steps.cur_le {D : ℕ} {ls : List ℕ} {cur : ℕ} (h : Steps D ls cur) : cur ≤ 2 ^ D := by
  induction ls generalizing cur with
  | nil => exact Nat.le_of_eq h
  | cons l ls ih => exact (Nat.le_add_right _ _).trans (ih h.2.2)

theorem Steps.ne_nil {D : ℕ} {ls : List ℕ} {cur : ℕ} (h : Steps D ls cur) (hlt : cur < 2 ^ D) :
    ls ≠ [] := by
  rintro rfl
  exact hlt.ne h

/-! ### First slots -/

section
variable {α : Type}

/-- The first slots of labelled cells that follow each other from slot `cur` on; a cell of level
`l` takes `w l` slots. -/
def starts (w : ℕ → ℕ) : List (α × ℕ) → ℕ → List (α × ℕ × ℕ)
  | [], _ => []
  | (a, l) :: ps, cur => (a, l, cur) :: starts w ps (cur + w l)

/-- The first slot behind the cells. -/
def stop (w : ℕ → ℕ) : List (α × ℕ) → ℕ → ℕ
  | [], cur => cur
  | (_, l) :: ps, cur => stop w ps (cur + w l)

variable {w w' : ℕ → ℕ} {ps : List (α × ℕ)} {cur : ℕ}

theorem label_mem_of_starts {b : α × ℕ × ℕ} (hb : b ∈ starts w ps cur) : (b.1, b.2.1) ∈ ps := by
  induction ps generalizing cur with
  | nil => cases hb
  | cons p ps ih =>
      rcases List.mem_cons.mp hb with rfl | hb
      · exact List.mem_cons_self ..
      · exact List.mem_cons_of_mem p (ih hb)

theorem exists_starts {p : α × ℕ} (hp : p ∈ ps) : ∃ x, (p.1, p.2, x) ∈ starts w ps cur := by
  induction ps generalizing cur with
  | nil => cases hp
  | cons q ps ih =>
      rcases List.mem_cons.mp hp with rfl | hp
      · exact ⟨cur, List.mem_cons_self ..⟩
      · obtain ⟨x, hx⟩ := ih hp
        exact ⟨x, List.mem_cons_of_mem _ hx⟩

/-- Larger slots: each slot is divided into `u`, behind the slot `c`. -/
theorem starts_scale {u c a : ℕ} (hw : ∀ p ∈ ps, w' p.2 = w p.2 * u) :
    starts w' ps (c + a * u) = (starts w ps a).map (fun b => (b.1, b.2.1, c + b.2.2 * u)) := by
  induction ps generalizing a with
  | nil => rfl
  | cons p ps ih =>
      have hp := hw p (List.mem_cons_self ..)
      have hcur : c + a * u + w' p.2 = c + (a + w p.2) * u := by
        rw [hp, Nat.add_mul, Nat.add_assoc]
      show _ :: starts w' ps (c + a * u + w' p.2) = _
      rw [hcur, ih (fun q hq => hw q (List.mem_cons_of_mem p hq))]
      rfl

theorem le_stop : cur ≤ stop w ps cur := by
  induction ps generalizing cur with
  | nil => exact le_refl _
  | cons p ps ih => exact (Nat.le_add_right _ _).trans ih

theorem stop_scale {u c a : ℕ} (hw : ∀ p ∈ ps, w' p.2 = w p.2 * u) :
    stop w' ps (c + a * u) = c + stop w ps a * u := by
  induction ps generalizing a with
  | nil => rfl
  | cons p ps ih =>
      have hp := hw p (List.mem_cons_self ..)
      have hcur : c + a * u + w' p.2 = c + (a + w p.2) * u := by
        rw [hp, Nat.add_mul, Nat.add_assoc]
      show stop w' ps (c + a * u + w' p.2) = _
      rw [hcur, ih (fun q hq => hw q (List.mem_cons_of_mem p hq))]
      rfl

/-! ### First slots of dyadic cells -/

variable {D : ℕ}

theorem Steps.stop_eq (h : Steps D (ps.map Prod.snd) cur) :
    stop (fun l => 2 ^ (D - l)) ps cur = 2 ^ D := by
  induction ps generalizing cur with
  | nil => exact h
  | cons p ps ih => exact ih h.2.2

theorem Steps.mem_starts (h : Steps D (ps.map Prod.snd) cur) {b : α × ℕ × ℕ}
    (hb : b ∈ starts (fun l => 2 ^ (D - l)) ps cur) : b.2.1 ≤ D ∧ 2 ^ (D - b.2.1) ∣ b.2.2 ∧
      cur ≤ b.2.2 ∧ b.2.2 + 2 ^ (D - b.2.1) ≤ 2 ^ D := by
  induction ps generalizing cur with
  | nil => cases hb
  | cons p ps ih =>
      obtain ⟨h1, h2, h3⟩ := h
      rcases List.mem_cons.mp hb with rfl | hb
      · exact ⟨h1, h2, le_refl _, h3.cur_le⟩
      · obtain ⟨h4, h5, h6, h7⟩ := ih h3 hb
        exact ⟨h4, h5, (Nat.le_add_right _ _).trans h6, h7⟩

/-- Every slot lies in one of the cells. -/
theorem Steps.exists_cell (h : Steps D (ps.map Prod.snd) cur) {y : ℕ} (h1 : cur ≤ y)
    (h2 : y < 2 ^ D) : ∃ b ∈ starts (fun l => 2 ^ (D - l)) ps cur,
      b.2.2 ≤ y ∧ y < b.2.2 + 2 ^ (D - b.2.1) := by
  induction ps generalizing cur with
  | nil => exact absurd (h.symm.trans_le h1) (Nat.not_le.mpr h2)
  | cons p ps ih =>
      rcases Nat.lt_or_ge y (cur + 2 ^ (D - p.2)) with hlt | hge
      · exact ⟨(p.1, p.2, cur), List.mem_cons_self .., h1, hlt⟩
      · obtain ⟨b, hb, hin⟩ := ih h.2.2 hge
        exact ⟨b, List.mem_cons_of_mem _ hb, hin⟩

end

end LearnedIndex.Dyadic
