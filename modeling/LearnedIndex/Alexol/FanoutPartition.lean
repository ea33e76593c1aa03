import LearnedIndex.Alexol.FanoutTreeSpec

/-! # The chosen nodes partition slots and keys (`alex_fanout_tree.h`)

The nodes that `choose` returns tile the slots of the chosen depth, whatever the costs are.  In a
tree with nested boundaries every node then ends where the next one begins: all boundaries are read
off one function of the slot (`Nested.boundaries`). -/

namespace LearnedIndex.Alexol.FanoutTree

open LearnedIndex.Dyadic

variable {M P : Type}

/-- Ranges that follow each other from `a` to `b`. -/
def Consecutive : List (ℕ × ℕ) → ℕ → ℕ → Prop
  | [], a, b => a = b
  | r :: rs, a, b => r.1 = a ∧ r.1 ≤ r.2 ∧ Consecutive rs r.2 b

/-- The positions of a node. -/
def range (t : FTNode M) : ℕ × ℕ := (t.leftBoundary, t.rightBoundary)

/-- Complete levels without marks; the root covers `size` positions, and the ranges of the two
children of a node make up that of the node. -/
structure Nested (size : ℕ) (tree : List (List (FTNode M))) : Prop where
  ok : TreeOK tree
  unmarked : ∀ l i n, nodeAt tree l i = some n → n.use = false
  root : ∀ n, nodeAt tree 0 0 = some n → n.leftBoundary = 0 ∧ n.rightBoundary = size
  children : ∀ l i p a b, nodeAt tree l i = some p → nodeAt tree (l + 1) (2 * i) = some a →
    nodeAt tree (l + 1) (2 * i + 1) = some b →
    a.leftBoundary = p.leftBoundary ∧ a.leftBoundary ≤ a.rightBoundary ∧
      a.rightBoundary = b.leftBoundary ∧ b.leftBoundary ≤ b.rightBoundary ∧
      b.rightBoundary = p.rightBoundary

namespace Nested

variable {size : ℕ} {tree : List (List (FTNode M))}

/-- The boundaries of a tree of depth `D` as a function of the slot. -/
def Boundaries (tree : List (List (FTNode M))) (D : ℕ) (B : ℕ → ℕ) : Prop :=
  ∀ l i n, l ≤ D → nodeAt tree l i = some n →
    n.leftBoundary = B (slot D (l, i)) ∧ n.rightBoundary = B (slot D (l, i) + Dyadic.size D (l, i))

/-- The function for one more level: the new slots are the right ends of the left children. -/
def refine (tree : List (List (FTNode M))) (D : ℕ) (B : ℕ → ℕ) (j : ℕ) : ℕ :=
  if j % 2 = 0 then B (j / 2)
  else ((nodeAt tree (D + 1) (2 * (j / 2))).map FTNode.rightBoundary).getD 0

theorem refine_even (tree : List (List (FTNode M))) (D : ℕ) (B : ℕ → ℕ) (j : ℕ) :
    refine tree D B (2 * j) = B j := by
  unfold refine
  rw [if_pos (Nat.mul_mod_right 2 j), Nat.mul_div_cancel_left j (by omega)]

theorem refine_odd {D : ℕ} {B : ℕ → ℕ} {j : ℕ} {a : FTNode M}
    (ha : nodeAt tree (D + 1) (2 * j) = some a) :
    refine tree D B (2 * j + 1) = a.rightBoundary := by
  unfold refine
  rw [if_neg (by omega), show (2 * j + 1) / 2 = j by omega, ha]
  rfl

theorem boundaries_succ (h : Nested size tree) {D : ℕ} (hD : D + 1 < tree.length) {B : ℕ → ℕ}
    (hB : Boundaries tree D B) : Boundaries tree (D + 1) (refine tree D B) := by
  intro l i n hl hn
  rcases Nat.lt_or_ge D l with hlt | hle
  · obtain rfl : l = D + 1 := by omega
    have hi := (h.ok.index_lt hn).2
    rw [pow_succ] at hi
    have hslot : ∀ k, slot (D + 1) (D + 1, k) = k := by
      intro k
      unfold slot Dyadic.size
      rw [Nat.sub_self, pow_zero, Nat.mul_one]
    have hsize : Dyadic.size (D + 1) (D + 1, i) = 1 := by
      unfold Dyadic.size
      rw [Nat.sub_self, pow_zero]
    have hslot' : ∀ k, slot D (D, k) = k := by
      intro k
      unfold slot Dyadic.size
      rw [Nat.sub_self, pow_zero, Nat.mul_one]
    have hsize' : ∀ k, Dyadic.size D (D, k) = 1 := by
      intro k
      unfold Dyadic.size
      rw [Nat.sub_self, pow_zero]
    obtain ⟨p, hp⟩ := h.ok.exists_nodeAt (l := D) (i := i / 2) (by omega) (by omega)
    obtain ⟨a, ha⟩ := h.ok.exists_nodeAt (l := D + 1) (i := 2 * (i / 2)) hD
      (by rw [pow_succ]; omega)
    obtain ⟨b, hb⟩ := h.ok.exists_nodeAt (l := D + 1) (i := 2 * (i / 2) + 1) hD
      (by rw [pow_succ]; omega)
    obtain ⟨hleft, -, hmid, -, hright⟩ := h.children D (i / 2) p a b hp ha hb
    obtain ⟨hpl, hpr⟩ := hB D (i / 2) p (le_refl D) hp
    rw [hslot'] at hpl
    rw [hslot', hsize'] at hpr
    rw [hslot, hsize]
    rcases Nat.even_or_odd' i with ⟨k, rfl | rfl⟩
    · rw [show 2 * k / 2 = k by omega] at *
      obtain rfl : a = n := Option.some.inj (ha.symm.trans hn)
      rw [refine_even, refine_odd ha]
      exact ⟨hleft.trans hpl, rfl⟩
    · rw [show (2 * k + 1) / 2 = k by omega] at *
      obtain rfl : b = n := Option.some.inj (hb.symm.trans hn)
      rw [refine_odd ha, show 2 * k + 1 + 1 = 2 * (k + 1) by omega, refine_even]
      exact ⟨hmid.symm, hright.trans hpr⟩
  · have hsize : Dyadic.size (D + 1) (l, i) = 2 * Dyadic.size D (l, i) := by
      unfold Dyadic.size
      rw [← pow_succ', show D - l + 1 = D + 1 - l by omega]
    have hslot : slot (D + 1) (l, i) = 2 * slot D (l, i) := by
      unfold slot
      rw [hsize, Nat.mul_left_comm]
    rw [hslot, hsize, ← Nat.mul_add, refine_even, refine_even]
    exact hB l i n hle hn

theorem boundaries (h : Nested size tree) : ∀ {D : ℕ}, D < tree.length →
    ∃ B : ℕ → ℕ, B 0 = 0 ∧ B (2 ^ D) = size ∧ Boundaries tree D B
  | 0, _ => by
      refine ⟨fun j => if j = 0 then 0 else size, rfl, rfl, fun l i n hl hn => ?_⟩
      obtain rfl : l = 0 := by omega
      have hi := (h.ok.index_lt hn).2
      obtain rfl : i = 0 := by omega
      exact h.root n hn
  | D + 1, hD => by
      obtain ⟨B, h0, h1, hB⟩ := h.boundaries (D := D) (by omega)
      refine ⟨refine tree D B, ?_, ?_, h.boundaries_succ hD hB⟩
      · exact (refine_even tree D B 0).trans h0
      · rw [pow_succ', refine_even]
        exact h1

theorem left_le_right (h : Nested size tree) {l i : ℕ} {n : FTNode M}
    (hn : nodeAt tree l i = some n) : n.leftBoundary ≤ n.rightBoundary := by
  obtain ⟨hl, hi⟩ := h.ok.index_lt hn
  cases l with
  | zero =>
      obtain rfl : i = 0 := by omega
      rw [(h.root n hn).1]
      exact Nat.zero_le _
  | succ l =>
      rw [pow_succ] at hi
      obtain ⟨p, hp⟩ := h.ok.exists_nodeAt (l := l) (i := i / 2) (by omega) (by omega)
      obtain ⟨a, ha⟩ := h.ok.exists_nodeAt (l := l + 1) (i := 2 * (i / 2)) hl
        (by rw [pow_succ]; omega)
      obtain ⟨b, hb⟩ := h.ok.exists_nodeAt (l := l + 1) (i := 2 * (i / 2) + 1) hl
        (by rw [pow_succ]; omega)
      obtain ⟨-, hale, -, hble, -⟩ := h.children l (i / 2) p a b hp ha hb
      rcases Nat.even_or_odd' i with ⟨k, rfl | rfl⟩
      · rw [show 2 * k / 2 = k by omega] at ha
        obtain rfl : a = n := Option.some.inj (ha.symm.trans hn)
        exact hale
      · rw [show (2 * k + 1) / 2 = k by omega] at hb
        obtain rfl : b = n := Option.some.inj (hb.symm.trans hn)
        exact hble

end Nested

/-- Nodes that tile the slots have ranges that follow each other. -/
theorem consecutive_of_tiles {tree : List (List (FTNode M))} {D : ℕ} {B : ℕ → ℕ}
    (hB : Nested.Boundaries tree D B)
    (hle : ∀ l i n, nodeAt tree l i = some n → n.leftBoundary ≤ n.rightBoundary) :
    ∀ {ts : List (FTNode M)} {cur : ℕ}, Tiles D (ts.map cell) cur →
      (∀ t ∈ ts, ∃ n, nodeAt tree t.level t.nodeId = some n ∧ t = { n with use := true }) →
      Consecutive (ts.map range) (B cur) (B (2 ^ D))
  | [], _, h, _ => congrArg B h
  | t :: ts, cur, h, hts => by
      obtain ⟨hl, hslot, hrest⟩ := h
      obtain ⟨n, hn, heq⟩ := hts t (List.mem_cons_self ..)
      obtain ⟨hleft, hright⟩ := hB t.level t.nodeId n hl hn
      have hleft : t.leftBoundary = B (slot D (cell t)) :=
        (congrArg FTNode.leftBoundary heq).trans hleft
      have hright : t.rightBoundary = B (slot D (cell t) + Dyadic.size D (cell t)) :=
        (congrArg FTNode.rightBoundary heq).trans hright
      have hrange : t.leftBoundary ≤ t.rightBoundary := by
        rw [heq]
        exact hle _ _ n hn
      have htail :=
        consecutive_of_tiles hB hle hrest (fun t' ht' => hts t' (List.mem_cons_of_mem t ht'))
      rw [hslot] at hleft hright
      refine ⟨hleft, hrange, ?_⟩
      show Consecutive _ t.rightBoundary _
      rw [hright]
      exact htail

/-- **The chosen nodes partition slots and keys**: their slots tile those of the best level, and
their ranges follow each other over all positions. -/
theorem chosen_nodes_partition (C : Params M P) (numKeys : ℕ) (totalKeys : ℤ) {g : Growth M}
    {size : ℕ} (h : Nested size g.fanoutTree) (hbest : g.bestLevel < g.fanoutTree.length) :
    ∃ cost used, choose C numKeys totalKeys g = some (g.bestLevel, cost, used) ∧
      Tiles g.bestLevel (used.map cell) 0 ∧ Consecutive (used.map range) 0 size := by
  obtain ⟨cost, used, hchoose, htiles, hsame⟩ :=
    choose_spec C numKeys totalKeys h.ok h.unmarked hbest
  obtain ⟨B, h0, h1, hB⟩ := h.boundaries hbest
  refine ⟨cost, used, hchoose, htiles, ?_⟩
  have hcons := consecutive_of_tiles hB (fun _ _ _ hn => h.left_le_right hn) htiles hsame
  rwa [h0, h1] at hcons

/-! ### A tree of two levels -/

/-- A small index in which a data node costs as much as it has keys. -/
def smallParams : Params LinearModel ℕ where
  T := .uint64
  maxFanout := 4
  maxDataNodeSlots := 4
  defaultMaxSlots := 4
  approximateModelComputation := false
  splittingPolicyMethod := .fullFanoutTree
  sizeofDataNode := 200
  loadCost := fun values _ => ⟨values.length, 0, 0⟩
  existingCost := fun _ left right _ => ⟨right - left, 0, 0⟩
  currentCost := fun n => ⟨n.numKeys, 0, 0⟩
  past := fun _ => 0#64

/-- A node over the positions from `left` to `right`, which costs `cost`. -/
def nodeOver (level nodeId left right : ℕ) (cost : ℚ) : FTNode LinearModel where
  level := level
  nodeId := nodeId
  cost := cost
  leftBoundary := left
  rightBoundary := right
  leftLimit := 0
  rightLimit := 0
  use := false
  expectedAvgSearchIterations := 0
  expectedAvgShifts := 0
  model := NodeModel.zero
  numKeys := right - left

/-- Three keys, of which the left half of the key range has one. -/
def threeKeysTree : List (List (FTNode LinearModel)) :=
  [[nodeOver 0 0 0 3 50], [nodeOver 1 0 0 1 1, nodeOver 1 1 1 3 2]]

theorem threeKeysTree_nested : Nested 3 threeKeysTree := by
  have hat : ∀ l i n, nodeAt threeKeysTree l i = some n →
      (l = 0 ∧ i = 0 ∧ n = nodeOver 0 0 0 3 50) ∨ (l = 1 ∧ i = 0 ∧ n = nodeOver 1 0 0 1 1) ∨
        (l = 1 ∧ i = 1 ∧ n = nodeOver 1 1 1 3 2) := by
    intro l i n hn
    obtain ⟨nodes, hl, hi⟩ := nodeAt_eq_some.mp hn
    match l, i with
    | 0, 0 => cases hl; cases hi; exact Or.inl ⟨rfl, rfl, rfl⟩
    | 0, i + 1 => cases hl; cases hi
    | 1, 0 => cases hl; cases hi; exact Or.inr (Or.inl ⟨rfl, rfl, rfl⟩)
    | 1, 1 => cases hl; cases hi; exact Or.inr (Or.inr ⟨rfl, rfl, rfl⟩)
    | 1, i + 2 => cases hl; cases hi
    | l + 2, i => cases hl
  refine ⟨fun l nodes hl => ?_, fun l i n hn => ?_, fun n hn => ?_, fun l i p a b hp ha hb => ?_⟩
  · match l with
    | 0 =>
        cases hl
        refine ⟨rfl, fun i n hn => ?_⟩
        match i with
        | 0 => cases hn; rfl
        | i + 1 => cases hn
    | 1 =>
        cases hl
        refine ⟨rfl, fun i n hn => ?_⟩
        match i with
        | 0 => cases hn; rfl
        | 1 => cases hn; rfl
        | i + 2 => cases hn
    | l + 2 => cases hl
  · rcases hat l i n hn with ⟨-, -, rfl⟩ | ⟨-, -, rfl⟩ | ⟨-, -, rfl⟩ <;> rfl
  · rcases hat 0 0 n hn with ⟨-, -, rfl⟩ | ⟨h, -, -⟩ | ⟨h, -, -⟩
    · exact ⟨rfl, rfl⟩
    · cases h
    · cases h
  · rcases hat _ _ p hp with ⟨rfl, rfl, rfl⟩ | ⟨rfl, -, -⟩ | ⟨rfl, -, -⟩
    · cases ha
      cases hb
      exact ⟨rfl, by decide, rfl, by decide, rfl⟩
    · cases ha
    · cases ha

theorem chosen_nodes_partition_threeKeys :
    ∃ cost used, choose smallParams 3 3 ⟨1, some 30, [], threeKeysTree⟩ = some (1, cost, used) ∧
      Tiles 1 (used.map cell) 0 ∧ Consecutive (used.map range) 0 3 :=
  chosen_nodes_partition smallParams 3 3 (g := ⟨1, some 30, [], threeKeysTree⟩) threeKeysTree_nested
    (by decide)

end LearnedIndex.Alexol.FanoutTree
