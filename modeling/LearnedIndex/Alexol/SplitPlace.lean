import LearnedIndex.Alexol.SplitParts
import LearnedIndex.Alexol.TreeUpdate

/-! # The place of the new leaves

`placeParts` gives the new leaves of a split their blocks of slots below a model node.  The edges of
the blocks are the fractions of the key range of the old leaf at which its pairs were divided
(`edge_cell`), so every new leaf has keys of its own range only (`Block.inside`). -/

namespace LearnedIndex.Alexol

open LearnedIndex.Chains LearnedIndex.Dyadic

variable {M P : Type}

/-- The leaf at `count` slots from `start` on below a model node. -/
def DataNode.placed (k : DataNode M P) (m : ModelNode) (localDepth start count : ℕ) :
    DataNode M P :=
  { k with
    level := m.level + 1
    localDepth := localDepth
    minLimit := m.edge start
    maxLimit := m.edge (start + count) }

namespace Index

/-- The number of slots of a part of level `l` below a child of local depth `baseDepth`. -/
def partSlots (baseDepth globalDepth l : ℕ) : ℕ := 2 ^ (globalDepth - (baseDepth + l))

theorem placeParts_spec {m : ModelNode} {d g : ℕ} : ∀ (parts : List (NodeId × ℕ)) (cur : ℕ)
    (h : Heap M P) (children : List (Option NodeId)), (∀ p ∈ parts, ∃ k, h.dataAt p.1 = some k) →
      (parts.map Prod.fst).Nodup → stop (partSlots d g) parts cur ≤ children.length →
      ∃ h' children', placeParts m d g parts cur h children = some (h', children') ∧
        h'.length = h.length ∧ h'.modelAt = h.modelAt ∧
        (∀ x, x ∉ parts.map Prod.fst → h'.dataAt x = h.dataAt x) ∧
        children'.length = children.length ∧
        (∀ j, j < cur ∨ stop (partSlots d g) parts cur ≤ j → children'[j]? = children[j]?) ∧
        ∀ b ∈ starts (partSlots d g) parts cur,
          (∀ k, h.dataAt b.1 = some k → h'.dataAt b.1 =
            some (k.placed m (d + b.2.1) b.2.2 (partSlots d g b.2.1))) ∧
          ∀ j, b.2.2 ≤ j → j < b.2.2 + partSlots d g b.2.1 → children'[j]? = some (some b.1)
  | [], cur, h, children, _, _, _ =>
      ⟨h, children, rfl, rfl, rfl, fun _ _ => rfl, rfl, fun _ _ => rfl, by
        intro b hb
        cases hb⟩
  | (id, l) :: parts, cur, h, children, hdata, hnd, hle => by
      obtain ⟨k, hk⟩ := hdata (id, l) (List.mem_cons_self ..)
      obtain ⟨hid, hnd'⟩ := List.nodup_cons.mp hnd
      have hstop : stop (partSlots d g) ((id, l) :: parts) cur =
          stop (partSlots d g) parts (cur + partSlots d g l) := rfl
      have hcur : cur + partSlots d g l ≤ children.length := by
        rw [hstop] at hle
        exact le_stop.trans hle
      obtain ⟨children₁, hfill⟩ := ModelNode.fillSlots_isSome id hcur
      obtain ⟨_, hlen₁, hget₁⟩ := ModelNode.fillSlots_eq_some hfill
      have hset := Heap.dataAt_setData hk (k.placed m (d + l) cur (partSlots d g l))
      have hother : ∀ x, x ≠ id →
        (h.setData id (k.placed m (d + l) cur (partSlots d g l))).dataAt x =
          h.dataAt x := by
        intro x hx
        rw [hset, Function.update_of_ne hx]
      have hne : ∀ p ∈ parts, p.1 ≠ id := fun p hp h => hid (List.mem_map.mpr ⟨p, hp, h⟩)
      obtain ⟨h', children', hplace, hlen, hmodel, hothers, hlen', hkeep, hparts⟩ :=
        placeParts_spec parts (cur + partSlots d g l)
          (h.setData id (k.placed m (d + l) cur (partSlots d g l))) children₁
          (fun p hp => by
            rw [hother p.1 (hne p hp)]
            exact hdata p (List.mem_cons_of_mem _ hp)) hnd' (by rw [hlen₁]; exact hle)
      refine ⟨h', children', ?_, ?_, ?_, fun x hx => ?_, hlen'.trans hlen₁, fun j hj => ?_,
        fun b hb => ?_⟩
      · unfold placeParts
        simp only [Heap.modifyData_eq hk, Option.bind_eq_bind, Option.bind_some]
        unfold partSlots at hfill
        rw [hfill]
        exact hplace
      · rw [hlen, Heap.length_setData]
      · rw [hmodel, Heap.modelAt_setData hk]
      · rw [List.map_cons, List.mem_cons, not_or] at hx
        rw [hothers x hx.2, hother x hx.1]
      · rw [hstop] at hj
        have hle' : cur + partSlots d g l ≤ stop (partSlots d g) parts (cur + partSlots d g l) :=
          le_stop
        rw [hkeep j (by omega), hget₁, if_neg (by omega)]
      · rcases List.mem_cons.mp hb with rfl | hb
        · refine ⟨fun k' hk' => ?_, fun j h1 h2 => ?_⟩
          · obtain rfl := Option.some.inj (hk.symm.trans hk')
            rw [hothers id hid, hset, Function.update_self]
          · rw [hkeep j (Or.inl h2), hget₁, if_pos ⟨h1, h2⟩]
        · obtain ⟨h1, h2⟩ := hparts b hb
          refine ⟨fun k' hk' => h1 k' ?_, h2⟩
          rw [hother b.1 (hne _ (label_mem_of_starts hb))]
          exact hk'

end Index

/-! ### Blocks and cells -/

/-- The block of the leaf `n` below the model node `m`, from slot `start` on, whose parts are the
cells of depth `D`. -/
structure Block (m : ModelNode) (n : DataNode M P) (g d D start : ℕ) : Prop where
  slope : 0 < m.model.a
  size : m.numChildren = 2 ^ g
  depth : d + D ≤ g
  aligned : 2 ^ (g - d) ∣ start
  fit : start + 2 ^ (g - d) ≤ m.numChildren
  lo : n.minLimit = m.edge start
  hi : n.maxLimit = m.edge (start + 2 ^ (g - d))

namespace Block

variable {m : ModelNode} {n : DataNode M P} {g d D start : ℕ}

/-- The number of slots of a cell of the deepest level. -/
def unit (g d D : ℕ) : ℕ := 2 ^ (g - (d + D))

theorem unit_pos (g d D : ℕ) : 0 < unit g d D := Nat.two_pow_pos _

theorem size_eq (hb : Block m n g d D start) : 2 ^ (g - d) = 2 ^ D * unit g d D := by
  unfold unit
  rw [← pow_add]
  congr 1
  have := hb.depth
  omega

theorem partSlots_eq (hb : Block m n g d D start) {l : ℕ} (hl : l ≤ D) :
    Index.partSlots d g l = 2 ^ (D - l) * unit g d D := by
  unfold Index.partSlots unit
  rw [← pow_add]
  congr 1
  have := hb.depth
  omega

/-- The range of the leaf is not empty. -/
theorem lt (hb : Block m n g d D start) : n.minLimit < n.maxLimit := by
  rw [hb.lo, hb.hi, ModelNode.edge_lt_edge hb.slope]
  exact Nat.lt_add_of_pos_right (Nat.two_pow_pos _)

/-- The edge of a cell is the value at its fraction of the key range. -/
theorem edge_cell (hb : Block m n g d D start) (x : ℕ) :
    m.edge (start + x * unit g d D) = n.limitAt ((x : ℚ) / 2 ^ D) := by
  have ha := hb.slope.ne'
  have hD : (2 : ℚ) ^ D ≠ 0 := by positivity
  unfold DataNode.limitAt
  rw [hb.lo, hb.hi, hb.size_eq]
  unfold ModelNode.edge
  push_cast
  field_simp
  ring

theorem limitAt_zero (n : DataNode M P) : n.limitAt 0 = n.minLimit := by
  unfold DataNode.limitAt
  ring

theorem limitAt_one (n : DataNode M P) : n.limitAt 1 = n.maxLimit := by
  unfold DataNode.limitAt
  ring

/-- The pairs of a cell lie between the edges of its block. -/
theorem inside (hb : Block m n g d D start) {T : KeyType} (hs : n.Stores T) {LO HI : ℚ}
    (hin : ∀ e ∈ n.pairs, Inside LO HI n.minLimit n.maxLimit e.1) {l x : ℕ}
    (hx : x + 2 ^ (D - l) ≤ 2 ^ D) {e : ℤ × P} (he : e ∈ n.cellPairs D l x) :
    Inside LO HI (m.edge (start + x * unit g d D))
      (m.edge (start + (x + 2 ^ (D - l)) * unit g d D)) e.1 := by
  have hmem := hin e (hs.mem_pairs (hs.bound_le _) he)
  obtain ⟨h1, h2⟩ := hs.mem_between he
  have hpos : (0 : ℚ) < 2 ^ D := by positivity
  rw [hb.edge_cell, hb.edge_cell]
  constructor
  · rcases h1 with h1 | h1
    · -- the first cell begins where the leaf does
      have hx0 : x = 0 := by
        by_contra hne
        have : (0 : ℚ) < (x : ℚ) / 2 ^ D := by
          have : (0 : ℚ) < x := by exact_mod_cast Nat.pos_of_ne_zero hne
          positivity
        linarith
      rw [hx0, Nat.cast_zero, zero_div, limitAt_zero]
      exact hmem.1
    · exact Or.inl h1
  · rcases h2 with h2 | h2
    · have hx1 : x + 2 ^ (D - l) = 2 ^ D := by
        rw [one_le_div hpos] at h2
        have h2' : 2 ^ D ≤ x + 2 ^ (D - l) := by exact_mod_cast h2
        omega
      have hone : (((x + 2 ^ (D - l) : ℕ) : ℚ)) / 2 ^ D = 1 := by
        rw [hx1]
        push_cast
        exact div_self hpos.ne'
      rw [hone, limitAt_one]
      exact hmem.2
    · exact Or.inl h2

/-- The blocks of the parts below the model node. -/
theorem starts_eq (hb : Block m n g d D start) {parts : List (NodeId × ℕ)}
    (hs : Steps D (parts.map Prod.snd) 0) : starts (Index.partSlots d g) parts start =
      (starts (fun l => 2 ^ (D - l)) parts 0).map
        (fun b => (b.1, b.2.1, start + b.2.2 * unit g d D)) := by
  have h := starts_scale (w := fun l => 2 ^ (D - l))
    (a := 0) (u := unit g d D) (c := start) (fun p hp => by
      obtain ⟨x, hx⟩ := exists_starts (w := fun l => 2 ^ (D - l)) hp
      exact hb.partSlots_eq (hs.mem_starts hx).1)
  rwa [Nat.zero_mul, Nat.add_zero] at h

theorem stop_eq (hb : Block m n g d D start) {parts : List (NodeId × ℕ)}
    (hs : Steps D (parts.map Prod.snd) 0) :
    stop (Index.partSlots d g) parts start = start + 2 ^ (g - d) := by
  have h := stop_scale (w := fun l => 2 ^ (D - l))
    (a := 0) (u := unit g d D) (c := start) (fun p hp => by
      obtain ⟨x, hx⟩ := exists_starts (w := fun l => 2 ^ (D - l)) hp
      exact hb.partSlots_eq (hs.mem_starts hx).1)
  rw [Nat.zero_mul, Nat.add_zero, hs.stop_eq, ← hb.size_eq] at h
  exact h

/-- The block of a child whose slots suffice for the parts. -/
theorem of_child {F : NodeId → Option Frame} {live : Set NodeId} (hm : ModelOK F live m)
    (hg : m.numChildren = 2 ^ g) {L : NodeId} {i : ℕ}
    (hc : ChildAt F m i L (.leaf n.level n.localDepth n.minLimit n.maxLimit))
    (hi : i < m.numChildren) (hD : n.localDepth + D ≤ g) :
    Block m n g n.localDepth D (m.blockStart i n.localDepth) := by
  have hrep := ModelNode.repeats_eq (d := n.localDepth) hg
  refine ⟨hm.slope, hg, hD, ?_, ?_, hc.lo, ?_⟩
  · rw [← hrep]
    exact m.repeats_dvd_blockStart i n.localDepth
  · rw [← hrep]
    exact m.blockStart_add_le hg hi
  · rw [← hrep]
    exact hc.hi

/-- Only the model and the number of children matter. -/
theorem of_shape (hb : Block m n g d D start) {m' : ModelNode} (h : SameShape m m') :
    Block m' n g d D start :=
  ⟨h.model ▸ hb.slope, h.numChildren.trans hb.size, hb.depth, hb.aligned, h.numChildren ▸ hb.fit,
    hb.lo.trans (h.edge _).symm, hb.hi.trans (h.edge _).symm⟩

/-- The block below an expanded copy of the model node. -/
theorem expand (hb : Block m n g d 0 start) {k : ℕ} (hD : d + D ≤ g + k) :
    Block (m.expand k) n (g + k) d D (start * 2 ^ k) := by
  have hd : d ≤ g := hb.depth
  have hsize : 2 ^ (g + k - d) = 2 ^ (g - d) * 2 ^ k := by
    rw [← pow_add]
    congr 1
    omega
  refine ⟨m.expand_slope hb.slope k, ?_, hD, ?_, ?_, ?_, ?_⟩
  · rw [m.expand_numChildren, hb.size, pow_add]
  · rw [hsize]
    exact Nat.mul_dvd_mul_right hb.aligned _
  · rw [hsize, ← Nat.add_mul, m.expand_numChildren]
    exact Nat.mul_le_mul_right _ hb.fit
  · rw [m.expand_edge]
    exact hb.lo
  · rw [hsize, ← Nat.add_mul, m.expand_edge]
    exact hb.hi

/-- The whole key range of the leaf below a model node of its own. -/
theorem downward (hlt : n.minLimit < n.maxLimit) {D : ℕ} :
    ∃ md, Index.downwardNode n D = some md ∧ Block md n D 0 D 0 ∧ md.level = n.level ∧
      md.localDepth = n.localDepth ∧ md.lock = 0#32 ∧ md.isObsolete = false ∧
      md.children = List.replicate (2 ^ D) none ∧ md.numChildren = 2 ^ D := by
  have hpos : 0 < n.maxLimit - n.minLimit := sub_pos.mpr hlt
  unfold Index.downwardNode
  rw [if_neg (fun h => hlt.ne h.symm)]
  refine ⟨_, rfl, ⟨?_, rfl, (Nat.zero_add D).le, dvd_zero _, ?_, ?_, ?_⟩, rfl, rfl, rfl, rfl, rfl,
    rfl⟩
  · show 0 < 1 / (n.maxLimit - n.minLimit) * ((2 ^ D : ℕ) : ℚ)
    push_cast
    positivity
  · rw [Nat.zero_add, Nat.sub_zero]
  · unfold ModelNode.edge
    push_cast
    field_simp
    ring
  · unfold ModelNode.edge
    rw [Nat.sub_zero, Nat.zero_add]
    push_cast
    field_simp
    ring

end Block

end LearnedIndex.Alexol
