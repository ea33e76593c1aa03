import LearnedIndex.Alexol.ExpandRoot
import LearnedIndex.Alexol.HeapUpdate
import LearnedIndex.Alexol.ModelNodeSpec

/-! # The slots that `expand_root` writes

The enlarged root has `n * factor` slots, of which the old root takes `n`: all of its own when it is
expanded in place, one below a new root (`Enlarged`).  The loops of `expand_root` write blocks of
`n` new slots and stop at the slot of the new end of the domain (`blocksFrom`, `blocksBelow`); the
other new slots stay uninitialised.  No old node gets a new `local_depth_` (`KeepsDepths`). -/

namespace LearnedIndex.Alexol

/-! ### Writing slots -/

section
variable {M P : Type}

/-- The slots in `written` point at nodes from address `b` on; nothing else changes in the node. -/
structure Refilled (b : ℕ) (written : Set ℕ) (m m' : ModelNode) : Prop where
  same : { m' with children := m.children } = m
  length : m'.children.length = m.children.length
  new : ∀ j ∈ written, ∃ c, b ≤ c ∧ m'.childAt j = some c
  old : ∀ j, j ∉ written → m'.childAt j = m.childAt j

/-- The nodes that were there before keep their local depths. -/
structure KeepsDepths (h h' : Heap M P) : Prop where
  length : h.length ≤ h'.length
  depth : ∀ (x : NodeId) node, h[x]? = some node →
    ∃ node', h'[x]? = some node' ∧ node'.localDepth = node.localDepth

/-- The slots in `written` of the root point at nodes from address `b` on; the other model nodes do
not change, and all nodes that were there before keep their local depths. -/
structure Fills (b : ℕ) (root : NodeId) (written : Set ℕ) (h h' : Heap M P) : Prop where
  keeps : KeepsDepths h h'
  others : ∀ x, x ≠ root → h'.modelAt x = h.modelAt x
  root : ∀ m, h.modelAt root = some m → ∃ m', h'.modelAt root = some m' ∧ Refilled b written m m'

variable {b : ℕ} {root x : NodeId} {A B : Set ℕ} {m m' m'' : ModelNode} {h h' h'' : Heap M P}

theorem Refilled.refl (b : ℕ) (m : ModelNode) : Refilled b ∅ m m :=
  ⟨rfl, rfl, fun _ hj => hj.elim, fun _ _ => rfl⟩

theorem Refilled.trans (h : Refilled b A m m') (h' : Refilled b B m' m'') :
    Refilled b (A ∪ B) m m'' := by
  refine ⟨?_, h'.length.trans h.length, fun j hj => ?_, fun j hj => ?_⟩
  · have hsame : { m'' with children := m.children } =
        ({ ({ m'' with children := m'.children } : ModelNode) with children := m.children } :
          ModelNode) := rfl
    rw [hsame, h'.same, h.same]
  · by_cases hB : j ∈ B
    · exact h'.new j hB
    · obtain ⟨c, hbc, hc⟩ := h.new j (hj.resolve_right hB)
      exact ⟨c, hbc, (h'.old j hB).trans hc⟩
  · rw [Set.mem_union, not_or] at hj
    exact (h'.old j hj.2).trans (h.old j hj.1)

theorem Refilled.numChildren (h : Refilled b A m m') : m'.numChildren = m.numChildren := by
  have heq := congrArg ModelNode.numChildren h.same
  exact heq

theorem Refilled.localDepth (h : Refilled b A m m') : m'.localDepth = m.localDepth := by
  have heq := congrArg ModelNode.localDepth h.same
  exact heq

theorem KeepsDepths.refl (h : Heap M P) : KeepsDepths h h :=
  ⟨le_refl _, fun _ node hx => ⟨node, hx, rfl⟩⟩

theorem KeepsDepths.trans (h₁ : KeepsDepths h h') (h₂ : KeepsDepths h' h'') :
    KeepsDepths h h'' := by
  refine ⟨h₁.length.trans h₂.length, fun x node hx => ?_⟩
  obtain ⟨node', hx', hd⟩ := h₁.depth x node hx
  obtain ⟨node'', hx'', hd'⟩ := h₂.depth x node' hx'
  exact ⟨node'', hx'', hd'.trans hd⟩

/-- A node is replaced by one of the same local depth. -/
theorem KeepsDepths.of_set {node node' : Node M P} (hx : h[x]? = some node)
    (hd : node'.localDepth = node.localDepth) : KeepsDepths h (h.set x node') := by
  refine ⟨List.length_set.ge, fun y k hy => ?_⟩
  by_cases hyx : y = x
  · subst hyx
    obtain rfl := Option.some.inj (hx.symm.trans hy)
    exact ⟨node', List.getElem?_set_self (List.getElem?_eq_some_iff.mp hx).1, hd⟩
  · exact ⟨k, (List.getElem?_set_ne (fun h => hyx h.symm)).trans hy, rfl⟩

theorem KeepsDepths.of_snoc (h : Heap M P) (node : Node M P) : KeepsDepths h (h ++ [node]) := by
  refine ⟨by simp, fun y k hy => ⟨k, ?_, rfl⟩⟩
  exact (List.getElem?_append_left (List.getElem?_eq_some_iff.mp hy).1).trans hy

theorem Fills.refl (b : ℕ) (root : NodeId) (h : Heap M P) : Fills b root ∅ h h :=
  ⟨KeepsDepths.refl h, fun _ _ => rfl, fun m hm => ⟨m, hm, Refilled.refl b m⟩⟩

theorem Fills.trans (h₁ : Fills b root A h h') (h₂ : Fills b root B h' h'') :
    Fills b root (A ∪ B) h h'' := by
  refine ⟨h₁.keeps.trans h₂.keeps, fun x hx => (h₂.others x hx).trans (h₁.others x hx),
    fun m hm => ?_⟩
  obtain ⟨m', hm', hr⟩ := h₁.root m hm
  obtain ⟨m'', hm'', hr'⟩ := h₂.root m' hm'
  exact ⟨m'', hm'', hr.trans hr'⟩

/-- A step that writes no slots. -/
theorem Fills.after (h₁ : Fills b root ∅ h h') (h₂ : Fills b root A h' h'') :
    Fills b root A h h'' := by
  have hfills := h₁.trans h₂
  rwa [Set.empty_union] at hfills

theorem Fills.of_setData {n n' : DataNode M P} (hx : h.dataAt x = some n)
    (hd : n'.localDepth = n.localDepth) : Fills b root ∅ h (h.setData x n') := by
  have hmodel := Heap.modelAt_setData hx n'
  refine ⟨KeepsDepths.of_set (Heap.dataAt_eq_some.mp hx) hd, fun y _ => by rw [hmodel],
    fun m hm => ⟨m, ?_, Refilled.refl b m⟩⟩
  rw [hmodel, hm]

theorem Fills.of_modifyData {f : DataNode M P → DataNode M P} (hx : h.modifyData x f = some h')
    (hd : ∀ n, (f n).localDepth = n.localDepth) : Fills b root ∅ h h' := by
  obtain ⟨n, hn, rfl⟩ := Option.map_eq_some_iff.mp hx
  exact Fills.of_setData hn (hd n)

theorem Fills.of_snoc (n : DataNode M P) : Fills b root ∅ h (h ++ [.data n]) := by
  have hmodel := Heap.modelAt_snoc_data h n
  refine ⟨KeepsDepths.of_snoc h _, fun y _ => by rw [hmodel],
    fun m hm => ⟨m, ?_, Refilled.refl b m⟩⟩
  rw [hmodel, hm]

theorem Refilled.of_setChildren {start count c : ℕ} (hm : m.setChildren start count c = some m')
    (hb : b ≤ c) : Refilled b {j | start ≤ j ∧ j < start + count} m m' := by
  obtain ⟨children, hfill, rfl⟩ := Option.map_eq_some_iff.mp hm
  obtain ⟨-, hlen, hget⟩ := ModelNode.fillSlots_eq_some hfill
  refine ⟨rfl, hlen, fun j hj => ⟨c, hb, ?_⟩, fun j hj => ?_⟩
  · have hj : start ≤ j ∧ j < start + count := hj
    unfold ModelNode.childAt
    rw [hget, if_pos hj]
    rfl
  · have hj : ¬ (start ≤ j ∧ j < start + count) := hj
    unfold ModelNode.childAt
    rw [hget, if_neg hj]

theorem Fills.of_setModel {start count c : ℕ} (hm : h.modelAt root = some m)
    (hset : m.setChildren start count c = some m') (hb : b ≤ c) :
    Fills b root {j | start ≤ j ∧ j < start + count} h (h.setModel root m') := by
  have hr := Refilled.of_setChildren hset hb
  refine ⟨KeepsDepths.of_set (Heap.modelAt_eq_some.mp hm) hr.localDepth, fun x hx => ?_,
    fun k hk => ?_⟩
  · rw [Heap.modelAt_setModel hm, Function.update_of_ne hx]
  · obtain rfl := Option.some.inj (hm.symm.trans hk)
    refine ⟨m', ?_, hr⟩
    rw [Heap.modelAt_setModel hm, Function.update_self]

end

namespace Index

variable {M P : Type}

/-! ### The two loops -/

/-- The blocks of `n` slots from slot `i` on that begin below both bounds. -/
def blocksFrom (n stop : ℕ) (inBoundsStop : ℤ) (i : ℕ) : Set ℕ :=
  {j | ∃ k, i + n * k < stop ∧ ((i + n * k : ℕ) : ℤ) < inBoundsStop ∧ i + n * k ≤ j ∧
    j < i + n * (k + 1)}

/-- The blocks of `n` slots below slot `i` that end above both bounds. -/
def blocksBelow (n start : ℕ) (inBoundsStart : ℤ) (i : ℕ) : Set ℕ :=
  {j | ∃ k, start + n * k < i ∧ inBoundsStart + (n * k : ℕ) < i ∧ i - n * k - n ≤ j ∧
    j < i - n * k - n + n}

theorem blocksFrom_empty {n stop i : ℕ} {inBoundsStop : ℤ} (h : stop ≤ i ∨ inBoundsStop ≤ i) :
    blocksFrom n stop inBoundsStop i = ∅ := by
  refine Set.eq_empty_of_forall_notMem (fun j => ?_)
  rintro ⟨k, h1, h2, -⟩
  omega

theorem blocksFrom_step {n stop i : ℕ} {inBoundsStop : ℤ} (h : ¬ (stop ≤ i ∨ inBoundsStop ≤ i)) :
    blocksFrom n stop inBoundsStop i =
      {j | i ≤ j ∧ j < i + n} ∪ blocksFrom n stop inBoundsStop (i + n) := by
  ext j
  constructor
  · rintro ⟨k, h1, h2, h3, h4⟩
    cases k with
    | zero => exact Or.inl ⟨by omega, by omega⟩
    | succ k =>
        rw [Nat.mul_succ] at h1 h2 h3
        rw [Nat.mul_succ, Nat.mul_succ] at h4
        exact Or.inr ⟨k, by omega, by omega, by omega, by rw [Nat.mul_succ]; omega⟩
  · rintro (⟨h1, h2⟩ | ⟨k, h1, h2, h3, h4⟩)
    · exact ⟨0, by omega, by omega, by omega, by omega⟩
    · rw [Nat.mul_succ] at h4
      refine ⟨k + 1, ?_, ?_, ?_, ?_⟩
      · rw [Nat.mul_succ]
        omega
      · rw [Nat.mul_succ]
        omega
      · rw [Nat.mul_succ]
        omega
      · rw [Nat.mul_succ, Nat.mul_succ]
        omega

theorem blocksBelow_empty {n start i : ℕ} {inBoundsStart : ℤ}
    (h : i ≤ start ∨ (i : ℤ) ≤ inBoundsStart) : blocksBelow n start inBoundsStart i = ∅ := by
  refine Set.eq_empty_of_forall_notMem (fun j => ?_)
  rintro ⟨k, h1, h2, -⟩
  omega

theorem blocksBelow_step {n start i : ℕ} {inBoundsStart : ℤ}
    (h : ¬ (i ≤ start ∨ (i : ℤ) ≤ inBoundsStart)) :
    blocksBelow n start inBoundsStart i =
      {j | i - n ≤ j ∧ j < i - n + n} ∪ blocksBelow n start inBoundsStart (i - n) := by
  ext j
  constructor
  · rintro ⟨k, h1, h2, h3, h4⟩
    cases k with
    | zero => exact Or.inl ⟨by omega, by omega⟩
    | succ k =>
        rw [Nat.mul_succ] at h1 h2 h3 h4
        exact Or.inr ⟨k, by omega, by omega, by omega, by omega⟩
  · rintro (⟨h1, h2⟩ | ⟨k, h1, h2, h3, h4⟩)
    · exact ⟨0, by omega, by omega, by omega, by omega⟩
    · refine ⟨k + 1, ?_, ?_, ?_, ?_⟩
      · rw [Nat.mul_succ]
        omega
      · rw [Nat.mul_succ]
        omega
      · rw [Nat.mul_succ]
        omega
      · rw [Nat.mul_succ]
        omega

section
variable [NodeModel M] {n n' : DataNode M P}

theorem lowerBound_localDepth {x : ℚ} {pos : ℕ} (h : n.lowerBound x = some (pos, n')) :
    n'.localDepth = n.localDepth := by
  unfold DataNode.lowerBound DataNode.exponentialSearchLowerBound at h
  obtain ⟨r, -, hr⟩ := Option.bind_eq_some_iff.mp h
  obtain ⟨-, rfl⟩ := Prod.mk.inj (Option.some.inj hr)
  rfl

theorem upperBound_localDepth {x : ℚ} {pos : ℕ} (h : n.upperBound x = some (pos, n')) :
    n'.localDepth = n.localDepth := by
  unfold DataNode.upperBound DataNode.exponentialSearchUpperBound at h
  obtain ⟨r, -, hr⟩ := Option.bind_eq_some_iff.mp h
  obtain ⟨-, rfl⟩ := Prod.mk.inj (Option.some.inj hr)
  rfl

theorem contract_localDepth {T : KeyType} (h : n.contract T = some n') :
    n'.localDepth = n.localDepth := by
  unfold DataNode.contract at h
  split at h
  · obtain ⟨n₁, hresize, h⟩ := Option.bind_eq_some_iff.mp h
    obtain rfl := Option.some.inj h
    unfold DataNode.resize at hresize
    split at hresize
    · rw [← Option.some.inj hresize]
    · unfold DataNode.rebuildFrom at hresize
      obtain ⟨positions, -, hresize⟩ := Option.bind_eq_some_iff.mp hresize
      obtain ⟨keys, -, hresize⟩ := Option.bind_eq_some_iff.mp hresize
      obtain ⟨slots, -, hresize⟩ := Option.bind_eq_some_iff.mp hresize
      obtain rfl := Option.some.inj hresize
      rfl
  · rw [← Option.some.inj h]

theorem eraseRange_localDepth {T : KeyType} {startKey endKey : ℤ} {inclusive : Bool} {count : ℕ}
    (h : n.eraseRange T startKey endKey inclusive = some (count, n')) :
    n'.localDepth = n.localDepth := by
  unfold DataNode.eraseRange at h
  obtain ⟨⟨pos, n₁⟩, hend, h⟩ := Option.bind_eq_some_iff.mp h
  have hdepth : n₁.localDepth = n.localDepth := by
    unfold DataNode.rangeEnd at hend
    cases inclusive with
    | true => exact upperBound_localDepth hend
    | false => exact lowerBound_localDepth hend
  dsimp only at h
  split at h
  · obtain ⟨-, rfl⟩ := Prod.mk.inj (Option.some.inj h)
    exact hdepth
  · obtain ⟨nextKey, -, h⟩ := Option.bind_eq_some_iff.mp h
    obtain ⟨⟨slots, erased⟩, -, h⟩ := Option.bind_eq_some_iff.mp h
    obtain ⟨n₂, hcontract, h⟩ := Option.bind_eq_some_iff.mp h
    obtain ⟨-, rfl⟩ := Prod.mk.inj (Option.some.inj h)
    exact (contract_localDepth hcontract).trans hdepth

theorem nextBoundary_localDepth {T : KeyType} {last : Bool} {stop pos : ℕ} {value value' step : ℤ}
    (h : nextBoundary T n last stop value step = some (pos, value', n')) :
    n'.localDepth = n.localDepth := by
  unfold nextBoundary at h
  split at h
  · obtain ⟨-, hrest⟩ := Prod.mk.inj (Option.some.inj h)
    obtain ⟨-, rfl⟩ := Prod.mk.inj hrest
    rfl
  · obtain ⟨v, -, h⟩ := Option.bind_eq_some_iff.mp h
    obtain ⟨⟨p, n₁⟩, hlower, h⟩ := Option.bind_eq_some_iff.mp h
    obtain ⟨-, hrest⟩ := Prod.mk.inj (Option.some.inj h)
    obtain ⟨-, rfl⟩ := Prod.mk.inj hrest
    exact lowerBound_localDepth hlower

end

section
variable {b : ℕ} {root outermost : NodeId} {h h₁ h' : Heap M P}

/-- One round of either loop: the outermost leaf is searched, a leaf is added and linked, and the
block gets the new leaf. -/
theorem fills_round {outer outer' node : DataNode M P} {start count : ℕ} (hb : b ≤ h.length)
    (houter : h.dataAt outermost = some outer) (hd : outer'.localDepth = outer.localDepth)
    (hlink : Fills b root ∅ (h.setData outermost outer' ++ [.data node]) h₁)
    (hset : (h₁.modelAt root).bind (fun m =>
      (m.setChildren start count h.length).map (h₁.setModel root)) = some h') :
    Fills b root {j | start ≤ j ∧ j < start + count} h h' := by
  obtain ⟨m, hm, hset⟩ := Option.bind_eq_some_iff.mp hset
  obtain ⟨m', hm', rfl⟩ := Option.map_eq_some_iff.mp hset
  exact ((Fills.of_setData houter hd).after ((Fills.of_snoc node).after hlink)).after
    (Fills.of_setModel hm hm' hb)

variable [NodeModel M] {C : Params M P} {n newLocalDepth : ℕ} {level size : ℤ}

/-- The loop to the right writes the blocks that begin below both bounds. -/
theorem fillRight_fills {stop : ℕ} {inBoundsStop : ℤ} : ∀ {fuel i : ℕ} {value : ℤ} {left : ℕ}
    {prev : Option NodeId} {h h' : Heap M P}, b ≤ h.length →
      fillRight C root outermost n newLocalDepth level stop inBoundsStop size fuel i value left
        prev h = some h' → Fills b root (blocksFrom n stop inBoundsStop i) h h'
  | 0, i, value, left, prev, h, h', hb, hfill => by
      unfold fillRight at hfill
      split at hfill
      · obtain rfl := Option.some.inj hfill
        rw [blocksFrom_empty (Or.inl ‹_›)]
        exact Fills.refl b root h
      · cases hfill
  | fuel + 1, i, value, left, prev, h, h', hb, hfill => by
      unfold fillRight at hfill
      split at hfill
      · obtain rfl := Option.some.inj hfill
        rw [blocksFrom_empty ‹_›]
        exact Fills.refl b root h
      · obtain ⟨outer, houter, hfill⟩ := Option.bind_eq_some_iff.mp hfill
        obtain ⟨⟨right, value', outer'⟩, hnext, hfill⟩ := Option.bind_eq_some_iff.mp hfill
        obtain ⟨node, -, hfill⟩ := Option.bind_eq_some_iff.mp hfill
        obtain ⟨h₁, hlink, hfill⟩ := Option.bind_eq_some_iff.mp hfill
        obtain ⟨h₂, hset, hfill⟩ := Option.bind_eq_some_iff.mp hfill
        have hlinked : Fills b root ∅
            (h.setData outermost outer' ++ [.data { node with prevLeaf := prev }]) h₁ := by
          cases prev with
          | none =>
              obtain rfl := Option.some.inj hlink
              exact Fills.refl b root _
          | some prev => exact Fills.of_modifyData hlink (fun _ => rfl)
        have hround := fills_round hb houter (nextBoundary_localDepth hnext) hlinked hset
        rw [blocksFrom_step ‹_›]
        exact hround.trans (fillRight_fills (hb.trans hround.keeps.length) hfill)

/-- The loop to the left writes the blocks that end above both bounds. -/
theorem fillLeft_fills {start : ℕ} {inBoundsStart : ℤ} : ∀ {fuel i : ℕ} {value : ℤ} {right : ℕ}
    {next : NodeId} {h h' : Heap M P}, b ≤ h.length →
      fillLeft C root outermost n newLocalDepth level start inBoundsStart size fuel i value right
        next h = some h' → Fills b root (blocksBelow n start inBoundsStart i) h h'
  | 0, i, value, right, next, h, h', hb, hfill => by
      unfold fillLeft at hfill
      split at hfill
      · obtain rfl := Option.some.inj hfill
        rw [blocksBelow_empty (Or.inl ‹_›)]
        exact Fills.refl b root h
      · cases hfill
  | fuel + 1, i, value, right, next, h, h', hb, hfill => by
      unfold fillLeft at hfill
      split at hfill
      · obtain rfl := Option.some.inj hfill
        rw [blocksBelow_empty ‹_›]
        exact Fills.refl b root h
      · obtain ⟨outer, houter, hfill⟩ := Option.bind_eq_some_iff.mp hfill
        obtain ⟨⟨left, value', outer'⟩, hnext, hfill⟩ := Option.bind_eq_some_iff.mp hfill
        obtain ⟨node, -, hfill⟩ := Option.bind_eq_some_iff.mp hfill
        obtain ⟨h₁, hlink, hfill⟩ := Option.bind_eq_some_iff.mp hfill
        obtain ⟨h₂, hset, hfill⟩ := Option.bind_eq_some_iff.mp hfill
        have hround := fills_round hb houter (nextBoundary_localDepth hnext)
          (Fills.of_modifyData hlink (fun _ => rfl)) hset
        rw [blocksBelow_step ‹_›]
        exact hround.trans (fillLeft_fills (hb.trans hround.keeps.length) hfill)

/-- The new slots that get a leaf. -/
def writtenSlots (D : Doubles) (n start stop : ℕ) (m : ModelNode) (lo hi : ℤ) (expandLeft : Bool) :
    Set ℕ :=
  if expandLeft then blocksBelow n start (max (start : ℤ) (m.model.predictOn D lo)) stop
  else blocksFrom n stop (min (stop : ℤ) (m.model.predictOn D hi + 1)) start

theorem fillNewSlots_fills {D : Doubles} {s : Index M P} {m : ModelNode}
    {start stop : ℕ} {lo hi : ℤ}
    {expandLeft : Bool} (hb : b ≤ s.heap.length) (hm : s.heap.modelAt s.rootNode = some m)
    (hfill : fillNewSlots D C s outermost start stop lo hi size expandLeft = some h') :
    Fills b s.rootNode
      (writtenSlots D (m.numChildren - (stop - start)) start stop m lo hi expandLeft)
      s.heap h' := by
  unfold fillNewSlots at hfill
  rw [hm, Option.bind_eq_bind, Option.bind_some] at hfill
  obtain ⟨outer, houter, hfill⟩ := Option.bind_eq_some_iff.mp hfill
  obtain ⟨⟨pos, outer'⟩, hlower, hfill⟩ := Option.bind_eq_some_iff.mp hfill
  have hsearch : Fills b s.rootNode ∅ s.heap (s.heap.setData outermost outer') :=
    Fills.of_setData houter (lowerBound_localDepth hlower)
  unfold writtenSlots
  cases expandLeft with
  | true => exact hsearch.after (fillLeft_fills (hb.trans hsearch.keeps.length) hfill)
  | false =>
      simp only [Bool.false_eq_true, if_false] at hfill
      split at hfill
      · exact hsearch.after (fillRight_fills (hb.trans hsearch.keeps.length) hfill)
      · cases hfill

/-- The slot next to the old root or to its slots. -/
def besideOld (start stop : ℕ) (expandLeft : Bool) : Option ℕ :=
  if expandLeft then (if stop = 0 then none else some (stop - 1)) else some start

/-- The last steps write no slot, and they need the slot beside the old ones. -/
theorem detachOuter_fills (b root : ℕ) {s : Index M P} {start stop : ℕ} {lo hi : ℤ}
    {expandLeft : Bool}
    (hdetach : detachOuter C s outermost start stop lo hi expandLeft = some h') :
    Fills b root ∅ s.heap h' ∧ ∃ m j c, s.heap.modelAt s.rootNode = some m ∧
      besideOld start stop expandLeft = some j ∧ m.childAt j = some c := by
  unfold detachOuter at hdetach
  obtain ⟨outer, houter, hdetach⟩ := Option.bind_eq_some_iff.mp hdetach
  obtain ⟨⟨count, outer'⟩, herase, hdetach⟩ := Option.bind_eq_some_iff.mp hdetach
  obtain ⟨m, hm, hdetach⟩ := Option.bind_eq_some_iff.mp hdetach
  obtain ⟨neighbour, hneighbour, hdetach⟩ := Option.bind_eq_some_iff.mp hdetach
  have hdepth : outer'.localDepth = outer.localDepth := by
    cases expandLeft with
    | true => exact eraseRange_localDepth herase
    | false => exact eraseRange_localDepth herase
  have herased : Fills b root ∅ s.heap (s.heap.setData outermost outer') :=
    Fills.of_setData houter hdepth
  have hconnected : Fills b root ∅ (s.heap.setData outermost outer') h' := by
    unfold connectOuter at hdetach
    cases expandLeft with
    | true =>
        obtain ⟨h₁, hfirst, hsecond⟩ := Option.bind_eq_some_iff.mp hdetach
        exact (Fills.of_modifyData hfirst (fun _ => rfl)).after
          (Fills.of_modifyData hsecond (fun _ => rfl))
    | false =>
        obtain ⟨h₁, hfirst, hsecond⟩ := Option.bind_eq_some_iff.mp hdetach
        exact (Fills.of_modifyData hfirst (fun _ => rfl)).after
          (Fills.of_modifyData hsecond (fun _ => rfl))
  refine ⟨herased.after hconnected, ?_⟩
  unfold besideOld
  cases expandLeft with
  | true =>
      rw [if_pos rfl] at hneighbour
      split at hneighbour
      · cases hneighbour
      · exact ⟨m, stop - 1, neighbour, hm, by rw [if_pos rfl, if_neg ‹_›], hneighbour⟩
  | false => exact ⟨m, start, neighbour, hm, rfl, hneighbour⟩

end

/-! ### The enlarged root -/

/-- The first of the `n` slots that the old root takes among `n * factor`. -/
def oldStart (n factor : ℕ) (expandLeft : Bool) : ℕ := if expandLeft then n * factor - n else 0

/-- Every slot is a node. -/
structure AllSet (m : ModelNode) : Prop where
  length : m.children.length = m.numChildren
  set : ∀ j, j < m.numChildren → ∃ c, m.childAt j = some c

/-- The number of slots that the old root takes: its own, or one below a new root. -/
def oldSlots (maxFanout : ℕ) (old : ModelNode) (factor : ℕ) : ℕ :=
  if old.numChildren * factor ≤ maxFanout then old.numChildren else 1

/-- The model of the enlarged root. -/
def enlargedModel (D : Doubles) (maxFanout : ℕ) (old : ModelNode) (factor : ℕ) (expandLeft : Bool) :
    LinearModel :=
  if old.numChildren * factor ≤ maxFanout then inPlaceModel D old factor expandLeft
  else aboveModel D old factor expandLeft

/-- The root before any new leaf: nothing is set outside the `n` slots of the old root. -/
structure Enlarged (factor : ℕ) (expandLeft : Bool) (n start stop : ℕ) (m : ModelNode) :
    Prop where
  start : start = if expandLeft then 0 else n
  stop : stop = if expandLeft then n * factor - n else n * factor
  numChildren : m.numChildren = n * factor
  length : m.children.length = m.numChildren
  outside : ∀ j c, m.childAt j = some c →
    oldStart n factor expandLeft ≤ j ∧ j < oldStart n factor expandLeft + n

/-- What the old root becomes: its slots, or one slot. -/
inductive Kept (old : ModelNode) (rootId factor : ℕ) (expandLeft : Bool) (m : ModelNode) :
    ℕ → Prop where
  | slots : (∀ i, i < old.numChildren →
      m.childAt (oldStart old.numChildren factor expandLeft + i) = old.childAt i) →
      Kept old rootId factor expandLeft m old.numChildren
  | below : m.childAt (oldStart 1 factor expandLeft) = some rootId →
      Kept old rootId factor expandLeft m 1

section
variable {D : Doubles} {old : ModelNode} {factor : ℕ} {expandLeft : Bool}

theorem childAt_append_replicate {m : ModelNode} {l : List (Option NodeId)} {k : ℕ}
    (hm : m.children = l ++ List.replicate k none) (j : ℕ) :
    m.childAt j = if j < l.length then (l[j]?).join else none := by
  unfold ModelNode.childAt
  rw [hm]
  split
  · rw [List.getElem?_append_left ‹_›]
  · rw [List.getElem?_append_right (by omega), List.getElem?_replicate]
    split <;> rfl

theorem childAt_replicate_append {m : ModelNode} {l : List (Option NodeId)} {k : ℕ}
    (hm : m.children = List.replicate k none ++ l) (j : ℕ) :
    m.childAt j = if k ≤ j then (l[j - k]?).join else none := by
  unfold ModelNode.childAt
  rw [hm]
  split
  · rw [List.getElem?_append_right (by simpa using ‹k ≤ j›), List.length_replicate]
  · rw [List.getElem?_append_left (by simpa using ‹¬ k ≤ j›), List.getElem?_replicate]
    split <;> rfl

theorem expandInPlace_enlarged (D : Doubles) (expandLeft : Bool)
    (hlen : old.children.length = old.numChildren) (hF : 1 ≤ factor) :
    Enlarged factor expandLeft old.numChildren
      (if expandLeft then 0 else old.numChildren)
      (if expandLeft then old.numChildren * factor - old.numChildren
        else old.numChildren * factor)
      (expandInPlace D old factor expandLeft) ∧
    ∀ rootId, Kept old rootId factor expandLeft (expandInPlace D old factor expandLeft)
      old.numChildren := by
  have hle : old.numChildren ≤ old.numChildren * factor := Nat.le_mul_of_pos_right _ hF
  have htake : old.children.take old.numChildren = old.children := by rw [← hlen, List.take_length]
  have hslot : ∀ j, (expandInPlace D old factor expandLeft).childAt j =
      if oldStart old.numChildren factor expandLeft ≤ j then
        old.childAt (j - oldStart old.numChildren factor expandLeft) else none := by
    intro j
    cases expandLeft with
    | true =>
        rw [childAt_replicate_append (l := old.children)
          (k := old.numChildren * factor - old.numChildren) (by rw [← htake]; rfl)]
        rfl
    | false =>
        rw [childAt_append_replicate (l := old.children)
          (k := old.numChildren * factor - old.numChildren) (by rw [← htake]; rfl)]
        have hstart : oldStart old.numChildren factor false = 0 := rfl
        rw [hstart, if_pos (Nat.zero_le j), Nat.sub_zero]
        unfold ModelNode.childAt
        split
        · rfl
        · rw [List.getElem?_eq_none (Nat.le_of_not_lt ‹_›)]
          rfl
  refine ⟨⟨rfl, rfl, rfl, ?_, fun j c hc => ?_⟩, fun rootId => Kept.slots ?_⟩
  · unfold expandInPlace
    cases expandLeft with
    | true => simp [htake, hlen]; omega
    | false => simp [htake, hlen]; omega
  · rw [hslot] at hc
    split at hc
    · have := childAt_lt hc
      omega
    · cases hc
  · intro i hi
    rw [hslot, if_pos (Nat.le_add_right _ _), Nat.add_sub_cancel_left]

theorem rootAbove_enlarged (D : Doubles) (old : ModelNode) (rootId : NodeId) (expandLeft : Bool)
    (hF : 1 ≤ factor) :
    Enlarged factor expandLeft 1 (if expandLeft then 0 else 1)
      ((if expandLeft then 0 else 1) + factor - 1) (rootAbove D old rootId factor expandLeft) ∧
    Kept old rootId factor expandLeft (rootAbove D old rootId factor expandLeft) 1 := by
  have hslot : ∀ j, (rootAbove D old rootId factor expandLeft).childAt j =
      if j = oldStart 1 factor expandLeft then some rootId else none := by
    intro j
    cases expandLeft with
    | true =>
        rw [childAt_replicate_append (l := [some rootId]) (k := factor - 1) rfl]
        have hstart : oldStart 1 factor true = factor - 1 := by
          unfold oldStart
          rw [if_pos rfl, Nat.one_mul]
        rw [hstart]
        rcases Nat.lt_trichotomy j (factor - 1) with hlt | rfl | hgt
        · rw [if_neg (by omega), if_neg (by omega)]
        · rw [if_pos (le_refl _), if_pos rfl, Nat.sub_self]
          rfl
        · rw [if_pos hgt.le, if_neg (by omega), List.getElem?_eq_none (by simp; omega)]
          rfl
    | false =>
        rw [childAt_append_replicate (l := [some rootId]) (k := factor - 1) rfl]
        have hstart : oldStart 1 factor false = 0 := rfl
        rw [hstart, List.length_singleton]
        by_cases hj : j = 0
        · subst hj
          rfl
        · rw [if_neg (by omega), if_neg hj]
  refine ⟨⟨rfl, ?_, (Nat.one_mul factor).symm, ?_, fun j c hc => ?_⟩, Kept.below ?_⟩
  · cases expandLeft with
    | true =>
        simp only [if_true]
        omega
    | false =>
        simp only [Bool.false_eq_true, if_false]
        omega
  · unfold rootAbove
    cases expandLeft with
    | true =>
        simp
        omega
    | false =>
        simp
        omega
  · rw [hslot] at hc
    split at hc
    · omega
    · cases hc
  · rw [hslot, if_pos rfl]

end

section
variable {D : Doubles} {C : Params M P} {s s' : Index M P} {old : ModelNode}
  {factor start stop : ℕ} {expandLeft : Bool}

theorem updateSuperrootPointer_spec (h : updateSuperrootPointer s = some s') :
    s'.rootNode = s.rootNode ∧ KeepsDepths s.heap s'.heap ∧ (s.rootNode ≠ s.superroot →
      s'.heap.modelAt s.rootNode = s.heap.modelAt s.rootNode) := by
  unfold updateSuperrootPointer at h
  obtain ⟨node, -, h⟩ := Option.bind_eq_some_iff.mp h
  obtain ⟨sr, hsr, h⟩ := Option.bind_eq_some_iff.mp h
  obtain ⟨sr', hset, h⟩ := Option.bind_eq_some_iff.mp h
  obtain rfl := Option.some.inj h
  have hdepth := (Refilled.of_setChildren hset (Nat.zero_le _)).localDepth
  refine ⟨rfl, KeepsDepths.of_set (Heap.modelAt_eq_some.mp hsr) hdepth, fun hne => ?_⟩
  rw [Heap.modelAt_setModel hsr, Function.update_of_ne hne]

/-- The enlarged root has the model and the old slots that its size asks for. -/
theorem enlargeRoot_spec (hroot : s.heap.modelAt s.rootNode = some old)
    (hlen : old.children.length = old.numChildren) (hF : 1 ≤ factor)
    (hsuper : ∃ sr, s.heap.modelAt s.superroot = some sr)
    (h : enlargeRoot D C s factor expandLeft = some (start, stop, s')) :
    ∃ m, s'.heap.modelAt s'.rootNode = some m ∧
      m.model = enlargedModel D C.maxFanout old factor expandLeft ∧
      Enlarged factor expandLeft (oldSlots C.maxFanout old factor) start stop m ∧
      Kept old s.rootNode factor expandLeft m (oldSlots C.maxFanout old factor) ∧
      KeepsDepths s.heap s'.heap := by
  unfold enlargeRoot at h
  unfold enlargedModel oldSlots
  rw [hroot, Option.bind_eq_bind, Option.bind_some] at h
  split at h
  · rw [if_pos ‹_›, if_pos ‹_›]
    obtain ⟨rfl, hrest⟩ := Prod.mk.inj (Option.some.inj h)
    obtain ⟨rfl, rfl⟩ := Prod.mk.inj hrest
    obtain ⟨henlarged, hkept⟩ := expandInPlace_enlarged D expandLeft hlen hF
    refine ⟨_, ?_, rfl, henlarged, hkept s.rootNode,
      KeepsDepths.of_set (Heap.modelAt_eq_some.mp hroot) rfl⟩
    rw [Heap.modelAt_setModel hroot, Function.update_self]
  · rw [if_neg ‹_›, if_neg ‹_›]
    obtain ⟨s₁, hpointer, h⟩ := Option.bind_eq_some_iff.mp h
    obtain ⟨rfl, hrest⟩ := Prod.mk.inj (Option.some.inj h)
    obtain ⟨rfl, rfl⟩ := Prod.mk.inj hrest
    obtain ⟨henlarged, hkept⟩ := rootAbove_enlarged D old s.rootNode expandLeft hF
    obtain ⟨hrootNode, hkeeps, hmodel⟩ := updateSuperrootPointer_spec hpointer
    obtain ⟨sr, hsr⟩ := hsuper
    refine ⟨_, ?_, rfl, henlarged, hkept,
      (KeepsDepths.of_snoc s.heap _).trans hkeeps⟩
    rw [hrootNode, hmodel (Heap.modelAt_lt hsr).ne', Heap.modelAt_snoc_model,
      Function.update_self]

theorem Enlarged.old_slots {n : ℕ} {m : ModelNode}
    (he : Enlarged factor expandLeft n start stop m)
    (hF : 1 ≤ factor) : m.numChildren - (stop - start) = n := by
  obtain ⟨f, rfl⟩ : ∃ f, factor = f + 1 := Nat.exists_eq_succ_of_ne_zero (by omega)
  have hstart := he.start
  have hstop := he.stop
  have hmul : n * (f + 1) = n * f + n := Nat.mul_succ n f
  rw [he.numChildren]
  cases expandLeft with
  | true =>
      simp only [if_true] at hstart hstop
      omega
  | false =>
      simp only [Bool.false_eq_true, if_false] at hstart hstop
      omega

/-- A slot beside the old ones asks for two times as many slots at least. -/
theorem Enlarged.two_le {n j : ℕ} {m : ModelNode}
    (he : Enlarged factor expandLeft n start stop m)
    (hj : besideOld start stop expandLeft = some j) (hlt : j < n * factor) : 2 ≤ factor := by
  have hstart := he.start
  have hstop := he.stop
  by_contra hcon
  have hle : n * factor ≤ n * 1 := Nat.mul_le_mul_left n (by omega)
  unfold besideOld at hj
  cases expandLeft with
  | true =>
      simp only [if_true] at hj hstop
      rw [if_pos (by omega)] at hj
      cases hj
  | false =>
      simp only [Bool.false_eq_true, if_false] at hj hstart
      obtain rfl := Option.some.inj hj
      omega

theorem one_le_of_expandedDomain {T : KeyType} {key lo hi : ℤ}
    (h : expandedDomain D T s key expandLeft = some (factor, lo, hi)) : 1 ≤ factor := by
  have hone : ∀ {d size : ℤ} {f : ℕ}, expansionFactor D d size = some f → 1 ≤ f := by
    intro d size f hf
    unfold expansionFactor at hf
    dsimp only at hf
    split at hf
    · rw [← Option.some.inj hf]
      exact Nat.succ_le_succ (Nat.zero_le _)
    · cases hf
  unfold expandedDomain at h
  obtain ⟨size, -, h⟩ := Option.bind_eq_some_iff.mp h
  obtain ⟨d, -, h⟩ := Option.bind_eq_some_iff.mp h
  obtain ⟨f, hf, h⟩ := Option.bind_eq_some_iff.mp h
  cases expandLeft with
  | true =>
      obtain ⟨x, -, h⟩ := Option.bind_eq_some_iff.mp h
      obtain ⟨rfl, -⟩ := Prod.mk.inj (Option.some.inj h)
      exact hone hf
  | false =>
      obtain ⟨x, -, h⟩ := Option.bind_eq_some_iff.mp h
      obtain ⟨rfl, -⟩ := Prod.mk.inj (Option.some.inj h)
      exact hone hf

variable [NodeModel M]

theorem oldSlots_pos {maxFanout : ℕ} (hN : 0 < old.numChildren) :
    0 < oldSlots maxFanout old factor := by
  unfold oldSlots
  split
  · exact hN
  · exact Nat.one_pos

/-- **What `expand_root` does to the root**: an enlarged root `m₁` whose new slots are filled up to
the slot of the new end of the domain. -/
theorem expandRoot_spec {key : ℤ} (hroot : s.heap.modelAt s.rootNode = some old)
    (hlen : old.children.length = old.numChildren)
    (hsuper : ∃ sr, s.heap.modelAt s.superroot = some sr)
    (hrun : expandRoot D C s key expandLeft = some s') :
    ∃ factor lo hi start stop m₁ m,
      expandedDomain D C.T s key expandLeft = some (factor, lo, hi) ∧ 2 ≤ factor ∧
      m₁.model = enlargedModel D C.maxFanout old factor expandLeft ∧
      Enlarged factor expandLeft (oldSlots C.maxFanout old factor) start stop m₁ ∧
      Kept old s.rootNode factor expandLeft m₁ (oldSlots C.maxFanout old factor) ∧
      KeepsDepths s.heap s'.heap ∧ s'.heap.modelAt s'.rootNode = some m ∧
      Refilled s.heap.length
        (writtenSlots D (oldSlots C.maxFanout old factor) start stop m₁ lo hi expandLeft) m₁ m := by
  unfold expandRoot at hrun
  obtain ⟨size, -, hrun⟩ := Option.bind_eq_some_iff.mp hrun
  obtain ⟨⟨factor, lo, hi⟩, hdomain, hrun⟩ := Option.bind_eq_some_iff.mp hrun
  obtain ⟨outermost, -, hrun⟩ := Option.bind_eq_some_iff.mp hrun
  obtain ⟨⟨start, stop, s₁⟩, henlarge, hrun⟩ := Option.bind_eq_some_iff.mp hrun
  obtain ⟨h₁, hfill, hrun⟩ := Option.bind_eq_some_iff.mp hrun
  obtain ⟨h₂, hdetach, hrun⟩ := Option.bind_eq_some_iff.mp hrun
  obtain rfl := Option.some.inj hrun
  have hF := one_le_of_expandedDomain hdomain
  obtain ⟨m₁, hm₁, hmodel, henlarged, hkept, hkeeps⟩ :=
    enlargeRoot_spec hroot hlen hF hsuper henlarge
  have hfills := fillNewSlots_fills hkeeps.length hm₁ hfill
  rw [henlarged.old_slots hF] at hfills
  obtain ⟨m₂, hm₂, hrefilled⟩ := hfills.root m₁ hm₁
  obtain ⟨hdetached, m, j, c, hm, hj, hc⟩ :=
    detachOuter_fills s.heap.length s₁.rootNode hdetach
  obtain ⟨m₃, hm₃, hsame⟩ := hdetached.root m₂ hm₂
  obtain rfl := Option.some.inj (hm₂.symm.trans hm)
  have hlt : j < oldSlots C.maxFanout old factor * factor := by
    have := childAt_lt hc
    rw [hrefilled.length, henlarged.length, henlarged.numChildren] at this
    exact this
  have hboth := hrefilled.trans hsame
  rw [Set.union_empty] at hboth
  exact ⟨factor, lo, hi, start, stop, m₁, m₃, hdomain, henlarged.two_le hj hlt, hmodel, henlarged,
    hkept, (hkeeps.trans hfills.keeps).trans hdetached.keeps, hm₃, hboth⟩

end

end Index

end LearnedIndex.Alexol
