import LearnedIndex.Alexol.Loaded
import LearnedIndex.Alexol.SplitTree

/-! # From a loaded tree to an index

After the last node has been made, `link_all_data_nodes` links the leaves in the order in which
`NodeIterator` finds them (`linkLeaves_spec`), and the tree with its linked leaves satisfies the
invariant of the index (`Loaded.good`).  The two ends of the leaf list are the leaves that
`first_data_node` and `last_data_node` descend to. -/

namespace LearnedIndex.Alexol

open LearnedIndex.Chains LearnedIndex.Forests

variable {M P : Type}

/-! ### Linking the leaves -/

namespace Heap

/-- Only the two links of the leaves in a list may have changed. -/
structure Relinked (h h' : Heap M P) (l : List NodeId) : Prop where
  length : h'.length = h.length
  modelAt : h'.modelAt = h.modelAt
  dataAt : ∀ x, ∃ p q, h'.dataAt x = (h.dataAt x).map (fun n => n.withLinks ⟨p, q, n.linkLock⟩)
  other : ∀ x ∉ l, h'.dataAt x = h.dataAt x

namespace Relinked

variable {h h' h'' : Heap M P} {l l' : List NodeId} {x : NodeId} {n : DataNode M P}

theorem refl (h : Heap M P) (l : List NodeId) : Relinked h h l := by
  refine ⟨rfl, rfl, fun x => ?_, fun _ _ => rfl⟩
  cases hx : h.dataAt x with
  | none => exact ⟨none, none, rfl⟩
  | some n => exact ⟨n.prevLeaf, n.nextLeaf, rfl⟩

theorem trans (h₁ : Relinked h h' l) (h₂ : Relinked h' h'' l')
    (hl : l' ⊆ l) : Relinked h h'' l := by
  refine ⟨h₂.length.trans h₁.length, h₂.modelAt.trans h₁.modelAt, fun x => ?_, fun x hx =>
    (h₂.other x (fun hx' => hx (hl hx'))).trans (h₁.other x hx)⟩
  obtain ⟨_, _, hd₁⟩ := h₁.dataAt x
  obtain ⟨p, q, hd₂⟩ := h₂.dataAt x
  refine ⟨p, q, ?_⟩
  rw [hd₂, hd₁, Option.map_map]
  rfl

theorem mono (hr : Relinked h h' l) (hl : l ⊆ l') : Relinked h h' l' :=
  ⟨hr.length, hr.modelAt, hr.dataAt, fun x hx => hr.other x (fun hx' => hx (hl hx'))⟩

/-- A leaf gets new links. -/
theorem write (hx : h.dataAt x = some n) (p q : Option NodeId) :
    Relinked h (h.setData x (n.withLinks ⟨p, q, n.linkLock⟩)) [x] := by
  have hset := dataAt_setData hx (n.withLinks ⟨p, q, n.linkLock⟩)
  refine ⟨h.length_setData x _, modelAt_setData hx _, fun y => ?_, fun y hy => ?_⟩
  · by_cases hy : y = x
    · rw [hset, hy, Function.update_self, hx]
      exact ⟨p, q, rfl⟩
    · rw [hset, Function.update_of_ne hy]
      exact (refl h []).dataAt y
  · rw [hset, Function.update_of_ne (fun heq => hy (List.mem_singleton.mpr heq))]

theorem get (hr : Relinked h h' l) (hx : h.dataAt x = some n) :
    ∃ p q, h'.dataAt x = some (n.withLinks ⟨p, q, n.linkLock⟩) := by
  obtain ⟨p, q, hd⟩ := hr.dataAt x
  rw [hx] at hd
  exact ⟨p, q, hd⟩

theorem none_iff (hr : Relinked h h' l) : h'.dataAt x = none ↔ h.dataAt x = none := by
  obtain ⟨p, q, hd⟩ := hr.dataAt x
  rw [hd, Option.map_eq_none_iff]

/-- Links do not decide about descents. -/
theorem frame (hr : Relinked h h' l) : h'.frame = h.frame := by
  funext x
  cases hx : h.dataAt x with
  | none => exact frame_congr ((hr.none_iff.mpr hx).trans hx.symm) (congrFun hr.modelAt x)
  | some n =>
      obtain ⟨p, q, hx'⟩ := hr.get hx
      rw [frame_data hx, frame_data hx']
      rfl

theorem lo (hr : Relinked h h' l) : h'.lo = h.lo := funext (fun x => lo_congr (congrFun hr.frame x))

theorem hi (hr : Relinked h h' l) : h'.hi = h.hi := funext (fun x => hi_congr (congrFun hr.frame x))

theorem pushedChildren (hr : Relinked h h' l) :
    Index.pushedChildren h' = Index.pushedChildren h := by
  funext x
  cases hx : h.dataAt x with
  | none =>
      refine Index.pushedChildren_congr (getElem?_congr ?_ (congrFun hr.modelAt x))
      exact (hr.none_iff.mpr hx).trans hx.symm
  | some n =>
      obtain ⟨p, q, hx'⟩ := hr.get hx
      rw [Index.pushedChildren_data hx, Index.pushedChildren_data hx']

theorem leavesOf (hr : Relinked h h' l) (order : List NodeId) :
    h'.leavesOf order = h.leavesOf order :=
  leavesOf_congr (fun x _ => by
    obtain ⟨p, q, hd⟩ := hr.dataAt x
    rw [hd, Option.isSome_map])

theorem pairsOf (hr : Relinked h h' l) (leaves : List NodeId) :
    h'.pairsOf leaves = h.pairsOf leaves :=
  pairsOf_congr (fun x _ => by
    obtain ⟨p, q, hd⟩ := hr.dataAt x
    rw [hd, Option.map_map]
    rfl)

end Relinked

end Heap

namespace Index

/-- The leaves of a list are linked in its order. -/
theorem linkLeaves_spec : ∀ (l : List NodeId) (h : Heap M P) (p : Option NodeId), l.Nodup →
    (∀ x ∈ l, ∃ n, h.dataAt x = some n ∧ n.nextLeaf = none) →
    (∀ x, l.head? = some x → h.prev x = p) →
    ∃ h', linkLeaves h l = some h' ∧ h.Relinked h' l ∧ Linked h'.prev h'.next p l none
  | [], h, p, _, _, _ => ⟨h, rfl, Heap.Relinked.refl h [], trivial⟩
  | [x], h, p, _, hl, hp => by
      obtain ⟨n, hn, hnext⟩ := hl x (List.mem_singleton_self x)
      refine ⟨h, rfl, Heap.Relinked.refl h [x], hp x rfl, ?_, trivial⟩
      unfold Heap.next
      rw [hn]
      exact hnext
  | x :: y :: l, h, p, hnd, hl, hp => by
      obtain ⟨hx, hnd⟩ := List.nodup_cons.mp hnd
      have hxy : x ≠ y := fun heq => hx (heq ▸ List.mem_cons_self ..)
      obtain ⟨n, hn, hnext⟩ := hl x (List.mem_cons_self ..)
      obtain ⟨k, hk, hknext⟩ := hl y (List.mem_cons_of_mem x (List.mem_cons_self ..))
      -- the two writes to the first pair of leaves
      obtain ⟨h₁, hset₁⟩ : ∃ h₁, h₁ = h.setData x (n.withLinks ⟨n.prevLeaf, some y, n.linkLock⟩) :=
        ⟨_, rfl⟩
      have hstep₁ := Heap.Relinked.write hn n.prevLeaf (some y)
      rw [← hset₁] at hstep₁
      have hk₁ : h₁.dataAt y = some k :=
        (hstep₁.other y (fun heq => hxy (List.mem_singleton.mp heq).symm)).trans hk
      obtain ⟨h₂, hset₂⟩ : ∃ h₂, h₂ = h₁.setData y (k.withLinks ⟨some x, k.nextLeaf, k.linkLock⟩) :=
        ⟨_, rfl⟩
      have hstep₂ := Heap.Relinked.write hk₁ (some x) k.nextLeaf
      rw [← hset₂] at hstep₂
      have hstep : h.Relinked h₂ [x, y] := (hstep₁.mono (by simp)).trans hstep₂ (by simp)
      have hx₂ : h₂.dataAt x = some (n.withLinks ⟨n.prevLeaf, some y, n.linkLock⟩) := by
        rw [hstep₂.other x (fun heq => hxy (List.mem_singleton.mp heq)), hset₁,
          Heap.dataAt_setData hn, Function.update_self]
      have hy₂ : h₂.dataAt y = some (k.withLinks ⟨some x, k.nextLeaf, k.linkLock⟩) := by
        rw [hset₂, Heap.dataAt_setData hk₁, Function.update_self]
      have hrest : ∀ z ∈ y :: l, ∃ m, h₂.dataAt z = some m ∧ m.nextLeaf = none := by
        intro z hz
        by_cases hzy : z = y
        · refine ⟨k.withLinks ⟨some x, k.nextLeaf, k.linkLock⟩, ?_, hknext⟩
          rw [hzy]
          exact hy₂
        · obtain ⟨m, hm, hmnext⟩ := hl z (List.mem_cons_of_mem x hz)
          have hzx : z ≠ x := fun heq => hx (heq ▸ hz)
          exact ⟨m, (hstep.other z (by simp [hzx, hzy])).trans hm, hmnext⟩
      have hprev : ∀ z, (y :: l).head? = some z → h₂.prev z = some x := by
        intro z hz
        obtain rfl := Option.some.inj hz
        unfold Heap.prev
        rw [hy₂]
        rfl
      obtain ⟨h', hrun, hstep', hlinked⟩ := linkLeaves_spec (y :: l) h₂ (some x) hnd hrest hprev
      have hx' : h'.dataAt x = some (n.withLinks ⟨n.prevLeaf, some y, n.linkLock⟩) :=
        (hstep'.other x hx).trans hx₂
      refine ⟨h', ?_, (hstep.mono (by simp)).trans hstep' (List.subset_cons_self x _),
        ?_, ?_, hlinked⟩
      · have hmod₁ : h.modifyData x (fun n => { n with nextLeaf := some y }) = some h₁ :=
          (Heap.modifyData_eq hn _).trans (congrArg some hset₁.symm)
        have hmod₂ : h₁.modifyData y (fun n => { n with prevLeaf := some x }) = some h₂ :=
          (Heap.modifyData_eq hk₁ _).trans (congrArg some hset₂.symm)
        unfold linkLeaves
        simp only [hmod₁, hmod₂, Option.bind_eq_bind, Option.bind_some]
        exact hrun
      · rw [← hp x rfl]
        unfold Heap.prev
        rw [hx', hn]
        rfl
      · unfold Heap.next
        rw [hx']
        rfl

/-! ### The two ends -/

theorem head?_distinctChildren : ∀ l : List (Option NodeId), (distinctChildren l).head? = l.head?
  | [] => rfl
  | [_] => rfl
  | c :: d :: l => by
      unfold distinctChildren
      split
      · rename_i heq
        rw [head?_distinctChildren (d :: l), List.head?_cons, List.head?_cons, heq]
      · rfl

theorem getLast?_distinctChildren : ∀ l : List (Option NodeId),
    (distinctChildren l).getLast? = l.getLast?
  | [] => rfl
  | [_] => rfl
  | c :: d :: l => by
      have ih := getLast?_distinctChildren (d :: l)
      unfold distinctChildren
      rw [List.getLast?_cons_cons]
      split
      · exact ih
      · rw [← ih]
        cases hd : distinctChildren (d :: l) with
        | nil =>
            rw [hd] at ih
            exact absurd ih.symm (by simp)
        | cons e es => rw [List.getLast?_cons_cons]

/-- The first slot points at the first child. -/
theorem childAt_zero {h : Heap M P} {x : NodeId} {m : ModelNode} {cs : List NodeId}
    (hx : h.modelAt x = some m) (hcs : pushedChildren h x = some cs) : m.childAt 0 = cs.head? := by
  rw [pushedChildren_model hx] at hcs
  have hhead := head?_distinctChildren m.children
  rw [mapM_id_eq_some.mp hcs, List.head?_map] at hhead
  unfold ModelNode.childAt
  rw [← List.head?_eq_getElem?, ← hhead]
  cases cs <;> rfl

/-- The last slot points at the last child. -/
theorem childAt_last {h : Heap M P} {x : NodeId} {m : ModelNode} {cs : List NodeId}
    (hx : h.modelAt x = some m) (hcs : pushedChildren h x = some cs)
    (hlen : m.children.length = m.numChildren) : m.childAt (m.numChildren - 1) = cs.getLast? := by
  rw [pushedChildren_model hx] at hcs
  have hlast := getLast?_distinctChildren m.children
  rw [mapM_id_eq_some.mp hcs, List.getLast?_map] at hlast
  unfold ModelNode.childAt
  rw [← hlen, ← List.getLast?_eq_getElem?, ← hlast]
  cases cs.getLast? <;> rfl

/-- Every node that can be visited is a leaf or a model node. -/
theorem data_or_model {h : Heap M P} {x : NodeId} (hsome : (pushedChildren h x).isSome) :
    (∃ n, h.dataAt x = some n) ∨ ∃ m, h.modelAt x = some m := by
  unfold pushedChildren at hsome
  cases hx : h[x]? with
  | none =>
      rw [hx] at hsome
      cases hsome
  | some node =>
      cases node with
      | data n => exact Or.inl ⟨n, Heap.dataAt_eq_some.mpr hx⟩
      | model m => exact Or.inr ⟨m, Heap.modelAt_eq_some.mpr hx⟩

theorem outermostDataNode_model {h : Heap M P} {x c : NodeId} {m : ModelNode}
    {slot : ModelNode → ℕ} (hx : h.modelAt x = some m) (hc : m.childAt (slot m) = some c)
    (fuel : ℕ) : outermostDataNode h slot (fuel + 1) x = outermostDataNode h slot fuel c := by
  rw [outermostDataNode, Heap.modelAt_eq_some.mp hx]
  simp only [hc, Option.bind_some]

/-- Fuel for a tree is fuel for the trees below its root. -/
theorem fuel_below {x : NodeId} {below rest : List NodeId} {fuel : ℕ}
    (h : (x :: (below ++ rest)).length ≤ fuel) : ∃ k, fuel = k + 1 ∧ below.length ≤ k := by
  rw [List.length_cons, List.length_append] at h
  exact ⟨fuel - 1, by omega, by omega⟩

/-- `first_data_node` finds the first leaf. -/
theorem outermost_first {h : Heap M P} {roots order : List NodeId}
    (hf : PreOrder (pushedChildren h) roots order)
    (hm : ∀ x ∈ order, ∀ m, h.modelAt x = some m → ∃ c, m.childAt 0 = some c) :
    ∀ x, roots.head? = some x → ∃ leaf, (h.leavesOf order).head? = some leaf ∧
      ∀ fuel, order.length ≤ fuel → outermostDataNode h (fun _ => 0) fuel x = some leaf := by
  induction hf with
  | nil =>
      intro x hx
      cases hx
  | @cons x cs roots below rest hx hbelow _ ih _ =>
      intro y hy
      obtain rfl := Option.some.inj hy
      rcases data_or_model (Option.isSome_of_mem hx) with ⟨n, hn⟩ | ⟨m, hmx⟩
      · refine ⟨x, ?_, fun fuel hfuel => ?_⟩
        · unfold Heap.leavesOf
          rw [List.filter_cons_of_pos (by rw [hn]; rfl), List.head?_cons]
        · obtain ⟨k, rfl, -⟩ := fuel_below hfuel
          exact outermostDataNode_leaf hn _ k
      · obtain ⟨c, hc⟩ := hm x (List.mem_cons_self ..) m hmx
        have hhead := childAt_zero hmx hx
        rw [hc] at hhead
        obtain ⟨leaf, hleaf, hrun⟩ := ih (fun y hy => hm y (by simp [hy])) c hhead.symm
        refine ⟨leaf, ?_, fun fuel hfuel => ?_⟩
        · rw [Heap.leavesOf_cons_model hmx, Heap.leavesOf_append, List.head?_append, hleaf]
          rfl
        · obtain ⟨k, rfl, hk⟩ := fuel_below hfuel
          exact (outermostDataNode_model hmx hc k).trans (hrun k hk)

/-- `last_data_node` finds the last leaf. -/
theorem outermost_last {h : Heap M P} {roots order : List NodeId}
    (hf : PreOrder (pushedChildren h) roots order)
    (hm : ∀ x ∈ order, ∀ m, h.modelAt x = some m → m.children.length = m.numChildren ∧
      ∃ c, m.childAt (m.numChildren - 1) = some c) :
    ∀ x, roots.getLast? = some x → ∃ leaf, (h.leavesOf order).getLast? = some leaf ∧
      ∀ fuel, order.length ≤ fuel →
        outermostDataNode h (fun m => m.numChildren - 1) fuel x = some leaf := by
  induction hf with
  | nil =>
      intro x hx
      cases hx
  | @cons x cs roots below rest hx hbelow hrest ih ih' =>
      intro y hy
      have hroot : h.leavesOf (x :: (below ++ rest)) = h.leavesOf
        (x :: below) ++ h.leavesOf rest := by
        rw [← List.cons_append, Heap.leavesOf_append]
      rw [hroot, List.getLast?_append]
      cases roots with
      | cons z roots =>
          -- the last tree is among the other ones
          rw [List.getLast?_cons_cons] at hy
          obtain ⟨leaf, hleaf, hrun⟩ := ih' (fun y hy => hm y (by simp [hy])) y hy
          refine ⟨leaf, by rw [hleaf]; rfl, fun fuel hfuel => hrun fuel ?_⟩
          rw [List.length_cons, List.length_append] at hfuel
          omega
      | nil =>
          obtain rfl : x = y := Option.some.inj hy
          obtain rfl : rest = [] := by
            cases hrest
            rfl
          rcases data_or_model (Option.isSome_of_mem hx) with ⟨n, hn⟩ | ⟨m, hmx⟩
          · have hnil : below = [] := by
              rw [pushedChildren_data hn] at hx
              obtain rfl := Option.some.inj hx
              cases hbelow
              rfl
            refine ⟨x, ?_, fun fuel hfuel => ?_⟩
            · rw [hnil, Heap.leavesOf_single hn]
              rfl
            · obtain ⟨k, rfl, -⟩ := fuel_below hfuel
              exact outermostDataNode_leaf hn _ k
          · obtain ⟨hlen, c, hc⟩ := hm x (List.mem_cons_self ..) m hmx
            have hlast := childAt_last hmx hx hlen
            rw [hc] at hlast
            obtain ⟨leaf, hleaf, hrun⟩ := ih (fun y hy => hm y (by simp [hy])) c hlast.symm
            refine ⟨leaf, ?_, fun fuel hfuel => ?_⟩
            · rw [Heap.leavesOf_cons_model hmx, hleaf]
              rfl
            · obtain ⟨k, rfl, hk⟩ := fuel_below hfuel
              exact (outermostDataNode_model hmx hc k).trans (hrun k hk)

/-- The leaves at the two ends of a tree. -/
theorem outermost_ends {h : Heap M P} {root : NodeId} {order : List NodeId}
    {F : NodeId → Option Frame} {live : Set NodeId} (hf : PreOrder (pushedChildren h) [root] order)
    (hm : ∀ x ∈ order, ∀ m, h.modelAt x = some m → ModelOK F live m) :
    ∃ first last, (h.leavesOf order).head? = some first ∧ (h.leavesOf order).getLast? = some last ∧
      ∀ fuel, order.length ≤ fuel → outermostDataNode h (fun _ => 0) fuel root = some first ∧
        outermostDataNode h (fun m => m.numChildren - 1) fuel root = some last := by
  have hchild : ∀ x ∈ order, ∀ m, h.modelAt x = some m → ∀ i, i < m.numChildren →
      ∃ c, m.childAt i = some c := by
    intro x hx m hmx i hi
    obtain ⟨c, f, -, hc⟩ := (hm x hx m hmx).child i hi
    exact ⟨c, hc.child⟩
  obtain ⟨first, hfirst, hrun⟩ := outermost_first hf (fun x hx m hmx =>
    hchild x hx m hmx 0 (hm x hx m hmx).pos) root rfl
  obtain ⟨last, hlast, hrun'⟩ := outermost_last hf (fun x hx m hmx => ⟨(hm x hx m hmx).length,
    hchild x hx m hmx _ (Nat.sub_lt (hm x hx m hmx).pos Nat.one_pos)⟩) root rfl
  exact ⟨first, last, hfirst, hlast, fun fuel hfuel => ⟨hrun fuel hfuel, hrun' fuel hfuel⟩⟩

/-- There are no more nodes in a tree than in the arena. -/
theorem length_order_le {h : Heap M P} {roots order : List NodeId}
    (hf : PreOrder (pushedChildren h) roots order)
    (hnd : order.Nodup) : order.length ≤ h.length := by
  have hsub : order ⊆ List.range h.length := fun x hx =>
    List.mem_range.mpr (lt_of_pushedChildren (hf.isSome hx))
  have hle := (hnd.subperm hsub).length_le
  rwa [List.length_range] at hle

end Index

/-! ### The invariant -/

variable {T : KeyType} {LO HI : ℚ} {h h' : Heap M P} {a b : ℕ} {root : NodeId}
  {order : List NodeId}
  {lo hi : ℚ} {values : List (ℤ × P)} {s : Index M P}

namespace Loaded

theorem root_mem (hl : Loaded T LO HI h a b [root] order lo hi values) : root ∈ order :=
  hl.forest.roots_sublist.subset (List.mem_singleton_self root)

/-- The loaded nodes form a tree. -/
theorem tree (hl : Loaded T LO HI h a b [root] order lo hi values) :
    ∃ par, Tree h.frame root {x | x ∈ order} par := by
  obtain ⟨par, hpar⟩ := hl.forest.exists_parent hl.nodup
  have hchild : ∀ x ∈ order, ∀ m i c, h.frame x = some (.node m) → m.childAt i = some c →
      Child (Index.pushedChildren h) x c := fun x hx m i c hm hc =>
    Index.child_of_childAt (Heap.modelAt_of_frame hm) (hl.forest.isSome hx) hc
  refine ⟨par, hl.root_mem, fun x hx => ?_, fun x hx m hm => ?_, fun x hx m i c hm hc => ?_,
    fun x hx m i hm hc => ?_⟩
  · rcases Index.data_or_model (hl.forest.isSome hx) with ⟨n, hn⟩ | ⟨m, hm⟩
    · exact ⟨_, Heap.frame_data hn⟩
    · exact ⟨_, Heap.frame_model hm⟩
  · exact (hl.model x hx m (Heap.modelAt_of_frame hm)).1
  · exact hpar x hx c (hchild x hx m i c hm hc)
  · exact hl.forest.not_root hl.nodup hx (hchild x hx m i root hm hc) (List.mem_singleton_self root)

/-- Below a model node every key range has keys. -/
theorem strict (hl : Loaded T LO HI h a b [root] order lo hi values) {x : NodeId} (hx : x ∈ order) :
    x = root ∨ h.lo x < h.hi x := by
  rcases hl.forest.root_or_child hx with hroot | ⟨y, hy, hc⟩
  · exact Or.inl (List.mem_singleton.mp hroot)
  · right
    obtain ⟨m, i, hm, hi⟩ := Index.childAt_of_child hc
    have hok := (hl.model y hy m hm).1
    obtain ⟨-, f, hf⟩ := hok.childAt hi
    rw [Heap.lo_frame hf.get, Heap.hi_frame hf.get, hf.lo, hf.hi]
    have h1 := m.blockStart_le i f.localDepth
    have h2 := m.lt_blockStart_add i f.localDepth
    exact (m.edge_lt_edge hok.slope).mpr (by omega)

/-- A root that is a leaf is the only node. -/
theorem single_root (hl : Loaded T LO HI h a b [root] order lo hi values) {n : DataNode M P}
    (hn : h.dataAt root = some n) : order = [root] := by
  obtain ⟨cs, below, hcs, hbelow, rfl⟩ := hl.forest.of_node
  rw [Index.pushedChildren_data hn] at hcs
  obtain rfl := Option.some.inj hcs
  cases hbelow
  rfl

/-- The leaves after they have been linked. -/
theorem leafList (hl : Loaded T lo hi h a b [root] order lo hi values) (hlo : h.lo root = lo)
    (hhi : h.hi root = hi) (hr : h.Relinked h' (h.leavesOf order))
    (hlinked : Linked h'.prev h'.next none (h.leavesOf order) none) :
    LeafList h' root (h.leavesOf order) := by
  rw [← hlo, ← hhi] at hl
  refine ⟨hl.nodup.filter _, ?_, fun x hx => ?_, fun hroot => ?_, hlinked, fun x hx => ?_⟩
  · rw [hr.lo, hr.hi]
    exact hl.spans
  · rw [hr.lo, hr.hi]
    exact hl.strict (Heap.mem_leavesOf.mp hx).1
  · obtain ⟨-, n, hn⟩ := Heap.mem_leavesOf.mp hroot
    rw [hl.single_root hn, Heap.leavesOf_single hn]
  · obtain ⟨hmem, n, hn⟩ := Heap.mem_leavesOf.mp hx
    obtain ⟨p, q, hx'⟩ := hr.get hn
    have hok := (hl.leaf x hmem n hn).ok
    rw [hr.lo, hr.hi]
    exact ⟨_, hx', hok.withLinks hok.linkFree⟩

end Loaded

/-- An index whose nodes below the root, listed in pre-order, store the pairs. -/
structure LoadedIndex (T : KeyType) (s : Index M P) (order : List NodeId)
    (values : List (ℤ × P)) : Prop where
  forest : PreOrder (Index.pushedChildren s.heap) [s.rootNode] order
  nodup : order.Nodup
  good : ∃ par, Good s {x | x ∈ order} par (s.heap.leavesOf order)
  ready : s.Each (s.heap.leavesOf order) (DataNode.Ready T)
  pairs : s.heap.pairsOf (s.heap.leavesOf order) = values

/-- A loaded tree whose leaves are linked is an index. -/
theorem Loaded.loadedIndex (hl : Loaded T lo hi s.heap a b [s.rootNode] order lo hi values)
    (hlo : s.heap.lo s.rootNode = lo) (hhi : s.heap.hi s.rootNode = hi) {sm : ModelNode}
    (hsuper : SuperrootOK s sm) (hne : s.superroot ∉ order)
    (hr : s.heap.Relinked h' (s.heap.leavesOf order))
    (hlinked : Linked h'.prev h'.next none (s.heap.leavesOf order) none) :
    LoadedIndex T { s with heap := h' } order values := by
  obtain ⟨par, htree⟩ := hl.tree
  have hleaves := hr.leavesOf order
  refine ⟨?_, hl.nodup,
    ⟨par, ?_, ?_, fun x => Heap.mem_leavesOf, fun x hx m hm => ?_, ⟨sm, ?_⟩, hne⟩,
    fun x hx n' hn' => ?_, ?_⟩
  · show PreOrder (Index.pushedChildren h') [s.rootNode] order
    rw [hr.pushedChildren]
    exact hl.forest
  · show Tree h'.frame s.rootNode _ par
    rw [hr.frame]
    exact htree
  · show LeafList h' s.rootNode (h'.leavesOf order)
    rw [hleaves]
    exact hl.leafList hlo hhi hr hlinked
  · have hm' : h'.modelAt x = some m := hm
    rw [hr.modelAt] at hm'
    exact (hl.model x hx m hm').2
  · refine ⟨?_, hsuper.numChildren, hsuper.children, hsuper.lock, hsuper.current⟩
    show h'.modelAt s.superroot = some sm
    rw [hr.modelAt]
    exact hsuper.get
  · have hx' : x ∈ s.heap.leavesOf order := hleaves ▸ hx
    obtain ⟨hmem, n, hn⟩ := Heap.mem_leavesOf.mp hx'
    obtain ⟨p, q, hget⟩ := hr.get hn
    rw [← Option.some.inj (hget.symm.trans hn')]
    exact (hl.leaf x hmem n hn).ready.withLinks _
  · show h'.pairsOf (h'.leavesOf order) = values
    rw [hleaves, hr.pairsOf]
    exact hl.pairs

/-- `link_all_data_nodes` makes an index of a loaded tree. -/
theorem Loaded.linkAllDataNodes
    (hl : Loaded T lo hi s.heap a b [s.rootNode] order lo hi values)
    (hlo : s.heap.lo s.rootNode = lo)
    (hhi : s.heap.hi s.rootNode = hi) {sm : ModelNode} (hsuper : SuperrootOK s sm)
    (hne : s.superroot ∉ order) :
    ∃ s', (∀ fuel, order.length ≤ fuel → Index.linkAllDataNodes fuel s = some s') ∧
      s'.numKeys = s.numKeys ∧ LoadedIndex T s' order values := by
  have hnext : ∀ x ∈ s.heap.leavesOf order, ∃ n, s.heap.dataAt x = some n ∧ n.nextLeaf = none := by
    intro x hx
    obtain ⟨hmem, n, hn⟩ := Heap.mem_leavesOf.mp hx
    exact ⟨n, hn, (hl.leaf x hmem n hn).next⟩
  have hprev : ∀ x, (s.heap.leavesOf order).head? = some x → s.heap.prev x = none := by
    intro x hx
    obtain ⟨hmem, n, hn⟩ := Heap.mem_leavesOf.mp (List.mem_of_mem_head? hx)
    unfold Heap.prev
    rw [hn]
    exact (hl.leaf x hmem n hn).prev
  obtain ⟨h', hrun, hr, hlinked⟩ := Index.linkLeaves_spec (s.heap.leavesOf order) s.heap none
    (hl.nodup.filter _) hnext hprev
  refine ⟨{ s with heap := h' }, fun fuel hfuel => ?_, rfl,
    hl.loadedIndex hlo hhi hsuper hne hr hlinked⟩
  have hvisit : Index.nodesFrom s.heap fuel [s.rootNode] = some order :=
    (Index.nodesFrom_eq_visit _ _ _).trans (hl.forest.visit_eq hfuel)
  have hrun' : Index.linkLeaves s.heap
      (order.filter (fun id => (s.heap.dataAt id).isSome)) = some h' := hrun
  unfold Index.linkAllDataNodes
  simp only [hvisit, hrun', Option.bind_eq_bind, Option.bind_some]

end LearnedIndex.Alexol
