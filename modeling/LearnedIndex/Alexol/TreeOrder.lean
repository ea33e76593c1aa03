import LearnedIndex.Alexol.Enumeration

/-! # The nodes of an index in pre-order

The children of a model node, one for each block of slots, divide its key range from left to right
(`ModelOK.spans_children`).  So the nodes below the root of an index that satisfies the invariant
are a forest in pre-order, and the leaves in it are the leaf list (`Good.exists_forest`).
Everything that is known of a loaded index then holds of it (`Good.loadedIndex`). -/

namespace LearnedIndex.Alexol

open LearnedIndex.Chains LearnedIndex.Forests

variable {M P : Type} {T : KeyType} {s : Index M P} {live : Set NodeId}
  {par : NodeId → NodeId} {leaves : List NodeId}

/-! ### The children of a model node -/

namespace ModelOK

variable {F : NodeId → Option Frame} {m : ModelNode} {lo hi : NodeId → ℚ} {c : NodeId} {f : Frame}
  {i k : ℕ}

/-- Every block of slots is the range of some keys. -/
theorem range_lt (hm : ModelOK F live m) (hc : ChildAt F m i c f) : f.lo < f.hi := by
  rw [hc.lo, hc.hi, m.edge_lt_edge hm.slope]
  have := m.repeats_pos f.localDepth
  omega

/-- Behind a block there is the end of the slots or the next block. -/
theorem next_block (hm : ModelOK F live m) (hc : ChildAt F m k c f)
    (hk : m.blockStart k f.localDepth = k) : k + m.repeats f.localDepth = m.numChildren ∨
      ∃ c' f', c' ∈ live ∧ ChildAt F m (k + m.repeats f.localDepth) c' f' ∧
        m.blockStart (k + m.repeats f.localDepth) f'.localDepth = k + m.repeats f.localDepth ∧
        c' ≠ c := by
  obtain ⟨g, hg⟩ := hm.size
  have hlt := childAt_lt hc.child
  rw [hm.length] at hlt
  have hle := m.blockStart_add_le hg (d := f.localDepth) hlt
  rw [hk] at hle
  rcases Nat.lt_or_ge (k + m.repeats f.localDepth) m.numChildren with hmore | hend
  · obtain ⟨c', f', hl', hc'⟩ := hm.child _ hmore
    have hne : c' ≠ c := by
      rintro rfl
      have hmem := (hm.slot_iff hc _).mp hc'.child
      rw [hk] at hmem
      exact absurd hmem.2 (lt_irrefl _)
    refine Or.inr ⟨c', f', hl', hc', ?_, hne⟩
    -- a block that began earlier would have the last slot of the block before it
    by_contra hstart
    have h1 := m.blockStart_le (k + m.repeats f.localDepth) f'.localDepth
    have h2 := m.lt_blockStart_add (k + m.repeats f.localDepth) f'.localDepth
    have hpos := m.repeats_pos f.localDepth
    have hlast := hc'.slots (k + m.repeats f.localDepth - 1) (by omega) (by omega)
    have hlast' := hc.slots (k + m.repeats f.localDepth - 1) (by omega) (by omega)
    exact hne (Option.some.inj (hlast.symm.trans hlast'))
  · exact Or.inl (le_antisymm hle hend)

/-- The slots from a block on. -/
theorem drop_block (hm : ModelOK F live m) (hc : ChildAt F m k c f)
    (hk : m.blockStart k f.localDepth = k) : m.children.drop k =
      List.replicate (m.repeats f.localDepth) (some c) ++
        m.children.drop (k + m.repeats f.localDepth) := by
  obtain ⟨g, hg⟩ := hm.size
  have hlt := childAt_lt hc.child
  rw [hm.length] at hlt
  have hle := m.blockStart_add_le hg (d := f.localDepth) hlt
  rw [hk, ← hm.length] at hle
  rw [← List.take_append_drop (m.repeats f.localDepth) (m.children.drop k), List.drop_drop]
  congr 1
  rw [List.eq_replicate_iff]
  refine ⟨by rw [List.length_take, List.length_drop]; omega, fun o ho => ?_⟩
  obtain ⟨j, hj, rfl⟩ := List.mem_iff_getElem.mp ho
  rw [List.length_take, List.length_drop] at hj
  have hslot := hc.slots (k + j) (by omega) (by omega)
  unfold ModelNode.childAt at hslot
  rw [List.getElem?_eq_getElem (by omega), Option.join_some] at hslot
  rw [List.getElem_take, List.getElem_drop]
  exact hslot

/-- The children of the slots from a block on, from left to right. -/
theorem spans_from (hm : ModelOK F live m)
    (hlo : ∀ x f, F x = some f → lo x = f.lo ∧ hi x = f.hi) : ∀ (n k : ℕ),
    m.numChildren ≤ k + n → (k = m.numChildren ∨ ∃ c f, c ∈ live ∧ ChildAt F m k c f ∧
      m.blockStart k f.localDepth = k) →
    ∃ cs, Index.distinctChildren (m.children.drop k) = cs.map some ∧
      Spans lo hi (m.edge k) cs (m.edge m.numChildren) ∧ ∀ c ∈ cs, lo c < hi c := by
  intro n
  induction n with
  | zero =>
      intro k hn hk
      rcases hk with rfl | ⟨c, f, -, hc, -⟩
      · rw [List.drop_of_length_le hm.length.le]
        exact ⟨[], rfl, rfl, fun c hc => absurd hc List.not_mem_nil⟩
      · have hlt := childAt_lt hc.child
        rw [hm.length] at hlt
        omega
  | succ n ih =>
      intro k hn hk
      rcases hk with rfl | ⟨c, f, hl, hc, hk⟩
      · exact ih _ (Nat.le_add_right _ _) (Or.inl rfl)
      · have hpos := m.repeats_pos f.localDepth
        have hnext := hm.next_block hc hk
        obtain ⟨cs, hcs, hspans, hlt⟩ := ih (k + m.repeats f.localDepth) (by omega)
          (hnext.imp_right (fun ⟨c', f', hl', hc', hk', _⟩ => ⟨c', f', hl', hc', hk'⟩))
        obtain ⟨r, hr⟩ := Nat.exists_eq_succ_of_ne_zero hpos.ne'
        have hhead : (m.children.drop (k + m.repeats f.localDepth)).head? ≠ some (some c) := by
          rw [List.head?_drop]
          rcases hnext with hend | ⟨c', f', -, hc', -, hne⟩
          · rw [hend, ← hm.length, List.getElem?_eq_none (le_refl _)]
            exact fun h => by cases h
          · intro hcon
            have hslot := hc'.child
            unfold ModelNode.childAt at hslot
            rw [hcon, Option.join_some] at hslot
            exact hne (Option.some.inj hslot).symm
        obtain ⟨hclo, hchi⟩ := hlo c f hc.get
        refine ⟨c :: cs, ?_, ⟨?_, ?_⟩, fun y hy => ?_⟩
        · rw [hm.drop_block hc hk, hr, Index.distinctChildren_replicate (by rwa [← hr]), ← hr, hcs,
            List.map_cons]
        · rw [hclo, hc.lo, hk]
        · rw [hchi, hc.hi, hk]
          exact hspans
        · rcases List.mem_cons.mp hy with rfl | hy
          · rw [hclo, hchi]
            exact hm.range_lt hc
          · exact hlt y hy

/-- The children of a model node divide its key range from left to right. -/
theorem spans_children (hm : ModelOK F live m)
    (hlo : ∀ x f, F x = some f → lo x = f.lo ∧ hi x = f.hi) :
    ∃ cs, Index.distinctChildren m.children = cs.map some ∧
      Spans lo hi (m.edge 0) cs (m.edge m.numChildren) ∧ ∀ c ∈ cs, lo c < hi c := by
  obtain ⟨c, f, hl, hc⟩ := hm.child 0 hm.pos
  obtain ⟨cs, hcs, h⟩ := hm.spans_from hlo m.numChildren 0 (by omega)
    (Or.inr ⟨c, f, hl, hc, m.blockStart_zero _⟩)
  exact ⟨cs, hcs, h⟩

end ModelOK

/-! ### The forest below the root -/

/-- The rank of a node: its children have a smaller one. -/
noncomputable def Index.rankOf (s : Index M P) (live : Set NodeId) (x : NodeId) : ℕ :=
  rankFrom s.heap.frame live s.heap.length (((s.heap.frame x).map Frame.level).getD 0)

/-- The leaves below some nodes take over their key ranges. -/
theorem spans_leavesOf {h : Heap M P} {roots order : List NodeId}
    (hf : PreOrder (Index.pushedChildren h) roots order)
    (hx : ∀ x ∈ order, ∀ m cs, h.modelAt x = some m → Index.pushedChildren h x = some cs →
      Spans h.lo h.hi (h.lo x) cs (h.hi x)) :
    ∀ a b, Spans h.lo h.hi a roots b → Spans h.lo h.hi a (h.leavesOf order) b := by
  induction hf with
  | nil => exact fun a b hs => hs
  | @cons x cs roots below rest hcs hbelow hrest ih₁ ih₂ =>
      intro a b hs
      have hsplit : x :: (below ++ rest) = (x :: below) ++ rest := rfl
      have hspans :=
        ih₂ (fun y hy => hx y (List.mem_cons_of_mem x (List.mem_append_right _ hy))) _ _
        hs.2
      rw [hsplit, Heap.leavesOf_append]
      refine spans_append.mpr ⟨h.hi x, ?_, hspans⟩
      rcases Index.data_or_model (Option.isSome_of_mem hcs) with ⟨n, hn⟩ | ⟨m, hm⟩
      · have hnil : below = [] := by
          rw [Index.pushedChildren_data hn] at hcs
          obtain rfl := Option.some.inj hcs
          cases hbelow
          rfl
        rw [hnil, Heap.leavesOf_single hn]
        exact ⟨hs.1, rfl⟩
      · rw [Heap.leavesOf_cons_model hm, ← hs.1]
        exact ih₁ (fun y hy => hx y (List.mem_cons_of_mem x (List.mem_append_left _ hy))) _ _
          (hx x (List.mem_cons_self ..) m cs hm hcs)

namespace Good

/-- The children that `NodeIterator` pushes are live nodes of smaller rank, with the node as their
parent. -/
theorem pushedChildren (hg : Good s live par leaves) {x : NodeId} (hx : x ∈ live) :
    ∃ cs, Index.pushedChildren s.heap x = some cs ∧ cs.Nodup ∧
      (∀ c ∈ cs, c ∈ live ∧ s.rankOf live c < s.rankOf live x ∧ par c = x) ∧
      ∀ m, s.heap.modelAt x = some m →
        Spans s.heap.lo s.heap.hi (s.heap.lo x) cs (s.heap.hi x) := by
  obtain ⟨f, hf⟩ := hg.tree.get x hx
  cases f with
  | leaf level d lo hi =>
      obtain ⟨n, hn, -⟩ := Heap.frame_leaf.mp hf
      have hn := Heap.dataAt_eq_some.mpr hn
      refine ⟨[], Index.pushedChildren_data hn, List.nodup_nil,
        fun c hc => absurd hc List.not_mem_nil, fun m hm => ?_⟩
      rw [Heap.frame_model hm] at hf
      cases hf
  | node m =>
      have hm := Heap.modelAt_of_frame hf
      have hok := hg.tree.model x hx m hf
      obtain ⟨cs, hcs, hspans, hlt⟩ := hok.spans_children
        (fun y f hy => ⟨Heap.lo_frame hy, Heap.hi_frame hy⟩)
      have hpush : Index.pushedChildren s.heap x = some cs := by
        rw [Index.pushedChildren_model hm]
        exact Index.mapM_id_eq_some.mpr hcs
      refine ⟨cs, hpush, hspans.nodup hlt, fun c hc => ?_, fun m' hm' => ?_⟩
      · obtain ⟨i, hi⟩ := (Index.mem_pushedChildren hm hpush).mp hc
        obtain ⟨hcl, f, hcf⟩ := hok.childAt hi
        refine ⟨hcl, ?_, hg.tree.parent x hx m i c hf hi⟩
        have hrank := rankFrom_lt hx hf (hg.lt_length x hx)
        unfold Index.rankOf
        rw [hf, hcf.get, Option.map_some, Option.map_some, Option.getD_some, Option.getD_some,
          hcf.level]
        exact hrank
      · rw [Heap.lo_frame hf, Heap.hi_frame hf]
        exact hspans

theorem child_live (hg : Good s live par leaves) {x c : NodeId} (hx : x ∈ live)
    (hc : Child (Index.pushedChildren s.heap) x c) :
    c ∈ live ∧ s.rankOf live c < s.rankOf live x ∧ par c = x := by
  obtain ⟨cs, hcs, -, hall, -⟩ := hg.pushedChildren hx
  obtain ⟨cs', hcs', hmem⟩ := hc
  obtain rfl := Option.some.inj (hcs.symm.trans hcs')
  exact hall c hmem

/-- The nodes below the root in pre-order; the leaves among them are the leaf list. -/
theorem exists_forest (hg : Good s live par leaves) : ∃ order,
    PreOrder (Index.pushedChildren s.heap) [s.rootNode] order ∧ order.Nodup ∧
      (∀ x ∈ order, x ∈ live) ∧ s.heap.leavesOf order = leaves := by
  have hroot : ∀ x ∈ [s.rootNode], x ∈ live := by
    intro x hx
    rw [List.mem_singleton.mp hx]
    exact hg.tree.root_mem
  obtain ⟨order, hf, hlive⟩ := PreOrder.exists_of_rank (s.rankOf live)
    (fun x hx => by
      obtain ⟨cs, hcs, -, hall, -⟩ := hg.pushedChildren hx
      exact ⟨cs, hcs, fun c hc => ⟨(hall c hc).1, (hall c hc).2.1⟩⟩)
    (s.rankOf live s.rootNode + 1) [s.rootNode] (fun x hx => ⟨hroot x hx, by
      rw [List.mem_singleton.mp hx]
      exact Nat.lt_succ_self _⟩)
  have hnd : order.Nodup := hf.nodup_of_parent (s.rankOf live) par
    (fun x hx c hc => hg.child_live hx hc)
    (fun x hx cs hcs => by
      obtain ⟨cs', hcs', hnd, -⟩ := hg.pushedChildren hx
      obtain rfl := Option.some.inj (hcs.symm.trans hcs')
      exact hnd)
    (List.nodup_singleton _) hroot (fun r hr r' hr' _ => by
      rw [List.mem_singleton.mp hr, List.mem_singleton.mp hr'])
  have hspans := spans_leavesOf hf (fun x hx m cs hm hcs => by
    obtain ⟨cs', hcs', -, -, hs⟩ := hg.pushedChildren (hlive x hx)
    obtain rfl := Option.some.inj (hcs.symm.trans hcs')
    exact hs m hm) _ _ (show Spans s.heap.lo s.heap.hi (s.heap.lo s.rootNode) [s.rootNode]
      (s.heap.hi s.rootNode) from ⟨rfl, rfl⟩)
  have hsub : s.heap.leavesOf order ⊆ leaves := by
    intro x hx
    obtain ⟨hmem, n, hn⟩ := Heap.mem_leavesOf.mp hx
    exact (hg.mem x).mpr ⟨hlive x hmem, n, hn⟩
  refine ⟨order, hf, hnd, hlive, ?_⟩
  by_cases hsingle : s.rootNode ∈ leaves
  · -- the root is a leaf, and there is no other node
    obtain ⟨-, n, hn⟩ := (hg.mem _).mp hsingle
    obtain ⟨cs, below, hcs, hbelow, rfl⟩ := hf.of_node
    rw [Index.pushedChildren_data hn] at hcs
    obtain rfl := Option.some.inj hcs
    cases hbelow
    rw [Heap.leavesOf_single hn, hg.list.single hsingle]
  · refine hg.list.spans.eq_of_subset hspans (fun x hx => ?_) hsub
    rcases hg.list.strict x hx with rfl | hlt
    · exact absurd hx hsingle
    · exact hlt

/-- The invariant holds with the nodes of the forest as the live nodes. -/
theorem restrict (hg : Good s live par leaves) {order : List NodeId}
    (hf : PreOrder (Index.pushedChildren s.heap) [s.rootNode] order)
    (hlive : ∀ x ∈ order, x ∈ live) (hleaves : s.heap.leavesOf order = leaves) :
    Good s {x | x ∈ order} par leaves := by
  have htree := hg.tree
  refine ⟨⟨?_, fun x hx => htree.get x (hlive x hx), fun x hx m hm => ?_,
    fun x hx => htree.parent x (hlive x hx), fun x hx => htree.root_free x (hlive x hx)⟩, hg.list,
    fun x => ?_, fun x hx => hg.free x (hlive x hx), hg.super, fun hmem => hg.super_ne
      (hlive _ hmem)⟩
  · exact hf.roots_sublist.subset (List.mem_singleton_self _)
  · have hok := htree.model x (hlive x hx) m hm
    refine ⟨hok.size, hok.length, hok.slope, fun i hi => ?_⟩
    obtain ⟨c, f, -, hc⟩ := hok.child i hi
    exact ⟨c, f, hf.child_mem hx (Index.child_of_childAt (Heap.modelAt_of_frame hm) (hf.isSome hx)
      hc.child), hc⟩
  · rw [← hleaves, Heap.mem_leavesOf]
    rfl

/-- What is known of a loaded index holds of every index that satisfies the invariant. -/
theorem loadedIndex (hg : Good s live par leaves) (hready : s.Each leaves (DataNode.Ready T)) :
    ∃ order, s.heap.leavesOf order = leaves ∧
      LoadedIndex T s order (s.heap.pairsOf leaves) := by
  obtain ⟨order, hf, hnd, hlive, hleaves⟩ := hg.exists_forest
  refine ⟨order, hleaves, hf, hnd, ⟨par, ?_⟩, ?_, by rw [hleaves]⟩
  · rw [hleaves]
    exact hg.restrict hf hlive hleaves
  · rw [hleaves]
    exact hready

end Good

end LearnedIndex.Alexol
