import LearnedIndex.Alexol.Reached

/-! # The blocks of a reached index

In a reached index every model node divides its slots into aligned blocks, one for each child, whose
size is given by the local depth of the child.  The key range of a child is the one between the
edges of its block, and the keys that a data node stores have their slots in its block
(`Reached.child_blocks`). -/

namespace LearnedIndex.Alexol

open LearnedIndex.Chains FanoutTree

variable {M P : Type} {T : KeyType} {C : Params M P} {s : Index M P}
  {f : ℤ → Option P} {order : List NodeId} {pairs : List (ℤ × P)} {x p : NodeId} {m : ModelNode}

namespace LoadedIndex

/-- No node of the tree reaches beyond the key range of the root. -/
theorem range_le (hl : LoadedIndex T s order pairs) (hx : s.InTree x) :
    s.heap.lo s.rootNode ≤ s.heap.lo x ∧ s.heap.hi x ≤ s.heap.hi s.rootNode := by
  obtain ⟨par, hg⟩ := hl.good
  induction hx with
  | refl => exact ⟨le_refl _, le_refl _⟩
  | @tail y c hy hc ih =>
      obtain ⟨m, i, hm, hi⟩ := hc
      have hframe := Heap.frame_model hm
      have hok := hg.tree.model y (hl.inTree_iff.mp hy) m hframe
      obtain ⟨-, fc, hchild⟩ := hok.childAt hi
      obtain ⟨g, hgn⟩ := hok.size
      have hlt := childAt_lt hi
      rw [hok.length] at hlt
      have hle := m.blockStart_add_le hgn (d := fc.localDepth) hlt
      have hedge : ∀ {a b : ℕ}, a ≤ b → m.edge a ≤ m.edge b := by
        intro a b hab
        rcases hab.lt_or_eq with hab | rfl
        · exact ((m.edge_lt_edge hok.slope).mpr hab).le
        · exact le_refl _
      rw [Heap.lo_frame hchild.get, Heap.hi_frame hchild.get, hchild.lo, hchild.hi]
      rw [Heap.lo_frame hframe, Heap.hi_frame hframe] at ih
      exact ⟨ih.1.trans (hedge (Nat.zero_le _)), (hedge hle).trans ih.2⟩

/-- A key that a data node stores has its slot in the block of the node. -/
theorem slot_of_pair (hl : LoadedIndex T s order pairs) (hp : s.InTree p)
    (hm : s.heap.modelAt p = some m) {i : ℕ} {c : NodeId} {fc : Frame}
    (hc : ChildAt s.heap.frame m i c fc) {n : DataNode M P} (hn : s.heap.dataAt c = some n)
    {e : ℤ × P} (he : e ∈ n.pairs) : m.blockStart i fc.localDepth ≤ m.bucketOf e.1 ∧
      m.bucketOf e.1 < m.blockStart i fc.localDepth + m.repeats fc.localDepth := by
  obtain ⟨hLO, hHI⟩ := hl.range_le hp
  obtain ⟨par, hg⟩ := hl.good
  have hframe := Heap.frame_model hm
  have hok := hg.tree.model p (hl.inTree_iff.mp hp) m hframe
  rw [Heap.lo_frame hframe] at hLO
  rw [Heap.hi_frame hframe] at hHI
  obtain ⟨g, hgn⟩ := hok.size
  have hlt := childAt_lt hc.child
  rw [hok.length] at hlt
  have hle := m.blockStart_add_le hgn (d := fc.localDepth) hlt
  have hmem : c ∈ s.heap.leavesOf order :=
    (hg.mem c).mpr ⟨hl.inTree_iff.mp (hp.tail ⟨m, i, hm, hc.child⟩), n, hn⟩
  have hin := hg.inside_leaf hmem hn he
  rw [Heap.lo_frame hc.get, Heap.hi_frame hc.get, hc.lo, hc.hi] at hin
  have hpos := m.repeats_pos fc.localDepth
  refine bucketOf_of_inside hok.slope (by omega) hle (fun heq => ?_) (fun heq => ?_) hin
  · by_contra hne
    have hlt := (m.edge_lt_edge hok.slope).mpr (Nat.pos_of_ne_zero hne)
    exact absurd (heq ▸ hlt) (not_lt.mpr hLO)
  · by_contra hne
    have hlt := (m.edge_lt_edge hok.slope).mpr (lt_of_le_of_ne hle hne)
    exact absurd (heq ▸ hlt) (not_lt.mpr hHI)

end LoadedIndex

/-- The block of slots of a child: an aligned block whose size is given by the local depth `d` of
the child, with the key range between its edges; the keys stored in a data node have their slots
there. -/
structure ChildBlock (s : Index M P) (m : ModelNode) (start d : ℕ) (c : NodeId) : Prop where
  aligned : m.repeats d ∣ start
  le : start + m.repeats d ≤ m.numChildren
  slots : ∀ j, m.childAt j = some c ↔ start ≤ j ∧ j < start + m.repeats d
  depth : (s.heap[c]?).map Node.localDepth = some d
  data : ∀ n, s.heap.dataAt c = some n →
    n.minLimit = ((start : ℚ) - m.model.b) / m.model.a ∧
      n.maxLimit = ((start + m.repeats d : ℕ) - m.model.b) / m.model.a ∧
      ∀ e ∈ n.pairs, start ≤ m.bucketOf e.1 ∧ m.bucketOf e.1 < start + m.repeats d
  model : ∀ m', s.heap.modelAt c = some m' → m'.edge 0 = m.edge start ∧
    m'.edge m'.numChildren = m.edge (start + m.repeats d)

/-- **Every slot of a reached index belongs to the block of its child**, and the recorded key ranges
are those of the blocks. -/
theorem Reached.child_blocks [NodeModel M] (hC : CheapSingles C) (hslots : 2 ≤ C.maxDataNodeSlots)
    (h : Reached C s f) (hp : s.InTree p) (hm : s.heap.modelAt p = some m) :
    (∃ g, m.numChildren = 2 ^ g) ∧ m.children.length = m.numChildren ∧ 0 < m.model.a ∧
      ∀ i < m.numChildren, ∃ c d, m.childAt i = some c ∧
        ChildBlock s m (m.blockStart i d) d c := by
  obtain ⟨order, pairs, hl, -⟩ := (h.content hC hslots).loadedIndex
  obtain ⟨par, hg⟩ := hl.good
  have hok := hg.tree.model p (hl.inTree_iff.mp hp) m (Heap.frame_model hm)
  refine ⟨hok.size, hok.length, hok.slope, fun i hi => ?_⟩
  obtain ⟨c, fc, -, hc⟩ := hok.child i hi
  obtain ⟨g, hgn⟩ := hok.size
  refine ⟨c, fc.localDepth, hc.child, m.repeats_dvd_blockStart _ _, m.blockStart_add_le hgn hi,
    fun j => hok.slot_iff hc j, ?_, fun n hn => ?_, fun m' hm' => ?_⟩
  · have hget := hc.get
    unfold Heap.frame at hget
    obtain ⟨node, hnode, rfl⟩ := Option.map_eq_some_iff.mp hget
    rw [hnode]
    cases node <;> rfl
  · have hfc := Option.some.inj ((Heap.frame_data hn).symm.trans hc.get)
    have hlo := hc.lo
    have hhi := hc.hi
    rw [← hfc] at hlo hhi
    refine ⟨?_, ?_, fun e he => hl.slot_of_pair hp hm hc hn he⟩
    · rw [← hfc]
      exact hlo
    · rw [← hfc]
      exact hhi
  · have hfc := Option.some.inj ((Heap.frame_model hm').symm.trans hc.get)
    have hlo := hc.lo
    have hhi := hc.hi
    rw [← hfc] at hlo hhi ⊢
    exact ⟨hlo, hhi⟩

theorem child_blocks_threePairs : ∃ (s : Index LinearModel ℕ) (m : ModelNode),
    s.heap.modelAt s.rootNode = some m ∧ 0 < m.numChildren ∧
      ∃ c d, m.childAt 0 = some c ∧ ChildBlock s m (m.blockStart 0 d) d c := by
  have h : ((Index.new smallParams).bind
    (fun s₀ => (s₀.bulkLoad smallParams 9 Index.threePairs).bind
      (fun s => (s.heap.modelAt s.rootNode).map
        (fun m => (s₀.numKeys, decide (0 < m.numChildren)))))) =
      some (0, true) := by decide +kernel
  obtain ⟨s₀, hnew, h⟩ := Option.bind_eq_some_iff.mp h
  obtain ⟨s, hload, h⟩ := Option.bind_eq_some_iff.mp h
  obtain ⟨m, hm, h⟩ := Option.map_eq_some_iff.mp h
  obtain ⟨hnum, hpos⟩ := Prod.mk.inj h
  have hr : Reached smallParams s (mapOf Index.threePairs) :=
    (Reached.new hnew).bulkLoad hnum.le (by decide) Index.threePairs_sorted
      Index.threePairs_le hload
  obtain ⟨-, -, -, hblocks⟩ := hr.child_blocks smallParams_cheap (by decide)
    Relation.ReflTransGen.refl hm
  exact ⟨s, m, hm, of_decide_eq_true hpos, hblocks 0 (of_decide_eq_true hpos)⟩

end LearnedIndex.Alexol
