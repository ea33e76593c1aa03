import LearnedIndex.Alexol.Doubles
import LearnedIndex.Alexol.IndexInvariant

/-! # Descents with doubles

`get_leaf` as the machine computes it: the predictions, the test for a prediction close to a slot
boundary and the comparison of the key with the limits of a neighbour are those of a `Doubles`.

Wherever the predictions lead, a descent of an index that satisfies the invariant ends in one of its
leaves (`Good.getLeafOn`); without rounding it ends in the leaf of the key (`getLeafOn_exact`). -/

namespace LearnedIndex.Alexol

variable {M P : Type}

/-- The slot of a key: the prediction clamped to the children. -/
def ModelNode.bucketOn (D : Doubles) (m : ModelNode) (key : ℤ) : ℕ :=
  (min (max (m.model.predictOn D key) 0) ((m.numChildren : ℤ) - 1)).toNat

theorem ModelNode.bucketOn_lt {m : ModelNode} (hN : 0 < m.numChildren) (D : Doubles) (key : ℤ) :
    m.bucketOn D key < m.numChildren := by
  unfold bucketOn
  omega

namespace Index

/-- Descend to a leaf; the second result is the prediction of its parent. -/
def descendOn (D : Doubles) (h : Heap M P) (key : ℤ) : ℕ → NodeId → Option (NodeId × ℚ)
  | 0, _ => none
  | fuel + 1, cur => do
      let m ← h.modelAt cur
      let c ← m.childAt (m.bucketOn D key)
      match h[c]? with
      | some (.data _) => some (c, m.model.predictDoubleOn D key)
      | some (.model _) => descendOn D h key fuel c
      | none => none

/-- `static_cast<int>(bucketID_prediction + 0.5)`. -/
def roundedOn (D : Doubles) (x : ℚ) : ℤ := D.toInt (D.round (x + 1 / 2))

/-- The leaf itself, or the neighbour whose key range has the key. -/
def redirectOn (D : Doubles) (h : Heap M P) (key : ℤ) (leaf : NodeId) (x : ℚ) : Option NodeId := do
  let n ← h.dataAt leaf
  if |D.round (x - roundedOn D x)| ≤ D.round (10 * epsilon * x) then
    if (roundedOn D x : ℚ) ≤ x then
      match n.prevLeaf with
      | none => some leaf
      | some prev => (h.dataAt prev).map (fun p => if D.round key < p.maxLimit then prev else leaf)
    else
      match n.nextLeaf with
      | none => some leaf
      | some next => (h.dataAt next).map (fun p => if p.minLimit ≤ D.round key then next else leaf)
  else some leaf

/-- `get_leaf`. -/
def getLeafOn (D : Doubles) (s : Index M P) (key : ℤ) : Option NodeId :=
  match s.heap[s.rootNode]? with
  | some (.data _) => some s.rootNode
  | some (.model _) => do
      let (leaf, x) ← descendOn D s.heap key s.heap.length s.rootNode
      redirectOn D s.heap key leaf x
  | none => none

/-! ### Without rounding -/

theorem descendOn_exact (h : Heap M P) (key : ℤ) : ∀ (fuel : ℕ) (cur : NodeId),
    descendOn Doubles.exact h key fuel cur = descend h key fuel cur := by
  intro fuel
  induction fuel with
  | zero => exact fun _ => rfl
  | succ fuel ih =>
      intro cur
      rw [descendOn, descend]
      refine congrArg (Option.bind (h.modelAt cur)) (funext fun m => ?_)
      refine congrArg (Option.bind (m.getChildNode key)) (funext fun c => ?_)
      cases h[c]? with
      | none => rfl
      | some node =>
          cases node with
          | data n => rfl
          | model m' => exact ih c

theorem redirectOn_exact (h : Heap M P) (key : ℤ) (leaf : NodeId) (x : ℚ) :
    redirectOn Doubles.exact h key leaf x = redirect h key leaf x := by
  unfold redirectOn redirect roundedOn nearSlot roundsDown
  simp only [Doubles.exact_round, Doubles.exact_toInt, decide_eq_true_eq]
  rfl

theorem getLeafOn_exact (s : Index M P) (key : ℤ) :
    s.getLeafOn Doubles.exact key = s.getLeaf key := by
  unfold getLeafOn getLeaf
  cases s.heap[s.rootNode]? with
  | none => rfl
  | some node =>
      cases node with
      | data n => rfl
      | model m =>
          dsimp only
          rw [descendOn_exact]
          refine congrArg (Option.bind _) (funext fun r => ?_)
          exact redirectOn_exact s.heap key r.1 r.2

end Index

/-! ### In an index that satisfies the invariant -/

namespace Good

variable {s : Index M P} {live : Set NodeId} {par : NodeId → NodeId}
  {leaves : List NodeId}

/-- Whatever slots are predicted, a descent ends in a leaf: the levels of its nodes increase. -/
theorem descendOn (hg : Good s live par leaves) (D : Doubles) (key : ℤ) :
    ∀ (fuel : ℕ) (x : NodeId) (m : ModelNode), x ∈ live → s.heap.modelAt x = some m →
      rankFrom s.heap.frame live s.heap.length m.level ≤ fuel →
      ∃ c X, Index.descendOn D s.heap key fuel x = some (c, X) ∧ c ∈ leaves := by
  intro fuel
  induction fuel with
  | zero =>
      intro x m hx hm hrank
      have hlt := rankFrom_lt hx (Heap.frame_model hm) (hg.lt_length x hx)
      rw [show (Frame.node m).level = m.level from rfl] at hlt
      omega
  | succ fuel ih =>
      intro x m hx hm hrank
      have hframe := Heap.frame_model hm
      have hok := hg.tree.model x hx m hframe
      obtain ⟨c, f, hc, hca⟩ := hok.child _ (m.bucketOn_lt hok.pos D key)
      have hlt := rankFrom_lt hx hframe (hg.lt_length x hx)
      rw [show (Frame.node m).level = m.level from rfl] at hlt
      rw [Index.descendOn, hm, Option.bind_eq_bind, Option.bind_some, hca.child,
        Option.bind_eq_bind, Option.bind_some]
      cases f with
      | leaf level d lo hi =>
          obtain ⟨n, hn, -⟩ := Heap.frame_leaf.mp hca.get
          rw [hn]
          exact ⟨c, _, rfl, (hg.mem c).mpr ⟨hc, n, Heap.dataAt_eq_some.mpr hn⟩⟩
      | node m' =>
          have hnode := Heap.frame_node.mp hca.get
          have hdown : m'.level = m.level + 1 := hca.level
          rw [hnode]
          exact ih c m' hc (Heap.modelAt_eq_some.mpr hnode) (by rw [hdown]; omega)

/-- The neighbours of a leaf are leaves. -/
theorem redirectOn (hg : Good s live par leaves) (D : Doubles) (key : ℤ) {x : NodeId}
    (hx : x ∈ leaves) (X : ℚ) : ∃ y ∈ leaves, Index.redirectOn D s.heap key x X = some y := by
  obtain ⟨n, hn, -⟩ := hg.list.leaf x hx
  unfold Index.redirectOn
  rw [hn, Option.bind_eq_bind, Option.bind_some]
  split
  · split
    · cases hp : n.prevLeaf with
      | none => exact ⟨x, hx, rfl⟩
      | some y =>
          obtain ⟨hy, -, n', hn', -⟩ := hg.list.prev hx hn hp
          simp only [hn', Option.map_some]
          split
          · exact ⟨y, hy, rfl⟩
          · exact ⟨x, hx, rfl⟩
    · cases hq : n.nextLeaf with
      | none => exact ⟨x, hx, rfl⟩
      | some y =>
          obtain ⟨hy, -, n', hn', -⟩ := hg.list.next hx hn hq
          simp only [hn', Option.map_some]
          split
          · exact ⟨y, hy, rfl⟩
          · exact ⟨x, hx, rfl⟩
  · exact ⟨x, hx, rfl⟩

/-- Every key is led to a leaf of the index, whatever the doubles are. -/
theorem getLeafOn (hg : Good s live par leaves) (D : Doubles) (key : ℤ) :
    ∃ x ∈ leaves, s.getLeafOn D key = some x := by
  obtain ⟨f, hf⟩ := hg.tree.get _ hg.tree.root_mem
  unfold Index.getLeafOn
  cases f with
  | leaf level d lo hi =>
      obtain ⟨n, hn, -⟩ := Heap.frame_leaf.mp hf
      rw [hn]
      exact ⟨_, (hg.mem _).mpr ⟨hg.tree.root_mem, n, Heap.dataAt_eq_some.mpr hn⟩, rfl⟩
  | node m =>
      have hm := Heap.frame_node.mp hf
      obtain ⟨c, X, hdescend, hc⟩ := hg.descendOn D key s.heap.length _ m hg.tree.root_mem
        (Heap.modelAt_eq_some.mpr hm) (rankFrom_le _ _ _ _)
      rw [hm]
      simp only [hdescend, Option.bind_eq_bind, Option.bind_some]
      exact hg.redirectOn D key hc X

end Good

end LearnedIndex.Alexol
