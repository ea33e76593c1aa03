import LearnedIndex.Alexol.HeapUpdate

/-! # The invariant of an index

`Good s live par leaves`: the live nodes form a tree (`Tree`), its leaves are linked in key order
and their ranges follow each other (`LeafList`), every leaf stores only keys of its own range, and
no lock of a model node is held.

In such a state `get_leaf` finds the one leaf whose range has the key, and its tolerance branch
never leads to a neighbour (`Good.getLeaf`). -/

namespace LearnedIndex.Alexol

open LearnedIndex.Chains

namespace Heap

variable {M P : Type}

/-- The lower end of the key range of a node. -/
def lo (h : Heap M P) (x : NodeId) : ℚ := ((h.frame x).map Frame.lo).getD 0

/-- The upper end of the key range of a node. -/
def hi (h : Heap M P) (x : NodeId) : ℚ := ((h.frame x).map Frame.hi).getD 0

def prev (h : Heap M P) (x : NodeId) : Option NodeId := (h.dataAt x).bind DataNode.prevLeaf

def next (h : Heap M P) (x : NodeId) : Option NodeId := (h.dataAt x).bind DataNode.nextLeaf

variable {h : Heap M P} {x : NodeId} {n : DataNode M P}

theorem lo_data (hx : h.dataAt x = some n) : h.lo x = n.minLimit := by
  unfold lo
  rw [frame_data hx]
  rfl

theorem hi_data (hx : h.dataAt x = some n) : h.hi x = n.maxLimit := by
  unfold hi
  rw [frame_data hx]
  rfl

theorem lo_frame {f : Frame} (hx : h.frame x = some f) : h.lo x = f.lo := by
  unfold lo
  rw [hx]
  rfl

theorem hi_frame {f : Frame} (hx : h.frame x = some f) : h.hi x = f.hi := by
  unfold hi
  rw [hx]
  rfl

/-! ### Writing a data node -/

/-- A leaf that keeps its place keeps its frame. -/
theorem frame_setData (hx : h.dataAt x = some n) {n' : DataNode M P} (hp : n'.SamePlace n) :
    (h.setData x n').frame = h.frame := by
  funext y
  by_cases hy : y = x
  · subst hy
    have hset : (h.setData y n').dataAt y = some n' := by
      rw [dataAt_setData hx, Function.update_self]
    rw [frame_data hset, frame_data hx, hp.level, hp.localDepth, hp.minLimit, hp.maxLimit]
  · refine frame_congr ?_ (congrFun (modelAt_setData hx n') y)
    rw [dataAt_setData hx, Function.update_of_ne hy]

theorem prev_setData (hx : h.dataAt x = some n) {n' : DataNode M P} (hp : n'.SamePlace n) :
    (h.setData x n').prev = h.prev := by
  funext y
  unfold prev
  rw [dataAt_setData hx]
  by_cases hy : y = x
  · rw [hy, Function.update_self, hx]
    exact hp.prevLeaf
  · rw [Function.update_of_ne hy]

theorem next_setData (hx : h.dataAt x = some n) {n' : DataNode M P} (hp : n'.SamePlace n) :
    (h.setData x n').next = h.next := by
  funext y
  unfold next
  rw [dataAt_setData hx]
  by_cases hy : y = x
  · rw [hy, Function.update_self, hx]
    exact hp.nextLeaf
  · rw [Function.update_of_ne hy]

end Heap

/-! ### The list of leaves -/

section
variable {M P : Type}

/-- A leaf that stores keys of its own range only. -/
structure LeafOK (LO HI : ℚ) (n : DataNode M P) : Prop where
  linkFree : isSet n.linkLock = false
  inside : ∀ e ∈ n.pairs, Inside LO HI n.minLimit n.maxLimit e.1

/-- The leaves in key order. -/
structure LeafList (h : Heap M P) (root : NodeId) (leaves : List NodeId) : Prop where
  nodup : leaves.Nodup
  spans : Spans h.lo h.hi (h.lo root) leaves (h.hi root)
  strict : ∀ x ∈ leaves, x = root ∨ h.lo x < h.hi x
  single : root ∈ leaves → leaves = [root]
  linked : Linked h.prev h.next none leaves none
  leaf : ∀ x ∈ leaves, ∃ n, h.dataAt x = some n ∧ LeafOK (h.lo root) (h.hi root) n

namespace LeafList

variable {h : Heap M P} {root : NodeId} {leaves : List NodeId}

theorem lt (hl : LeafList h root leaves) {x y : NodeId} (hx : x ∈ leaves) (hy : y ∈ leaves)
    (hne : x ≠ y) : ∀ z ∈ leaves, h.lo z < h.hi z := by
  intro z hz
  rcases hl.strict z hz with rfl | hlt
  · have hs := hl.single hz
    rw [hs, List.mem_singleton] at hx hy
    exact absurd (hx.trans hy.symm) hne
  · exact hlt

/-- A key is inside the range of one leaf only. -/
theorem unique (hl : LeafList h root leaves) {x y : NodeId} {n n' : DataNode M P} {key : ℤ}
    (hx : x ∈ leaves) (hy : y ∈ leaves) (hn : h.dataAt x = some n) (hn' : h.dataAt y = some n')
    (hix : Inside (h.lo root) (h.hi root) n.minLimit n.maxLimit key)
    (hiy : Inside (h.lo root) (h.hi root) n'.minLimit n'.maxLimit key) : x = y := by
  by_contra hne
  rw [← Heap.lo_data hn, ← Heap.hi_data hn] at hix
  rw [← Heap.lo_data hn', ← Heap.hi_data hn'] at hiy
  exact hne (hl.spans.unique (hl.lt hx hy hne) hx hy hix hiy)

/-- The left neighbour of a leaf ends where the leaf begins, above the lower end of all. -/
theorem prev (hl : LeafList h root leaves) {x y : NodeId} {n : DataNode M P} (hx : x ∈ leaves)
    (hn : h.dataAt x = some n) (hy : n.prevLeaf = some y) :
    y ∈ leaves ∧ y ≠ x ∧ ∃ n', h.dataAt y = some n' ∧ n'.maxLimit = n.minLimit ∧
      h.lo root < n.minLimit := by
  have hprev : h.prev x = some y := by
    unfold Heap.prev
    rw [hn]
    exact hy
  obtain ⟨A, B, hAB⟩ := hl.linked.prev_mem hx hprev
  have hnd := hl.nodup
  rw [hAB] at hnd
  have hyx : y ≠ x := by
    rintro rfl
    have := (List.nodup_append.mp hnd).2.1
    simp at this
  have hym : y ∈ leaves := by rw [hAB]; simp
  obtain ⟨n', hn', _⟩ := hl.leaf y hym
  have hs := hl.spans
  have hadj := (hAB ▸ hs).adjacent
  rw [Heap.hi_data hn', Heap.lo_data hn] at hadj
  have hst := hl.lt hym hx hyx
  have hb := (hs.bounds hst).2 y hym
  have hy' := hst y hym
  refine ⟨hym, hyx, n', hn', hadj, ?_⟩
  rw [Heap.hi_data hn'] at hy'
  linarith [hb.1]

/-- The right neighbour of a leaf begins where the leaf ends, below the upper end of all. -/
theorem next (hl : LeafList h root leaves) {x y : NodeId} {n : DataNode M P} (hx : x ∈ leaves)
    (hn : h.dataAt x = some n) (hy : n.nextLeaf = some y) :
    y ∈ leaves ∧ y ≠ x ∧ ∃ n', h.dataAt y = some n' ∧ n'.minLimit = n.maxLimit ∧
      n.maxLimit < h.hi root := by
  have hnext : h.next x = some y := by
    unfold Heap.next
    rw [hn]
    exact hy
  obtain ⟨A, B, hAB⟩ := hl.linked.next_mem hx hnext
  have hnd := hl.nodup
  rw [hAB] at hnd
  have hyx : y ≠ x := by
    rintro rfl
    have := (List.nodup_append.mp hnd).2.1
    simp at this
  have hym : y ∈ leaves := by rw [hAB]; simp
  obtain ⟨n', hn', _⟩ := hl.leaf y hym
  have hs := hl.spans
  have hadj := (hAB ▸ hs).adjacent
  rw [Heap.lo_data hn', Heap.hi_data hn] at hadj
  have hst := hl.lt hym hx hyx
  have hb := (hs.bounds hst).2 y hym
  have hy' := hst y hym
  refine ⟨hym, hyx, n', hn', hadj.symm, ?_⟩
  rw [Heap.lo_data hn'] at hy'
  linarith [hb.2]

end LeafList

/-! ### The invariant -/

/-- The superroot points at the root. -/
structure SuperrootOK (s : Index M P) (m : ModelNode) : Prop where
  get : s.heap.modelAt s.superroot = some m
  numChildren : m.numChildren = 1
  children : m.children = [some s.rootNode]
  lock : m.lock = 0#32
  current : m.isObsolete = false

structure Good (s : Index M P) (live : Set NodeId) (par : NodeId → NodeId)
    (leaves : List NodeId) : Prop where
  tree : Tree s.heap.frame s.rootNode live par
  list : LeafList s.heap s.rootNode leaves
  mem : ∀ x, x ∈ leaves ↔ x ∈ live ∧ ∃ n, s.heap.dataAt x = some n
  free : ∀ x ∈ live, ∀ m, s.heap.modelAt x = some m → m.lock = 0#32 ∧ m.isObsolete = false
  super : ∃ m, SuperrootOK s m
  super_ne : s.superroot ∉ live

namespace Good

variable {s : Index M P} {live : Set NodeId} {par : NodeId → NodeId}
  {leaves : List NodeId}

theorem lt_length (hg : Good s live par leaves) : ∀ x ∈ live, x < s.heap.length := by
  intro x hx
  obtain ⟨f, hf⟩ := hg.tree.get x hx
  exact Heap.lt_of_frame hf

theorem root_frame (hg : Good s live par leaves) :
    ∃ f, s.heap.frame s.rootNode = some f ∧ s.heap.lo s.rootNode = f.lo ∧
      s.heap.hi s.rootNode = f.hi := by
  obtain ⟨f, hf⟩ := hg.tree.get _ hg.tree.root_mem
  exact ⟨f, hf, Heap.lo_frame hf, Heap.hi_frame hf⟩

/-- The descent of a key: it starts at the root and ends in the leaf of the key. -/
theorem trail (hg : Good s live par leaves) (key : ℤ) :
    ∃ l f, s.heap.frame s.rootNode = some f ∧ Trail s.heap.frame key (s.rootNode :: l) ∧
      l.length < s.heap.length ∧ ∀ y ∈ l, y ∈ live ∧ ∃ f', s.heap.frame y = some f' ∧
        f.level < f'.level ∧
        Inside (s.heap.lo s.rootNode) (s.heap.hi s.rootNode) f'.lo f'.hi key := by
  obtain ⟨f, hf, hlo, hhi⟩ := hg.root_frame
  obtain ⟨l, htr, hlen, hall⟩ := hg.tree.exists_trail hg.lt_length key s.heap.length s.rootNode f
    hg.tree.root_mem hf (inside_self f.lo f.hi key)
    (rankFrom_le _ _ _ _)
  rw [hlo, hhi]
  exact ⟨l, f, hf, htr, hlen, hall⟩

/-- The leaf in whose range a key is. -/
def LeafOf (s : Index M P) (leaves : List NodeId) (key : ℤ) (x : NodeId) (n : DataNode M P) :
    Prop :=
  x ∈ leaves ∧ s.heap.dataAt x = some n ∧
    Inside (s.heap.lo s.rootNode) (s.heap.hi s.rootNode) n.minLimit n.maxLimit key

/-- The tolerance branch keeps the leaf of the key. -/
theorem redirect (hg : Good s live par leaves) {key : ℤ} {x : NodeId} {n : DataNode M P}
    (hx : LeafOf s leaves key x n) (X : ℚ) : Index.redirect s.heap key x X = some x := by
  obtain ⟨hmem, hn, hin⟩ := hx
  unfold Index.redirect
  rw [hn, Option.bind_eq_bind, Option.bind_some]
  split
  · split
    · cases hp : n.prevLeaf with
      | none => rfl
      | some y =>
          obtain ⟨_, _, n', hn', hadj, hlt⟩ := hg.list.prev hmem hn hp
          have hge : ¬ (key : ℚ) < n'.maxLimit := by
            rw [hadj, not_lt]
            rcases hin.1 with h | h
            · exact h
            · linarith
          simp only [hn', Option.map_some, if_neg hge]
    · cases hq : n.nextLeaf with
      | none => rfl
      | some y =>
          obtain ⟨_, _, n', hn', hadj, hlt⟩ := hg.list.next hmem hn hq
          have hge : ¬ n'.minLimit ≤ (key : ℚ) := by
            rw [hadj, not_le]
            rcases hin.2 with h | h
            · exact h
            · linarith
          simp only [hn', Option.map_some, if_neg hge]
  · rfl

theorem getLeaf (hg : Good s live par leaves) (key : ℤ) :
    ∃ x n, s.getLeaf key = some x ∧ LeafOf s leaves key x n := by
  obtain ⟨l, f, hf, htr, hlen, hall⟩ := hg.trail key
  cases l with
  | nil =>
      obtain ⟨level, d, lo, hi, hleaf⟩ := htr
      obtain ⟨n, hn, _, _, rfl, rfl⟩ := Heap.frame_leaf.mp hleaf
      have hd := Heap.dataAt_eq_some.mpr hn
      refine ⟨s.rootNode, n, ?_, (hg.mem _).mpr ⟨hg.tree.root_mem, n, hd⟩, hd, ?_⟩
      · unfold Index.getLeaf
        rw [hn]
      · rw [Heap.lo_data hd, Heap.hi_data hd]
        exact inside_self _ _ key
  | cons y l =>
      obtain ⟨m, hm, _⟩ := htr.1
      obtain ⟨x, X, hdesc, hmem, n, hn⟩ := Index.descend_trail (y :: l) s.rootNode s.heap.length htr
        (by simp) hlen.le
      have hd := Heap.dataAt_eq_some.mpr hn
      obtain ⟨hxl, f', hf', _, hin⟩ := hall x hmem
      obtain rfl := Option.some.inj ((Heap.frame_data hd).symm.trans hf')
      have hleaf : LeafOf s leaves key x n := ⟨(hg.mem x).mpr ⟨hxl, n, hd⟩, hd, hin⟩
      refine ⟨x, n, ?_, hleaf⟩
      unfold Index.getLeaf
      rw [Heap.frame_node.mp hm]
      simp only [hdesc, Option.bind_eq_bind, Option.bind_some]
      exact hg.redirect hleaf X

/-- A stored key is stored in its own leaf. -/
theorem stored_iff (hg : Good s live par leaves) {key : ℤ} {x : NodeId} {n : DataNode M P}
    (hx : LeafOf s leaves key x n) {p : P} :
    (∃ y ∈ leaves, ∃ n', s.heap.dataAt y = some n' ∧ (key, p) ∈ n'.pairs) ↔ (key, p) ∈ n.pairs := by
  obtain ⟨hmem, hn, hin⟩ := hx
  constructor
  · rintro ⟨y, hy, n', hn', hp⟩
    obtain ⟨n'', hn'', hok⟩ := hg.list.leaf y hy
    obtain rfl := Option.some.inj (hn'.symm.trans hn'')
    obtain rfl := hg.list.unique hmem hy hn hn' hin (hok.inside _ hp)
    obtain rfl := Option.some.inj (hn.symm.trans hn')
    exact hp
  · exact fun hp => ⟨x, hmem, n, hn, hp⟩

/-! ### Changing a leaf in place -/

/-- A leaf that keeps its place and stores keys of its range only may change. -/
theorem setLeaf (hg : Good s live par leaves) {x : NodeId} {n n' : DataNode M P}
    (hn : s.heap.dataAt x = some n) (hp : n'.SamePlace n)
    (hok : LeafOK (s.heap.lo s.rootNode) (s.heap.hi s.rootNode) n') :
    Good { s with heap := s.heap.setData x n' } live par leaves := by
  have hframe := Heap.frame_setData hn hp
  have hlo : (s.heap.setData x n').lo = s.heap.lo := by
    funext y
    unfold Heap.lo
    rw [hframe]
  have hhi : (s.heap.setData x n').hi = s.heap.hi := by
    funext y
    unfold Heap.hi
    rw [hframe]
  have hmodel := Heap.modelAt_setData hn n'
  obtain ⟨m, hm⟩ := hg.super
  refine ⟨?_, ⟨hg.list.nodup, ?_, ?_, hg.list.single, ?_, ?_⟩, ?_, ?_, ⟨m, ?_⟩, hg.super_ne⟩
  · show Tree (s.heap.setData x n').frame _ _ _
    rw [hframe]
    exact hg.tree
  · show Spans (s.heap.setData x n').lo (s.heap.setData x n').hi _ _ _
    rw [hlo, hhi]
    exact hg.list.spans
  · show ∀ y ∈ leaves, y = s.rootNode ∨ (s.heap.setData x n').lo y < (s.heap.setData x n').hi y
    rw [hlo, hhi]
    exact hg.list.strict
  · show Linked (s.heap.setData x n').prev (s.heap.setData x n').next _ _ _
    rw [Heap.prev_setData hn hp, Heap.next_setData hn hp]
    exact hg.list.linked
  · show ∀ y ∈ leaves, ∃ n'', (s.heap.setData x n').dataAt y = some n'' ∧
      LeafOK ((s.heap.setData x n').lo s.rootNode) ((s.heap.setData x n').hi s.rootNode) n''
    rw [hlo, hhi]
    intro y hy
    rw [Heap.dataAt_setData hn]
    by_cases hyx : y = x
    · rw [hyx, Function.update_self]
      exact ⟨n', rfl, hok⟩
    · rw [Function.update_of_ne hyx]
      exact hg.list.leaf y hy
  · intro y
    show y ∈ leaves ↔ y ∈ live ∧ ∃ n'', (s.heap.setData x n').dataAt y = some n''
    rw [hg.mem, Heap.dataAt_setData hn]
    by_cases hyx : y = x
    · rw [hyx, Function.update_self, hn]
      simp
    · rw [Function.update_of_ne hyx]
  · intro y hy m' hm'
    have hm'' : s.heap.modelAt y = some m' := by
      rw [← hmodel]
      exact hm'
    exact hg.free y hy m' hm''
  · exact ⟨by show (s.heap.setData x n').modelAt _ = _; rw [hmodel]; exact hm.get, hm.numChildren,
      hm.children, hm.lock, hm.current⟩

end Good

end

end LearnedIndex.Alexol
