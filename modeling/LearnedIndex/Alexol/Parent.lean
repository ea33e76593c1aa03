import LearnedIndex.Alexol.Relink

/-! # The parent of a node

`lock_parent_node` descends from the root to a node of a trail and takes the read lock of the node
before it.  The superroot is treated as the first node of every trail: its one slot points at the
root. -/

namespace LearnedIndex.Alexol

/-! ### Locks of model nodes -/

namespace ModelNode

/-- The node as it is while its read lock is held. -/
def reading (m : ModelNode) : ModelNode := { m with lock := 1#32 }

/-- The node as it is while its write lock is held. -/
def writing (m : ModelNode) : ModelNode := { m with lock := lockSet }

variable {m : ModelNode}

theorem getReadLock_free (hl : m.lock = 0#32) (ho : m.isObsolete = false) :
    m.getReadLock = some m.reading := by
  have h0 : isSet (0#32) = false := by decide
  have h1 : ((0#32 &&& lockMask) + 1#32) &&& lockMask = 1#32 := by decide
  unfold getReadLock reading
  rw [hl, h0, ho, h1]
  rfl

theorem releaseReadLock_reading (hl : m.lock = 0#32) : m.reading.releaseReadLock = m := by
  have h0 : (1#32 : LockWord) - 1#32 = 0#32 := by decide
  unfold releaseReadLock reading
  simp only [h0]
  rw [← hl]

theorem promote_reading (ho : m.isObsolete = false) :
    m.reading.promoteFromReadToWrite = some m.writing := by
  have h0 : isSet (1#32) = false := by decide
  have h1 : ((1#32 &&& lockMask) ||| lockSet) - 1#32 = lockSet := by decide
  have h2 : lockSet &&& lockMask = 0#32 := by decide
  unfold promoteFromReadToWrite reading writing
  simp only [h0, ho, h1, h2]
  rfl

theorem releaseWriteLock_eq (hl : m.lock = 0#32) (w : LockWord) :
    releaseWriteLock { m with lock := w } = m := by
  unfold releaseWriteLock
  simp only
  rw [← hl]

end ModelNode

namespace Index

variable {M P : Type} {s : Index M P} {key : ℤ}

/-! ### Finding the parent -/

/-- The superroot leads every key to the root. -/
theorem SuperrootOK.getChildNode {m : ModelNode} [NodeModel M] (h : SuperrootOK s m) (key : ℤ) :
    m.getChildNode key = some s.rootNode ∧ m.bucketOf key = 0 := by
  have hb : m.bucketOf key = 0 := by
    have := m.bucketOf_lt (by rw [h.numChildren]; omega) key
    rw [h.numChildren] at this
    omega
  refine ⟨?_, hb⟩
  unfold ModelNode.getChildNode ModelNode.childAt
  rw [hb, h.children]
  rfl

/-- A trail is no longer than the arena. -/
theorem length_le_of_trail {h : Heap M P} {l : List NodeId} (htr : Trail h.frame key l) :
    l.length ≤ h.length := by
  have hlt : ∀ x ∈ l, x < h.length := by
    intro x hx
    obtain ⟨A, B, rfl⟩ := List.append_of_mem hx
    cases B with
    | nil =>
        obtain ⟨level, d, lo, hi, hf⟩ := htr.suffix
        exact Heap.lt_of_frame hf
    | cons y B =>
        obtain ⟨m, hm, _⟩ := htr.node_of_next
        exact Heap.lt_of_frame hm
  have hsub : l ⊆ List.range h.length := fun x hx => List.mem_range.mpr (hlt x hx)
  have := (htr.nodup.subperm hsub).length_le
  rwa [List.length_range] at this

/-- The parent of a node on the trail of a key is the node before it. -/
theorem parentOf_trail [NodeModel M] {sm : ModelNode} (hs : SuperrootOK s sm)
    {mid rest : List NodeId} {c : NodeId}
    (htr : Trail s.heap.frame key (s.superroot :: (mid ++ c :: rest))) :
    ∃ p m, parentOf s key c = some (p, m.bucketOf key) ∧ (s.superroot :: mid).getLast? = some p ∧
      s.heap.modelAt p = some m ∧ m.getChildNode key = some c := by
  obtain ⟨hroot, hbucket⟩ := SuperrootOK.getChildNode hs key
  have hsm := Heap.frame_model hs.get
  have hfirst : ∀ y l, mid ++ c :: rest = y :: l → y = s.rootNode := by
    intro y l heq
    rw [heq] at htr
    obtain ⟨⟨m, hm, hy⟩, _⟩ := htr
    rw [hsm] at hm
    cases hm
    exact Option.some.inj (hy.symm.trans hroot)
  unfold parentOf
  cases mid with
  | nil =>
      obtain rfl := hfirst c rest rfl
      rw [if_pos rfl]
      exact ⟨s.superroot, sm, by rw [hbucket], rfl, hs.get, hroot⟩
  | cons y mid =>
      obtain rfl := hfirst y (mid ++ c :: rest) rfl
      have hnd := htr.nodup
      have hlen := length_le_of_trail htr
      have hne : s.rootNode ≠ c := by
        rintro heq
        have := (List.nodup_cons.mp (List.nodup_cons.mp hnd).2).1
        exact this (by simp [heq])
      have hc : c ∉ mid := by
        intro hmem
        have := (List.nodup_append.mp (List.nodup_cons.mp (List.nodup_cons.mp hnd).2).2).2.2
        exact this c hmem c (by simp) rfl
      have htr' : Trail s.heap.frame key (s.rootNode :: (mid ++ c :: rest)) := htr.2
      obtain ⟨p, m, path, hpath, hlast, hp, hget⟩ := pathTo_trail mid s.rootNode s.heap.length
        [(s.superroot, 0)] htr' hc (by simp at hlen; omega)
      rw [if_neg hne]
      unfold parentEntry
      simp only [hpath, Option.bind_eq_bind, Option.bind_some]
      exact ⟨p, m, rfl, by rw [List.getLast?_cons_cons]; exact hlast, Heap.modelAt_eq_some.mpr hp,
        hget⟩

/-- `lock_parent_node` succeeds on a free parent. -/
theorem lockParentNode_trail [NodeModel M] {sm : ModelNode} (hs : SuperrootOK s sm)
    {mid rest : List NodeId} {c : NodeId}
    (htr : Trail s.heap.frame key (s.superroot :: (mid ++ c :: rest)))
    (hfree : ∀ p m, (s.superroot :: mid).getLast? = some p → s.heap.modelAt p = some m →
      m.lock = 0#32 ∧ m.isObsolete = false) :
    ∃ p m, lockParentNode s key c =
        some (p, m.bucketOf key, { s with heap := s.heap.setModel p m.reading }) ∧
      (s.superroot :: mid).getLast? = some p ∧ s.heap.modelAt p = some m ∧
      m.getChildNode key = some c := by
  obtain ⟨p, m, hparent, hlast, hm, hget⟩ := parentOf_trail hs htr
  obtain ⟨hl, ho⟩ := hfree p m hlast hm
  refine ⟨p, m, ?_, hlast, hm, hget⟩
  have hchild : m.childAt (m.bucketOf key) = some c := hget
  unfold lockParentNode
  simp only [hparent, hm, m.getReadLock_free hl ho, Option.bind_eq_bind, Option.bind_some, hchild,
    if_true]

/-! ### Pointing a block at a node -/

/-- A block of slots is given to a node. -/
theorem setChildren_spec {m : ModelNode} {start count : ℕ}
    (h : start + count ≤ m.children.length) (c : NodeId) :
    ∃ children, m.setChildren start count c = some { m with children := children } ∧
      children.length = m.children.length ∧
      ∀ j, ({ m with children := children } : ModelNode).childAt j =
        if start ≤ j ∧ j < start + count then some c else m.childAt j := by
  obtain ⟨children, hfill⟩ := ModelNode.fillSlots_isSome c h
  obtain ⟨_, hlen, hget⟩ := ModelNode.fillSlots_eq_some hfill
  refine ⟨children, ?_, hlen, fun j => ?_⟩
  · unfold ModelNode.setChildren
    rw [hfill]
    rfl
  · unfold ModelNode.childAt
    rw [hget]
    split <;> rfl

theorem pointBlock_spec [NodeModel M] {h : Heap M P} {parent b d : ℕ} {m : ModelNode}
    (hm : h.modelAt parent = some m)
    (hfit : m.blockStart b d + m.repeats d ≤ m.children.length) (c : NodeId) :
    ∃ children, pointBlock h parent b d c = some
    (h.setModel parent { m with children := children }) ∧
      children.length = m.children.length ∧
      ∀ j, ({ m with children := children } : ModelNode).childAt j =
        if m.blockStart b d ≤ j ∧ j < m.blockStart b d + m.repeats d then some c
        else m.childAt j := by
  obtain ⟨children, hset, hlen, hget⟩ := setChildren_spec hfit c
  refine ⟨children, ?_, hlen, hget⟩
  unfold pointBlock
  simp only [hm, hset, Option.bind_eq_bind, Option.bind_some]

end Index

end LearnedIndex.Alexol
