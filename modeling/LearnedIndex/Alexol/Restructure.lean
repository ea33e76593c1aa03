import LearnedIndex.Alexol.Index

/-! # Replacing leaves (`alex.h`)

How an insert replaces a data node: it builds the new nodes, locks the parent, points the slots of
the old node at the new ones, relinks the leaves and releases the locks.

* A node that fails to be locked stays locked while a single thread waits, so a failing lock is
  `none`.
* `link_resizing_data_nodes` is `link_data_nodes` with the new leaf at both ends, and the two halves
  of a node split in two are treated as fanout tree nodes of level one. -/

namespace LearnedIndex.Alexol.Index

variable {M P : Type}

/-! ### Locking the parent

A traversal path is kept with its last entry first. -/

/-- Descend to `child`.  The second result is `none` if it was found, else the leaf that was
reached and the prediction of its parent. -/
def pathTo (h : Heap M P) (key : ℤ) (child : NodeId) :
    ℕ → NodeId → List (NodeId × ℕ) → Option (List (NodeId × ℕ) × Option (NodeId × ℚ))
  | 0, _, _ => none
  | fuel + 1, cur, path => do
      let m ← h.modelAt cur
      let c ← m.getChildNode key
      let path := (cur, m.bucketOf key) :: path
      if c = child then some (path, none)
      else
        match h[c]? with
        | some (.data _) => some (path, some (c, m.model.predictDouble key))
        | some (.model _) => pathTo h key child fuel c path
        | none => none

/-- Climb up the path while the child below sits at the left (right) end.  The reference `tn` of
the source dangles after the first `pop_back`, so the corrected slot is not stored in the path. -/
def climb (h : Heap M P) (left : Bool) :
    List (NodeId × ℕ) → ℕ → Option (List (NodeId × ℕ) × ModelNode × ℕ)
  | [], _ => none
  | (id, bucketID) :: path, localDepth => do
      let m ← h.modelAt id
      let start := m.blockStart bucketID localDepth
      let stop := start + m.repeats localDepth
      if left ∧ start = 0 ∨ ¬ left ∧ stop = m.numChildren then climb h left path m.localDepth
      else some ((id, bucketID) :: path, m, if left then start - 1 else stop)

/-- Push the nodes along the right (left) edge of a subtree. -/
def pushEdge (h : Heap M P) (left : Bool) :
    ℕ → NodeId → List (NodeId × ℕ) → Option (List (NodeId × ℕ))
  | 0, _, _ => none
  | fuel + 1, cur, path =>
      match h[cur]? with
      | some (.data _) => some path
      | some (.model m) => do
          let slot := if left then m.numChildren - 1 else 0
          let c ← m.childAt slot
          pushEdge h left fuel c ((cur, slot) :: path)
      | none => none

/-- The correction of a traversal path towards the left (right) neighbour of a leaf. -/
def correctTraversalPath (h : Heap M P) (leaf : DataNode M P) (left : Bool) :
    List (NodeId × ℕ) → Option (List (NodeId × ℕ))
  | [] => none
  | (id, bucketID) :: path => do
      let m ← h.modelAt id
      let start := m.blockStart bucketID leaf.localDepth
      let stop := start + m.repeats leaf.localDepth
      if left ∧ start = 0 ∨ ¬ left ∧ stop = m.numChildren then
        let (path, m, bucketID) ← climb h left path m.localDepth
        let c ← m.childAt bucketID
        pushEdge h left (h.length + 1) c path
      else some ((id, if left then start - 1 else stop) :: path)

/-- The last entry of a path whose slot points at `child`. -/
def entryOf (h : Heap M P) (child : NodeId) : List (NodeId × ℕ) → Option (NodeId × ℕ)
  | [] => none
  | (id, bucketID) :: path => do
      let m ← h.modelAt id
      let c ← m.childAt bucketID
      if c = child then some (id, bucketID) else entryOf h child path

/-- `lock_and_correct_traversal_path`, when the leaf that was reached is not `child`. -/
def correctedEntry (h : Heap M P) (key : ℤ) (child : NodeId) (path : List (NodeId × ℕ))
    (leaf : NodeId) (x : ℚ) : Option (NodeId × ℕ) := do
  let n ← h.dataAt leaf
  let neighbour ← redirect h key leaf x
  if neighbour = leaf then none
  else
    let path ← correctTraversalPath h n (roundsDown x) path
    entryOf h child path

/-- The entry for the parent of `child` on the way of the key. -/
def parentEntry (s : Index M P) (key : ℤ) (child : NodeId) : Option (NodeId × ℕ) := do
  let (path, missed) ← pathTo s.heap key child s.heap.length s.rootNode [(s.superroot, 0)]
  match missed with
  | none => path.head?
  | some (leaf, x) => correctedEntry s.heap key child path leaf x

/-- The parent of `child` on the way of the key and the slot; the superroot for the root. -/
def parentOf (s : Index M P) (key : ℤ) (child : NodeId) : Option (NodeId × ℕ) :=
  if s.rootNode = child then some (s.superroot, 0) else parentEntry s key child

/-- `lock_parent_node`, repeated until it succeeds: the parent with a read lock and the slot. -/
def lockParentNode (s : Index M P) (key : ℤ) (child : NodeId) :
    Option (NodeId × ℕ × Index M P) := do
  let (parent, bucketID) ← parentOf s key child
  let m ← s.heap.modelAt parent
  let locked ← m.getReadLock
  if m.childAt bucketID = some child then
    some (parent, bucketID, { s with heap := s.heap.setModel parent locked })
  else none

/-! ### The list of leaves -/

/-- `prev_leaf->next_leaf_ = left_leaf` with the link lock of the previous leaf taken. -/
def linkPrevious (h : Heap M P) (left : NodeId) : Option NodeId → Option (Heap M P)
  | none => some h
  | some prev => do
      let p ← h.dataAt prev
      let p ← p.tryGetLinkLock
      let h := h.setData prev { p with nextLeaf := some left }
      h.modifyData left (fun n => { n with prevLeaf := some prev })

/-- `next_leaf->prev_leaf_ = right_leaf`. -/
def linkNext (h : Heap M P) (right : NodeId) : Option NodeId → Option (Heap M P)
  | none => some h
  | some next => do
      let h ← h.modifyData right (fun n => { n with nextLeaf := some next })
      h.modifyData next (fun n => { n with prevLeaf := some right })

def getLinkLock (h : Heap M P) (id : NodeId) : Option (Heap M P) := do
  let n ← h.dataAt id
  let n ← n.tryGetLinkLock
  some (h.setData id n)

/-- `link_data_nodes`. -/
def linkDataNodes (h : Heap M P) (old left right : NodeId) : Option (Heap M P) := do
  let o ← h.dataAt old
  let h ← linkPrevious h left o.prevLeaf
  let h ← getLinkLock h right
  let h ← getLinkLock h old
  let o ← h.dataAt old
  linkNext h right o.nextLeaf

def linkResizingDataNodes (h : Heap M P) (old new : NodeId) : Option (Heap M P) :=
  linkDataNodes h old new new

def releasePrevious (h : Heap M P) : Option NodeId → Option (Heap M P)
  | none => some h
  | some prev => h.modifyData prev DataNode.releaseLinkLock

/-- `release_link_locks_for_split`. -/
def releaseLinkLocksForSplit (h : Heap M P) (left right : NodeId) : Option (Heap M P) := do
  let l ← h.dataAt left
  let h ← releasePrevious h l.prevLeaf
  h.modifyData right DataNode.releaseLinkLock

def releaseLinkLocksForResizing (h : Heap M P) (new : NodeId) : Option (Heap M P) :=
  releaseLinkLocksForSplit h new new

/-! ### Resizing -/

/-- A new child of the superroot becomes the root. -/
def installRoot (s : Index M P) (parent new : NodeId) : Option (Index M P) :=
  if parent = s.superroot then updateSuperrootPointer { s with rootNode := new } else some s

variable [NodeModel M]

/-- Point the slots of the block around a slot at a node. -/
def pointBlock (h : Heap M P) (parent bucketID localDepth : ℕ) (node : NodeId) :
    Option (Heap M P) := do
  let m ← h.modelAt parent
  let m ← m.setChildren (m.blockStart bucketID localDepth) (m.repeats localDepth) node
  some (h.setModel parent m)

/-- Retraining stores the new costs in the old leaf. -/
def recordCost (n : DataNode M P) : Option (FTNode M) → DataNode M P
  | none => n
  | some t => DataNode.resetStats { n with
      cost := t.cost
      expectedAvgExpSearchIterations := t.expectedAvgSearchIterations
      expectedAvgShifts := t.expectedAvgShifts }

/-- Replace a leaf by a resized (`treeNode = none`) or retrained copy. -/
def resizeLeaf (C : Params M P) (s : Index M P) (key : ℤ) (leaf : NodeId)
    (treeNode : Option (FTNode M)) : Option (Index M P) := do
  let old ← s.heap.dataAt leaf
  let node ← old.newFromExisting.resizeFromExisting C.T old kMinDensity treeNode.isSome
    old.isAppendMostlyRight old.isAppendMostlyLeft
  let new := s.heap.length
  let h := s.heap.setData leaf (recordCost old treeNode) ++ [.data node]
  let (parent, bucketID, s) ← lockParentNode { s with heap := h } key leaf
  let h ← pointBlock s.heap parent bucketID old.localDepth new
  let h ← linkResizingDataNodes h leaf new
  let h ← h.modifyData new DataNode.releaseLock
  let h ← h.modifyModel parent ModelNode.releaseReadLock
  let h ← releaseLinkLocksForResizing h new
  some { s with heap := h, retired := leaf :: s.retired }

/-! ### Splitting -/

/-- The model and key count that `bulk_load_leaf_node_from_existing` passes on. -/
def precomputedModel (C : Params M P) (existing : DataNode M P) (left right : ℕ)
    (treeNode : Option (FTNode M)) (reuseModel : Bool) : Option (Option (M × ℕ)) :=
  match treeNode with
  | some t => some (some (t.model, t.numKeys))
  | none =>
      if reuseModel then
        (existing.numKeysInRange (some (C.past existing.toSlots)) left right).map (fun n : ℕ =>
          some (NodeModel.expand (NodeModel.addIntercept existing.model (-(left : ℚ)))
            ((n : ℚ) / ((right : ℚ) - left)), n))
      else some none

/-- `bulk_load_leaf_node_from_existing`. -/
def bulkLoadLeafNodeFromExisting (C : Params M P) (existing : DataNode M P) (left right : ℕ)
    (computeCost : Bool) (treeNode : Option (FTNode M)) (reuseModel keepLeft keepRight : Bool) :
    Option (DataNode M P) := do
  let precomputed ← precomputedModel C existing left right treeNode reuseModel
  let node ← (DataNode.new C.T 0 C.defaultMaxSlots).bulkLoadFromExisting C.T
    (some (C.past existing.toSlots)) existing left right keepLeft keepRight precomputed
  let node := { node with maxSlots := C.maxDataNodeSlots }
  let stats := C.currentCost node
  some (if computeCost then { node with
      cost := stats.cost
      expectedAvgExpSearchIterations := stats.numSearchIterations
      expectedAvgShifts := stats.numShifts }
    else node)

/-- `create_two_new_data_nodes_without_parent`: the two new leaves with their level in the fanout
tree. -/
def createTwoNewDataNodes (C : Params M P) (h : Heap M P) (leaf : NodeId) (reuseModel : Bool) :
    Option (Heap M P × List (NodeId × ℕ)) := do
  let old ← h.dataAt leaf
  let midLimit := old.minLimit + (old.maxLimit - old.minLimit) / 2
  let (boundary, old) ← old.lowerBound midLimit
  let rightFit := decide ((old.maxKey : ℚ) < midLimit)
  let leftFit := decide ((old.minKey : ℚ) < midLimit)
  let left ← bulkLoadLeafNodeFromExisting C old 0 boundary true none reuseModel
    (old.isAppendMostlyRight && rightFit) (old.isAppendMostlyLeft && leftFit)
  let right ← bulkLoadLeafNodeFromExisting C old boundary old.dataCapacity true none reuseModel
    (old.isAppendMostlyRight && !rightFit) (old.isAppendMostlyLeft && !leftFit)
  let l := h.length
  let left := { left with
    minLimit := old.minLimit
    maxLimit := midLimit
    nextLeaf := some (l + 1)
    lock := lockSet }
  let right := { right with
    minLimit := midLimit
    maxLimit := old.maxLimit
    prevLeaf := some l
    lock := lockSet }
  some (h.setData leaf { old with isObsolete := true } ++ [.data left, .data right],
    [(l, 1), (l + 1, 1)])

/-- The new leaf of a fanout tree node. -/
def createDataNode (C : Params M P) (old : DataNode M P) (t : FTNode M) :
    Option (DataNode M P) := do
  let keepLeft := old.isAppendMostlyRight && decide (t.leftLimit ≤ old.maxKey) &&
    decide ((old.maxKey : ℚ) < t.rightLimit)
  let keepRight := old.isAppendMostlyLeft && decide (t.leftLimit ≤ old.minKey) &&
    decide ((old.minKey : ℚ) < t.rightLimit)
  let n ← bulkLoadLeafNodeFromExisting C old t.leftBoundary t.rightBoundary false (some t) false
    keepLeft keepRight
  some { n with
    lock := lockSet
    cost := t.cost
    expectedAvgExpSearchIterations := t.expectedAvgSearchIterations
    expectedAvgShifts := t.expectedAvgShifts }

/-- The new leaves of the used nodes, appended to the arena and linked among themselves. -/
def createDataNodes (C : Params M P) (old : DataNode M P) :
    List (FTNode M) → Option NodeId → Heap M P → Option (Heap M P × List (NodeId × ℕ))
  | [], _, h => some (h, [])
  | t :: ts, prev, h => do
      let n ← createDataNode C old t
      let n := { n with
        prevLeaf := prev
        nextLeaf := if ts.isEmpty then none else some (h.length + 1) }
      let (h', parts) ← createDataNodes C old ts (some h.length) (h ++ [.data n])
      some (h', (h.length, t.level) :: parts)

/-- `create_new_data_nodes_without_parent`. -/
def createNewDataNodes (C : Params M P) (h : Heap M P) (leaf : NodeId) (used : List (FTNode M)) :
    Option (Heap M P × List (NodeId × ℕ)) := do
  let old ← h.dataAt leaf
  let h := h.setData leaf { old with isObsolete := true }
  createDataNodes C old used none h

/-- Give the new leaves their place below a model node, block after block from slot `cur`. -/
def placeParts (m : ModelNode) (baseDepth globalDepth : ℕ) :
    List (NodeId × ℕ) → ℕ → Heap M P → List (Option NodeId) →
      Option (Heap M P × List (Option NodeId))
  | [], _, h, children => some (h, children)
  | (id, level) :: parts, cur, h, children => do
      let repeats := 2 ^ (globalDepth - (baseDepth + level))
      let h ← h.modifyData id (fun n => { n with
        level := m.level + 1
        localDepth := baseDepth + level
        minLimit := m.edge cur
        maxLimit := m.edge (cur + repeats) })
      let children ← fillSlots children cur repeats id
      placeParts m baseDepth globalDepth parts (cur + repeats) h children

/-- Relink the list of leaves around the new ones and release all locks. -/
def finishSplit (s : Index M P) (leaf parent : NodeId) (parts : List (NodeId × ℕ))
    (release : ModelNode → ModelNode) : Option (Index M P) := do
  let left ← parts.head?
  let right ← parts.getLast?
  let h ← s.heap.modifyModel parent release
  let h ← releaseLinkLocksForSplit h left.1 right.1
  let h ← parts.foldlM (fun h part => h.modifyData part.1 DataNode.releaseLock) h
  some { s with heap := h, retired := leaf :: s.retired }

/-- `link_data_nodes` for the first and the last of the new leaves. -/
def linkParts (h : Heap M P) (leaf : NodeId) (parts : List (NodeId × ℕ)) : Option (Heap M P) := do
  let left ← parts.head?
  let right ← parts.getLast?
  linkDataNodes h leaf left.1 right.1

/-- The model node of a downward split, over the key range of the leaf. -/
def downwardNode (leaf : DataNode M P) (fanoutTreeDepth : ℕ) : Option ModelNode :=
  let a := 1 / (leaf.maxLimit - leaf.minLimit) * (2 ^ fanoutTreeDepth : ℕ)
  if leaf.maxLimit = leaf.minLimit then none
  else some { ModelNode.new leaf.level with
    localDepth := leaf.localDepth
    numChildren := 2 ^ fanoutTreeDepth
    model := ⟨a, -a * leaf.minLimit⟩
    children := List.replicate (2 ^ fanoutTreeDepth) none }

/-- Split downwards: a new model node takes the slots of the leaf. -/
def splitDownwards (s : Index M P) (leaf parent bucketID fanoutTreeDepth : ℕ)
    (parts : List (NodeId × ℕ)) : Option (Index M P) := do
  let n ← s.heap.dataAt leaf
  let m ← downwardNode n fanoutTreeDepth
  let (h, children) ← placeParts m 0 fanoutTreeDepth parts 0 s.heap m.children
  let m ← ModelNode.getReadLock { m with children := children }
  let new := h.length
  let h ← pointBlock (h ++ [.model m]) parent bucketID n.localDepth new
  let h ← linkParts h leaf parts
  let s ← installRoot { s with heap := h } parent new
  let h ← s.heap.modifyModel new ModelNode.releaseReadLock
  finishSplit { s with heap := h } leaf parent parts ModelNode.releaseReadLock

/-- Replace a model node, whose read lock is held, by an expanded copy with the write lock held. -/
def expandParent (s : Index M P) (key : ℤ) (parent log2ExpansionFactor : ℕ) :
    Option (NodeId × Index M P) := do
  let p ← s.heap.modelAt parent
  let p ← p.promoteFromReadToWrite
  let new := s.heap.length
  let h := s.heap.setModel parent p ++ [.model (p.expand log2ExpansionFactor)]
  let (grandParent, bucketID, s) ← lockParentNode { s with heap := h } key parent
  let h ← pointBlock s.heap grandParent bucketID p.localDepth new
  let s ← installRoot { s with heap := h } grandParent new
  let h ← s.heap.modifyModel grandParent ModelNode.releaseReadLock
  let h ← h.modifyModel parent (fun m => { m with isObsolete := true })
  some (new, { s with heap := h, retired := parent :: s.retired })

/-- Split sideways: the new leaves take the slots of the leaf. -/
def splitSideways (s : Index M P) (leaf parent bucketID : ℕ) (parts : List (NodeId × ℕ))
    (release : ModelNode → ModelNode) : Option (Index M P) := do
  let n ← s.heap.dataAt leaf
  let m ← s.heap.modelAt parent
  let (h, children) ← placeParts m n.localDepth (log2RoundDown m.numChildren) parts
    (m.blockStart bucketID n.localDepth) s.heap m.children
  let h := h.setModel parent { m with children := children }
  let h ← linkParts h leaf parts
  finishSplit { s with heap := h } leaf parent parts release

/-- The new leaves of a split, in two without a fanout tree. -/
def createParts (C : Params M P) (h : Heap M P) (leaf : NodeId) (used : List (FTNode M))
    (reuseModel : Bool) : Option (Heap M P × List (NodeId × ℕ)) :=
  if used.isEmpty then createTwoNewDataNodes C h leaf reuseModel
  else createNewDataNodes C h leaf used

/-- A root that is a leaf is about to be split: its keys become the key domain. -/
def refreshKeyDomain (T : KeyType) (s : Index M P) (parent : NodeId) : Option (Index M P) :=
  if parent = s.superroot then updateSuperrootKeyDomain T s else some s

/-- `split_sideways_downwards_without_parent`. -/
def splitSidewaysDownwards (C : Params M P) (s : Index M P) (leaf : NodeId)
    (fanoutTreeDepth : ℕ) (used : List (FTNode M)) (reuseModel : Bool) (key : ℤ) :
    Option (Index M P) := do
  let (h, parts) ← createParts C s.heap leaf used reuseModel
  let (parent, _, s) ← lockParentNode { s with heap := h } key leaf
  let s ← refreshKeyDomain C.T s parent
  let n ← s.heap.dataAt leaf
  let m ← s.heap.modelAt parent
  let sr ← s.heap.modelAt s.superroot
  let bucketID := m.bucketOf key
  let duplication := log2RoundDown m.numChildren - n.localDepth
  if C.maxFanout < m.numChildren * 2 ^ fanoutTreeDepth / 2 ^ duplication ∨ m.level = sr.level then
    splitDownwards s leaf parent bucketID fanoutTreeDepth parts
  else if 2 ^ duplication < 2 ^ fanoutTreeDepth then
    let (new, s) ← expandParent s key parent (fanoutTreeDepth - duplication)
    splitSideways s leaf new (bucketID * 2 ^ (fanoutTreeDepth - duplication)) parts
      ModelNode.releaseWriteLock
  else splitSideways s leaf parent bucketID parts ModelNode.releaseReadLock

end LearnedIndex.Alexol.Index
