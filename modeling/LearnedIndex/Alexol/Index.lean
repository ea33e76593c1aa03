import LearnedIndex.Alexol.FanoutTree

/-! # The index: state, lookups and bulk loading (`alex.h`)

`Index` is the state of an `Alex` object used by one thread: its nodes, the two pointers to the
root, the counters that decide when the key domain is expanded, and the nodes passed to
`safe_delete_node`.

* **Loops.** A descent follows child pointers; one that visits more nodes than there are never
  ends, so the number of nodes bounds it and `none` stands for an endless loop.  A lookup that
  meets a locked leaf retries for ever, since nothing changes in between.
* **Recursion.** Bulk loading recurses as deep as its costs ask for and takes a fuel argument. -/

namespace LearnedIndex.Alexol

structure Index (M P : Type) where
  heap : Heap M P
  rootNode : NodeId
  superroot : NodeId
  /-- `stats_.num_keys`. -/
  numKeys : ℤ
  insertCounter : ℕ
  eraseCounter : ℕ
  keyDomainMin : ℤ
  keyDomainMax : ℤ
  numKeysAboveKeyDomain : ℤ
  numKeysBelowKeyDomain : ℤ
  numKeysAtLastRightDomainResize : ℤ
  numKeysAtLastLeftDomainResize : ℤ
  /-- The nodes scheduled for deletion. -/
  retired : List NodeId
deriving DecidableEq

namespace Index

variable {M P : Type}

/-! ### Descents -/

/-- Descend to a leaf; the second result is the prediction of its parent. -/
def descend (h : Heap M P) (key : ℤ) : ℕ → NodeId → Option (NodeId × ℚ)
  | 0, _ => none
  | fuel + 1, cur => do
      let m ← h.modelAt cur
      let c ← m.getChildNode key
      match h[c]? with
      | some (.data _) => some (c, m.model.predictDouble key)
      | some (.model _) => descend h key fuel c
      | none => none

/-- `std::numeric_limits<double>::epsilon()`. -/
def epsilon : ℚ := 1 / 2 ^ 52

/-- A prediction this close to its rounding may be off by one slot. -/
def nearSlot (x : ℚ) : Bool := decide (|x - trunc (x + 1 / 2)| ≤ 10 * epsilon * x)

/-- The neighbour that a prediction close to a slot boundary is compared with: the left one
(`true`) or the right one. -/
def roundsDown (x : ℚ) : Bool := decide ((trunc (x + 1 / 2) : ℚ) ≤ x)

/-- The leaf itself, or the neighbour whose key range has the key. -/
def redirect (h : Heap M P) (key : ℤ) (leaf : NodeId) (x : ℚ) : Option NodeId := do
  let n ← h.dataAt leaf
  if nearSlot x then
    if roundsDown x then
      match n.prevLeaf with
      | none => some leaf
      | some prev => (h.dataAt prev).map (fun p => if (key : ℚ) < p.maxLimit then prev else leaf)
    else
      match n.nextLeaf with
      | none => some leaf
      | some next => (h.dataAt next).map (fun p => if p.minLimit ≤ (key : ℚ) then next else leaf)
  else some leaf

/-- The data node that contains the key (if it exists). -/
def getLeaf (s : Index M P) (key : ℤ) : Option NodeId :=
  match s.heap[s.rootNode]? with
  | some (.data _) => some s.rootNode
  | some (.model _) => do
      let (leaf, x) ← descend s.heap key s.heap.length s.rootNode
      redirect s.heap key leaf x
  | none => none

/-- Follow the same slot of every model node down to a leaf. -/
def outermostDataNode (h : Heap M P) (slot : ModelNode → ℕ) : ℕ → NodeId → Option NodeId
  | 0, _ => none
  | fuel + 1, cur =>
      match h[cur]? with
      | some (.data _) => some cur
      | some (.model m) => (m.childAt (slot m)).bind (outermostDataNode h slot fuel)
      | none => none

def firstDataNode (s : Index M P) : Option NodeId :=
  outermostDataNode s.heap (fun _ => 0) (s.heap.length + 1) s.rootNode

def lastDataNode (s : Index M P) : Option NodeId :=
  outermostDataNode s.heap (fun m => m.numChildren - 1) (s.heap.length + 1) s.rootNode

def getMinKey (T : KeyType) (s : Index M P) : Option ℤ := do
  let n ← s.heap.dataAt (← s.firstDataNode)
  n.firstKey T

def getMaxKey (T : KeyType) (s : Index M P) : Option ℤ := do
  let n ← s.heap.dataAt (← s.lastDataNode)
  n.lastKey T

/-! ### All nodes -/

/-- The slots that differ from the slot behind them, with the last slot. -/
def distinctChildren : List (Option NodeId) → List (Option NodeId)
  | [] => []
  | [c] => [c]
  | c :: c' :: cs =>
      if c = c' then distinctChildren (c' :: cs) else c :: distinctChildren (c' :: cs)

/-- The nodes that `NodeIterator` pushes when it visits a node, from left to right. -/
def pushedChildren (h : Heap M P) (cur : NodeId) : Option (List NodeId) :=
  match h[cur]? with
  | some (.data _) => some []
  | some (.model m) => (distinctChildren m.children).mapM id
  | none => none

/-- `NodeIterator`: the nodes in pre-order, with a stack. -/
def nodesFrom (h : Heap M P) : ℕ → List NodeId → Option (List NodeId)
  | _, [] => some []
  | 0, _ :: _ => none
  | fuel + 1, cur :: stack => do
      let children ← pushedChildren h cur
      let rest ← nodesFrom h fuel (children ++ stack)
      some (cur :: rest)

/-- Link a list of leaves from left to right. -/
def linkLeaves (h : Heap M P) : List NodeId → Option (Heap M P)
  | prev :: node :: rest => do
      let h ← h.modifyData prev (fun n => { n with nextLeaf := some node })
      let h ← h.modifyData node (fun n => { n with prevLeaf := some prev })
      linkLeaves h (node :: rest)
  | _ => some h

/-- `link_all_data_nodes`. -/
def linkAllDataNodes (fuel : ℕ) (s : Index M P) : Option (Index M P) := do
  let nodes ← nodesFrom s.heap fuel [s.rootNode]
  let h ← linkLeaves s.heap (nodes.filter (fun id => (s.heap.dataAt id).isSome))
  some { s with heap := h }

/-! ### The root -/

/-- `superroot_->children_[0] = root_node_`, with the level above the root. -/
def updateSuperrootPointer (s : Index M P) : Option (Index M P) := do
  let root ← s.heap[s.rootNode]?
  let sr ← s.heap.modelAt s.superroot
  let sr ← sr.setChildren 0 1 s.rootNode
  some { s with heap := s.heap.setModel s.superroot { sr with level := root.level - 1 } }

/-- `create_superroot`, after the root has been created. -/
def createSuperroot (s : Index M P) : Option (Index M P) := do
  let root ← s.heap[s.rootNode]?
  let sr := { ModelNode.new (root.level - 1) with
    numChildren := 1
    children := [none] }
  updateSuperrootPointer { s with heap := s.heap ++ [.model sr], superroot := s.heap.length }

/-- `update_superroot_key_domain`: the domain of the keys at the two ends. -/
def updateSuperrootKeyDomain (T : KeyType) (s : Index M P) : Option (Index M P) := do
  let lo ← s.getMinKey T
  let hi ← s.getMaxKey T
  let a : ℚ := 1 / (hi - lo : ℤ)
  let heap ← s.heap.modifyModel s.superroot
    (fun m => { m with model := ⟨a, -1 * lo * a⟩ })
  some { s with
    heap := heap
    keyDomainMin := lo
    keyDomainMax := hi
    numKeysAtLastRightDomainResize := s.numKeys
    numKeysAtLastLeftDomainResize := s.numKeys
    numKeysAboveKeyDomain := 0
    numKeysBelowKeyDomain := 0 }

variable [NodeModel M]

/-- `Alex()`: an empty data node as root. -/
def new (C : Params M P) : Option (Index M P) := do
  let leaf ← (DataNode.new C.T 0 C.defaultMaxSlots : DataNode M P).bulkLoad C.T [] none false
  createSuperroot
    { heap := [.data leaf]
      rootNode := 0
      superroot := 0
      numKeys := 0
      insertCounter := 0
      eraseCounter := 0
      keyDomainMin := C.T.max
      keyDomainMax := C.T.lowest
      numKeysAboveKeyDomain := 0
      numKeysBelowKeyDomain := 0
      numKeysAtLastRightDomainResize := 0
      numKeysAtLastLeftDomainResize := 0
      retired := [] }

/-! ### Bulk loading -/

/-- A data node with the pairs, in place of the temporary node. -/
def loadDataNode (C : Params M P) (h : Heap M P) (values : List (ℤ × P)) (node : ModelNode)
    (minLimit maxLimit : ℚ) (dataNodeModel : M) : Option (Heap M P × NodeId) := do
  let leaf : DataNode M P := { DataNode.new C.T node.level C.maxDataNodeSlots with
    minLimit := minLimit
    maxLimit := maxLimit }
  let leaf ← leaf.bulkLoad C.T values (some dataNodeModel) C.approximateModelComputation
  some (h ++ [.data { leaf with cost := node.cost }], h.length)

/-- The local depth and the expected costs of a child, from its fanout tree node. -/
def adoptChild (h : Heap M P) (id : NodeId) (t : FTNode M) : Option (Heap M P) :=
  match h[id]? with
  | some (.data n) => some (h.setData id { n with
      localDepth := t.level
      expectedAvgExpSearchIterations := t.expectedAvgSearchIterations
      expectedAvgShifts := t.expectedAvgShifts })
  | some (.model m) => some (h.setModel id { m with localDepth := t.level })
  | none => none

/-- The temporary node of a child over the slots from `cur` on, and its two limits. -/
def childNode (node : ModelNode) (depth cur : ℕ) (t : FTNode M) : ModelNode × ℚ × ℚ :=
  let left := ((cur : ℚ) / (2 ^ depth : ℕ) - node.model.b) / node.model.a
  let right := (((cur + 2 ^ (depth - t.level) : ℕ) : ℚ) / (2 ^ depth : ℕ) - node.model.b) /
    node.model.a
  let a := 1 / (right - left)
  ({ ModelNode.new (node.level + 1) with
      cost := t.cost
      localDepth := t.level
      model := ⟨a, -a * left⟩ }, left, right)

/-- Load the children of a model node one by one; `load` loads a node. -/
def loadChildren
    (load : Heap M P → List (ℤ × P) → ModelNode → ℚ → ℚ → M → Option (Heap M P × NodeId))
    (values : List (ℤ × P)) (node : ModelNode) (depth : ℕ) :
    List (FTNode M) → ℕ → Heap M P → List (Option NodeId) →
      Option (Heap M P × List (Option NodeId))
  | [], _, h, children => some (h, children)
  | t :: ts, cur, h, children => do
      let (child, left, right) := childNode node depth cur t
      let (h, id) ← load h ((values.take t.rightBoundary).drop t.leftBoundary) child left right
        t.model
      let h ← adoptChild h id t
      let children ← fillSlots children cur (2 ^ (depth - t.level)) id
      loadChildren load values node depth ts (cur + 2 ^ (depth - t.level)) h children

/-- The depth and the nodes to use; a node that is too big is divided even if no level is cheaper,
by the fanout that would do for uniform keys. -/
def enoughFanout (C : Params M P) (values : List (ℤ × P)) (node : ModelNode) (totalKeys : ℤ)
    (maxDataNodeKeys depth : ℕ) (used : List (FTNode M)) : Option (ℕ × List (FTNode M)) :=
  if depth = 0 then
    let depth := Nat.log2 (values.length / C.maxDataNodeSlots) + 1
    (FanoutTree.computeLevel C false values node.model totalKeys depth maxDataNodeKeys).map
      (fun r => (depth, r.1))
  else some (depth, used)

/-- `bulk_load_node`: a data node or a model node with its subtree in place of `node`, which
outputs a CDF value in `[0, 1)`. -/
def bulkLoadNode (C : Params M P) (totalKeys : ℤ) :
    ℕ → Heap M P → List (ℤ × P) → ModelNode → ℚ → ℚ → M → Option (Heap M P × NodeId)
  | 0 => fun _ _ _ _ _ _ => none
  | fuel + 1 => fun h values node minLimit maxLimit dataNodeModel => do
      let maxKeys : ℚ := C.maxDataNodeSlots * kInitDensity
      if (values.length : ℚ) ≤ maxKeys ∧ (node.cost < kNodeLookupsWeight ∨ node.model.a = 0) then
        loadDataNode C h values node minLimit maxLimit dataNodeModel
      else
        let maxDataNodeKeys := (trunc maxKeys).toNat
        let (depth, cost, used) ← FanoutTree.findBestFanoutBottomUp C values node totalKeys
          maxDataNodeKeys
        if cost < node.cost ∨ maxKeys < values.length then
          let (depth, used) ← enoughFanout C values node totalKeys maxDataNodeKeys depth used
          let (h, children) ← loadChildren (bulkLoadNode C totalKeys fuel) values node depth used 0
            h (List.replicate (2 ^ depth) none)
          some (h ++ [.model { ModelNode.new node.level with
            model := node.model.expand (2 ^ depth : ℕ)
            numChildren := 2 ^ depth
            children := children }], h.length)
        else loadDataNode C h values node minLimit maxLimit dataNodeModel

/-- The expected costs of a root that is a data node. -/
def recordRootCost (h : Heap M P) (root : NodeId) (stats : NodeCost) : Heap M P :=
  match h.dataAt root with
  | some n => h.setData root { n with
      expectedAvgExpSearchIterations := stats.numSearchIterations
      expectedAvgShifts := stats.numShifts }
  | none => h

/-- `bulk_load` of the sorted pairs; nothing happens unless the index is empty. -/
def bulkLoad (C : Params M P) (fuel : ℕ) (s : Index M P) (values : List (ℤ × P)) :
    Option (Index M P) := do
  match values.head?, values.getLast? with
  | some first, some last =>
      if 0 < s.numKeys then some s
      else
        let a : ℚ := 1 / (last.1 - first.1 : ℤ)
        let model : M := NodeModel.train C.approximateModelComputation (values.map Prod.fst)
        let stats := C.loadCost values model
        let temporary := { ModelNode.new 0 with
          model := ⟨a, -1 * first.1 * a⟩
          cost := stats.cost }
        let (heap, root) ← bulkLoadNode C values.length fuel s.heap values temporary first.1 last.1
          model
        let heap := recordRootCost heap root stats
        let s ← createSuperroot { s with heap := heap, rootNode := root, numKeys := values.length }
        let s ← updateSuperrootKeyDomain C.T s
        linkAllDataNodes fuel s
  | _, _ => some s

/-! ### Point operations -/

/-- `get_payload`. -/
def getPayload (s : Index M P) (key : ℤ) : Option (Option P × Index M P) := do
  let leaf ← s.getLeaf key
  let n ← s.heap.dataAt leaf
  match ← n.findPayload key with
  | (some found, n) => some (found, { s with heap := s.heap.setData leaf n })
  | (none, _) => none

/-- `update`. -/
def update (s : Index M P) (key : ℤ) (payload : P) : Option (Bool × Index M P) := do
  let leaf ← s.getLeaf key
  let n ← s.heap.dataAt leaf
  match ← n.update key payload with
  | (some updated, n) => some (updated, { s with heap := s.heap.setData leaf n })
  | (none, _) => none

def counterMask : ℕ := 2 ^ 19 - 1

/-- The counters after an erase; only every `2^19`-th erased key changes `num_keys`. -/
def countErased (s : Index M P) (key : ℤ) (numErased : ℕ) : Index M P :=
  let counter := (s.eraseCounter + numErased) &&& counterMask
  { s with
    eraseCounter := counter
    numKeys := if counter < s.eraseCounter then s.numKeys - (2 ^ 19 - 1) else s.numKeys
    numKeysAboveKeyDomain :=
      if s.keyDomainMax < key then s.numKeysAboveKeyDomain - numErased
      else s.numKeysAboveKeyDomain
    numKeysBelowKeyDomain :=
      if ¬ s.keyDomainMax < key ∧ key < s.keyDomainMin then s.numKeysBelowKeyDomain - numErased
      else s.numKeysBelowKeyDomain }

/-- `erase` of all keys with the value. -/
def erase (T : KeyType) (s : Index M P) (key : ℤ) : Option (ℕ × Index M P) := do
  let leaf ← s.getLeaf key
  let n ← s.heap.dataAt leaf
  match ← n.erase T key with
  | (some numErased, n) =>
      some (numErased, countErased { s with heap := s.heap.setData leaf n } key numErased)
  | (none, _) => none

end Index

end LearnedIndex.Alexol
