import LearnedIndex.Alexol.Restructure
import LearnedIndex.Alexol.Doubles

/-! # Expanding the key domain (`alex.h`)

`expand_root` enlarges the root to the left or to the right, or puts a new root on top of it, and
fills the new slots with data nodes that take over keys of the outermost leaf.

* Values of the key type wrap around for an unsigned type, and overflow is undefined for a signed
  one (`KeyType.arith`).
* The expansion factor is an `int`: a division by zero or a value above `2^30` is undefined.
* The expansion factor, the model of the enlarged root and the slots of the new ends of the domain
  are computed with doubles (`Doubles`). -/

namespace LearnedIndex.Alexol

/-- The result of an operation in the key type with exact value `x`. -/
def KeyType.arith (T : KeyType) (x : ℤ) : Option ℤ :=
  if T.lowest ≤ x ∧ x ≤ T.max then some x
  else if T.lowest = 0 then some (x % (T.max + 1))
  else none

namespace Index

variable {M P : Type}

/-- `static_cast<int>(ceil((key_difference + domain_size) / domain_size))`. -/
def expansionRatio (D : Doubles) (keyDifference domainSize : ℤ) : ℤ :=
  let sum := D.round (D.round keyDifference + D.round domainSize)
  D.toInt ⌈D.round (sum / D.round domainSize)⌉

/-- `pow_2_round_up` of the ratio. -/
def expansionFactor (D : Doubles) (keyDifference domainSize : ℤ) : Option ℕ :=
  let c := expansionRatio D keyDifference domainSize
  if domainSize ≠ 0 ∧ 1 ≤ c ∧ c ≤ 2 ^ 30 then some (pow2RoundUp c.toNat) else none

/-- The new lower end of the domain: clipped at the lowest key if half of the new domain does not
fit. -/
def expandedMin (T : KeyType) (domainMax domainSize : ℤ) (factor : ℕ) : Option ℤ := do
  let expandable ← T.arith (domainMax.tdiv 2 - T.lowest.tdiv 2)
  let half ← T.arith ((factor / 2 : ℕ) * domainSize)
  if expandable < half then some T.lowest
  else
    let x ← T.arith (domainMax - half)
    T.arith (x - half)

/-- The new upper end of the domain. -/
def expandedMax (T : KeyType) (domainMin domainSize : ℤ) (factor : ℕ) : Option ℤ := do
  let expandable ← T.arith (T.max.tdiv 2 - domainMin.tdiv 2)
  let half ← T.arith ((factor / 2 : ℕ) * domainSize)
  if expandable < half then some T.max
  else
    let x ← T.arith (domainMin + half)
    T.arith (x + half)

/-- The distance of the key, and of the outermost stored key, from the domain. -/
def keyDifference (T : KeyType) (s : Index M P) (key : ℤ) (expandLeft : Bool) : Option ℤ := do
  if expandLeft then
    let k ← s.getMinKey T
    T.arith (s.keyDomainMin - min key k)
  else
    let k ← s.getMaxKey T
    T.arith (max key k - s.keyDomainMax)

/-- The expansion factor and the new domain. -/
def expandedDomain (D : Doubles) (T : KeyType) (s : Index M P) (key : ℤ) (expandLeft : Bool) :
    Option (ℕ × ℤ × ℤ) := do
  let size ← T.arith (s.keyDomainMax - s.keyDomainMin)
  let difference ← keyDifference T s key expandLeft
  let factor ← expansionFactor D difference size
  if expandLeft then
    let lo ← expandedMin T s.keyDomainMax size factor
    some (factor, lo, s.keyDomainMax)
  else
    let hi ← expandedMax T s.keyDomainMin size factor
    some (factor, s.keyDomainMin, hi)

/-- The model of a root that is expanded in place. -/
def inPlaceModel (D : Doubles) (root : ModelNode) (factor : ℕ) (expandLeft : Bool) : LinearModel :=
  if expandLeft then
    { root.model with
      b := D.round (root.model.b + (root.numChildren * factor - root.numChildren : ℕ)) }
  else root.model

/-- The model of a new root above the old one. -/
def aboveModel (D : Doubles) (root : ModelNode) (factor : ℕ) (expandLeft : Bool) : LinearModel :=
  let b := D.round (root.model.b / root.numChildren)
  ⟨D.round (root.model.a / root.numChildren),
    if expandLeft then D.round (b + (factor - 1 : ℕ)) else b⟩

/-- The root with all its pointers moved to one end of a larger array. -/
def expandInPlace (D : Doubles) (root : ModelNode) (factor : ℕ) (expandLeft : Bool) : ModelNode :=
  let grown := root.numChildren * factor - root.numChildren
  { root with
    numChildren := root.numChildren * factor
    model := inPlaceModel D root factor expandLeft
    children := if expandLeft then List.replicate grown none ++ root.children.take root.numChildren
      else root.children.take root.numChildren ++ List.replicate grown none }

/-- A new root with the old one at one end. -/
def rootAbove (D : Doubles) (root : ModelNode) (rootId : NodeId) (factor : ℕ) (expandLeft : Bool) :
    ModelNode :=
  { ModelNode.new (root.level - 1) with
    model := aboveModel D root factor expandLeft
    numChildren := factor
    children := if expandLeft then List.replicate (factor - 1) none ++ [some rootId]
      else some rootId :: List.replicate (factor - 1) none }

/-- Make room below the root: the first new slot and the first slot behind the new ones. -/
def enlargeRoot (D : Doubles) (C : Params M P) (s : Index M P) (factor : ℕ) (expandLeft : Bool) :
    Option (ℕ × ℕ × Index M P) := do
  let root ← s.heap.modelAt s.rootNode
  if root.numChildren * factor ≤ C.maxFanout then
    let start := if expandLeft then 0 else root.numChildren
    let stop := if expandLeft then root.numChildren * factor - root.numChildren
      else root.numChildren * factor
    some (start, stop,
      { s with heap := s.heap.setModel s.rootNode (expandInPlace D root factor expandLeft) })
  else
    let new := s.heap.length
    let h := s.heap ++ [.model (rootAbove D root s.rootNode factor expandLeft)]
    let s ← updateSuperrootPointer { s with heap := h, rootNode := new }
    let start := if expandLeft then 0 else 1
    some (start, start + factor - 1, s)

variable [NodeModel M]

/-- A new data node with the keys between two positions of the outermost one. -/
def newOuterLeaf (C : Params M P) (outer : DataNode M P) (left right : ℕ) (level : ℤ)
    (localDepth : ℕ) : Option (DataNode M P) := do
  let n ← bulkLoadLeafNodeFromExisting C outer left right true none false false false
  some { n with level := level, localDepth := localDepth }

/-- The next boundary position, at the value that lies one domain further. -/
def nextBoundary (T : KeyType) (outer : DataNode M P) (last : Bool) (stop : ℕ) (value : ℤ)
    (step : ℤ) : Option (ℕ × ℤ × DataNode M P) := do
  if last then some (stop, value, outer)
  else
    let value ← T.arith (value + step)
    let (pos, outer) ← outer.lowerBound value
    some (pos, value, outer)

/-- The loop of `expand_root` to the right: a new data node per `n` slots from slot `i` on. -/
def fillRight (C : Params M P) (root outermost : NodeId) (n newLocalDepth : ℕ) (level : ℤ)
    (stop : ℕ) (inBoundsStop : ℤ) (domainSize : ℤ) :
    ℕ → ℕ → ℤ → ℕ → Option NodeId → Heap M P → Option (Heap M P)
  | 0, i, _, _, _, h => if stop ≤ i then some h else none
  | fuel + 1, i, value, left, prev, h => do
      if stop ≤ i ∨ inBoundsStop ≤ i then some h
      else
        let outer ← h.dataAt outermost
        let (right, value, outer) ← nextBoundary C.T outer (decide (inBoundsStop ≤ i + n))
          outer.dataCapacity value domainSize
        let node ← newOuterLeaf C outer left right level newLocalDepth
        let new := h.length
        let h := h.setData outermost outer ++ [.data { node with prevLeaf := prev }]
        let h ← linkAfter h new prev
        let h ← h.modelAt root |>.bind (fun m => (m.setChildren i n new).map (h.setModel root))
        fillRight C root outermost n newLocalDepth level stop inBoundsStop domainSize fuel (i + n)
          value right (some new) h
where
  /-- `prev->next_leaf_ = new_node`. -/
  linkAfter (h : Heap M P) (new : NodeId) : Option NodeId → Option (Heap M P)
    | none => some h
    | some prev => h.modifyData prev (fun n => { n with nextLeaf := some new })

/-- The loop of `expand_root` to the left, from slot `i` downwards. -/
def fillLeft (C : Params M P) (root outermost : NodeId) (n newLocalDepth : ℕ) (level : ℤ)
    (start : ℕ) (inBoundsStart : ℤ) (domainSize : ℤ) :
    ℕ → ℕ → ℤ → ℕ → NodeId → Heap M P → Option (Heap M P)
  | 0, i, _, _, _, h => if i ≤ start then some h else none
  | fuel + 1, i, value, right, next, h => do
      if i ≤ start ∨ (i : ℤ) ≤ inBoundsStart then some h
      else
        let outer ← h.dataAt outermost
        let (left, value, outer) ← nextBoundary C.T outer (decide ((i : ℤ) - n ≤ inBoundsStart))
          0 value (-domainSize)
        let node ← newOuterLeaf C outer left right level newLocalDepth
        let new := h.length
        let h := h.setData outermost outer ++ [.data { node with nextLeaf := some next }]
        let h ← h.modifyData next (fun n => { n with prevLeaf := some new })
        let h ← h.modelAt root |>.bind
          (fun m => (m.setChildren (i - n) n new).map (h.setModel root))
        fillLeft C root outermost n newLocalDepth level start inBoundsStart domainSize fuel (i - n)
          value left new h

/-- Connect the outermost leaf and the new leaf next to it. -/
def connectOuter (h : Heap M P) (outermost new : NodeId) (expandLeft : Bool) :
    Option (Heap M P) := do
  if expandLeft then
    let h ← h.modifyData outermost (fun n => { n with prevLeaf := some new })
    h.modifyData new (fun n => { n with nextLeaf := some outermost })
  else
    let h ← h.modifyData outermost (fun n => { n with nextLeaf := some new })
    h.modifyData new (fun n => { n with prevLeaf := some outermost })

/-- The new leaves of the enlarged root. -/
def fillNewSlots (D : Doubles) (C : Params M P) (s : Index M P) (outermost : NodeId)
    (start stop : ℕ) (lo hi size : ℤ) (expandLeft : Bool) : Option (Heap M P) := do
  let root ← s.heap.modelAt s.rootNode
  let outer ← s.heap.dataAt outermost
  let n := root.numChildren - (stop - start)
  let newLocalDepth := log2RoundDown root.numChildren - log2RoundDown n
  let (pos, outer) ← outer.lowerBound (if expandLeft then s.keyDomainMin else s.keyDomainMax)
  let h := s.heap.setData outermost outer
  if expandLeft then
    fillLeft C s.rootNode outermost n newLocalDepth (root.level + 1) start
      (max (start : ℤ) (root.model.predictOn D lo)) size (stop - start) stop s.keyDomainMin pos
      outermost h
  else if root.model.predictOn D hi + 1 < 2 ^ 31 then
    fillRight C s.rootNode outermost n newLocalDepth (root.level + 1) stop
      (min (stop : ℤ) (root.model.predictOn D hi + 1)) size (stop - start) start s.keyDomainMax pos
      none h
  else none

/-- Remove the reassigned keys from the outermost leaf and connect it. -/
def detachOuter (C : Params M P) (s : Index M P) (outermost : NodeId) (start stop : ℕ)
    (lo hi : ℤ) (expandLeft : Bool) : Option (Heap M P) := do
  let outer ← s.heap.dataAt outermost
  let (_, outer) ← (if expandLeft then outer.eraseRange C.T lo s.keyDomainMin false
    else outer.eraseRange C.T s.keyDomainMax hi true)
  let root ← s.heap.modelAt s.rootNode
  let neighbour ← (if expandLeft then (if stop = 0 then none else root.childAt (stop - 1))
    else root.childAt start)
  connectOuter (s.heap.setData outermost outer) outermost neighbour expandLeft

/-- `expand_root`. -/
def expandRoot (D : Doubles) (C : Params M P) (s : Index M P) (key : ℤ) (expandLeft : Bool) :
    Option (Index M P) := do
  let size ← C.T.arith (s.keyDomainMax - s.keyDomainMin)
  let (factor, lo, hi) ← expandedDomain D C.T s key expandLeft
  let outermost ← (if expandLeft then s.firstDataNode else s.lastDataNode)
  let (start, stop, s) ← enlargeRoot D C s factor expandLeft
  let h ← fillNewSlots D C s outermost start stop lo hi size expandLeft
  let s := { s with heap := h }
  let h ← detachOuter C s outermost start stop lo hi expandLeft
  some { s with
    heap := h
    keyDomainMin := lo
    keyDomainMax := hi
    numKeysAtLastLeftDomainResize :=
      if expandLeft then s.numKeys else s.numKeysAtLastLeftDomainResize
    numKeysBelowKeyDomain := if expandLeft then 0 else s.numKeysBelowKeyDomain
    numKeysAtLastRightDomainResize :=
      if expandLeft then s.numKeysAtLastRightDomainResize else s.numKeys
    numKeysAboveKeyDomain := if expandLeft then s.numKeysAboveKeyDomain else 0 }

end Index

end LearnedIndex.Alexol
