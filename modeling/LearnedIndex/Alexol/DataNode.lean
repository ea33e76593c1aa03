import LearnedIndex.Alexol.Slots
import LearnedIndex.Lib.Search

/-! # Data nodes

`AlexDataNode` of `alex_nodes.h`: the slot arrays of `Slots` with the counters, thresholds, limits,
links and locks of the node, and its lookups, inserts, erases and rebuilds.

An operation takes the node and returns it with its result, and `none` stands for an access
outside the arrays.  Numbers that the source computes in `double` (costs, thresholds, limits,
densities) are exact rationals. -/

namespace LearnedIndex.Alexol

open LearnedIndex.Words LearnedIndex.Search

def kMaxDensity : ℚ := 4 / 5
def kInitDensity : ℚ := 7 / 10
def kMinDensity : ℚ := 3 / 5
def kAppendMostlyThreshold : ℚ := 9 / 10

def kExpSearchIterationsWeight : ℚ := 20
def kShiftsWeight : ℚ := 1 / 2
def kNodeLookupsWeight : ℚ := 20

/-- The address of a node. -/
abbrev NodeId := ℕ

/-- `AlexDataNode` with the fields it has from `AlexNode`. -/
structure DataNode (M P : Type) extends Slots P where
  isObsolete : Bool
  localDepth : ℕ
  level : ℤ
  model : M
  cost : ℚ
  nextLeaf : Option NodeId
  prevLeaf : Option NodeId
  lock : LockWord
  linkLock : LockWord
  numKeys : ℕ
  expansionThreshold : ℚ
  contractionThreshold : ℚ
  maxSlots : ℕ
  maxLimit : ℚ
  minLimit : ℚ
  numShifts : ℕ
  numExpSearchIterations : ℕ
  numLookups : ℕ
  numInserts : ℕ
  numResizes : ℕ
  maxKey : ℤ
  minKey : ℤ
  numRightOutOfBoundsInserts : ℕ
  numLeftOutOfBoundsInserts : ℕ
  expectedAvgExpSearchIterations : ℚ
  expectedAvgShifts : ℚ
deriving DecidableEq

namespace DataNode

variable {M P : Type} [NodeModel M]

/-- `AlexDataNode(level, max_data_node_slots)`. -/
def new (T : KeyType) (level : ℤ) (maxDataNodeSlots : ℕ) : DataNode M P where
  dataCapacity := 0
  bitmapSize := 0
  keySlots := []
  payloadSlots := []
  bitmap := []
  isObsolete := false
  localDepth := 0
  level := level
  model := NodeModel.zero
  cost := 0
  nextLeaf := none
  prevLeaf := none
  lock := 0#32
  linkLock := 0#32
  numKeys := 0
  expansionThreshold := 1
  contractionThreshold := 0
  maxSlots := maxDataNodeSlots
  maxLimit := 0
  minLimit := 0
  numShifts := 0
  numExpSearchIterations := 0
  numLookups := 0
  numInserts := 0
  numResizes := 0
  maxKey := T.lowest
  minKey := T.max
  numRightOutOfBoundsInserts := 0
  numLeftOutOfBoundsInserts := 0
  expectedAvgExpSearchIterations := 0
  expectedAvgShifts := 0

/-! ### Locks -/

def tryGetLock (n : DataNode M P) : Bool × DataNode M P :=
  if isSet n.lock then (false, n) else (true, { n with lock := n.lock ||| lockSet })

def releaseLock (n : DataNode M P) : DataNode M P := { n with lock := n.lock + 1#32 - lockSet }

/-- `try_get_link_lock`; single-threaded it fails on a locked node only. -/
def tryGetLinkLock (n : DataNode M P) : Option (DataNode M P) :=
  if isSet n.linkLock then none
  else some { n with linkLock := (n.linkLock &&& lockMask) ||| lockSet }

def releaseLinkLock (n : DataNode M P) : DataNode M P :=
  { n with linkLock := n.linkLock &&& lockMask }

/-! ### Smallest and largest key -/

/-- The key at the first filled position of a list, or the limit. -/
def firstFilledKey (n : DataNode M P) (limit : ℤ) : List ℕ → Option ℤ
  | [] => some limit
  | i :: is => do
      if ← n.checkExists i then n.keyAt i else firstFilledKey n limit is

def firstKey (T : KeyType) (n : DataNode M P) : Option ℤ :=
  n.firstFilledKey T.max (List.range n.dataCapacity)

def lastKey (T : KeyType) (n : DataNode M P) : Option ℤ :=
  n.firstFilledKey T.lowest (List.range n.dataCapacity).reverse

/-! ### Cost model -/

def shiftsPerInsert (n : DataNode M P) : ℚ :=
  if n.numInserts = 0 then 0 else (n.numShifts : ℚ) / n.numInserts

def expSearchIterationsPerOperation (n : DataNode M P) : ℚ :=
  if n.numInserts + n.numLookups = 0 then 0
  else (n.numExpSearchIterations : ℚ) / (n.numInserts + n.numLookups : ℕ)

def fracInserts (n : DataNode M P) : ℚ :=
  if n.numInserts + n.numLookups = 0 then 0
  else (n.numInserts : ℚ) / (n.numInserts + n.numLookups : ℕ)

def empiricalCost (n : DataNode M P) : ℚ :=
  if n.numInserts + n.numLookups = 0 then 0
  else kExpSearchIterationsWeight * n.expSearchIterationsPerOperation +
    kShiftsWeight * n.shiftsPerInsert * n.fracInserts

def significantCostDeviation (n : DataNode M P) : Bool :=
  decide (kNodeLookupsWeight < n.empiricalCost) && decide (3 / 2 * n.cost < n.empiricalCost)

def catastrophicCost (n : DataNode M P) : Bool :=
  decide (100 < n.shiftsPerInsert) || decide (100 < n.expectedAvgShifts)

def resetStats (n : DataNode M P) : DataNode M P :=
  { n with
    numShifts := 0
    numExpSearchIterations := 0
    numLookups := 0
    numInserts := 0
    numResizes := 0 }

def isAppendMostlyRight (n : DataNode M P) : Bool :=
  decide (kAppendMostlyThreshold < (n.numRightOutOfBoundsInserts : ℚ) / n.numInserts)

def isAppendMostlyLeft (n : DataNode M P) : Bool :=
  decide (kAppendMostlyThreshold < (n.numLeftOutOfBoundsInserts : ℚ) / n.numInserts)

/-! ### Lookup

The searches compare slot keys with a value that may be of type `double`; the prediction only
sees it truncated to a key. -/

def predictPosition (n : DataNode M P) (key : ℚ) : ℕ :=
  (max (min (NodeModel.predict n.model (trunc key)) (n.dataCapacity - 1)) 0).toNat

def countIterations (n : DataNode M P) (iters : ℕ) : DataNode M P :=
  { n with numExpSearchIterations := n.numExpSearchIterations + iters }

/-- First position greater than `key`, from position `m`. -/
def exponentialSearchUpperBound (n : DataNode M P) (m : ℕ) (key : ℚ) :
    Option (ℕ × DataNode M P) := do
  let (pos, iters) ← exponentialSearch
    (fun i => (n.keyAt i).map (fun x : ℤ => decide ((x : ℚ) ≤ key)))
    n.dataCapacity m
  some (pos, n.countIterations iters)

/-- First position no less than `key`, from position `m`. -/
def exponentialSearchLowerBound (n : DataNode M P) (m : ℕ) (key : ℚ) :
    Option (ℕ × DataNode M P) := do
  let (pos, iters) ← exponentialSearch
    (fun i => (n.keyAt i).map (fun x : ℤ => decide ((x : ℚ) < key)))
    n.dataCapacity m
  some (pos, n.countIterations iters)

def countLookup (n : DataNode M P) : DataNode M P := { n with numLookups := n.numLookups + 1 }

def upperBound (n : DataNode M P) (key : ℚ) : Option (ℕ × DataNode M P) :=
  n.countLookup.exponentialSearchUpperBound (n.predictPosition key) key

def lowerBound (n : DataNode M P) (key : ℚ) : Option (ℕ × DataNode M P) :=
  n.countLookup.exponentialSearchLowerBound (n.predictPosition key) key

/-- First non-gap position no less than `key`. -/
def findLower (past : Option Word) (n : DataNode M P) (key : ℤ) : Option (ℕ × DataNode M P) := do
  let (pos, n) ← n.lowerBound key
  let pos ← n.getNextFilledPosition past pos false
  some (pos, n)

/-- First non-gap position greater than `key`. -/
def findUpper (past : Option Word) (n : DataNode M P) (key : ℤ) : Option (ℕ × DataNode M P) := do
  let (pos, n) ← n.upperBound key
  let pos ← n.getNextFilledPosition past pos false
  some (pos, n)

/-- Last position equal to `key`, the shared part of `find_key`, `find_payload` and `update`. -/
def findKey (n : DataNode M P) (key : ℤ) : Option (Option ℕ × DataNode M P) := do
  let (c, n) ← n.upperBound key
  if c = 0 then some (none, n)
  else
    let k ← n.keyAt (c - 1)
    some (if k = key then some (c - 1) else none, n)

/-- `find_payload`: `none` inside is the answer `false` of a locked node; otherwise the payload
found. -/
def findPayload (n : DataNode M P) (key : ℤ) : Option (Option (Option P) × DataNode M P) := do
  if isSet n.lock then some (none, n)
  else
    let version := n.lock
    let (pos, n) ← n.findKey key
    let payload ← match pos with
      | none => some none
      | some pos => (n.payloadAt pos).map some
    if version = n.lock then some (some payload, n) else some (none, n)

/-- `update`: `none` inside is the answer `false` of a locked node. -/
def update (n : DataNode M P) (key : ℤ) (payload : P) : Option (Option Bool × DataNode M P) := do
  match n.tryGetLock with
  | (false, n) => some (none, n)
  | (true, n) =>
      let (pos, n) ← n.findKey key
      match pos with
      | none => some (some false, n.releaseLock)
      | some pos =>
          let s ← n.toSlots.setPayload pos payload
          some (some true, releaseLock { n with toSlots := s })

/-! ### Inserts -/

/-- The position to insert at and the upper bound of the key. -/
def findInsertPosition (n : DataNode M P) (key : ℤ) : Option (ℕ × ℕ × DataNode M P) := do
  let predictedPos := n.predictPosition key
  let (pos, n) ← n.exponentialSearchUpperBound predictedPos key
  if predictedPos ≤ pos then some (pos, pos, n)
  else
    if ← n.checkExists pos then some (pos, pos, n)
    else
      -- as close as possible to the predicted position
      let next ← n.getNextFilledPosition none pos true
      some (min predictedPos (next - 1), pos, n)

/-- `insertion_position < data_capacity_ && !check_exists(insertion_position)`. -/
def isGapAt (n : DataNode M P) (pos : ℕ) : Option Bool :=
  if pos < n.dataCapacity then (n.checkExists pos).map not else some false

/-- Store the pair at a gap, or make room for it. -/
def insertAtPosition (n : DataNode M P) (key : ℤ) (payload : P) (pos : ℕ) :
    Option (DataNode M P × ℕ) := do
  if ← n.isGapAt pos then
    let s ← n.toSlots.insertElementAt key payload pos
    some ({ n with toSlots := s }, pos)
  else
    let (s, pos, shifts) ← n.toSlots.insertUsingShifts key payload pos
    some ({ n with toSlots := s, numShifts := n.numShifts + shifts }, pos)

/-- The counters after a key has been stored. -/
def updateStats (n : DataNode M P) (key : ℤ) : DataNode M P :=
  { n with
    numKeys := n.numKeys + 1
    numInserts := n.numInserts + 1
    maxKey := if n.maxKey < key then key else n.maxKey
    numRightOutOfBoundsInserts :=
      if n.maxKey < key then n.numRightOutOfBoundsInserts + 1 else n.numRightOutOfBoundsInserts
    minKey := if key < n.minKey then key else n.minKey
    numLeftOutOfBoundsInserts :=
      if key < n.minKey then n.numLeftOutOfBoundsInserts + 1 else n.numLeftOutOfBoundsInserts }

/-- The flag and position that a successful insert returns; every flag but 0 keeps the lock. -/
def insertVerdict (n : DataNode M P) (pos : ℕ) : DataNode M P × ℤ × ℤ :=
  if n.numInserts % 64 = 0 ∧ n.catastrophicCost then (n, 2, -1)
  else if n.expansionThreshold ≤ n.numKeys then
    if n.significantCostDeviation then (n, 1, -1)
    else if n.catastrophicCost then (n, 2, -1)
    else if (n.maxSlots : ℚ) * kMinDensity < n.numKeys then (n, 3, -1)
    else (n, 5, -1)
  else (n.releaseLock, 0, pos)

/-- `pos > 0 && key_equal(ALEX_DATA_NODE_KEY_AT(pos - 1), key)`. -/
def equalBelow (n : DataNode M P) (pos : ℕ) (key : ℤ) : Option Bool :=
  if pos = 0 then some false else (n.keyAt (pos - 1)).map (fun k => decide (k = key))

/-- `insert`, with the fail flag and the position. -/
def insert (allowDuplicates : Bool) (n : DataNode M P) (key : ℤ) (payload : P) :
    Option (DataNode M P × ℤ × ℤ) := do
  match n.tryGetLock with
  | (false, n) => some (n, 4, -1)
  | (true, n) =>
      let (insertionPosition, upperBoundPos, n) ← n.findInsertPosition key
      let stored ← n.equalBelow upperBoundPos key
      if ¬ allowDuplicates ∧ stored then some (n.releaseLock, -1, (upperBoundPos : ℤ) - 1)
      else
        let (n, pos) ← n.insertAtPosition key payload insertionPosition
        some ((n.updateStats key).insertVerdict pos)

/-! ### Bulk loading and resizing -/

/-- `max(static_cast<int>(num_keys / density), num_keys + 1)`. -/
def capacityFor (numKeys : ℕ) (density : ℚ) : ℕ :=
  max (trunc ((numKeys : ℚ) / density)).toNat (numKeys + 1)

/-- The thresholds after the arrays have been rebuilt. -/
def setThresholds (n : DataNode M P) : DataNode M P :=
  { n with
    expansionThreshold :=
      min (max ((n.dataCapacity : ℚ) * kMaxDensity) ((n.numKeys : ℚ) + 1)) n.dataCapacity
    contractionThreshold := (n.dataCapacity : ℚ) * kMinDensity }

/-- An empty node: one slot for a density at most one, holding the sentinel. -/
def loadEmpty (T : KeyType) (n : DataNode M P) (density : ℚ) : Option (DataNode M P) := do
  let capacity := capacityFor 0 density
  let s ← (Slots.fresh capacity).fillKeys T.max 0 capacity
  some { n with
    toSlots := s
    numKeys := 0
    expansionThreshold := capacity
    contractionThreshold := 0 }

/-- `bulk_load` of an array of pairs. -/
def bulkLoad (T : KeyType) (n : DataNode M P) (values : List (ℤ × P))
    (pretrainedModel : Option M) (trainWithSample : Bool) : Option (DataNode M P) := do
  match values.head?, values.getLast? with
  | some first, some last =>
      let numKeys := values.length
      let capacity := capacityFor numKeys kInitDensity
      let model := pretrainedModel.getD (NodeModel.train trainWithSample (values.map Prod.fst))
      let model := NodeModel.expand model ((capacity : ℚ) / numKeys)
      let s ← Slots.layout T.max capacity numKeys (NodeModel.predict model)
        (fun i => values[i]?) (List.range numKeys) numKeys
      let n := { n with
        toSlots := s
        numKeys := numKeys
        model := model
        minKey := first.1
        maxKey := last.1 }
      some n.setThresholds
  | _, _ => n.loadEmpty T kInitDensity

/-- The pair at a position of a node. -/
def pairAt (n : DataNode M P) (i : ℕ) : Option (ℤ × P) := do
  let key ← n.keyAt i
  let payload ← n.payloadAt i
  some (key, payload)

/-- The keys at the positions below `right` that an iterator visits. -/
def keysBelow (n : DataNode M P) (right : ℕ) (positions : List ℕ) : Option (List ℤ) :=
  (positions.takeWhile (· < right)).mapM (fun i => n.keyAt i)

/-- The model of `bulk_load_from_existing` for append-mostly nodes. -/
def expandModelKeeping (model : M) (keepLeft keepRight : Bool) (numKeys capacity : ℕ) : M :=
  let dense := ((numKeys : ℚ) / kMaxDensity) / numKeys
  if keepLeft then NodeModel.expand model dense
  else if keepRight then
    NodeModel.addIntercept (NodeModel.expand model dense)
      ((capacity : ℚ) - (numKeys : ℚ) / kMaxDensity)
  else NodeModel.expand model ((capacity : ℚ) / numKeys)

/-- The model and key count of `bulk_load_from_existing`, unless they are precomputed. -/
def modelFor (src : DataNode M P) (right : ℕ) (positions : List ℕ) :
    Option (M × ℕ) → Option (M × ℕ)
  | some precomputed => some precomputed
  | none => (src.keysBelow right positions).map (fun keys =>
      (NodeModel.train false keys, keys.length))

/-- `bulk_load_from_existing`: the keys of `src` between two positions.  `past` is the word an
iterator started at the capacity may read behind the bitmap. -/
def bulkLoadFromExisting (T : KeyType) (past : Option Word) (n src : DataNode M P)
    (left right : ℕ) (keepLeft keepRight : Bool) (precomputed : Option (M × ℕ)) :
    Option (DataNode M P) := do
  let positions ← src.positionsFrom past left
  let (model, numActualKeys) ← src.modelFor right positions precomputed
  if numActualKeys = 0 then loadEmpty T { n with model := model } kMinDensity
  else
    let capacity := capacityFor numActualKeys kMinDensity
    let model := expandModelKeeping model keepLeft keepRight numActualKeys capacity
    let s ← Slots.layout T.max capacity numActualKeys (NodeModel.predict model) src.pairAt
      positions right
    let n := { n with
      toSlots := s
      numKeys := numActualKeys
      model := model
      maxKey := src.maxKey }
    some n.setThresholds

/-- The model of a resized node: retrained on the keys of `src` when there are few of them. -/
def resizedModel (n : DataNode M P) (keys : List ℤ) (capacity : ℕ)
    (forceRetrain keepLeft keepRight : Bool) : M :=
  let shift : ℚ := (capacity : ℚ) - n.dataCapacity
  if n.numKeys < 50 ∨ forceRetrain then
    let model := NodeModel.train false keys
    let old := (n.dataCapacity : ℚ) / n.numKeys
    if keepLeft then NodeModel.expand model old
    else if keepRight then NodeModel.addIntercept (NodeModel.expand model old) shift
    else NodeModel.expand model ((capacity : ℚ) / n.numKeys)
  else if keepRight then NodeModel.addIntercept n.model shift
  else if keepLeft then n.model
  else NodeModel.expand n.model ((capacity : ℚ) / n.dataCapacity)

/-- The part that `resize` and `resize_from_existing` share: lay the keys of `src` out again. -/
def rebuildFrom (T : KeyType) (n src : DataNode M P) (targetDensity : ℚ)
    (forceRetrain keepLeft keepRight : Bool) : Option (DataNode M P) := do
  let capacity := capacityFor n.numKeys targetDensity
  let positions ← src.positionsFrom none 0
  let keys ← src.keysBelow n.dataCapacity positions
  let model := n.resizedModel keys capacity forceRetrain keepLeft keepRight
  let s ← Slots.layout T.max capacity n.numKeys (NodeModel.predict model) src.pairAt positions
    n.dataCapacity
  some (setThresholds { n with toSlots := s, model := model })

/-- Resize the data node to the target density. -/
def resize (T : KeyType) (n : DataNode M P) (targetDensity : ℚ)
    (forceRetrain keepLeft keepRight : Bool) : Option (DataNode M P) :=
  if n.numKeys = 0 then some n
  else n.rebuildFrom T n targetDensity forceRetrain keepLeft keepRight

/-- `New_from_existing`: a copy of the node without its arrays; the bitmap pointer is shared. -/
def newFromExisting (old : DataNode M P) : DataNode M P :=
  { old with linkLock := 0#32, keySlots := [], payloadSlots := [] }

/-- `resize_from_existing`; on an empty node the key slots stay unwritten. -/
def resizeFromExisting (T : KeyType) (n old : DataNode M P) (targetDensity : ℚ)
    (forceRetrain keepLeft keepRight : Bool) : Option (DataNode M P) :=
  if n.numKeys = 0 then
    let capacity := capacityFor 0 kMinDensity
    some { n with
      toSlots := Slots.fresh capacity
      expansionThreshold := capacity
      contractionThreshold := 0 }
  else n.rebuildFrom T old targetDensity forceRetrain keepLeft keepRight

/-! ### Deletes -/

/-- `if (num_keys_ < contraction_threshold_) { resize(kMaxDensity_); num_resizes_++; }`. -/
def contract (T : KeyType) (n : DataNode M P) : Option (DataNode M P) := do
  if (n.numKeys : ℚ) < n.contractionThreshold then
    let n ← n.resize T kMaxDensity false false false
    some { n with numResizes := n.numResizes + 1 }
  else some n

/-- The key of the next slot, or the sentinel. -/
def nextKeyAt (T : KeyType) (n : DataNode M P) (pos : ℕ) : Option ℤ :=
  if pos = n.dataCapacity then some T.max else n.keyAt pos

/-- Erase the key at the given position. -/
def eraseOneAt (T : KeyType) (n : DataNode M P) (pos : ℕ) : Option (DataNode M P) := do
  let nextKey ← n.nextKeyAt T (pos + 1)
  let s ← n.toSlots.setKey pos nextKey
  let s ← s.unsetBit pos
  let s ← s.backFill nextKey pos
  contract T { n with toSlots := s, numKeys := n.numKeys - 1 }

/-- Erase the left-most key with the input value. -/
def eraseOne (T : KeyType) (past : Option Word) (n : DataNode M P) (key : ℤ) :
    Option (ℕ × DataNode M P) := do
  let (pos, n) ← n.findLower past key
  if pos = n.dataCapacity then some (0, n)
  else
    let k ← n.keyAt pos
    if k = key then
      let n ← n.eraseOneAt T pos
      some (1, n)
    else some (0, n)

/-- `erase`: all keys with the input value, without contraction; `none` inside is the answer
`false` of a locked node. -/
def erase (T : KeyType) (n : DataNode M P) (key : ℤ) : Option (Option ℕ × DataNode M P) := do
  match n.tryGetLock with
  | (false, n) => some (none, n)
  | (true, n) =>
      let (pos, n) ← n.upperBound key
      if ← n.equalBelow pos key then
        let nextKey ← n.nextKeyAt T pos
        let (s, numErased) ← n.toSlots.eraseWhile (fun k => decide (k = key)) nextKey pos 0
        let n := { n with toSlots := s, numKeys := n.numKeys - numErased }
        some (some numErased, n.releaseLock)
      else some (some 0, n.releaseLock)

/-- The end position of `erase_range`. -/
def rangeEnd (n : DataNode M P) (endKey : ℤ) (endKeyInclusive : Bool) :
    Option (ℕ × DataNode M P) :=
  if endKeyInclusive then n.upperBound endKey else n.lowerBound endKey

/-- Erase the keys from `startKey` up to `endKey`. -/
def eraseRange (T : KeyType) (n : DataNode M P) (startKey endKey : ℤ) (endKeyInclusive : Bool) :
    Option (ℕ × DataNode M P) := do
  let (pos, n) ← n.rangeEnd endKey endKeyInclusive
  if pos = 0 then some (0, n)
  else
    let nextKey ← n.nextKeyAt T pos
    let (s, numErased) ← n.toSlots.eraseWhile (fun k => decide (startKey ≤ k)) nextKey pos 0
    let n ← contract T { n with toSlots := s, numKeys := n.numKeys - numErased }
    some (numErased, n)

end DataNode

end LearnedIndex.Alexol
