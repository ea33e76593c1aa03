import LearnedIndex.Alexol.DataNode

/-! # Model nodes and the nodes of an index

`AlexModelNode` of `alex_nodes.h` with its reader/writer lock, and the arena that holds the nodes
of an index.

* **Addresses.** A node is named by its position in the arena; `new` appends.  Deleted nodes stay
  in the arena, unreachable.
* **Children.** `children_` is an uninitialised array of pointers: a slot that was never written
  is `none`, and reading it fails.
* **Locks.** The operations here are those of a single thread: a lock that is taken fails at once,
  and waiting for a reader or writer that never leaves is `none`. -/

namespace LearnedIndex.Alexol

/-- `AlexModelNode` with the fields it has from `AlexNode`. -/
structure ModelNode where
  isObsolete : Bool
  localDepth : ℕ
  level : ℤ
  model : LinearModel
  cost : ℚ
  lock : LockWord
  numChildren : ℕ
  children : List (Option NodeId)
deriving DecidableEq

/-- Write one pointer into `count` slots from `start` on. -/
def fillSlots (children : List (Option NodeId)) (start count : ℕ) (c : NodeId) :
    Option (List (Option NodeId)) :=
  if start + count ≤ children.length then
    some (children.take start ++ List.replicate count (some c) ++ children.drop (start + count))
  else none

namespace ModelNode

def new (level : ℤ) : ModelNode where
  isObsolete := false
  localDepth := 0
  level := level
  model := LinearModel.zero
  cost := 0
  lock := 0#32
  numChildren := 0
  children := []

/-- The slot of a key: the prediction clamped to the children. -/
def bucketOf (m : ModelNode) (key : ℤ) : ℕ :=
  (min (max (m.model.predict key) 0) ((m.numChildren : ℤ) - 1)).toNat

def childAt (m : ModelNode) (i : ℕ) : Option NodeId := (m.children[i]?).join

/-- `get_child_node`. -/
def getChildNode (m : ModelNode) (key : ℤ) : Option NodeId := m.childAt (m.bucketOf key)

/-- The value of the key at which slot `i` begins, `(i - b_) / a_`. -/
def edge (m : ModelNode) (i : ℕ) : ℚ := ((i : ℚ) - m.model.b) / m.model.a

/-- The number of slots a child of the given local depth takes. -/
def repeats (m : ModelNode) (localDepth : ℕ) : ℕ :=
  2 ^ (log2RoundDown m.numChildren - localDepth)

/-- First slot of the block of a child. -/
def blockStart (m : ModelNode) (bucketID localDepth : ℕ) : ℕ :=
  bucketID - bucketID % m.repeats localDepth

/-- Point the slots of a block at a child. -/
def setChildren (m : ModelNode) (start count : ℕ) (c : NodeId) : Option ModelNode :=
  (fillSlots m.children start count c).map (fun children => { m with children := children })

/-- `new_node->expand(old_node, log2_expansion_factor)`: every pointer is repeated. -/
def expand (old : ModelNode) (log2ExpansionFactor : ℕ) : ModelNode where
  isObsolete := false
  localDepth := old.localDepth
  level := old.level
  model := old.model.expand (2 ^ log2ExpansionFactor)
  cost := old.cost
  lock := old.lock
  numChildren := old.numChildren * 2 ^ log2ExpansionFactor
  children := old.children.flatMap (List.replicate (2 ^ log2ExpansionFactor))

/-! ### The reader/writer lock -/

def getReadLock (m : ModelNode) : Option ModelNode :=
  if isSet m.lock ∨ m.isObsolete then none
  else some { m with lock := ((m.lock &&& lockMask) + 1#32) &&& lockMask }

def releaseReadLock (m : ModelNode) : ModelNode := { m with lock := m.lock - 1#32 }

/-- `promote_from_read_to_write`: the caller gives up its own read lock. -/
def promoteFromReadToWrite (m : ModelNode) : Option ModelNode :=
  let lock := ((m.lock &&& lockMask) ||| lockSet) - 1#32
  if isSet m.lock ∨ m.isObsolete then none
  else if lock &&& lockMask = 0#32 then some { m with lock := lock }
  else none

def tryGetWriteLock (m : ModelNode) : Option (Bool × ModelNode) :=
  let lock := (m.lock &&& lockMask) ||| lockSet
  if isSet m.lock ∨ m.isObsolete then some (false, m)
  else if lock &&& lockMask = 0#32 then some (true, { m with lock := lock })
  else none

def releaseWriteLock (m : ModelNode) : ModelNode := { m with lock := 0#32 }

end ModelNode

/-! ### The arena -/

/-- `AlexNode`: a data node or a model node. -/
inductive Node (M P : Type) where
  | data (n : DataNode M P)
  | model (m : ModelNode)
deriving DecidableEq

namespace Node

variable {M P : Type}

def level : Node M P → ℤ
  | data n => n.level
  | model m => m.level

def localDepth : Node M P → ℕ
  | data n => n.localDepth
  | model m => m.localDepth

end Node

/-- The nodes allocated so far. -/
abbrev Heap (M P : Type) := List (Node M P)

namespace Heap

variable {M P : Type}

def dataAt (h : Heap M P) (id : NodeId) : Option (DataNode M P) :=
  match h[id]? with
  | some (.data n) => some n
  | _ => none

def modelAt (h : Heap M P) (id : NodeId) : Option ModelNode :=
  match h[id]? with
  | some (.model m) => some m
  | _ => none

def setData (h : Heap M P) (id : NodeId) (n : DataNode M P) : Heap M P := h.set id (.data n)

def setModel (h : Heap M P) (id : NodeId) (m : ModelNode) : Heap M P := h.set id (.model m)

/-- Update a data node; the address must be that of one. -/
def modifyData (h : Heap M P) (id : NodeId) (f : DataNode M P → DataNode M P) :
    Option (Heap M P) :=
  (h.dataAt id).map (fun n => h.setData id (f n))

def modifyModel (h : Heap M P) (id : NodeId) (f : ModelNode → ModelNode) : Option (Heap M P) :=
  (h.modelAt id).map (fun m => h.setModel id (f m))

end Heap

end LearnedIndex.Alexol
