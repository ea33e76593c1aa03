import Mathlib.Tactic
import Mathlib.Order.Basic

/-! # The B+-tree of `BTreeOLC_child_layout.h`

A tree with 8-byte keys and values, used by one thread, so that every lock is free and every version
check succeeds.  A node holds the first `count` entries of its arrays as lists, and all leaves have
the same height.  Leaves are linked by `next_leaf`; such a pointer is the address of a leaf, and
since no leaf is ever removed it is followed by looking for that address among the leaves of the
tree.

`insert` runs from the root to a leaf.  A full node on the way is split and the run starts again at
the root (`goto restart`); `attempt` is one such run.  Reads outside an array give `none`, and
`junk` is the content of memory that was never written. -/

namespace LearnedIndex.Btreeolc

variable {K V : Type} [LinearOrder K]

/-- `BTreeLeaf<Key, Payload>::maxEntries`: `(512 - 16) / 16`. -/
def leafMax : ℕ := 31

/-- `BTreeInner<Key>::maxEntries`: `(512 - 16) / (8 + 8)`. -/
def innerMax : ℕ := 31

/-! ### Search in a node -/

/-- The `do … while (lower < upper)` loop of `lowerBound`.  The interval gets shorter in every
iteration, so that `count + 1` iterations are always enough. -/
def lowerBoundFrom (key : ℕ → K) (k : K) : ℕ → ℕ → ℕ → ℕ
  | 0, lower, _ => lower
  | fuel + 1, lower, upper =>
      let mid := (upper - lower) / 2 + lower
      if k < key mid then
        if lower < mid then lowerBoundFrom key k fuel lower mid else lower
      else if key mid < k then
        if mid + 1 < upper then lowerBoundFrom key k fuel (mid + 1) upper else mid + 1
      else mid

/-- `lowerBound` in an array of `count` keys. -/
def lowerBound (junk : K) (keys : List K) (k : K) : ℕ :=
  lowerBoundFrom (fun i => keys.getD i junk) k (keys.length + 1) 0 keys.length

/-! ### Leaves -/

/-- `BTreeLeaf`. -/
structure BTreeLeaf (K V : Type) where
  addr : ℕ
  data : List (K × V)
  nextLeaf : Option ℕ

namespace BTreeLeaf

def isFull (leaf : BTreeLeaf K V) : Bool := leaf.data.length == leafMax

def lowerBound (junk : K) (leaf : BTreeLeaf K V) (k : K) : ℕ :=
  Btreeolc.lowerBound junk (leaf.data.map Prod.fst) k

/-- `BTreeLeaf::insert`; the assignment that would update the value of an existing key is commented
out in the source. -/
def insert (leaf : BTreeLeaf K V) (k : K) (v : V) : Bool × BTreeLeaf K V :=
  if leaf.data.length ≠ 0 then
    let pos := leaf.lowerBound k k
    if (leaf.data[pos]?).map Prod.fst = some k then (false, leaf)
    else (true, { leaf with data := leaf.data.insertIdx pos (k, v) })
  else (true, { leaf with data := [(k, v)] })

/-- `BTreeLeaf::split`: the separator, this leaf and the new leaf at address `addr`. -/
def split (leaf : BTreeLeaf K V) (addr : ℕ) : Option (K × BTreeLeaf K V × BTreeLeaf K V) := do
  let newCount := leaf.data.length - leaf.data.length / 2
  let count := leaf.data.length - newCount
  let (sep, _) ← leaf.data[count - 1]?
  some (sep, { leaf with data := leaf.data.take count, nextLeaf := some addr },
    { addr := addr, data := leaf.data.drop count, nextLeaf := none })

end BTreeLeaf

/-! ### Inner nodes -/

/-- `BTreeInner`, with children of type `α`. -/
structure BTreeInner (K α : Type) where
  keys : List K
  children : List α

namespace BTreeInner
variable {α : Type}

def isFull (inner : BTreeInner K α) : Bool := inner.keys.length == innerMax - 1

def lowerBound (inner : BTreeInner K α) (k : K) : ℕ := Btreeolc.lowerBound k inner.keys k

/-- `BTreeInner::split`: the separator, this node and the new one. -/
def split (inner : BTreeInner K α) : Option (K × BTreeInner K α × BTreeInner K α) := do
  let newCount := inner.keys.length - inner.keys.length / 2
  let count := inner.keys.length - newCount - 1
  let sep ← inner.keys[count]?
  some (sep, ⟨inner.keys.take count, inner.children.take (count + 1)⟩,
    ⟨inner.keys.drop (count + 1), inner.children.drop (count + 1)⟩)

/-- `BTreeInner::insert`: the new child follows the child that was split. -/
def insert (inner : BTreeInner K α) (k : K) (child : α) : BTreeInner K α :=
  let pos := inner.lowerBound k
  ⟨inner.keys.insertIdx pos k, inner.children.insertIdx (pos + 1) child⟩

/-- A child after a change below it. -/
def setChild (inner : BTreeInner K α) (pos : ℕ) (child : α) : BTreeInner K α :=
  { inner with children := inner.children.set pos child }

end BTreeInner

/-- `NodeBase`: a leaf or an inner node, by height. -/
@[reducible] def Node (K V : Type) : ℕ → Type
  | 0 => BTreeLeaf K V
  | h + 1 => BTreeInner K (Node K V h)

/-! ### `BTree::insert` -/

/-- How a run from the root ends at a node: the key was handled in a leaf, something below was
split, or the node itself was split and its parent has to take the new node. -/
inductive Outcome (K α : Type) where
  | done (inserted : Bool) (node : α)
  | restart (node : α)
  | split (sep : K) (node newNode : α)

/-- What a parent makes of the outcome at its child `pos`. -/
def Outcome.up {α : Type} (inner : BTreeInner K α) (pos : ℕ) :
    Outcome K α → Outcome K (BTreeInner K α)
  | .done ret node => .done ret (inner.setChild pos node)
  | .restart node => .restart (inner.setChild pos node)
  | .split sep node newNode => .restart ((inner.setChild pos node).insert sep newNode)

/-- One run of `insert` below a node.  A leaf that is split gets its new sibling at `addr`. -/
def attempt (k : K) (v : V) (addr : ℕ) : (h : ℕ) → Node K V h → Option (Outcome K (Node K V h))
  | 0, (leaf : BTreeLeaf K V) =>
      if leaf.isFull then
        (leaf.split addr).map (fun (sep, leaf, newLeaf) => .split sep leaf newLeaf)
      else
        let (ret, leaf) := leaf.insert k v
        some (.done ret leaf)
  | h + 1, (inner : BTreeInner K (Node K V h)) =>
      if inner.isFull then
        inner.split.map (fun (sep, inner, newInner) => .split sep inner newInner)
      else do
        let pos := inner.lowerBound k
        let node ← inner.children[pos]?
        let outcome ← attempt k v addr h node
        some (outcome.up inner pos)

/-- `BTree`, with the address of the next node that is allocated. -/
structure BTree (K V : Type) where
  height : ℕ
  root : Node K V height
  nextAddr : ℕ

namespace BTree

/-- The constructor: an empty leaf. -/
def empty : BTree K V := ⟨0, (⟨0, [], none⟩ : BTreeLeaf K V), 1⟩

/-- `makeRoot`. -/
def makeRoot {h : ℕ} (k : K) (leftChild rightChild : Node K V h) (nextAddr : ℕ) : BTree K V :=
  ⟨h + 1, (⟨[k], [leftChild, rightChild]⟩ : BTreeInner K (Node K V h)), nextAddr⟩

/-- Runs from the root until one reaches a leaf without a split. -/
def insertLoop (k : K) (v : V) : ℕ → BTree K V → Option (Bool × BTree K V)
  | 0, _ => none
  | fuel + 1, t => do
      match ← attempt k v t.nextAddr t.height t.root with
      | .done ret root => some (ret, { t with root := root })
      | .restart root => insertLoop k v fuel { t with root := root, nextAddr := t.nextAddr + 1 }
      | .split sep node newNode =>
          insertLoop k v fuel (makeRoot sep node newNode (t.nextAddr + 1))

end BTree

/-- The sum of the squares of the counts.  Every split makes it smaller, so that it bounds the
number of runs of `insert`. -/
def potential : (h : ℕ) → Node K V h → ℕ
  | 0, (leaf : BTreeLeaf K V) => leaf.data.length * leaf.data.length
  | h + 1, (inner : BTreeInner K (Node K V h)) =>
      inner.keys.length * inner.keys.length + (inner.children.map (potential h)).sum

/-- `BTree::insert`. -/
def BTree.insert (t : BTree K V) (k : K) (v : V) : Option (Bool × BTree K V) :=
  t.insertLoop k v (potential t.height t.root + 1)

/-! ### `BTree::lookup` and `BTree::scan` -/

/-- The descent to the leaf for a key. -/
def findLeaf (k : K) : (h : ℕ) → Node K V h → Option (BTreeLeaf K V)
  | 0, (leaf : BTreeLeaf K V) => some leaf
  | h + 1, (inner : BTreeInner K (Node K V h)) =>
      (inner.children[inner.lowerBound k]?).bind (findLeaf k h)

/-- The leaves from left to right. -/
def leaves : (h : ℕ) → Node K V h → List (BTreeLeaf K V)
  | 0, (leaf : BTreeLeaf K V) => [leaf]
  | h + 1, (inner : BTreeInner K (Node K V h)) => inner.children.flatMap (leaves h)

namespace BTree

/-- The leaf at an address. -/
def deref (t : BTree K V) (addr : ℕ) : Option (BTreeLeaf K V) :=
  (leaves t.height t.root).find? (fun leaf => leaf.addr == addr)

/-- `BTree::lookup`: the returned flag and the value that is written to `result`, if one is.  The
flag is not initialised in the source, so that it starts with what the stack holds. -/
def lookup (junk : K) (stack : Bool) (t : BTree K V) (k : K) : Option (Bool × Option V) := do
  let leaf ← findLeaf k t.height t.root
  let pos := leaf.lowerBound junk k
  match leaf.data[pos]? with
  | some (key, value) => some (if key = k then (true, some value) else (stack, none))
  | none => some (stack, none)

/-- `while (node && count < range)` of `scan`, with the entries written so far.  A leaf is visited
at most once. -/
def scanLoop (junk : K) (t : BTree K V) (k : K) (range : ℕ) :
    ℕ → Option (BTreeLeaf K V) → List (K × V) → Option (List (K × V))
  | _, none, output => some output
  | 0, some _, output => if output.length < range then none else some output
  | fuel + 1, some leaf, output =>
      if output.length < range then
        let pos := if output.length = 0 then leaf.lowerBound junk k else 0
        let output := output ++ (leaf.data.drop pos).take (range - output.length)
        match leaf.nextLeaf with
        | none => some output
        | some addr => do
            let next ← t.deref addr
            scanLoop junk t k range fuel (some next) output
      else some output

/-- `BTree::scan`: the entries written to `output`, whose number is returned. -/
def scan (junk : K) (t : BTree K V) (k : K) (range : ℕ) : Option (List (K × V)) := do
  let leaf ← findLeaf k t.height t.root
  t.scanLoop junk k range (leaves t.height t.root).length (some leaf) []

/-- A sequence of insertions. -/
def insertAll (t : BTree K V) : List (K × V) → Option (BTree K V)
  | [] => some t
  | (k, v) :: rest => do
      let (_, t) ← t.insert k v
      t.insertAll rest

end BTree

end LearnedIndex.Btreeolc
