import LearnedIndex.Btreeolc.Model
import LearnedIndex.Lib.Atomic

/-! # `insert` and `lookup` by many threads

The nodes lie in a heap, each with its lock word `typeVersionLockObsolete`.  A thread is at a place
of the code (`Pc`), and one action of a thread is one access to shared memory (`advance`), so that
any interleaving of such actions is a run.

A node is read between two loads of its lock word.  While the word is the version that was loaded,
the node is not written and the read is exact; otherwise its result is whatever the action says
(`Torn`), since the node may be half written.  What is read in a node under its own lock is exact.
The writes of a split are one action: the nodes it writes are locked or not reachable yet, so that
others see nothing of them but torn reads.

An access to an address that was never allocated has no next state, and neither has a failing
`assert`. -/

namespace LearnedIndex.Btreeolc

open Machine

variable {θ K V : Type} [LinearOrder K]

/-! ### Nodes with a lock -/

/-- `OptLock::isLocked`. -/
def isLocked (version : BitVec 64) : Bool := version &&& 0b10#64 == 0b10#64

/-- `OptLock::isObsolete`. -/
def isObsolete (version : BitVec 64) : Bool := version &&& 1#64 == 1#64

/-- What a node stores, by `NodeBase::type`. -/
inductive Page (K V : Type) where
  | leaf (leaf : BTreeLeaf K V)
  | inner (inner : BTreeInner K ℕ)

namespace Page

def isFull : Page K V → Bool
  | .leaf node => node.isFull
  | .inner node => node.isFull

/-- `split` of either kind of node. -/
def split (addr : ℕ) : Page K V → Option (K × Page K V × Page K V)
  | .leaf node => (node.split addr).map (fun (sep, left, right) => (sep, .leaf left, .leaf right))
  | .inner node => node.split.map (fun (sep, left, right) => (sep, .inner left, .inner right))

end Page

/-- The search of `lookup` in a leaf: the value that it writes to `result`, if it does. -/
def BTreeLeaf.read (junk : K) (leaf : BTreeLeaf K V) (k : K) : Option V :=
  (leaf.data[leaf.lowerBound junk k]?).bind (fun e => if e.1 = k then some e.2 else none)

/-- The memory that threads share. -/
structure Heap (K V : Type) where
  pages : ℕ → Option (Page K V)
  word : ℕ → BitVec 64
  root : ℕ
  nextAddr : ℕ

namespace Heap
variable (h : Heap K V)

/-- `typeVersionLockObsolete.load()`. -/
def load (node : ℕ) : Option (BitVec 64) := (h.pages node).map (fun _ => h.word node)

/-- `readLockOrRestart`: the version, or nothing when the caller has to restart. -/
def readLockOrRestart (node : ℕ) : Option (Option (BitVec 64)) :=
  (h.load node).map (fun version =>
    if isLocked version || isObsolete version then none else some version)

/-- `readUnlockOrRestart` and `checkOrRestart`: whether the version is still that of the node. -/
def check (node : ℕ) (version : BitVec 64) : Option Bool :=
  (h.load node).map (fun word => decide (word = version))

/-- The same heap with another lock word. -/
def setWord (node : ℕ) (word : BitVec 64) : Heap K V :=
  { h with word := Function.update h.word node word }

/-- `upgradeToWriteLockOrRestart`: the heap with the node locked, or nothing when the caller has to
restart. -/
def upgradeToWriteLockOrRestart (node : ℕ) (version : BitVec 64) : Option (Option (Heap K V)) :=
  (h.load node).map (fun word =>
    if word = version then some (h.setWord node (version + 0b10#64)) else none)

/-- `writeUnlock`. -/
def writeUnlock (node : ℕ) : Option (Heap K V) :=
  (h.load node).map (fun word => h.setWord node (word + 0b10#64))

def write (node : ℕ) (page : Page K V) : Heap K V :=
  { h with pages := Function.update h.pages node (some page) }

/-- `new`: the node gets the next address and an open lock. -/
def new (page : Page K V) : Heap K V :=
  { h with
    pages := Function.update h.pages h.nextAddr (some page)
    word := Function.update h.word h.nextAddr 0b100#64
    nextAddr := h.nextAddr + 1 }

/-- `makeRoot`. -/
def makeRoot (k : K) (leftChild rightChild : ℕ) : Heap K V :=
  { h.new (.inner ⟨[k], [leftChild, rightChild]⟩) with root := h.nextAddr }

omit [LinearOrder K]

section access
variable {h} {node : ℕ}

theorem load_eq (hn : (h.pages node).isSome) : h.load node = some (h.word node) := by
  obtain ⟨page, hpage⟩ := Option.isSome_iff_exists.mp hn
  rw [load, hpage, Option.map_some]

theorem readLockOrRestart_eq (hn : (h.pages node).isSome) : h.readLockOrRestart node =
    some (if isLocked (h.word node) || isObsolete (h.word node) then none
      else some (h.word node)) := by
  rw [readLockOrRestart, load_eq hn, Option.map_some]

theorem check_eq (hn : (h.pages node).isSome) (version : BitVec 64) :
    h.check node version = some (decide (h.word node = version)) := by
  rw [check, load_eq hn, Option.map_some]

theorem upgradeToWriteLockOrRestart_eq (hn : (h.pages node).isSome) (version : BitVec 64) :
    h.upgradeToWriteLockOrRestart node version = some (if h.word node = version then
      some (h.setWord node (version + 0b10#64)) else none) := by
  rw [upgradeToWriteLockOrRestart, load_eq hn, Option.map_some]

theorem writeUnlock_eq (hn : (h.pages node).isSome) :
    h.writeUnlock node = some (h.setWord node (h.word node + 0b10#64)) := by
  rw [writeUnlock, load_eq hn, Option.map_some]

end access

@[simp] theorem setWord_pages (node : ℕ) (word : BitVec 64) :
    (h.setWord node word).pages = h.pages := rfl
@[simp] theorem setWord_word (node : ℕ) (word : BitVec 64) :
    (h.setWord node word).word = Function.update h.word node word := rfl
@[simp] theorem setWord_root (node : ℕ) (word : BitVec 64) :
    (h.setWord node word).root = h.root := rfl
@[simp] theorem setWord_nextAddr (node : ℕ) (word : BitVec 64) :
    (h.setWord node word).nextAddr = h.nextAddr := rfl

@[simp] theorem write_pages (node : ℕ) (page : Page K V) :
    (h.write node page).pages = Function.update h.pages node (some page) := rfl
@[simp] theorem write_word (node : ℕ) (page : Page K V) : (h.write node page).word = h.word := rfl
@[simp] theorem write_root (node : ℕ) (page : Page K V) : (h.write node page).root = h.root := rfl
@[simp] theorem write_nextAddr (node : ℕ) (page : Page K V) :
    (h.write node page).nextAddr = h.nextAddr := rfl

@[simp] theorem new_pages (page : Page K V) :
    (h.new page).pages = Function.update h.pages h.nextAddr (some page) := rfl
@[simp] theorem new_word (page : Page K V) :
    (h.new page).word = Function.update h.word h.nextAddr 0b100#64 := rfl
@[simp] theorem new_root (page : Page K V) : (h.new page).root = h.root := rfl
@[simp] theorem new_nextAddr (page : Page K V) : (h.new page).nextAddr = h.nextAddr + 1 := rfl

@[simp] theorem makeRoot_pages (k : K) (leftChild rightChild : ℕ) :
    (h.makeRoot k leftChild rightChild).pages = Function.update h.pages h.nextAddr
      (some (.inner ⟨[k], [leftChild, rightChild]⟩)) := rfl
@[simp] theorem makeRoot_word (k : K) (leftChild rightChild : ℕ) :
    (h.makeRoot k leftChild rightChild).word = Function.update h.word h.nextAddr 0b100#64 := rfl
@[simp] theorem makeRoot_root (k : K) (leftChild rightChild : ℕ) :
    (h.makeRoot k leftChild rightChild).root = h.nextAddr := rfl
@[simp] theorem makeRoot_nextAddr (k : K) (leftChild rightChild : ℕ) :
    (h.makeRoot k leftChild rightChild).nextAddr = h.nextAddr + 1 := rfl

end Heap

namespace Heap
variable (h : Heap K V)

/-- The writes of a split: the node is split, and its parent takes the new node. -/
def split (parent : Option ℕ) (node : ℕ) : Option (Heap K V) := do
  let page ← h.pages node
  let (sep, left, right) ← page.split h.nextAddr
  let newNode := h.nextAddr
  let h := (h.write node left).new right
  match parent with
  | none => some (h.makeRoot sep node newNode)
  | some parent =>
      match ← h.pages parent with
      | .inner inner =>
          -- the assertion of `BTreeInner::insert`
          if inner.keys.length < innerMax - 1 then
            some (h.write parent (.inner (inner.insert sep newNode)))
          else none
      | .leaf _ => none

end Heap

/-! ### Threads -/

/-- A call of the index. -/
inductive Op (K V : Type) where
  | insert (k : K) (v : V)
  | lookup (k : K)
  deriving DecidableEq

def Op.key : Op K V → K
  | .insert k _ => k
  | .lookup k => k

/-- What a call returns; for `lookup` the flag `success`, and what it has written to `result`. -/
inductive Answer (V : Type) where
  | inserted (ret : Bool)
  | found (success : Bool) (result : Option V)
  deriving DecidableEq

/-- What `lookup` ends with if it does not find the key: `success` is not initialised, and an
attempt before a restart may have written `result`. -/
structure Leftover (V : Type) where
  success : Bool
  result : Option V

/-- The answer of `lookup` by what it finds. -/
def Leftover.answer {V : Type} (left : Leftover V) : Option V → Answer V
  | some v => .found true (some v)
  | none => .found left.success left.result

/-- A node with the version at which it was read. -/
abbrev Versioned := ℕ × BitVec 64

/-- The next access of a thread, with the variables of the code that are still in use: `parent` is
`nullptr` at the root. -/
inductive Pc (K V : Type) where
  | idle
  /-- `node = root` -/
  | start (op : Op K V)
  | readLock (op : Op K V) (node : ℕ)
  /-- `node != root` -/
  | checkRoot (op : Op K V) (node : ℕ) (version : BitVec 64)
  /-- the type of the node, and `isFull` or the search in a leaf -/
  | visit (op : Op K V) (parent : Option Versioned) (node : ℕ) (version : BitVec 64)
  | checkParent (op : Op K V) (parent : Versioned) (node : ℕ) (version : BitVec 64)
  | readChild (op : Op K V) (node : ℕ) (version : BitVec 64)
  | checkNode (op : Op K V) (node : ℕ) (version : BitVec 64) (child : ℕ)
  | enter (op : Op K V) (parent : Versioned) (node : ℕ)
  | lockParent (k : K) (v : V) (parent : Versioned) (node : ℕ) (version : BitVec 64)
  | lockNode (k : K) (v : V) (parent : Option ℕ) (node : ℕ) (version : BitVec 64)
  /-- `!parent && (node != root)` -/
  | recheckRoot (k : K) (v : V) (node : ℕ)
  | split (k : K) (v : V) (parent : Option ℕ) (node : ℕ)
  | unlockNode (k : K) (v : V) (parent : Option ℕ) (node : ℕ)
  | unlockParent (k : K) (v : V) (parent : ℕ)
  | lockLeaf (k : K) (v : V) (parent : Option Versioned) (node : ℕ) (version : BitVec 64)
  | leafCheckParent (k : K) (v : V) (parent : Versioned) (node : ℕ)
  | leafInsert (k : K) (v : V) (node : ℕ)
  | leafUnlock (node : ℕ) (ret : Bool)
  | lookupCheckParent (k : K) (parent : Versioned) (node : ℕ) (version : BitVec 64)
      (result : Option V)
  | lookupCheckNode (k : K) (node : ℕ) (version : BitVec 64) (result : Option V)
  | done (ans : Answer V)

/-- What is read in a node that is being written, and what a lookup that fails ends with. -/
structure Torn (V : Type) where
  full : Bool
  child : ℕ
  result : Option V
  leftover : Leftover V

/-- One access of a thread inside `insert` or `lookup`.  A failed check goes to `start`
(`goto restart`), after the locks that are held are released. -/
def advance (junk : K) (h : Heap K V) (torn : Torn V) : Pc K V → Option (Heap K V × Pc K V)
  | .idle => none
  | .start op => some (h, .readLock op h.root)
  | .readLock op node => do
      let version ← h.readLockOrRestart node
      some (h, version.elim (.start op) (.checkRoot op node))
  | .checkRoot op node version =>
      some (h, if node = h.root then .visit op none node version else .start op)
  | .visit (.insert k v) parent node version => do
      let page ← h.pages node
      let full := if h.word node = version then page.isFull else torn.full
      if full then
        some (h, parent.elim (.lockNode k v none node version)
          (fun parent => .lockParent k v parent node version))
      else
        match page with
        | .inner _ => some (h, parent.elim (.readChild (.insert k v) node version)
            (fun parent => .checkParent (.insert k v) parent node version))
        | .leaf _ => some (h, .lockLeaf k v parent node version)
  | .visit (.lookup k) parent node version => do
      match ← h.pages node with
      | .inner _ => some (h, parent.elim (.readChild (.lookup k) node version)
          (fun parent => .checkParent (.lookup k) parent node version))
      | .leaf leaf =>
          let result := if h.word node = version then leaf.read junk k else torn.result
          some (h, parent.elim (.lookupCheckNode k node version result)
            (fun parent => .lookupCheckParent k parent node version result))
  | .checkParent op parent node version => do
      let same ← h.check parent.1 parent.2
      some (h, if same then .readChild op node version else .start op)
  | .readChild op node version => do
      match ← h.pages node with
      | .inner inner => do
          let child ← if h.word node = version then inner.children[inner.lowerBound op.key]?
            else some torn.child
          some (h, .checkNode op node version child)
      | .leaf _ => none
  | .checkNode op node version child => do
      let same ← h.check node version
      some (h, if same then .enter op (node, version) child else .start op)
  | .enter op parent node => do
      let version ← h.readLockOrRestart node
      some (h, version.elim (.start op) (.visit op (some parent) node))
  | .lockParent k v parent node version => do
      let locked ← h.upgradeToWriteLockOrRestart parent.1 parent.2
      some (locked.elim (h, .start (.insert k v))
        (fun h => (h, .lockNode k v (some parent.1) node version)))
  | .lockNode k v parent node version => do
      let locked ← h.upgradeToWriteLockOrRestart node version
      some (locked.elim (h, parent.elim (.start (.insert k v)) (.unlockParent k v))
        (fun h => (h, parent.elim (.recheckRoot k v node)
          (fun parent => .split k v (some parent) node))))
  | .recheckRoot k v node =>
      some (h, if node = h.root then .split k v none node else .unlockNode k v none node)
  | .split k v parent node => do
      let h ← h.split parent node
      some (h, .unlockNode k v parent node)
  | .unlockNode k v parent node => do
      let h ← h.writeUnlock node
      some (h, parent.elim (.start (.insert k v)) (.unlockParent k v))
  | .unlockParent k v parent => do
      let h ← h.writeUnlock parent
      some (h, .start (.insert k v))
  | .lockLeaf k v parent node version => do
      let locked ← h.upgradeToWriteLockOrRestart node version
      some (locked.elim (h, .start (.insert k v))
        (fun h => (h, parent.elim (.leafInsert k v node)
          (fun parent => .leafCheckParent k v parent node))))
  | .leafCheckParent k v parent node => do
      let same ← h.check parent.1 parent.2
      some (h, if same then .leafInsert k v node else .unlockNode k v none node)
  | .leafInsert k v node => do
      match ← h.pages node with
      | .leaf leaf =>
          -- the assertion of `BTreeLeaf::insert`
          if leaf.data.length < leafMax then
            let (ret, leaf) := leaf.insert k v
            some (h.write node (.leaf leaf), .leafUnlock node ret)
          else none
      | .inner _ => none
  | .leafUnlock node ret => do
      let h ← h.writeUnlock node
      some (h, .done (.inserted ret))
  | .lookupCheckParent k parent node version result => do
      let same ← h.check parent.1 parent.2
      some (h, if same then .lookupCheckNode k node version result else .start (.lookup k))
  | .lookupCheckNode k node version result => do
      let same ← h.check node version
      some (h, if same then .done (torn.leftover.answer result) else .start (.lookup k))
  | .done _ => none

/-! ### Runs -/

/-- A tree in use by the threads `θ`. -/
structure Shared (θ K V : Type) where
  heap : Heap K V
  pc : θ → Pc K V

/-- A thread calls an operation, takes one access, or returns. -/
inductive Action (θ K V : Type) where
  | call (t : θ) (op : Op K V)
  | step (t : θ) (torn : Torn V)
  | ret (t : θ)

namespace Shared
variable [DecidableEq θ]

/-- The constructor `BTree()`: an empty leaf, and no thread inside an operation. -/
def init : Shared θ K V where
  heap := { pages := fun n => if n = 0 then some (.leaf ⟨0, [], none⟩) else none
            word := fun _ => 0b100#64
            root := 0
            nextAddr := 1 }
  pc := fun _ => .idle

def step (junk : K) (s : Shared θ K V) : Action θ K V → Option (Shared θ K V)
  | .call t op =>
      match s.pc t with
      | .idle => some { s with pc := Function.update s.pc t (.start op) }
      | _ => none
  | .step t torn =>
      (advance junk s.heap torn (s.pc t)).map (fun (h, pc) => ⟨h, Function.update s.pc t pc⟩)
  | .ret t =>
      match s.pc t with
      | .done _ => some { s with pc := Function.update s.pc t .idle }
      | _ => none

/-- The calls and returns. -/
def event (s : Shared θ K V) : Action θ K V → Option (Event θ (Op K V) (Answer V))
  | .call t op => some (.call t op)
  | .step _ _ => none
  | .ret t =>
      match s.pc t with
      | .done ans => some (.ret t ans)
      | _ => none

/-- No lock word is about to wrap around: that takes `2 ^ 62` locks of one node. -/
def NoWrap (s : Shared θ K V) (_ : Action θ K V) : Prop :=
  ∀ n < s.heap.nextAddr, (s.heap.word n).toNat + 2 < 2 ^ 64

end Shared

/-! ### What the operations mean -/

/-- The effect of an operation on a map: a key keeps the value of its first insertion.  What a
lookup of a key without a value returns is left open. -/
def Op.apply : Op K V → Leftover V → (K → Option V) → Answer V × (K → Option V)
  | .insert k v, _, f => if f k = none then (.inserted true, Function.update f k (some v))
      else (.inserted false, f)
  | .lookup k, left, f => (left.answer (f k), f)

end LearnedIndex.Btreeolc
