import LearnedIndex.Alexol.ExpandRoot

/-! # Inserts (`alex.h`)

An insert counts keys outside the key domain and may expand the root, inserts into the leaf of the
key, and restructures the leaf when the leaf asks for it: it is resized, retrained or split. -/

namespace LearnedIndex.Alexol.Index

variable {M P : Type}

def kMinOutOfDomainKeys : ℤ := 100
def kMaxOutOfDomainKeys : ℤ := 1000
def kOutOfDomainToleranceFactor : ℤ := 2

/-- The criterion for `outOfDomain` keys on one side; the division is an `int` division. -/
def shouldExpand (s : Index M P) (outOfDomain atLastResize : ℤ) : Option Bool :=
  match s.heap[s.rootNode]? with
  | some (.data _) => some false
  | some (.model _) =>
      if kMinOutOfDomainKeys ≤ outOfDomain then
        if atLastResize = 0 then none
        else some (decide (kOutOfDomainToleranceFactor * (s.numKeys.tdiv atLastResize - 1) ≤
          outOfDomain) || decide (kMaxOutOfDomainKeys ≤ outOfDomain))
      else some false
  | none => none

def shouldExpandRight (s : Index M P) : Option Bool :=
  s.shouldExpand s.numKeysAboveKeyDomain s.numKeysAtLastRightDomainResize

def shouldExpandLeft (s : Index M P) : Option Bool :=
  s.shouldExpand s.numKeysBelowKeyDomain s.numKeysAtLastLeftDomainResize

variable [NodeModel M]

/-- Expand the root under the write lock of the superroot, if that is free. -/
def expandLocked (D : Doubles) (C : Params M P) (s : Index M P) (key : ℤ) (expandLeft : Bool) :
    Option (Index M P) := do
  let sr ← s.heap.modelAt s.superroot
  match ← sr.tryGetWriteLock with
  | (false, _) => some s
  | (true, sr) =>
      let s ← expandRoot D C { s with heap := s.heap.setModel s.superroot sr } key expandLeft
      let h ← s.heap.modifyModel s.superroot ModelNode.releaseWriteLock
      some { s with heap := h }

/-- The first part of `insert`: a key outside the domain is counted and may expand it. -/
def expandDomain (D : Doubles) (C : Params M P) (s : Index M P) (key : ℤ) :
    Option (Index M P) := do
  if s.keyDomainMax < key then
    let s := { s with numKeysAboveKeyDomain := s.numKeysAboveKeyDomain + 1 }
    if ← s.shouldExpandRight then expandLocked D C s key false else some s
  else if key < s.keyDomainMin then
    let s := { s with numKeysBelowKeyDomain := s.numKeysBelowKeyDomain + 1 }
    if ← s.shouldExpandLeft then expandLocked D C s key true else some s
  else some s

/-- `insert_counter`: every `2^19`-th insert changes `num_keys`. -/
def countInserted (s : Index M P) : Index M P :=
  let counter := (s.insertCounter + 1) &&& counterMask
  { s with
    insertCounter := counter
    numKeys := if counter = 0 then s.numKeys + 2 ^ 19 else s.numKeys }

/-- The fanout for a leaf whose insert failed with `fail`: the depth, the used nodes of the fanout
tree (none for a split in two) and the leaf with its counters. -/
def chooseFanout (C : Params M P) (s : Index M P) (n : DataNode M P) (fail : ℤ) :
    Option (ℕ × List (FTNode M) × DataNode M P) :=
  if C.splittingPolicyMethod = .alwaysTwo ∨ 2 ≤ fail then some (1, [], n)
  else if C.splittingPolicyMethod = .noneOrTwo then
    FanoutTree.findBestFanoutExistingNode C n s.numKeys 2
  else FanoutTree.findBestFanoutExistingNode C n s.numKeys C.maxFanout

/-- Retrain or split a leaf. -/
def restructure (C : Params M P) (s : Index M P) (leaf : NodeId) (key fail : ℤ) :
    Option (Index M P) := do
  let n ← s.heap.dataAt leaf
  let (depth, used, n) ← chooseFanout C s n fail
  let s := { s with heap := s.heap.setData leaf n }
  if depth = 0 then
    let t ← used.head?
    resizeLeaf C s key leaf (some t)
  else splitSidewaysDownwards C s leaf depth used (decide (fail = 3)) key

/-- What `insert` does after the leaf has returned its flag; without an answer it retries. -/
def afterInsert (C : Params M P) (s : Index M P) (leaf : NodeId) (key fail : ℤ) :
    Option (Index M P × Option Bool) := do
  if fail = 0 then some (s.countInserted, some true)
  else if fail = -1 then some (s, some false)
  else if fail = 4 then some (s, none)
  else if fail = 5 then
    let s ← resizeLeaf C s key leaf none
    some (s, some true)
  else
    let s ← restructure C s leaf key fail
    some (s.countInserted, some true)

/-- One round of `insert`, up to `goto RETRY`. -/
def insertRound (C : Params M P) (s : Index M P) (key : ℤ) (payload : P) :
    Option (Index M P × Option Bool) := do
  let s ← expandDomain Doubles.exact C s key
  let leaf ← s.getLeaf key
  let n ← s.heap.dataAt leaf
  let (n, fail, _) ← n.insert false key payload
  afterInsert C { s with heap := s.heap.setData leaf n } leaf key fail

/-- `insert`, with a bound on the number of retries. -/
def insert (C : Params M P) : ℕ → Index M P → ℤ → P → Option (Bool × Index M P)
  | 0, _, _, _ => none
  | fuel + 1, s, key, payload => do
      match ← insertRound C s key payload with
      | (s, some inserted) => some (inserted, s)
      | (s, none) => insert C fuel s key payload

end LearnedIndex.Alexol.Index
