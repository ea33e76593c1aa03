import LearnedIndex.Lib.Machine
import LearnedIndex.Lib.Chains

/-! # Relinking of the leaves by concurrent restructurings (`alex.h`)

Any number of threads resize or split leaves at the same time.  Every lock operation and every read
or write of a link is one action.

* **The tree.**  `tree` is the list of the leaves that the child pointers of the model nodes lead
  to, in key order.  The writes of the child pointers happen under the lock of the parent and are
  one action, which puts the new leaves in the place of the old one.
  Every leaf has a range of keys from `lo` to `hi`, which the leaves that replace it share out.
* **Locks.**  A lock is free or belongs to the thread that set its bit.  A release clears the bit,
  whoever set it.  The lock and the link lock of a replaced leaf are never released.
* **Loops.**  `get_link_lock` waits, so it is not enabled while the lock is taken.

A thread begins at `locked`: it holds `lock_` of a leaf.  It then returns (an insert that needs no
restructuring), or makes new leaves and goes through `link_resizing_data_nodes` or
`link_data_nodes` and the releases. -/

namespace LearnedIndex.Alexol.LeafLinks

open LearnedIndex.Machine LearnedIndex.Chains

/-- A leaf is replaced by one leaf or by several. -/
inductive Kind where
  | resize
  | split
deriving DecidableEq

/-- The replacement of `old` by the new leaves `first :: rest`. -/
structure Job (ν : Type) where
  kind : Kind
  old : ν
  first : ν
  rest : List ν
deriving DecidableEq

namespace Job
variable {ν : Type}

def news (j : Job ν) : List ν := j.first :: j.rest

def last (j : Job ν) : ν := j.news.getLast (List.cons_ne_nil _ _)

theorem news_ne_nil (j : Job ν) : j.news ≠ [] := List.cons_ne_nil _ _

theorem first_mem (j : Job ν) : j.first ∈ j.news := List.mem_cons_self ..

theorem last_mem (j : Job ν) : j.last ∈ j.news := List.getLast_mem _

theorem getLast?_news (j : Job ν) : j.news.getLast? = some j.last := List.getLast?_eq_some_getLast _

end Job

/-- Where a thread is; the names say what comes next. -/
inductive Pc (ν : Type) where
  | idle
  | locked (old : ν)
  /-- The new leaves are made; the parent is next. -/
  | publish (j : Job ν)
  | readPrev (j : Job ν)
  | tryPrev (j : Job ν) (prevLeaf : ν)
  | recheck (j : Job ν) (prevLeaf : ν)
  | unlockPrev (j : Job ν) (prevLeaf : ν)
  | setNext (j : Job ν) (prevLeaf : ν)
  | setPrev (j : Job ν) (prevLeaf : ν)
  | lockLast (j : Job ν)
  | lockOld (j : Job ν)
  | readNext (j : Job ν)
  | setLastNext (j : Job ν) (nextLeaf : ν)
  | setNextPrev (j : Job ν) (nextLeaf : ν)
  /-- A resize releases `lock_` of the new leaf before the link locks. -/
  | unlockNew (j : Job ν)
  | readFirstPrev (j : Job ν)
  | unlockFirstPrev (j : Job ν) (prevLeaf : ν)
  | unlockLast (j : Job ν)
  /-- A split releases `lock_` of the new leaves at last. -/
  | unlockLeaves (leaves : List ν)
deriving DecidableEq

structure State (θ ν : Type) where
  next : ν → Option ν
  prev : ν → Option ν
  linkLock : ν → Option θ
  lock : ν → Option θ
  allocated : ν → Bool
  tree : List ν
  pc : θ → Pc ν

inductive Action (θ ν : Type) where
  /-- `try_get_lock` on a leaf that the thread has reached in some way. -/
  | lockLeaf (t : θ) (x : ν)
  /-- The insert needs no restructuring. -/
  | unlock (t : θ)
  | build (t : θ) (j : Job ν)
  /-- The next step of a restructuring. -/
  | move (t : θ)

variable {θ ν : Type} [DecidableEq θ] [DecidableEq ν]

namespace State

def goto (s : State θ ν) (t : θ) (pc : Pc ν) : State θ ν :=
  { s with pc := Function.update s.pc t pc }

def setNext (s : State θ ν) (x : ν) (y : Option ν) : State θ ν :=
  { s with next := Function.update s.next x y }

def setPrev (s : State θ ν) (x : ν) (y : Option ν) : State θ ν :=
  { s with prev := Function.update s.prev x y }

def setLinkLock (s : State θ ν) (x : ν) (o : Option θ) : State θ ν :=
  { s with linkLock := Function.update s.linkLock x o }

def setLock (s : State θ ν) (x : ν) (o : Option θ) : State θ ν :=
  { s with lock := Function.update s.lock x o }

/-- The new leaves: a resized leaf is a copy of the old one with its links, the leaves of a split
are linked to each other; their locks are taken and their link locks are free. -/
def makeLeaves (s : State θ ν) (t : θ) (j : Job ν) : State θ ν :=
  { s with
    next := fun x => if x ∈ j.news then
        match j.kind with
        | .resize => s.next j.old
        | .split => j.news[j.news.idxOf x + 1]?
      else s.next x
    prev := fun x => if x ∈ j.news then
        match j.kind with
        | .resize => s.prev j.old
        | .split => if x = j.first then none else j.news[j.news.idxOf x - 1]?
      else s.prev x
    linkLock := fun x => if x ∈ j.news then none else s.linkLock x
    lock := fun x => if x ∈ j.news then some t else s.lock x
    allocated := fun x => if x ∈ j.news then true else s.allocated x }

/-- The new leaves take the place of the old one. -/
def replaceChild (s : State θ ν) (j : Job ν) : State θ ν :=
  { s with tree := s.tree.flatMap (fun x => if x = j.old then j.news else [x]) }

end State

/-- After the links are written. -/
def Job.afterLink {ν : Type} (j : Job ν) : Pc ν :=
  match j.kind with
  | .resize => .unlockNew j
  | .split => .readFirstPrev j

/-- After the link locks are released. -/
def Job.afterRelease {ν : Type} (j : Job ν) : Pc ν :=
  match j.kind with
  | .resize => .idle
  | .split => .unlockLeaves j.news

/-- The next step of the thread `t` in a restructuring. -/
def move (s : State θ ν) (t : θ) : Option (State θ ν) :=
  match s.pc t with
  | .idle => none
  | .locked _ => none
  | .publish j => some ((s.replaceChild j).goto t (.readPrev j))
  | .readPrev j =>
      match s.prev j.old with
      | none => some (s.goto t (.lockLast j))
      | some p => some (s.goto t (.tryPrev j p))
  | .tryPrev j p =>
      if s.linkLock p = none then some ((s.setLinkLock p (some t)).goto t (.recheck j p))
      else some (s.goto t (.readPrev j))
  | .recheck j p =>
      if s.prev j.old = some p then some (s.goto t (.setNext j p))
      else some (s.goto t (.unlockPrev j p))
  | .unlockPrev j p => some ((s.setLinkLock p none).goto t (.readPrev j))
  | .setNext j p => some ((s.setNext p (some j.first)).goto t (.setPrev j p))
  | .setPrev j p => some ((s.setPrev j.first (some p)).goto t (.lockLast j))
  | .lockLast j =>
      if s.linkLock j.last = none then
        some ((s.setLinkLock j.last (some t)).goto t (.lockOld j))
      else none
  | .lockOld j =>
      if s.linkLock j.old = none then some ((s.setLinkLock j.old (some t)).goto t (.readNext j))
      else none
  | .readNext j =>
      match s.next j.old with
      | none => some (s.goto t j.afterLink)
      | some n => some (s.goto t (.setLastNext j n))
  | .setLastNext j n => some ((s.setNext j.last (some n)).goto t (.setNextPrev j n))
  | .setNextPrev j n => some ((s.setPrev n (some j.last)).goto t j.afterLink)
  | .unlockNew j => some ((s.setLock j.first none).goto t (.readFirstPrev j))
  | .readFirstPrev j =>
      match s.prev j.first with
      | none => some (s.goto t (.unlockLast j))
      | some p => some (s.goto t (.unlockFirstPrev j p))
  | .unlockFirstPrev j p => some ((s.setLinkLock p none).goto t (.unlockLast j))
  | .unlockLast j => some ((s.setLinkLock j.last none).goto t j.afterRelease)
  | .unlockLeaves [] => some (s.goto t .idle)
  | .unlockLeaves (x :: l) => some ((s.setLock x none).goto t (.unlockLeaves l))

def step (lo hi : ν → ℚ) (s : State θ ν) : Action θ ν → Option (State θ ν)
  | .lockLeaf t x =>
      if s.pc t = .idle ∧ s.allocated x = true ∧ s.lock x = none then
        some ((s.setLock x (some t)).goto t (.locked x))
      else none
  | .unlock t =>
      match s.pc t with
      | .locked x => some ((s.setLock x none).goto t .idle)
      | _ => none
  | .build t j =>
      if s.pc t = .locked j.old ∧ j.news.Nodup ∧ (∀ x ∈ j.news, s.allocated x = false) ∧
          (j.kind = .resize → j.rest = []) ∧ Spans lo hi (lo j.old) j.news (hi j.old) then
        some ((s.makeLeaves t j).goto t (.publish j))
      else none
  | .move t => move s t

/-- The thread has made new leaves and has not released all its locks. -/
def Pc.restructures {ν : Type} : Pc ν → Bool
  | .idle | .locked _ => false
  | _ => true

/-- The thread has changed the parent and has not released all its locks. -/
def Pc.relinks {ν : Type} : Pc ν → Bool
  | .idle | .locked _ | .publish _ => false
  | _ => true

/-- The link lock that the thread releases next. -/
def Pc.releases {ν : Type} : Pc ν → Option ν
  | .unlockPrev _ p | .unlockFirstPrev _ p => some p
  | .unlockLast j => some j.last
  | _ => none

/-- The leaves from `a` to `b` are linked and nobody works on them. -/
structure Initial (lo hi : ν → ℚ) (a b : ℚ) (s : State θ ν) : Prop where
  nodup : s.tree.Nodup
  spans : Spans lo hi a s.tree b
  linked : Linked s.prev s.next none s.tree none
  allocated : ∀ x, s.allocated x = true ↔ x ∈ s.tree
  lock : ∀ x, s.lock x = none
  linkLock : ∀ x, s.linkLock x = none
  idle : ∀ t, s.pc t = .idle

end LearnedIndex.Alexol.LeafLinks
