import LearnedIndex.Lib.Machine
import LearnedIndex.Alexol.Base

/-! # The reader/writer lock of a model node (`alex_nodes.h`)

Any number of threads below `2^31` use the lock of one model node.  Every atomic load,
compare-and-swap, subtraction and store on `lock_` is one action, and so is the test of
`is_obsolete_`, which is not part of the compare-and-swap.

* A thread that fails a compare-and-swap has loaded the lock word instead; the calls that loop test
  that value next, the others return.
* A thread that holds the write lock may retire the node: it sets `is_obsolete_` and never releases
  the lock.
* `AlexModelNode::expand` creates a node whose write lock is held by the creating thread, so there
  are two kinds of initial states.

One equation carries everything (`Inv.word`): the lock word is the number of readers, plus `2^31` if
there is a writer or the node is retired.  -/

namespace LearnedIndex.Alexol.ModelNodeLock

open LearnedIndex.Machine

/-- The calls that acquire the lock. -/
inductive Op where
  | getReadLock
  | tryGetReadLock
  | getWriteLock
  | tryGetWriteLock
  | promoteFromReadToWrite
deriving DecidableEq

namespace Op

/-- The call retries after a failed compare-and-swap. -/
def loops : Op → Bool
  | tryGetReadLock | tryGetWriteLock => false
  | _ => true

def isRead : Op → Bool
  | getReadLock | tryGetReadLock => true
  | _ => false

/-- The lock word that the compare-and-swap stores. -/
def newValue (op : Op) (oldValue : LockWord) : LockWord :=
  if op.isRead then ((oldValue &&& lockMask) + 1#32) &&& lockMask else oldValue ||| lockSet

end Op

/-- Where a thread is. -/
inductive Pc where
  | idle
  /-- The lock word has been loaded. -/
  | testing (op : Op) (v : LockWord)
  /-- The tests have passed; the compare-and-swap is next. -/
  | swapping (op : Op) (oldValue : LockWord)
  /-- A promotion has set the lock bit and still counts as a reader. -/
  | promoted
  /-- The lock bit is set; the thread waits for the readers. -/
  | draining (op : Op)
  | reading
  | writing
deriving DecidableEq

namespace Pc

/-- The thread holds the read lock. -/
def reads : Pc → Bool
  | testing .promoteFromReadToWrite _ | swapping .promoteFromReadToWrite _ => true
  | promoted | reading => true
  | _ => false

/-- The thread has set the lock bit. -/
def owns : Pc → Bool
  | promoted | draining _ | writing => true
  | _ => false

end Pc

/-- Where a call begins, and where it ends when it fails. -/
def Op.home : Op → Pc
  | .promoteFromReadToWrite => .reading
  | _ => .idle

/-- The node as its lock sees it, with the last call that returned. -/
structure State (n : ℕ) where
  lock : LockWord
  isObsolete : Bool
  pc : Fin n → Pc
  returned : Option (Fin n × Op × Bool)

namespace State

variable {n : ℕ}

def move (s : State n) (t : Fin n) (pc : Pc) : State n :=
  { s with pc := Function.update s.pc t pc, returned := none }

/-- The call of the thread returns. -/
def finish (s : State n) (t : Fin n) (op : Op) (result : Bool) (pc : Pc) : State n :=
  { s with pc := Function.update s.pc t pc, returned := some (t, op, result) }

/-- A node that nobody uses. -/
def new (n : ℕ) : State n := ⟨0#32, false, fun _ => .idle, none⟩

/-- A node created by `expand`, with the write lock held by its creator. -/
def expanded (creator : Fin n) : State n :=
  ⟨lockSet, false, Function.update (fun _ => .idle) creator .writing, none⟩

end State

/-- The atomic steps of a thread. -/
inductive Action (n : ℕ) where
  | call (t : Fin n) (op : Op)
  | test (t : Fin n)
  | swap (t : Fin n)
  | sub (t : Fin n)
  | drain (t : Fin n)
  | releaseReadLock (t : Fin n)
  | releaseWriteLock (t : Fin n)
  | retire (t : Fin n)
deriving DecidableEq

variable {n : ℕ}

def step (s : State n) : Action n → Option (State n)
  | .call t op => if s.pc t = op.home then some (s.move t (.testing op s.lock)) else none
  | .test t =>
      match s.pc t with
      | .testing op v =>
          if isSet v ∨ s.isObsolete then some (s.finish t op false op.home)
          else some (s.move t (.swapping op (v &&& lockMask)))
      | _ => none
  | .swap t =>
      match s.pc t with
      | .swapping op oldValue =>
          if s.lock = oldValue then
            let s := { s with lock := op.newValue oldValue }
            if op.isRead then some (s.finish t op true .reading)
            else if op = .promoteFromReadToWrite then some (s.move t .promoted)
            else some (s.move t (.draining op))
          else if op.loops then some (s.move t (.testing op s.lock))
          else some (s.finish t op false op.home)
      | _ => none
  | .sub t =>
      match s.pc t with
      | .promoted => some
            ({ s with lock := s.lock - 1#32 }.move t (.draining .promoteFromReadToWrite))
      | _ => none
  | .drain t =>
      match s.pc t with
      | .draining op =>
          if s.lock &&& lockMask = 0#32 then some (s.finish t op true .writing)
          else some (s.move t (.draining op))
      | _ => none
  | .releaseReadLock t =>
      if s.pc t = .reading then some ({ s with lock := s.lock - 1#32 }.move t .idle) else none
  | .releaseWriteLock t =>
      if s.pc t = .writing then some ({ s with lock := 0#32 }.move t .idle) else none
  | .retire t =>
      if s.pc t = .writing then some ({ s with isObsolete := true }.move t .idle) else none

/-- The number of threads that hold the read lock. -/
def readers (s : State n) : ℕ := count Pc.reads s.pc

/-- The number of threads between a successful write acquisition and its release; the thread that
retired the node never releases it. -/
def writers (s : State n) : ℕ := count Pc.owns s.pc + s.isObsolete.toNat

/-! ### Lock words as numbers -/

theorem toNat_newValue_read {op : Op} (hop : op.isRead = true) {v : LockWord}
    (h : v.toNat < 2 ^ 31 - 1) : (op.newValue v).toNat = v.toNat + 1 := by
  unfold Op.newValue
  rw [if_pos hop, toNat_and_lockMask, BitVec.toNat_add, toNat_and_lockMask]
  have h1 : (1#32).toNat = 1 := rfl
  omega

theorem toNat_newValue_write {op : Op} (hop : op.isRead = false) {v : LockWord}
    (h : v.toNat < 2 ^ 31) : (op.newValue v).toNat = v.toNat + 2 ^ 31 := by
  unfold Op.newValue
  rw [if_neg (by simp [hop]), toNat_or_lockSet h]

theorem toNat_sub_one {v : LockWord} (h : 0 < v.toNat) : (v - 1#32).toNat = v.toNat - 1 := by
  have h1 : (1#32).toNat = 1 := rfl
  have := v.isLt
  rw [BitVec.toNat_sub, h1]
  omega

/-! ### The invariant -/

/-- What is known about the call that has just returned. -/
structure ReturnOK (s : State n) : Prop where
  acquired : ∀ t op, s.returned = some (t, op, true) → s.isObsolete = false ∧
    (op.isRead = true → s.pc t = .reading) ∧
    (op.isRead = false → s.pc t = .writing ∧ readers s = 0)
  refused : ∀ t, s.returned = some (t, .promoteFromReadToWrite, false) → s.pc t = .reading

/-- The value that a thread compares with has no lock bit, and only a writer waits. -/
def Pc.OK : Pc → Prop
  | swapping _ oldValue => oldValue.toNat < 2 ^ 31
  | draining op => op.isRead = false
  | _ => True

structure Inv (s : State n) : Prop where
  word : s.lock.toNat = readers s + 2 ^ 31 * writers s
  quiet : ∀ t, s.pc t = .writing → readers s = 0
  ok : ∀ t, (s.pc t).OK
  result : ReturnOK s

namespace Inv

variable {s s' : State n} {t : Fin n} {pc : Pc}

/-- A lock word without the lock bit counts the readers, and there is no writer. -/
theorem free (h : Inv s) (hlt : s.lock.toNat < 2 ^ 31) :
    writers s = 0 ∧ readers s = s.lock.toNat := by
  have := h.word
  omega

theorem writers_le (h : Inv s) : writers s ≤ 1 := by
  have h1 := h.word
  have h2 := s.lock.isLt
  omega

theorem not_obsolete (hw : writers s = 0) : s.isObsolete = false := by
  unfold writers at hw
  cases ho : s.isObsolete with
  | false => rfl
  | true =>
      rw [ho] at hw
      simp at hw

theorem not_writing (hw : writers s = 0) (t : Fin n) : s.pc t ≠ .writing := by
  intro hpc
  have := count_pos (p := Pc.owns) (f := s.pc) (i := t) (by rw [hpc]; rfl)
  unfold writers at hw
  omega

/-- The owner of the lock bit keeps the node from being retired by others. -/
theorem not_obsolete_of_owns (h : Inv s) (ho : (s.pc t).owns = true) : s.isObsolete = false := by
  have h1 := count_pos ho
  have h2 := h.writers_le
  unfold writers at h2
  cases hob : s.isObsolete with
  | false => rfl
  | true =>
      rw [hob, Bool.toNat_true] at h2
      omega

variable (s s' t pc) in
/-- The counts after a step of thread `t`. -/
theorem counts (hpc : s'.pc = Function.update s.pc t pc) (ho : s'.isObsolete = s.isObsolete) :
    readers s' + (s.pc t).reads.toNat = readers s + pc.reads.toNat ∧
      writers s' + (s.pc t).owns.toNat = writers s + pc.owns.toNat := by
  unfold readers writers
  rw [hpc, ho]
  have h1 := count_update Pc.reads s.pc t pc
  have h2 := count_update Pc.owns s.pc t pc
  exact ⟨h1, by omega⟩

/-- A step of thread `t` that keeps the equation for the lock word. -/
theorem moved {p : Pc} (h : Inv s) (hpc : s'.pc = Function.update s.pc t p)
    (hword : s'.lock.toNat = readers s' + 2 ^ 31 * writers s')
    (hread : readers s' ≤ readers s ∨ writers s = 0)
    (hquiet : p = .writing → readers s' = 0)
    (hok : p.OK) (hres : ReturnOK s') : Inv s' := by
  refine ⟨hword, fun u hu => ?_, fun u => ?_, hres⟩
  · rcases eq_or_ne u t with rfl | hne
    · rw [hpc, Function.update_self] at hu
      exact hquiet hu
    · rw [hpc, Function.update_of_ne hne] at hu
      rcases hread with hle | hw
      · have := h.quiet u hu
        omega
      · exact absurd hu (not_writing hw u)
  · rcases eq_or_ne u t with rfl | hne
    · rw [hpc, Function.update_self]
      exact hok
    · rw [hpc, Function.update_of_ne hne]
      exact h.ok u

end Inv

theorem returnOK_none {s : State n} (h : s.returned = none) : ReturnOK s := by
  refine ⟨fun t op hr => ?_, fun t hr => ?_⟩
  · rw [h] at hr
    cases hr
  · rw [h] at hr
    cases hr

theorem returnOK_false {s : State n} {t : Fin n} {op : Op}
    (h : s.returned = some (t, op, false)) (hpc : s.pc t = op.home) : ReturnOK s := by
  refine ⟨fun u o hr => ?_, fun u hr => ?_⟩
  · rw [h] at hr
    cases hr
  · rw [h] at hr
    cases hr
    exact hpc

/-- Only a promotion holds the read lock where it begins. -/
def Op.promotes : Op → Bool
  | promoteFromReadToWrite => true
  | _ => false

theorem home_reads (op : Op) : op.home.reads = op.promotes := by
  cases op <;> rfl

theorem home_owns (op : Op) : op.home.owns = false := by
  cases op <;> rfl

theorem home_ne_writing (op : Op) : op.home ≠ .writing := by
  cases op <;> exact fun h => nomatch h

theorem home_ok (op : Op) : op.home.OK := by
  cases op <;> exact trivial

theorem testing_reads (op : Op) (v : LockWord) : (Pc.testing op v).reads = op.promotes := by
  cases op <;> rfl

theorem swapping_reads (op : Op) (v : LockWord) : (Pc.swapping op v).reads = op.promotes := by
  cases op <;> rfl

theorem inv_new (n : ℕ) : Inv (State.new n) := by
  have h1 : readers (State.new n) = 0 := count_eq_zero.mpr (fun _ => rfl)
  have h2 : writers (State.new n) = 0 := by
    unfold writers
    rw [count_eq_zero.mpr (fun _ => rfl)]
    rfl
  refine ⟨?_, fun _ _ => h1, fun _ => trivial, returnOK_none rfl⟩
  rw [h1, h2]
  rfl

theorem inv_expanded (t : Fin n) : Inv (State.expanded t) := by
  have h := Inv.counts (State.new n) (State.expanded t) t .writing rfl rfl
  have h0 := (inv_new n).word
  have h1 : (State.new n).lock.toNat = 0 := rfl
  have h2 : ((State.new n).pc t).reads.toNat = 0 := rfl
  have h3 : ((State.new n).pc t).owns.toNat = 0 := rfl
  have h4 : Pc.writing.reads.toNat = 0 := rfl
  have h5 : Pc.writing.owns.toNat = 1 := rfl
  have h6 : (State.expanded t).lock.toNat = 2 ^ 31 := by
    show lockSet.toNat = 2 ^ 31
    exact toNat_lockSet
  refine (inv_new n).moved (t := t) (p := .writing) rfl (by omega) (by omega) (fun _ => by omega)
    trivial (returnOK_none rfl)

namespace Inv

variable {s s' : State n} {t : Fin n}

/-- A step that changes the position of a thread but not what it holds. -/
theorem shifted (h : Inv s) {pc : Pc} (hpc : s'.pc = Function.update s.pc t pc)
    (hl : s'.lock = s.lock) (ho : s'.isObsolete = s.isObsolete)
    (hr : pc.reads = (s.pc t).reads) (hw : pc.owns = (s.pc t).owns) (hne : pc ≠ .writing)
    (hok : pc.OK) (hres : ReturnOK s') : Inv s' := by
  obtain ⟨h1, h2⟩ := counts _ _ _ _ hpc ho
  rw [hr] at h1
  rw [hw] at h2
  have hword := h.word
  refine h.moved hpc ?_ (Or.inl (by omega)) (fun hc => absurd hc hne) hok hres
  rw [hl, hword]
  have : readers s' = readers s := by omega
  have : writers s' = writers s := by omega
  simp_all

theorem call {op : Op} (h : Inv s) (hs : step s (.call t op) = some s') : Inv s' := by
  simp only [step] at hs
  split at hs
  · rename_i hpc
    obtain rfl := Option.some.inj hs
    refine h.shifted (t := t) rfl rfl rfl ?_ ?_ (by simp) trivial
      (returnOK_none rfl)
    · rw [hpc, home_reads, testing_reads]
    · rw [hpc, home_owns]
      rfl
  · cases hs

theorem test (h : Inv s) (hs : step s (.test t) = some s') : Inv s' := by
  simp only [step] at hs
  split at hs
  · rename_i op v hpc
    split at hs
    · obtain rfl := Option.some.inj hs
      refine h.shifted (t := t) rfl rfl rfl ?_ ?_ (home_ne_writing op) (home_ok op)
        (returnOK_false rfl (Function.update_self ..))
      · rw [hpc, home_reads, testing_reads]
      · rw [hpc, home_owns]
        rfl
    · obtain rfl := Option.some.inj hs
      refine h.shifted (t := t) rfl rfl rfl ?_ ?_ (by simp) ?_ (returnOK_none rfl)
      · rw [hpc, swapping_reads, testing_reads]
      · rw [hpc]
        rfl
      · show (v &&& lockMask).toNat < 2 ^ 31
        rw [toNat_and_lockMask]
        exact Nat.mod_lt _ (by norm_num)
  · cases hs

/-- The compare-and-swap succeeds on a word without the lock bit. -/
theorem swap (hn : n < 2 ^ 31) (h : Inv s) (hs : step s (.swap t) = some s') : Inv s' := by
  simp only [step] at hs
  split at hs
  · rename_i op v hpc
    have hmask : v.toNat < 2 ^ 31 := by
      have := h.ok t
      rwa [hpc] at this
    have hreads : (s.pc t).reads = op.promotes := by rw [hpc, swapping_reads]
    have howns : (s.pc t).owns = false := by
      rw [hpc]
      rfl
    split at hs
    · rename_i hlock
      have hlt : s.lock.toNat < 2 ^ 31 := by
        rw [hlock]
        exact hmask
      obtain ⟨hw, hr⟩ := h.free hlt
      have hv : v.toNat = readers s := by rw [hr, hlock]
      split at hs
      · rename_i hop
        obtain rfl := Option.some.inj hs
        have hprom : op.promotes = false := by
          cases op <;> first | rfl | cases hop
        obtain ⟨h1, h2⟩ := counts s
          ({ s with lock := op.newValue v }.finish t op true .reading) t .reading rfl rfl
        have h3 : Pc.reading.reads.toNat = 1 := rfl
        have h4 : Pc.reading.owns.toNat = 0 := rfl
        rw [hreads, hprom] at h1
        rw [howns] at h2
        have hroom : readers s < n := by
          have := count_lt (p := Pc.reads) (f := s.pc) (i := t) (hreads.trans hprom)
          rwa [Fintype.card_fin] at this
        simp only [Bool.toNat_false] at h1 h2
        refine h.moved (t := t) rfl ?_ (Or.inr hw) (by simp) trivial ?_
        · show (op.newValue v).toNat = _
          rw [toNat_newValue_read hop (by omega)]
          omega
        · refine ⟨fun u o hret => ?_, fun u hret => by cases hret⟩
          obtain ⟨rfl, rfl⟩ : t = u ∧ op = o := by
            have := Option.some.inj hret
            exact ⟨congrArg Prod.fst this, congrArg (fun x => x.2.1) this⟩
          refine ⟨not_obsolete (s := s) hw, fun _ => Function.update_self .., fun hc => ?_⟩
          rw [hop] at hc
          cases hc
      · rename_i hop
        have hop : op.isRead = false := by simpa using hop
        split at hs
        · rename_i hprom
          subst hprom
          obtain rfl := Option.some.inj hs
          obtain ⟨h1, h2⟩ := counts s
            ({ s with lock := Op.promoteFromReadToWrite.newValue v }.move t .promoted) t
              .promoted rfl rfl
          have h3 : Pc.promoted.reads.toNat = 1 := rfl
          have h4 : Pc.promoted.owns.toNat = 1 := rfl
          have h5 : Op.promoteFromReadToWrite.promotes.toNat = 1 := rfl
          rw [hreads] at h1
          rw [howns, Bool.toNat_false] at h2
          refine h.moved (t := t) rfl ?_ (Or.inr hw) (by simp) trivial
            (returnOK_none rfl)
          show (Op.promoteFromReadToWrite.newValue v).toNat = _
          rw [toNat_newValue_write hop hmask]
          omega
        · rename_i hnp
          obtain rfl := Option.some.inj hs
          have hprom : op.promotes = false := by
            cases op <;> first | rfl | exact absurd rfl hnp
          obtain ⟨h1, h2⟩ := counts s
            ({ s with lock := op.newValue v }.move t (.draining op)) t (.draining op) rfl rfl
          have h3 : (Pc.draining op).reads.toNat = 0 := rfl
          have h4 : (Pc.draining op).owns.toNat = 1 := rfl
          rw [hreads, hprom, Bool.toNat_false] at h1
          rw [howns, Bool.toNat_false] at h2
          refine h.moved (t := t) rfl ?_ (Or.inr hw) (by simp) hop (returnOK_none rfl)
          show (op.newValue v).toNat = _
          rw [toNat_newValue_write hop hmask]
          omega
    · split at hs
      · obtain rfl := Option.some.inj hs
        refine h.shifted (t := t) rfl rfl rfl ?_ ?_ (by simp) trivial
          (returnOK_none rfl)
        · rw [hreads, testing_reads]
        · rw [howns]
          rfl
      · obtain rfl := Option.some.inj hs
        refine h.shifted (t := t) rfl rfl rfl ?_ ?_ (home_ne_writing op) (home_ok op)
          (returnOK_false rfl (Function.update_self ..))
        · rw [hreads, home_reads]
        · rw [howns, home_owns]
  · cases hs

theorem sub (h : Inv s) (hs : step s (.sub t) = some s') : Inv s' := by
  simp only [step] at hs
  split at hs
  · rename_i hpc
    obtain rfl := Option.some.inj hs
    obtain ⟨h1, h2⟩ := counts s
      ({ s with lock := s.lock - 1#32 }.move t (.draining .promoteFromReadToWrite)) t
        (.draining .promoteFromReadToWrite) rfl rfl
    have h3 : (Pc.draining .promoteFromReadToWrite).reads.toNat = 0 := rfl
    have h4 : (Pc.draining .promoteFromReadToWrite).owns.toNat = 1 := rfl
    have h5 : Pc.promoted.reads.toNat = 1 := rfl
    have h6 : Pc.promoted.owns.toNat = 1 := rfl
    rw [hpc] at h1 h2
    have hword := h.word
    refine h.moved (t := t) rfl ?_ (Or.inl (by omega)) (by simp) rfl
      (returnOK_none rfl)
    show (s.lock - 1#32).toNat = _
    rw [toNat_sub_one (by omega)]
    omega
  · cases hs

/-- The readers have left when the low bits are zero. -/
theorem drain (h : Inv s) (hs : step s (.drain t) = some s') : Inv s' := by
  simp only [step] at hs
  split at hs
  · rename_i op hpc
    have howns : (s.pc t).owns = true := by
      rw [hpc]
      rfl
    have hop : op.isRead = false := by
      have := h.ok t
      rwa [hpc] at this
    split at hs
    · rename_i hzero
      obtain rfl := Option.some.inj hs
      obtain ⟨h1, h2⟩ := counts s
        (s.finish t op true .writing) t .writing rfl rfl
      have h3 : Pc.writing.reads.toNat = 0 := rfl
      have h4 : Pc.writing.owns.toNat = 1 := rfl
      have h5 : (Pc.draining op).reads.toNat = 0 := rfl
      have h6 : (Pc.draining op).owns.toNat = 1 := rfl
      rw [hpc] at h1 h2
      have hword := h.word
      have hmod : s.lock.toNat % 2 ^ 31 = 0 := by
        rw [← toNat_and_lockMask, hzero]
        rfl
      have hlt : readers s < 2 ^ 31 ∨ readers s = 0 := by
        have := s.lock.isLt
        have := count_pos howns
        unfold writers at hword
        omega
      have hr : readers (s.finish t op true .writing) = 0 := by omega
      refine h.moved (t := t) rfl ?_ (Or.inl (by omega)) (fun _ => hr) trivial ?_
      · show s.lock.toNat = _
        omega
      · refine ⟨fun u o hret => ?_, fun u hret => by cases hret⟩
        obtain ⟨rfl, rfl⟩ : t = u ∧ op = o := by
          have := Option.some.inj hret
          exact ⟨congrArg Prod.fst this, congrArg (fun x => x.2.1) this⟩
        refine ⟨h.not_obsolete_of_owns howns, fun hc => ?_, fun _ => ⟨Function.update_self .., hr⟩⟩
        rw [hop] at hc
        cases hc
    · obtain rfl := Option.some.inj hs
      refine h.shifted (t := t) rfl rfl rfl ?_ ?_ (by simp) hop
        (returnOK_none rfl)
      · rw [hpc]
      · rw [hpc]
  · cases hs

theorem releaseReadLock (h : Inv s) (hs : step s (.releaseReadLock t) = some s') : Inv s' := by
  simp only [step] at hs
  split at hs
  · rename_i hpc
    obtain rfl := Option.some.inj hs
    obtain ⟨h1, h2⟩ := counts s
      ({ s with lock := s.lock - 1#32 }.move t .idle) t .idle rfl rfl
    have h3 : Pc.idle.reads.toNat = 0 := rfl
    have h4 : Pc.idle.owns.toNat = 0 := rfl
    have h5 : Pc.reading.reads.toNat = 1 := rfl
    have h6 : Pc.reading.owns.toNat = 0 := rfl
    rw [hpc] at h1 h2
    have hword := h.word
    refine h.moved (t := t) rfl ?_ (Or.inl (by omega)) (by simp) trivial
      (returnOK_none rfl)
    show (s.lock - 1#32).toNat = _
    rw [toNat_sub_one (by omega)]
    omega
  · cases hs

theorem releaseWriteLock (h : Inv s) (hs : step s (.releaseWriteLock t) = some s') : Inv s' := by
  simp only [step] at hs
  split at hs
  · rename_i hpc
    obtain rfl := Option.some.inj hs
    obtain ⟨h1, h2⟩ := counts s
      ({ s with lock := 0#32 }.move t .idle) t .idle rfl rfl
    have h3 : Pc.idle.reads.toNat = 0 := rfl
    have h4 : Pc.idle.owns.toNat = 0 := rfl
    have h5 : Pc.writing.reads.toNat = 0 := rfl
    have h6 : Pc.writing.owns.toNat = 1 := rfl
    rw [hpc] at h1 h2
    have hle := h.writers_le
    have hzero := h.quiet t hpc
    refine h.moved (t := t) rfl ?_ (Or.inl (by omega)) (by simp) trivial
      (returnOK_none rfl)
    show (0#32).toNat = _
    have h0 : (0#32).toNat = 0 := rfl
    omega
  · cases hs

/-- The lock of a retired node stays taken. -/
theorem retire (h : Inv s) (hs : step s (.retire t) = some s') : Inv s' := by
  simp only [step] at hs
  split at hs
  · rename_i hpc
    obtain rfl := Option.some.inj hs
    have hob := h.not_obsolete_of_owns (t := t) (by rw [hpc]; rfl)
    have h1 := count_update Pc.reads s.pc t .idle
    have h2 := count_update Pc.owns s.pc t .idle
    have h3 : Pc.idle.reads.toNat = 0 := rfl
    have h4 : Pc.idle.owns.toNat = 0 := rfl
    have h5 : Pc.writing.reads.toNat = 0 := rfl
    have h6 : Pc.writing.owns.toNat = 1 := rfl
    rw [hpc] at h1 h2
    have hword := h.word
    unfold readers writers at hword
    rw [hob, Bool.toNat_false] at hword
    refine h.moved (t := t) rfl ?_ (Or.inl ?_) (by simp) trivial
      (returnOK_none rfl)
    · show s.lock.toNat = count Pc.reads (Function.update s.pc t .idle) +
        2 ^ 31 * (count Pc.owns (Function.update s.pc t .idle) + true.toNat)
      rw [Bool.toNat_true]
      omega
    · show count Pc.reads (Function.update s.pc t .idle) ≤ count Pc.reads s.pc
      omega
  · cases hs

/-- Every step keeps the invariant. -/
theorem preserved (hn : n < 2 ^ 31) (h : Inv s) {a : Action n} (hs : step s a = some s') :
    Inv s' := by
  cases a with
  | call t op => exact h.call hs
  | test t => exact h.test hs
  | swap t => exact h.swap hn hs
  | sub t => exact h.sub hs
  | drain t => exact h.drain hs
  | releaseReadLock t => exact h.releaseReadLock hs
  | releaseWriteLock t => exact h.releaseWriteLock hs
  | retire t => exact h.retire hs

end Inv

/-- The states in which a node can be published. -/
def Initial (s : State n) : Prop := s = State.new n ∨ ∃ t, s = State.expanded t

/-- In every state that is reached, the low bits of the lock word count the readers, there is at
most one writer and no reader beside it, a call that returns true acquires a node that is not
obsolete, and a failed promotion keeps its read lock. -/
theorem lock_protocol (hn : n < 2 ^ 31) {s₀ s : State n} (hinit : Initial s₀)
    (hrun : Run step Any s₀ s) :
    (s.lock &&& lockMask).toNat = readers s ∧ writers s ≤ 1 ∧
      (∀ t, s.pc t = .writing → readers s = 0) ∧
      (∀ t op, s.returned = some (t, op, true) → s.isObsolete = false ∧
        (op.isRead = true → s.pc t = .reading) ∧
        (op.isRead = false → s.pc t = .writing ∧ readers s = 0)) ∧
      (∀ t, s.returned = some (t, .promoteFromReadToWrite, false) → s.pc t = .reading) := by
  have h0 : Inv s₀ := by
    rcases hinit with rfl | ⟨t, rfl⟩
    · exact inv_new n
    · exact inv_expanded t
  have h : Inv s := hrun.invariant h0 (fun _ _ _ h _ hs => h.preserved hn hs)
  refine ⟨?_, h.writers_le, h.quiet, h.result.acquired, h.result.refused⟩
  have hword := h.word
  have hle : readers s ≤ n := by
    have := count_le Pc.reads s.pc
    rwa [Fintype.card_fin] at this
  rw [toNat_and_lockMask]
  omega

/-- Two readers, one of which is promoted once the other has left. -/
def promotion : List (Action 2) :=
  [.call 0 .getReadLock, .call 1 .tryGetReadLock, .test 0, .test 1, .swap 0, .swap 1,
    .call 1 .getReadLock,
    .test 1, .swap 1, .call 0 .promoteFromReadToWrite, .test 0, .swap 0, .sub 0, .drain 0,
    .releaseReadLock 1, .drain 0]

theorem lock_protocol_promotion : ∃ s : State 2, Run step Any (State.new 2) s ∧
    s.returned = some (0, .promoteFromReadToWrite, true) ∧ s.isObsolete = false ∧
    readers s = 0 := by
  have hrun : (exec step (State.new 2) promotion).any (fun s =>
      decide (s.returned = some (0, .promoteFromReadToWrite, true))) = true := by decide
  obtain ⟨s, hs, hret⟩ := (Option.any_eq_true _ _).mp hrun
  have hret := of_decide_eq_true hret
  have hreach : Run step Any (State.new 2) s :=
    run_of_exec (p := fun _ => True) hs (fun _ _ => trivial)
  obtain ⟨_, _, _, hok, _⟩ := lock_protocol (by norm_num) (Or.inl rfl) hreach
  obtain ⟨hob, _, hw⟩ := hok 0 _ hret
  exact ⟨s, hreach, hret, hob, (hw rfl).2⟩

end LearnedIndex.Alexol.ModelNodeLock
