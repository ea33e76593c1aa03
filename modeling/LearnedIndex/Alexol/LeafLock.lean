import LearnedIndex.Alexol.DataNode

/-! # Taking and releasing a version lock (`alex_nodes.h`, `alex.h`)

`AlexDataNode` has `get_lock`, `try_get_lock` and `release_lock` on `lock_`, and `Alex` has the same
functions on `root_lock_`.  The release adds one to the word and takes the `lockSet` bit away, so
the version in the low 31 bits carries into that bit after `2 ^ 31` releases: the lock looks taken,
and nobody releases it (`relock_iff`).  `release_link_lock` masks the word instead.

The thread is alone: the word does not change between its load and the compare-and-swap. -/

namespace LearnedIndex.Alexol

/-! ### The functions on the word -/

namespace VersionLock

/-- `CAS`. -/
def cas (word oldValue newValue : LockWord) : Bool × LockWord :=
  if word = oldValue then (true, newValue) else (false, word)

def tryGetLock (v : LockWord) : Bool × LockWord :=
  if isSet v then (false, v) else cas v (v &&& lockMask) (v ||| lockSet)

/-- `get_lock`; a wait for a lock that nobody releases never ends. -/
def getLock (v : LockWord) : Option LockWord :=
  if isSet v then none
  else
    let oldValue := v &&& lockMask
    match cas v oldValue (oldValue ||| lockSet) with
    | (true, w) => some w
    | (false, _) => none

def releaseLock (v : LockWord) : LockWord := v + 1#32 - lockSet

/-- The two ways to take the lock. -/
inductive Acquire where
  | getLock
  | tryGetLock
deriving DecidableEq

/-- Take the lock and release it. -/
def cycle (v : LockWord) : Acquire → Option LockWord
  | .getLock => (getLock v).map releaseLock
  | .tryGetLock =>
      match tryGetLock v with
      | (true, w) => some (releaseLock w)
      | (false, _) => none

theorem and_lockMask_of_free {v : LockWord} (h : isSet v = false) : v &&& lockMask = v := by
  apply BitVec.eq_of_toNat_eq
  have hlt : ¬ 2 ^ 31 ≤ v.toNat := by
    rw [← isSet_iff_toNat, h]
    simp
  rw [toNat_and_lockMask]
  omega

theorem tryGetLock_free {v : LockWord} (h : isSet v = false) :
    tryGetLock v = (true, v ||| lockSet) := by
  unfold tryGetLock cas
  rw [h, and_lockMask_of_free h]
  simp

theorem getLock_free {v : LockWord} (h : isSet v = false) : getLock v = some (v ||| lockSet) := by
  unfold getLock cas
  rw [h, and_lockMask_of_free h]
  simp

/-- A cycle on a free lock counts the word up. -/
theorem cycle_free {v : LockWord} (h : isSet v = false) (a : Acquire) :
    cycle v a = some (v + 1#32) := by
  cases a with
  | getLock => rw [cycle, getLock_free h, Option.map_some, releaseLock, release_acquire h]
  | tryGetLock =>
      unfold cycle
      rw [tryGetLock_free h]
      exact congrArg some (release_acquire h)

/-- A lock that is set is not taken. -/
theorem cycle_set {v : LockWord} (h : isSet v = true) (a : Acquire) : cycle v a = none := by
  cases a <;> simp [cycle, getLock, tryGetLock, h]

theorem isSet_ofNat {n : ℕ} (h : n ≤ 2 ^ 31) : isSet (BitVec.ofNat 32 n) = decide (n = 2 ^ 31) := by
  have hn : (BitVec.ofNat 32 n).toNat = n := by
    rw [BitVec.toNat_ofNat]
    omega
  rw [Bool.eq_iff_iff, isSet_iff_toNat, hn, decide_eq_true_eq]
  omega

/-- Up to `2 ^ 31` cycles count the word up. -/
theorem cycles_eq (acquires : List Acquire) (h : acquires.length ≤ 2 ^ 31) :
    acquires.foldlM cycle 0#32 = some (BitVec.ofNat 32 acquires.length) := by
  induction acquires using List.reverseRecOn with
  | nil => rfl
  | append_singleton acquires a ih =>
      rw [List.length_append, List.length_singleton] at h
      have hfree : isSet (BitVec.ofNat 32 acquires.length) = false := by
        rw [isSet_ofNat (by omega)]
        exact decide_eq_false (by omega)
      rw [List.foldlM_append, ih (by omega), Option.bind_eq_bind, Option.bind_some,
        List.foldlM_cons, cycle_free hfree, Option.bind_eq_bind, Option.bind_some, List.foldlM_nil,
        List.length_append, List.length_singleton]
      exact congrArg some (BitVec.ofNat_add acquires.length 1).symm

/-- More cycles do not come to an end. -/
theorem cycles_stuck (acquires : List Acquire) (h : 2 ^ 31 < acquires.length) :
    acquires.foldlM cycle 0#32 = none := by
  obtain ⟨A, B, hsplit, hA⟩ : ∃ A B, acquires = A ++ B ∧ A.length = 2 ^ 31 :=
    ⟨acquires.take (2 ^ 31), acquires.drop (2 ^ 31), (List.take_append_drop _ _).symm, by
      rw [List.length_take]
      omega⟩
  have hset : isSet (BitVec.ofNat 32 A.length) = true := by
    rw [isSet_ofNat hA.le]
    exact decide_eq_true hA
  rw [hsplit, List.foldlM_append, cycles_eq A hA.le, Option.bind_eq_bind, Option.bind_some]
  cases B with
  | nil =>
      rw [hsplit, List.append_nil] at h
      omega
  | cons a B =>
      rw [List.foldlM_cons, cycle_set hset]
      rfl

/-- The lock is free, counts `n` releases and can be taken again. -/
def Relockable (v : LockWord) (n : ℕ) : Prop :=
  isSet v = false ∧ (v &&& lockMask).toNat = n % 2 ^ 31 ∧ (tryGetLock v).1 = true

theorem relockable_iff (acquires : List Acquire) :
    (∃ v, acquires.foldlM cycle 0#32 = some v ∧ Relockable v acquires.length) ↔
      acquires.length < 2 ^ 31 := by
  constructor
  · rintro ⟨v, hv, hfree, -⟩
    by_contra hlt
    rcases Nat.lt_or_ge (2 ^ 31) acquires.length with hlong | hle
    · rw [cycles_stuck acquires hlong] at hv
      cases hv
    · rw [cycles_eq acquires hle] at hv
      obtain rfl := Option.some.inj hv
      rw [isSet_ofNat hle, decide_eq_false_iff_not] at hfree
      omega
  · intro hlt
    have hfree : isSet (BitVec.ofNat 32 acquires.length) = false := by
      rw [isSet_ofNat hlt.le]
      exact decide_eq_false (by omega)
    refine ⟨_, cycles_eq acquires hlt.le, hfree, ?_, by rw [tryGetLock_free hfree]⟩
    rw [toNat_and_lockMask, BitVec.toNat_ofNat]
    omega

/-- An object with a lock word that its functions use in the same way. -/
structure Lockable (σ : Type) where
  word : σ → LockWord
  put : σ → LockWord → σ
  word_put : ∀ s v, word (put s v) = v
  put_put : ∀ s v w, put (put s v) w = put s w
  takes : σ → Bool
  takes_eq : ∀ s, takes s = (tryGetLock (word s)).1
  lockCycle : σ → Acquire → Option σ
  lockCycle_eq : ∀ s a, lockCycle s a = (cycle (word s) a).map (put s)

namespace Lockable

variable {σ : Type} (L : Lockable σ)

theorem cycles_put (acquires : List Acquire) (s : σ) (v : LockWord) :
    acquires.foldlM L.lockCycle (L.put s v) = (acquires.foldlM cycle v).map (L.put s) := by
  induction acquires generalizing v with
  | nil => rfl
  | cons a acquires ih =>
      rw [List.foldlM_cons, List.foldlM_cons, L.lockCycle_eq, L.word_put]
      cases cycle v a with
      | none => rfl
      | some w =>
          rw [Option.map_some, L.put_put]
          exact ih w

theorem relockable_iff (acquires : List Acquire) (s : σ) :
    (∃ m, acquires.foldlM L.lockCycle (L.put s 0#32) = some m ∧ isSet (L.word m) = false ∧
      (L.word m &&& lockMask).toNat = acquires.length % 2 ^ 31 ∧ L.takes m = true) ↔
      acquires.length < 2 ^ 31 := by
  rw [← VersionLock.relockable_iff, L.cycles_put]
  constructor
  · rintro ⟨m, hm, hfree, hversion, htaken⟩
    obtain ⟨v, hv, rfl⟩ := Option.map_eq_some_iff.mp hm
    rw [L.word_put] at hfree hversion
    rw [L.takes_eq, L.word_put] at htaken
    exact ⟨v, hv, hfree, hversion, htaken⟩
  · rintro ⟨v, hv, hfree, hversion, htaken⟩
    refine ⟨L.put s v, by rw [hv, Option.map_some], ?_, ?_, ?_⟩
    · rw [L.word_put]
      exact hfree
    · rw [L.word_put]
      exact hversion
    · rw [L.takes_eq, L.word_put]
      exact htaken

/-- After `2 ^ 31` cycles the lock looks taken. -/
theorem stuck (s : σ) : ∃ m, (List.replicate (2 ^ 31) Acquire.tryGetLock).foldlM L.lockCycle
    (L.put s 0#32) = some m ∧ isSet (L.word m) = true ∧ L.takes m = false := by
  have hcycles := cycles_eq (List.replicate (2 ^ 31) Acquire.tryGetLock)
    (List.length_replicate ..).le
  have hset : isSet (BitVec.ofNat 32 (2 ^ 31)) = true := by
    rw [isSet_ofNat (le_refl _)]
    exact decide_eq_true rfl
  rw [List.length_replicate] at hcycles
  refine ⟨L.put s (BitVec.ofNat 32 (2 ^ 31)), ?_, ?_, ?_⟩
  · rw [L.cycles_put, hcycles, Option.map_some]
  · rw [L.word_put]
    exact hset
  · rw [L.takes_eq, L.word_put, tryGetLock, if_pos hset]

end Lockable

end VersionLock

open VersionLock

/-! ### The lock of a data node and the lock of the root -/

namespace DataNode

variable {M P : Type}

def getLock (n : DataNode M P) : Option (DataNode M P) :=
  (VersionLock.getLock n.lock).map (fun v => { n with lock := v })

def lockCycle (n : DataNode M P) : Acquire → Option (DataNode M P)
  | .getLock => n.getLock.map releaseLock
  | .tryGetLock =>
      match n.tryGetLock with
      | (true, n) => some n.releaseLock
      | (false, _) => none

theorem tryGetLock_eq (n : DataNode M P) : n.tryGetLock =
    ((VersionLock.tryGetLock n.lock).1, { n with lock := (VersionLock.tryGetLock n.lock).2 }) := by
  cases h : isSet n.lock with
  | false => simp [tryGetLock, h, tryGetLock_free h]
  | true => simp [tryGetLock, VersionLock.tryGetLock, h]

theorem lockCycle_eq (n : DataNode M P) (a : Acquire) :
    n.lockCycle a = (cycle n.lock a).map (fun v => { n with lock := v }) := by
  cases a with
  | getLock =>
      unfold lockCycle getLock cycle
      cases VersionLock.getLock n.lock <;> rfl
  | tryGetLock =>
      unfold lockCycle cycle
      rw [tryGetLock_eq]
      rcases VersionLock.tryGetLock n.lock with ⟨_ | _, v⟩ <;> rfl

def lockable : Lockable (DataNode M P) where
  word := lock
  put := fun n v => { n with lock := v }
  word_put := fun _ _ => rfl
  put_put := fun _ _ _ => rfl
  takes := fun n => n.tryGetLock.1
  takes_eq := fun n => by rw [tryGetLock_eq]
  lockCycle := lockCycle
  lockCycle_eq := lockCycle_eq

end DataNode

/-- `root_lock_` of an `Alex` object. -/
structure RootLock where
  rootLock : LockWord

namespace RootLock

def getLock (r : RootLock) : Option RootLock := (VersionLock.getLock r.rootLock).map RootLock.mk

def tryGetLock (r : RootLock) : Bool × RootLock :=
  ((VersionLock.tryGetLock r.rootLock).1, ⟨(VersionLock.tryGetLock r.rootLock).2⟩)

def releaseLock (r : RootLock) : RootLock := ⟨VersionLock.releaseLock r.rootLock⟩

def lockCycle (r : RootLock) : Acquire → Option RootLock
  | .getLock => r.getLock.map releaseLock
  | .tryGetLock =>
      match r.tryGetLock with
      | (true, r) => some r.releaseLock
      | (false, _) => none

theorem lockCycle_eq (r : RootLock) (a : Acquire) :
    r.lockCycle a = (cycle r.rootLock a).map RootLock.mk := by
  cases a with
  | getLock =>
      unfold lockCycle getLock cycle
      cases VersionLock.getLock r.rootLock <;> rfl
  | tryGetLock =>
      unfold lockCycle cycle tryGetLock
      rcases VersionLock.tryGetLock r.rootLock with ⟨_ | _, v⟩ <;> rfl

def lockable : Lockable RootLock where
  word := rootLock
  put := fun _ v => ⟨v⟩
  word_put := fun _ _ => rfl
  put_put := fun _ _ _ => rfl
  takes := fun r => r.tryGetLock.1
  takes_eq := fun _ => rfl
  lockCycle := lockCycle
  lockCycle_eq := lockCycle_eq

end RootLock

/-! ### Taking the lock again -/

/-- **The lock can be taken again after fewer than `2 ^ 31` releases**, and then no more. -/
theorem relock_iff {M P : Type} (n : DataNode M P) (acquires : List Acquire) :
    ((∃ m, acquires.foldlM DataNode.lockCycle { n with lock := 0#32 } = some m ∧
        isSet m.lock = false ∧ (m.lock &&& lockMask).toNat = acquires.length % 2 ^ 31 ∧
        m.tryGetLock.1 = true) ↔ acquires.length < 2 ^ 31) ∧
      ((∃ r, acquires.foldlM RootLock.lockCycle ⟨0#32⟩ = some r ∧
        isSet r.rootLock = false ∧ (r.rootLock &&& lockMask).toNat = acquires.length % 2 ^ 31 ∧
        r.tryGetLock.1 = true) ↔ acquires.length < 2 ^ 31) :=
  ⟨DataNode.lockable.relockable_iff acquires n,
    RootLock.lockable.relockable_iff acquires ⟨0#32⟩⟩

/-- The locks of a new data node and of a new index after `2 ^ 31` releases. -/
theorem not_relockable :
    (∃ m, (List.replicate (2 ^ 31) Acquire.tryGetLock).foldlM DataNode.lockCycle
        (DataNode.new .uint64 0 1 : DataNode LinearModel ℕ) = some m ∧ isSet m.lock = true ∧
        m.tryGetLock.1 = false) ∧
      ∃ r, (List.replicate (2 ^ 31) Acquire.tryGetLock).foldlM RootLock.lockCycle ⟨0#32⟩ = some r ∧
        isSet r.rootLock = true ∧ r.tryGetLock.1 = false :=
  ⟨DataNode.lockable.stuck (DataNode.new .uint64 0 1), RootLock.lockable.stuck ⟨0#32⟩⟩

end LearnedIndex.Alexol
