import LearnedIndex.Lib.Machine
import Mathlib.Logic.Function.Basic
import Mathlib.Data.Fintype.Basic
import Mathlib.Data.List.OfFn

/-! # Epoch based memory reclamation (`alex.h`)

Any number of threads enter and leave critical sections and hand in nodes for deletion.  The steps
of `enterCriticalSection` that other threads can come between are separate actions: the load of
`mCurrentEpoch`, the call of `enter` (which may free one list and then publishes the epoch), the
scan of `canAdvance` and the compare-and-swap.

* The value 3 of `mLocalEpoch` and `mPreviouslyAccessedEpoch` is `none`.
* A thread that has not yet used the structure looks like one outside of every critical section.

The epoch that a thread publishes may be outdated, since it was loaded in an earlier step, and so
may the scan when the epoch is advanced.  A node that is in use can be freed then
(`exists_freed_in_use`); as long as neither happens (`InTime`) no such node is freed
(`not_freed_of_inTime`). -/

namespace LearnedIndex.Alexol.Reclamation

open LearnedIndex.Machine

/-- The epochs 0, 1 and 2. -/
abbrev Epoch := Fin 3

/-- `NEXT_EPOCH`. -/
def nextEpoch : Epoch → Epoch
  | 0 => 1
  | 1 => 2
  | 2 => 0

/-- `PREVIOUS_EPOCH`. -/
def previousEpoch : Epoch → Epoch
  | 0 => 2
  | 1 => 0
  | 2 => 1

/-- Where a thread is. -/
inductive Pc where
  /-- Outside of a critical section. -/
  | idle
  /-- `mCurrentEpoch` has been loaded. -/
  | loaded (currentEpoch : Epoch)
  /-- The epoch has been published. -/
  | entered (currentEpoch : Epoch)
  /-- The scan has allowed an advance. -/
  | scanned (currentEpoch : Epoch)
  /-- `enterCriticalSection` has returned. -/
  | inside
deriving DecidableEq

/-- `ThreadSpecificEpochBasedReclamationInformation`, with the position of the thread. -/
structure ThreadInfo where
  freeLists : Epoch → List ℕ
  localEpoch : Option Epoch
  previouslyAccessedEpoch : Option Epoch
  threadWantsToAdvance : Bool
  pc : Pc

namespace ThreadInfo

def new : ThreadInfo where
  freeLists := fun _ => []
  localEpoch := none
  previouslyAccessedEpoch := none
  threadWantsToAdvance := false
  pc := .idle

def scheduleForDeletion (i : ThreadInfo) (epoch : Epoch) (node : ℕ) : ThreadInfo :=
  let currentFreeList := i.freeLists epoch ++ [node]
  { i with
    freeLists := Function.update i.freeLists epoch currentFreeList
    threadWantsToAdvance := decide (currentFreeList.length % 64 = 0) }

/-- `enter`, without the nodes that it frees. -/
def enter (i : ThreadInfo) (newEpoch : Epoch) : ThreadInfo :=
  if i.previouslyAccessedEpoch = some newEpoch then { i with localEpoch := some newEpoch }
  else { i with
    freeLists := Function.update i.freeLists newEpoch []
    threadWantsToAdvance := false
    previouslyAccessedEpoch := some newEpoch
    localEpoch := some newEpoch }

/-- The nodes that `enter` frees. -/
def freedBy (i : ThreadInfo) (newEpoch : Epoch) : List ℕ :=
  if i.previouslyAccessedEpoch = some newEpoch then [] else i.freeLists newEpoch

end ThreadInfo

/-- The structure with the information of `n` threads, and the nodes freed so far. -/
structure State (n : ℕ) where
  currentEpoch : Epoch
  info : Fin n → ThreadInfo
  freed : List ℕ

namespace State

variable {n : ℕ}

def init (n : ℕ) : State n := ⟨0, fun _ => .new, []⟩

def set (s : State n) (t : Fin n) (i : ThreadInfo) : State n :=
  { s with info := Function.update s.info t i }

/-- No thread is in the epoch before the given one. -/
def canAdvance (s : State n) (currentEpoch : Epoch) : Bool :=
  !(List.finRange n).any
    (fun t => decide ((s.info t).localEpoch = some (previousEpoch currentEpoch)))

/-- The thread has published its epoch and not left since. -/
def Inside (s : State n) (t : Fin n) : Prop := ∃ e, (s.info t).localEpoch = some e

end State

/-- The atomic steps of a thread. -/
inductive Action (n : ℕ) where
  | load (t : Fin n)
  | enter (t : Fin n)
  | scan (t : Fin n)
  | advance (t : Fin n)
  | scheduleForDeletion (t : Fin n) (node : ℕ)
  | leave (t : Fin n)
deriving DecidableEq

variable {n : ℕ}

def step (s : State n) : Action n → Option (State n)
  | .load t =>
      let i := s.info t
      if i.pc = .idle then some (s.set t { i with pc := .loaded s.currentEpoch }) else none
  | .enter t =>
      let i := s.info t
      match i.pc with
      | .loaded e => some { s.set t { i.enter e with pc := .entered e } with
          freed := s.freed ++ i.freedBy e }
      | _ => none
  | .scan t =>
      let i := s.info t
      match i.pc with
      | .entered e => some (s.set t { i with
          pc := if i.threadWantsToAdvance && s.canAdvance e then .scanned e else .inside })
      | _ => none
  | .advance t =>
      let i := s.info t
      match i.pc with
      | .scanned e => some { s.set t { i with pc := .inside } with
          currentEpoch := if s.currentEpoch = e then nextEpoch e else s.currentEpoch }
      | _ => none
  | .scheduleForDeletion t node =>
      let i := s.info t
      match i.pc, i.localEpoch with
      | .inside, some e => some (s.set t (i.scheduleForDeletion e node))
      | _, _ => none
  | .leave t =>
      let i := s.info t
      if i.pc = .inside then some (s.set t { i with localEpoch := none, pc := .idle }) else none

/-! ### What a step does -/

section
variable {s s' : State n} {t : Fin n}

theorem step_load (h : step s (.load t) = some s') : (s.info t).pc = .idle ∧
    s' = s.set t { s.info t with pc := .loaded s.currentEpoch } := by
  simp only [step] at h
  split at h
  · exact ⟨‹_›, (Option.some.inj h).symm⟩
  · cases h

theorem step_enter (h : step s (.enter t) = some s') : ∃ e, (s.info t).pc = .loaded e ∧
    s' = { s.set t { (s.info t).enter e with pc := .entered e } with
      freed := s.freed ++ (s.info t).freedBy e } := by
  simp only [step] at h
  split at h
  · exact ⟨_, ‹_›, (Option.some.inj h).symm⟩
  · cases h

theorem step_scan (h : step s (.scan t) = some s') : ∃ e pc, (s.info t).pc = .entered e ∧
    (pc = .scanned e ∨ pc = .inside) ∧ s' = s.set t { s.info t with pc := pc } := by
  simp only [step] at h
  split at h
  · refine ⟨_, _, ‹_›, ?_, (Option.some.inj h).symm⟩
    split
    · exact Or.inl rfl
    · exact Or.inr rfl
  · cases h

theorem step_advance (h : step s (.advance t) = some s') : ∃ e, (s.info t).pc = .scanned e ∧
    s' = { s.set t { s.info t with pc := .inside } with
      currentEpoch := if s.currentEpoch = e then nextEpoch e else s.currentEpoch } := by
  simp only [step] at h
  split at h
  · exact ⟨_, ‹_›, (Option.some.inj h).symm⟩
  · cases h

theorem step_schedule {node : ℕ} (h : step s (.scheduleForDeletion t node) = some s') :
    ∃ e, (s.info t).pc = .inside ∧ (s.info t).localEpoch = some e ∧
      s' = s.set t ((s.info t).scheduleForDeletion e node) := by
  simp only [step] at h
  split at h
  · exact ⟨_, ‹_›, ‹_›, (Option.some.inj h).symm⟩
  · cases h

theorem step_leave (h : step s (.leave t) = some s') : (s.info t).pc = .inside ∧
    s' = s.set t { s.info t with localEpoch := none, pc := .idle } := by
  simp only [step] at h
  split at h
  · exact ⟨‹_›, (Option.some.inj h).symm⟩
  · cases h

theorem set_self (s : State n) (t : Fin n) (i : ThreadInfo) : (s.set t i).info t = i :=
  Function.update_self ..

theorem set_of_ne (s : State n) {t u : Fin n} (i : ThreadInfo) (h : u ≠ t) :
    (s.set t i).info u = s.info u := Function.update_of_ne h ..

end

/-! ### The epochs of the threads -/

theorem nextEpoch_ne (e : Epoch) : nextEpoch e ≠ e := by
  revert e
  decide

theorem nextEpoch_ne_previous (e : Epoch) : nextEpoch e ≠ previousEpoch e := by
  revert e
  decide

theorem previousEpoch_nextEpoch (e : Epoch) : previousEpoch (nextEpoch e) = e := by
  revert e
  decide

theorem nextEpoch_nextEpoch_ne (e : Epoch) : nextEpoch (nextEpoch e) ≠ e := by
  revert e
  decide

/-- An epoch is current, one behind or two behind. -/
theorem epoch_cases (e c : Epoch) : e = c ∨ e = previousEpoch c ∨ c = previousEpoch e := by
  revert e c
  decide

theorem nextEpoch_of_previous {e c : Epoch} (h : e = previousEpoch c) : c = nextEpoch e := by
  subst h
  revert c
  decide

/-- The fields of a thread fit its position. -/
structure InfoOK (i : ThreadInfo) : Prop where
  outside : i.pc = .idle → i.localEpoch = none
  loading : ∀ e, i.pc = .loaded e → i.localEpoch = none
  accessed : ∀ e, i.localEpoch = some e → i.previouslyAccessedEpoch = some e

/-- No thread is two epochs behind. -/
structure Current (s : State n) : Prop where
  ok : ∀ t, InfoOK (s.info t)
  epoch : ∀ t e, (s.info t).localEpoch = some e →
    e = s.currentEpoch ∨ e = previousEpoch s.currentEpoch

/-- The condition on an action: an epoch is published before it is two epochs behind, and the
epoch is advanced only if no thread has published the previous one since the scan. -/
def InTime (s : State n) : Action n → Prop
  | .enter t => ∀ e, (s.info t).pc = .loaded e → s.currentEpoch ≠ previousEpoch e
  | .advance t => ∀ e, (s.info t).pc = .scanned e → s.currentEpoch = e → s.canAdvance e = true
  | _ => True

theorem canAdvance_iff (s : State n) (e : Epoch) :
    s.canAdvance e = true ↔ ∀ t, (s.info t).localEpoch ≠ some (previousEpoch e) := by
  unfold State.canAdvance
  simp

theorem enter_localEpoch (i : ThreadInfo) (e : Epoch) : (i.enter e).localEpoch = some e := by
  unfold ThreadInfo.enter
  split <;> rfl

theorem enter_previous (i : ThreadInfo) (e : Epoch) :
    (i.enter e).previouslyAccessedEpoch = some e := by
  unfold ThreadInfo.enter
  split
  · assumption
  · rfl

theorem InfoOK.enter (i : ThreadInfo) (e : Epoch) : InfoOK { i.enter e with pc := .entered e } := by
  refine ⟨fun h => (by cases h), fun _ h => (by cases h), fun c hc => ?_⟩
  have hc : (i.enter e).localEpoch = some c := hc
  rw [enter_localEpoch] at hc
  show (i.enter e).previouslyAccessedEpoch = some c
  rw [enter_previous, hc]

theorem current_init (n : ℕ) : Current (State.init n) :=
  ⟨fun _ => ⟨fun _ => rfl, fun _ _ => rfl, fun _ h => (by cases h)⟩, fun _ _ h => (by cases h)⟩

/-- A thread may change if its fields still fit and its epoch is not two behind. -/
theorem Current.set {s : State n} (h : Current s) (t : Fin n) {i : ThreadInfo} (hi : InfoOK i)
    (he : ∀ e, i.localEpoch = some e → e = s.currentEpoch ∨ e = previousEpoch s.currentEpoch) :
    Current (s.set t i) := by
  refine ⟨fun u => ?_, fun u => ?_⟩
  · rcases eq_or_ne u t with rfl | hne
    · rw [set_self]
      exact hi
    · rw [set_of_ne s i hne]
      exact h.ok u
  · rcases eq_or_ne u t with rfl | hne
    · rw [set_self]
      exact he
    · rw [set_of_ne s i hne]
      exact h.epoch u

theorem Current.preserved {s s' : State n} {a : Action n} (h : Current s) (ha : InTime s a)
    (hs : step s a = some s') : Current s' := by
  cases a with
  | load t =>
      obtain ⟨hpc, rfl⟩ := step_load hs
      have hnone := (h.ok t).outside hpc
      exact h.set t ⟨fun h => (by cases h), fun _ _ => hnone, (h.ok t).accessed⟩ (h.epoch t)
  | enter t =>
      obtain ⟨e, hpc, rfl⟩ := step_enter hs
      have hc := h.set t (InfoOK.enter (s.info t) e) (fun c hc => by
        rw [enter_localEpoch] at hc
        obtain rfl := Option.some.inj hc
        rcases epoch_cases e s.currentEpoch with h1 | h1 | h1
        · exact Or.inl h1
        · exact Or.inr h1
        · exact absurd h1 (ha e hpc))
      exact ⟨hc.ok, hc.epoch⟩
  | scan t =>
      obtain ⟨e, pc, hpc, hcase, rfl⟩ := step_scan hs
      refine h.set t ⟨fun h => ?_, fun _ h => ?_, (h.ok t).accessed⟩ (h.epoch t)
      · rcases hcase with rfl | rfl <;> cases h
      · rcases hcase with rfl | rfl <;> cases h
  | advance t =>
      obtain ⟨e, hpc, rfl⟩ := step_advance hs
      have hc := h.set t (i := { s.info t with pc := .inside }) ⟨fun h => (by cases h),
        fun _ h => (by cases h), (h.ok t).accessed⟩ (h.epoch t)
      refine ⟨hc.ok, fun u c hu => ?_⟩
      rcases eq_or_ne s.currentEpoch e with heq | hne
      · -- the scan still holds, so every thread is in the epoch that is left
        have hscan := (canAdvance_iff s e).mp (ha e hpc heq) u
        have hlocal : (s.info u).localEpoch = some c := by
          rcases eq_or_ne u t with rfl | hne
          · simpa [set_self] using hu
          · simpa [set_of_ne s _ hne] using hu
        have hcur := h.epoch u c hlocal
        rw [heq] at hcur
        right
        show c = previousEpoch (if s.currentEpoch = e then nextEpoch e else s.currentEpoch)
        rw [if_pos heq, previousEpoch_nextEpoch]
        rcases hcur with h1 | h1
        · exact h1
        · exact absurd (h1 ▸ hlocal) hscan
      · show c = (if s.currentEpoch = e then nextEpoch e else s.currentEpoch) ∨
          c = previousEpoch (if s.currentEpoch = e then nextEpoch e else s.currentEpoch)
        rw [if_neg hne]
        exact hc.epoch u c hu
  | scheduleForDeletion t node =>
      obtain ⟨e, hpc, he, rfl⟩ := step_schedule hs
      exact h.set t ⟨(h.ok t).outside, (h.ok t).loading, (h.ok t).accessed⟩ (h.epoch t)
  | leave t =>
      obtain ⟨hpc, rfl⟩ := step_leave hs
      exact h.set t ⟨fun _ => rfl, fun _ _ => rfl, fun _ h => (by cases h)⟩ (fun _ h => by cases h)

/-- The node has never been handed in. -/
def Unknown (s : State n) (node : ℕ) : Prop :=
  node ∉ s.freed ∧ ∀ t e, node ∉ (s.info t).freeLists e

instance (s : State n) (node : ℕ) : Decidable (Unknown s node) :=
  inferInstanceAs (Decidable (_ ∧ _))

/-- No node is freed that was handed in while a thread was inside that still is, in runs whose
actions satisfy `ok`. -/
def Protects (ok : ∀ n, State n → Action n → Prop) : Prop :=
  ∀ (n : ℕ) (s₁ s₂ s₃ : State n) (t u : Fin n) (node : ℕ), Run step (ok n) (State.init n) s₁ →
    s₁.Inside t → Unknown s₁ node → step s₁ (.scheduleForDeletion u node) = some s₂ →
    Run step (fun s a => ok n s a ∧ a ≠ .leave t) s₂ s₃ → node ∉ s₃.freed

/-! ### Nodes that are handed in while a thread is inside -/

/-- What is known of thread `u` while a node is in its list of epoch `e` and some thread stays in
epoch `l`: the epoch is `l` or the next one, and `u` cannot come back to `e`. -/
structure Kept (s : State n) (u : Fin n) (e l : Epoch) : Prop where
  loaded : ∀ c, (s.info u).pc = .loaded c →
    c = l ∨ (c = nextEpoch l ∧ s.currentEpoch = nextEpoch l)
  same : e = l → (s.info u).previouslyAccessedEpoch ≠ some e →
    s.currentEpoch = nextEpoch l ∧ ∀ c, (s.info u).pc = .loaded c → c = nextEpoch l
  next : e = nextEpoch l → s.currentEpoch = nextEpoch l ∧
    (s.info u).previouslyAccessedEpoch = some e ∧
    ∀ c, (s.info u).pc = .loaded c → c = nextEpoch l

/-- Thread `t` stays in epoch `l` and the node is still in the free lists only. -/
structure Held (s : State n) (t : Fin n) (l : Epoch) (node : ℕ) : Prop where
  current : Current s
  at_epoch : (s.info t).localEpoch = some l
  not_freed : node ∉ s.freed
  kept : ∀ u e, node ∈ (s.info u).freeLists e → Kept s u e l

theorem Held.epoch {s : State n} {t : Fin n} {l : Epoch} {node : ℕ} (h : Held s t l node) :
    s.currentEpoch = l ∨ s.currentEpoch = nextEpoch l := by
  rcases h.current.epoch t l h.at_epoch with h1 | h1
  · exact Or.inl h1.symm
  · exact Or.inr (nextEpoch_of_previous h1)

/-- Facts about a thread whose relevant fields have not changed. -/
theorem Kept.congr {s s' : State n} {u : Fin n} {e l : Epoch} (h : Kept s u e l)
    (hc : s'.currentEpoch = s.currentEpoch)
    (hpc : ∀ c, (s'.info u).pc = .loaded c → (s.info u).pc = .loaded c)
    (hp : (s'.info u).previouslyAccessedEpoch = (s.info u).previouslyAccessedEpoch) :
    Kept s' u e l := by
  refine ⟨fun c h' => ?_, fun he hne => ?_, fun he => ?_⟩
  · rw [hc]
    exact h.loaded c (hpc c h')
  · rw [hp] at hne
    rw [hc]
    exact ⟨(h.same he hne).1, fun c h' => (h.same he hne).2 c (hpc c h')⟩
  · rw [hc, hp]
    exact ⟨(h.next he).1, (h.next he).2.1, fun c h' => (h.next he).2.2 c (hpc c h')⟩

/-- A thread that is inside and hands in a node cannot come back to its epoch soon. -/
theorem Current.kept {s : State n} (h : Current s) {t u : Fin n} {l e : Epoch}
    (ht : (s.info t).localEpoch = some l) (hpc : (s.info u).pc = .inside)
    (hu : (s.info u).localEpoch = some e) : Kept s u e l := by
  have hprev := (h.ok u).accessed e hu
  have hnot : ∀ c, (s.info u).pc ≠ .loaded c := fun c hc => by
    rw [hpc] at hc
    cases hc
  refine ⟨fun c hc => absurd hc (hnot c), fun _ hne => absurd hprev hne, fun he => ?_⟩
  refine ⟨?_, hprev, fun c hc => absurd hc (hnot c)⟩
  rcases h.epoch t l ht with h1 | h1
  · -- the thread that hands in would be two epochs behind
    rcases h.epoch u e hu with h2 | h2
    · rw [← h2, he]
    · rw [← h1] at h2
      exact absurd (he.symm.trans h2) (nextEpoch_ne_previous l)
  · exact nextEpoch_of_previous h1

/-- Entering does not free the node. -/
theorem Kept.not_freed {s : State n} {u : Fin n} {l c : Epoch} {node : ℕ}
    (h : ∀ e, node ∈ (s.info u).freeLists e → Kept s u e l) (hpc : (s.info u).pc = .loaded c) :
    node ∉ (s.info u).freedBy c := by
  unfold ThreadInfo.freedBy
  split
  · simp
  · rename_i hne
    intro hmem
    have hk := h c hmem
    rcases hk.loaded c hpc with h1 | ⟨h1, _⟩
    · have := (hk.same h1 hne).2 c hpc
      exact nextEpoch_ne l (this.symm.trans h1)
    · exact hne (hk.next h1).2.1

theorem enter_freeLists {i : ThreadInfo} {c e : Epoch} {node : ℕ}
    (h : node ∈ (i.enter c).freeLists e) : node ∈ i.freeLists e := by
  unfold ThreadInfo.enter at h
  split at h
  · exact h
  · rcases eq_or_ne e c with rfl | hne
    · simp at h
    · simpa [Function.update_of_ne hne] using h

section
variable {s : State n} {t u : Fin n} {l : Epoch} {node : ℕ}

/-- One thread changes. -/
theorem Held.set (h : Held s t l node) {i : ThreadInfo} (hcur : Current (s.set u i))
    (ht : u = t → i.localEpoch = some l)
    (hk : ∀ e, node ∈ i.freeLists e → Kept (s.set u i) u e l) : Held (s.set u i) t l node := by
  refine ⟨hcur, ?_, h.not_freed, fun v e hv => ?_⟩
  · rcases eq_or_ne t u with rfl | htu
    · rw [set_self]
      exact ht rfl
    · rw [set_of_ne s _ htu]
      exact h.at_epoch
  · rcases eq_or_ne v u with rfl | hvu
    · rw [set_self] at hv
      exact hk e hv
    · rw [set_of_ne s _ hvu] at hv
      refine (h.kept v e hv).congr rfl ?_ ?_
      · rw [set_of_ne s _ hvu]
        exact fun _ hc => hc
      · rw [set_of_ne s _ hvu]

/-- Other nodes are freed. -/
theorem Held.free (h : Held s t l node) {nodes : List ℕ} (hn : node ∉ nodes) :
    Held { s with freed := s.freed ++ nodes } t l node := by
  refine ⟨⟨h.current.ok, h.current.epoch⟩, h.at_epoch, ?_, fun u e hu => ?_⟩
  · simp only [List.mem_append, not_or]
    exact ⟨h.not_freed, hn⟩
  · exact (h.kept u e hu).congr rfl (fun _ hc => hc) rfl

/-- The epoch advances; the thread that stays in `l` is not left two epochs behind. -/
theorem Held.advance (h : Held s t l node)
    (hcur : Current { s with currentEpoch := nextEpoch s.currentEpoch }) :
    Held { s with currentEpoch := nextEpoch s.currentEpoch } t l node := by
  have hl : s.currentEpoch = l := by
    rcases h.epoch with h1 | h1
    · exact h1
    · rcases hcur.epoch t l h.at_epoch with h2 | h2
      · have h2 : l = nextEpoch s.currentEpoch := h2
        rw [h1] at h2
        exact absurd h2.symm (nextEpoch_nextEpoch_ne l)
      · have h2 : l = previousEpoch (nextEpoch s.currentEpoch) := h2
        rw [previousEpoch_nextEpoch] at h2
        exact h2.symm
  have hne : s.currentEpoch ≠ nextEpoch l := by
    rw [hl]
    exact (nextEpoch_ne l).symm
  refine ⟨hcur, h.at_epoch, h.not_freed, fun u e hu => ?_⟩
  have hk := h.kept u e hu
  refine ⟨fun c hc => ?_, fun he hp => ?_, fun he => ?_⟩
  · rcases hk.loaded c hc with h1 | ⟨_, h1⟩
    · exact Or.inl h1
    · exact absurd h1 hne
  · exact absurd (hk.same he hp).1 hne
  · exact absurd (hk.next he).1 hne

end

theorem Held.preserved {s s' : State n} {a : Action n} {t : Fin n} {l : Epoch} {node : ℕ}
    (h : Held s t l node) (ha : InTime s a) (hne : a ≠ .leave t) (hs : step s a = some s') :
    Held s' t l node := by
  have hcur := h.current.preserved ha hs
  cases a with
  | load u =>
      obtain ⟨hpc, rfl⟩ := step_load hs
      have hnone := (h.current.ok u).outside hpc
      refine h.set hcur (fun hut => hut ▸ h.at_epoch) (fun e hu => ?_)
      have hk := h.kept u e hu
      -- the loaded epoch is the current one
      have hload : ∀ c, ((s.set u { s.info u with pc := .loaded s.currentEpoch }).info u).pc =
          .loaded c → c = s.currentEpoch := by
        intro c hc
        rw [set_self] at hc
        simpa using hc.symm
      refine ⟨fun c hc => ?_, fun he hp => ?_, fun he => ?_⟩
      · rw [hload c hc]
        exact h.epoch.imp id (fun h1 => ⟨h1, h1⟩)
      · rw [set_self] at hp
        have h1 := (hk.same he hp).1
        exact ⟨h1, fun c hc => (hload c hc).trans h1⟩
      · obtain ⟨h1, h2, _⟩ := hk.next he
        refine ⟨h1, ?_, fun c hc => (hload c hc).trans h1⟩
        rw [set_self]
        exact h2
  | enter u =>
      obtain ⟨c, hpc, rfl⟩ := step_enter hs
      have hset : Held (s.set u { (s.info u).enter c with pc := .entered c }) t l node := by
        refine h.set ⟨hcur.ok, hcur.epoch⟩ (fun hut => ?_) (fun e hu => ?_)
        · have := (h.current.ok u).loading c hpc
          rw [hut, h.at_epoch] at this
          cases this
        · have hk := h.kept u e (enter_freeLists hu)
          have hprev : ((s.set u { (s.info u).enter c with pc := .entered c }).info
              u).previouslyAccessedEpoch = some c := by
            rw [set_self]
            exact enter_previous _ c
          have hnot : ∀ c', ((s.set u { (s.info u).enter c with pc := .entered c }).info u).pc ≠
              .loaded c' := by
            intro c'
            rw [set_self]
            simp
          refine ⟨fun c' hc' => absurd hc' (hnot c'), fun he hp => ?_, fun he => ?_⟩
          · refine ⟨?_, fun c' hc' => absurd hc' (hnot c')⟩
            rcases hk.loaded c hpc with h1 | h1
            · exact absurd (hprev.trans (by rw [h1, he])) hp
            · exact h1.2
          · obtain ⟨h1, _, h3⟩ := hk.next he
            refine ⟨h1, ?_, fun c' hc' => absurd hc' (hnot c')⟩
            exact hprev.trans (by rw [h3 c hpc, he])
      exact hset.free (Kept.not_freed (h.kept u) hpc)
  | scan u =>
      obtain ⟨c, pc, hpc, hcase, rfl⟩ := step_scan hs
      refine h.set hcur (fun hut => hut ▸ h.at_epoch) (fun e hu => ?_)
      refine (h.kept u e hu).congr rfl (fun c' hc' => ?_) (by rw [set_self])
      rw [set_self] at hc'
      rcases hcase with rfl | rfl <;> cases hc'
  | advance u =>
      obtain ⟨c, hpc, rfl⟩ := step_advance hs
      have hstill : Current (s.set u { s.info u with pc := .inside }) :=
        h.current.set u ⟨fun h => (by cases h), fun _ h => (by cases h), (h.current.ok u).accessed⟩
          (h.current.epoch u)
      have hset : Held (s.set u { s.info u with pc := .inside }) t l node := by
        refine h.set hstill (fun hut => hut ▸ h.at_epoch) (fun e hu => ?_)
        refine (h.kept u e hu).congr rfl (fun c' hc' => ?_) (by rw [set_self])
        rw [set_self] at hc'
        cases hc'
      rcases eq_or_ne s.currentEpoch c with rfl | hne
      · rw [if_pos rfl] at hcur ⊢
        exact hset.advance hcur
      · rw [if_neg hne] at hcur ⊢
        exact hset
  | scheduleForDeletion u x =>
      obtain ⟨c, hpc, hc, rfl⟩ := step_schedule hs
      refine h.set hcur (fun hut => hut ▸ h.at_epoch) (fun e hu => ?_)
      have hk : Kept s u e l := by
        rcases eq_or_ne e c with rfl | hne
        · exact h.current.kept h.at_epoch hpc hc
        · refine h.kept u e ?_
          simpa [ThreadInfo.scheduleForDeletion, Function.update_of_ne hne] using hu
      refine hk.congr rfl (fun c' hc' => ?_) ?_
      · rw [set_self] at hc'
        exact hc'
      · rw [set_self]
        rfl
  | leave u =>
      obtain ⟨hpc, rfl⟩ := step_leave hs
      refine h.set hcur (fun hut => absurd (by rw [hut]) hne) (fun e hu => ?_)
      refine (h.kept u e hu).congr rfl (fun c' hc' => ?_) (by rw [set_self])
      rw [set_self] at hc'
      cases hc'

/-- The state after a node has been handed in while `t` is inside. -/
theorem Current.held {s s' : State n} {t u : Fin n} {l : Epoch} {node : ℕ} (h : Current s)
    (ht : (s.info t).localEpoch = some l) (hnode : Unknown s node)
    (hs : step s (.scheduleForDeletion u node) = some s') : Held s' t l node := by
  have h0 : Held s t l node :=
    ⟨h, ht, hnode.1, fun v e hv => absurd hv (hnode.2 v e)⟩
  exact Held.preserved (a := .scheduleForDeletion u node) h0 trivial (by simp) hs

/-- A node that is handed in while a thread is inside is not freed before the thread leaves, in
every run whose epochs are published and advanced in time. -/
theorem not_freed_of_inTime {s₁ s₂ s₃ : State n} {t u : Fin n} {node : ℕ}
    (hreach : Run step InTime (State.init n) s₁) (hin : s₁.Inside t) (hnode : Unknown s₁ node)
    (hs : step s₁ (.scheduleForDeletion u node) = some s₂)
    (hrun : Run step (fun s a => InTime s a ∧ a ≠ .leave t) s₂ s₃) : node ∉ s₃.freed := by
  obtain ⟨l, hl⟩ := hin
  have hcur : Current s₁ := hreach.invariant (current_init n)
    (fun _ _ _ h ha hstep => Current.preserved h ha hstep)
  have hheld : Held s₃ t l node := hrun.invariant (I := fun s => Held s t l node)
    (hcur.held hl hnode hs) (fun _ _ _ h ha hstep => h.preserved ha.1 ha.2 hstep)
  exact hheld.not_freed

/-! ### Two and three threads -/

/-- A thread enters a critical section without advancing the epoch. -/
def visit (t : Fin n) : List (Action n) := [.load t, .enter t, .scan t]

/-- A thread hands in 64 nodes, leaves, and advances the epoch when it enters the next time. -/
def advanceEpoch (t : Fin n) (node : ℕ) : List (Action n) :=
  visit t ++ (List.range 64).map (fun i => .scheduleForDeletion t (node + i)) ++ [.leave t] ++
    visit t ++ [.advance t, .leave t]

instance InTime.decidable (s : State n) : ∀ a, Decidable (InTime s a)
  | .enter t => inferInstanceAs (Decidable (∀ e, (s.info t).pc = .loaded e →
      s.currentEpoch ≠ previousEpoch e))
  | .advance t => inferInstanceAs (Decidable (∀ e, (s.info t).pc = .scanned e →
      s.currentEpoch = e → s.canAdvance e = true))
  | .load _ | .scan _ | .scheduleForDeletion _ _ | .leave _ => isTrue trivial

/-- A thread hands in 63 more nodes and advances the epoch. -/
def advanceOnce (t : Fin n) : List (Action n) :=
  (List.range 63).map (fun i => .scheduleForDeletion t (100 + i)) ++ [.leave t] ++ visit t ++
    [.advance t, .leave t] ++ visit t

/-- Thread 0 stays inside while thread 1 hands in a node and advances the epoch. -/
theorem not_freed_twoThreads : ∃ s₁ s₂ s₃ : State 2, s₁.Inside 0 ∧
    step s₁ (.scheduleForDeletion 1 7) = some s₂ ∧ s₃.currentEpoch = 1 ∧
    (s₃.info 1).localEpoch = some 1 ∧ 7 ∉ s₃.freed := by
  have hrun : (exec (fun s a => if InTime s a then step s a else none) (State.init 2)
      (visit 0 ++ visit 1)).any (fun s₁ =>
      decide ((s₁.info 0).localEpoch = some 0) && decide (Unknown s₁ 7) &&
        (step s₁ (.scheduleForDeletion 1 7)).any (fun s₂ =>
          (exec (fun s a => if InTime s a ∧ a ≠ .leave 0 then step s a else none) s₂
            (advanceOnce 1)).any (fun s₃ => decide (s₃.currentEpoch = 1) &&
              decide ((s₃.info 1).localEpoch = some 1)))) = true := by
    decide +kernel
  obtain ⟨s₁, h₁, hs₁⟩ := (Option.any_eq_true _ _).mp hrun
  simp only [Bool.and_eq_true, decide_eq_true_eq] at hs₁
  obtain ⟨⟨hin, hnode⟩, hs₂⟩ := hs₁
  obtain ⟨s₂, h₂, hs₂⟩ := (Option.any_eq_true _ _).mp hs₂
  obtain ⟨s₃, h₃, hs₃⟩ := (Option.any_eq_true _ _).mp hs₂
  simp only [Bool.and_eq_true, decide_eq_true_eq] at hs₃
  exact ⟨s₁, s₂, s₃, ⟨0, hin⟩, h₂, hs₃.1, hs₃.2, not_freed_of_inTime (run_of_exec_allowed h₁)
    ⟨0, hin⟩ hnode h₂ (run_of_exec_allowed h₃)⟩

/-- Thread 0 loads the epoch, thread 1 advances it twice, thread 0 publishes what it has loaded and
thread 2 enters. -/
def before : List (Action 3) :=
  [.load 0] ++ advanceEpoch 1 100 ++ advanceEpoch 1 200 ++ [.enter 0, .scan 0] ++ visit 2

/-- Thread 0 moves on to the current epoch, thread 1 advances it, and thread 0 enters again. -/
def after : List (Action 3) :=
  [.leave 0] ++ visit 0 ++ [.leave 0] ++ advanceEpoch 1 300 ++ visit 0

/-- Thread 2 is inside, thread 0 hands in a node, and the node is freed while thread 2 stays. -/
theorem exists_freed_in_use : ¬ Protects (fun _ _ _ => True) := by
  have hrun : (exec step (State.init 3) before).any (fun s₁ =>
      decide ((s₁.info 2).localEpoch = some 2) && decide (Unknown s₁ 1000) &&
        (step s₁ (.scheduleForDeletion 0 1000)).any (fun s₂ =>
          (exec step s₂ after).any (fun s₃ => decide (1000 ∈ s₃.freed)))) = true := by
    decide +kernel
  obtain ⟨s₁, h₁, hs₁⟩ := (Option.any_eq_true _ _).mp hrun
  simp only [Bool.and_eq_true, decide_eq_true_eq] at hs₁
  obtain ⟨⟨hin, hnode⟩, hs₂⟩ := hs₁
  obtain ⟨s₂, h₂, hs₂⟩ := (Option.any_eq_true _ _).mp hs₂
  obtain ⟨s₃, h₃, hs₃⟩ := (Option.any_eq_true _ _).mp hs₂
  have hstay : ∀ a ∈ after, a ≠ .leave 2 := by decide
  intro hp
  refine hp 3 s₁ s₂ s₃ 2 0 1000 ?_ ⟨2, hin⟩ hnode h₂ ?_ (of_decide_eq_true hs₃)
  · exact run_of_exec (p := fun _ => True) h₁ (fun _ _ => trivial)
  · exact (run_of_exec h₃ hstay).mono (fun _ _ ha => ⟨trivial, ha⟩)

end LearnedIndex.Alexol.Reclamation
