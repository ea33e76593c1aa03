import LearnedIndex.Alexol.LeafLinks

/-! # The invariant of concurrent restructurings

The invariant follows the *chain*: the leaves from left to right, in which a leaf stays until the
restructuring that replaces it has written its last link.  Until then the links of the chain lead to
and from the old leaf or the new ones, according to how far the thread has come (`Pc.nextTo`,
`Pc.prevFrom`, `Pc.nextFrom`).

The link locks exclude the two bad cases.  A thread that is about to write, or has written, the link
from its left neighbour holds the link lock of that neighbour (`ThreadInv.guard`); a thread that
reads and passes on the link of its old leaf holds the link lock of that leaf. -/

namespace LearnedIndex.Alexol.LeafLinks

open LearnedIndex.Machine LearnedIndex.Chains

/-! ### What the position of a thread says -/

/-- The new leaves that stay locked until the link locks are released. -/
def Job.kept {ν : Type} (j : Job ν) : List ν :=
  match j.kind with
  | .resize => []
  | .split => j.news

namespace Pc
variable {ν : Type}

/-- The restructuring the thread is in, until the link locks are released. -/
def job : Pc ν → Option (Job ν)
  | publish j | readPrev j | tryPrev j _ | recheck j _ | unlockPrev j _ | setNext j _ | setPrev j _
  | lockLast j | lockOld j | readNext j | setLastNext j _ | setNextPrev j _ | unlockNew j
  | readFirstPrev j | unlockFirstPrev j _ | unlockLast j => some j
  | _ => none

/-- The restructuring whose links are not all written. -/
def linking : Pc ν → Option (Job ν)
  | publish j | readPrev j | tryPrev j _ | recheck j _ | unlockPrev j _ | setNext j _ | setPrev j _
  | lockLast j | lockOld j | readNext j | setLastNext j _ | setNextPrev j _ => some j
  | _ => none

/-- The restructuring that has changed the parent and has not written all its links. -/
def relinking : Pc ν → Option (Job ν)
  | readPrev j | tryPrev j _ | recheck j _ | unlockPrev j _ | setNext j _ | setPrev j _
  | lockLast j | lockOld j | readNext j | setLastNext j _ | setNextPrev j _ => some j
  | _ => none

/-- The leaves that the tree has in the place of `x`. -/
def shown (x : ν) : Pc ν → List ν
  | readPrev j | tryPrev j _ | recheck j _ | unlockPrev j _ | setNext j _ | setPrev j _
  | lockLast j | lockOld j | readNext j | setLastNext j _ | setNextPrev j _ => j.news
  | _ => [x]

/-- The leaf that the link from the left leads to. -/
def nextTo (x : ν) : Pc ν → ν
  | setPrev j _ | lockLast j | lockOld j | readNext j | setLastNext j _ | setNextPrev j _ => j.first
  | _ => x

/-- The leaf that has the link to the left. -/
def prevFrom (x : ν) : Pc ν → ν
  | lockLast j | lockOld j | readNext j | setLastNext j _ | setNextPrev j _ => j.first
  | _ => x

/-- The leaf that has the link to the right. -/
def nextFrom (x : ν) : Pc ν → ν
  | setNextPrev j _ => j.last
  | _ => x

/-- The link locks that the thread holds, apart from those it finds through a link. -/
def linkHeld : Pc ν → List ν
  | recheck _ p | unlockPrev _ p | setNext _ p | setPrev _ p => [p]
  | lockOld j => [j.last]
  | readNext j | setLastNext j _ | setNextPrev j _ => [j.last, j.old]
  | unlockNew j | readFirstPrev j | unlockLast j => [j.last]
  | unlockFirstPrev j p => [p, j.last]
  | _ => []

/-- The leaf whose left neighbour's link lock the thread holds. -/
def guarded : Pc ν → Option ν
  | setNext j _ | setPrev j _ | lockLast j | lockOld j | readNext j | setLastNext j _
  | setNextPrev j _ => some j.old
  | unlockNew j | readFirstPrev j => some j.first
  | _ => none

/-- The leaves of the chain that the thread has locked. -/
def locks : Pc ν → List ν
  | locked x => [x]
  | publish j | readPrev j | tryPrev j _ | recheck j _ | unlockPrev j _ | setNext j _ | setPrev j _
  | lockLast j | lockOld j | readNext j | setLastNext j _ | setNextPrev j _ => [j.old]
  | unlockNew j => j.news
  | readFirstPrev j | unlockFirstPrev j _ | unlockLast j => j.kept
  | unlockLeaves l => l
  | idle => []

/-- The leaf whose link to the left must not change. -/
def watchPrev : Pc ν → Option ν
  | setNext j _ | setPrev j _ => some j.old
  | unlockNew j | readFirstPrev j => some j.first
  | _ => none

/-- The leaf whose link to the right must not change. -/
def watchNext : Pc ν → Option ν
  | setLastNext j _ => some j.old
  | setNextPrev j _ => some j.last
  | _ => none

/-- The leaves that can stand for `x` in the chain. -/
def zone (x : ν) (pc : Pc ν) : List ν := x :: (pc.linking.map Job.news).getD []

theorem nextTo_mem_zone (x : ν) (pc : Pc ν) : pc.nextTo x ∈ pc.zone x := by
  cases pc <;> simp [nextTo, zone, linking, Job.news]

theorem prevFrom_mem_zone (x : ν) (pc : Pc ν) : pc.prevFrom x ∈ pc.zone x := by
  cases pc <;> simp [prevFrom, zone, linking, Job.news]

theorem nextFrom_mem_zone (x : ν) (pc : Pc ν) : pc.nextFrom x ∈ pc.zone x := by
  cases pc with
  | setNextPrev j n => exact List.mem_cons_of_mem x j.last_mem
  | _ => exact List.mem_cons_self ..

theorem linking_afterLink (j : Job ν) : j.afterLink.linking = none := by
  unfold Job.afterLink
  cases j.kind <;> rfl

theorem job_afterLink (j : Job ν) : j.afterLink.job = some j := by
  unfold Job.afterLink
  cases j.kind <;> rfl

theorem locks_afterLink (j : Job ν) : j.afterLink.locks = j.news := by
  obtain ⟨kind, old, first, rest⟩ := j
  cases kind <;> rfl

theorem linkHeld_afterLink (j : Job ν) : j.afterLink.linkHeld = [j.last] := by
  unfold Job.afterLink
  cases j.kind <;> rfl

theorem guarded_afterLink (j : Job ν) : j.afterLink.guarded = some j.first := by
  unfold Job.afterLink
  cases j.kind <;> rfl

/-- The links to and from the left lead to the same leaf, except between the two writes. -/
theorem nextTo_eq_prevFrom (x : ν) {pc : Pc ν} (h : ∀ j p, pc ≠ setPrev j p) :
    pc.nextTo x = pc.prevFrom x := by
  cases pc with
  | setPrev j p => exact absurd rfl (h j p)
  | _ => rfl

theorem job_of_linking {pc : Pc ν} {j : Job ν} (h : pc.linking = some j) : pc.job = some j := by
  cases pc <;> first | exact h | cases h

/-- Before and after the time of the links the leaf stands for itself. -/
theorem shown_of_relinking_none (x : ν) {pc : Pc ν} (h : pc.relinking = none) :
    pc.shown x = [x] ∧ pc.nextTo x = x ∧ pc.prevFrom x = x ∧ pc.nextFrom x = x := by
  cases pc <;> first | exact ⟨rfl, rfl, rfl, rfl⟩ | cases h

theorem relinking_of_relinks {pc : Pc ν} (h : pc.relinks = false) : pc.relinking = none := by
  cases pc <;> first | rfl | cases h

theorem relinks_of_restructures {pc : Pc ν} (h : pc.restructures = false) : pc.relinks = false := by
  cases pc <;> first | rfl | cases h

theorem locks_of_linking {pc : Pc ν} {j : Job ν}
    (h : pc.linking = some j) : pc.locks = [j.old] := by
  cases pc <;> cases h <;> rfl

theorem guarded_of_watchPrev {pc : Pc ν} {x : ν} (h : pc.watchPrev = some x) :
    pc.guarded = some x := by
  cases pc <;> first | exact h | cases h

theorem linkHeld_of_watchNext {pc : Pc ν} {x : ν} (h : pc.watchNext = some x) : x ∈
    pc.linkHeld := by
  cases pc <;> cases h <;> simp [linkHeld]

/-- The watched leaf is the old one of a linking thread or the first new one behind it. -/
theorem watchPrev_cases {pc : Pc ν} {x : ν} (h : pc.watchPrev = some x) :
    (∃ j, pc.linking = some j ∧ x = j.old) ∨ ∃ j, pc.job = some j ∧ pc.linking = none ∧
    x = j.first := by
  cases pc <;> cases h
  · exact Or.inl ⟨_, rfl, rfl⟩
  · exact Or.inl ⟨_, rfl, rfl⟩
  · exact Or.inr ⟨_, rfl, rfl, rfl⟩
  · exact Or.inr ⟨_, rfl, rfl, rfl⟩

end Pc

variable {θ ν : Type} [DecidableEq ν]

/-- The position of the thread that replaces `x`. -/
def State.pcOf (s : State θ ν) (x : ν) : Pc ν :=
  match s.lock x with
  | some t => if (s.pc t).linking.map Job.old = some x then s.pc t else .idle
  | none => .idle

/-! ### The invariant -/

/-- What a thread relies on before it uses it. -/
def Pc.Ready (s : State θ ν) (t : θ) : Pc ν → Prop
  | tryPrev _ p => s.allocated p = true
  | setNext j p | setPrev j p => s.prev j.old = some p
  | setLastNext j n => s.next j.old = some n
  | setNextPrev j n => s.next j.last = some n
  | unlockNew j => j.kind = .resize ∧
      ∀ p, s.prev j.first = some p → s.linkLock p = some t ∧ p ≠ j.last
  | readFirstPrev j => ∀ p, s.prev j.first = some p → s.linkLock p = some t ∧ p ≠ j.last
  | unlockFirstPrev j p => p ≠ j.last
  | unlockLeaves l => l.Nodup
  | _ => True

/-- The new leaves of a thread are linked to each other and not in the chain yet. -/
structure NewLeaves (s : State θ ν) (C : List ν) (t : θ) (j : Job ν) : Prop where
  lock : ∀ x ∈ j.news, s.lock x = some t
  fresh : ∀ x ∈ j.news, x ∉ C
  inner : ∀ x y, Follows j.news x y → s.next x = some y ∧ s.prev y = some x
  head : C.head? = some j.old → s.prev j.first = none
  last : C.getLast? = some j.old → s.next j.last = none

structure ThreadInv (s : State θ ν) (C : List ν) (t : θ) : Prop where
  nodup : ∀ j, (s.pc t).job = some j → j.news.Nodup
  made : ∀ j, (s.pc t).job = some j → ∀ x ∈ j.news, s.allocated x = true
  locks : ∀ x ∈ (s.pc t).locks, x ∈ C ∧ s.lock x = some t
  held : ∀ x ∈ (s.pc t).linkHeld, s.linkLock x = some t
  guard : ∀ x p, (s.pc t).guarded = some x → Follows C p x → s.linkLock p = some t
  news : ∀ j, (s.pc t).linking = some j → NewLeaves s C t j
  ready : (s.pc t).Ready s t

structure Inv (s : State θ ν) (C : List ν) : Prop where
  nodup : C.Nodup
  tree : s.tree = C.flatMap (fun x => (s.pcOf x).shown x)
  allocated : ∀ x ∈ C, s.allocated x = true
  free : ∀ x, s.allocated x = true → s.lock x = none → x ∈ C
  locked : ∀ x, s.linkLock x ≠ none → s.allocated x = true
  link : ∀ x y, Follows C x y →
    s.next ((s.pcOf x).nextFrom x) = some ((s.pcOf y).nextTo y) ∧
      s.prev ((s.pcOf y).prevFrom y) = some x
  head : ∀ x, C.head? = some x → s.prev ((s.pcOf x).prevFrom x) = none
  last : ∀ x, C.getLast? = some x → s.next ((s.pcOf x).nextFrom x) = none
  thread : ∀ t, ThreadInv s C t
  apart : ∀ t u j k, t ≠ u → (s.pc t).job = some j → (s.pc u).linking = some k →
    ∀ x ∈ j.news, x ∉ k.news

/-! ### Other threads -/

variable {s s' : State θ ν} {C C' : List ν} {t u : θ} {pc : Pc ν}

omit [DecidableEq ν] in
theorem Pc.Ready.frame (h : pc.Ready s u) (hp : ∀ x, pc.watchPrev = some x → s'.prev x = s.prev x)
    (hn : ∀ x, pc.watchNext = some x → s'.next x = s.next x)
    (hl : ∀ x, s.linkLock x = some u → s'.linkLock x = some u)
    (ha : ∀ x, s.allocated x = true → s'.allocated x = true) : pc.Ready s' u := by
  cases pc with
  | tryPrev j p => exact ha p h
  | setNext j p => exact (hp _ rfl).trans h
  | setPrev j p => exact (hp _ rfl).trans h
  | setLastNext j n => exact (hn _ rfl).trans h
  | setNextPrev j n => exact (hn _ rfl).trans h
  | unlockNew j =>
      refine ⟨h.1, fun p hj => ?_⟩
      obtain ⟨h1, h2⟩ := h.2 p ((hp _ rfl).symm.trans hj)
      exact ⟨hl p h1, h2⟩
  | readFirstPrev j =>
      intro p hj
      obtain ⟨h1, h2⟩ := h p ((hp _ rfl).symm.trans hj)
      exact ⟨hl p h1, h2⟩
  | unlockFirstPrev j p => exact h
  | unlockLeaves l => exact h
  | _ => trivial

omit [DecidableEq ν] in
/-- What the steps of other threads leave to the thread `u`. -/
theorem ThreadInv.frame (h : ThreadInv s C u) (hpc : s'.pc u = s.pc u)
    (hC : ∀ x ∈ C, s.allocated x = true)
    (hlock : ∀ x, s.allocated x = true → s.lock x = some u → s'.lock x = some u)
    (hlink : ∀ x, s.linkLock x = some u → s'.linkLock x = some u)
    (ha : ∀ x, s.allocated x = true → s'.allocated x = true)
    (hchain : ∀ x ∈ (s.pc u).locks, x ∈ C → x ∈ C')
    (hguard : ∀ x p, (s.pc u).guarded = some x → Follows C' p x → Follows C p x)
    (hp : ∀ x, (s.pc u).watchPrev = some x → s'.prev x = s.prev x)
    (hn : ∀ x, (s.pc u).watchNext = some x → s'.next x = s.next x)
    (hnews : ∀ j, (s.pc u).linking = some j → NewLeaves s C u j → NewLeaves s' C' u j) :
    ThreadInv s' C' u := by
  refine ⟨?_, ?_, ?_, ?_, ?_, ?_, ?_⟩
  · rw [hpc]
    exact h.nodup
  · rw [hpc]
    exact fun j hj x hx => ha x (h.made j hj x hx)
  · rw [hpc]
    intro x hx
    obtain ⟨h1, h2⟩ := h.locks x hx
    exact ⟨hchain x hx h1, hlock x (hC x h1) h2⟩
  · rw [hpc]
    exact fun x hx => hlink x (h.held x hx)
  · rw [hpc]
    exact fun x p hx hf => hlink p (h.guard x p hx (hguard x p hx hf))
  · rw [hpc]
    exact fun j hj => hnews j hj (h.news j hj)
  · rw [hpc]
    exact h.ready.frame hp hn hlink ha

omit [DecidableEq ν] in
/-- New leaves whose links nobody touches. -/
theorem NewLeaves.frame {j : Job ν} (h : NewLeaves s C u j)
    (hlock : ∀ x ∈ j.news, s'.lock x = s.lock x) (hfresh : ∀ x ∈ j.news, x ∉ C → x ∉ C')
    (hn : ∀ x ∈ j.news, s'.next x = s.next x) (hp : ∀ x ∈ j.news, s'.prev x = s.prev x)
    (hhead : C'.head? = some j.old → C.head? = some j.old)
    (hlast : C'.getLast? = some j.old → C.getLast? = some j.old) : NewLeaves s' C' u j := by
  refine ⟨fun x hx => (hlock x hx).trans (h.lock x hx), fun x hx => hfresh x hx (h.fresh x hx),
    fun x y hf => ?_, fun hc => ?_, fun hc => ?_⟩
  · rw [hn x hf.left_mem, hp y hf.right_mem]
    exact h.inner x y hf
  · rw [hp _ j.first_mem]
    exact h.head (hhead hc)
  · rw [hn _ j.last_mem]
    exact h.last (hlast hc)

/-! ### The position at a leaf -/

/-- Two positions from which the chain looks the same. -/
def Pc.SameView (pc pc' : Pc ν) : Prop :=
  ∀ x, pc'.shown x = pc.shown x ∧ pc'.nextTo x = pc.nextTo x ∧ pc'.prevFrom x = pc.prevFrom x ∧
    pc'.nextFrom x = pc.nextFrom x

/-- The thread goes on with the same restructuring: the chain looks the same and nothing new is
asked of the leaf locks. -/
structure Pc.GoesOn (pc pc' : Pc ν) : Prop where
  linking : pc'.linking = pc.linking
  job : ∀ j, pc'.job = some j → pc.job = some j
  view : pc.SameView pc'
  locks : ∀ x ∈ pc'.locks, x ∈ pc.locks

theorem pcOf_linking {j : Job ν} (hj : (s.pc t).linking = some j) (hl : s.lock j.old = some t) :
    s.pcOf j.old = s.pc t := by
  unfold State.pcOf
  rw [hl]
  dsimp only
  rw [hj]
  exact if_pos rfl

/-- Nobody replaces the leaf, or one thread that has locked it does. -/
theorem pcOf_cases (s : State θ ν) (x : ν) : s.pcOf x = .idle ∨
    ∃ t j, s.lock x = some t ∧ (s.pc t).linking = some j ∧ x = j.old ∧ s.pcOf x = s.pc t := by
  unfold State.pcOf
  cases hl : s.lock x with
  | none => exact Or.inl rfl
  | some t =>
      dsimp only
      split
      · rename_i h
        obtain ⟨j, hj, hx⟩ := Option.map_eq_some_iff.mp h
        exact Or.inr ⟨t, j, rfl, hj, hx.symm, rfl⟩
      · exact Or.inl rfl

variable [DecidableEq θ]

/-- A step of `t` changes the position at the leaf that `t` replaces only. -/
theorem pcOf_of_ne {x : ν} (hlock : s'.lock x = s.lock x) (hpc : ∀ u, u ≠ t → s'.pc u = s.pc u)
    (hold : s.lock x = some t → (s'.pc t).linking.map Job.old ≠ some x ∧
      (s.pc t).linking.map Job.old ≠ some x) : s'.pcOf x = s.pcOf x := by
  unfold State.pcOf
  rw [hlock]
  cases hl : s.lock x with
  | none => rfl
  | some u =>
      dsimp only
      by_cases hu : u = t
      · subst hu
        obtain ⟨h1, h2⟩ := hold hl
        rw [if_neg h1, if_neg h2]
      · rw [hpc u hu]

/-- Between positions of the same view the chain looks the same everywhere. -/
theorem sameView_pcOf (hlock : s'.lock = s.lock) (hpc : s'.pc = Function.update s.pc t pc)
    (hlinking : pc.linking = (s.pc t).linking) (hview : (s.pc t).SameView pc) (x : ν) :
    (s.pcOf x).SameView (s'.pcOf x) := by
  unfold State.pcOf
  rw [hlock]
  cases hl : s.lock x with
  | none => exact fun _ => ⟨rfl, rfl, rfl, rfl⟩
  | some u =>
      dsimp only
      by_cases hu : u = t
      · subst hu
        rw [hpc, Function.update_self, hlinking]
        split
        · exact hview
        · exact fun _ => ⟨rfl, rfl, rfl, rfl⟩
      · rw [hpc, Function.update_of_ne hu]
        exact fun _ => ⟨rfl, rfl, rfl, rfl⟩

/-! ### Steps that write no link -/

namespace Inv

omit [DecidableEq θ] in
/-- The old leaf of a thread is in the chain, and its position is that of the thread. -/
theorem old (h : Inv s C) {j : Job ν} (hj : (s.pc t).linking = some j) :
    j.old ∈ C ∧ s.lock j.old = some t ∧ s.pcOf j.old = s.pc t := by
  obtain ⟨h1, h2⟩ := (h.thread t).locks j.old (by rw [Pc.locks_of_linking hj]; simp)
  exact ⟨h1, h2, pcOf_linking hj h2⟩

/-- A step that changes one link lock at most and from whose end the chain looks the same. -/
theorem relock (h : Inv s C) (hn : s'.next = s.next) (hp : s'.prev = s.prev)
    (hk : s'.lock = s.lock) (ha : s'.allocated = s.allocated) (ht : s'.tree = s.tree)
    (hpc : s'.pc = Function.update s.pc t pc) (hgo : (s.pc t).GoesOn pc)
    (hothers : ∀ u x, u ≠ t → s.linkLock x = some u → s'.linkLock x = some u)
    (halloc : ∀ x, s'.linkLock x ≠ none → s.allocated x = true)
    (hheld : ∀ x ∈ pc.linkHeld, s'.linkLock x = some t)
    (hguard : ∀ x p, pc.guarded = some x → Follows C p x → s'.linkLock p = some t)
    (hready : pc.Ready s' t) : Inv s' C := by
  obtain ⟨hlinking, hjob, hsame, hlocks⟩ := hgo
  have hview := sameView_pcOf hk hpc hlinking hsame
  have hshown : ∀ x, (s'.pcOf x).shown x = (s.pcOf x).shown x := fun x => (hview x x).1
  have hnextTo : ∀ x, (s'.pcOf x).nextTo x = (s.pcOf x).nextTo x := fun x => (hview x x).2.1
  have hprevFrom : ∀ x, (s'.pcOf x).prevFrom x = (s.pcOf x).prevFrom x := fun x => (hview x x).2.2.1
  have hnextFrom : ∀ x, (s'.pcOf x).nextFrom x = (s.pcOf x).nextFrom x := fun x => (hview x x).2.2.2
  have hpcu : ∀ u, u ≠ t → s'.pc u = s.pc u := by
    intro u hu
    rw [hpc, Function.update_of_ne hu]
  have hpct : s'.pc t = pc := by rw [hpc, Function.update_self]
  have hnews : ∀ u j, NewLeaves s C u j → NewLeaves s' C u j := by
    intro u j hj
    exact hj.frame (fun x _ => by rw [hk]) (fun _ _ => id) (fun x _ => by rw [hn])
      (fun x _ => by rw [hp]) id id
  refine ⟨h.nodup, ?_, ?_, ?_, ?_, ?_, ?_, ?_, ?_, ?_⟩
  · rw [ht, h.tree]
    exact List.flatMap_congr (fun x _ => (hshown x).symm)
  · rw [ha]
    exact h.allocated
  · rw [ha, hk]
    exact h.free
  · rw [ha]
    exact halloc
  · intro x y hf
    rw [hn, hp, hnextFrom, hnextTo, hprevFrom]
    exact h.link x y hf
  · intro x hx
    rw [hp, hprevFrom]
    exact h.head x hx
  · intro x hx
    rw [hn, hnextFrom]
    exact h.last x hx
  · intro u
    by_cases hu : u = t
    · subst hu
      have hti := h.thread u
      refine ⟨?_, ?_, ?_, ?_, ?_, ?_, ?_⟩
      · rw [hpct]
        exact fun j hj => hti.nodup j (hjob j hj)
      · rw [hpct, ha]
        exact fun j hj => hti.made j (hjob j hj)
      · rw [hpct, hk]
        exact fun x hx => hti.locks x (hlocks x hx)
      · rw [hpct]
        exact hheld
      · rw [hpct]
        exact hguard
      · rw [hpct, hlinking]
        exact fun j hj => hnews u j (hti.news j hj)
      · rw [hpct]
        exact hready
    · refine (h.thread u).frame (hpcu u hu) h.allocated (fun x _ hx => by rwa [hk])
        (fun x hx => hothers u x hu hx) (fun x hx => by rwa [ha]) (fun _ _ => id)
        (fun _ _ _ => id) (fun x _ => by rw [hp]) (fun x _ => by rw [hn])
        (fun j _ => hnews u j)
  · intro u v j k huv hj hk'
    have hj' : (s.pc u).job = some j := by
      by_cases hu : u = t
      · subst hu
        rw [hpct] at hj
        exact hjob j hj
      · rwa [hpcu u hu] at hj
    have hk'' : (s.pc v).linking = some k := by
      by_cases hv : v = t
      · subst hv
        rwa [hpct, hlinking] at hk'
      · rwa [hpcu v hv] at hk'
    exact h.apart u v j k huv hj' hk''

/-- A step of `t` that changes its position only. -/
theorem stay (h : Inv s C) (hgo : (s.pc t).GoesOn pc)
    (hheld : ∀ x ∈ pc.linkHeld, s.linkLock x = some t)
    (hguard : ∀ x p, pc.guarded = some x → Follows C p x → s.linkLock p = some t)
    (hready : pc.Ready s t) : Inv (s.goto t pc) C := by
  have hready' : pc.Ready (s.goto t pc) t :=
    hready.frame (fun _ _ => rfl) (fun _ _ => rfl) (fun _ => id) (fun _ => id)
  exact h.relock rfl rfl rfl rfl rfl rfl hgo (fun _ _ _ => id) h.locked hheld hguard hready'

/-- A link lock is taken. -/
theorem acquire (h : Inv s C) {x : ν} (hfree : s.linkLock x = none) (hx : s.allocated x = true)
    (hgo : (s.pc t).GoesOn pc) (hheld : ∀ y ∈ pc.linkHeld, y ≠ x → s.linkLock y = some t)
    (hguard : ∀ y p, pc.guarded = some y → Follows C p y → p ≠ x → s.linkLock p = some t)
    (hready : pc.Ready s t) : Inv ((s.setLinkLock x (some t)).goto t pc) C := by
  have hkeep : ∀ y, y ≠ x → ((s.setLinkLock x (some t)).goto t pc).linkLock y = s.linkLock y :=
    fun y hy => Function.update_of_ne hy ..
  have hself : ((s.setLinkLock x (some t)).goto t pc).linkLock x = some t := Function.update_self ..
  have hmono : ∀ u y, s.linkLock y = some u →
      ((s.setLinkLock x (some t)).goto t pc).linkLock y = some u := by
    intro u y hy
    rw [hkeep y (by rintro rfl; rw [hfree] at hy; cases hy)]
    exact hy
  refine h.relock rfl rfl rfl rfl rfl rfl hgo (fun u y _ => hmono u y)
    (fun y hy => ?_) (fun y hy => ?_) (fun y p hy hf => ?_)
    (hready.frame (fun _ _ => rfl) (fun _ _ => rfl) (hmono t) (fun _ => id))
  · by_cases hyx : y = x
    · rw [hyx]
      exact hx
    · rw [hkeep y hyx] at hy
      exact h.locked y hy
  · by_cases hyx : y = x
    · rw [hyx]
      exact hself
    · rw [hkeep y hyx]
      exact hheld y hy hyx
  · by_cases hpx : p = x
    · rw [hpx]
      exact hself
    · rw [hkeep p hpx]
      exact hguard y p hy hf hpx

/-- A link lock that the thread holds is released. -/
theorem release (h : Inv s C) {x : ν} (hx : s.linkLock x = some t)
    (hgo : (s.pc t).GoesOn pc) (hheld : ∀ y ∈ pc.linkHeld, y ≠ x ∧ s.linkLock y = some t)
    (hguard : pc.guarded = none)
    (hready : pc.Ready ((s.setLinkLock x none).goto t pc) t) :
    Inv ((s.setLinkLock x none).goto t pc) C := by
  have hkeep : ∀ y, y ≠ x → ((s.setLinkLock x none).goto t pc).linkLock y = s.linkLock y :=
    fun y hy => Function.update_of_ne hy ..
  refine h.relock rfl rfl rfl rfl rfl rfl hgo (fun u y hu hy => ?_)
    (fun y hy => ?_) (fun y hy => ?_) (fun y p hy => ?_) hready
  · rw [hkeep y (by rintro rfl; rw [hx] at hy; exact hu (Option.some.inj hy).symm)]
    exact hy
  · by_cases hyx : y = x
    · exact absurd (by rw [hyx]; exact Function.update_self ..) hy
    · rw [hkeep y hyx] at hy
      exact h.locked y hy
  · rw [hkeep y (hheld y hy).1]
    exact (hheld y hy).2
  · rw [hguard] at hy
    cases hy

/-! ### Different places of the chain -/

omit [DecidableEq θ] in
/-- A leaf that can stand for `x` is `x` or a new leaf of the thread that replaces `x`. -/
theorem mem_zone {x y : ν} (hy : y ∈ (s.pcOf x).zone x) : y = x ∨
    ∃ t j, (s.pc t).linking = some j ∧ j.old = x ∧ s.pcOf x = s.pc t ∧ y ∈ j.news := by
  rcases pcOf_cases s x with hidle | ⟨t, j, _, hj, rfl, hpc⟩
  · rw [hidle] at hy
    exact Or.inl (List.mem_singleton.mp hy)
  · rw [hpc] at hy
    unfold Pc.zone at hy
    rw [hj, Option.map_some, Option.getD_some] at hy
    rcases List.mem_cons.mp hy with rfl | hy
    · exact Or.inl rfl
    · exact Or.inr ⟨t, j, hj, rfl, hpc, hy⟩

omit [DecidableEq θ] in
theorem zone_disjoint (h : Inv s C) {x y z : ν} (hx : x ∈ C) (hy : y ∈ C) (hne : x ≠ y)
    (hz : z ∈ (s.pcOf x).zone x) : z ∉ (s.pcOf y).zone y := by
  intro hz'
  rcases mem_zone hz with rfl | ⟨t, j, hj, rfl, _, hzj⟩
  · rcases mem_zone hz' with rfl | ⟨u, k, hk, _, _, hzk⟩
    · exact hne rfl
    · exact ((h.thread u).news k hk).fresh z hzk hx
  · rcases mem_zone hz' with rfl | ⟨u, k, hk, rfl, _, hzk⟩
    · exact ((h.thread t).news j hj).fresh z hzj hy
    · have htu : t ≠ u := by
        rintro rfl
        exact hne (by rw [Option.some.inj (hj.symm.trans hk)])
      exact h.apart t u j k htu (Pc.job_of_linking hj) hk z hzj hzk

/-- After a step of a linking thread its old leaf has the new position, all others the same. -/
theorem pcOf_step (h : Inv s C) (s' : State θ ν) {j : Job ν} (hj : (s.pc t).linking = some j)
    (hk : s'.lock = s.lock) (hpc : s'.pc = Function.update s.pc t pc) (hj' : pc.linking = some j) :
    s'.pcOf j.old = pc ∧ ∀ x, x ≠ j.old → s'.pcOf x = s.pcOf x := by
  have hpct : s'.pc t = pc := by rw [hpc, Function.update_self]
  constructor
  · rw [pcOf_linking (t := t) (by rw [hpct, hj']) (by rw [hk]; exact (h.old hj).2.1), hpct]
  · intro x hx
    refine pcOf_of_ne (t := t) (by rw [hk]) (fun u hu => by rw [hpc, Function.update_of_ne hu])
      (fun _ => ?_)
    rw [hpct, hj, hj', Option.map_some]
    exact ⟨fun hc => hx (Option.some.inj hc).symm, fun hc => hx (Option.some.inj hc).symm⟩

end Inv

end LearnedIndex.Alexol.LeafLinks
