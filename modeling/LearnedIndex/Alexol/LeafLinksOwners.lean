import LearnedIndex.Alexol.LeafLinksRun

/-! # Who holds the locks of the chain

The invariant of `LeafLinksInv` says which locks a thread holds.  Here is the converse, `Owned`: a
lock of the chain that is taken belongs to a thread whose position accounts for it.  A link lock is
one that the thread took on its own, or it is that of the left neighbour of the leaf the thread
works on (`Pc.guarded`). -/

namespace LearnedIndex.Alexol.LeafLinks

open LearnedIndex.Machine LearnedIndex.Chains

/-- The link lock that the thread tries to take next. -/
def Pc.awaits {ν : Type} : Pc ν → Option ν
  | .tryPrev _ p => some p
  | .lockLast j => some j.last
  | .lockOld j => some j.old
  | _ => none

variable {θ ν : Type} [DecidableEq θ] [DecidableEq ν]

/-- The position of the thread accounts for the link lock of `x`. -/
def Pc.Holds (C : List ν) (x : ν) (pc : Pc ν) : Prop :=
  x ∈ pc.linkHeld ∨ ∃ y, pc.guarded = some y ∧ Follows C x y

/-- Every lock of the chain `C` that is taken is accounted for, and the threads outside `T` have not
begun. -/
structure Owned (s : State θ ν) (C : List ν) (T : Finset θ) : Prop where
  linkLock : ∀ x ∈ C, ∀ u, s.linkLock x = some u → (s.pc u).Holds C x
  lock : ∀ x ∈ C, ∀ u, s.lock x = some u → x ∈ (s.pc u).locks
  news : ∀ u j, (s.pc u).linking = some j → ∀ x ∈ j.news, s.linkLock x ≠ none →
    x ∈ (s.pc u).linkHeld
  tried : ∀ u j p, s.pc u = .tryPrev j p → ∀ v k, (s.pc v).linking = some k → p ∉ k.news
  single : ∀ u j, (s.pc u).job = some j → j.kind = .resize → j.rest = []
  idle : ∀ u, u ∉ T → s.pc u = .idle

variable {s s' : State θ ν} {C : List ν} {T : Finset θ} {t u : θ} {pc : Pc ν}

/-! ### What one step changes -/

theorem move_other (hs : move s t = some s') :
    (∀ u, u ≠ t → s'.pc u = s.pc u) ∧ s'.allocated = s.allocated := by
  have hgoto : ∀ {s₁ : State θ ν} {pc : Pc ν}, s₁.pc = s.pc → s₁.allocated = s.allocated →
      (∀ u, u ≠ t → (s₁.goto t pc).pc u = s.pc u) ∧ (s₁.goto t pc).allocated = s.allocated := by
    intro s₁ pc hpc ha
    refine ⟨fun u hu => ?_, ha⟩
    rw [← hpc]
    exact Function.update_of_ne hu ..
  unfold move at hs
  cases hpc : s.pc t with
  | unlockLeaves l =>
      rw [hpc] at hs
      cases l <;> cases hs <;> exact hgoto rfl rfl
  | _ =>
      rw [hpc] at hs
      dsimp only at hs
      repeat' split at hs
      all_goals cases hs
      all_goals exact hgoto rfl rfl

/-- A step takes the link lock that the thread awaits, or releases one, or touches none. -/
theorem move_linkLock (hs : move s t = some s') (x : ν) : s'.linkLock x = s.linkLock x ∨
    (s.linkLock x = none ∧ s'.linkLock x = some t ∧ (s.pc t).awaits = some x ∧
      x ∈ (s'.pc t).linkHeld) ∨ s'.linkLock x = none := by
  have htake : ∀ {y : ν} {pc : Pc ν}, s.linkLock y = none → (s.pc t).awaits = some y →
      y ∈ pc.linkHeld →
      ((s.setLinkLock y (some t)).goto t pc).linkLock x = s.linkLock x ∨
      (s.linkLock x = none ∧ ((s.setLinkLock y (some t)).goto t pc).linkLock x = some t ∧
        (s.pc t).awaits = some x ∧
        x ∈ (((s.setLinkLock y (some t)).goto t pc).pc t).linkHeld) ∨
      ((s.setLinkLock y (some t)).goto t pc).linkLock x = none := by
    intro y pc hfree hy hheld
    have hpct : ((s.setLinkLock y (some t)).goto t pc).pc t = pc := Function.update_self ..
    by_cases hxy : x = y
    · subst hxy
      rw [hpct]
      exact Or.inr (Or.inl ⟨hfree, Function.update_self .., hy, hheld⟩)
    · exact Or.inl (Function.update_of_ne hxy ..)
  have hdrop : ∀ {y : ν} {pc : Pc ν},
      ((s.setLinkLock y none).goto t pc).linkLock x = s.linkLock x ∨
      ((s.setLinkLock y none).goto t pc).linkLock x = none := by
    intro y pc
    by_cases hxy : x = y
    · subst hxy
      exact Or.inr (Function.update_self ..)
    · exact Or.inl (Function.update_of_ne hxy ..)
  unfold move at hs
  cases hpc : s.pc t with
  | tryPrev j p =>
      rw [hpc] at hs htake
      dsimp only at hs
      split at hs
      · rename_i hfree
        cases hs
        exact htake hfree rfl (List.mem_singleton_self p)
      · cases hs
        exact Or.inl rfl
  | lockLast j =>
      rw [hpc] at hs htake
      dsimp only at hs
      split at hs
      · rename_i hfree
        cases hs
        exact htake hfree rfl (List.mem_singleton_self _)
      · cases hs
  | lockOld j =>
      rw [hpc] at hs htake
      dsimp only at hs
      split at hs
      · rename_i hfree
        cases hs
        exact htake hfree rfl (List.mem_cons_of_mem _ (List.mem_singleton_self _))
      · cases hs
  | unlockPrev j p =>
      rw [hpc] at hs
      cases hs
      exact hdrop.imp_right Or.inr
  | unlockFirstPrev j p =>
      rw [hpc] at hs
      cases hs
      exact hdrop.imp_right Or.inr
  | unlockLast j =>
      rw [hpc] at hs
      cases hs
      exact hdrop.imp_right Or.inr
  | unlockLeaves l =>
      rw [hpc] at hs
      cases l <;> cases hs <;> exact Or.inl rfl
  | _ =>
      rw [hpc] at hs
      dsimp only at hs
      repeat' split at hs
      all_goals cases hs
      all_goals exact Or.inl rfl

/-- A step takes no leaf lock. -/
theorem move_lock (hs : move s t = some s') (x : ν) : s'.lock x = s.lock x ∨ s'.lock x = none := by
  have hdrop : ∀ {y : ν} {pc : Pc ν}, ((s.setLock y none).goto t pc).lock x = s.lock x ∨
      ((s.setLock y none).goto t pc).lock x = none := by
    intro y pc
    by_cases hxy : x = y
    · subst hxy
      exact Or.inr (Function.update_self ..)
    · exact Or.inl (Function.update_of_ne hxy ..)
  unfold move at hs
  cases hpc : s.pc t with
  | unlockNew j =>
      rw [hpc] at hs
      cases hs
      exact hdrop
  | unlockLeaves l =>
      rw [hpc] at hs
      cases l with
      | nil => cases hs; exact Or.inl rfl
      | cons y l => cases hs; exact hdrop
  | _ =>
      rw [hpc] at hs
      dsimp only at hs
      repeat' split at hs
      all_goals cases hs
      all_goals exact Or.inl rfl

/-! ### What a step keeps -/

omit [DecidableEq ν] in
@[simp]
theorem goto_pc_self (s : State θ ν) (t : θ) (pc : Pc ν) : (s.goto t pc).pc t = pc :=
  Function.update_self ..

omit [DecidableEq θ] in
/-- Behind the links of a restructuring, the left neighbour it has locked is linked to directly. -/
theorem Inv.prev_of_held (h : Inv s C) {x y : ν} (hx : s.linkLock x = some t)
    (hlinking : (s.pc t).linking = none) (hf : Follows C x y) : s.prev y = some x := by
  have hlink := (h.link x y hf).2
  suffices hfrom : (s.pcOf y).prevFrom y = y by rwa [hfrom] at hlink
  rcases pcOf_cases s y with hidle | ⟨v, j, _, hj, rfl, hpc⟩
  · rw [hidle]
    rfl
  · have hguard := (h.thread v).guard j.old x
    rw [hpc]
    cases hv : s.pc v with
    | lockLast k | lockOld k | readNext k | setLastNext k n | setNextPrev k n =>
        -- then that thread holds the link lock of the left neighbour
        rw [hv] at hj hguard
        obtain rfl : k = j := Option.some.inj hj
        obtain rfl := Option.some.inj ((hguard rfl hf).symm.trans hx)
        rw [hv] at hlinking
        cases hlinking
    | _ => rfl

/-- A link lock of the chain that the thread keeps stays accounted for. -/
theorem move_holds (h : Inv s C) (hs : move s t = some s')
    (hsame : (s'.pc t).linking = (s.pc t).linking) {x : ν} (hx : s.linkLock x = some t)
    (hx' : s'.linkLock x = some t) (hholds : (s.pc t).Holds C x) : (s'.pc t).Holds C x := by
  have hready := (h.thread t).ready
  unfold move at hs
  cases hpc : s.pc t with
  | idle => rw [hpc] at hs; cases hs
  | locked y => rw [hpc] at hs; cases hs
  | recheck j p =>
      rw [hpc] at hs hholds
      have hm : x ∈ [p] := hholds.resolve_right (by rintro ⟨y, hy, _⟩; cases hy)
      dsimp only at hs
      split at hs <;> cases hs <;> rw [goto_pc_self] <;> exact Or.inl hm
  | unlockPrev j p =>
      rw [hpc] at hs hholds
      cases hs
      rcases hholds with hm | ⟨y, hy, _⟩
      · rw [List.mem_singleton.mp hm] at hx'
        exact absurd ((Function.update_self ..).symm.trans hx') (by simp)
      · cases hy
  | setPrev j p =>
      rw [hpc] at hs hholds hready
      cases hs
      rw [goto_pc_self]
      rcases hholds with hm | hguard
      · rw [List.mem_singleton.mp hm]
        exact Or.inr ⟨j.old, rfl, h.left_neighbour (by rw [hpc]; rfl) hready (by rw [hpc]; rfl)⟩
      · exact Or.inr hguard
  | lockLast j =>
      rw [hpc] at hs hholds
      dsimp only at hs
      split at hs
      · cases hs
        rw [goto_pc_self]
        exact Or.inr (hholds.resolve_left (List.not_mem_nil))
      · cases hs
  | lockOld j =>
      rw [hpc] at hs hholds
      dsimp only at hs
      split at hs
      · cases hs
        rw [goto_pc_self]
        exact hholds.imp_left (fun hm => List.mem_cons.mpr (Or.inl (List.mem_singleton.mp hm)))
      · cases hs
  | readNext j =>
      rw [hpc] at hs hholds hsame
      dsimp only at hs
      split at hs
      · cases hs
        rw [goto_pc_self, Pc.linking_afterLink] at hsame
        cases hsame
      · cases hs
        rw [goto_pc_self]
        exact hholds
  | setNextPrev j n =>
      rw [hpc] at hs hsame
      cases hs
      rw [goto_pc_self, Pc.linking_afterLink] at hsame
      cases hsame
  | readFirstPrev j =>
      have hlinking : (s.pc t).linking = none := by rw [hpc]; rfl
      rw [hpc] at hs hholds
      dsimp only at hs
      rcases hholds with hm | ⟨y, hy, hf⟩
      · split at hs <;> cases hs <;> rw [goto_pc_self]
        · exact Or.inl hm
        · exact Or.inl (List.mem_cons_of_mem _ hm)
      · obtain rfl : j.first = y := Option.some.inj hy
        rw [h.prev_of_held hx hlinking hf] at hs
        cases hs
        rw [goto_pc_self]
        exact Or.inl (List.mem_cons_self ..)
  | unlockFirstPrev j p =>
      rw [hpc] at hs hholds
      cases hs
      rw [goto_pc_self]
      rcases hholds with hm | ⟨y, hy, _⟩
      · rcases List.mem_cons.mp hm with rfl | hm
        · exact absurd ((Function.update_self ..).symm.trans hx') (by simp)
        · exact Or.inl hm
      · cases hy
  | unlockLast j =>
      rw [hpc] at hs hholds
      cases hs
      rcases hholds with hm | ⟨y, hy, _⟩
      · rw [List.mem_singleton.mp hm] at hx'
        exact absurd ((Function.update_self ..).symm.trans hx') (by simp)
      · cases hy
  | unlockLeaves l =>
      rw [hpc] at hholds
      rcases hholds with hm | ⟨y, hy, _⟩
      · cases hm
      · cases hy
  | publish j | readPrev j | tryPrev j p =>
      rw [hpc] at hholds
      rcases hholds with hm | ⟨y, hy, _⟩
      · cases hm
      · cases hy
  | setNext j p | setLastNext j n | unlockNew j =>
      rw [hpc] at hs hholds
      cases hs
      rw [goto_pc_self]
      exact hholds

/-- A link lock of a new leaf that the thread keeps stays accounted for. -/
theorem move_news (h : Inv s C) (hs : move s t = some s') {j : Job ν}
    (hj : (s.pc t).linking = some j) (hj' : (s'.pc t).linking = some j) {x : ν} (hxj : x ∈ j.news)
    (hx' : s'.linkLock x ≠ none) (hheld : x ∈ (s.pc t).linkHeld) : x ∈ (s'.pc t).linkHeld := by
  have hready := (h.thread t).ready
  have hfresh := ((h.thread t).news j hj).fresh x hxj
  unfold move at hs
  cases hpc : s.pc t with
  | recheck k p =>
      rw [hpc] at hs hheld
      dsimp only at hs
      split at hs <;> cases hs <;> rw [goto_pc_self] <;> exact hheld
  | unlockPrev k p =>
      rw [hpc] at hs hheld
      cases hs
      rw [List.mem_singleton.mp hheld] at hx'
      exact absurd (Function.update_self ..) hx'
  | setPrev k p =>
      rw [hpc] at hheld hready
      rw [List.mem_singleton.mp hheld] at hfresh
      exact absurd (h.left_neighbour (by rw [hpc]; rfl) hready (by rw [hpc]; rfl)).left_mem hfresh
  | lockOld k =>
      rw [hpc] at hs hheld
      dsimp only at hs
      split at hs
      · cases hs
        rw [goto_pc_self]
        exact List.mem_cons.mpr (Or.inl (List.mem_singleton.mp hheld))
      · cases hs
  | readNext k =>
      rw [hpc] at hs hheld
      dsimp only at hs
      split at hs
      · cases hs
        rw [goto_pc_self, Pc.linking_afterLink] at hj'
        cases hj'
      · cases hs
        rw [goto_pc_self]
        exact hheld
  | setNextPrev k n =>
      rw [hpc] at hs
      cases hs
      rw [goto_pc_self, Pc.linking_afterLink] at hj'
      cases hj'
  | setNext k p | setLastNext k n =>
      rw [hpc] at hs hheld
      cases hs
      rw [goto_pc_self]
      exact hheld
  | publish k | readPrev k | tryPrev k p | lockLast k => rw [hpc] at hheld; cases hheld
  | _ => rw [hpc] at hj; cases hj

/-- A leaf lock that the thread keeps stays accounted for. -/
theorem move_locks (hs : move s t = some s')
    (hsame : (s'.pc t).linking = (s.pc t).linking)
    (hsingle : ∀ j, (s.pc t).job = some j → j.kind = .resize → j.rest = []) {x : ν}
    (hx' : s'.lock x ≠ none) (hlocks : x ∈ (s.pc t).locks) : x ∈ (s'.pc t).locks := by
  unfold move at hs
  cases hpc : s.pc t with
  | idle => rw [hpc] at hs; cases hs
  | locked y => rw [hpc] at hs; cases hs
  | setNextPrev j n =>
      rw [hpc] at hs hsame
      cases hs
      rw [goto_pc_self, Pc.linking_afterLink] at hsame
      cases hsame
  | readNext j =>
      rw [hpc] at hs hlocks hsame
      dsimp only at hs
      split at hs
      · cases hs
        rw [goto_pc_self, Pc.linking_afterLink] at hsame
        cases hsame
      · cases hs
        rw [goto_pc_self]
        exact hlocks
  | unlockNew j =>
      rw [hpc] at hs hlocks hsingle
      cases hs
      rw [goto_pc_self]
      have hx : x ≠ j.first := by
        rintro rfl
        exact absurd (Function.update_self ..) hx'
      have hm : x ∈ j.first :: j.rest := hlocks
      change x ∈ j.kept
      unfold Job.kept
      cases hk : j.kind with
      | split => exact hm
      | resize =>
          rw [hsingle j rfl hk] at hm
          exact absurd (List.mem_singleton.mp hm) hx
  | unlockLast j =>
      rw [hpc] at hs hlocks
      cases hs
      rw [goto_pc_self]
      have hm : x ∈ j.kept := hlocks
      unfold Job.kept at hm
      unfold Job.afterRelease
      cases hk : j.kind with
      | resize => rw [hk] at hm; cases hm
      | split => rw [hk] at hm; exact hm
  | unlockLeaves l =>
      rw [hpc] at hs hlocks
      cases l with
      | nil => cases hlocks
      | cons y l =>
          cases hs
          rw [goto_pc_self]
          rcases List.mem_cons.mp hlocks with rfl | hm
          · exact absurd (Function.update_self ..) hx'
          · exact hm
  | _ =>
      rw [hpc] at hs hlocks
      dsimp only at hs
      repeat' split at hs
      all_goals cases hs
      all_goals rw [goto_pc_self]
      all_goals exact hlocks

/-! ### Every step -/

namespace Owned

/-- A step that finds its left neighbour in the chain is the only one that comes to try a lock. -/
theorem move_tried (hs : move s t = some s') {j : Job ν} {p : ν} (hpc' : s'.pc t = .tryPrev j p) :
    s.pc t = .readPrev j ∧ s.prev j.old = some p := by
  unfold move at hs
  cases hpc : s.pc t with
  | readPrev k =>
      rw [hpc] at hs
      dsimp only at hs
      split at hs
      · cases hs
        rw [goto_pc_self] at hpc'
        cases hpc'
      · rename_i q hq
        cases hs
        rw [goto_pc_self] at hpc'
        cases hpc'
        exact ⟨rfl, hq⟩
  | readNext k =>
      rw [hpc] at hs
      dsimp only at hs
      split at hs
      · cases hs
        rw [goto_pc_self] at hpc'
        have hlinking := Pc.linking_afterLink k
        rw [hpc'] at hlinking
        cases hlinking
      · cases hs
        rw [goto_pc_self] at hpc'
        cases hpc'
  | setNextPrev k n =>
      rw [hpc] at hs
      cases hs
      rw [goto_pc_self] at hpc'
      have hlinking := Pc.linking_afterLink k
      rw [hpc'] at hlinking
      cases hlinking
  | unlockLast k =>
      rw [hpc] at hs
      cases hs
      rw [goto_pc_self] at hpc'
      unfold Job.afterRelease at hpc'
      cases hk : k.kind <;> rw [hk] at hpc' <;> cases hpc'
  | unlockLeaves l =>
      rw [hpc] at hs
      cases l <;> cases hs <;> rw [goto_pc_self] at hpc' <;> cases hpc'
  | _ =>
      rw [hpc] at hs
      dsimp only at hs
      repeat' split at hs
      all_goals cases hs
      all_goals rw [goto_pc_self] at hpc'
      all_goals cases hpc'

/-- A step after which the chain is the same. -/
theorem keep (ho : Owned s C T) (h : Inv s C) (hs : move s t = some s')
    (hsame : (s'.pc t).linking = (s.pc t).linking) : Owned s' C T := by
  obtain ⟨hother, _⟩ := move_other hs
  have hlinking : ∀ {u j}, (s'.pc u).linking = some j → (s.pc u).linking = some j := by
    intro u j hj
    by_cases hu : u = t
    · rwa [hu, ← hsame, ← hu]
    · rwa [← hother u hu]
  refine ⟨fun x hx u hu => ?_, fun x hx u hu => ?_, fun u j hj x hxj hne => ?_,
    fun u j p hpc v k hk => ?_, fun u j hj => ho.single u j ((move_job hs).1 u j hj),
    fun u hu => ?_⟩
  · rcases move_linkLock hs x with heq | ⟨_, htake, _, hm⟩ | hnone
    · have hu' := heq.symm.trans hu
      by_cases hut : u = t
      · rw [hut] at hu hu' ⊢
        exact move_holds h hs hsame hu' hu (ho.linkLock x hx t hu')
      · rw [hother u hut]
        exact ho.linkLock x hx u hu'
    · obtain rfl := Option.some.inj (htake.symm.trans hu)
      exact Or.inl hm
    · rw [hnone] at hu
      cases hu
  · rcases move_lock hs x with heq | hnone
    · have hu' := heq.symm.trans hu
      by_cases hut : u = t
      · rw [hut] at hu hu' ⊢
        exact move_locks hs hsame (ho.single t) (by rw [hu]; simp) (ho.lock x hx t hu')
      · rw [hother u hut]
        exact ho.lock x hx u hu'
    · rw [hnone] at hu
      cases hu
  · have hj₀ := hlinking hj
    rcases move_linkLock hs x with heq | ⟨_, _, hawaits, hm⟩ | hnone
    · have hheld := ho.news u j hj₀ x hxj (heq ▸ hne)
      by_cases hut : u = t
      · subst hut
        exact move_news h hs hj₀ hj hxj hne hheld
      · rwa [hother u hut]
    · by_cases hut : u = t
      · rwa [hut]
      · -- no thread awaits the link lock of a new leaf of another one
        exfalso
        have hfresh := ((h.thread u).news j hj₀).fresh x hxj
        cases hpc : s.pc t with
        | tryPrev k p =>
            rw [hpc] at hawaits
            cases hawaits
            exact ho.tried t k x hpc u j hj₀ hxj
        | lockLast k =>
            rw [hpc] at hawaits
            obtain rfl := Option.some.inj hawaits
            exact h.apart t u k j (Ne.symm hut) (by rw [hpc]; rfl) hj₀ _ k.last_mem hxj
        | lockOld k =>
            rw [hpc] at hawaits
            obtain rfl := Option.some.inj hawaits
            exact hfresh (h.old (t := t) (by rw [hpc]; rfl)).1
        | _ => rw [hpc] at hawaits; cases hawaits
    · exact absurd hnone hne
  · have hk₀ := hlinking hk
    by_cases hut : u = t
    · rw [hut] at hpc
      obtain ⟨hread, hprev⟩ := move_tried hs hpc
      have hf := h.left_neighbour (t := t) (by rw [hread]; rfl) hprev (by rw [hread]; rfl)
      exact fun hm => ((h.thread v).news k hk₀).fresh p hm hf.left_mem
    · rw [hother u hut] at hpc
      exact ho.tried u j p hpc v k hk₀
  · have hut : u ≠ t := by
      rintro rfl
      unfold move at hs
      rw [ho.idle u hu] at hs
      cases hs
    rw [hother u hut]
    exact ho.idle u hu

end Owned

/-- Shortly before the links are complete, the thread has taken the link locks of its last leaf and
of its old one. -/
theorem Finishing.linkHeld_cases {j : Job ν} {A B : List ν} (h : Finishing s s' C t j A B) {x : ν}
    (hx : x ∈ (s.pc t).linkHeld) : x = j.last ∨ x = j.old := by
  have hlinking := h.linking
  have hguarded := h.guarded
  have hfrom := h.prevFrom
  have hne : j.old ≠ j.first := by
    intro heq
    exact h.news.fresh j.first j.first_mem (heq ▸ h.old.1)
  cases hpc : s.pc t with
  | setNext k p | setPrev k p =>
      rw [hpc] at hfrom
      exact absurd hfrom hne
  | lockLast k => rw [hpc] at hx; cases hx
  | lockOld k | readNext k | setLastNext k n | setNextPrev k n =>
      rw [hpc] at hlinking hx
      obtain rfl : k = j := Option.some.inj hlinking
      simp only [Pc.linkHeld, List.mem_cons, List.not_mem_nil, or_false] at hx
      tauto
  | _ =>
      rw [hpc] at hguarded hlinking
      first
        | cases hguarded
        | cases hlinking

/-- A step after which the new leaves are in the chain. -/
theorem Owned.finish {j : Job ν} {A B : List ν} (ho : Owned s C T) (h : Finishing s s' C t j A B) :
    Owned s' (A ++ j.news ++ B) T := by
  have hti := h.inv.thread t
  have hself := h.pc_self
  have hlinking : ∀ {u k}, (s'.pc u).linking = some k → u ≠ t := by
    rintro u k hk rfl
    rw [hself, Pc.linking_afterLink] at hk
    cases hk
  refine ⟨fun x hx u hu => ?_, fun x hx u hu => ?_, fun u k hk x hxk hne => ?_,
    fun u k p hpc v l hl => ?_, fun u k hk => ?_, fun u hu => ?_⟩
  · rw [h.linkLock] at hu
    rcases (h.mem_iff x).mp hx with ⟨hxC, hxo⟩ | hxj
    · have hholds := ho.linkLock x hxC u hu
      by_cases hut : u = t
      · subst hut
        rw [hself]
        rcases hholds with hm | ⟨y, hy, hf⟩
        · rcases h.linkHeld_cases hm with rfl | rfl
          · exact absurd hxC (h.news.fresh _ j.last_mem)
          · exact absurd rfl hxo
        · obtain rfl := Option.some.inj (h.guarded.symm.trans hy)
          refine Or.inr ⟨j.first, Pc.guarded_afterLink j, ?_⟩
          rw [h.chain] at hf
          exact hf.replace_right h.nodup_chain
      · rw [h.pc_other hut]
        refine hholds.imp_right ?_
        rintro ⟨y, hy, hf⟩
        have hyo : y ≠ j.old := by
          -- the thread itself holds the link lock to the left of its old leaf
          rintro rfl
          have ht := hti.guard j.old x h.guarded hf
          exact hut (Option.some.inj (hu.symm.trans ht))
        refine ⟨y, hy, ?_⟩
        rw [h.chain] at hf
        exact hf.replace hxo hyo
    · have hm := ho.news t j h.linking x hxj (by rw [hu]; simp)
      rcases h.linkHeld_cases hm with rfl | rfl
      · obtain rfl := Option.some.inj (h.lastHeld.symm.trans hu)
        rw [hself]
        refine Or.inl ?_
        rw [Pc.linkHeld_afterLink]
        exact List.mem_singleton_self _
      · exact absurd h.old.1 (h.news.fresh _ hxj)
  · rw [h.lock] at hu
    rcases (h.mem_iff x).mp hx with ⟨hxC, hxo⟩ | hxj
    · have hm := ho.lock x hxC u hu
      by_cases hut : u = t
      · rw [hut, Pc.locks_of_linking h.linking] at hm
        exact absurd (List.mem_singleton.mp hm) hxo
      · rwa [h.pc_other hut]
    · obtain rfl := Option.some.inj ((h.news.lock x hxj).symm.trans hu)
      rwa [hself, Pc.locks_afterLink]
  · have hut := hlinking hk
    rw [h.pc_other hut] at hk ⊢
    rw [h.linkLock] at hne
    exact ho.news u k hk x hxk hne
  · rw [h.pc_other (hlinking hl)] at hl
    rw [h.pc_other (hlinking (by rw [hpc]; rfl))] at hpc
    exact ho.tried u k p hpc v l hl
  · by_cases hut : u = t
    · subst hut
      rw [hself, Pc.job_afterLink] at hk
      obtain rfl := Option.some.inj hk
      exact ho.single u j (Pc.job_of_linking h.linking)
    · rw [h.pc_other hut] at hk
      exact ho.single u k hk
  · have hut : u ≠ t := by
      rintro rfl
      have hl := h.linking
      rw [ho.idle u hu] at hl
      cases hl
    rw [h.pc_other hut]
    exact ho.idle u hu

/-- A step outside a restructuring, which takes or releases one leaf lock. -/
theorem Owned.outside (ho : Owned s C T) {x : ν} {o : Option θ}
    (hlocks : ∀ y ∈ (s.pc t).locks, y = x) (hnone : ∀ y, ¬ (s.pc t).Holds C y)
    (hx : ∀ u, o = some u → u = t ∧ x ∈ pc.locks) (hjob : pc.job = none)
    (htry : ∀ j p, pc ≠ .tryPrev j p) : Owned ((s.setLock x o).goto t pc) C (insert t T) := by
  have hpct : ((s.setLock x o).goto t pc).pc t = pc := Function.update_self ..
  have hpcu : ∀ {u}, u ≠ t → ((s.setLock x o).goto t pc).pc u = s.pc u :=
    fun hu => Function.update_of_ne hu ..
  have hlinking : ∀ {u j}, (((s.setLock x o).goto t pc).pc u).linking = some j → u ≠ t := by
    rintro u j hj rfl
    have hj' := Pc.job_of_linking hj
    rw [hpct, hjob] at hj'
    cases hj'
  refine ⟨fun y hy u hu => ?_, fun y hy u hu => ?_, fun u j hj y hyj hne => ?_,
    fun u j p hpc v k hk => ?_, fun u j hj => ?_, fun u hu => ?_⟩
  · have hholds := ho.linkLock y hy u hu
    by_cases hut : u = t
    · rw [hut] at hholds
      exact absurd hholds (hnone y)
    · rwa [hpcu hut]
  · by_cases hyx : y = x
    · subst hyx
      have ho' : ((s.setLock y o).goto t pc).lock y = o := Function.update_self ..
      obtain ⟨rfl, hm⟩ := hx u (ho'.symm.trans hu)
      rwa [hpct]
    · have hu' : s.lock y = some u := (Function.update_of_ne hyx ..).symm.trans hu
      have hm := ho.lock y hy u hu'
      by_cases hut : u = t
      · rw [hut] at hm
        exact absurd (hlocks y hm) hyx
      · rwa [hpcu hut]
  · have hut := hlinking hj
    rw [hpcu hut] at hj ⊢
    exact ho.news u j hj y hyj hne
  · rw [hpcu (hlinking hk)] at hk
    by_cases hut : u = t
    · rw [hut, hpct] at hpc
      exact absurd hpc (htry j p)
    · rw [hpcu hut] at hpc
      exact ho.tried u j p hpc v k hk
  · by_cases hut : u = t
    · rw [hut, hpct, hjob] at hj
      cases hj
    · rw [hpcu hut] at hj
      exact ho.single u j hj
  · obtain ⟨hut, huT⟩ : u ≠ t ∧ u ∉ T := by simpa using hu
    rw [hpcu hut]
    exact ho.idle u huT

/-- New leaves are made: their link locks are free, and nobody tries to take one. -/
theorem Owned.build (ho : Owned s C T) (h : Inv s C) {j : Job ν} (hpc : s.pc t = .locked j.old)
    (hnew : ∀ x ∈ j.news, s.allocated x = false) (hkind : j.kind = .resize → j.rest = []) :
    Owned ((s.makeLeaves t j).goto t (.publish j)) C T := by
  have hpct : ((s.makeLeaves t j).goto t (.publish j)).pc t = .publish j := Function.update_self ..
  have hpcu : ∀ {u}, u ≠ t → ((s.makeLeaves t j).goto t (.publish j)).pc u = s.pc u :=
    fun hu => Function.update_of_ne hu ..
  have hkeep : ∀ {x}, s.allocated x = true → x ∉ j.news := by
    intro x hx hm
    rw [hnew x hm] at hx
    cases hx
  have hfields := fun x hx => makeLeaves_of_not_mem s t (hkeep (x := x) hx)
  refine ⟨fun x hx u hu => ?_, fun x hx u hu => ?_, fun u k hk x hxk hne => ?_,
    fun u k p hpc' v l hl => ?_, fun u k hk => ?_, fun u hu => ?_⟩
  · have hu' := (hfields x (h.allocated x hx)).2.2.1.symm.trans hu
    have hholds := ho.linkLock x hx u hu'
    by_cases hut : u = t
    · rw [hut, hpc] at hholds
      rcases hholds with hm | ⟨y, hy, _⟩
      · cases hm
      · cases hy
    · rwa [hpcu hut]
  · have hu' := (hfields x (h.allocated x hx)).2.2.2.1.symm.trans hu
    have hm := ho.lock x hx u hu'
    by_cases hut : u = t
    · subst hut
      rw [hpc] at hm
      rw [hpct]
      exact hm
    · rwa [hpcu hut]
  · by_cases hut : u = t
    · subst hut
      rw [hpct] at hk
      obtain rfl : j = k := Option.some.inj hk
      exact absurd (if_pos hxk) hne
    · rw [hpcu hut] at hk ⊢
      have ha := (h.thread u).made k (Pc.job_of_linking hk) x hxk
      exact ho.news u k hk x hxk (fun hn => hne ((hfields x ha).2.2.1.trans hn))
  · have hut : u ≠ t := by
      rintro rfl
      rw [hpct] at hpc'
      cases hpc'
    rw [hpcu hut] at hpc'
    by_cases hvt : v = t
    · subst hvt
      rw [hpct] at hl
      obtain rfl : j = l := Option.some.inj hl
      have hready := (h.thread u).ready
      rw [hpc'] at hready
      exact hkeep hready
    · rw [hpcu hvt] at hl
      exact ho.tried u k p hpc' v l hl
  · by_cases hut : u = t
    · subst hut
      rw [hpct] at hk
      obtain rfl : j = k := Option.some.inj hk
      exact hkind
    · rw [hpcu hut] at hk
      exact ho.single u k hk
  · have hut : u ≠ t := by
      rintro rfl
      rw [ho.idle u hu] at hpc
      cases hpc
    rw [hpcu hut]
    exact ho.idle u hu

/-- A step of a restructuring keeps both invariants. -/
theorem Owned.step_move (ho : Owned s C T) (h : Inv s C) (hs : move s t = some s') :
    ∃ C', Inv s' C' ∧ Owned s' C' T := by
  obtain ⟨C', hC', ⟨rfl, hsame⟩ | ⟨j, A, B, hfin, rfl⟩⟩ := h.move_chain hs
  · exact ⟨_, hC', ho.keep h hs hsame⟩
  · exact ⟨_, hC', ho.finish hfin⟩

/-- Every step keeps both invariants. -/
theorem Owned.step (ho : Owned s C T) (h : Inv s C) {lo hi : ν → ℚ} {a : Action θ ν}
    (hs : LeafLinks.step lo hi s a = some s') : ∃ C' T', Inv s' C' ∧ Owned s' C' T' := by
  cases a with
  | lockLeaf t x =>
      dsimp only [LeafLinks.step] at hs
      split at hs
      · rename_i hcond
        obtain ⟨hpc, hx, hfree⟩ := hcond
        cases hs
        refine ⟨C, insert t T, h.lockLeaf hpc hx hfree, ho.outside (fun y hy => ?_) (fun y hy => ?_)
          (fun u hu => ⟨(Option.some.inj hu).symm, List.mem_singleton_self x⟩) rfl
          (fun _ _ hc => by cases hc)⟩
        · rw [hpc] at hy
          cases hy
        · rw [hpc] at hy
          rcases hy with hm | ⟨z, hz, _⟩
          · cases hm
          · cases hz
      · cases hs
  | unlock t =>
      dsimp only [LeafLinks.step] at hs
      cases hpc : s.pc t with
      | locked x =>
          rw [hpc] at hs
          cases hs
          refine ⟨C, insert t T, h.unlock hpc, ho.outside (fun y hy => ?_) (fun y hy => ?_)
            (fun u hu => by cases hu) rfl (fun _ _ hc => by cases hc)⟩
          · rw [hpc] at hy
            exact List.mem_singleton.mp hy
          · rw [hpc] at hy
            rcases hy with hm | ⟨z, hz, _⟩
            · cases hm
            · cases hz
      | _ => rw [hpc] at hs; cases hs
  | build t j =>
      dsimp only [LeafLinks.step] at hs
      split at hs
      · rename_i hcond
        obtain ⟨hpc, hnd, hnew, hkind, _⟩ := hcond
        cases hs
        exact ⟨C, T, h.build hpc hnd hnew hkind, ho.build h hpc hnew hkind⟩
      · cases hs
  | move t =>
      obtain ⟨C', hC', hoC'⟩ := ho.step_move h hs
      exact ⟨C', T, hC', hoC'⟩

omit [DecidableEq θ] [DecidableEq ν] in
theorem Initial.owned {lo hi : ν → ℚ} {a b : ℚ} (h : Initial lo hi a b s) :
    Owned s s.tree ∅ := by
  refine ⟨fun x _ u hu => ?_, fun x _ u hu => ?_, fun u j hj => ?_, fun u j p hpc => ?_,
    fun u j hj => ?_, fun u _ => h.idle u⟩
  · rw [h.linkLock x] at hu
    cases hu
  · rw [h.lock x] at hu
    cases hu
  · rw [h.idle u] at hj
    cases hj
  · rw [h.idle u] at hpc
    cases hpc
  · rw [h.idle u] at hj
    cases hj

/-- In every state that is reached the locks of the chain are accounted for. -/
theorem run_owned {lo hi : ν → ℚ} {a b : ℚ} {s₀ : State θ ν} (h0 : Initial lo hi a b s₀)
    (hrun : Run (step lo hi) Any s₀ s) : ∃ C T, Inv s C ∧ Owned s C T :=
  hrun.invariant (I := fun s => ∃ C T, Inv s C ∧ Owned s C T) ⟨_, _, h0.inv, h0.owned⟩
    (fun _ _ _ ⟨_, _, hC, ho⟩ _ hs => ho.step hC hs)

end LearnedIndex.Alexol.LeafLinks
