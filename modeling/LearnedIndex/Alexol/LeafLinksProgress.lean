import Mathlib.Algebra.BigOperators.Group.Finset.Basic
import Mathlib.Algebra.Order.BigOperators.Group.Finset
import Mathlib.Data.Prod.Lex
import Mathlib.Order.WellFounded
import LearnedIndex.Alexol.LeafLinksOwners

/-! # Relinkings do not block each other

Once it has changed the parent, a restructuring waits for two kinds of link locks: that of its left
neighbour, in a loop that reads the neighbour again, and that of its old leaf.  A thread that waits
for its old leaf has the link lock of the left neighbour, so whoever makes it wait works on the
right of it, or is not waiting at all (`Owned.holder_advances`).  Hence the waiting threads form no
cycle, and as long as somebody relinks leaves some thread comes nearer to its end
(`Owned.advances`).  How a restructuring gets to change the parent is not looked at here.

`remaining` measures what is left to do: first the steps outside the loop, then those inside. -/

namespace LearnedIndex.Alexol.LeafLinks

open LearnedIndex.Machine LearnedIndex.Chains

/-- The steps until all locks are released, where the loop for the left neighbour is one step. -/
def Pc.left {ν : Type} : Pc ν → ℕ
  | idle | locked _ => 0
  | publish j => j.news.length + 15
  | readPrev j | tryPrev j _ | recheck j _ | unlockPrev j _ => j.news.length + 14
  | setNext j _ => j.news.length + 13
  | setPrev j _ => j.news.length + 12
  | lockLast j => j.news.length + 11
  | lockOld j => j.news.length + 10
  | readNext j => j.news.length + 9
  | setLastNext j _ => j.news.length + 8
  | setNextPrev j _ => j.news.length + 7
  | unlockNew j => j.news.length + 6
  | readFirstPrev j => j.news.length + 5
  | unlockFirstPrev j _ => j.news.length + 4
  | unlockLast j => j.news.length + 3
  | unlockLeaves l => l.length + 1

variable {θ ν : Type} [DecidableEq θ] [DecidableEq ν]

/-- The steps inside the loop until the thread tries the lock of its left neighbour or has it. -/
def Pc.leftInLoop (s : State θ ν) : Pc ν → ℕ
  | tryPrev j p => if s.prev j.old = some p then 1 else 5
  | recheck j p => if s.prev j.old = some p then 0 else 4
  | unlockPrev _ _ => 3
  | readPrev _ => 2
  | _ => 0

/-- What the threads in `T` have left to do. -/
def remaining (T : Finset θ) (s : State θ ν) : ℕ ×ₗ ℕ :=
  toLex (∑ t ∈ T, (s.pc t).left, ∑ t ∈ T, (s.pc t).leftInLoop s)

variable {s s' : State θ ν} {C : List ν} {T : Finset θ} {t u : θ} {pc : Pc ν}

omit [DecidableEq ν] in
theorem left_afterLink (j : Job ν) : j.afterLink.left ≤ j.news.length + 6 := by
  unfold Job.afterLink
  cases j.kind <;> simp [Pc.left]

omit [DecidableEq ν] in
theorem left_afterRelease (j : Job ν) : j.afterRelease.left ≤ j.news.length + 1 := by
  unfold Job.afterRelease
  cases j.kind <;> simp [Pc.left]

/-- One thread comes nearer to its end. -/
theorem remaining_lt_of_left (ht : t ∈ T) (hpc : ∀ u, u ≠ t → s'.pc u = s.pc u)
    (hlt : (s'.pc t).left < (s.pc t).left) : remaining T s' < remaining T s := by
  refine Prod.Lex.toLex_lt_toLex.mpr (Or.inl ?_)
  refine Finset.sum_lt_sum (fun u _ => ?_) ⟨t, ht, hlt⟩
  by_cases hu : u = t
  · rw [hu]
    exact hlt.le
  · rw [hpc u hu]

/-- One thread comes nearer to its end inside the loop; no link has changed. -/
theorem remaining_lt_of_leftInLoop (ht : t ∈ T) (hpc : ∀ u, u ≠ t → s'.pc u = s.pc u)
    (heq : (s'.pc t).left = (s.pc t).left) (hprev : s'.prev = s.prev)
    (hlt : (s'.pc t).leftInLoop s < (s.pc t).leftInLoop s) : remaining T s' < remaining T s := by
  have hloop : ∀ pc : Pc ν, pc.leftInLoop s' = pc.leftInLoop s := by
    intro pc
    unfold Pc.leftInLoop
    rw [hprev]
  refine Prod.Lex.toLex_lt_toLex.mpr (Or.inr ⟨?_, ?_⟩)
  · refine Finset.sum_congr rfl (fun u _ => ?_)
    by_cases hu : u = t
    · rw [hu, heq]
    · rw [hpc u hu]
  · refine Finset.sum_lt_sum (fun u _ => ?_) ⟨t, ht, ?_⟩
    · rw [hloop]
      by_cases hu : u = t
      · rw [hu]
        exact hlt.le
      · rw [hpc u hu]
    · rw [hloop]
      exact hlt

/-- Some thread can take a step after which less is left to do. -/
def Advances (T : Finset θ) (s : State θ ν) : Prop :=
  ∃ t s', (s.pc t).relinks = true ∧ move s t = some s' ∧ remaining T s' < remaining T s

/-- A thread that relinks leaves comes nearer to its end, unless it awaits a lock that is taken. -/
theorem advances_of_free (ht : t ∈ T) (hr : (s.pc t).relinks = true)
    (hfree : ∀ x, (s.pc t).awaits = some x → s.linkLock x = none ∨
      ∃ j, s.pc t = .tryPrev j x ∧ s.prev j.old ≠ some x) : Advances T s := by
  suffices h : ∃ s', move s t = some s' ∧ ((s'.pc t).left < (s.pc t).left ∨
      ((s'.pc t).left = (s.pc t).left ∧ s'.prev = s.prev ∧
        (s'.pc t).leftInLoop s < (s.pc t).leftInLoop s)) by
    obtain ⟨s', hs, hlt | ⟨heq, hprev, hlt⟩⟩ := h
    · exact ⟨t, s', hr, hs, remaining_lt_of_left ht (move_other hs).1 hlt⟩
    · exact ⟨t, s', hr, hs, remaining_lt_of_leftInLoop ht (move_other hs).1 heq hprev hlt⟩
  unfold move
  cases hpc : s.pc t with
  | idle => rw [hpc] at hr; cases hr
  | locked x => rw [hpc] at hr; cases hr
  | publish j => rw [hpc] at hr; cases hr
  | readPrev j =>
      dsimp only
      cases hprev : s.prev j.old with
      | none => exact ⟨_, rfl, Or.inl (by rw [goto_pc_self]; simp [Pc.left])⟩
      | some p =>
          refine ⟨_, rfl, Or.inr ⟨by rw [goto_pc_self]; rfl, rfl, ?_⟩⟩
          rw [goto_pc_self]
          simp [Pc.leftInLoop, hprev]
  | tryPrev j p =>
      dsimp only
      by_cases hlock : s.linkLock p = none
      · rw [if_pos hlock]
        refine ⟨_, rfl, Or.inr ⟨by rw [goto_pc_self]; rfl, rfl, ?_⟩⟩
        rw [goto_pc_self]
        unfold Pc.leftInLoop
        dsimp only
        split <;> omega
      · rw [if_neg hlock]
        refine ⟨_, rfl, Or.inr ⟨by rw [goto_pc_self]; rfl, rfl, ?_⟩⟩
        rw [goto_pc_self]
        rw [hpc] at hfree
        obtain ⟨k, hk, hne⟩ := (hfree p rfl).resolve_left hlock
        cases hk
        simp [Pc.leftInLoop, hne]
  | recheck j p =>
      dsimp only
      by_cases hprev : s.prev j.old = some p
      · rw [if_pos hprev]
        exact ⟨_, rfl, Or.inl (by rw [goto_pc_self]; simp [Pc.left])⟩
      · rw [if_neg hprev]
        refine ⟨_, rfl, Or.inr ⟨by rw [goto_pc_self]; rfl, rfl, ?_⟩⟩
        rw [goto_pc_self]
        simp [Pc.leftInLoop, hprev]
  | unlockPrev j p =>
      refine ⟨_, rfl, Or.inr ⟨by rw [goto_pc_self]; rfl, rfl, ?_⟩⟩
      rw [goto_pc_self]
      simp [Pc.leftInLoop]
  | lockLast j | lockOld j =>
      rw [hpc] at hfree
      have hlock := (hfree _ rfl).resolve_right (by rintro ⟨k, hk, _⟩; cases hk)
      dsimp only
      rw [if_pos hlock]
      exact ⟨_, rfl, Or.inl (by rw [goto_pc_self]; simp [Pc.left])⟩
  | readNext j =>
      have hleft := left_afterLink j
      dsimp only
      cases s.next j.old with
      | none =>
          exact ⟨_, rfl, Or.inl (by rw [goto_pc_self]; exact hleft.trans_lt (by simp [Pc.left]))⟩
      | some n => exact ⟨_, rfl, Or.inl (by rw [goto_pc_self]; simp [Pc.left])⟩
  | setNextPrev j n =>
      have hleft := left_afterLink j
      exact ⟨_, rfl, Or.inl (by rw [goto_pc_self]; exact hleft.trans_lt (by simp [Pc.left]))⟩
  | readFirstPrev j =>
      dsimp only
      cases s.prev j.first with
      | none => exact ⟨_, rfl, Or.inl (by rw [goto_pc_self]; simp [Pc.left])⟩
      | some p => exact ⟨_, rfl, Or.inl (by rw [goto_pc_self]; simp [Pc.left])⟩
  | unlockLast j =>
      have hleft := left_afterRelease j
      exact ⟨_, rfl, Or.inl (by rw [goto_pc_self]; exact hleft.trans_lt (by simp [Pc.left]))⟩
  | unlockLeaves l =>
      cases l with
      | nil => exact ⟨_, rfl, Or.inl (by rw [goto_pc_self]; simp [Pc.left])⟩
      | cons x l => exact ⟨_, rfl, Or.inl (by rw [goto_pc_self]; simp [Pc.left])⟩
  | setNext j p | setPrev j p | setLastNext j n | unlockNew j | unlockFirstPrev j p =>
      exact ⟨_, rfl, Or.inl (by rw [goto_pc_self]; simp [Pc.left])⟩

omit [DecidableEq ν] in
theorem Pc.relinks_of_holds {x : ν} (h : pc.Holds C x) : pc.relinks = true := by
  cases pc with
  | idle | locked y | publish j =>
      rcases h with hm | ⟨y, hy, _⟩
      · cases hm
      · cases hy
  | _ => rfl

namespace Owned

omit [DecidableEq ν] in
theorem mem (ho : Owned s C T) (hr : (s.pc t).relinks = true) : t ∈ T := by
  by_contra ht
  rw [ho.idle t ht] at hr
  cases hr

omit [DecidableEq θ] [DecidableEq ν] in
/-- The link lock of the last new leaf is free until its thread takes it. -/
theorem last_free (ho : Owned s C T) {j : Job ν} (hpc : s.pc t = .lockLast j) :
    s.linkLock j.last = none := by
  by_contra hne
  have hm := ho.news t j (by rw [hpc]; rfl) _ j.last_mem hne
  rw [hpc] at hm
  cases hm

/-- The holder of a link lock of the chain can go on, or it waits for that of the next leaf. -/
theorem holder_cases (ho : Owned s C T) (h : Inv s C) {x : ν} (hx : x ∈ C)
    (hlock : s.linkLock x = some u) :
    Advances T s ∨ ∃ y v, Follows C x y ∧ s.linkLock y = some v := by
  have hholds := ho.linkLock x hx u hlock
  have hr := Pc.relinks_of_holds hholds
  have hu := ho.mem hr
  cases hpc : s.pc u with
  | tryPrev j p =>
      rw [hpc] at hholds
      rcases hholds with hm | ⟨y, hy, _⟩
      · cases hm
      · cases hy
  | lockLast j =>
      left
      refine advances_of_free hu hr (fun y hy => Or.inl ?_)
      rw [hpc] at hy
      obtain rfl := Option.some.inj hy
      exact ho.last_free hpc
  | lockOld j =>
      cases hold : s.linkLock j.old with
      | none =>
          left
          refine advances_of_free hu hr (fun y hy => Or.inl ?_)
          rw [hpc] at hy
          obtain rfl := Option.some.inj hy
          exact hold
      | some v =>
          right
          refine ⟨j.old, v, ?_, hold⟩
          rw [hpc] at hholds
          rcases hholds with hm | ⟨y, hy, hf⟩
          · have hfresh := ((h.thread u).news j (by rw [hpc]; rfl)).fresh j.last j.last_mem
            rw [List.mem_singleton.mp hm] at hx
            exact absurd hx hfresh
          · obtain rfl := Option.some.inj hy
            exact hf
  | _ =>
      left
      refine advances_of_free hu hr (fun y hy => ?_)
      rw [hpc] at hy
      cases hy

/-- When the link lock of a leaf of the chain is taken, some thread comes nearer to its end: the
holder, or one that the holder waits for, further to the right. -/
theorem holder_advances (ho : Owned s C T) (h : Inv s C) {B : List ν} {A : List ν} {x : ν} {u : θ}
    (hC : C = A ++ x :: B) (hlock : s.linkLock x = some u) : Advances T s := by
  induction B generalizing A x u with
  | nil =>
      obtain hadv | ⟨y, _, hf, _⟩ := ho.holder_cases h (by rw [hC]; simp) hlock
      · exact hadv
      · exact absurd (by rw [hC]; exact List.getLast?_concat ..) (hf.ne_last h.nodup)
  | cons b B ih =>
      obtain hadv | ⟨y, v, hf, hlock'⟩ := ho.holder_cases h (by rw [hC]; simp) hlock
      · exact hadv
      · obtain rfl := hf.right_unique h.nodup ⟨A, B, hC⟩
        apply ih (A := A ++ [x]) _ hlock'
        rw [hC]
        simp

/-- As long as some thread relinks leaves, one comes nearer to its end. -/
theorem advances (ho : Owned s C T) (h : Inv s C) (hr : (s.pc t).relinks = true) :
    Advances T s := by
  have ht := ho.mem hr
  have hwait : ∀ x ∈ C, s.linkLock x = none ∨ Advances T s := by
    intro x hx
    obtain ⟨A, B, hC⟩ := List.append_of_mem hx
    cases hlock : s.linkLock x with
    | none => exact Or.inl rfl
    | some u => exact Or.inr (ho.holder_advances h hC hlock)
  cases hpc : s.pc t with
  | tryPrev j p =>
      by_cases hprev : s.prev j.old = some p
      · have hf := h.left_neighbour (t := t) (by rw [hpc]; rfl) hprev (by rw [hpc]; rfl)
        rcases hwait p hf.left_mem with hfree | hadv
        · refine advances_of_free ht hr (fun y hy => Or.inl ?_)
          rw [hpc] at hy
          obtain rfl := Option.some.inj hy
          exact hfree
        · exact hadv
      · refine advances_of_free ht hr (fun y hy => Or.inr ⟨j, ?_⟩)
        rw [hpc] at hy
        obtain rfl := Option.some.inj hy
        exact ⟨hpc, hprev⟩
  | lockLast j =>
      refine advances_of_free ht hr (fun y hy => Or.inl ?_)
      rw [hpc] at hy
      obtain rfl := Option.some.inj hy
      exact ho.last_free hpc
  | lockOld j =>
      rcases hwait j.old (h.old (t := t) (by rw [hpc]; rfl)).1 with hfree | hadv
      · refine advances_of_free ht hr (fun y hy => Or.inl ?_)
        rw [hpc] at hy
        obtain rfl := Option.some.inj hy
        exact hfree
      · exact hadv
  | _ =>
      refine advances_of_free ht hr (fun y hy => ?_)
      rw [hpc] at hy
      cases hy

end Owned

/-! ### Completion -/

/-- The steps of threads that relink leaves. -/
def Relinks (s : State θ ν) : Action θ ν → Prop
  | .move t => (s.pc t).relinks = true
  | _ => False

/-- The relinkings that are under way can be completed by their own steps. -/
theorem Owned.completes (ho : Owned s C T) (h : Inv s C) {lo hi : ν → ℚ} :
    ∃ s' C', Run (LeafLinks.step lo hi) Relinks s s' ∧ Inv s' C' ∧ Owned s' C' T ∧
      ∀ t, (s'.pc t).relinks = false := by
  have hstep : ∀ s : State θ ν, (∃ C, Inv s C ∧ Owned s C T) →
      ¬ (∀ t, (s.pc t).relinks = false) → ∃ a s', Relinks s a ∧
        LeafLinks.step lo hi s a = some s' ∧ (∃ C, Inv s' C ∧ Owned s' C T) ∧
        remaining T s' < remaining T s := by
    rintro s ⟨C, hC, hoC⟩ hbusy
    obtain ⟨t, ht⟩ := not_forall.mp hbusy
    obtain ⟨u, s', hu, hs, hlt⟩ := hoC.advances hC (Bool.eq_true_of_not_eq_false ht)
    exact ⟨.move u, s', hu, hs, hoC.step_move hC hs, hlt⟩
  obtain ⟨s', hrun, ⟨C', hC', hoC'⟩, hquiet⟩ := Run.completes (remaining T) hstep s ⟨C, h, ho⟩
  exact ⟨s', C', hrun, hC', hoC', hquiet⟩

/-- A relinking goes on or ends in the idle position. -/
theorem move_relinks (hr : (s.pc t).relinks = true) (hs : move s t = some s') :
    (s'.pc t).relinks = true ∨ s'.pc t = .idle := by
  unfold move at hs
  cases hpc : s.pc t with
  | idle | locked x | publish j => rw [hpc] at hr; cases hr
  | readNext j =>
      rw [hpc] at hs
      dsimp only at hs
      split at hs <;> cases hs <;> rw [goto_pc_self]
      · exact Or.inl (by unfold Job.afterLink; cases j.kind <;> rfl)
      · exact Or.inl rfl
  | setNextPrev j n =>
      rw [hpc] at hs
      cases hs
      rw [goto_pc_self]
      exact Or.inl (by unfold Job.afterLink; cases j.kind <;> rfl)
  | unlockLast j =>
      rw [hpc] at hs
      cases hs
      rw [goto_pc_self]
      unfold Job.afterRelease
      cases j.kind with
      | resize => exact Or.inr rfl
      | split => exact Or.inl rfl
  | unlockLeaves l =>
      rw [hpc] at hs
      cases l with
      | nil => cases hs; rw [goto_pc_self]; exact Or.inr rfl
      | cons x l => cases hs; rw [goto_pc_self]; exact Or.inl rfl
  | _ =>
      rw [hpc] at hs
      dsimp only at hs
      repeat' split at hs
      all_goals cases hs
      all_goals rw [goto_pc_self]
      all_goals exact Or.inl rfl

/-- The steps of relinkings leave all other threads alone. -/
theorem pc_of_relinks {lo hi : ν → ℚ} (hrun : Run (step lo hi) Relinks s s') (t : θ) :
    s'.pc t = s.pc t ∨ ((s.pc t).relinks = true ∧
      ((s'.pc t).relinks = true ∨ s'.pc t = .idle)) := by
  induction hrun with
  | refl => exact Or.inl rfl
  | @tail v w a _ ha hw ih =>
      cases a with
      | move u =>
          have hr : (v.pc u).relinks = true := ha
          have hend := move_relinks hr hw
          by_cases htu : t = u
          · subst htu
            rcases ih with heq | ⟨hrs, _⟩
            · rw [heq] at hr
              exact Or.inr ⟨hr, hend⟩
            · exact Or.inr ⟨hrs, hend⟩
          · rw [(move_other hw).1 t htu]
            exact ih
      | _ => cases ha

/-- **Relinkings do not block each other.**  From every state that is reached, the threads that have
changed the parent can all be brought to their end by their own steps, while every other thread
stays where it is.  Then the leaves are in key order and linked in both directions, no link lock of
a leaf is taken, and `lock_` of a leaf is taken by a thread only that has not changed its parent
yet. -/
theorem restructurings_complete {lo hi : ν → ℚ} {a b : ℚ} {s₀ : State θ ν}
    (h0 : Initial lo hi a b s₀) (hrun : Run (step lo hi) Any s₀ s) :
    ∃ s', Run (step lo hi) Relinks s s' ∧
      (∀ t, s'.pc t = if (s.pc t).relinks then .idle else s.pc t) ∧
      Spans lo hi a s'.tree b ∧ Linked s'.prev s'.next none s'.tree none ∧
      ∀ x ∈ s'.tree, s'.linkLock x = none ∧ ∀ t, s'.lock x = some t →
        s'.pc t = .locked x ∨ ∃ j, s'.pc t = .publish j ∧ j.old = x := by
  obtain ⟨C, T, hC, ho⟩ := run_owned h0 hrun
  obtain ⟨s', C', hmoves, hC', ho', hquiet⟩ : ∃ s' C', Run (step lo hi) Relinks s s' ∧ Inv s' C' ∧
      Owned s' C' T ∧ ∀ t, (s'.pc t).relinks = false := ho.completes hC
  have hrun' : Run (step lo hi) Any s₀ s' := hrun.trans (hmoves.mono (fun _ _ _ => trivial))
  have hord : Ordered lo hi a b s' :=
    hrun'.invariant (I := Ordered lo hi a b) h0.ordered (fun _ _ _ h _ hs => h.step hs)
  obtain ⟨htree, hlinked⟩ := hC'.quiet hquiet
  refine ⟨s', hmoves, fun t => ?_, hord.tree, hlinked, fun x hx => ⟨?_, fun t ht => ?_⟩⟩
  · have hq := hquiet t
    rcases pc_of_relinks hmoves t with heq | ⟨hr, hend⟩
    · rw [heq] at hq ⊢
      rw [hq]
      rfl
    · rw [hr]
      rcases hend with hr' | hidle
      · rw [hr'] at hq
        cases hq
      · exact hidle
  · cases hlock : s'.linkLock x with
    | none => rfl
    | some u =>
        have hr := Pc.relinks_of_holds (ho'.linkLock x (htree ▸ hx) u hlock)
        rw [hquiet u] at hr
        cases hr
  · have hm := ho'.lock x (htree ▸ hx) t ht
    have hq := hquiet t
    cases hpc : s'.pc t with
    | idle => rw [hpc] at hm; cases hm
    | locked y =>
        rw [hpc] at hm
        exact Or.inl (by rw [List.mem_singleton.mp hm])
    | publish j =>
        rw [hpc] at hm
        exact Or.inr ⟨j, rfl, (List.mem_singleton.mp hm).symm⟩
    | _ => rw [hpc] at hq; cases hq

/-- Both threads restructure; the right one holds the link lock that the left one waits for. -/
def waitingForRight (t u : θ) : List (Action θ ℕ) :=
  [.lockLeaf t 0, .lockLeaf u 1, .build t ⟨.resize, 0, 2, []⟩, .build u ⟨.split, 1, 3, [4]⟩] ++
    List.replicate 6 (.move u) ++ List.replicate 3 (.move t)

theorem restructurings_complete_waitingForRight :
    ∃ s, exec (step twoLeavesLo twoLeavesHi) twoLeaves (waitingForRight 0 1) = some s ∧
      s.pc 0 = .lockOld ⟨.resize, 0, 2, []⟩ ∧ s.linkLock 0 = some 1 ∧
      ∃ s', Run (step twoLeavesLo twoLeavesHi) Relinks s s' ∧
        (∀ t, s'.pc t = if (s.pc t).relinks then .idle else s.pc t) ∧
        Spans twoLeavesLo twoLeavesHi 0 s'.tree 2 ∧ Linked s'.prev s'.next none s'.tree none ∧
        ∀ x ∈ s'.tree, s'.linkLock x = none ∧ ∀ t, s'.lock x = some t →
          s'.pc t = .locked x ∨ ∃ j, s'.pc t = .publish j ∧ j.old = x := by
  have hend : (exec (step twoLeavesLo twoLeavesHi) twoLeaves (waitingForRight 0 1)).map
      (fun s => (s.pc 0, s.linkLock 0)) = some (.lockOld ⟨.resize, 0, 2, []⟩, some 1) := by
    decide +kernel
  obtain ⟨s, hs, htuple⟩ := Option.map_eq_some_iff.mp hend
  obtain ⟨hpc, hlock⟩ := Prod.mk.inj htuple
  have hrun : Run (step twoLeavesLo twoLeavesHi) Any twoLeaves s :=
    run_of_exec hs (fun _ _ => trivial)
  exact ⟨s, hs, hpc, hlock, restructurings_complete twoLeaves_initial hrun⟩

end LearnedIndex.Alexol.LeafLinks
