import LearnedIndex.Alexol.LeafLinksInv

/-! # Writing the links of the new leaves

The four writes of a restructuring.  The first three keep the chain and change which leaf stands for
the old one on one side.  The last one, or the discovery that there is no right neighbour, puts the
new leaves into the chain (`Finishing.result`). -/

namespace LearnedIndex.Alexol.LeafLinks

open LearnedIndex.Machine LearnedIndex.Chains

variable {θ ν : Type} [DecidableEq θ] [DecidableEq ν]
  {s s' : State θ ν} {C : List ν} {t u : θ} {pc : Pc ν}

namespace Inv

/-! ### Links written inside the chain -/

/-- The tree after a step of a linking thread that does not publish. -/
theorem tree_same (h : Inv s C) {j : Job ν} (hj : (s.pc t).linking = some j)
    (hj' : pc.linking = some j) (hk : s'.lock = s.lock) (hpc : s'.pc = Function.update s.pc t pc)
    (ht : s'.tree = s.tree) (hshown : ∀ x, pc.shown x = (s.pc t).shown x) :
    s'.tree = C.flatMap (fun x => (s'.pcOf x).shown x) := by
  obtain ⟨hold', hne⟩ := h.pcOf_step s' hj hk hpc hj'
  rw [ht, h.tree]
  refine List.flatMap_congr (fun x _ => ?_)
  by_cases hx : x = j.old
  · rw [hx, (h.old hj).2.2, hold', hshown]
  · rw [hne x hx]

/-- A step of a linking thread after which the links of the chain are right again. -/
theorem relink (h : Inv s C) {j : Job ν} (hj : (s.pc t).linking = some j)
    (hj' : pc.linking = some j) (hk : s'.lock = s.lock) (hll : s'.linkLock = s.linkLock)
    (ha : s'.allocated = s.allocated) (hpc : s'.pc = Function.update s.pc t pc)
    (htree : s'.tree = C.flatMap (fun x => (s'.pcOf x).shown x))
    (hlink : ∀ x y, Follows C x y → s'.next ((s'.pcOf x).nextFrom x) = some ((s'.pcOf y).nextTo y) ∧
      s'.prev ((s'.pcOf y).prevFrom y) = some x)
    (hhead : ∀ x, C.head? = some x → s'.prev ((s'.pcOf x).prevFrom x) = none)
    (hlast : ∀ x, C.getLast? = some x → s'.next ((s'.pcOf x).nextFrom x) = none)
    (hheld : ∀ x ∈ pc.linkHeld, x ∈ (s.pc t).linkHeld)
    (hguard : ∀ x p, pc.guarded = some x → Follows C p x → (s.pc t).guarded = some x)
    (hnews : NewLeaves s' C t j) (hready : pc.Ready s' t)
    (hothers : ∀ u, u ≠ t → (∀ x, (s.pc u).watchPrev = some x → s'.prev x = s.prev x) ∧
      (∀ x, (s.pc u).watchNext = some x → s'.next x = s.next x) ∧
      ∀ k, (s.pc u).linking = some k → ∀ x ∈ k.news, s'.next x = s.next x ∧ s'.prev x = s.prev x) :
    Inv s' C := by
  have hpcu : ∀ u, u ≠ t → s'.pc u = s.pc u := by
    intro u hu
    rw [hpc, Function.update_of_ne hu]
  have hpct : s'.pc t = pc := by rw [hpc, Function.update_self]
  refine ⟨h.nodup, htree, ?_, ?_, ?_, hlink, hhead, hlast, ?_, ?_⟩
  · rw [ha]
    exact h.allocated
  · rw [ha, hk]
    exact h.free
  · rw [ha, hll]
    exact h.locked
  · intro u
    by_cases hu : u = t
    · subst hu
      have hti := h.thread u
      refine ⟨?_, ?_, ?_, ?_, ?_, ?_, ?_⟩
      · rw [hpct, Pc.job_of_linking hj', ← Pc.job_of_linking hj]
        exact hti.nodup
      · rw [hpct, ha, Pc.job_of_linking hj', ← Pc.job_of_linking hj]
        exact hti.made
      · rw [hpct, hk, Pc.locks_of_linking hj', ← Pc.locks_of_linking hj]
        exact hti.locks
      · rw [hpct, hll]
        exact fun x hx => hti.held x (hheld x hx)
      · rw [hpct, hll]
        exact fun x p hx hf => hti.guard x p (hguard x p hx hf) hf
      · rw [hpct, hj']
        rintro _ ⟨⟩
        exact hnews
      · rw [hpct]
        exact hready
    · obtain ⟨hp, hn, hb⟩ := hothers u hu
      refine (h.thread u).frame (hpcu u hu) h.allocated (fun x _ hx => by rwa [hk])
        (fun x hx => by rwa [hll]) (fun x hx => by rwa [ha]) (fun _ _ => id)
        (fun _ _ _ => id) hp hn (fun k hk' hnew => ?_)
      exact hnew.frame (fun x _ => by rw [hk]) (fun _ _ => id) (fun x hx => (hb k hk' x hx).1)
        (fun x hx => (hb k hk' x hx).2) id id
  · intro u v k l huv hku hlv
    have hku' : (s.pc u).job = some k := by
      by_cases hu : u = t
      · subst hu
        rwa [hpct, Pc.job_of_linking hj', ← Pc.job_of_linking hj] at hku
      · rwa [hpcu u hu] at hku
    have hlv' : (s.pc v).linking = some l := by
      by_cases hv : v = t
      · subst hv
        rwa [hpct, hj', ← hj] at hlv
      · rwa [hpcu v hv] at hlv
    exact h.apart u v k l huv hku' hlv'

omit [DecidableEq θ] in
/-- Writing one link to the right into a leaf whose link lock the thread holds. -/
theorem others_of_setNext (h : Inv s C) {x : ν} (hx : s.linkLock x = some t)
    (hn : ∀ y, y ≠ x → s'.next y = s.next y) (hp : s'.prev = s.prev)
    (hfresh : ∀ u k, u ≠ t → (s.pc u).linking = some k → x ∉ k.news) {u : θ} (hu : u ≠ t) :
    (∀ y, (s.pc u).watchPrev = some y → s'.prev y = s.prev y) ∧
      (∀ y, (s.pc u).watchNext = some y → s'.next y = s.next y) ∧
      ∀ k, (s.pc u).linking = some k → ∀ y ∈ k.news, s'.next y = s.next y ∧
      s'.prev y = s.prev y := by
  refine ⟨fun y _ => by rw [hp], fun y hy => hn y ?_, fun k hk y hy => ⟨hn y ?_, by rw [hp]⟩⟩
  · rintro rfl
    have hy' := (h.thread u).held _ (Pc.linkHeld_of_watchNext hy)
    exact hu (Option.some.inj (hy'.symm.trans hx))
  · rintro rfl
    exact hfresh u k hu hk hy

/-- Without a left neighbour there is nothing to write on the left. -/
theorem readPrev_none (h : Inv s C) {j : Job ν} (hpc : s.pc t = .readPrev j)
    (hprev : s.prev j.old = none) : Inv (s.goto t (.lockLast j)) C := by
  have hj : (s.pc t).linking = some j := by rw [hpc]; rfl
  obtain ⟨holdC, _, hold⟩ := h.old hj
  obtain ⟨hold', hne⟩ := h.pcOf_step (s.goto t (.lockLast j)) hj rfl rfl rfl
  have hfirst : ∀ x, ¬ Follows C x j.old := by
    intro x hf
    have := (h.link x j.old hf).2
    rw [hold, hpc] at this
    exact absurd (hprev.symm.trans this) (by simp)
  have hnews := (h.thread t).news j hj
  have hright : ∀ x, ((s.goto t (.lockLast j)).pcOf x).nextFrom x = (s.pcOf x).nextFrom x := by
    intro x
    by_cases hx : x = j.old
    · rw [hx, hold', hold, hpc]
      rfl
    · rw [hne x hx]
  refine h.relink hj rfl rfl rfl rfl rfl
    (h.tree_same hj rfl rfl rfl rfl (fun _ => by rw [hpc]; rfl)) (fun x y hf => ?_)
    (fun x hx => ?_) (fun x hx => ?_) (by simp [Pc.linkHeld]) (fun x p hx hf => ?_)
    (hnews.frame (fun _ _ => rfl) (fun _ _ => id) (fun _ _ => rfl) (fun _ _ => rfl) id id) trivial
    (fun u hu => ⟨fun _ _ => rfl, fun _ _ => rfl, fun _ _ _ _ => ⟨rfl, rfl⟩⟩)
  · have hy : y ≠ j.old := by
      rintro rfl
      exact hfirst x hf
    rw [hne y hy, hright]
    exact h.link x y hf
  · by_cases hxo : x = j.old
    · rw [hxo, hold']
      exact hnews.head (hxo ▸ hx)
    · rw [hne x hxo]
      exact h.head x hx
  · rw [hright]
    exact h.last x hx
  · obtain rfl : j.old = x := Option.some.inj hx
    exact absurd hf (hfirst p)

omit [DecidableEq θ] in
/-- The left neighbour of the old leaf, once the thread has checked the link to it. -/
theorem left_neighbour (h : Inv s C) {j : Job ν} (hj : (s.pc t).linking = some j) {p : ν}
    (hprev : s.prev j.old = some p) (hfrom : (s.pc t).prevFrom j.old = j.old) :
    Follows C p j.old := by
  obtain ⟨holdC, _, hold⟩ := h.old hj
  rcases exists_follows_of_mem holdC with hhead | ⟨q, hf⟩
  · have := h.head j.old hhead
    rw [hold, hfrom, hprev] at this
    cases this
  · have := (h.link q j.old hf).2
    rw [hold, hfrom, hprev] at this
    rwa [Option.some.inj this]

omit [DecidableEq θ] in
/-- The right neighbour is linked from a leaf whose link lock the thread holds: nobody has passed
that link on. -/
theorem nextFrom_of_locked (h : Inv s C) {x : ν} (hx : s.linkLock x = some t)
    (hold : (s.pc t).linking.map Job.old ≠ some x) : (s.pcOf x).nextFrom x = x := by
  rcases pcOf_cases s x with hidle | ⟨u, k, _, hk, rfl, hpc⟩
  · rw [hidle]
    rfl
  · rw [hpc]
    cases hu : s.pc u with
    | setNextPrev k' n =>
        rw [hu] at hk
        obtain rfl : k' = k := Option.some.inj hk
        have hheld := (h.thread u).held k'.old (by rw [hu]; simp [Pc.linkHeld])
        obtain rfl := Option.some.inj (hheld.symm.trans hx)
        exact absurd (by rw [hu]; rfl) hold
    | _ => rfl

theorem setNext (h : Inv s C) {j : Job ν} {p : ν} (hpc : s.pc t = .setNext j p) :
    Inv ((s.setNext p (some j.first)).goto t (.setPrev j p)) C := by
  have hj : (s.pc t).linking = some j := by rw [hpc]; rfl
  obtain ⟨holdC, _, hold⟩ := h.old hj
  have hti := h.thread t
  have hprev : s.prev j.old = some p := by
    have := hti.ready
    rwa [hpc] at this
  have hp : s.linkLock p = some t := hti.held p (by rw [hpc]; simp [Pc.linkHeld])
  have hf : Follows C p j.old := h.left_neighbour hj hprev (by rw [hpc]; rfl)
  have hpo : p ≠ j.old := hf.ne h.nodup
  obtain ⟨hold', hne⟩ :=
    h.pcOf_step ((s.setNext p (some j.first)).goto t (.setPrev j p)) hj rfl rfl rfl
  have hfrom : (s.pcOf p).nextFrom p = p := h.nextFrom_of_locked hp (by
    rw [hj, Option.map_some]
    exact fun hc => hpo (Option.some.inj hc).symm)
  have hnext : ∀ x, x ≠ p →
    ((s.setNext p (some j.first)).goto t (.setPrev j p)).next x = s.next x :=
    fun x hx => Function.update_of_ne hx ..
  have hzone : ∀ x ∈ C, x ≠ p → (s.pcOf x).nextFrom x ≠ p := by
    intro x hx hxp hc
    exact h.zone_disjoint hx hf.left_mem hxp (Pc.nextFrom_mem_zone x _)
      (hc ▸ List.mem_cons_self ..)
  have hfresh : ∀ u k, (s.pc u).linking = some k → p ∉ k.news := fun u k hk hm =>
    ((h.thread u).news k hk).fresh p hm hf.left_mem
  have hright : ∀ x, (((s.setNext p (some j.first)).goto t (.setPrev j p)).pcOf x).nextFrom x =
      (s.pcOf x).nextFrom x := by
    intro x
    by_cases hx : x = j.old
    · rw [hx, hold', hold, hpc]
      rfl
    · rw [hne x hx]
  refine h.relink hj rfl rfl rfl rfl rfl
    (h.tree_same hj rfl rfl rfl rfl (fun _ => by rw [hpc]; rfl)) (fun x y hxy => ?_)
    (fun x hx => ?_) (fun x hx => ?_) (by rw [hpc]; simp [Pc.linkHeld])
    (fun x q hx _ => by rw [hpc]; exact hx) ?_ hprev
    (fun u hu => h.others_of_setNext hp hnext rfl (fun u k _ => hfresh u k) hu)
  · by_cases hy : y = j.old
    · -- the link that is written
      subst hy
      obtain rfl : p = x := hf.left_unique h.nodup hxy
      rw [hold', hne p hpo, hfrom]
      exact ⟨Function.update_self .., hprev⟩
    · have hxp : x ≠ p := by
        rintro rfl
        exact hy (hxy.right_unique h.nodup hf)
      rw [hne y hy, hright, hnext _ (hzone x hxy.left_mem hxp)]
      exact h.link x y hxy
  · have hxo : x ≠ j.old := by
      rintro rfl
      exact hf.ne_head h.nodup hx
    rw [hne x hxo]
    exact h.head x hx
  · have hxp : x ≠ p := by
      rintro rfl
      exact hf.ne_last h.nodup hx
    rw [hright, hnext _ (hzone x (List.mem_of_getLast? hx) hxp)]
    exact h.last x hx
  · exact (hti.news j hj).frame (fun _ _ => rfl) (fun _ _ => id)
      (fun x hx => hnext x (by rintro rfl; exact hfresh t j hj hx)) (fun _ _ => rfl) id id

theorem setPrev (h : Inv s C) {j : Job ν} {p : ν} (hpc : s.pc t = .setPrev j p) :
    Inv ((s.setPrev j.first (some p)).goto t (.lockLast j)) C := by
  have hj : (s.pc t).linking = some j := by rw [hpc]; rfl
  obtain ⟨holdC, _, hold⟩ := h.old hj
  have hti := h.thread t
  have hnews := hti.news j hj
  have hnd := hti.nodup j (Pc.job_of_linking hj)
  have hprev : s.prev j.old = some p := by
    have := hti.ready
    rwa [hpc] at this
  have hf : Follows C p j.old := h.left_neighbour hj hprev (by rw [hpc]; rfl)
  obtain ⟨hold', hne⟩ :=
    h.pcOf_step ((s.setPrev j.first (some p)).goto t (.lockLast j)) hj rfl rfl rfl
  have hset : ∀ x, x ≠ j.first →
      ((s.setPrev j.first (some p)).goto t (.lockLast j)).prev x = s.prev x :=
    fun x hx => Function.update_of_ne hx ..
  have hzone : ∀ x ∈ C, x ≠ j.old → (s.pcOf x).prevFrom x ≠ j.first := by
    intro x hx hxo hc
    refine h.zone_disjoint hx holdC hxo (Pc.prevFrom_mem_zone x _) ?_
    rw [hc, hold]
    unfold Pc.zone
    rw [hj]
    exact List.mem_cons_of_mem _ j.first_mem
  have hright : ∀ x, (((s.setPrev j.first (some p)).goto t (.lockLast j)).pcOf x).nextFrom x =
      (s.pcOf x).nextFrom x := by
    intro x
    by_cases hx : x = j.old
    · rw [hx, hold', hold, hpc]
      rfl
    · rw [hne x hx]
  have hleft : ∀ x, (((s.setPrev j.first (some p)).goto t (.lockLast j)).pcOf x).nextTo x =
      (s.pcOf x).nextTo x := by
    intro x
    by_cases hx : x = j.old
    · rw [hx, hold', hold, hpc]
      rfl
    · rw [hne x hx]
  refine h.relink hj rfl rfl rfl rfl rfl
    (h.tree_same hj rfl rfl rfl rfl (fun _ => by rw [hpc]; rfl)) (fun x y hxy => ?_)
    (fun x hx => ?_) (fun x hx => ?_) (by simp [Pc.linkHeld])
    (fun x q hx _ => by rw [hpc]; exact hx) ?_ trivial (fun u hu => ?_)
  · refine ⟨by rw [hright, hleft]; exact (h.link x y hxy).1, ?_⟩
    by_cases hy : y = j.old
    · -- the link that is written
      subst hy
      obtain rfl : p = x := hf.left_unique h.nodup hxy
      rw [hold']
      exact Function.update_self ..
    · rw [hne y hy, hset _ (hzone y hxy.right_mem hy)]
      exact (h.link x y hxy).2
  · have hxo : x ≠ j.old := by
      rintro rfl
      exact hf.ne_head h.nodup hx
    rw [hne x hxo, hset _ (hzone x (List.mem_of_mem_head? hx) hxo)]
    exact h.head x hx
  · rw [hright]
    exact h.last x hx
  · refine ⟨hnews.lock, hnews.fresh, fun x y hxy => ?_, fun hc => ?_, hnews.last⟩
    · have hy : y ≠ j.first := by
        rintro rfl
        exact hxy.ne_head hnd rfl
      rw [hset y hy]
      exact hnews.inner x y hxy
    · exact absurd hc (hf.ne_head h.nodup)
  · have hapart : ∀ k, (s.pc u).job = some k → j.first ∉ k.news := fun k hk hm =>
      h.apart u t k j hu hk hj j.first hm j.first_mem
    refine ⟨fun x hx => hset x ?_, fun _ _ => rfl, fun k hk x hx => ⟨rfl, hset x ?_⟩⟩
    · rintro rfl
      rcases Pc.watchPrev_cases hx with ⟨k, hk, hold⟩ | ⟨k, hk, _, hfirst⟩
      · exact hnews.fresh j.first j.first_mem (hold ▸ (h.old hk).1)
      · exact hapart k hk (hfirst ▸ k.first_mem)
    · rintro rfl
      exact hapart k (Pc.job_of_linking hk) hx

theorem setLastNext (h : Inv s C) {j : Job ν} {n : ν} (hpc : s.pc t = .setLastNext j n) :
    Inv ((s.setNext j.last (some n)).goto t (.setNextPrev j n)) C := by
  have hj : (s.pc t).linking = some j := by rw [hpc]; rfl
  obtain ⟨holdC, _, hold⟩ := h.old hj
  have hti := h.thread t
  have hnews := hti.news j hj
  have hnd := hti.nodup j (Pc.job_of_linking hj)
  have hnext : s.next j.old = some n := by
    have := hti.ready
    rwa [hpc] at this
  have hlastheld : s.linkLock j.last = some t := hti.held j.last (by rw [hpc]; simp [Pc.linkHeld])
  have hnotlast : C.getLast? ≠ some j.old := by
    intro hc
    have := h.last j.old hc
    rw [hold, hpc] at this
    exact absurd (hnext.symm.trans this) (by simp)
  obtain ⟨hold', hne⟩ :=
    h.pcOf_step ((s.setNext j.last (some n)).goto t (.setNextPrev j n)) hj rfl rfl rfl
  have hset : ∀ x, x ≠ j.last →
      ((s.setNext j.last (some n)).goto t (.setNextPrev j n)).next x = s.next x :=
    fun x hx => Function.update_of_ne hx ..
  have hzone : ∀ x ∈ C, x ≠ j.old → (s.pcOf x).nextFrom x ≠ j.last := by
    intro x hx hxo hc
    refine h.zone_disjoint hx holdC hxo (Pc.nextFrom_mem_zone x _) ?_
    rw [hc, hold]
    unfold Pc.zone
    rw [hj]
    exact List.mem_cons_of_mem _ j.last_mem
  have hleft : ∀ x, (((s.setNext j.last (some n)).goto t (.setNextPrev j n)).pcOf x).nextTo x =
      (s.pcOf x).nextTo x := by
    intro x
    by_cases hx : x = j.old
    · rw [hx, hold', hold, hpc]
      rfl
    · rw [hne x hx]
  have hback : ∀ x, (((s.setNext j.last (some n)).goto t (.setNextPrev j n)).pcOf x).prevFrom x =
      (s.pcOf x).prevFrom x := by
    intro x
    by_cases hx : x = j.old
    · rw [hx, hold', hold, hpc]
      rfl
    · rw [hne x hx]
  refine h.relink hj rfl rfl rfl rfl rfl
    (h.tree_same hj rfl rfl rfl rfl (fun _ => by rw [hpc]; rfl)) (fun x y hxy => ?_)
    (fun x hx => ?_) (fun x hx => ?_) (by rw [hpc]; simp [Pc.linkHeld])
    (fun x q hx _ => by rw [hpc]; exact hx) ?_ (Function.update_self ..)
    (fun u hu => h.others_of_setNext hlastheld hset rfl (fun v k hv hk hm =>
      h.apart v t k j hv (Pc.job_of_linking hk) hj j.last hm j.last_mem) hu)
  · refine ⟨?_, by rw [hback]; exact (h.link x y hxy).2⟩
    rw [hleft]
    by_cases hx : x = j.old
    · -- the link that is written
      have hl := (h.link x y hxy).1
      rw [hx, hold, hpc] at hl
      rw [hx, hold', ← hl]
      exact (Function.update_self ..).trans hnext.symm
    · rw [hne x hx, hset _ (hzone x hxy.left_mem hx)]
      exact (h.link x y hxy).1
  · rw [hback]
    exact h.head x hx
  · have hxo : x ≠ j.old := by
      rintro rfl
      exact hnotlast hx
    rw [hne x hxo, hset _ (hzone x (List.mem_of_getLast? hx) hxo)]
    exact h.last x hx
  · refine ⟨hnews.lock, hnews.fresh, fun x y hxy => ?_, hnews.head, fun hc => absurd hc hnotlast⟩
    have hx : x ≠ j.last := by
      rintro rfl
      exact hxy.ne_last hnd j.getLast?_news
    rw [hset x hx]
    exact hnews.inner x y hxy

/-! ### The last link -/

omit [DecidableEq θ] in
/-- With the link lock of the old leaf the thread keeps its right neighbour from relinking. -/
theorem nextTo_right (h : Inv s C) {x b : ν} (hx : s.linkLock x = some t)
    (hold : (s.pc t).linking.map Job.old = some x) (hf : Follows C x b) :
    (s.pcOf b).nextTo b = (s.pcOf b).prevFrom b := by
  refine Pc.nextTo_eq_prevFrom b (fun k p hpc => ?_)
  rcases pcOf_cases s b with hidle | ⟨u, k', _, hk, rfl, hpcu⟩
  · rw [hidle] at hpc
    cases hpc
  · rw [hpcu] at hpc
    have hk' : k = k' := by
      rw [hpc] at hk
      exact Option.some.inj hk
    have hg := (h.thread u).guard k'.old x (by rw [hpc, hk']; rfl) hf
    obtain rfl := Option.some.inj (hg.symm.trans hx)
    rw [hk, Option.map_some] at hold
    exact hf.ne h.nodup (Option.some.inj hold).symm

end Inv

/-- A step of `t` after which all links of its new leaves are written; `A` and `B` are the leaves on
both sides of the old one. -/
structure Finishing (s s' : State θ ν) (C : List ν) (t : θ) (j : Job ν) (A B : List ν) : Prop where
  inv : Inv s C
  linking : (s.pc t).linking = some j
  chain : C = A ++ j.old :: B
  next : s'.next = s.next
  lock : s'.lock = s.lock
  linkLock : s'.linkLock = s.linkLock
  allocated : s'.allocated = s.allocated
  tree : s'.tree = s.tree
  pc : s'.pc = Function.update s.pc t j.afterLink
  shown : (s.pc t).shown j.old = j.news
  nextTo : (s.pc t).nextTo j.old = j.first
  prevFrom : (s.pc t).prevFrom j.old = j.first
  guarded : (s.pc t).guarded = some j.old
  lastHeld : s.linkLock j.last = some t
  oldHeld : s.linkLock j.old = some t
  right : ∀ b, B.head? = some b → s.next j.last = some ((s.pcOf b).nextTo b) ∧
    s'.prev ((s.pcOf b).nextTo b) = some j.last
  rest : ∀ x, (∀ b, B.head? = some b → x ≠ (s.pcOf b).nextTo b) → s'.prev x = s.prev x
  noRight : B = [] → s.next j.last = none

namespace Finishing

variable {j : Job ν} {A B : List ν}

theorem old (h : Finishing s s' C t j A B) :
    j.old ∈ C ∧ s.lock j.old = some t ∧ s.pcOf j.old = s.pc t := h.inv.old h.linking

theorem news (h : Finishing s s' C t j A B) : NewLeaves s C t j :=
  (h.inv.thread t).news j h.linking

theorem nodup_news (h : Finishing s s' C t j A B) : j.news.Nodup :=
  (h.inv.thread t).nodup j (Pc.job_of_linking h.linking)

theorem nodup_chain (h : Finishing s s' C t j A B) : (A ++ j.old :: B).Nodup :=
  h.chain ▸ h.inv.nodup

theorem ne_old_left (h : Finishing s s' C t j A B) {x : ν} (hx : x ∈ A) : x ≠ j.old :=
  (List.nodup_append.mp h.nodup_chain).2.2 x hx _ (List.mem_cons_self ..)

theorem ne_old_right (h : Finishing s s' C t j A B) {x : ν} (hx : x ∈ B) : x ≠ j.old := by
  rintro rfl
  exact (List.nodup_cons.mp (List.nodup_append.mp h.nodup_chain).2.1).1 hx

/-- The leaves of the new chain. -/
theorem mem_iff (h : Finishing s s' C t j A B) (x : ν) :
    x ∈ A ++ j.news ++ B ↔ (x ∈ C ∧ x ≠ j.old) ∨ x ∈ j.news := by
  have hA := fun hx => h.ne_old_left (x := x) hx
  have hB := fun hx => h.ne_old_right (x := x) hx
  rw [h.chain]
  simp only [List.mem_append, List.mem_cons]
  tauto

theorem nodup (h : Finishing s s' C t j A B) : (A ++ j.news ++ B).Nodup := by
  rw [List.append_assoc]
  obtain ⟨h1, h2, h3⟩ := List.nodup_append.mp h.nodup_chain
  have hfresh := h.news.fresh
  rw [h.chain] at hfresh
  refine List.nodup_append.mpr ⟨h1,
    List.nodup_append.mpr ⟨h.nodup_news, (List.nodup_cons.mp h2).2, ?_⟩, ?_⟩
  · rintro x hx y hy rfl
    exact hfresh x hx (by simp [hy])
  · rintro x hx y hy rfl
    rcases List.mem_append.mp hy with hy | hy
    · exact hfresh x hy (by simp [hx])
    · exact h3 x hx x (List.mem_cons_of_mem _ hy) rfl

theorem pc_self (h : Finishing s s' C t j A B) : s'.pc t = j.afterLink := by
  rw [h.pc, Function.update_self]

theorem pc_other (h : Finishing s s' C t j A B) (hu : u ≠ t) : s'.pc u = s.pc u := by
  rw [h.pc, Function.update_of_ne hu]

/-- Nobody works on the new leaves yet. -/
theorem pcOf_news (h : Finishing s s' C t j A B) {x : ν} (hx : x ∈ j.news) : s'.pcOf x = .idle := by
  unfold State.pcOf
  rw [h.lock, h.news.lock x hx]
  dsimp only
  rw [h.pc_self, Pc.linking_afterLink]
  exact if_neg (by simp)

theorem pcOf_other (h : Finishing s s' C t j A B) {x : ν} (hx : x ≠ j.old) :
    s'.pcOf x = s.pcOf x := by
  refine pcOf_of_ne (t := t) (by rw [h.lock]) (fun u => h.pc_other) (fun _ => ?_)
  rw [h.pc_self, Pc.linking_afterLink, h.linking]
  exact ⟨by simp, fun hc => hx (Option.some.inj hc).symm⟩

theorem follows_left (h : Finishing s s' C t j A B) {a : ν} (ha : A.getLast? = some a) :
    Follows C a j.old := by
  rw [h.chain]
  exact follows_append.mpr (Or.inr (Or.inl ⟨ha, rfl⟩))

theorem follows_right (h : Finishing s s' C t j A B) {b : ν} (hb : B.head? = some b) :
    Follows C j.old b := by
  rw [h.chain]
  exact follows_append.mpr (Or.inr (Or.inr (follows_cons.mpr (Or.inl ⟨rfl, hb⟩))))

/-- The link that is written belongs to the right neighbour only. -/
theorem ne_written (h : Finishing s s' C t j A B) {x y b : ν} (hx : x ∈ C) (hxb : x ≠ b)
    (hy : y ∈ (s.pcOf x).zone x) (hb : B.head? = some b) : y ≠ (s.pcOf b).nextTo b := by
  rintro rfl
  exact h.inv.zone_disjoint hx (h.follows_right hb).right_mem hxb hy (Pc.nextTo_mem_zone b _)

theorem prev_news (h : Finishing s s' C t j A B) {x : ν} (hx : x ∈ j.news) :
    s'.prev x = s.prev x := by
  refine h.rest x (fun b hb => ?_)
  refine h.ne_written h.old.1 ((h.follows_right hb).ne h.inv.nodup) ?_ hb
  rw [h.old.2.2]
  unfold Pc.zone
  rw [h.linking]
  exact List.mem_cons_of_mem _ hx

theorem prev_chain (h : Finishing s s' C t j A B) {y : ν} (hy : y ∈ C) (hyb : B.head? ≠ some y) :
    s'.prev ((s.pcOf y).prevFrom y) = s.prev ((s.pcOf y).prevFrom y) := by
  refine h.rest _ (fun b hb => h.ne_written hy ?_ (Pc.prevFrom_mem_zone y _) hb)
  rintro rfl
  exact hyb hb

/-- The links that neither lead to the old leaf nor come from it. -/
theorem link_other (h : Finishing s s' C t j A B) {x y : ν} (hf : Follows C x y) (hx : x ≠ j.old)
    (hy : y ≠ j.old) (hyb : B.head? ≠ some y) :
    s'.next ((s'.pcOf x).nextFrom x) = some ((s'.pcOf y).nextTo y) ∧
      s'.prev ((s'.pcOf y).prevFrom y) = some x := by
  rw [h.pcOf_other hx, h.pcOf_other hy, h.next, h.prev_chain hf.right_mem hyb]
  exact h.inv.link x y hf

/-- All links of the new chain. -/
theorem link (h : Finishing s s' C t j A B) {x y : ν} (hf : Follows (A ++ j.news ++ B) x y) :
    s'.next ((s'.pcOf x).nextFrom x) = some ((s'.pcOf y).nextTo y) ∧
      s'.prev ((s'.pcOf y).prevFrom y) = some x := by
  have hndB : B.Nodup := (List.nodup_cons.mp (List.nodup_append.mp h.nodup_chain).2.1).2
  rw [List.append_assoc] at hf
  rcases follows_append.mp hf with hA | ⟨ha, hhead⟩ | hf
  · have hC : Follows C x y := by
      rw [h.chain]
      exact follows_append.mpr (Or.inl hA)
    refine h.link_other hC (h.ne_old_left hA.left_mem) (h.ne_old_left hA.right_mem) (fun hb => ?_)
    exact (List.nodup_append.mp h.nodup_chain).2.2 y hA.right_mem y
      (List.mem_cons_of_mem _ (List.mem_of_mem_head? hb)) rfl
  · -- from the left neighbour to the first new leaf
    obtain rfl : j.first = y := Option.some.inj hhead
    have hl := h.inv.link x j.old (h.follows_left ha)
    rw [h.old.2.2, h.nextTo, h.prevFrom] at hl
    rw [h.pcOf_other (h.ne_old_left (List.mem_of_getLast? ha)), h.pcOf_news j.first_mem, h.next]
    exact ⟨hl.1, (h.prev_news j.first_mem).trans hl.2⟩
  · rcases follows_append.mp hf with hN | ⟨hlast, hb⟩ | hB
    · rw [h.pcOf_news hN.left_mem, h.pcOf_news hN.right_mem, h.next]
      have hin := h.news.inner x y hN
      exact ⟨hin.1, (h.prev_news hN.right_mem).trans hin.2⟩
    · -- from the last new leaf to the right neighbour
      obtain rfl : j.last = x := Option.some.inj (j.getLast?_news.symm.trans hlast)
      have hfb := h.follows_right hb
      have hsame := h.inv.nextTo_right h.oldHeld (by rw [h.linking]; rfl) hfb
      obtain ⟨h1, h2⟩ := h.right y hb
      rw [h.pcOf_news j.last_mem, h.pcOf_other (h.ne_old_right (List.mem_of_mem_head? hb)), h.next,
        ← hsame]
      exact ⟨h1, h2⟩
    · have hC : Follows C x y := by
        rw [h.chain]
        exact follows_append.mpr (Or.inr (Or.inr (follows_cons.mpr (Or.inr hB))))
      exact h.link_other hC (h.ne_old_right hB.left_mem) (h.ne_old_right hB.right_mem)
        (hB.ne_head hndB)

theorem head (h : Finishing s s' C t j A B) {x : ν} (hx : (A ++ j.news ++ B).head? = some x) :
    s'.prev ((s'.pcOf x).prevFrom x) = none := by
  cases hA : A with
  | nil =>
      rw [hA] at hx
      obtain rfl : j.first = x := Option.some.inj hx
      have hh := h.inv.head j.old (by rw [h.chain, hA]; rfl)
      rw [h.old.2.2, h.prevFrom] at hh
      rw [h.pcOf_news j.first_mem]
      exact (h.prev_news j.first_mem).trans hh
  | cons a A' =>
      rw [hA] at hx
      obtain rfl : a = x := Option.some.inj hx
      have ha : a ∈ A := by rw [hA]; exact List.mem_cons_self ..
      rw [h.pcOf_other (h.ne_old_left ha), h.prev_chain (by rw [h.chain]; simp [ha])]
      · exact h.inv.head a (by rw [h.chain, hA]; rfl)
      · intro hb
        exact (List.nodup_append.mp h.nodup_chain).2.2 a ha a
          (List.mem_cons_of_mem _ (List.mem_of_mem_head? hb)) rfl

theorem last (h : Finishing s s' C t j A B) {x : ν} (hx : (A ++ j.news ++ B).getLast? = some x) :
    s'.next ((s'.pcOf x).nextFrom x) = none := by
  cases hB : B with
  | nil =>
      rw [hB, List.append_nil, List.getLast?_append_of_ne_nil _ j.news_ne_nil,
        j.getLast?_news] at hx
      obtain rfl := Option.some.inj hx
      rw [h.pcOf_news j.last_mem, h.next]
      exact h.noRight hB
  | cons b B' =>
      have hne : B ≠ [] := by rw [hB]; simp
      rw [List.getLast?_append_of_ne_nil _ hne] at hx
      rw [h.pcOf_other (h.ne_old_right (List.mem_of_getLast? hx)), h.next]
      refine h.inv.last x ?_
      rw [h.chain, List.getLast?_append_of_ne_nil _ (List.cons_ne_nil _ _), List.getLast?_cons, hx]
      rfl

/-- Nobody else relies on the link that is written. -/
theorem prev_watched (h : Finishing s s' C t j A B) (hu : u ≠ t) {x : ν}
    (hx : (s.pc u).watchPrev = some x) : s'.prev x = s.prev x := by
  refine h.rest x (fun b hb => ?_)
  rintro rfl
  have hfb := h.follows_right hb
  rcases Inv.mem_zone (Pc.nextTo_mem_zone b (s.pcOf b)) with hself | ⟨v, k, hk, rfl, _, hmem⟩
  · -- the thread would hold the link lock of the old leaf
    rw [hself] at hx
    have hg := (h.inv.thread u).guard b j.old (Pc.guarded_of_watchPrev hx) hfb
    exact hu (Option.some.inj (hg.symm.trans h.oldHeld))
  · rcases Pc.watchPrev_cases hx with ⟨l, hl, hold⟩ | ⟨l, hl, hnone, hfirst⟩
    · exact ((h.inv.thread v).news k hk).fresh _ hmem (hold ▸ (h.inv.old hl).1)
    · have huv : u ≠ v := by
        rintro rfl
        rw [hk] at hnone
        cases hnone
      exact h.inv.apart u v l k huv hl hk _ (hfirst ▸ l.first_mem) hmem

/-- The new leaves of another thread keep their links. -/
theorem news_other (h : Finishing s s' C t j A B) (hu : u ≠ t) {k : Job ν}
    (hk : (s.pc u).linking = some k) : NewLeaves s' (A ++ j.news ++ B) u k := by
  have hnew := (h.inv.thread u).news k hk
  have hapart := h.inv.apart t u j k hu.symm (Pc.job_of_linking h.linking) hk
  have hndk := (h.inv.thread u).nodup k (Pc.job_of_linking hk)
  obtain ⟨holdk, hlockk, hpck⟩ := h.inv.old hk
  have hne : k.old ≠ j.old := by
    rintro hc
    rw [hc, h.old.2.1] at hlockk
    exact hu (Option.some.inj hlockk).symm
  -- only the first new leaf of the right neighbour gets another link
  have hkeep : ∀ x ∈ k.news, (x = k.first → B.head? ≠ some k.old) → s'.prev x = s.prev x := by
    intro x hx hfirst
    refine h.rest x (fun b hb => ?_)
    by_cases hkb : k.old = b
    · subst hkb
      rintro hxto
      have hcases : (s.pcOf k.old).nextTo k.old = k.old ∨
        (s.pcOf k.old).nextTo k.old = k.first := by
        rw [hpck]
        cases hpc : s.pc u <;> rw [hpc] at hk <;> cases hk <;>
          first | exact Or.inl rfl | exact Or.inr rfl
      rcases hcases with hc | hc
      · exact hnew.fresh x hx (by rw [hxto, hc]; exact holdk)
      · exact hfirst (hxto.trans hc) hb
    · refine h.ne_written holdk hkb ?_ hb
      rw [hpck]
      unfold Pc.zone
      rw [hk]
      exact List.mem_cons_of_mem _ hx
  refine ⟨fun x hx => by rw [h.lock]; exact hnew.lock x hx, fun x hx hm => ?_, fun x y hf => ?_,
    fun hc => ?_, fun hc => ?_⟩
  · rcases (h.mem_iff x).mp hm with ⟨hxC, _⟩ | hxj
    · exact hnew.fresh x hx hxC
    · exact hapart x hxj hx
  · rw [h.next, hkeep y hf.right_mem (fun hy => absurd (by rw [hy]; rfl) (hf.ne_head hndk))]
    exact hnew.inner x y hf
  · cases hA : A with
    | nil =>
        rw [hA] at hc
        exact absurd (Option.some.inj hc ▸ holdk) (h.news.fresh _ j.first_mem)
    | cons a A' =>
        rw [hA] at hc
        have ha : a ∈ A := by rw [hA]; exact List.mem_cons_self ..
        have hak : a = k.old := Option.some.inj hc
        rw [hkeep _ k.first_mem (fun _ hb => ?_)]
        · exact hnew.head (by rw [h.chain, hA, ← hak]; rfl)
        · exact (List.nodup_append.mp h.nodup_chain).2.2 a ha a
            (List.mem_cons_of_mem _ (by rw [hak]; exact List.mem_of_mem_head? hb)) rfl
  · rw [h.next]
    cases hB : B with
    | nil =>
        rw [hB, List.append_nil, List.getLast?_append_of_ne_nil _ j.news_ne_nil,
          j.getLast?_news] at hc
        exact absurd (Option.some.inj hc ▸ holdk) (h.news.fresh _ j.last_mem)
    | cons b B' =>
        have hneB : B ≠ [] := by rw [hB]; simp
        rw [List.getLast?_append_of_ne_nil _ hneB] at hc
        refine hnew.last ?_
        rw [h.chain, List.getLast?_append_of_ne_nil _ (List.cons_ne_nil _ _),
          List.getLast?_cons, hc]
        rfl

/-- The thread itself can go on. -/
theorem thread_self (h : Finishing s s' C t j A B) : ThreadInv s' (A ++ j.news ++ B) t := by
  have hti := h.inv.thread t
  have hleft : ∀ p, s'.prev j.first = some p → s'.linkLock p = some t ∧ p ≠ j.last := by
    intro p hp
    rw [h.prev_news j.first_mem] at hp
    have hf : Follows C p j.old := by
      rcases exists_follows_of_mem h.old.1 with hhead | ⟨q, hf⟩
      · have := h.inv.head j.old hhead
        rw [h.old.2.2, h.prevFrom, hp] at this
        cases this
      · have := (h.inv.link q j.old hf).2
        rw [h.old.2.2, h.prevFrom, hp] at this
        rwa [Option.some.inj this]
    refine ⟨by rw [h.linkLock]; exact hti.guard j.old p h.guarded hf, ?_⟩
    rintro rfl
    exact h.news.fresh _ j.last_mem hf.left_mem
  refine ⟨?_, ?_, ?_, ?_, ?_, ?_, ?_⟩
  · rw [h.pc_self, Pc.job_afterLink, ← Pc.job_of_linking h.linking]
    exact hti.nodup
  · rw [h.pc_self, Pc.job_afterLink, ← Pc.job_of_linking h.linking, h.allocated]
    exact hti.made
  · rw [h.pc_self, Pc.locks_afterLink]
    exact fun x hx => ⟨(h.mem_iff x).mpr (Or.inr hx), by rw [h.lock]; exact h.news.lock x hx⟩
  · rw [h.pc_self, Pc.linkHeld_afterLink, h.linkLock]
    intro x hx
    rw [List.mem_singleton.mp hx]
    exact h.lastHeld
  · rw [h.pc_self, Pc.guarded_afterLink, h.linkLock]
    intro x p hx hf
    obtain rfl : j.first = x := Option.some.inj hx
    have hnd := h.nodup
    rw [List.append_assoc] at hf hnd
    rcases follows_append.mp hf with hf | ⟨hp, _⟩ | hf
    · exact absurd (by rw [h.chain]; simp [hf.right_mem]) (h.news.fresh _ j.first_mem)
    · exact hti.guard j.old p h.guarded (h.follows_left hp)
    · exact absurd rfl (hf.ne_head (List.nodup_append.mp hnd).2.1)
  · rw [h.pc_self, Pc.linking_afterLink]
    intro k hk
    cases hk
  · rw [h.pc_self]
    unfold Job.afterLink
    cases hk : j.kind with
    | resize => exact ⟨hk, hleft⟩
    | split => exact hleft

theorem thread_other (h : Finishing s s' C t j A B) (hu : u ≠ t) :
    ThreadInv s' (A ++ j.news ++ B) u := by
  refine (h.inv.thread u).frame (h.pc_other hu) h.inv.allocated (fun x _ hx => by rwa [h.lock])
    (fun x hx => by rwa [h.linkLock]) (fun x hx => by rwa [h.allocated]) (fun x hx hxC => ?_)
    (fun x p hx hf => ?_) (fun x => h.prev_watched hu) (fun x _ => by rw [h.next])
    (fun k hk _ => h.news_other hu hk)
  · refine (h.mem_iff x).mpr (Or.inl ⟨hxC, ?_⟩)
    rintro rfl
    have := ((h.inv.thread u).locks _ hx).2
    exact hu (Option.some.inj (this.symm.trans h.old.2.1))
  · -- the guarded leaf is none of the new ones and not their right neighbour
    have hnot : x ∉ j.news := by
      intro hxj
      cases hpc : s.pc u <;> rw [hpc] at hx <;> cases hx
      all_goals first
        | exact h.news.fresh _ hxj (h.inv.old (t := u) (by rw [hpc]; rfl)).1
        | exact h.inv.apart u t _ j hu (by rw [hpc]; rfl) h.linking _ (Job.first_mem _) hxj
    rw [List.append_assoc] at hf
    rw [h.chain]
    rcases follows_append.mp hf with hA | ⟨_, hhead⟩ | hf
    · exact follows_append.mpr (Or.inl hA)
    · obtain rfl : j.first = x := Option.some.inj hhead
      exact absurd j.first_mem hnot
    · rcases follows_append.mp hf with hN | ⟨_, hb⟩ | hB
      · exact absurd hN.right_mem hnot
      · have hg := (h.inv.thread u).guard x j.old hx (h.follows_right hb)
        exact absurd (Option.some.inj (hg.symm.trans h.oldHeld)) hu
      · exact follows_append.mpr (Or.inr (Or.inr (follows_cons.mpr (Or.inr hB))))

/-- **The new leaves take the place of the old one in the chain.** -/
theorem result (h : Finishing s s' C t j A B) : Inv s' (A ++ j.news ++ B) := by
  refine ⟨h.nodup, ?_, fun x hx => ?_, fun x hx hfree => ?_, ?_, fun x y => h.link, fun x => h.head,
    fun x => h.last, fun u => ?_, fun u v k l huv hk hl => ?_⟩
  · have hnews : j.news.flatMap (fun x => (s'.pcOf x).shown x) = j.news := by
      rw [List.flatMap_congr (g := fun x => [x]) (fun x hx => by rw [h.pcOf_news hx]; rfl),
        List.flatMap_singleton']
    rw [h.tree, h.inv.tree, h.chain, List.flatMap_append, List.flatMap_append, List.flatMap_append,
      List.flatMap_cons, hnews, h.old.2.2, h.shown, List.append_assoc]
    congr 1
    · exact List.flatMap_congr (fun x hx => by rw [h.pcOf_other (h.ne_old_left hx)])
    · congr 1
      exact List.flatMap_congr (fun x hx => by rw [h.pcOf_other (h.ne_old_right hx)])
  · rw [h.allocated]
    rcases (h.mem_iff x).mp hx with ⟨hxC, _⟩ | hxj
    · exact h.inv.allocated x hxC
    · exact (h.inv.thread t).made j (Pc.job_of_linking h.linking) x hxj
  · rw [h.allocated] at hx
    rw [h.lock] at hfree
    refine (h.mem_iff x).mpr (Or.inl ⟨h.inv.free x hx hfree, ?_⟩)
    rintro rfl
    rw [h.old.2.1] at hfree
    cases hfree
  · rw [h.linkLock, h.allocated]
    exact h.inv.locked
  · by_cases hu : u = t
    · rw [hu]
      exact h.thread_self
    · exact h.thread_other hu
  · have hk' : (s.pc u).job = some k := by
      by_cases hu : u = t
      · subst hu
        rwa [h.pc_self, Pc.job_afterLink, ← Pc.job_of_linking h.linking] at hk
      · rwa [h.pc_other hu] at hk
    have hv : v ≠ t := by
      rintro rfl
      rw [h.pc_self, Pc.linking_afterLink] at hl
      cases hl
    rw [h.pc_other hv] at hl
    exact h.inv.apart u v k l huv hk' hl

end Finishing

namespace Inv

/-- Without a right neighbour the links are complete. -/
theorem finishing_readNext (h : Inv s C) {j : Job ν} (hpc : s.pc t = .readNext j)
    (hnext : s.next j.old = none) : ∃ A B, Finishing s (s.goto t j.afterLink) C t j A B := by
  have hj : (s.pc t).linking = some j := by rw [hpc]; rfl
  obtain ⟨holdC, _, hold⟩ := h.old hj
  have hti := h.thread t
  obtain ⟨A, B, hC⟩ := List.append_of_mem holdC
  have hB : B = [] := by
    cases B with
    | nil => rfl
    | cons b B =>
        have := (h.link j.old b ⟨A, B, hC⟩).1
        rw [hold, hpc] at this
        exact absurd (hnext.symm.trans this) (by simp)
  refine ⟨A, B, h, hj, hC, rfl, rfl, rfl, rfl, rfl,
    rfl, by rw [hpc]; rfl, by rw [hpc]; rfl, by rw [hpc]; rfl, by rw [hpc]; rfl,
    hti.held _ (by rw [hpc]; simp [Pc.linkHeld]), hti.held _ (by rw [hpc]; simp [Pc.linkHeld]),
    fun b hb => ?_, fun _ _ => rfl, fun _ => ?_⟩
  · rw [hB] at hb
    cases hb
  · refine (hti.news j hj).last ?_
    rw [hC, hB]
    exact List.getLast?_concat ..

/-- With the link back from the right neighbour the links are complete. -/
theorem finishing_setNextPrev (h : Inv s C) {j : Job ν} {n : ν} (hpc : s.pc t = .setNextPrev j n) :
    ∃ A B, Finishing s ((s.setPrev n (some j.last)).goto t j.afterLink) C t j A B := by
  have hj : (s.pc t).linking = some j := by rw [hpc]; rfl
  obtain ⟨holdC, _, hold⟩ := h.old hj
  have hti := h.thread t
  have hnext : s.next j.last = some n := by
    have := hti.ready
    rwa [hpc] at this
  obtain ⟨A, B, hC⟩ := List.append_of_mem holdC
  have hright : ∀ b, B.head? = some b → (s.pcOf b).nextTo b = n := by
    intro b hb
    have hf : Follows C j.old b := by
      rw [hC]
      exact follows_append.mpr (Or.inr (Or.inr (follows_cons.mpr (Or.inl ⟨rfl, hb⟩))))
    have := (h.link j.old b hf).1
    rw [hold, hpc] at this
    exact Option.some.inj (this.symm.trans hnext)
  have hB : B ≠ [] := by
    rintro rfl
    have := h.last j.old (by rw [hC]; exact List.getLast?_concat ..)
    rw [hold, hpc] at this
    exact absurd (hnext.symm.trans this) (by simp)
  refine ⟨A, B, h, hj, hC, rfl, rfl, rfl, rfl, rfl,
    rfl, by rw [hpc]; rfl, by rw [hpc]; rfl, by rw [hpc]; rfl, by rw [hpc]; rfl,
    hti.held _ (by rw [hpc]; simp [Pc.linkHeld]), hti.held _ (by rw [hpc]; simp [Pc.linkHeld]),
    fun b hb => ?_, fun x hx => ?_, fun hnil => absurd hnil hB⟩
  · rw [hright b hb]
    exact ⟨hnext, Function.update_self ..⟩
  · obtain ⟨b, hb⟩ := Option.isSome_iff_exists.mp (List.isSome_head?.mpr hB)
    refine Function.update_of_ne ?_ ..
    rintro rfl
    exact hx b hb (hright b hb).symm

end Inv

end LearnedIndex.Alexol.LeafLinks
