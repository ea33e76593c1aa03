import LearnedIndex.Alexol.LeafLinksWrite

/-! # Runs of concurrent restructurings

Publication, the leaf locks and the making of new leaves keep the invariant as well, so it holds in
every state that is reached (`run_inv`).  While nobody restructures, the chain is the tree and its
links are those of the leaves (`Inv.quiet`). -/

namespace LearnedIndex.Alexol.LeafLinks

open LearnedIndex.Machine LearnedIndex.Chains

variable {θ ν : Type} [DecidableEq θ] [DecidableEq ν]
  {s s' : State θ ν} {C : List ν} {t u : θ} {pc : Pc ν}

namespace Inv

/-! ### Publication, leaf locks and new leaves -/

theorem publish (h : Inv s C) {j : Job ν} (hpc : s.pc t = .publish j) :
    Inv ((s.replaceChild j).goto t (.readPrev j)) C := by
  have hj : (s.pc t).linking = some j := by rw [hpc]; rfl
  obtain ⟨holdC, _, hold⟩ := h.old hj
  have hti := h.thread t
  obtain ⟨hold', hne⟩ := h.pcOf_step ((s.replaceChild j).goto t (.readPrev j)) hj rfl rfl rfl
  have htree : ((s.replaceChild j).goto t (.readPrev j)).tree = C.flatMap (fun x =>
      (((s.replaceChild j).goto t (.readPrev j)).pcOf x).shown x) := by
    have hrepl : ((s.replaceChild j).goto t (.readPrev j)).tree =
        s.tree.flatMap (fun x => if x = j.old then j.news else [x]) := rfl
    rw [hrepl, h.tree, List.flatMap_assoc]
    refine List.flatMap_congr (fun x hx => ?_)
    by_cases hxo : x = j.old
    · rw [hxo, hold', hold, hpc]
      have h1 : (Pc.publish j).shown j.old = [j.old] := rfl
      have h2 : (Pc.readPrev j).shown j.old = j.news := rfl
      rw [h1, h2, List.flatMap_singleton, if_pos rfl]
    · rw [hne x hxo]
      have hnot : j.old ∉ (s.pcOf x).shown x := by
        intro hm
        have hz : j.old ∈ (s.pcOf x).zone x := by
          cases hpx : s.pcOf x <;> rw [hpx] at hm <;>
            first
              | exact List.mem_cons_of_mem _ hm
              | exact (List.mem_singleton.mp hm) ▸ List.mem_cons_self ..
        exact h.zone_disjoint hx holdC hxo hz (List.mem_cons_self ..)
      rw [List.flatMap_congr (g := fun y => [y])
        (fun y hy => if_neg (by rintro rfl; exact hnot hy)),
        List.flatMap_singleton']
  have hsame : ∀ x, (((s.replaceChild j).goto t (.readPrev j)).pcOf x).nextTo
    x = (s.pcOf x).nextTo x ∧
      (((s.replaceChild j).goto t (.readPrev j)).pcOf x).prevFrom x = (s.pcOf x).prevFrom x ∧
      (((s.replaceChild j).goto t (.readPrev j)).pcOf x).nextFrom x = (s.pcOf x).nextFrom x := by
    intro x
    by_cases hx : x = j.old
    · rw [hx, hold', hold, hpc]
      exact ⟨rfl, rfl, rfl⟩
    · rw [hne x hx]
      exact ⟨rfl, rfl, rfl⟩
  refine h.relink hj rfl rfl rfl rfl rfl htree (fun x y hf => ?_) (fun x hx => ?_) (fun x hx => ?_)
    (by simp [Pc.linkHeld]) (fun x p hx => by cases hx)
    ((hti.news j hj).frame (fun _ _ => rfl) (fun _ _ => id) (fun _ _ => rfl) (fun _ _ => rfl) id id)
    trivial (fun u hu => ⟨fun _ _ => rfl, fun _ _ => rfl, fun _ _ _ _ => ⟨rfl, rfl⟩⟩)
  · rw [(hsame x).2.2, (hsame y).1, (hsame y).2.1]
    exact h.link x y hf
  · rw [(hsame x).2.1]
    exact h.head x hx
  · rw [(hsame x).2.2]
    exact h.last x hx

/-- A step that takes or releases `lock_` of one leaf, outside a restructuring. -/
theorem relock_leaf (h : Inv s C) {x : ν} {o : Option θ} (hx : s.lock x = none ∨ s.lock x = some t)
    (ho : o = none ∨ o = some t) (hxC : x ∈ C) (hlinking : (s.pc t).linking = none)
    (hlinking' : pc.linking = none) (hjob : ∀ j, pc.job = some j → (s.pc t).job = some j)
    (hlocks : ∀ y ∈ pc.locks, (y ∈ (s.pc t).locks ∧ y ≠ x) ∨ (y = x ∧ o = some t))
    (hheld : ∀ y ∈ pc.linkHeld, y ∈ (s.pc t).linkHeld)
    (hguard : ∀ y, pc.guarded = some y → (s.pc t).guarded = some y)
    (hready : pc.Ready s t) : Inv ((s.setLock x o).goto t pc) C := by
  have hkeep : ∀ y, y ≠ x → ((s.setLock x o).goto t pc).lock y = s.lock y :=
    fun y hy => Function.update_of_ne hy ..
  have hself : ((s.setLock x o).goto t pc).lock x = o := Function.update_self ..
  have hpct : ((s.setLock x o).goto t pc).pc t = pc := Function.update_self ..
  have hpcu : ∀ u, u ≠ t → ((s.setLock x o).goto t pc).pc u = s.pc u :=
    fun u hu => Function.update_of_ne hu ..
  have hother : ∀ u y, u ≠ t → s.lock y = some u → y ≠ x := by
    rintro u y hu hy rfl
    rcases hx with hx | hx <;> rw [hx] at hy
    · cases hy
    · exact hu (Option.some.inj hy).symm
  have hpcx : ∀ s₁ : State θ ν, (s₁.lock x = none ∨ s₁.lock x = some t) →
      (s₁.pc t).linking = none → s₁.pcOf x = .idle := by
    intro s₁ hl hn
    unfold State.pcOf
    rcases hl with hl | hl <;> rw [hl]
    dsimp only
    rw [hn]
    exact if_neg (by simp)
  have hpcOf : ∀ y, ((s.setLock x o).goto t pc).pcOf y = s.pcOf y := by
    intro y
    by_cases hy : y = x
    · rw [hy, hpcx s hx hlinking, hpcx _ (by rw [hself]; exact ho) (by rw [hpct]; exact hlinking')]
    · refine pcOf_of_ne (t := t) (hkeep y hy) hpcu (fun _ => ?_)
      rw [hpct, hlinking, hlinking']
      exact ⟨by simp, by simp⟩
  have hready' : pc.Ready ((s.setLock x o).goto t pc) t :=
    hready.frame (fun _ _ => rfl) (fun _ _ => rfl) (fun _ => id) (fun _ => id)
  refine ⟨h.nodup, ?_, h.allocated, fun y hy hfree => ?_, h.locked, fun y z hf => ?_,
    fun y hy => ?_,
    fun y hy => ?_, fun u => ?_, fun u v k l huv hk hl => ?_⟩
  · have ht : ((s.setLock x o).goto t pc).tree = s.tree := rfl
    rw [ht, h.tree]
    exact List.flatMap_congr (fun y _ => by rw [hpcOf])
  · by_cases hyx : y = x
    · rw [hyx]
      exact hxC
    · rw [hkeep y hyx] at hfree
      exact h.free y hy hfree
  · rw [hpcOf, hpcOf]
    exact h.link y z hf
  · rw [hpcOf]
    exact h.head y hy
  · rw [hpcOf]
    exact h.last y hy
  · by_cases hu : u = t
    · subst hu
      have hti := h.thread u
      refine ⟨?_, ?_, ?_, ?_, ?_, ?_, ?_⟩
      · rw [hpct]
        exact fun j hj => hti.nodup j (hjob j hj)
      · rw [hpct]
        exact fun j hj => hti.made j (hjob j hj)
      · rw [hpct]
        intro y hy
        rcases hlocks y hy with ⟨hy, hyx⟩ | ⟨rfl, ho⟩
        · rw [hkeep y hyx]
          exact hti.locks y hy
        · rw [hself]
          exact ⟨hxC, ho⟩
      · rw [hpct]
        exact fun y hy => hti.held y (hheld y hy)
      · rw [hpct]
        exact fun y p hy => hti.guard y p (hguard y hy)
      · rw [hpct, hlinking']
        intro j hj
        cases hj
      · rw [hpct]
        exact hready'
    · refine (h.thread u).frame (hpcu u hu) h.allocated
        (fun y _ hy => by rw [hkeep y (hother u y hu hy)]; exact hy) (fun _ => id) (fun _ => id)
        (fun _ _ => id) (fun _ _ _ => id) (fun _ _ => rfl) (fun _ _ => rfl) (fun j _ hnew => ?_)
      exact hnew.frame (fun y hy => hkeep y (hother u y hu (hnew.lock y hy))) (fun _ _ => id)
        (fun _ _ => rfl) (fun _ _ => rfl) id id
  · have hk' : (s.pc u).job = some k := by
      by_cases hu : u = t
      · subst hu
        rw [hpct] at hk
        exact hjob k hk
      · rwa [hpcu u hu] at hk
    have hv : v ≠ t := by
      rintro rfl
      rw [hpct, hlinking'] at hl
      cases hl
    rw [hpcu v hv] at hl
    exact h.apart u v k l huv hk' hl

omit [DecidableEq θ] in
/-- A leaf that can stand for one of the chain is allocated. -/
theorem allocated_zone (h : Inv s C) {x y : ν} (hx : x ∈ C) (hy : y ∈ (s.pcOf x).zone x) :
    s.allocated y = true := by
  rcases mem_zone hy with rfl | ⟨u, k, hk, _, _, hm⟩
  · exact h.allocated y hx
  · exact (h.thread u).made k (Pc.job_of_linking hk) y hm

end Inv

/-! ### New leaves -/

theorem idxOf_of_follows {l : List ν} (hnd : l.Nodup) {x y : ν} (hf : Follows l x y) :
    l[l.idxOf x + 1]? = some y ∧ l[l.idxOf y - 1]? = some x ∧ l.head? ≠ some y := by
  have hhead := hf.ne_head hnd
  obtain ⟨A, B, rfl⟩ := hf
  obtain ⟨_, h2, h3⟩ := List.nodup_append.mp hnd
  have hx : x ∉ A := fun hm => h3 x hm x (List.mem_cons_self ..) rfl
  have hy : y ∉ A := fun hm => h3 y hm y (by simp) rfl
  have hxy : x ≠ y := by
    rintro rfl
    exact (List.nodup_cons.mp h2).1 (List.mem_cons_self ..)
  have hix : (A ++ x :: y :: B).idxOf x = A.length := by
    rw [List.idxOf_append_of_notMem hx, List.idxOf_cons_self, Nat.add_zero]
  have hiy : (A ++ x :: y :: B).idxOf y = A.length + 1 := by
    rw [List.idxOf_append_of_notMem hy, List.idxOf_cons_ne _ hxy, List.idxOf_cons_self]
  refine ⟨?_, ?_, hhead⟩
  · rw [hix]
    simp
  · rw [hiy]
    simp

section
variable {j : Job ν}

omit [DecidableEq θ] in
theorem makeLeaves_of_not_mem (s : State θ ν) (t : θ) {x : ν} (hx : x ∉ j.news) :
    (s.makeLeaves t j).next x = s.next x ∧ (s.makeLeaves t j).prev x = s.prev x ∧
      (s.makeLeaves t j).linkLock x = s.linkLock x ∧ (s.makeLeaves t j).lock x = s.lock x ∧
      (s.makeLeaves t j).allocated x = s.allocated x :=
  ⟨if_neg hx, if_neg hx, if_neg hx, if_neg hx, if_neg hx⟩

/-- The new leaves are locked and linked to each other. -/
theorem newLeaves_makeLeaves (hnd : j.news.Nodup) (hkind : j.kind = .resize → j.rest = [])
    (hfresh : ∀ x ∈ j.news, x ∉ C) (hhead : C.head? = some j.old → s.prev j.old = none)
    (hlast : C.getLast? = some j.old → s.next j.old = none) :
    NewLeaves ((s.makeLeaves t j).goto t (.publish j)) C t j := by
  have hresize : j.kind = .resize → ∀ x ∈ j.news,
      ((s.makeLeaves t j).goto t (.publish j)).next x = s.next j.old ∧
        ((s.makeLeaves t j).goto t (.publish j)).prev x = s.prev j.old := by
    intro hk x hx
    exact ⟨(if_pos hx).trans (by rw [hk]), (if_pos hx).trans (by rw [hk])⟩
  have hsplit : j.kind = .split → ∀ x ∈ j.news,
      ((s.makeLeaves t j).goto t (.publish j)).next x = j.news[j.news.idxOf x + 1]? ∧
        ((s.makeLeaves t j).goto t (.publish j)).prev x =
          if x = j.first then none else j.news[j.news.idxOf x - 1]? := by
    intro hk x hx
    exact ⟨(if_pos hx).trans (by rw [hk]), (if_pos hx).trans (by rw [hk])⟩
  refine ⟨fun x hx => if_pos hx, hfresh, fun x y hf => ?_, fun hc => ?_, fun hc => ?_⟩
  · cases hk : j.kind with
    | resize =>
        exfalso
        unfold Job.news at hf
        rw [hkind hk, follows_cons] at hf
        rcases hf with ⟨_, hf⟩ | hf
        · cases hf
        · exact not_follows_nil hf
    | split =>
        obtain ⟨h1, h2, h3⟩ := idxOf_of_follows hnd hf
        have hy : y ≠ j.first := by
          rintro rfl
          exact h3 rfl
        rw [(hsplit hk x hf.left_mem).1, (hsplit hk y hf.right_mem).2, if_neg hy]
        exact ⟨h1, h2⟩
  · cases hk : j.kind with
    | resize => exact (hresize hk _ j.first_mem).2.trans (hhead hc)
    | split => exact (hsplit hk _ j.first_mem).2.trans (if_pos rfl)
  · cases hk : j.kind with
    | resize => exact (hresize hk _ j.last_mem).1.trans (hlast hc)
    | split =>
        have hi : j.news.idxOf j.last = j.news.length - 1 := by
          have hlen := List.length_pos_iff.mpr j.news_ne_nil
          have hget : j.news[j.news.length - 1] = j.last := (List.getLast_eq_getElem _).symm
          rw [← hget]
          exact hnd.idxOf_getElem _ (by omega)
        rw [(hsplit hk _ j.last_mem).1, hi, List.getElem?_eq_none]
        omega

end

namespace Inv

theorem build (h : Inv s C) {j : Job ν} (hpc : s.pc t = .locked j.old) (hnd : j.news.Nodup)
    (hnew : ∀ x ∈ j.news, s.allocated x = false) (hkind : j.kind = .resize → j.rest = []) :
    Inv ((s.makeLeaves t j).goto t (.publish j)) C := by
  have hti := h.thread t
  obtain ⟨holdC, holdl⟩ := hti.locks j.old (by rw [hpc]; simp [Pc.locks])
  have hkeep : ∀ x, s.allocated x = true → x ∉ j.news := by
    intro x hx hm
    rw [hnew x hm] at hx
    cases hx
  have hfields := fun x hx => makeLeaves_of_not_mem s t (hkeep x hx)
  have hpct : ((s.makeLeaves t j).goto t (.publish j)).pc t = .publish j := Function.update_self ..
  have hpcu : ∀ u, u ≠ t → ((s.makeLeaves t j).goto t (.publish j)).pc u = s.pc u :=
    fun u hu => Function.update_of_ne hu ..
  have holdi : s.pcOf j.old = .idle := by
    unfold State.pcOf
    rw [holdl]
    dsimp only
    rw [hpc]
    exact if_neg (by simp [Pc.linking])
  have hview : ∀ x ∈ C, (s.pcOf x).SameView (((s.makeLeaves t j).goto t (.publish j)).pcOf x) ∨
      (x = j.old ∧ s.pcOf x = .idle ∧
        ((s.makeLeaves t j).goto t (.publish j)).pcOf x = .publish j) := by
    intro x hx
    by_cases hxo : x = j.old
    · refine Or.inr ⟨hxo, by rw [hxo]; exact holdi, ?_⟩
      have hlinking : (((s.makeLeaves t j).goto t (.publish j)).pc t).linking = some j := by
        rw [hpct]
        rfl
      have hlock : ((s.makeLeaves t j).goto t (.publish j)).lock j.old = some t :=
        (hfields j.old (h.allocated _ holdC)).2.2.2.1.trans holdl
      rw [hxo, pcOf_linking hlinking hlock, hpct]
    · left
      have hlock : ((s.makeLeaves t j).goto t (.publish j)).lock x = s.lock x :=
        (hfields x (h.allocated x hx)).2.2.2.1
      rw [pcOf_of_ne hlock hpcu (fun _ => ?_)]
      · exact fun _ => ⟨rfl, rfl, rfl, rfl⟩
      · rw [hpct, hpc]
        exact ⟨fun hc => hxo (Option.some.inj hc).symm, by simp [Pc.linking]⟩
  have hsame : ∀ x ∈ C,
      (((s.makeLeaves t j).goto t (.publish j)).pcOf x).shown x = (s.pcOf x).shown x ∧
      (((s.makeLeaves t j).goto t (.publish j)).pcOf x).nextTo x = (s.pcOf x).nextTo x ∧
      (((s.makeLeaves t j).goto t (.publish j)).pcOf x).prevFrom x = (s.pcOf x).prevFrom x ∧
      (((s.makeLeaves t j).goto t (.publish j)).pcOf x).nextFrom x = (s.pcOf x).nextFrom x := by
    intro x hx
    rcases hview x hx with hv | ⟨rfl, h1, h2⟩
    · exact hv x
    · rw [h1, h2]
      exact ⟨rfl, rfl, rfl, rfl⟩
  have hnextFrom : ∀ x ∈ C, ((s.makeLeaves t j).goto t (.publish j)).next
      ((((s.makeLeaves t j).goto t (.publish j)).pcOf x).nextFrom x) =
      s.next ((s.pcOf x).nextFrom x) := by
    intro x hx
    rw [(hsame x hx).2.2.2]
    exact (hfields _ (h.allocated_zone hx (Pc.nextFrom_mem_zone x _))).1
  have hprevFrom : ∀ x ∈ C, ((s.makeLeaves t j).goto t (.publish j)).prev
      ((((s.makeLeaves t j).goto t (.publish j)).pcOf x).prevFrom x) =
      s.prev ((s.pcOf x).prevFrom x) := by
    intro x hx
    rw [(hsame x hx).2.2.1]
    exact (hfields _ (h.allocated_zone hx (Pc.prevFrom_mem_zone x _))).2.1
  have hlocked : ∀ x u, s.linkLock x = some u →
      ((s.makeLeaves t j).goto t (.publish j)).linkLock x = some u := by
    intro x u hx
    have ha := h.locked x (by rw [hx]; simp)
    exact (hfields x ha).2.2.1.trans hx
  have halloc : ∀ x, s.allocated x = true →
      ((s.makeLeaves t j).goto t (.publish j)).allocated x = true :=
    fun x hx => (hfields x hx).2.2.2.2.trans hx
  refine ⟨h.nodup, ?_, fun x hx => halloc x (h.allocated x hx), fun x hx hfree => ?_,
    fun x hx => ?_, fun x y hf => ?_, fun x hx => ?_, fun x hx => ?_, fun u => ?_,
    fun u v k l huv hk hl x hx => ?_⟩
  · have ht : ((s.makeLeaves t j).goto t (.publish j)).tree = s.tree := rfl
    rw [ht, h.tree]
    exact List.flatMap_congr (fun x hx => ((hsame x hx).1).symm)
  · by_cases hm : x ∈ j.news
    · have : ((s.makeLeaves t j).goto t (.publish j)).lock x = some t := if_pos hm
      rw [this] at hfree
      cases hfree
    · obtain ⟨_, _, _, h4, h5⟩ := makeLeaves_of_not_mem s t hm
      exact h.free x (h5.symm.trans hx) (h4.symm.trans hfree)
  · by_cases hm : x ∈ j.news
    · exact if_pos hm
    · exact halloc x (h.locked x (fun hn => hx ((makeLeaves_of_not_mem s t hm).2.2.1.trans hn)))
  · rw [hnextFrom x hf.left_mem, hprevFrom y hf.right_mem, (hsame y hf.right_mem).2.1]
    exact h.link x y hf
  · rw [hprevFrom x (List.mem_of_mem_head? hx)]
    exact h.head x hx
  · rw [hnextFrom x (List.mem_of_getLast? hx)]
    exact h.last x hx
  · by_cases hu : u = t
    · subst hu
      refine ⟨?_, ?_, ?_, ?_, ?_, ?_, ?_⟩
      · rw [hpct]
        rintro _ ⟨⟩
        exact hnd
      · rw [hpct]
        rintro _ ⟨⟩ x hx
        exact if_pos hx
      · rw [hpct]
        intro x hx
        rw [List.mem_singleton.mp hx]
        exact ⟨holdC, (hfields _ (h.allocated _ holdC)).2.2.2.1.trans holdl⟩
      · rw [hpct]
        simp [Pc.linkHeld]
      · rw [hpct]
        intro x p hx
        cases hx
      · rw [hpct]
        rintro _ ⟨⟩
        refine newLeaves_makeLeaves hnd hkind (fun x hx hxC => hkeep x (h.allocated x hxC) hx)
          (fun hc => ?_) (fun hc => ?_)
        · have := h.head j.old hc
          rwa [holdi] at this
        · have := h.last j.old hc
          rwa [holdi] at this
      · rw [hpct]
        trivial
    · refine (h.thread u).frame (hpcu u hu) h.allocated
        (fun x hx hl => (hfields x hx).2.2.2.1.trans hl) (fun x hx => hlocked x u hx) halloc
        (fun _ _ => id) (fun _ _ _ => id) (fun x hx => (hfields x ?_).2.1)
        (fun x hx => (hfields x ?_).1) (fun k hk hnews => ?_)
      · rcases Pc.watchPrev_cases hx with ⟨k, hk, rfl⟩ | ⟨k, hk, _, rfl⟩
        · exact h.allocated _ (h.old hk).1
        · exact (h.thread u).made k hk _ k.first_mem
      · refine h.locked x ?_
        rw [(h.thread u).held x (Pc.linkHeld_of_watchNext hx)]
        simp
      · have hmade := (h.thread u).made k (Pc.job_of_linking hk)
        exact hnews.frame (fun x hx => (hfields x (hmade x hx)).2.2.2.1) (fun _ _ => id)
          (fun x hx => (hfields x (hmade x hx)).1) (fun x hx => (hfields x (hmade x hx)).2.1) id id
  · by_cases hv : v = t
    · subst hv
      rw [hpct] at hl
      obtain rfl : j = l := Option.some.inj hl
      rw [hpcu u huv] at hk
      exact hkeep x ((h.thread u).made k hk x hx)
    · rw [hpcu v hv] at hl
      by_cases hu : u = t
      · subst hu
        rw [hpct] at hk
        obtain rfl : j = k := Option.some.inj hk
        exact fun hm => hkeep x ((h.thread v).made l (Pc.job_of_linking hl) x hm) hx
      · rw [hpcu u hu] at hk
        exact h.apart u v k l huv hk hl x hx

/-! ### One step -/

omit [DecidableEq θ] [DecidableEq ν] in
/-- The positions of one restructuring that the chain does not tell apart. -/
theorem goesOn {a : Pc ν} (hpc : s.pc t = a) (hlinking : pc.linking = a.linking)
    (hjob : pc.job = a.job) (hview : a.SameView pc) (hlocks : pc.locks = a.locks) :
    (s.pc t).GoesOn pc := by
  rw [hpc]
  exact ⟨hlinking, fun j hj => hjob ▸ hj, hview, fun x hx => hlocks ▸ hx⟩

omit [DecidableEq ν] in
theorem linking_goto (s : State θ ν) (t : θ) (pc : Pc ν) :
    ((s.goto t pc).pc t).linking = pc.linking := congrArg Pc.linking (Function.update_self ..)

/-- Every step of a restructuring keeps the invariant: the chain stays the same, or it gets the new
leaves whose last link is written. -/
theorem move_chain (h : Inv s C) (hs : LeafLinks.move s t = some s') :
    ∃ C', Inv s' C' ∧ ((C' = C ∧ (s'.pc t).linking = (s.pc t).linking) ∨
      ∃ j A B, Finishing s s' C t j A B ∧ C' = A ++ j.news ++ B) := by
  have hti := h.thread t
  have hheld := hti.held
  have hguard := hti.guard
  have hready := hti.ready
  have hmade := hti.made
  have hnodup := hti.nodup
  unfold LeafLinks.move at hs
  cases hpc : s.pc t with
  | idle => rw [hpc] at hs; cases hs
  | locked x => rw [hpc] at hs; cases hs
  | publish j =>
      rw [hpc] at hs
      cases hs
      exact ⟨C, h.publish hpc, Or.inl ⟨rfl, linking_goto ..⟩⟩
  | readPrev j =>
      rw [hpc] at hs
      dsimp only at hs
      have hj : (s.pc t).linking = some j := by rw [hpc]; rfl
      cases hprev : s.prev j.old with
      | none =>
          rw [hprev] at hs
          cases hs
          exact ⟨C, h.readPrev_none hpc hprev, Or.inl ⟨rfl, linking_goto ..⟩⟩
      | some p =>
          rw [hprev] at hs
          cases hs
          have hf := h.left_neighbour hj hprev (by rw [hpc]; rfl)
          exact ⟨C, h.stay (goesOn hpc rfl rfl (fun _ => ⟨rfl, rfl, rfl, rfl⟩) rfl)
            (by simp [Pc.linkHeld]) (fun _ _ hx => by cases hx) (h.allocated p hf.left_mem),
            Or.inl ⟨rfl, linking_goto ..⟩⟩
  | tryPrev j p =>
      rw [hpc] at hs hready
      dsimp only at hs
      split at hs
      · rename_i hfree
        cases hs
        exact ⟨C, h.acquire hfree hready (goesOn hpc rfl rfl (fun _ => ⟨rfl, rfl, rfl, rfl⟩) rfl)
          (fun y hy hne => absurd (List.mem_singleton.mp hy) hne) (fun _ _ hx => by cases hx)
          trivial, Or.inl ⟨rfl, linking_goto ..⟩⟩
      · cases hs
        exact ⟨C, h.stay (goesOn hpc rfl rfl (fun _ => ⟨rfl, rfl, rfl, rfl⟩) rfl)
          (by simp [Pc.linkHeld]) (fun _ _ hx => by cases hx) trivial,
          Or.inl ⟨rfl, linking_goto ..⟩⟩
  | recheck j p =>
      rw [hpc] at hs hheld
      dsimp only at hs
      have hj : (s.pc t).linking = some j := by rw [hpc]; rfl
      split at hs
      · rename_i hprev
        cases hs
        have hf := h.left_neighbour hj hprev (by rw [hpc]; rfl)
        refine ⟨C, h.stay (goesOn hpc rfl rfl (fun _ => ⟨rfl, rfl, rfl, rfl⟩) rfl) hheld
          (fun x q hx hq => ?_) hprev, Or.inl ⟨rfl, linking_goto ..⟩⟩
        obtain rfl : j.old = x := Option.some.inj hx
        rw [hq.left_unique h.nodup hf]
        exact hheld p (List.mem_singleton_self p)
      · cases hs
        exact ⟨C, h.stay (goesOn hpc rfl rfl (fun _ => ⟨rfl, rfl, rfl, rfl⟩) rfl) hheld
          (fun _ _ hx => by cases hx) trivial, Or.inl ⟨rfl, linking_goto ..⟩⟩
  | unlockPrev j p =>
      rw [hpc] at hs hheld
      cases hs
      exact ⟨C, h.release (hheld p (List.mem_singleton_self p))
        (goesOn hpc rfl rfl (fun _ => ⟨rfl, rfl, rfl, rfl⟩) rfl) (by simp [Pc.linkHeld]) rfl
        trivial, Or.inl ⟨rfl, linking_goto ..⟩⟩
  | setNext j p =>
      rw [hpc] at hs
      cases hs
      exact ⟨C, h.setNext hpc, Or.inl ⟨rfl, linking_goto ..⟩⟩
  | setPrev j p =>
      rw [hpc] at hs
      cases hs
      exact ⟨C, h.setPrev hpc, Or.inl ⟨rfl, linking_goto ..⟩⟩
  | lockLast j =>
      rw [hpc] at hs hguard hmade
      dsimp only at hs
      split at hs
      · rename_i hfree
        cases hs
        exact ⟨C, h.acquire hfree (hmade j rfl _ j.last_mem)
          (goesOn hpc rfl rfl (fun _ => ⟨rfl, rfl, rfl, rfl⟩) rfl)
          (fun y hy hne => absurd (List.mem_singleton.mp hy) hne)
          (fun x p hx hf _ => hguard x p hx hf) trivial, Or.inl ⟨rfl, linking_goto ..⟩⟩
      · cases hs
  | lockOld j =>
      rw [hpc] at hs hguard hheld
      dsimp only at hs
      have hj : (s.pc t).linking = some j := by rw [hpc]; rfl
      split at hs
      · rename_i hfree
        cases hs
        refine ⟨C, h.acquire hfree (h.allocated _ (h.old hj).1)
          (goesOn hpc rfl rfl (fun _ => ⟨rfl, rfl, rfl, rfl⟩) rfl) (fun y hy hne => ?_)
          (fun x p hx hf _ => hguard x p hx hf) trivial, Or.inl ⟨rfl, linking_goto ..⟩⟩
        rcases List.mem_cons.mp hy with rfl | hy
        · exact hheld _ (List.mem_singleton_self _)
        · exact absurd (List.mem_singleton.mp hy) hne
      · cases hs
  | readNext j =>
      rw [hpc] at hs hguard hheld
      dsimp only at hs
      cases hnext : s.next j.old with
      | none =>
          rw [hnext] at hs
          cases hs
          obtain ⟨A, B, hfin⟩ := h.finishing_readNext hpc hnext
          exact ⟨_, hfin.result, Or.inr ⟨j, A, B, hfin, rfl⟩⟩
      | some n =>
          rw [hnext] at hs
          cases hs
          exact ⟨C, h.stay (goesOn hpc rfl rfl (fun _ => ⟨rfl, rfl, rfl, rfl⟩) rfl) hheld hguard
            hnext, Or.inl ⟨rfl, linking_goto ..⟩⟩
  | setLastNext j n =>
      rw [hpc] at hs
      cases hs
      exact ⟨C, h.setLastNext hpc, Or.inl ⟨rfl, linking_goto ..⟩⟩
  | setNextPrev j n =>
      rw [hpc] at hs
      cases hs
      obtain ⟨A, B, hfin⟩ := h.finishing_setNextPrev hpc
      exact ⟨_, hfin.result, Or.inr ⟨j, A, B, hfin, rfl⟩⟩
  | unlockNew j =>
      rw [hpc] at hs hready
      cases hs
      have hfirst := hti.locks j.first (by rw [hpc]; exact j.first_mem)
      refine ⟨C, h.relock_leaf (Or.inr hfirst.2) (Or.inl rfl) hfirst.1 (by rw [hpc]; rfl) rfl
        (by rw [hpc]; exact fun _ => id) (fun y hy => ?_) (by rw [hpc]; exact fun _ => id)
        (by rw [hpc]; exact fun _ => id) hready.2, Or.inl ⟨rfl, linking_goto ..⟩⟩
      have hkept : y ∈ j.kept := hy
      unfold Job.kept at hkept
      rw [hready.1] at hkept
      cases hkept
  | readFirstPrev j =>
      rw [hpc] at hs hready hheld
      dsimp only at hs
      cases hprev : s.prev j.first with
      | none =>
          rw [hprev] at hs
          cases hs
          exact ⟨C, h.stay (goesOn hpc rfl rfl (fun _ => ⟨rfl, rfl, rfl, rfl⟩) rfl) hheld
            (fun _ _ hx => by cases hx) trivial, Or.inl ⟨rfl, linking_goto ..⟩⟩
      | some p =>
          rw [hprev] at hs
          cases hs
          obtain ⟨h1, h2⟩ := hready p hprev
          refine ⟨C, h.stay (goesOn hpc rfl rfl (fun _ => ⟨rfl, rfl, rfl, rfl⟩) rfl)
            (fun x hx => ?_) (fun _ _ hx => by cases hx) h2, Or.inl ⟨rfl, linking_goto ..⟩⟩
          rcases List.mem_cons.mp hx with rfl | hx
          · exact h1
          · exact hheld x hx
  | unlockFirstPrev j p =>
      rw [hpc] at hs hready hheld
      cases hs
      refine ⟨C, h.release (hheld p (List.mem_cons_self ..))
        (goesOn hpc rfl rfl (fun _ => ⟨rfl, rfl, rfl, rfl⟩) rfl) (fun y hy => ?_) rfl trivial,
        Or.inl ⟨rfl, linking_goto ..⟩⟩
      obtain rfl := List.mem_singleton.mp hy
      exact ⟨Ne.symm hready, hheld _ (List.mem_cons_of_mem _ hy)⟩
  | unlockLast j =>
      rw [hpc] at hs hheld hnodup
      cases hs
      have hlast := hheld j.last (List.mem_singleton_self _)
      unfold Job.afterRelease
      cases hk : j.kind with
      | resize =>
          exact ⟨C, h.release hlast ⟨by rw [hpc]; rfl, (fun _ hj => by cases hj),
            by rw [hpc]; exact fun _ => ⟨rfl, rfl, rfl, rfl⟩, (fun _ hx => by cases hx)⟩
            (by simp [Pc.linkHeld]) rfl trivial, Or.inl ⟨rfl, linking_goto ..⟩⟩
      | split =>
          refine ⟨C, h.release hlast ⟨by rw [hpc]; rfl, (fun _ hj => by cases hj),
            by rw [hpc]; exact fun _ => ⟨rfl, rfl, rfl, rfl⟩, fun x hx => ?_⟩
            (by simp [Pc.linkHeld]) rfl (hnodup j rfl), Or.inl ⟨rfl, linking_goto ..⟩⟩
          have hkept : j.kept = j.news := by
            unfold Job.kept
            rw [hk]
          have hx' : x ∈ j.kept := by
            rw [hkept]
            exact hx
          rw [hpc]
          exact hx'
  | unlockLeaves l =>
      rw [hpc] at hs hready
      cases l with
      | nil =>
          cases hs
          exact ⟨C, h.stay ⟨by rw [hpc]; rfl, (fun _ hj => by cases hj),
            by rw [hpc]; exact fun _ => ⟨rfl, rfl, rfl, rfl⟩, (fun _ hx => by cases hx)⟩
            (by simp [Pc.linkHeld]) (fun _ _ hx => by cases hx) trivial,
            Or.inl ⟨rfl, linking_goto ..⟩⟩
      | cons x l =>
          cases hs
          obtain ⟨hx, hl⟩ := List.nodup_cons.mp hready
          have hfirst := hti.locks x (by rw [hpc]; exact List.mem_cons_self ..)
          refine ⟨C, h.relock_leaf (Or.inr hfirst.2) (Or.inl rfl) hfirst.1 (by rw [hpc]; rfl) rfl
            (fun _ hj => by cases hj) (fun y hy => Or.inl ⟨?_, ?_⟩) (fun _ hy => by cases hy)
            (fun _ hy => by cases hy) hl, Or.inl ⟨rfl, linking_goto ..⟩⟩
          · rw [hpc]
            exact List.mem_cons_of_mem x hy
          · rintro rfl
            exact hx hy

/-- Every step of a restructuring keeps the invariant. -/
theorem move (h : Inv s C) (hs : LeafLinks.move s t = some s') : ∃ C', Inv s' C' := by
  obtain ⟨C', hC', _⟩ := h.move_chain hs
  exact ⟨C', hC'⟩

theorem lockLeaf (h : Inv s C) {x : ν} (hpc : s.pc t = .idle) (hx : s.allocated x = true)
    (hfree : s.lock x = none) : Inv ((s.setLock x (some t)).goto t (.locked x)) C :=
  h.relock_leaf (Or.inl hfree) (Or.inr rfl) (h.free x hx hfree) (by rw [hpc]; rfl)
    rfl (fun _ hj => by cases hj) (fun _ hy => Or.inr ⟨List.mem_singleton.mp hy, rfl⟩)
    (fun _ hy => by cases hy) (fun _ hy => by cases hy) trivial

theorem unlock (h : Inv s C) {x : ν} (hpc : s.pc t = .locked x) :
    Inv ((s.setLock x none).goto t .idle) C := by
  have hx := (h.thread t).locks x (by rw [hpc]; exact List.mem_cons_self ..)
  exact h.relock_leaf (Or.inr hx.2) (Or.inl rfl) hx.1 (by rw [hpc]; rfl) rfl
    (fun _ hj => by cases hj) (fun _ hy => by cases hy) (fun _ hy => by cases hy)
    (fun _ hy => by cases hy) trivial

/-- Every step of any thread keeps the invariant. -/
theorem step (h : Inv s C) {lo hi : ν → ℚ} {a : Action θ ν}
    (hs : LeafLinks.step lo hi s a = some s') :
    ∃ C', Inv s' C' := by
  cases a with
  | lockLeaf t x =>
      dsimp only [LeafLinks.step] at hs
      split at hs
      · rename_i hcond
        obtain ⟨hpc, hx, hfree⟩ := hcond
        cases hs
        exact ⟨C, h.lockLeaf hpc hx hfree⟩
      · cases hs
  | unlock t =>
      dsimp only [LeafLinks.step] at hs
      cases hpc : s.pc t with
      | locked x =>
          rw [hpc] at hs
          cases hs
          exact ⟨C, h.unlock hpc⟩
      | _ => rw [hpc] at hs; cases hs
  | build t j =>
      dsimp only [LeafLinks.step] at hs
      split at hs
      · rename_i hcond
        obtain ⟨hpc, hnd, hnew, hkind, _⟩ := hcond
        cases hs
        exact ⟨C, h.build hpc hnd hnew hkind⟩
      · cases hs
  | move t => exact h.move hs

end Inv

omit [DecidableEq θ] in
theorem Initial.inv {lo hi : ν → ℚ} {a b : ℚ} (h : Initial lo hi a b s) : Inv s s.tree := by
  have hidle : ∀ x, s.pcOf x = .idle := by
    intro x
    unfold State.pcOf
    rw [h.lock x]
  obtain ⟨h1, h2, h3⟩ := linked_iff_follows.mp h.linked
  refine ⟨h.nodup, ?_, fun x hx => (h.allocated x).mpr hx, fun x hx _ => (h.allocated x).mp hx,
    fun x hx => absurd (h.linkLock x) hx, fun x y hf => ?_, fun x hx => ?_, fun x hx => ?_,
    fun t => ?_, fun t u j k _ hj => ?_⟩
  · rw [List.flatMap_congr (g := fun x => [x]) (fun x _ => by rw [hidle]; rfl),
      List.flatMap_singleton']
  · rw [hidle, hidle]
    exact h1 x y hf
  · rw [hidle]
    exact h2 x hx
  · rw [hidle]
    exact h3 x hx
  · refine ⟨?_, ?_, ?_, ?_, ?_, ?_, ?_⟩ <;> rw [h.idle t]
    · intro j hj
      cases hj
    · intro j hj
      cases hj
    · intro x hx
      cases hx
    · intro x hx
      cases hx
    · intro x p hx
      cases hx
    · intro j hj
      cases hj
    · trivial
  · rw [h.idle t] at hj
    cases hj

/-- The invariant holds in every state that is reached. -/
theorem run_inv {lo hi : ν → ℚ} {a b : ℚ} {s₀ : State θ ν} (h0 : Initial lo hi a b s₀)
    (hrun : Run (step lo hi) Any s₀ s) : ∃ C, Inv s C :=
  hrun.invariant (I := fun s => ∃ C, Inv s C) ⟨_, h0.inv⟩ (fun _ _ _ ⟨_, hC⟩ _ hs => hC.step hs)

/-! ### Key order -/

/-- The leaves of the tree are in key order, and the new leaves share out the range of the old
one. -/
structure Ordered (lo hi : ν → ℚ) (a b : ℚ) (s : State θ ν) : Prop where
  tree : Spans lo hi a s.tree b
  job : ∀ t j, (s.pc t).job = some j → Spans lo hi (lo j.old) j.news (hi j.old)

/-- A restructuring keeps its job until it ends, and publishes the new leaves in the place of the
old one. -/
theorem move_job (hs : move s t = some s') :
    (∀ u j, (s'.pc u).job = some j → (s.pc u).job = some j) ∧
      (s'.tree = s.tree ∨ ∃ j, s.pc t = .publish j ∧
        s'.tree = s.tree.flatMap (fun x => if x = j.old then j.news else [x])) := by
  have hgoto : ∀ {s₁ : State θ ν} {pc : Pc ν}, s₁.pc = s.pc →
      (∀ j, pc.job = some j → (s.pc t).job = some j) →
      ∀ u j, ((s₁.goto t pc).pc u).job = some j → (s.pc u).job = some j := by
    intro s₁ pc hs₁ hpc u j hj
    have hu : (s₁.goto t pc).pc = Function.update s₁.pc t pc := rfl
    rw [hu, hs₁] at hj
    by_cases hut : u = t
    · subst hut
      rw [Function.update_self] at hj
      exact hpc j hj
    · rwa [Function.update_of_ne hut] at hj
  unfold move at hs
  cases hpc : s.pc t with
  | publish j =>
      rw [hpc] at hs
      cases hs
      exact ⟨hgoto rfl (by rw [hpc]; exact fun _ => id), Or.inr ⟨j, rfl, rfl⟩⟩
  | unlockLast j =>
      rw [hpc] at hs
      cases hs
      refine ⟨hgoto rfl (fun k hk => ?_), Or.inl rfl⟩
      unfold Job.afterRelease at hk
      cases hkind : j.kind <;> rw [hkind] at hk <;> cases hk
  | unlockLeaves l =>
      rw [hpc] at hs
      cases l with
      | nil => cases hs; exact ⟨hgoto rfl (fun _ hk => by cases hk), Or.inl rfl⟩
      | cons x l => cases hs; exact ⟨hgoto rfl (fun _ hk => by cases hk), Or.inl rfl⟩
  | _ =>
      -- the job stays the same and the tree is not touched
      rw [hpc] at hs
      dsimp only at hs
      repeat' split at hs
      all_goals cases hs
      all_goals refine ⟨hgoto rfl (fun k hk => ?_), Or.inl rfl⟩
      all_goals rw [hpc]
      all_goals first
        | exact hk
        | rw [Pc.job_afterLink] at hk; exact hk

/-- Every step keeps the key order. -/
theorem Ordered.step {lo hi : ν → ℚ} {a b : ℚ} (h : Ordered lo hi a b s) {act : Action θ ν}
    (hs : LeafLinks.step lo hi s act = some s') : Ordered lo hi a b s' := by
  have hgoto : ∀ {s₁ : State θ ν} {v : θ} {pc : Pc ν}, s₁.pc = s.pc → s₁.tree = s.tree →
      (∀ j, pc.job = some j → Spans lo hi (lo j.old) j.news (hi j.old)) →
      Ordered lo hi a b (s₁.goto v pc) := by
    intro s₁ v pc hpc₁ ht hpc
    have ht' : (s₁.goto v pc).tree = s.tree := ht
    refine ⟨by rw [ht']; exact h.tree, fun u j hj => ?_⟩
    have hu : (s₁.goto v pc).pc = Function.update s₁.pc v pc := rfl
    rw [hu, hpc₁] at hj
    by_cases huv : u = v
    · subst huv
      rw [Function.update_self] at hj
      exact hpc j hj
    · rw [Function.update_of_ne huv] at hj
      exact h.job u j hj
  cases act with
  | lockLeaf t x =>
      dsimp only [LeafLinks.step] at hs
      split at hs
      · cases hs
        exact hgoto rfl rfl (fun _ hj => by cases hj)
      · cases hs
  | unlock t =>
      dsimp only [LeafLinks.step] at hs
      split at hs
      · cases hs
        exact hgoto rfl rfl (fun _ hj => by cases hj)
      · cases hs
  | build t j =>
      dsimp only [LeafLinks.step] at hs
      split at hs
      · rename_i hcond
        cases hs
        refine hgoto rfl rfl (fun k hk => ?_)
        obtain rfl : j = k := Option.some.inj hk
        exact hcond.2.2.2.2
      · cases hs
  | move t =>
      obtain ⟨hjob, htree⟩ := move_job hs
      refine ⟨?_, fun u j hj => h.job u j (hjob u j hj)⟩
      rcases htree with htree | ⟨j, hj, htree⟩
      · rw [htree]
        exact h.tree
      · rw [htree]
        refine h.tree.flatMap (fun x _ => ?_)
        by_cases hx : x = j.old
        · rw [if_pos hx, hx]
          exact h.job t j (by rw [hj]; rfl)
        · rw [if_neg hx]
          exact ⟨rfl, rfl⟩

omit [DecidableEq θ] [DecidableEq ν] in
theorem Initial.ordered {lo hi : ν → ℚ} {a b : ℚ} (h : Initial lo hi a b s) :
    Ordered lo hi a b s := by
  refine ⟨h.spans, fun t j hj => ?_⟩
  rw [h.idle t] at hj
  cases hj

/-! ### Between restructurings -/

omit [DecidableEq θ] in
/-- While nobody relinks leaves, the chain is the tree and its links are those of the leaves. -/
theorem Inv.quiet (h : Inv s C) (hquiet : ∀ t, (s.pc t).relinks = false) :
    s.tree = C ∧ Linked s.prev s.next none s.tree none := by
  have hself : ∀ x, (s.pcOf x).shown x = [x] ∧ (s.pcOf x).nextTo x = x ∧
      (s.pcOf x).prevFrom x = x ∧ (s.pcOf x).nextFrom x = x := by
    intro x
    refine Pc.shown_of_relinking_none x ?_
    rcases pcOf_cases s x with hidle | ⟨t, _, _, _, _, hpc⟩
    · rw [hidle]
      rfl
    · rw [hpc]
      exact Pc.relinking_of_relinks (hquiet t)
  have htree : s.tree = C := by
    rw [h.tree, List.flatMap_congr (g := fun x => [x]) (fun x _ => (hself x).1),
      List.flatMap_singleton']
  refine ⟨htree, ?_⟩
  rw [htree]
  refine linked_iff_follows.mpr ⟨fun x y hf => ?_, fun x hx => ?_, fun x hx => ?_⟩
  · have := h.link x y hf
    rwa [(hself x).2.2.2, (hself y).2.1, (hself y).2.2.1] at this
  · have := h.head x hx
    rwa [(hself x).2.2.1] at this
  · have := h.last x hx
    rwa [(hself x).2.2.2] at this

omit [DecidableEq ν] in
theorem Pc.linkHeld_of_releases {pc : Pc ν} {x : ν} (h : pc.releases = some x) :
    x ∈ pc.linkHeld := by
  cases pc <;> cases h <;> simp [Pc.linkHeld]

/-- **The leaves form one doubly linked list.**  In every state that is reached, a thread that
releases a link lock holds it; and while nobody restructures, the leaves of the tree are in key
order and linked in both directions, and no leaf of the tree is linked to a replaced one. -/
theorem links_of_run {lo hi : ν → ℚ} {a b : ℚ} {s₀ : State θ ν} (h0 : Initial lo hi a b s₀)
    (hrun : Run (step lo hi) Any s₀ s) :
    (∀ t x, (s.pc t).releases = some x → s.linkLock x = some t) ∧
      ((∀ t, (s.pc t).restructures = false) →
        Spans lo hi a s.tree b ∧ Linked s.prev s.next none s.tree none ∧
          ∀ x ∈ s.tree, ∀ y, s.next x = some y ∨ s.prev x = some y → y ∈ s.tree) := by
  obtain ⟨C, hC⟩ := run_inv h0 hrun
  have hord : Ordered lo hi a b s :=
    hrun.invariant (I := Ordered lo hi a b) h0.ordered (fun _ _ _ h _ hs => h.step hs)
  refine ⟨fun t x hx => (hC.thread t).held x (Pc.linkHeld_of_releases hx), fun hquiet => ?_⟩
  obtain ⟨_, hlinked⟩ := hC.quiet (fun t => Pc.relinks_of_restructures (hquiet t))
  refine ⟨hord.tree, hlinked, fun x hx y hy => ?_⟩
  rcases hy with hy | hy
  · obtain ⟨A, B, hsplit⟩ := hlinked.next_mem hx hy
    rw [hsplit]
    simp
  · obtain ⟨A, B, hsplit⟩ := hlinked.prev_mem hx hy
    rw [hsplit]
    simp

/-- Two linked leaves. -/
def twoLeaves : State (Fin 2) ℕ where
  next x := if x = 0 then some 1 else none
  prev x := if x = 1 then some 0 else none
  linkLock _ := none
  lock _ := none
  allocated x := decide (x < 2)
  tree := [0, 1]
  pc _ := .idle

/-- The ranges of the two leaves, and of the leaves 2, 3 and 4 that replace them. -/
def twoLeavesLo (x : ℕ) : ℚ := ([0, 1, 0, 1, 3 / 2] : List ℚ).getD x 0
def twoLeavesHi (x : ℕ) : ℚ := ([1, 2, 1, 3 / 2, 2] : List ℚ).getD x 0

theorem twoLeaves_initial : Initial twoLeavesLo twoLeavesHi 0 2 twoLeaves := by
  refine ⟨by decide, ?_, ⟨rfl, rfl, rfl, rfl, trivial⟩, fun x => ?_, fun _ => rfl, fun _ => rfl,
    fun _ => rfl⟩
  · exact ⟨rfl, rfl, rfl⟩
  · have htree : x ∈ twoLeaves.tree ↔ x = 0 ∨ x = 1 := by simp [twoLeaves]
    rw [htree]
    unfold twoLeaves
    rw [decide_eq_true_eq]
    omega

/-- One thread resizes the left leaf while the other splits the right one. -/
def twoRestructurings (t u : θ) : List (Action θ ℕ) :=
  [.lockLeaf t 0, .lockLeaf u 1, .build t ⟨.resize, 0, 2, []⟩, .build u ⟨.split, 1, 3, [4]⟩] ++
    List.replicate 8 (.move u) ++ List.replicate 3 (.move t) ++ List.replicate 3 (.move u) ++
    List.replicate 7 (.move t) ++ List.replicate 4 (.move u)

theorem links_of_twoRestructurings :
    ∃ s, exec (step twoLeavesLo twoLeavesHi) twoLeaves (twoRestructurings 0 1) = some s ∧
      s.tree = [2, 3, 4] ∧ Linked s.prev s.next none s.tree none := by
  have hend : (exec (step twoLeavesLo twoLeavesHi) twoLeaves (twoRestructurings 0 1)).map
      (fun s => (s.tree, (s.pc 0).restructures, (s.pc 1).restructures)) =
      some ([2, 3, 4], false, false) := by
    decide +kernel
  obtain ⟨s, hs, htuple⟩ := Option.map_eq_some_iff.mp hend
  obtain ⟨htree, hzero, hone⟩ : s.tree = [2, 3, 4] ∧ (s.pc 0).restructures = false ∧
      (s.pc 1).restructures = false := by
    simpa using htuple
  have hrun : Run (step twoLeavesLo twoLeavesHi) Any twoLeaves s :=
    run_of_exec hs (fun _ _ => trivial)
  have hquiet : ∀ t, (s.pc t).restructures = false := by
    intro t
    match t with
    | 0 => exact hzero
    | 1 => exact hone
  obtain ⟨-, hlinks⟩ := links_of_run twoLeaves_initial hrun
  obtain ⟨-, hlinked, -⟩ := hlinks hquiet
  exact ⟨s, hs, htree, hlinked⟩

end LearnedIndex.Alexol.LeafLinks
