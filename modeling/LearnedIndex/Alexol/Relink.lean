import LearnedIndex.Alexol.IndexInvariant

/-! # Relinking the list of leaves

`link_data_nodes` puts the leaves from `left` to `right` at the place of a leaf, and the release
of the link locks ends it.  Both change the links of data nodes only (`Links`), and the closed form
of what they do (`linking`, `unlinking`) is all that the other modules use. -/

namespace LearnedIndex.Alexol

/-- The links of a leaf to its neighbours, with their lock. -/
structure Links where
  prev : Option NodeId
  next : Option NodeId
  lock : LockWord

namespace DataNode

variable {M P : Type}

def links (n : DataNode M P) : Links := ⟨n.prevLeaf, n.nextLeaf, n.linkLock⟩

def withLinks (n : DataNode M P) (l : Links) : DataNode M P :=
  { n with prevLeaf := l.prev, nextLeaf := l.next, linkLock := l.lock }

@[simp] theorem withLinks_links (n : DataNode M P) : n.withLinks n.links = n := rfl

@[simp] theorem links_withLinks (n : DataNode M P) (l : Links) : (n.withLinks l).links = l := rfl

end DataNode

/-- The lock word with the lock taken. -/
def taken (w : LockWord) : LockWord := (w &&& lockMask) ||| lockSet

/-- What `link_data_nodes` does to the links of the node `x`; `o` are those of the replaced leaf. -/
def linking (o : Links) (old left right x : NodeId) (l : Links) : Links where
  prev := if x = left ∧ o.prev ≠ none then o.prev
    else if o.next = some x then some right else l.prev
  next := if o.prev = some x then some left
    else if x = right ∧ o.next ≠ none then o.next else l.next
  lock := if o.prev = some x ∨ x = right ∨ x = old then taken l.lock else l.lock

/-- What the release of the link locks does to the links of the node `x`. -/
def unlinking (prev : Option NodeId) (right x : NodeId) (l : Links) : Links :=
  { l with lock := if prev = some x ∨ x = right then l.lock &&& lockMask else l.lock }

theorem isSet_and_lockMask (v : LockWord) : isSet (v &&& lockMask) = false := by
  rw [isSet_eq, BitVec.getLsbD_and]
  have h : lockMask.getLsbD 31 = false := by decide
  rw [h, Bool.and_false]

namespace Heap

variable {M P : Type}

/-- An operation that changes links only. -/
def LinkStep (h h' : Heap M P) (f : NodeId → Links → Links) : Prop :=
  DataStep h h' (fun x n => n.withLinks (f x n.links))

namespace LinkStep

variable {h h' h₁ h₂ h₃ : Heap M P} {f g : NodeId → Links → Links}

theorem trans (h₁₂ : LinkStep h₁ h₂ f) (h₂₃ : LinkStep h₂ h₃ g) :
    LinkStep h₁ h₃ (fun x l => g x (f x l)) := DataStep.trans h₁₂ h₂₃

theorem congr (hs : LinkStep h h' f)
    (hfg : ∀ x n, h.dataAt x = some n → f x n.links = g x n.links) : LinkStep h h' g :=
  DataStep.congr hs (fun x n hn => by rw [hfg x n hn])

theorem refl (h : Heap M P) : LinkStep h h (fun _ l => l) := DataStep.refl h

theorem get (hs : LinkStep h h' f) {x : NodeId} {n : DataNode M P} (hn : h.dataAt x = some n) :
    h'.dataAt x = some (n.withLinks (f x n.links)) := by
  rw [DataStep.dataAt hs, hn]
  rfl

end LinkStep

theorem setLinks_step {h : Heap M P} {x : NodeId} {n : DataNode M P} (hn : h.dataAt x = some n)
    (l : Links) : LinkStep h (h.setData x (n.withLinks l)) (fun y k => if y = x then l else k) := by
  refine DataStep.congr (setData_step hn _) (fun y k hk => ?_)
  by_cases hy : y = x
  · subst hy
    obtain rfl := Option.some.inj (hn.symm.trans hk)
    simp only [if_true]
  · simp only [if_neg hy, DataNode.withLinks_links]

end Heap

theorem DataNode.tryGetLinkLock_free {M P : Type} {n : DataNode M P}
    (hfree : isSet n.linkLock = false) :
    n.tryGetLinkLock = some (n.withLinks ⟨n.prevLeaf, n.nextLeaf, taken n.linkLock⟩) := by
  unfold DataNode.tryGetLinkLock
  rw [hfree]
  rfl

namespace Index

variable {M P : Type} {h : Heap M P} {old left right : NodeId} {o nl nr : DataNode M P}

/-- The neighbours of the replaced leaf `old`, as far as relinking needs them. -/
structure Neighbours (h : Heap M P) (old left right : NodeId) (o : DataNode M P) : Prop where
  get : h.dataAt old = some o
  free : isSet o.linkLock = false
  ne_left : old ≠ left
  ne_right : old ≠ right
  prev : ∀ p, o.prevLeaf = some p → p ≠ old ∧ p ≠ left ∧ p ≠ right ∧
    ∃ np, h.dataAt p = some np ∧ isSet np.linkLock = false
  next : ∀ q, o.nextLeaf = some q → q ≠ old ∧ q ≠ left ∧ q ≠ right ∧ ∃ nq, h.dataAt q = some nq

theorem getLinkLock_step {id : NodeId} {n : DataNode M P} (hn : h.dataAt id = some n)
    (hfree : isSet n.linkLock = false) :
    ∃ h', getLinkLock h id = some h' ∧ Heap.LinkStep h h' (fun x l =>
      { l with lock := if x = id then taken l.lock else l.lock }) := by
  refine ⟨_, ?_, (Heap.setLinks_step hn ⟨n.prevLeaf, n.nextLeaf, taken n.linkLock⟩).congr
    (fun x k hk => ?_)⟩
  · unfold getLinkLock
    simp only [hn, DataNode.tryGetLinkLock_free hfree, Option.bind_eq_bind, Option.bind_some]
  · by_cases hx : x = id
    · subst hx
      obtain rfl := Option.some.inj (hn.symm.trans hk)
      simp only [if_true]
      rfl
    · simp only [if_neg hx]

theorem linkPrevious_step (hl : h.dataAt left = some nl) (prev : Option NodeId)
    (hp : ∀ p, prev = some p → p ≠ left ∧ ∃ np, h.dataAt p = some np ∧ isSet np.linkLock = false) :
    ∃ h', linkPrevious h left prev = some h' ∧ Heap.LinkStep h h' (fun x l =>
      { prev := if x = left ∧ prev ≠ none then prev else l.prev
        next := if prev = some x then some left else l.next
        lock := if prev = some x then taken l.lock else l.lock }) := by
  cases prev with
  | none => exact ⟨h, rfl, (Heap.LinkStep.refl h).congr (fun x k _ => by simp)⟩
  | some p =>
      obtain ⟨hpl, np, hnp, hfree⟩ := hp p rfl
      have hstep := Heap.setLinks_step hnp ⟨np.prevLeaf, some left, taken np.linkLock⟩
      have hl' := hstep.get hl
      rw [if_neg (fun h => hpl h.symm), DataNode.withLinks_links] at hl'
      refine ⟨_, ?_, (hstep.trans (Heap.setLinks_step hl' ⟨some p, nl.nextLeaf, nl.linkLock⟩)).congr
        (fun x k hk => ?_)⟩
      · unfold linkPrevious
        simp only [hnp, DataNode.tryGetLinkLock_free hfree, Option.bind_eq_bind, Option.bind_some]
        exact Heap.modifyData_eq hl' _
      · by_cases hxl : x = left
        · subst hxl
          obtain rfl := Option.some.inj (hl.symm.trans hk)
          simp [hpl, DataNode.links]
        · by_cases hxp : x = p
          · subst hxp
            obtain rfl := Option.some.inj (hnp.symm.trans hk)
            simp [hxl, DataNode.links]
          · have hpx : ¬ p = x := fun h => hxp h.symm
            simp [hxl, hxp, hpx]

theorem linkNext_step (hr : h.dataAt right = some nr) (next : Option NodeId)
    (hq : ∀ q, next = some q → q ≠ right ∧ ∃ nq, h.dataAt q = some nq) :
    ∃ h', linkNext h right next = some h' ∧ Heap.LinkStep h h' (fun x l =>
      { l with
        prev := if next = some x then some right else l.prev
        next := if x = right ∧ next ≠ none then next else l.next }) := by
  cases next with
  | none => exact ⟨h, rfl, (Heap.LinkStep.refl h).congr (fun x k _ => by simp)⟩
  | some q =>
      obtain ⟨hqr, nq, hnq⟩ := hq q rfl
      have hstep := Heap.setLinks_step hr ⟨nr.prevLeaf, some q, nr.linkLock⟩
      have hq' := hstep.get hnq
      rw [if_neg hqr, DataNode.withLinks_links] at hq'
      refine ⟨_, ?_, (hstep.trans (Heap.setLinks_step hq'
        ⟨some right, nq.nextLeaf, nq.linkLock⟩)).congr (fun x k hk => ?_)⟩
      · unfold linkNext
        simp only [Heap.modifyData_eq hr, Option.bind_eq_bind, Option.bind_some]
        exact Heap.modifyData_eq hq' _
      · by_cases hxr : x = right
        · subst hxr
          obtain rfl := Option.some.inj (hr.symm.trans hk)
          have hxq : ¬ x = q := fun h => hqr h.symm
          simp [hqr, hxq, DataNode.links]
        · by_cases hxq : x = q
          · subst hxq
            obtain rfl := Option.some.inj (hnq.symm.trans hk)
            simp [hxr, DataNode.links]
          · have hqx : ¬ q = x := fun h => hxq h.symm
            simp [hxr, hxq, hqx]

/-- `link_data_nodes` succeeds and relinks as described by `linking`. -/
theorem linkDataNodes_step (hn : Neighbours h old left right o) (hl : h.dataAt left = some nl)
    (hr : h.dataAt right = some nr) (hrfree : isSet nr.linkLock = false) :
    ∃ h', linkDataNodes h old left right = some h' ∧
      Heap.LinkStep h h' (linking o.links old left right) := by
  obtain ⟨h₁, hlink₁, hs₁⟩ := linkPrevious_step hl o.prevLeaf
    (fun p hp => ⟨(hn.prev p hp).2.1, (hn.prev p hp).2.2.2⟩)
  have hpr : ¬ o.prevLeaf = some right := fun h => (hn.prev _ h).2.2.1 rfl
  have hpo : ¬ o.prevLeaf = some old := fun h => (hn.prev _ h).1 rfl
  obtain ⟨h₂, hlink₂, hs₂⟩ := getLinkLock_step (hs₁.get hr) (by
    simp only [DataNode.withLinks, if_neg hpr]
    exact hrfree)
  have hs₁₂ := hs₁.trans hs₂
  obtain ⟨h₃, hlink₃, hs₃⟩ := getLinkLock_step (hs₁₂.get hn.get) (by
    simp only [DataNode.withLinks, if_neg hpo, if_neg hn.ne_right]
    exact hn.free)
  have hs₁₃ := hs₁₂.trans hs₃
  have ho₃ := hs₁₃.get hn.get
  obtain ⟨h₄, hlink₄, hs₄⟩ := linkNext_step (hs₁₃.get hr) o.nextLeaf (fun q hq => by
    obtain ⟨_, _, hqr, nq, hnq⟩ := hn.next q hq
    exact ⟨hqr, _, hs₁₃.get hnq⟩)
  refine ⟨h₄, ?_, (hs₁₃.trans hs₄).congr (fun x k hk => ?_)⟩
  · unfold linkDataNodes
    simp only [hn.get, hlink₁, hlink₂, hlink₃, ho₃, Option.bind_eq_bind, Option.bind_some]
    show linkNext h₃ right (if o.prevLeaf = some old then some left else o.nextLeaf) = some h₄
    rw [if_neg hpo]
    exact hlink₄
  · -- no node is in two of the roles that a step tests for
    have hleft : x = left → o.nextLeaf ≠ some x := by
      rintro rfl hq
      exact (hn.next _ hq).2.1 rfl
    have hright : x = right → o.prevLeaf ≠ some x := by
      rintro rfl
      exact hpr
    have hold : x = old → o.prevLeaf ≠ some x ∧ x ≠ right := by
      rintro rfl
      exact ⟨hpo, hn.ne_right⟩
    unfold linking
    simp only [DataNode.links, Links.mk.injEq]
    refine ⟨?_, ?_, ?_⟩
    · grind
    · grind
    · grind

/-- The release of the link locks after a split. -/
theorem releaseLinkLocks_step (hl : h.dataAt left = some nl) (hr : h.dataAt right = some nr)
    (hp : ∀ p, nl.prevLeaf = some p → p ≠ right ∧ ∃ np, h.dataAt p = some np) :
    ∃ h', releaseLinkLocksForSplit h left right = some h' ∧
      Heap.LinkStep h h' (unlinking nl.prevLeaf right) := by
  unfold releaseLinkLocksForSplit
  simp only [hl, Option.bind_eq_bind, Option.bind_some]
  cases hprev : nl.prevLeaf with
  | none =>
      refine ⟨_, Heap.modifyData_eq hr _, (Heap.setLinks_step hr
        ⟨nr.prevLeaf, nr.nextLeaf, nr.linkLock &&& lockMask⟩).congr (fun x k hk => ?_)⟩
      unfold unlinking
      by_cases hx : x = right
      · subst hx
        obtain rfl := Option.some.inj (hr.symm.trans hk)
        simp [DataNode.links]
      · simp [hx]
  | some p =>
      obtain ⟨hpr, np, hnp⟩ := hp p hprev
      have hstep := Heap.setLinks_step hnp ⟨np.prevLeaf, np.nextLeaf, np.linkLock &&& lockMask⟩
      have hr' := hstep.get hr
      rw [if_neg (fun h => hpr h.symm), DataNode.withLinks_links] at hr'
      refine ⟨_, ?_, (hstep.trans (Heap.setLinks_step hr'
        ⟨nr.prevLeaf, nr.nextLeaf, nr.linkLock &&& lockMask⟩)).congr (fun x k hk => ?_)⟩
      · unfold releasePrevious
        simp only [Heap.modifyData_eq hnp, Option.bind_some]
        exact Heap.modifyData_eq hr' _
      · unfold unlinking
        by_cases hx : x = right
        · subst hx
          obtain rfl := Option.some.inj (hr.symm.trans hk)
          simp [DataNode.links]
        · by_cases hxp : x = p
          · subst hxp
            obtain rfl := Option.some.inj (hnp.symm.trans hk)
            simp [hx, DataNode.links]
          · have hpx : ¬ p = x := fun h => hxp h.symm
            simp [hx, hxp, hpx]

end Index

end LearnedIndex.Alexol
