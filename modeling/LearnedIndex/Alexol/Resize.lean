import LearnedIndex.Alexol.Replace

/-! # Resizing a leaf

`resizeLeaf` puts a resized or retrained copy at the place of a leaf.  The first part says what it
does to the arena for any index in which the leaf is on the trail of the key (`resizeLeaf_spec`),
the second that the invariant is kept unless the leaf is the root (`Good.resizeLeaf`). -/

namespace LearnedIndex.Alexol

open LearnedIndex.Chains

variable {M P : Type}

namespace Index

variable {s : Index M P} {key : ℤ} {mid : List NodeId} {L p : NodeId} {n : DataNode M P}
  {m : ModelNode}

theorem recordCost_links (n : DataNode M P) (t : Option (FTNode M)) :
    (recordCost n t).links = n.links := by
  cases t <;> rfl

/-- The node `x` after relinking and the release of the locks of the new leaves. -/
def relinkedNode (o : DataNode M P) (L left right : NodeId) (N : List NodeId) (x : NodeId)
    (n : DataNode M P) : DataNode M P :=
  (if x ∈ N then n.releaseLock else n).withLinks
    (unlinking o.prevLeaf right x (linking o.links L left right x n.links))

theorem relinkedNode_links (o : DataNode M P) (L left right : NodeId) (N : List NodeId)
    (x : NodeId) (n : DataNode M P) : (relinkedNode o L left right N x n).links =
      unlinking o.prevLeaf right x (linking o.links L left right x n.links) := rfl

theorem relinkedNode_old (o : DataNode M P) (L left right : NodeId) {N : List NodeId} {x : NodeId}
    (n : DataNode M P) (hx : x ∉ N) : relinkedNode o L left right N x n =
      n.withLinks (relinkedNode o L left right N x n).links := by
  rw [relinkedNode_links]
  unfold relinkedNode
  rw [if_neg hx]

theorem relinkedNode_new (o : DataNode M P) (L left right : NodeId) {N : List NodeId} {x : NodeId}
    (n : DataNode M P) (hx : x ∈ N) : relinkedNode o L left right N x n = n.releaseLock.withLinks
      (unlinking o.prevLeaf right x (linking o.links L left right x n.links)) := by
  unfold relinkedNode
  rw [if_pos hx]

/-- The children of a node during a read lock. -/
theorem release_children (hl : m.lock = 0#32) (children : List (Option NodeId)) :
    ModelNode.releaseReadLock { m.reading with children := children } =
      { m with children := children } :=
  ModelNode.releaseReadLock_reading (m := { m with children := children }) hl

/-- The arena while the copy `k` of a leaf is put at its place, before the leaves are relinked. -/
theorem relink_copy (hr : Replaceable s key mid L p n m) {k : DataNode M P} (t : Option (FTNode M))
    (hk : k.links = ⟨n.prevLeaf, n.nextLeaf, 0#32⟩) {h : Heap M P}
    (hdata : h.dataAt = Function.update (Function.update s.heap.dataAt L (some (recordCost n t)))
      s.heap.length (some k))
    {m' : ModelNode} (hmodel : h.modelAt p = some m') (release : ModelNode → ModelNode) :
    ∃ h₄ h₅ h₇, linkResizingDataNodes h L s.heap.length = some h₄ ∧
      h₄.modifyData s.heap.length DataNode.releaseLock = some h₅ ∧
      releaseLinkLocksForResizing (h₅.setModel p (release m')) s.heap.length = some h₇ ∧
      h₅.modelAt p = some m' ∧ h₇.length = h.length ∧
      h₇.modelAt = Function.update h.modelAt p (some (release m')) ∧
      ∀ x, h₇.dataAt x =
        (h.dataAt x).map (relinkedNode n L s.heap.length s.heap.length [s.heap.length] x) := by
  have hlinks : (recordCost n t).links = n.links := recordCost_links n t
  have hprev : (recordCost n t).prevLeaf = n.prevLeaf := congrArg Links.prev hlinks
  have hnext : (recordCost n t).nextLeaf = n.nextLeaf := congrArg Links.next hlinks
  have hlock : (recordCost n t).linkLock = n.linkLock := congrArg Links.lock hlinks
  have hL : L < s.heap.length := Heap.dataAt_lt hr.get
  have hnew : h.dataAt s.heap.length = some k := by rw [hdata, Function.update_self]
  have hold : ∀ x y, s.heap.dataAt x = some y → x ≠ L → h.dataAt x = some y := by
    intro x y hy hne
    rw [hdata, Function.update_of_ne (Heap.dataAt_lt hy).ne, Function.update_of_ne hne]
    exact hy
  have hn : Neighbours h L s.heap.length s.heap.length (recordCost n t) := by
    refine ⟨?_, by rw [hlock]; exact hr.free, hL.ne, hL.ne, fun x hx => ?_, fun x hx => ?_⟩
    · rw [hdata, Function.update_of_ne hL.ne, Function.update_self]
    · obtain ⟨hne, y, hy, hfree⟩ := hr.prev x (hprev ▸ hx)
      have hlt := Heap.dataAt_lt hy
      exact ⟨hne, hlt.ne, hlt.ne, y, hold x y hy hne, hfree⟩
    · obtain ⟨hne, y, hy⟩ := hr.next x (hnext ▸ hx)
      have hlt := Heap.dataAt_lt hy
      exact ⟨hne, hlt.ne, hlt.ne, y, hold x y hy hne⟩
  obtain ⟨h₄, hlink, hs₄⟩ := linkDataNodes_step hn hnew hnew (by
    have : k.linkLock = 0#32 := congrArg Links.lock hk
    rw [this]
    decide)
  rw [hlinks] at hs₄
  obtain ⟨h₅, hrel, hs₅⟩ := Heap.modifyData_step (hs₄.get hnew) DataNode.releaseLock
  have hm₅ : h₅.modelAt = h.modelAt := hs₅.modelAt.trans hs₄.modelAt
  have hmp : h₅.modelAt p = some m' := by rw [hm₅]; exact hmodel
  have hd₅ : ∀ x, (h₅.setModel p (release m')).dataAt x = (h.dataAt x).map (fun y =>
      if x = s.heap.length then DataNode.releaseLock
        (y.withLinks (linking n.links L s.heap.length s.heap.length x y.links))
      else y.withLinks (linking n.links L s.heap.length s.heap.length x y.links)) := by
    intro x
    rw [Heap.dataAt_setModel hmp, (Heap.DataStep.trans hs₄ hs₅).dataAt]
  have hnew₅ := hd₅ s.heap.length
  rw [hnew, Option.map_some, if_pos rfl] at hnew₅
  -- the copy still has the link to the left neighbour
  have hkprev : (DataNode.releaseLock (k.withLinks
      (linking n.links L s.heap.length s.heap.length s.heap.length k.links))).prevLeaf =
        n.prevLeaf := by
    show (if s.heap.length = s.heap.length ∧ n.prevLeaf ≠ none then n.prevLeaf
      else if n.nextLeaf = some s.heap.length then some s.heap.length else k.prevLeaf) = n.prevLeaf
    have hkp : k.prevLeaf = n.prevLeaf := congrArg Links.prev hk
    have hnn : n.nextLeaf ≠ some s.heap.length := by
      intro hx
      obtain ⟨_, y, hy⟩ := hr.next _ hx
      exact (Heap.dataAt_lt hy).ne rfl
    rw [if_neg hnn, hkp]
    split <;> rfl
  obtain ⟨h₇, hunlink, hs₇⟩ := releaseLinkLocks_step hnew₅ hnew₅ (fun x hx => by
    rw [hkprev] at hx
    obtain ⟨hne, y, hy, _⟩ := hr.prev x hx
    refine ⟨(Heap.dataAt_lt hy).ne, ?_⟩
    rw [hd₅, hold x y hy hne]
    exact ⟨_, rfl⟩)
  rw [hkprev] at hs₇
  refine ⟨h₄, h₅, h₇, hlink, hrel, hunlink, hmp, ?_, ?_, fun x => ?_⟩
  · rw [hs₇.length, Heap.length_setModel, hs₅.length, hs₄.length]
  · rw [hs₇.modelAt, Heap.modelAt_setModel hmp, hm₅]
  · rw [hs₇.dataAt, hd₅, Option.map_map]
    congr 1
    funext y
    unfold relinkedNode
    simp only [Function.comp, List.mem_singleton]
    split <;> rfl

/-- What a resize does to the arena. -/
theorem resizeLeaf_spec [NodeModel M] (hr : Replaceable s key mid L p n m) {C : Params M P}
    (hs : n.Stores C.T) (hne : n.pairs ≠ []) (t : Option (FTNode M)) :
    ∃ h k children, resizeLeaf C s key L t = some { s with heap := h, retired := L :: s.retired } ∧
      h.length = s.heap.length + 1 ∧
      h.modelAt = Function.update s.heap.modelAt p (some { m with children := children }) ∧
      children.length = m.children.length ∧
      (∀ j, ({ m with children := children } : ModelNode).childAt j =
        if m.blockStart (m.bucketOf key) n.localDepth ≤ j ∧
          j < m.blockStart (m.bucketOf key) n.localDepth + m.repeats n.localDepth then
          some s.heap.length else m.childAt j) ∧
      LeafSwap s.heap h L n [s.heap.length] ∧ h.dataAt s.heap.length = some k ∧
      k.Stores C.T ∧ k.pairs = n.pairs ∧ k.Room ∧ isSet k.linkLock = false ∧
      k.SamePlace (n.withLinks k.links) ∧ k.lock = n.lock + 1#32 - lockSet ∧
      ∃ o, h.dataAt L = some o ∧ o.lock = n.lock := by
  obtain ⟨k, hk, hst, hpairs, hroom, hplace, hklock⟩ := hs.resizeFromExisting hne kMinDensity
    t.isSome n.isAppendMostlyRight n.isAppendMostlyLeft
  have hL : L < s.heap.length := Heap.dataAt_lt hr.get
  have hdata₁ : Heap.dataAt (s.heap.setData L (recordCost n t) ++ [.data k]) =
      Function.update (Function.update s.heap.dataAt L (some (recordCost n t))) s.heap.length
        (some k) := by
    rw [Heap.dataAt_snoc_data, Heap.length_setData, Heap.dataAt_setData hr.get]
  have hmodel₁ : Heap.modelAt (s.heap.setData L (recordCost n t) ++ [.data k]) =
      s.heap.modelAt := by
    rw [Heap.modelAt_snoc_data, Heap.modelAt_setData hr.get]
  have hkeep : ∀ x y, s.heap.dataAt x = some y →
      ∃ y', Heap.dataAt (s.heap.setData L (recordCost n t) ++ [.data k]) x = some y' := by
    intro x y hy
    rw [hdata₁, Function.update_of_ne (Heap.dataAt_lt hy).ne]
    by_cases hx : x = L
    · exact ⟨_, by rw [hx, Function.update_self]⟩
    · exact ⟨y, by rw [Function.update_of_ne hx]; exact hy⟩
  have hlock := lockParentNode_eq hr hmodel₁ hkeep
  have hp₁ : Heap.modelAt (s.heap.setData L (recordCost n t) ++ [.data k]) p = some m := by
    rw [hmodel₁]
    exact hr.parent
  have hp₂ : (Heap.setModel (s.heap.setData L (recordCost n t) ++ [.data k]) p m.reading).modelAt
    p =
      some m.reading := by
    rw [Heap.modelAt_setModel hp₁, Function.update_self]
  obtain ⟨children, hpoint, hlen, hchild⟩ := pointBlock_spec (m := m.reading) hp₂ hr.fit
    s.heap.length
  generalize hh₃ : (Heap.setModel (Heap.setModel (s.heap.setData L (recordCost n t) ++ [.data k]) p
    m.reading) p { m.reading with children := children }) = h₃ at hpoint
  have hd₃ : h₃.dataAt = Function.update (Function.update s.heap.dataAt L
      (some (recordCost n t))) s.heap.length (some k) := by
    rw [← hh₃, Heap.dataAt_setModel hp₂, Heap.dataAt_setModel hp₁, hdata₁]
  have hm₃ : h₃.modelAt = Function.update s.heap.modelAt p
      (some { m.reading with children := children }) := by
    rw [← hh₃, Heap.modelAt_setModel hp₂, Heap.modelAt_setModel hp₁, hmodel₁,
      Function.update_idem]
  have hlen₃ : h₃.length = s.heap.length + 1 := by
    rw [← hh₃, Heap.length_setModel, Heap.length_setModel, List.length_append,
      Heap.length_setData]
    rfl
  have hklinks : k.links = ⟨n.prevLeaf, n.nextLeaf, 0#32⟩ := by
    unfold DataNode.links
    rw [hplace.prevLeaf, hplace.nextLeaf, hplace.linkLock]
    rfl
  obtain ⟨h₄, h₅, h₇, hlink, hrel, hunlink, hm₅, hlen₇, hm₇, hd₇⟩ := relink_copy hr t hklinks hd₃
    (by rw [hm₃, Function.update_self]) ModelNode.releaseReadLock
  have hnew₃ : h₃.dataAt s.heap.length = some k := by rw [hd₃, Function.update_self]
  have hnew₇ := hd₇ s.heap.length
  rw [hnew₃, Option.map_some, relinkedNode_new _ _ _ _ _ (List.mem_singleton_self _)] at hnew₇
  have hold₇ := hd₇ L
  rw [hd₃, Function.update_of_ne hL.ne, Function.update_self, Option.map_some,
    relinkedNode_old _ _ _ _ _ (by simpa using hL.ne)] at hold₇
  refine ⟨h₇, _, children, ?_, hlen₇.trans hlen₃, ?_, hlen, hchild, ?_, hnew₇, hst.congr ?_ ?_,
    (DataNode.pairs_congr ?_).trans hpairs, hroom.congr ?_ ?_ ?_, ?_, ?_, ?_, _, hold₇, ?_⟩
  · unfold resizeLeaf
    simp only [hr.get, hk, hlock, hpoint, hlink, hrel, Heap.modifyModel_eq hm₅, hunlink,
      Option.bind_eq_bind, Option.bind_some]
  · rw [hm₇, hm₃, Function.update_idem, release_children hr.lock]
  · have hlinked : Linked h₃.prev h₃.next n.prevLeaf [s.heap.length] n.nextLeaf := by
      refine ⟨?_, ?_, trivial⟩
      · unfold Heap.prev
        rw [hnew₃]
        exact congrArg Links.prev hklinks
      · unfold Heap.next
        rw [hnew₃]
        exact congrArg Links.next hklinks
    refine LeafSwap.of_links h₃ (relinkedNode n L s.heap.length s.heap.length [s.heap.length])
      hr.get (by simp) (by simp) rfl rfl (fun x hx => ?_) (fun x hx => ?_)
      (fun x hxL hxN => ?_) (fun x hx => ?_) hlinked (Or.inr rfl) (Or.inr rfl) hd₇ (fun x y => rfl)
      (fun x y hx => relinkedNode_old _ _ _ _ y hx)
    · obtain ⟨_, y, hy, _⟩ := hr.prev x hx
      exact Heap.dataAt_lt hy
    · obtain ⟨_, y, hy⟩ := hr.next x hx
      exact Heap.dataAt_lt hy
    · rw [hd₃, Function.update_of_ne (by simpa using hxN), Function.update_of_ne hxL]
    · rw [List.mem_singleton.mp hx]
      exact ⟨k, hnew₃⟩
  all_goals try rfl
  · show isSet (if n.prevLeaf = some s.heap.length ∨ s.heap.length = s.heap.length then _ else _) =
      false
    rw [if_pos (Or.inr rfl)]
    exact isSet_and_lockMask _
  · exact ⟨hplace.isObsolete, hplace.localDepth, hplace.level, rfl, rfl, rfl, hplace.maxSlots,
      hplace.maxLimit, hplace.minLimit⟩
  · show k.lock + 1#32 - lockSet = _
    rw [hklock]
  · cases t <;> rfl

end Index

/-- A leaf below a model node is resized or retrained. -/
theorem Good.resizeLeaf [NodeModel M] {C : Params M P} {s : Index M P} {live : Set NodeId}
    {par : NodeId → NodeId} {leaves : List NodeId} {key : ℤ} {L : NodeId} {n : DataNode M P}
    (hg : Good s live par leaves) (hL : LeafOf s leaves key L n) (hne : L ≠ s.rootNode)
    (hs : n.Stores C.T) (hp : n.pairs ≠ []) (hlock : isSet (n.lock + 1#32 - lockSet) = false)
    (hready : ∀ x ∈ leaves, x ≠ L → ∀ k, s.heap.dataAt x = some k → k.Ready C.T)
    (t : Option (FTNode M)) :
    ∃ h live' par' leaves', Index.resizeLeaf C s key L t =
        some { s with heap := h, retired := L :: s.retired } ∧
      Good { s with heap := h, retired := L :: s.retired } live' par' leaves' ∧
      Index.Each { s with heap := h, retired := L :: s.retired } leaves' (DataNode.Ready C.T) ∧
      ∀ e, Index.Stored { s with heap := h, retired := L :: s.retired } leaves' e ↔
        s.Stored leaves e := by
  obtain ⟨mid, p, m, hr, _, hcase⟩ := hg.replaceable hL
  obtain ⟨_, hb⟩ := hcase.resolve_left (fun h => hne h.1)
  obtain ⟨h, k, children, hres, _, hmodel, hlen, hchild, hswap, hk, hst, hpairs, hroom,
    hfree, hplace,
    hklock, _⟩ := Index.resizeLeaf_spec hr hs hp t
  obtain ⟨A, B, rfl⟩ := List.append_of_mem hL.1
  obtain ⟨o, ho, hok⟩ := hg.list.leaf L hL.1
  obtain rfl := Option.some.inj (hL.2.1.symm.trans ho)
  have hshape : SameShape m { m with children := children } := ⟨rfl, rfl, rfl, rfl, hlen⟩
  have hlo : k.minLimit = n.minLimit := hplace.minLimit
  have hhi : k.maxLimit = n.maxLimit := hplace.maxLimit
  have hstrict : n.minLimit < n.maxLimit := by
    have := (hg.list.strict L hL.1).resolve_left hne
    rwa [Heap.lo_data hL.2.1, Heap.hi_data hL.2.1] at this
  refine ⟨h, _, _, _, hres, hg.replaceBlock
    hb hr.parent hne hswap rfl rfl hmodel hshape hr.lock hr.current (fun j hj => ?_)
    (fun j h1 h2 => ?_) ?_ (fun x hx => ?_), ?_, ?_⟩
  · rw [hchild, if_neg hj]
  · refine ⟨s.heap.length, _, List.mem_singleton_self _, Heap.frame_data hk, ?_, ?_, ?_, ?_, ?_⟩
    · show k.level = m.level + 1
      rw [hplace.level]
      exact hb.child.level
    · show k.localDepth ≤ log2RoundDown m.numChildren
      rw [hplace.localDepth]
      exact hb.child.depth
    all_goals
      simp only [Frame.localDepth, Frame.lo, Frame.hi, hplace.localDepth, hshape.repeats,
        hshape.blockStart, hshape.edge, DataNode.withLinks]
      rw [ModelNode.blockStart_of_mem (m.repeats_dvd_blockStart _ _) h1 h2]
    · intro j' h3 h4
      rw [hchild, if_pos ⟨h3, h4⟩]
    · rw [hlo]
      exact hb.child.lo
    · rw [hhi]
      exact hb.child.hi
  · refine ⟨?_, ?_⟩
    · rw [Heap.lo_data hk]
      exact hlo
    · rw [Heap.hi_data hk]
      exact hhi
  · rw [List.mem_singleton.mp hx]
    refine ⟨k, hk, by rw [hlo, hhi]; exact hstrict, hfree, fun e he => ?_⟩
    rw [hpairs] at he
    rw [hlo, hhi]
    exact hok.inside e he
  · refine LeafSwap.each hg hswap (fun n l hn => hn.withLinks l)
      (fun x hx hxL k' hk' => hready x hx hxL k' hk') (fun x hx k' hk' => ?_)
    rw [List.mem_singleton.mp hx] at hk'
    obtain rfl := Option.some.inj (hk.symm.trans hk')
    exact ⟨hst, hroom, by rw [hklock]; exact hlock⟩
  · refine LeafSwap.stored hg hswap (fun e => ?_)
    constructor
    · rintro ⟨x, hx, k', hk', he⟩
      rw [List.mem_singleton.mp hx] at hk'
      obtain rfl := Option.some.inj (hk.symm.trans hk')
      rwa [hpairs] at he
    · intro he
      exact ⟨_, List.mem_singleton_self _, k, hk, by rwa [hpairs]⟩

end LearnedIndex.Alexol
