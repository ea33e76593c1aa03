import LearnedIndex.Alexol.LeafSwap

/-! # Leaves that can be replaced

`Replaceable` lists what a resize or a split of a leaf needs of the index around it, and every leaf
of an index that satisfies the invariant has it (`Good.replaceable`).  If the new leaves take over
the block of the old one, the invariant is kept (`Good.replaceBlock`). -/

namespace LearnedIndex.Alexol

open LearnedIndex.Chains

variable {M P : Type}

/-- What replacing the leaf `L` needs: the leaf is at the end of the trail of the key, below `p`,
and none of the locks that are taken is held. -/
structure Replaceable (s : Index M P) (key : ℤ) (mid : List NodeId) (L p : NodeId)
    (n : DataNode M P) (m : ModelNode) : Prop where
  super : ∃ sm, SuperrootOK s sm
  trail : Trail s.heap.frame key (s.superroot :: (mid ++ [L]))
  last : (s.superroot :: mid).getLast? = some p
  get : s.heap.dataAt L = some n
  free : isSet n.linkLock = false
  parent : s.heap.modelAt p = some m
  lock : m.lock = 0#32
  current : m.isObsolete = false
  child : m.getChildNode key = some L
  fit : m.blockStart (m.bucketOf key) n.localDepth + m.repeats n.localDepth ≤ m.children.length
  prev : ∀ x, n.prevLeaf = some x → x ≠ L ∧
    ∃ k, s.heap.dataAt x = some k ∧ isSet k.linkLock = false
  next : ∀ x, n.nextLeaf = some x → x ≠ L ∧ ∃ k, s.heap.dataAt x = some k

namespace Index

variable {s : Index M P} {key : ℤ} {mid : List NodeId} {L p : NodeId} {n : DataNode M P}
  {m : ModelNode}

/-- An index whose old nodes lead the key as before. -/
theorem trail_of_same {h h' : Heap M P} {l : List NodeId} (htr : Trail h.frame key l)
    (hmodel : ∀ x k, h.modelAt x = some k → h'.modelAt x = some k)
    (hdata : ∀ x k, h.dataAt x = some k → ∃ k', h'.dataAt x = some k') : Trail h'.frame key l := by
  refine htr.congr (fun x _ k hk => ?_) (fun x _ level d lo hi hf => ?_)
  · exact ⟨k, Heap.frame_model (hmodel x k (Heap.modelAt_of_frame hk)), rfl⟩
  · obtain ⟨k, hk, _⟩ := Heap.frame_leaf.mp hf
    obtain ⟨k', hk'⟩ := hdata x k (Heap.dataAt_eq_some.mpr hk)
    exact ⟨_, _, _, _, Heap.frame_data hk'⟩

/-- `lock_parent_node` after nodes have been added and data nodes have been changed. -/
theorem lockParentNode_eq [NodeModel M] (hr : Replaceable s key mid L p n m) {h : Heap M P}
    (hmodel : h.modelAt = s.heap.modelAt)
    (hdata : ∀ x k, s.heap.dataAt x = some k → ∃ k', h.dataAt x = some k') :
    lockParentNode { s with heap := h } key L =
      some (p, m.bucketOf key, { s with heap := h.setModel p m.reading }) := by
  obtain ⟨sm, hsm⟩ := hr.super
  have hget : h.modelAt p = some m := by rw [hmodel]; exact hr.parent
  have hsuper : SuperrootOK { s with heap := h } sm :=
    ⟨by show h.modelAt s.superroot = some sm; rw [hmodel]; exact hsm.get, hsm.numChildren,
      hsm.children, hsm.lock, hsm.current⟩
  have htr : Trail h.frame key (s.superroot :: (mid ++ [L])) :=
    trail_of_same hr.trail (fun x k hk => by rw [hmodel]; exact hk) hdata
  obtain ⟨p', m', hlock, hlast, hm', _⟩ := lockParentNode_trail (s := { s with heap := h }) hsuper
    htr (fun q mq hq hmq => by
      obtain rfl := Option.some.inj (hr.last.symm.trans hq)
      obtain rfl := Option.some.inj (hget.symm.trans hmq)
      exact ⟨hr.lock, hr.current⟩)
  obtain rfl := Option.some.inj (hr.last.symm.trans hlast)
  obtain rfl := Option.some.inj (hget.symm.trans hm')
  exact hlock

end Index

/-! ### In an index that satisfies the invariant -/

namespace Good

variable {s : Index M P} {live : Set NodeId} {par : NodeId → NodeId}
  {leaves : List NodeId} {key : ℤ} {L p : NodeId} {n : DataNode M P} {m : ModelNode}

/-- The trail of a key ends in its leaf. -/
theorem trail_leaf [NodeModel M] (hg : Good s live par leaves) (hL : LeafOf s leaves key L n) :
    ∃ mid, Trail s.heap.frame key (s.superroot :: (mid ++ [L])) ∧ (∀ x ∈ mid, x ∈ live) ∧
      (L = s.rootNode → mid = []) := by
  obtain ⟨sm, hsm⟩ := hg.super
  obtain ⟨l, f, hf, htr, _, hall⟩ := hg.trail key
  have hinside : ∀ x ∈ s.rootNode :: l, ∀ k, s.heap.dataAt x = some k →
      LeafOf s leaves key x k := by
    intro x hx k hk
    rcases List.mem_cons.mp hx with rfl | hx
    · refine ⟨(hg.mem _).mpr ⟨hg.tree.root_mem, k, hk⟩, hk, ?_⟩
      rw [Heap.lo_data hk, Heap.hi_data hk]
      exact inside_self _ _ key
    · obtain ⟨hxl, f', hf', _, hin⟩ := hall x hx
      obtain rfl := Option.some.inj ((Heap.frame_data hk).symm.trans hf')
      exact ⟨(hg.mem x).mpr ⟨hxl, k, hk⟩, hk, hin⟩
  have hlive : ∀ x ∈ s.rootNode :: l, x ∈ live := by
    intro x hx
    rcases List.mem_cons.mp hx with rfl | hx
    · exact hg.tree.root_mem
    · exact (hall x hx).1
  -- the last node of the trail is a leaf with the key in its range
  obtain ⟨mid, x, hmid⟩ : ∃ mid x, s.rootNode :: l = mid ++ [x] :=
    ⟨_, _, (List.dropLast_append_getLast (by simp)).symm⟩
  have hlast : ∃ k, s.heap.dataAt x = some k := by
    rw [hmid] at htr
    obtain ⟨level, d, lo, hi, hx⟩ := htr.suffix
    obtain ⟨k, hk, _⟩ := Heap.frame_leaf.mp hx
    exact ⟨k, Heap.dataAt_eq_some.mpr hk⟩
  obtain ⟨k, hk⟩ := hlast
  have hx := hinside x (by rw [hmid]; simp) k hk
  obtain rfl : L = x := hg.list.unique hL.1 hx.1 hL.2.1 hx.2.1 hL.2.2 hx.2.2
  refine ⟨mid, ?_, fun y hy => hlive y (by rw [hmid]; simp [hy]), fun hroot => ?_⟩
  · rw [← hmid]
    exact ⟨⟨sm, Heap.frame_model hsm.get, (Index.SuperrootOK.getChildNode hsm key).1⟩, htr⟩
  · cases mid with
    | nil => rfl
    | cons y mid =>
        obtain ⟨rfl, rfl⟩ := List.cons.inj hmid
        have hnd := htr.nodup
        rw [hroot] at hnd
        simp at hnd

/-- Where a leaf sits: it is the root, below the superroot, or the child of a live node. -/
structure Below (s : Index M P) (live : Set NodeId) (key : ℤ) (L p : NodeId) (n : DataNode M P)
    (m : ModelNode) : Prop where
  mem : p ∈ live
  ok : ModelOK s.heap.frame live m
  child : ChildAt s.heap.frame m (m.bucketOf key) L
    (.leaf n.level n.localDepth n.minLimit n.maxLimit)

/-- A leaf can be replaced. -/
theorem replaceable [NodeModel M] (hg : Good s live par leaves) (hL : LeafOf s leaves key L n) :
    ∃ mid p m, Replaceable s key mid L p n m ∧ (∀ x ∈ mid, x ∈ live) ∧
      ((L = s.rootNode ∧ p = s.superroot) ∨ (L ≠ s.rootNode ∧ Below s live key L p n m)) := by
  obtain ⟨mid, htr, hmid, hroot⟩ := hg.trail_leaf hL
  obtain ⟨sm, hsm⟩ := hg.super
  obtain ⟨hLm, hn, _⟩ := hL
  obtain ⟨n', hn', hok⟩ := hg.list.leaf L hLm
  obtain rfl := Option.some.inj (hn.symm.trans hn')
  obtain ⟨p, m, _, hlast, hm, hchild⟩ := Index.parentOf_trail hsm htr
  have hprev : ∀ x, n.prevLeaf = some x → x ≠ L ∧
      ∃ k, s.heap.dataAt x = some k ∧ isSet k.linkLock = false := by
    intro x hx
    obtain ⟨hxm, hne, k, hk, _⟩ := hg.list.prev hLm hn hx
    obtain ⟨k', hk', hok'⟩ := hg.list.leaf x hxm
    obtain rfl := Option.some.inj (hk.symm.trans hk')
    exact ⟨hne, k, hk, hok'.linkFree⟩
  have hnext : ∀ x, n.nextLeaf = some x → x ≠ L ∧ ∃ k, s.heap.dataAt x = some k := by
    intro x hx
    obtain ⟨_, hne, k, hk, _⟩ := hg.list.next hLm hn hx
    exact ⟨hne, k, hk⟩
  by_cases hLr : L = s.rootNode
  · obtain rfl := hroot hLr
    obtain rfl : s.superroot = p := by simpa using hlast
    obtain rfl := Option.some.inj (hsm.get.symm.trans hm)
    have hb := (Index.SuperrootOK.getChildNode hsm key).2
    refine ⟨[], s.superroot, sm,
      ⟨⟨sm, hsm⟩, htr, hlast, hn, hok.linkFree, hm, hsm.lock, hsm.current,
      hchild, ?_, hprev, hnext⟩, by simp, Or.inl ⟨hLr, rfl⟩⟩
    rw [hb, sm.blockStart_zero, hsm.children, Nat.zero_add]
    unfold ModelNode.repeats
    rw [hsm.numChildren]
    have : log2RoundDown 1 = 0 := log2RoundDown_two_pow 0
    rw [this, Nat.zero_sub]
    exact le_refl _
  · have hpl : p ∈ live := by
      cases mid with
      | nil =>
          obtain rfl : s.superroot = p := by simpa using hlast
          obtain rfl := Option.some.inj (hsm.get.symm.trans hm)
          have := (Index.SuperrootOK.getChildNode hsm key).1
          exact absurd (Option.some.inj (hchild.symm.trans this)) hLr
      | cons y mid =>
          rw [List.getLast?_cons_cons] at hlast
          exact hmid p (List.mem_of_getLast? hlast)
    have hmok := hg.tree.model p hpl m (Heap.frame_model hm)
    obtain ⟨_, f, hca⟩ := hmok.childAt hchild
    obtain rfl := Option.some.inj ((Heap.frame_data hn).symm.trans hca.get)
    obtain ⟨hlock, hcur⟩ := hg.free p hpl m hm
    obtain ⟨g, hg'⟩ := hmok.size
    refine ⟨mid, p, m, ⟨⟨sm, hsm⟩, htr, hlast, hn, hok.linkFree, hm, hlock, hcur, hchild, ?_, hprev,
      hnext⟩, hmid, Or.inr ⟨hLr, hpl, hmok, hca⟩⟩
    rw [hmok.length]
    exact m.blockStart_add_le hg' (m.bucketOf_lt hmok.pos key)

/-- An index in which a leaf is not the root has a model node as root. -/
theorem root_model (hg : Good s live par leaves) (hL : L ∈ leaves) (hne : L ≠ s.rootNode) :
    ∃ m, s.heap.modelAt s.rootNode = some m := by
  obtain ⟨f, hf, _⟩ := hg.root_frame
  cases f with
  | node m => exact ⟨m, Heap.modelAt_of_frame hf⟩
  | leaf level d lo hi =>
      obtain ⟨k, hk, _⟩ := Heap.frame_leaf.mp hf
      have hmem := (hg.mem _).mpr ⟨hg.tree.root_mem, k, Heap.dataAt_eq_some.mpr hk⟩
      have hL' := hg.list.single hmem ▸ hL
      exact absurd (List.mem_singleton.mp hL') hne

variable {s' : Index M P} {A B N : List NodeId} {m' : ModelNode}

/-- The root keeps its key range when the slots of one model node change. -/
theorem root_kept (hg : Good s live par leaves) (hL : L ∈ leaves) (hne : L ≠ s.rootNode)
    (hm : s.heap.modelAt p = some m) {h : Heap M P} (hget : h.frame p = some (.node m'))
    (hshape : SameShape m m')
    (hold : ∀ x ∈ live, x ≠ p → x ≠ L → h.frame x = s.heap.frame x) :
    (∃ mr, h.modelAt s.rootNode = some mr) ∧ h.lo s.rootNode = s.heap.lo s.rootNode ∧
      h.hi s.rootNode = s.heap.hi s.rootNode := by
  obtain ⟨rm, hrm⟩ := hg.root_model hL hne
  have hrf := Heap.frame_model hrm
  by_cases hrp : s.rootNode = p
  · have hsame : SameFrame (.node m) (.node m') := Or.inr ⟨m, m', rfl, rfl, hshape⟩
    obtain ⟨_, _, hlo, hhi⟩ := hsame.place
    have hmf := Heap.frame_model hm
    rw [hrp, Heap.lo_frame hget, Heap.hi_frame hget, Heap.lo_frame hmf, Heap.hi_frame hmf]
    exact ⟨⟨m', Heap.modelAt_of_frame hget⟩, hlo, hhi⟩
  · have hf := (hold s.rootNode hg.tree.root_mem hrp (fun h => hne h.symm)).trans hrf
    rw [Heap.lo_frame hf, Heap.hi_frame hf, Heap.lo_frame hrf, Heap.hi_frame hrf]
    exact ⟨⟨rm, Heap.modelAt_of_frame hf⟩, rfl, rfl⟩

/-- New leaves take over the block of a leaf. -/
theorem replaceBlock (hg : Good s live par (A ++ L :: B)) (hb : Below s live key L p n m)
    (hm : s.heap.modelAt p = some m) (hne : L ≠ s.rootNode) (hs : LeafSwap s.heap s'.heap L n N)
    (hroot : s'.rootNode = s.rootNode) (hsuper : s'.superroot = s.superroot)
    (hmodel : s'.heap.modelAt = Function.update s.heap.modelAt p (some m'))
    (hshape : SameShape m m') (hlock : m'.lock = 0#32) (hcur : m'.isObsolete = false)
    (hout : ∀ j, ¬ (m.blockStart (m.bucketOf key) n.localDepth ≤ j ∧
      j < m.blockStart (m.bucketOf key) n.localDepth + m.repeats n.localDepth) →
      m'.childAt j = m.childAt j)
    (hin : ∀ j, m.blockStart (m.bucketOf key) n.localDepth ≤ j →
      j < m.blockStart (m.bucketOf key) n.localDepth + m.repeats n.localDepth →
      ∃ c f, c ∈ N ∧ ChildAt s'.heap.frame m' j c f)
    (hspans : Spans s'.heap.lo s'.heap.hi n.minLimit N n.maxLimit)
    (hnew : ∀ x ∈ N, ∃ k, s'.heap.dataAt x = some k ∧ k.minLimit < k.maxLimit ∧
      LeafOK (s.heap.lo s.rootNode) (s.heap.hi s.rootNode) k) :
    Good s' ((live \ {L}) ∪ {x | x ∈ N}) (fun c => if c ∈ N then p else par c)
      (A ++ N ++ B) := by
  have hfresh : ∀ x ∈ N, x ∉ live := fun x hx hl =>
    absurd (hg.lt_length x hl) (Nat.not_lt.mpr (hs.fresh x hx))
  have hpN : p ∉ N := fun h => hfresh p h hb.mem
  have hmodelN : ∀ x ∈ N, s'.heap.modelAt x = none := by
    intro x hx
    obtain ⟨k, hk, _⟩ := hnew x hx
    exact Heap.modelAt_of_data hk
  have hold : ∀ x ∈ live, x ≠ p → x ≠ L → s'.heap.frame x = s.heap.frame x := by
    intro x hx hxp hxL
    refine hs.frame_old hxL (fun h => hfresh x h hx) ?_
    rw [hmodel, Function.update_of_ne hxp]
  have hget : s'.heap.frame p = some (.node m') :=
    Heap.frame_model (by rw [hmodel, Function.update_self])
  have hrootL : s.rootNode ≠ L := fun h => hne h.symm
  -- the root keeps its range
  have hrange : (∃ m, s'.heap.modelAt s'.rootNode = some m) ∧
      s'.heap.lo s'.rootNode = s.heap.lo s.rootNode ∧
      s'.heap.hi s'.rootNode = s.heap.hi s.rootNode := by
    rw [hroot]
    exact hg.root_kept (by simp : L ∈ A ++ L :: B) hne hm hget hshape hold
  have htree : Tree s'.heap.frame s.rootNode ((live \ {L}) ∪ {x | x ∈ N})
      (fun c => if c ∈ N then p else par c) := by
    refine hg.tree.replace hb.mem (Heap.frame_model hm) hb.child
      ⟨rfl, hfresh, hrootL, hold, hget, hshape, hout, fun j h1 h2 => ?_, fun x hx => ?_,
        fun c hc _ => if_neg (fun h => hfresh c h hc)⟩
    · obtain ⟨c, f, hc, hca⟩ := hin j h1 h2
      exact ⟨c, f, hc, hca, if_pos hc⟩
    · obtain ⟨k, hk, _⟩ := hnew x hx
      exact ⟨_, Heap.frame_data hk, by rintro mx ⟨⟩⟩
  obtain ⟨sm, hsm⟩ := hg.super
  have hps : s.superroot ≠ p := fun h => hg.super_ne (h ▸ hb.mem)
  refine hg.swap hs (hroot ▸ htree) hrange.2.1 hrange.2.2 hrange.1 hspans hnew
    (fun x k _ => Iff.rfl)
    (fun x hx mx hmx => ?_) ⟨sm, ?_, hsm.numChildren, ?_, hsm.lock, hsm.current⟩ ?_
  · by_cases hxp : x = p
    · rw [hxp, hmodel, Function.update_self] at hmx
      obtain rfl := Option.some.inj hmx
      exact ⟨hlock, hcur⟩
    · rcases hx with ⟨hx, _⟩ | hx
      · rw [hmodel, Function.update_of_ne hxp] at hmx
        exact hg.free x hx mx hmx
      · rw [hmodelN x hx] at hmx
        cases hmx
  · rw [hsuper, hmodel, Function.update_of_ne hps]
    exact hsm.get
  · rw [hroot]
    exact hsm.children
  · rw [hsuper]
    rintro (⟨hx, _⟩ | hx)
    · exact hg.super_ne hx
    · exact absurd (Heap.modelAt_lt hsm.get) (Nat.not_lt.mpr (hs.fresh _ hx))

end Good

end LearnedIndex.Alexol
