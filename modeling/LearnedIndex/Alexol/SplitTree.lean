import LearnedIndex.Alexol.Split

/-! # The tree after a split

Each outcome of a split keeps the invariant of the index: the new leaves hang below the parent of
the old leaf (`Good.splitSideways`), below an expanded copy of it (`Good.splitExpanded`), or below a
new model node at the place of the old leaf (`Good.splitDownwards`), which is the new root if the
old leaf was the root (`Good.splitRoot`). -/

namespace LearnedIndex.Alexol

open LearnedIndex.Chains LearnedIndex.Dyadic

variable {M P : Type}

/-- The index `s'` satisfies the invariant and stores the pairs of `s`. -/
def Index.Renewed (T : KeyType) (s : Index M P) (leaves : List NodeId) (s' : Index M P) : Prop :=
  ∃ live' par' leaves', Good s' live' par' leaves' ∧ s'.Each leaves' (DataNode.Ready T) ∧
    ∀ e, s'.Stored leaves' e ↔ s.Stored leaves e

variable {T : KeyType} {s s' : Index M P} {live : Set NodeId} {par : NodeId → NodeId}
  {A B : List NodeId} {key : ℤ} {mid : List NodeId} {L p : NodeId} {n : DataNode M P}
  {m : ModelNode} {h₁ : Heap M P} {g d D start : ℕ} {parts : List (NodeId × ℕ)}

/-- The leaves that stay have room and are not locked. -/
def OthersReady (T : KeyType) (s : Index M P) (leaves : List NodeId) (L : NodeId) : Prop :=
  ∀ x ∈ leaves, x ≠ L → ∀ k, s.heap.dataAt x = some k → k.Ready T

/-- An outcome of a split with a tree of its own stores the pairs of the old index. -/
theorem Index.Outcome.renewed (ho : Index.Outcome T s s'.heap L n m g d D start parts)
    (hg : Good s live par (A ++ L :: B)) (hb : Block m n g d D start) (hs : n.Stores T)
    (hready : OthersReady T s (A ++ L :: B) L) {live' : Set NodeId} {par' : NodeId → NodeId}
    (hgood : Good s' live' par' (A ++ parts.map Prod.fst ++ B)) :
    s.Renewed T (A ++ L :: B) s' := by
  refine ⟨live', par', _, hgood, ?_, ?_⟩
  · exact LeafSwap.each hg ho.swap (fun k l hk => hk.withLinks l) hready
      (fun x hx k hk => ho.leaves.ready hx hk)
  · exact LeafSwap.stored hg ho.swap (ho.leaves.pairs_iff hb hs)

/-- The pairs of a leaf lie in its range. -/
theorem Good.inside_of_leaf (hg : Good s live par (A ++ L :: B)) (hn : s.heap.dataAt L = some n) :
    ∀ e ∈ n.pairs, Inside (s.heap.lo s.rootNode) (s.heap.hi s.rootNode) n.minLimit n.maxLimit
      e.1 := by
  obtain ⟨o, ho, hok⟩ := hg.list.leaf L (by simp)
  obtain rfl := Option.some.inj (hn.symm.trans ho)
  exact hok.inside

/-! ### Sideways -/

/-- The new leaves take over the block below the parent. -/
theorem Good.splitSideways (hg : Good s live par (A ++ L :: B))
    (hr : Replaceable s key mid L p n m) (hb : Good.Below s live key L p n m)
    (hne : L ≠ s.rootNode) (hs : n.Stores T) (hready : OthersReady T s (A ++ L :: B) L)
    (hc : Created T s.heap h₁ L n D parts) {g : ℕ} (hsize : m.numChildren = 2 ^ g)
    (hD : n.localDepth + D ≤ g) :
    ∃ s', Index.splitSideways { s with heap := h₁.setModel p m.reading } L p (m.bucketOf key) parts
        ModelNode.releaseReadLock = some s' ∧ s.Renewed T (A ++ L :: B) s' := by
  have hp₁ : h₁.modelAt p = some m := by rw [hc.model]; exact hr.parent
  have hbl : Block m n g n.localDepth D (m.blockStart (m.bucketOf key) n.localDepth) :=
    Block.of_child hb.ok hsize hb.child (m.bucketOf_lt hb.ok.pos key) hD
  have hread : SameShape m m.reading := ⟨rfl, rfl, rfl, rfl, rfl⟩
  obtain ⟨h', children, hsplit, _, hmodel, hgiven, hout⟩ := Index.splitSideways_spec hr hc
    (t := { s with heap := h₁.setModel p m.reading }) (Heap.dataAt_setModel hp₁ _)
    (q := p)
    (show (h₁.setModel p m.reading).modelAt p = some m.reading by
      rw [Heap.modelAt_setModel hp₁, Function.update_self])
    (hbl.of_shape hread) hb.ok.length ModelNode.releaseReadLock
  have hmodel' : h'.modelAt = Function.update s.heap.modelAt p
      (some { m with children := children }) := by
    rw [hmodel]
    show Function.update (Heap.modelAt (h₁.setModel p m.reading)) p _ = _
    rw [Heap.modelAt_setModel hp₁, Function.update_idem, hc.model, Index.release_children hr.lock]
  have hshape : SameShape m { m with children := children } :=
    ⟨rfl, rfl, rfl, rfl, hgiven.shape.length⟩
  have hrep : m.repeats n.localDepth = 2 ^ (g - n.localDepth) := ModelNode.repeats_eq hsize
  refine ⟨_, hsplit, hout.renewed hg (hbl.of_shape hread) hs hready
    (hg.replaceBlock hb hr.parent hne hout.swap rfl rfl hmodel' hshape hr.lock hr.current
      (fun j hj => ?_) (fun j h1 h2 => ?_) (hout.leaves.spans (hbl.of_shape hread))
      (hout.leaves.leafOK (hbl.of_shape hread) hs (hg.inside_of_leaf hr.get)))⟩
  · rw [hrep] at hj
    exact hgiven.outside j hj
  · rw [hrep] at h2
    exact hout.leaves.childAt (hbl.of_shape hread)
      (show SameShape m.reading { m with children := children } from
        ⟨rfl, rfl, rfl, rfl, hgiven.shape.length⟩) hgiven.slots h1 h2

/-! ### Sideways below an expanded parent -/

/-- Where the parent `p` of a leaf sits: it is the root, or the child of a live node. -/
def ParentPlace (s : Index M P) (live : Set NodeId) (key : ℤ) (p gp : NodeId) (m mg : ModelNode) :
    Prop :=
  (p = s.rootNode ∧ gp = s.superroot) ∨
    (gp ∈ live ∧ ModelOK s.heap.frame live mg ∧
      ChildAt s.heap.frame mg (mg.bucketOf key) p (.node m))

/-- The parent of a leaf can be expanded. -/
theorem Good.expandable [NodeModel M] {leaves : List NodeId} (hg : Good s live par leaves)
    (hr : Replaceable s key mid L p n m) (hmid : ∀ x ∈ mid, x ∈ live) (hp : p ∈ live) :
    ∃ mid' gp mg, mid = mid' ++ [p] ∧ Index.Expandable s key mid' p gp m mg ∧
      ParentPlace s live key p gp m mg := by
  obtain ⟨sm, hsm⟩ := hr.super
  have hps : p ≠ s.superroot := fun h => hg.super_ne (h ▸ hp)
  obtain ⟨mid', rfl⟩ : ∃ mid', mid = mid' ++ [p] := by
    rcases List.eq_nil_or_concat mid with rfl | ⟨mid', x, rfl⟩
    · exact absurd (by simpa using hr.last.symm) hps
    · have hlast := hr.last
      rw [List.concat_eq_append, ← List.cons_append, List.getLast?_concat] at hlast
      obtain rfl := Option.some.inj hlast
      exact ⟨mid', List.concat_eq_append⟩
  have htr := hr.trail
  rcases List.eq_nil_or_concat mid' with rfl | ⟨mid'', gp, rfl⟩
  · obtain ⟨⟨m', hm', hchild⟩, _⟩ := htr
    obtain rfl := Option.some.inj (hsm.get.symm.trans (Heap.modelAt_of_frame hm'))
    obtain ⟨hroot, hb0⟩ := Index.SuperrootOK.getChildNode hsm key
    obtain rfl : s.rootNode = p := Option.some.inj (hroot.symm.trans hchild)
    have hlen : sm.children.length = 1 := by rw [hsm.children]; rfl
    refine ⟨[], s.superroot, sm, rfl, ⟨rfl, ⟨hps, hps.symm⟩, hsm.get, hsm.lock, hsm.current, hroot,
      ?_, fun _ => ⟨hsm.numChildren, hlen⟩⟩, Or.inl ⟨rfl, rfl⟩⟩
    have hg0 : sm.numChildren = 2 ^ 0 := hsm.numChildren
    rw [hlen, ← hsm.numChildren]
    exact sm.blockStart_add_le hg0 (by rw [hb0, hsm.numChildren]; exact Nat.one_pos)
  · rw [List.concat_eq_append] at htr hmid ⊢
    have hgl : gp ∈ live := hmid gp (by simp)
    obtain ⟨mg, hmg, hchild⟩ : ∃ mg, s.heap.frame gp = some (.node mg) ∧
        mg.getChildNode key = some p := by
      have htr' : Trail s.heap.frame key ((s.superroot :: mid'') ++ gp :: p :: [L]) := by
        simpa using htr
      exact htr'.node_of_next
    have hmgOK := hg.tree.model gp hgl mg hmg
    obtain ⟨_, f, hca⟩ := hmgOK.childAt hchild
    obtain rfl := Option.some.inj ((Heap.frame_model hr.parent).symm.trans hca.get)
    obtain ⟨hlock, hcur⟩ := hg.free gp hgl mg (Heap.modelAt_of_frame hmg)
    obtain ⟨g, hsize⟩ := hmgOK.size
    refine ⟨mid'' ++ [gp], gp, mg, rfl, ⟨?_, ⟨hps, (Tree.child_ne hmg hca).symm⟩,
      Heap.modelAt_of_frame hmg, hlock, hcur, hchild, ?_, fun h => ?_⟩, Or.inr ⟨hgl, hmgOK, hca⟩⟩
    · rw [← List.cons_append, List.getLast?_concat]
    · rw [hmgOK.length]
      exact mg.blockStart_add_le hsize (mg.bucketOf_lt hmgOK.pos key)
    · exact absurd (h ▸ hgl) hg.super_ne

/-- The frames when the node `w` has taken the place of the parent below `gp`, which is now `mg`. -/
def expandedFrame (F : NodeId → Option Frame) (w gp : NodeId) (me mg : ModelNode) (x : NodeId) :
    Option Frame :=
  if x = w then some (.node me) else if x = gp then some (.node mg) else F x

/-- The tree in which an expanded copy has taken the place of the parent. -/
theorem Good.expandTree {leaves : List NodeId} (hg : Good s live par leaves) {gp w : NodeId}
    {mg : ModelNode} (hp : p ∈ live) (hm : s.heap.modelAt p = some m)
    (hplace : ParentPlace s live key p gp m mg) (hgp : s.heap.modelAt gp = some mg)
    (hw : s.heap.length ≤ w) (k : ℕ) {mg' : ModelNode}
    (hshape : gp ≠ s.superroot → SameShape mg mg')
    (hslots : ∀ j, mg'.childAt j = if mg.blockStart (mg.bucketOf key) m.localDepth ≤ j ∧
      j < mg.blockStart (mg.bucketOf key) m.localDepth + mg.repeats m.localDepth then some w
      else mg.childAt j) :
    ∃ par', Tree (expandedFrame s.heap.frame w gp (m.expand k) mg')
      (if gp = s.superroot then w else s.rootNode) ((live \ {p}) ∪ {w}) par' := by
  have hnew : w ∉ live := fun h => absurd (hg.lt_length w h) (Nat.not_lt.mpr hw)
  have hne : ∀ x ∈ live, x ≠ w := fun x hx h => hnew (h ▸ hx)
  have hget : expandedFrame s.heap.frame w gp (m.expand k) mg' w = some (.node (m.expand k)) :=
    if_pos rfl
  have hsame : ∀ x ∈ live, x ≠ gp →
      expandedFrame s.heap.frame w gp (m.expand k) mg' x = s.heap.frame x := by
    intro x hx hxg
    unfold expandedFrame
    rw [if_neg (hne x hx), if_neg hxg]
  rcases hplace with ⟨rfl, rfl⟩ | ⟨hgl, _, hca⟩
  · rw [if_pos rfl]
    exact ⟨_, hg.tree.expandTop (Heap.frame_model hm) k hnew rfl
      (fun x hx _ => hsame x hx (fun h => hg.super_ne (h ▸ hx))) hget⟩
  · have hgs : gp ≠ s.superroot := fun h => hg.super_ne (h ▸ hgl)
    rw [if_neg hgs]
    refine ⟨_, hg.tree.expand hgl (Heap.frame_model hgp) (Heap.frame_model hm) hca k hnew rfl
      (fun x hx hxg _ => hsame x hx hxg) hget ?_ (hshape hgs) hslots⟩
    unfold expandedFrame
    rw [if_neg (hne gp hgl), if_pos rfl]

/-- What the arena looks like after a split below the expanded copy `w` of the parent. -/
structure ExpandedTo (s s' : Index M P) (w gp p : NodeId) (k : ℕ) (m mg' : ModelNode)
    (children : List (Option NodeId)) : Prop where
  root : s'.rootNode = if gp = s.superroot then w else s.rootNode
  super : s'.superroot = s.superroot
  fresh : s.heap.length ≤ w
  model : ∀ x, x ≠ p → s'.heap.modelAt x =
    if x = w then some { m.expand k with children := children }
    else if x = gp then some mg' else s.heap.modelAt x
  gone : ∀ x k, s'.heap.dataAt x = some k → x ≠ p

namespace ExpandedTo

variable {w gp : NodeId} {k : ℕ} {mg mg' : ModelNode} {children : List (Option NodeId)}

theorem frame_copy (he : ExpandedTo s s' w gp p k m mg' children) (hp : p < s.heap.length) :
    s'.heap.frame w = some (.node { m.expand k with children := children }) := by
  refine Heap.frame_model ?_
  rw [he.model w (fun h => absurd hp (Nat.not_lt.mpr (h ▸ he.fresh))), if_pos rfl]

/-- The other live nodes are those of the tree with the expanded copy. -/
theorem frame_old (he : ExpandedTo s s' w gp p k m mg' children) {N : List NodeId}
    (hswap : LeafSwap s.heap s'.heap L n N) {x : NodeId} (hx : x < s.heap.length) (hxp : x ≠ p)
    (hxL : x ≠ L) :
    s'.heap.frame x = expandedFrame s.heap.frame w gp (m.expand k) mg' x := by
  have hxw : x ≠ w := fun h => absurd hx (Nat.not_lt.mpr (h ▸ he.fresh))
  have hxN : x ∉ N := fun h => absurd hx (Nat.not_lt.mpr (hswap.fresh x h))
  have hmod := he.model x hxp
  rw [if_neg hxw] at hmod
  unfold expandedFrame
  rw [if_neg hxw]
  by_cases hxg : x = gp
  · rw [if_pos hxg] at hmod ⊢
    exact Heap.frame_model hmod
  · rw [if_neg hxg] at hmod ⊢
    exact hswap.frame_old hxL hxN hmod

/-- The root has the key range it had. -/
theorem range (he : ExpandedTo s s' w gp p k m mg' children) {leaves : List NodeId}
    (hg : Good s live par leaves) {N : List NodeId} (hswap : LeafSwap s.heap s'.heap L n N)
    (hL : L ≠ s.rootNode) (hm : s.heap.modelAt p = some m)
    (hplace : ParentPlace s live key p gp m mg) (hgp : s.heap.modelAt gp = some mg)
    (hshape : gp ≠ s.superroot → SameShape mg mg') (hLm : L ∈ leaves) :
    (∃ mr, s'.heap.modelAt s'.rootNode = some mr) ∧
      s'.heap.lo s'.rootNode = s.heap.lo s.rootNode ∧
      s'.heap.hi s'.rootNode = s.heap.hi s.rootNode := by
  rcases hplace with ⟨rfl, rfl⟩ | ⟨hgl, _, hca⟩
  · have hw := he.frame_copy (Heap.modelAt_lt hm)
    have hf := Heap.frame_model hm
    obtain ⟨hlo, hhi⟩ := Tree.expand_frame m k
    rw [he.root, if_pos rfl, Heap.lo_frame hw, Heap.hi_frame hw, Heap.lo_frame hf,
      Heap.hi_frame hf]
    exact ⟨⟨_, Heap.modelAt_of_frame hw⟩, hlo, hhi⟩
  · have hgs : gp ≠ s.superroot := fun h => hg.super_ne (h ▸ hgl)
    have hrp : s.rootNode ≠ p := fun h =>
      hg.tree.root_free gp hgl mg _ (Heap.frame_model hgp) (h ▸ hca.child)
    obtain ⟨rm, hrm⟩ := hg.root_model hLm hL
    have hrl := hg.lt_length _ hg.tree.root_mem
    have hf := he.frame_old hswap hrl hrp hL.symm
    have hrf := Heap.frame_model hrm
    have hrw : s.rootNode ≠ w := fun h => absurd hrl (Nat.not_lt.mpr (h ▸ he.fresh))
    unfold expandedFrame at hf
    rw [if_neg hrw] at hf
    rw [he.root, if_neg hgs]
    by_cases hrg : s.rootNode = gp
    · rw [if_pos hrg] at hf
      obtain rfl : mg = rm := Option.some.inj (hgp.symm.trans (hrg ▸ hrm))
      have hsame : SameFrame (.node mg) (.node mg') := Or.inr ⟨mg, mg', rfl, rfl, hshape hgs⟩
      obtain ⟨_, _, hlo, hhi⟩ := hsame.place
      rw [Heap.lo_frame hf, Heap.hi_frame hf, Heap.lo_frame hrf, Heap.hi_frame hrf]
      exact ⟨⟨_, Heap.modelAt_of_frame hf⟩, hlo, hhi⟩
    · rw [if_neg hrg] at hf
      rw [Heap.lo_frame (hf.trans hrf), Heap.hi_frame (hf.trans hrf), Heap.lo_frame hrf,
        Heap.hi_frame hrf]
      exact ⟨⟨_, Heap.modelAt_of_frame (hf.trans hrf)⟩, rfl, rfl⟩

end ExpandedTo

/-- The new leaves take over the block of the old one below the expanded copy of its parent. -/
theorem Good.replaceExpanded {w gp : NodeId} {k : ℕ} {mg mg' : ModelNode}
    {children : List (Option NodeId)} {N : List NodeId} (hg : Good s live par (A ++ L :: B))
    (he : ExpandedTo s s' w gp p k m mg' children) (hb : Good.Below s live key L p n m)
    (hm : s.heap.modelAt p = some m) (hlock : m.lock = 0#32) (hne : L ≠ s.rootNode)
    (hplace : ParentPlace s live key p gp m mg) (hgp : s.heap.modelAt gp = some mg)
    (hshape : gp ≠ s.superroot → SameShape mg mg')
    (hfree : mg'.lock = 0#32 ∧ mg'.isObsolete = false)
    (hone : gp = s.superroot → mg'.numChildren = 1 ∧ mg'.children = [some w])
    (hslots : ∀ j, mg'.childAt j = if mg.blockStart (mg.bucketOf key) m.localDepth ≤ j ∧
      j < mg.blockStart (mg.bucketOf key) m.localDepth + mg.repeats m.localDepth then some w
      else mg.childAt j)
    (hs : LeafSwap s.heap s'.heap L n N) {start e : ℕ}
    (hstart : start = (m.expand k).blockStart (m.bucketOf key * 2 ^ k) n.localDepth)
    (hstop : e = start + (m.expand k).repeats n.localDepth)
    (hlen : children.length = (m.expand k).children.length)
    (hout : ∀ j, ¬ (start ≤ j ∧ j < e) →
      ({ m.expand k with children := children } : ModelNode).childAt j = (m.expand k).childAt j)
    (hin : ∀ j, start ≤ j → j < e → ∃ c f, c ∈ N ∧
      ChildAt s'.heap.frame { m.expand k with children := children } j c f)
    (hspans : Spans s'.heap.lo s'.heap.hi n.minLimit N n.maxLimit)
    (hnew : ∀ x ∈ N, ∃ k, s'.heap.dataAt x = some k ∧ k.minLimit < k.maxLimit ∧
      LeafOK (s.heap.lo s.rootNode) (s.heap.hi s.rootNode) k) :
    ∃ live' par', Good s' live' par' (A ++ N ++ B) := by
  subst hstop
  subst hstart
  have hpl := hb.mem
  have hplt := Heap.modelAt_lt hm
  have hwp : w ≠ p := fun h => absurd hplt (Nat.not_lt.mpr (h ▸ he.fresh))
  have hLlive : L ∈ live := ((hg.mem L).mp (by simp)).1
  have hLp : L ≠ p := Tree.child_ne (Heap.frame_model hm) hb.child
  have hLw : L ≠ w := fun h => absurd (hg.lt_length L hLlive) (Nat.not_lt.mpr (h ▸ he.fresh))
  have hfresh : ∀ x ∈ N, x ∉ live := fun x hx hl =>
    absurd (hg.lt_length x hl) (Nat.not_lt.mpr (hs.fresh x hx))
  have hdataN : ∀ x ∈ N, ∃ y, s'.heap.dataAt x = some y := fun x hx => by
    obtain ⟨y, hy, _⟩ := hnew x hx
    exact ⟨y, hy⟩
  have hwframe := he.frame_copy hplt
  have hwN : w ∉ N := fun h => by
    obtain ⟨y, hy⟩ := hdataN w h
    rw [Heap.frame_data hy] at hwframe
    cases hwframe
  obtain ⟨par₁, htree⟩ := hg.expandTree hpl hm hplace hgp he.fresh k hshape hslots
  rw [← he.root] at htree
  -- the old leaf in the tree with the expanded copy
  have hF1w : expandedFrame s.heap.frame w gp (m.expand k) mg' w = some (.node (m.expand k)) :=
    if_pos rfl
  have hwlive : w ∈ (live \ {p}) ∪ {w} := Or.inr rfl
  have hmeOK := htree.model w hwlive _ hF1w
  have hchild : (m.expand k).childAt (m.bucketOf key * 2 ^ k) = some L := by
    rw [Tree.childAt_expand, Nat.mul_div_cancel _ (Nat.two_pow_pos k)]
    exact hb.child.child
  obtain ⟨_, f, hca⟩ := hmeOK.childAt hchild
  have hLgp : L ≠ gp := Heap.ne_of_data_model hs.get hgp
  have hfL : f = .leaf n.level n.localDepth n.minLimit n.maxLimit := by
    have hget := hca.get
    unfold expandedFrame at hget
    rw [if_neg hLw, if_neg hLgp, Heap.frame_data hs.get] at hget
    exact (Option.some.inj hget).symm
  subst hfL
  have hrange := he.range hg hs hne hm hplace hgp hshape (by simp : L ∈ A ++ L :: B)
  have hrootL : s'.rootNode ≠ L := by
    rintro h
    rw [he.root] at h
    split at h
    · exact hLw h.symm
    · exact hne h.symm
  have hold : ∀ x ∈ (live \ {p}) ∪ {w}, x ≠ w → x ≠ L →
      s'.heap.frame x = expandedFrame s.heap.frame w gp (m.expand k) mg' x := by
    rintro x (⟨hx, hxp⟩ | hx) hxw hxL
    · exact he.frame_old hs (hg.lt_length x hx) hxp hxL
    · exact absurd hx hxw
  have htree' : Tree s'.heap.frame s'.rootNode ((((live \ {p}) ∪ {w}) \ {L}) ∪ {x | x ∈ N})
      (fun c => if c ∈ N then w else par₁ c) := htree.replace hwlive hF1w hca
    ⟨rfl, fun x hx hmem => ?_, hrootL, hold, hwframe, ⟨rfl, rfl, rfl, rfl, hlen⟩, ?_, ?_,
      fun x hx => ?_, fun c hc _ => ?_⟩
  · refine ⟨_, _, hg.swap hs htree' hrange.2.1 hrange.2.2 hrange.1 hspans hnew ?_ ?_ ?_ ?_⟩
    · intro x y hy
      have hxp := he.gone x y hy
      have hxw : x ≠ w := by
        rintro rfl
        rw [Heap.frame_data hy] at hwframe
        cases hwframe
      simp only [Set.mem_union, Set.mem_sdiff, Set.mem_singleton_iff, Set.mem_ofPred_eq]
      tauto
    · intro x hx mx hmx
      have hxN : x ∉ N := fun h => by
        obtain ⟨y, hy⟩ := hdataN x h
        rw [Heap.modelAt_of_data hy] at hmx
        cases hmx
      obtain ⟨hx, _⟩ := hx.resolve_right hxN
      have hxp : x ≠ p := by
        rcases hx with ⟨_, hxp⟩ | hx
        · exact hxp
        · exact fun h => hwp (hx.symm.trans h)
      rw [he.model x hxp] at hmx
      by_cases hxw : x = w
      · rw [if_pos hxw] at hmx
        obtain rfl := Option.some.inj hmx
        exact ⟨hlock, rfl⟩
      · rw [if_neg hxw] at hmx
        by_cases hxg : x = gp
        · rw [if_pos hxg] at hmx
          obtain rfl := Option.some.inj hmx
          exact hfree
        · rw [if_neg hxg] at hmx
          exact hg.free x (hx.resolve_right hxw).1 mx hmx
    · obtain ⟨sm, hsm⟩ := hg.super
      have hsp : s.superroot ≠ p := fun h => hg.super_ne (h ▸ hpl)
      have hsw : s.superroot ≠ w := fun h =>
        absurd (Heap.modelAt_lt hsm.get) (Nat.not_lt.mpr (h ▸ he.fresh))
      have hsr := he.model s.superroot hsp
      rw [if_neg hsw] at hsr
      by_cases hgs : gp = s.superroot
      · obtain ⟨hn1, hc1⟩ := hone hgs
        rw [if_pos hgs.symm] at hsr
        refine ⟨mg', by rw [he.super]; exact hsr, hn1, ?_, hfree.1, hfree.2⟩
        rw [he.root, if_pos hgs]
        exact hc1
      · rw [if_neg (fun h => hgs h.symm)] at hsr
        refine ⟨sm, by rw [he.super, hsr]; exact hsm.get, hsm.numChildren, ?_,
          hsm.lock, hsm.current⟩
        rw [he.root, if_neg hgs]
        exact hsm.children
    · obtain ⟨sm, hsm⟩ := hg.super
      have hsl := Heap.modelAt_lt hsm.get
      rw [he.super]
      rintro (⟨⟨hx, _⟩ | hx, _⟩ | hx)
      · exact hg.super_ne hx
      · exact absurd hsl (Nat.not_lt.mpr (hx ▸ he.fresh))
      · exact absurd hsl (Nat.not_lt.mpr (hs.fresh _ hx))
  · rcases hmem with ⟨hl, _⟩ | hxw
    · exact hfresh x hx hl
    · exact hwN (hxw ▸ hx)
  · exact hout
  · intro j h1 h2
    obtain ⟨c, f, hc, hcf⟩ := hin j h1 h2
    exact ⟨c, f, hc, hcf, if_pos hc⟩
  · obtain ⟨y, hy⟩ := hdataN x hx
    exact ⟨_, Heap.frame_data hy, by rintro mx ⟨⟩⟩
  · have hcN : c ∉ N := by
      rcases hc with ⟨hc, _⟩ | hc
      · exact fun h => hfresh c h hc
      · exact fun h => hwN (hc ▸ h)
    exact if_neg hcN

/-- The parent is expanded, and the new leaves take over the block below its copy. -/
theorem Good.splitExpanded [NodeModel M] (hg : Good s live par (A ++ L :: B))
    (hr : Replaceable s key mid L p n m) (hmid : ∀ x ∈ mid, x ∈ live)
    (hb : Good.Below s live key L p n m) (hne : L ≠ s.rootNode) (hs : n.Stores T)
    (hready : OthersReady T s (A ++ L :: B) L) (hc : Created T s.heap h₁ L n D parts) {g k : ℕ}
    (hsize : m.numChildren = 2 ^ g) (hD : n.localDepth + D ≤ g + k) :
    ∃ w s₂ s', Index.expandParent { s with heap := h₁.setModel p m.reading } key p k =
        some (w, s₂) ∧
      Index.splitSideways s₂ L w (m.bucketOf key * 2 ^ k) parts ModelNode.releaseWriteLock =
        some s' ∧ s.Renewed T (A ++ L :: B) s' := by
  have hp₁ : h₁.modelAt p = some m := by rw [hc.model]; exact hr.parent
  have hplt := Heap.modelAt_lt hr.parent
  have hlt₁ : s.heap.length ≤ h₁.length := by rw [hc.length]; exact Nat.le_add_right _ _
  obtain ⟨mid', gp, mg, rfl, he, hplace⟩ := hg.expandable hr hmid hb.mem
  have hlen₂ := h₁.length_setModel p m.reading
  obtain ⟨h₂, cg, hexp, hlen₂', hd₂, hm₂, hcg, hlencg, hcg₁⟩ := Index.expandParent_spec hr he
    (h := h₁.setModel p m.reading) (by rw [Heap.modelAt_setModel hp₁, hc.model])
    (fun x y hy => by
      rw [Heap.dataAt_setModel hp₁]
      by_cases hx : x = L
      · obtain ⟨a, b, hL⟩ := hc.leaf
        exact ⟨_, hx ▸ hL⟩
      · exact ⟨y, (hc.others x hx (Heap.dataAt_lt hy)).trans hy⟩)
    (by rw [hlen₂]; exact hlt₁) k
  rw [hlen₂] at hexp hlen₂' hm₂ hcg hcg₁
  have hwp : h₁.length ≠ p := fun h => absurd hplt (Nat.not_lt.mpr (h ▸ hlt₁))
  have hwg : h₁.length ≠ gp := fun h =>
    absurd (Heap.modelAt_lt he.get) (Nat.not_lt.mpr (h ▸ hlt₁))
  have hw : h₂.modelAt h₁.length = some (m.writing.expand k) := by
    rw [hm₂, Function.update_of_ne hwp, Function.update_of_ne hwg, Function.update_self]
  -- the block of the leaf below the expanded copy
  have hdg : n.localDepth ≤ g := by
    have hdep : n.localDepth ≤ log2RoundDown m.numChildren := hb.child.depth
    rwa [hsize, log2RoundDown_two_pow] at hdep
  have hstart : (m.expand k).blockStart (m.bucketOf key * 2 ^ k) n.localDepth =
      m.blockStart (m.bucketOf key) n.localDepth * 2 ^ k := by
    rw [m.expand_blockStart hsize hdg, Nat.mul_div_cancel _ (Nat.two_pow_pos k)]
  have hbl : Block (m.writing.expand k) n (g + k) n.localDepth D
      ((m.writing.expand k).blockStart (m.bucketOf key * 2 ^ k) n.localDepth) := by
    have hb₀ := (Block.of_child (D := 0) hb.ok hsize hb.child
      (m.bucketOf_lt hb.ok.pos key) hdg).expand hD
    rw [← hstart] at hb₀
    exact hb₀.of_shape ⟨rfl, rfl, rfl, rfl, rfl⟩
  have hmelen : (m.writing.expand k).children.length = (m.writing.expand k).numChildren := by
    rw [m.writing.expand_length]
    show m.children.length * 2 ^ k = m.numChildren * 2 ^ k
    rw [hb.ok.length]
  obtain ⟨h', children, hsplit, _, hm', hgiven, hout⟩ := Index.splitSideways_spec hr hc
    (t := { s with
      heap := h₂
      rootNode := if gp = s.superroot then h₁.length else s.rootNode
      retired := p :: s.retired })
    (hd₂.trans (Heap.dataAt_setModel hp₁ _)) (q := h₁.length) hw hbl hmelen
    ModelNode.releaseWriteLock
  refine ⟨h₁.length, _, _, hexp, hsplit, ?_⟩
  have hrel : ModelNode.releaseWriteLock { m.writing.expand k with children := children } =
      { m.expand k with children := children } :=
    ModelNode.releaseWriteLock_eq (m := { m.expand k with children := children }) hr.lock lockSet
  have hto : ExpandedTo s { s with
      heap := h'
      rootNode := if gp = s.superroot then h₁.length else s.rootNode
      retired := L :: p :: s.retired } h₁.length gp p k m
      (Index.withChild mg cg (decide (gp = s.superroot)) m.level) children := by
    refine ⟨rfl, rfl, hlt₁, fun x hx => ?_, fun x y hy hxp => ?_⟩
    · show h'.modelAt x = _
      rw [hm', hrel]
      show Function.update h₂.modelAt _ _ x = _
      by_cases hxw : x = h₁.length
      · rw [if_pos hxw, hxw, Function.update_self]
      · rw [if_neg hxw, Function.update_of_ne hxw, hm₂, Function.update_of_ne hx]
        by_cases hxg : x = gp
        · rw [if_pos hxg, hxg, Function.update_self]
        · rw [if_neg hxg, Function.update_of_ne hxg, Function.update_of_ne hxw]
    · have hpm : h'.modelAt p = some { m.writing with isObsolete := true } := by
        rw [hm', Function.update_of_ne hwp.symm]
        show h₂.modelAt p = _
        rw [hm₂, Function.update_self]
      have hy' : h'.dataAt x = some y := hy
      rw [hxp, Heap.dataAt_of_model hpm] at hy'
      cases hy'
  have hrep : (m.expand k).repeats n.localDepth = 2 ^ (g + k - n.localDepth) :=
    ModelNode.repeats_eq hbl.size
  have hshape : gp ≠ s.superroot →
      SameShape mg (Index.withChild mg cg (decide (gp = s.superroot)) m.level) := by
    intro hgs
    rw [decide_eq_false hgs]
    exact ⟨rfl, rfl, rfl, rfl, hlencg⟩
  have hin : ∀ j, (m.expand k).blockStart (m.bucketOf key * 2 ^ k) n.localDepth ≤ j →
      j < (m.expand k).blockStart (m.bucketOf key * 2 ^ k) n.localDepth +
        (m.expand k).repeats n.localDepth → ∃ c f, c ∈ parts.map Prod.fst ∧
      ChildAt h'.frame { m.expand k with children := children } j c f := by
    intro j h1 h2
    rw [hrep] at h2
    exact hout.leaves.childAt hbl
      (show SameShape (m.writing.expand k) { m.expand k with children := children } from
        ⟨rfl, rfl, rfl, rfl, hgiven.shape.length⟩) hgiven.slots h1 h2
  obtain ⟨live', par', hgood⟩ := hg.replaceExpanded hto hb hr.parent hr.lock hne hplace he.get
    hshape ⟨he.lock, he.current⟩ (fun hgs => ⟨(he.one hgs).1, hcg₁ hgs⟩) hcg hout.swap rfl rfl
    hgiven.shape.length (fun j hj => hgiven.outside j (by rwa [hrep] at hj)) hin
    (hout.leaves.spans hbl) (hout.leaves.leafOK hbl hs (hg.inside_of_leaf hr.get))
  exact hout.renewed hg hbl hs hready hgood

/-! ### Downwards -/

/-- The model node of a downward split, with the new leaves below it. -/
theorem Index.Outcome.modelOK {h : Heap M P} {md : ModelNode} {children : List (Option NodeId)}
    (ho : Index.Outcome T s h L n md D 0 D 0 parts) (hb : Block md n D 0 D 0)
    (hgiven : BlockGiven md { md with children := children } D 0 D 0 parts)
    (hlen : md.children.length = md.numChildren) {live' : Set NodeId}
    (hlive : ∀ x ∈ parts.map Prod.fst, x ∈ live') :
    ModelOK h.frame live' { md with children := children } ∧
      ∀ i c, ({ md with children := children } : ModelNode).childAt i = some c →
        c ∈ parts.map Prod.fst := by
  have hclen : children.length = 2 ^ D := by
    rw [← hb.size, ← hlen]
    exact hgiven.shape.length
  have hchild : ∀ i, i < 2 ^ D → ∃ c f, c ∈ parts.map Prod.fst ∧
      ChildAt h.frame { md with children := children } i c f := by
    intro i hi
    refine ho.leaves.childAt hb hgiven.shape hgiven.slots (Nat.zero_le i) ?_
    rw [Nat.zero_add, Nat.sub_zero]
    exact hi
  refine ⟨⟨⟨D, hb.size⟩, ?_, hb.slope, fun i hi => ?_⟩, fun i c hc => ?_⟩
  · exact hgiven.shape.length.trans hlen
  · obtain ⟨c, f, hc, hca⟩ := hchild i (by rw [← hb.size]; exact hi)
    exact ⟨c, f, hlive c hc, hca⟩
  · have hi : i < children.length := childAt_lt hc
    obtain ⟨c', f, hc', hca⟩ := hchild i (by rw [← hclen]; exact hi)
    rwa [Option.some.inj (hc.symm.trans hca.child)]

/-- A new model node takes over the block of the leaf. -/
theorem Good.splitDownwards [NodeModel M] (hg : Good s live par (A ++ L :: B))
    (hr : Replaceable s key mid L p n m) (hb : Good.Below s live key L p n m)
    (hne : L ≠ s.rootNode) (hs : n.Stores T) (hready : OthersReady T s (A ++ L :: B) L)
    (hc : Created T s.heap h₁ L n D parts) :
    ∃ s', Index.splitDownwards { s with heap := h₁.setModel p m.reading } L p (m.bucketOf key) D
        parts = some s' ∧ s.Renewed T (A ++ L :: B) s' := by
  obtain ⟨sm, hsm⟩ := hg.super
  obtain ⟨g, hsize⟩ := hb.ok.size
  have hp₁ : h₁.modelAt p = some m := by rw [hc.model]; exact hr.parent
  have hlt₁ : s.heap.length ≤ h₁.length := by rw [hc.length]; exact Nat.le_add_right _ _
  have hsp : s.superroot ≠ p := fun h => hg.super_ne (h ▸ hb.mem)
  have hdg : n.localDepth + 0 ≤ g := by
    have hdep : n.localDepth ≤ log2RoundDown m.numChildren := hb.child.depth
    rwa [hsize, log2RoundDown_two_pow] at hdep
  have hlt := (Block.of_child hb.ok hsize hb.child (m.bucketOf_lt hb.ok.pos key) hdg).lt
  have hmodel₁ : (h₁.setModel p m.reading).modelAt =
      Function.update s.heap.modelAt p (some m.reading) := by
    rw [Heap.modelAt_setModel hp₁, hc.model]
  obtain ⟨h', md, children, cp, hsplit, _, hmodel, hbl, hlevel, hdep, hlock, hcur,
    hlenmd, hgiven, hcp,
    hlencp, _, hout⟩ := Index.splitDownwards_spec hr hc hlt
    (t := { s with heap := h₁.setModel p m.reading }) (Heap.length_setModel _ _ _)
    (Heap.dataAt_setModel hp₁ _)
    (by
      show (h₁.setModel p m.reading).modelAt s.superroot = _
      rw [hmodel₁, Function.update_of_ne hsp]
      exact hsm.get)
    (show (h₁.setModel p m.reading).modelAt p = some m.reading by
      rw [hmodel₁, Function.update_self]) hr.fit (fun h => absurd h.symm hsp)
  have hwlive : h₁.length ∉ live := fun h =>
    absurd (hg.lt_length _ h) (Nat.not_lt.mpr hlt₁)
  have hwN : h₁.length ∉ parts.map Prod.fst := fun h => absurd (hc.fresh h).2 (Nat.lt_irrefl _)
  have hwp : h₁.length ≠ p := fun h => hwlive (h ▸ hb.mem)
  have hpN : p ∉ parts.map Prod.fst := fun h =>
    absurd (Heap.modelAt_lt hr.parent) (Nat.not_lt.mpr (hc.fresh h).1)
  have hps : ¬ p = s.superroot := fun h => hsp h.symm
  -- the model nodes afterwards
  have hm' : h'.modelAt = Function.update (Function.update s.heap.modelAt h₁.length
      (some { md with children := children })) p (some { m with children := cp }) := by
    rw [hmodel]
    show Function.update (Function.update (Heap.modelAt (h₁.setModel p m.reading)) _ _) p _ = _
    rw [hmodel₁]
    funext x
    by_cases hxp : x = p
    · subst hxp
      rw [Function.update_self, Function.update_self, decide_eq_false hps]
      exact congrArg some (Index.release_children hr.lock cp)
    · rw [Function.update_of_ne hxp, Function.update_of_ne hxp]
      by_cases hxw : x = h₁.length
      · subst hxw
        rw [Function.update_self, Function.update_self]
      · rw [Function.update_of_ne hxw, Function.update_of_ne hxw, Function.update_of_ne hxp]
  have hwframe : h'.frame h₁.length = some (.node { md with children := children }) :=
    Heap.frame_model (by rw [hm', Function.update_of_ne hwp, Function.update_self])
  have hpframe : h'.frame p = some (.node { m with children := cp }) :=
    Heap.frame_model (by rw [hm', Function.update_self])
  have hold : ∀ x ∈ live, x ≠ p → x ≠ L → h'.frame x = s.heap.frame x := by
    intro x hx hxp hxL
    have hxw : x ≠ h₁.length := fun h => hwlive (h ▸ hx)
    refine hout.swap.frame_old hxL (fun h => ?_) ?_
    · exact absurd (hg.lt_length x hx) (Nat.not_lt.mpr (hc.fresh h).1)
    · rw [hm', Function.update_of_ne hxp, Function.update_of_ne hxw]
  have hfreshN : ∀ x ∈ parts.map Prod.fst, x ∉ live := fun x hx hl =>
    absurd (hg.lt_length x hl) (Nat.not_lt.mpr (hc.fresh hx).1)
  have hnew := hout.leaves.leafOK hbl hs (hg.inside_of_leaf hr.get)
  have hrootN : s.rootNode ∉ parts.map Prod.fst := fun h => hfreshN _ h hg.tree.root_mem
  have hshape : SameShape m { m with children := cp } := ⟨rfl, rfl, rfl, rfl, hlencp⟩
  have hrep : ({ m with children := cp } : ModelNode).repeats = m.repeats := rfl
  have hslot : ∀ j, ({ m with children := cp } : ModelNode).childAt j =
      if m.blockStart (m.bucketOf key) n.localDepth ≤ j ∧
        j < m.blockStart (m.bucketOf key) n.localDepth + m.repeats n.localDepth then
        some h₁.length else m.childAt j := hcp
  have htree : Tree h'.frame s.rootNode
    ((live \ {L}) ∪ ({x | x ∈ parts.map Prod.fst} ∪ {h₁.length}))
      (fun c => if c ∈ parts.map Prod.fst then h₁.length else if c = h₁.length then p
        else par c) := by
    refine hg.tree.replace hb.mem (Heap.frame_model hr.parent)
      hb.child
      ⟨rfl, ?_, fun h => hne h.symm, hold, hpframe, hshape, fun j hj => ?_, fun j h1 h2 => ?_,
        fun x hx => ?_, fun c hc' _ => ?_⟩
    · rintro x (hx | hx)
      · exact hfreshN x hx
      · exact fun h => hwlive (hx ▸ h)
    · rw [hslot]
      exact if_neg hj
    · have hst : ({ m with children := cp } : ModelNode).blockStart j n.localDepth =
          m.blockStart (m.bucketOf key) n.localDepth := by
        rw [hshape.blockStart]
        exact ModelNode.blockStart_of_mem (m.repeats_dvd_blockStart _ _) h1 h2
      refine ⟨h₁.length, _, Or.inr rfl, ⟨hwframe, ?_, ?_, ?_, ?_, ?_⟩, ?_⟩
      · show md.level = m.level + 1
        rw [hlevel]
        exact hb.child.level
      · show md.localDepth ≤ log2RoundDown m.numChildren
        rw [hdep]
        exact hb.child.depth
      · show ∀ j', _ ≤ j' → _ → _
        simp only [Frame.localDepth, hdep, hst, hrep]
        intro j' h3 h4
        rw [hslot]
        exact if_pos ⟨h3, h4⟩
      · simp only [Frame.localDepth, hdep, hst, hshape.edge]
        exact hbl.lo.symm.trans hb.child.lo
      · simp only [Frame.localDepth, hdep, hst, hshape.edge, hrep]
        refine Eq.trans ?_ hb.child.hi
        show md.edge md.numChildren = n.maxLimit
        rw [hbl.hi, hbl.size, Nat.zero_add, Nat.sub_zero]
      · show (if _ then _ else _) = p
        rw [if_neg hwN, if_pos rfl]
    · rcases hx with hx | hx
      · obtain ⟨k, hk, _⟩ := hnew x hx
        exact ⟨_, Heap.frame_data hk, by rintro mx ⟨⟩⟩
      · obtain rfl : x = h₁.length := hx
        refine ⟨_, hwframe, ?_⟩
        rintro mx ⟨⟩
        obtain ⟨hok, hids⟩ := hout.modelOK hbl hgiven hlenmd
         
          (fun x hx => Or.inr (Or.inl hx))
        refine ⟨hok, fun i c hc' => ⟨if_pos (hids i c hc'), ?_⟩⟩
        exact fun h => hrootN (h ▸ hids i c hc')
    · show (if _ then _ else _) = _
      rw [if_neg (fun h => hfreshN c h hc'),
        if_neg (fun h : c = h₁.length => hwlive (h ▸ hc'))]
  have hrange := hg.root_kept (by simp : L ∈ A ++ L :: B) hne hr.parent hpframe hshape hold
  simp only [hps, if_false] at hsplit
  refine ⟨_, hsplit, hout.renewed hg hbl hs hready (hg.swap hout.swap htree hrange.2.1 hrange.2.2
    hrange.1 (hout.leaves.spans hbl) hnew (fun x k hk => ?_) (fun x hx mx hmx => ?_)
    ⟨sm, ?_, hsm.numChildren, hsm.children, hsm.lock, hsm.current⟩ ?_)⟩
  · have hxw : x ≠ h₁.length := by
      rintro rfl
      have hk' : h'.dataAt h₁.length = some k := hk
      rw [Heap.frame_data hk'] at hwframe
      cases hwframe
    simp only [Set.mem_union, Set.mem_sdiff, Set.mem_singleton_iff, Set.mem_ofPred_eq]
    tauto
  · have hmx' : h'.modelAt x = some mx := hmx
    rw [hm'] at hmx'
    by_cases hxp : x = p
    · rw [hxp, Function.update_self] at hmx'
      obtain rfl := Option.some.inj hmx'
      exact ⟨hr.lock, hr.current⟩
    · rw [Function.update_of_ne hxp] at hmx'
      by_cases hxw : x = h₁.length
      · rw [hxw, Function.update_self] at hmx'
        obtain rfl := Option.some.inj hmx'
        exact ⟨hlock, hcur⟩
      · rw [Function.update_of_ne hxw] at hmx'
        rcases hx with ⟨hx, _⟩ | hx | hx
        · exact hg.free x hx mx hmx'
        · exact absurd (Heap.modelAt_lt hmx') (Nat.not_lt.mpr (hc.fresh hx).1)
        · exact absurd hx hxw
  · have hsw : s.superroot ≠ h₁.length := fun h =>
      absurd (Heap.modelAt_lt hsm.get) (Nat.not_lt.mpr (h ▸ hlt₁))
    show h'.modelAt s.superroot = some sm
    rw [hm', Function.update_of_ne hsp, Function.update_of_ne hsw]
    exact hsm.get
  · show s.superroot ∉ _
    have hsl := Heap.modelAt_lt hsm.get
    rintro (⟨hx, _⟩ | hx | hx)
    · exact hg.super_ne hx
    · exact absurd hsl (Nat.not_lt.mpr (hc.fresh hx).1)
    · exact absurd hsl (Nat.not_lt.mpr (hx ▸ hlt₁))

/-! ### At the root -/

theorem Index.outermostDataNode_leaf {h : Heap M P} {x : NodeId} (hx : h.dataAt x = some n)
    (slot : ModelNode → ℕ) (fuel : ℕ) :
    Index.outermostDataNode h slot (fuel + 1) x = some x := by
  unfold Index.outermostDataNode
  rw [Heap.dataAt_eq_some.mp hx]

/-- The key domain of an index whose root is a leaf is read off the leaf. -/
theorem Index.updateSuperrootKeyDomain_leaf {t : Index M P}
    (hn : t.heap.dataAt t.rootNode = some n) (hs : n.Stores T) {sm : ModelNode}
    (hsm : t.heap.modelAt t.superroot = some sm) :
    ∃ t' model, Index.updateSuperrootKeyDomain T t = some t' ∧ t'.rootNode = t.rootNode ∧
      t'.superroot = t.superroot ∧ t'.retired = t.retired ∧
      t'.heap = t.heap.setModel t.superroot { sm with model := model } := by
  obtain ⟨lo, hlo⟩ : ∃ lo, n.firstKey T = some lo := ⟨_, hs.firstKey⟩
  obtain ⟨hi, hhi⟩ : ∃ hi, n.lastKey T = some hi := ⟨_, hs.lastKey⟩
  have hmin : t.getMinKey T = some lo := by
    unfold Index.getMinKey Index.firstDataNode
    rw [Index.outermostDataNode_leaf hn]
    simp only [hn, Option.bind_eq_bind, Option.bind_some]
    exact hlo
  have hmax : t.getMaxKey T = some hi := by
    unfold Index.getMaxKey Index.lastDataNode
    rw [Index.outermostDataNode_leaf hn]
    simp only [hn, Option.bind_eq_bind, Option.bind_some]
    exact hhi
  unfold Index.updateSuperrootKeyDomain
  simp only [hmin, hmax, Heap.modifyModel_eq hsm, Option.bind_eq_bind, Option.bind_some]
  exact ⟨_, _, rfl, rfl, rfl, rfl, rfl⟩

variable [NodeModel M]

/-- A leaf that is the root is split below a new root. -/
theorem Good.splitRoot (hg : Good s live par (A ++ L :: B))
    (hr : Replaceable s key mid L s.superroot n m) (hroot : L = s.rootNode)
    (hlt : n.minLimit < n.maxLimit) (hs : n.Stores T) (hc : Created T s.heap h₁ L n D parts)
    {t : Index M P} {model : LinearModel} (htsuper : t.superroot = s.superroot)
    (htheap : t.heap = h₁.setModel s.superroot { m.reading with model := model }) :
    ∃ s', Index.splitDownwards t L s.superroot
        (({ m.reading with model := model } : ModelNode).bucketOf key) D parts = some s' ∧
      s.Renewed T (A ++ L :: B) s' := by
  obtain ⟨sm, hsm⟩ := hg.super
  obtain rfl := Option.some.inj (hsm.get.symm.trans hr.parent)
  have hp₁ : h₁.modelAt s.superroot = some sm := by rw [hc.model]; exact hr.parent
  have hlt₁ : s.heap.length ≤ h₁.length := by rw [hc.length]; exact Nat.le_add_right _ _
  have hmodel₁ : t.heap.modelAt = Function.update s.heap.modelAt s.superroot
      (some { sm.reading with model := model }) := by
    rw [htheap, Heap.modelAt_setModel hp₁, hc.model]
  have hget₁ : t.heap.modelAt s.superroot = some { sm.reading with model := model } := by
    rw [hmodel₁, Function.update_self]
  have hb0 : ({ sm.reading with model := model } : ModelNode).bucketOf key = 0 := by
    have hn1 : ({ sm.reading with model := model } : ModelNode).numChildren = 1 := hsm.numChildren
    have hlt := ModelNode.bucketOf_lt (m := { sm.reading with model := model })
      (by rw [hn1]; exact Nat.one_pos) key
    omega
  have hclen : sm.children.length = 1 := by rw [hsm.children]; rfl
  have hone : (1 : ℕ) = 2 ^ 0 := rfl
  obtain ⟨h', md, children, cp, hsplit, _, hmodel, hbl, _, _, hlock, hcur, hlenmd, hgiven, _, _,
    hcp, hout⟩ := Index.splitDownwards_spec hr hc hlt (t := t)
    (by rw [htheap, Heap.length_setModel]) (by rw [htheap, Heap.dataAt_setModel hp₁])
   
   
    (by rw [htsuper]; exact hget₁) hget₁
    (by
      show _ ≤ sm.children.length
      rw [hclen, ← hsm.numChildren]
      exact ModelNode.blockStart_add_le (m := { sm.reading with model := model })
        (hsm.numChildren.trans hone) (by rw [hb0]; show 0 < sm.numChildren; rw [hsm.numChildren]
                                         exact Nat.one_pos))
    (fun _ => ⟨hsm.numChildren, hclen, hb0⟩)
  have hps : s.superroot = t.superroot := htsuper.symm
  simp only [← hps, if_true] at hsplit hmodel
  have hcp := hcp hps
  have hwN : h₁.length ∉ parts.map Prod.fst := fun h => absurd (hc.fresh h).2 (Nat.lt_irrefl _)
  have hsw : s.superroot ≠ h₁.length := fun h =>
    absurd (Heap.modelAt_lt hsm.get) (Nat.not_lt.mpr (h ▸ hlt₁))
  have hm' : ∀ x, x ≠ s.superroot → h'.modelAt x =
      if x = h₁.length then some { md with children := children } else s.heap.modelAt x := by
    intro x hx
    rw [hmodel, Function.update_of_ne hx]
    by_cases hxw : x = h₁.length
    · rw [hxw, Function.update_self, if_pos rfl]
    · rw [Function.update_of_ne hxw, hmodel₁, Function.update_of_ne hx, if_neg hxw]
  have hwframe : h'.frame h₁.length = some (.node { md with children := children }) :=
    Heap.frame_model (by rw [hm' _ hsw.symm, if_pos rfl])
  have hnew := hout.leaves.leafOK hbl hs (hg.inside_of_leaf hr.get)
  obtain ⟨hok, hids⟩ := hout.modelOK hbl hgiven hlenmd
    (fun x hx => Or.inl hx)
  have hleafN : ∀ x ∈ parts.map Prod.fst, ∃ k, h'.dataAt x = some k := fun x hx => by
    obtain ⟨k, hk, _⟩ := hnew x hx
    exact ⟨k, hk⟩
  have hnode : ∀ x ∈ ({x | x ∈ parts.map Prod.fst} ∪ {h₁.length} : Set NodeId), ∀ mx,
      h'.frame x = some (.node mx) → x = h₁.length ∧ mx = { md with children := children } := by
    rintro x (hx | hx) mx hmx
    · obtain ⟨k, hk⟩ := hleafN x hx
      rw [Heap.frame_data hk] at hmx
      cases hmx
    · obtain rfl : x = h₁.length := hx
      rw [hwframe] at hmx
      cases hmx
      exact ⟨rfl, rfl⟩
  have htree : Tree h'.frame h₁.length ({x | x ∈ parts.map Prod.fst} ∪ {h₁.length})
      (fun _ => h₁.length) := by
    refine ⟨Or.inr rfl, ?_, fun x hx mx hmx => ?_,
      fun x hx mx i c hmx _ => (hnode x hx mx hmx).1.symm,
      fun x hx mx i hmx hci => ?_⟩
    · rintro x (hx | hx)
      · obtain ⟨k, hk⟩ := hleafN x hx
        exact ⟨_, Heap.frame_data hk⟩
      · exact ⟨_, hx ▸ hwframe⟩
    · rw [(hnode x hx mx hmx).2]
      exact hok
    · rw [(hnode x hx mx hmx).2] at hci
      exact hwN (hids i _ hci)
  have hlo : h'.lo h₁.length = s.heap.lo s.rootNode := by
    rw [Heap.lo_frame hwframe, ← hroot, Heap.lo_data hr.get, hbl.lo]
    rfl
  have hhi : h'.hi h₁.length = s.heap.hi s.rootNode := by
    rw [Heap.hi_frame hwframe, ← hroot, Heap.hi_data hr.get, hbl.hi, Nat.zero_add, Nat.sub_zero,
      ← hbl.size]
    rfl
  have hsingle : ∀ x ∈ A ++ L :: B, x = L := by
    intro x hx
    have hleaves := hg.list.single (by rw [← hroot]; simp)
    rw [hleaves, ← hroot] at hx
    exact List.mem_singleton.mp hx
  refine ⟨_, hsplit, hout.renewed hg hbl hs (fun x hx hxL => absurd (hsingle x hx) hxL)
    (hg.swap hout.swap htree hlo hhi ⟨_, Heap.modelAt_of_frame hwframe⟩ (hout.leaves.spans hbl) hnew
      (fun x k hk => ?_) (fun x hx mx hmx => ?_)
      ⟨ModelNode.releaseReadLock (Index.withChild { sm.reading with model := model } cp true
        md.level), ?_, hsm.numChildren, hcp, ?_, hsm.current⟩ ?_)⟩
  · have hxw : x ≠ h₁.length := by
      rintro rfl
      have hk' : h'.dataAt h₁.length = some k := hk
      rw [Heap.frame_data hk'] at hwframe
      cases hwframe
    have hother : x ∈ live → x ≠ L → x ∈ parts.map Prod.fst := by
      intro hxl hxL
      by_contra hxN
      have hd : h'.dataAt x = some k := hk
      rw [hout.swap.others x hxL hxN] at hd
      obtain ⟨y, hy, _⟩ := Option.map_eq_some_iff.mp hd
      exact hxL (hsingle x ((hg.mem x).mpr ⟨hxl, y, hy⟩))
    simp only [Set.mem_union, Set.mem_singleton_iff, Set.mem_ofPred_eq]
    tauto
  · have hmx' : h'.frame x = some (.node mx) := Heap.frame_model hmx
    rw [(hnode x hx mx hmx').2]
    exact ⟨hlock, hcur⟩
  · show h'.modelAt s.superroot = _
    rw [hmodel, Function.update_self, decide_true]
  · show (1#32 : LockWord) - 1#32 = 0#32
    decide
  · show s.superroot ∉ _
    rintro (hx | hx)
    · exact absurd (Heap.modelAt_lt hsm.get) (Nat.not_lt.mpr (hc.fresh hx).1)
    · exact hsw hx

/-! ### All outcomes -/

/-- A split keeps the invariant and the stored pairs. -/
theorem Good.split {C : Params M P} {leaves : List NodeId} (hg : Good s live par leaves)
    (hL : Good.LeafOf s leaves key L n) (hs : n.Stores C.T) (hlt : n.minLimit < n.maxLimit)
    {used : List (FTNode M)} (hd : Index.Divides n D used)
    (hready : OthersReady C.T s leaves L) (reuseModel : Bool) :
    ∃ s', Index.splitSidewaysDownwards C s L D used reuseModel key = some s' ∧
      s.Renewed C.T leaves s' := by
  obtain ⟨h₁, parts, hcreate, hc⟩ := Index.createParts_spec hs hlt hL.2.1 hd reuseModel
  obtain ⟨mid, p, m, hr, hmid, hcase⟩ := hg.replaceable hL
  obtain ⟨sm, hsm⟩ := hg.super
  obtain ⟨A, B, rfl⟩ := List.append_of_mem hL.1
  have hlock := Index.lockParentNode_eq hr hc.model (fun x y hy => by
    by_cases hx : x = L
    · obtain ⟨a, b, ha⟩ := hc.leaf
      exact ⟨_, hx ▸ ha⟩
    · exact ⟨y, (hc.others x hx (Heap.dataAt_lt hy)).trans hy⟩)
  have hp₁ : h₁.modelAt p = some m := by rw [hc.model]; exact hr.parent
  have hget₁ : (h₁.setModel p m.reading).modelAt p = some m.reading := by
    rw [Heap.modelAt_setModel hp₁, Function.update_self]
  obtain ⟨a, b, hleaf⟩ := hc.leaf
  have hleaf₁ : (h₁.setModel p m.reading).dataAt L = some (n.retiring a b) := by
    rw [Heap.dataAt_setModel hp₁]
    exact hleaf
  unfold Index.splitSidewaysDownwards
  simp only [hcreate, hlock, Option.bind_eq_bind, Option.bind_some]
  unfold Index.refreshKeyDomain
  rcases hcase with ⟨hroot, rfl⟩ | ⟨hne, hb⟩
  · -- the leaf is the root
    have hs' : (n.retiring a b).Stores C.T := hs.congr rfl rfl
    obtain ⟨t, model, hdomain, htroot, htsuper, _, htheap⟩ :=
      Index.updateSuperrootKeyDomain_leaf
        (t := { s with heap := h₁.setModel s.superroot m.reading })
        (by rw [← hroot]; exact hleaf₁) hs' hget₁
    have htsuper' : t.superroot = s.superroot := htsuper
    have htheap' : t.heap = h₁.setModel s.superroot { m.reading with model := model } := by
      rw [htheap]
      exact List.set_set _
    have hleaf₂ : t.heap.dataAt L = some (n.retiring a b) := by
      rw [htheap', Heap.dataAt_setModel hp₁]
      exact hleaf
    have hsuper₂ : t.heap.modelAt s.superroot = some { m.reading with model := model } := by
      rw [htheap', Heap.modelAt_setModel hp₁, Function.update_self]
    obtain ⟨s', hsplit, hren⟩ := hg.splitRoot hr hroot hlt hs hc htsuper' htheap'
    rw [if_pos rfl]
    simp only [hdomain, hleaf₂, htsuper', hsuper₂, Option.bind_some, or_true, if_true]
    exact ⟨s', hsplit, hren⟩
  · have hps : p ≠ s.superroot := fun h => hg.super_ne (h ▸ hb.mem)
    have hsr : (h₁.setModel p m.reading).modelAt s.superroot = some sm := by
      rw [Heap.modelAt_setModel hp₁, Function.update_of_ne hps.symm, hc.model]
      exact hsm.get
    obtain ⟨g, hsize⟩ := hb.ok.size
    have hdg : n.localDepth ≤ g := by
      have hdep : n.localDepth ≤ log2RoundDown m.numChildren := hb.child.depth
      rwa [hsize, log2RoundDown_two_pow] at hdep
    rw [if_neg hps]
    simp only [hleaf₁, hget₁, hsr, Option.bind_some]
    have hdup : log2RoundDown m.reading.numChildren - (n.retiring a b).localDepth =
        g - n.localDepth := by
      show log2RoundDown m.numChildren - n.localDepth = _
      rw [hsize, log2RoundDown_two_pow]
    rw [hdup]
    split
    · exact hg.splitDownwards hr hb hne hs hready hc
    · split
      · obtain ⟨w, s₂, s', hexp, hsplit, hren⟩ := hg.splitExpanded hr hmid hb hne hs hready hc
          hsize (k := D - (g - n.localDepth)) (by omega)
        refine ⟨s', ?_, hren⟩
        simp only [hexp, Option.bind_some]
        exact hsplit
      · rename_i hle
        have hDle : D ≤ g - n.localDepth := by
          rw [not_lt] at hle
          exact (Nat.pow_le_pow_iff_right (by norm_num)).mp hle
        exact hg.splitSideways hr hb hne hs hready hc hsize (by omega)

end LearnedIndex.Alexol
