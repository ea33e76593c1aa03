import LearnedIndex.Alexol.SplitLeaves

/-! # Splitting a leaf

The outcomes of `split_sideways_downwards_without_parent`: the new leaves take over the block of the
old one below its parent, below an expanded copy of its parent, or below a new model node. -/

namespace LearnedIndex.Alexol

open LearnedIndex.Chains LearnedIndex.Dyadic

variable {M P : Type}

/-- The model node `m'` has the slots of `m`, except that the block from `start` on is divided among
the parts. -/
structure BlockGiven (m m' : ModelNode) (g d D start : ℕ) (parts : List (NodeId × ℕ)) : Prop where
  shape : SameShape m m'
  outside : ∀ j, ¬ (start ≤ j ∧ j < start + 2 ^ (g - d)) → m'.childAt j = m.childAt j
  slots : ∀ b ∈ starts (fun l => 2 ^ (D - l)) parts 0, ∀ j, start + b.2.2 * Block.unit g d D ≤ j →
    j < start + (b.2.2 + 2 ^ (D - b.2.1)) * Block.unit g d D → m'.childAt j = some b.1

namespace BlockGiven

variable {m m' : ModelNode} {g d D start : ℕ} {parts : List (NodeId × ℕ)}

theorem of_children {children : List (Option NodeId)} (hlen : children.length = m.children.length)
    (hout : ∀ j, ¬ (start ≤ j ∧ j < start + 2 ^ (g - d)) → children[j]? = m.children[j]?)
    (hslots : ∀ b ∈ starts (fun l => 2 ^ (D - l)) parts 0, ∀ j,
      start + b.2.2 * Block.unit g d D ≤ j →
      j < start + (b.2.2 + 2 ^ (D - b.2.1)) * Block.unit g d D → children[j]? = some (some b.1)) :
    BlockGiven m { m with children := children } g d D start parts := by
  refine ⟨⟨rfl, rfl, rfl, rfl, hlen⟩, fun j hj => ?_, fun b hb j h1 h2 => ?_⟩
  · unfold ModelNode.childAt
    rw [hout j hj]
  · unfold ModelNode.childAt
    rw [hslots b hb j h1 h2]
    rfl

end BlockGiven

namespace Index

variable {T : KeyType} {s : Index M P} {key : ℤ} {mid : List NodeId} {L p : NodeId}
  {n : DataNode M P} {m : ModelNode} {h₁ : Heap M P} {D : ℕ} {parts : List (NodeId × ℕ)}

/-- The outcome of a split: the new leaves have taken over the block of the old one below the model
node `m`. -/
structure Outcome (T : KeyType) (s : Index M P) (h : Heap M P) (L : NodeId) (n : DataNode M P)
    (m : ModelNode) (g d D start : ℕ) (parts : List (NodeId × ℕ)) : Prop where
  swap : LeafSwap s.heap h L n (parts.map Prod.fst)
  leaves : NewLeaves T h m n g d D start parts
  old : ∃ o, h.dataAt L = some o ∧ o.lock = n.lock

theorem exists_ends (hne : parts ≠ []) :
    ∃ left right, parts.head? = some left ∧ parts.getLast? = some right :=
  ⟨_, _, List.head?_eq_some_head hne, List.getLast?_eq_getLast_of_ne_nil hne⟩

/-- The end of every split. -/
theorem finish (hr : Replaceable s key mid L p n m) (hc : Created T s.heap h₁ L n D parts)
    {h : Heap M P} {m₀ : ModelNode} {g d start : ℕ} {left right : NodeId × ℕ}
    (hleft : parts.head? = some left) (hright : parts.getLast? = some right)
    (hu : Unlinked s h L n (parts.map Prod.fst))
    (hparts : ∀ b ∈ starts (fun l => 2 ^ (D - l)) parts 0, PlacedAt T h m₀ n g d D start b)
    {t : Index M P}
    (hdata : ∀ x, t.heap.dataAt x =
      (h.dataAt x).map (fun y => y.withLinks (linking n.links L left.1 right.1 x y.links)))
    {q : NodeId} {mq : ModelNode} (hq : t.heap.modelAt q = some mq)
    (release : ModelNode → ModelNode) :
    ∃ h', finishSplit t L q parts release = some { t with heap := h', retired := L :: t.retired } ∧
      h'.length = t.heap.length ∧
      h'.modelAt = Function.update t.heap.modelAt q (some (release mq)) ∧
      Outcome T s h' L n m₀ g d D start parts := by
  have hlt := Heap.dataAt_lt hr.get
  obtain ⟨h', hfin, hlen, hmodel, hswap, hd⟩ :=
    finishSplit_spec hr hu hleft hright hdata hq release
  refine ⟨h', hfin, hlen, hmodel, hswap, NewLeaves.of_placed hc.steps hu hlt (fun x hx => ?_) hparts
    hd, ?_⟩
  · obtain ⟨_, y, hy, _⟩ := hr.prev x hx
    exact Heap.dataAt_lt hy
  · obtain ⟨o, ho, _, hlock⟩ := hu.leaf
    have hnot : L ∉ parts.map Prod.fst := fun h => absurd hlt (Nat.not_lt.mpr (hc.fresh h).1)
    have := hd L
    rw [ho, Option.map_some, relinkedNode_old _ _ _ _ _ hnot] at this
    exact ⟨_, this, hlock⟩

/-- A sideways split below the node `q`. -/
theorem splitSideways_spec (hr : Replaceable s key mid L p n m)
    (hc : Created T s.heap h₁ L n D parts) {t : Index M P} (hdata : t.heap.dataAt = h₁.dataAt)
    {q : NodeId} {mq : ModelNode} (hq : t.heap.modelAt q = some mq) {bid g : ℕ}
    (hb : Block mq n g n.localDepth D (mq.blockStart bid n.localDepth))
    (hlen : mq.children.length = mq.numChildren) (release : ModelNode → ModelNode) :
    ∃ h' children, splitSideways t L q bid parts release =
        some { t with heap := h', retired := L :: t.retired } ∧
      h'.length = t.heap.length ∧
      h'.modelAt = Function.update t.heap.modelAt q
        (some (release { mq with children := children })) ∧
      BlockGiven mq { mq with children := children } g n.localDepth D
        (mq.blockStart bid n.localDepth) parts ∧
      Outcome T s h' L n mq g n.localDepth D (mq.blockStart bid n.localDepth) parts := by
  have hlt := Heap.dataAt_lt hr.get
  obtain ⟨left, right, hleft, hright⟩ := exists_ends hc.ne_nil
  obtain ⟨a, b, hold⟩ := hc.leaf
  obtain ⟨h₃, children, hplace, hlen₃, hmodel₃, hlenc, hout, hslots, hu, hparts⟩ :=
    hc.place hlt hb hdata (by rw [hlen]; exact hb.fit)
  have hq₃ : h₃.modelAt q = some mq := by rw [hmodel₃]; exact hq
  have hd₄ : (h₃.setModel q { mq with children := children }).dataAt = h₃.dataAt :=
    Heap.dataAt_setModel hq₃ _
  have hLids : L ∉ parts.map Prod.fst := fun h => absurd hlt (Nat.not_lt.mpr (hc.fresh h).1)
  have hu₄ := hu.congr hd₄
  obtain ⟨h₅, hlink, hs₅⟩ := linkParts_spec hr hu₄ hleft hright
  have hq₅ : h₅.modelAt q = some { mq with children := children } := by
    rw [Heap.DataStep.modelAt hs₅, Heap.modelAt_setModel hq₃, Function.update_self]
  obtain ⟨h', hfin, hlen', hmodel', hdone⟩ := finish hr hc hleft hright hu₄
    (fun b hbs => (hparts b hbs).congr hd₄) (t := { t with heap := h₅ })
    (fun x => Heap.DataStep.dataAt hs₅ x) hq₅ release
  refine ⟨h', children, ?_, ?_, ?_, BlockGiven.of_children hlenc hout hslots, hdone⟩
  · have ht : t.heap.dataAt L = some (n.retiring a b) := by rw [hdata]; exact hold
    have hg : log2RoundDown mq.numChildren = g := by rw [hb.size, log2RoundDown_two_pow]
    unfold splitSideways
    simp only [ht, hq, hg, Option.bind_eq_bind, Option.bind_some]
    have hdep : (n.retiring a b).localDepth = n.localDepth := rfl
    rw [hdep, hplace]
    simp only [Option.bind_some, hlink]
    exact hfin
  · rw [hlen']
    show h₅.length = _
    rw [Heap.DataStep.length hs₅, Heap.length_setModel, hlen₃]
  · rw [hmodel']
    show Function.update h₅.modelAt q _ = _
    rw [Heap.DataStep.modelAt hs₅, Heap.modelAt_setModel hq₃, hmodel₃, Function.update_idem]

/-! ### Downwards -/

theorem installRoot_below {parent new : NodeId} (h : parent ≠ s.superroot) :
    installRoot s parent new = some s := if_neg h

/-- A new child of the superroot is installed as the root. -/
theorem installRoot_super {new : NodeId} {sr mn : ModelNode}
    (hsr : s.heap.modelAt s.superroot = some sr) (hlen : sr.children.length = 1)
    (hnew : s.heap.modelAt new = some mn) :
    installRoot s s.superroot new = some { s with
      rootNode := new
      heap := s.heap.setModel s.superroot
        { sr with children := [some new], level := mn.level - 1 } } := by
  have hfill : fillSlots sr.children 0 1 new = some [some new] := by
    unfold fillSlots
    rw [if_pos (by rw [hlen]), List.drop_of_length_le (by rw [hlen])]
    rfl
  unfold installRoot
  rw [if_pos rfl]
  unfold updateSuperrootPointer ModelNode.setChildren
  simp only [hsr, Heap.modelAt_eq_some.mp hnew, hfill, Option.bind_eq_bind, Option.bind_some,
    Option.map_some]
  rfl

/-- The parent after a new child has been installed. -/
def withChild (m : ModelNode) (children : List (Option NodeId)) (super : Bool) (level : ℤ) :
    ModelNode :=
  { m with children := children, level := if super then level - 1 else m.level }

theorem installRoot_spec {parent new : NodeId} {sr mp mn : ModelNode}
    (hsr : s.heap.modelAt s.superroot = some sr) (hmp : s.heap.modelAt parent = some mp)
    (hchild : parent = s.superroot → mp.children = [some new])
    (hnew : s.heap.modelAt new = some mn) :
    ∃ h, installRoot s parent new = some { s with
        rootNode := if parent = s.superroot then new else s.rootNode
        heap := h } ∧ h.length = s.heap.length ∧ h.dataAt = s.heap.dataAt ∧
      h.modelAt = Function.update s.heap.modelAt parent
        (some (withChild mp mp.children (decide (parent = s.superroot)) mn.level)) := by
  by_cases hp : parent = s.superroot
  · subst hp
    obtain rfl := Option.some.inj (hsr.symm.trans hmp)
    have hc := hchild rfl
    refine ⟨s.heap.setModel s.superroot { sr with children := [some new], level := mn.level - 1 },
      ?_, s.heap.length_setModel _ _, Heap.dataAt_setModel hsr _, ?_⟩
    · rw [installRoot_super hsr (by rw [hc]; rfl) hnew, if_pos rfl]
    · rw [Heap.modelAt_setModel hsr, decide_eq_true rfl]
      unfold withChild
      rw [hc]
      rfl
  · refine ⟨s.heap, ?_, rfl, rfl, ?_⟩
    · rw [installRoot_below hp, if_neg hp]
    · rw [decide_eq_false hp]
      have hw : withChild mp mp.children false mn.level = mp := rfl
      rw [hw, Function.update_eq_self_iff.mpr hmp.symm]

variable [NodeModel M]

/-- A downward split below the node `p`. -/
theorem splitDownwards_spec (hr : Replaceable s key mid L p n m)
    (hc : Created T s.heap h₁ L n D parts) (hlt : n.minLimit < n.maxLimit) {t : Index M P}
    (hlen : t.heap.length = h₁.length)
    (hdata : t.heap.dataAt = h₁.dataAt) {sr mp : ModelNode}
    (hsr : t.heap.modelAt t.superroot = some sr) (hp : t.heap.modelAt p = some mp) {bid : ℕ}
    (hfit : mp.blockStart bid n.localDepth + mp.repeats n.localDepth ≤ mp.children.length)
    (hone : p = t.superroot → mp.numChildren = 1 ∧ mp.children.length = 1 ∧ bid = 0) :
    ∃ h' md children cp, splitDownwards t L p bid D parts = some { t with
        heap := h'
        rootNode := if p = t.superroot then h₁.length else t.rootNode
        retired := L :: t.retired } ∧
      h'.length = h₁.length + 1 ∧
      h'.modelAt = Function.update (Function.update t.heap.modelAt h₁.length
        (some { md with children := children })) p (some (ModelNode.releaseReadLock
          (withChild mp cp (decide (p = t.superroot)) md.level))) ∧
      Block md n D 0 D 0 ∧ md.level = n.level ∧ md.localDepth = n.localDepth ∧
      md.lock = 0#32 ∧ md.isObsolete = false ∧ md.children.length = md.numChildren ∧
      BlockGiven md { md with children := children } D 0 D 0 parts ∧
      (∀ j, ({ mp with children := cp } : ModelNode).childAt j =
        if mp.blockStart bid n.localDepth ≤ j ∧
          j < mp.blockStart bid n.localDepth + mp.repeats n.localDepth then some h₁.length
        else mp.childAt j) ∧ cp.length = mp.children.length ∧
      (p = t.superroot → cp = [some h₁.length]) ∧
      Outcome T s h' L n md D 0 D 0 parts := by
  have hltL := Heap.dataAt_lt hr.get
  obtain ⟨left, right, hleft, hright⟩ := exists_ends hc.ne_nil
  obtain ⟨a, b, hold⟩ := hc.leaf
  have hold' : t.heap.dataAt L = some (n.retiring a b) := by rw [hdata]; exact hold
  obtain ⟨md, hmd, hb, hlevel, hdep, hlock, hcur, hchildren, hnum⟩ := Block.downward hlt (D := D)
  have hmd' : downwardNode (n.retiring a b) D = some md := hmd
  have hmdlen : md.children.length = md.numChildren :=
    by rw [hchildren, hnum, List.length_replicate]
  obtain ⟨h₃, children, hplace, hlen₃, hmodel₃, hlenc, hout, hslots, hu, hparts⟩ :=
    hc.place hltL hb hdata (by rw [hmdlen]; exact hb.fit)
  have hlenh : h₃.length = h₁.length := hlen₃.trans hlen
  let mn : ModelNode := { md with children := children }
  have hread : mn.getReadLock = some mn.reading := mn.getReadLock_free hlock hcur
  have hp₃ : h₃.modelAt p = some mp := by rw [hmodel₃]; exact hp
  have hplt : p ≠ h₃.length := (Heap.modelAt_lt hp₃).ne
  have hp₄ : Heap.modelAt (h₃ ++ [.model mn.reading]) p = some mp := by
    rw [Heap.modelAt_snoc_model, Function.update_of_ne hplt]
    exact hp₃
  obtain ⟨cp, hpoint, hlencp, hcp⟩ := pointBlock_spec hp₄ hfit h₃.length
  generalize hh₅ : Heap.setModel (h₃ ++ [.model mn.reading]) p { mp with children := cp } = h₅
    at hpoint
  have hd₅ : h₅.dataAt = h₃.dataAt := by
    rw [← hh₅, Heap.dataAt_setModel hp₄, Heap.dataAt_snoc_model]
  have hm₅ : h₅.modelAt = Function.update (Function.update t.heap.modelAt h₃.length
      (some mn.reading)) p (some { mp with children := cp }) := by
    rw [← hh₅, Heap.modelAt_setModel hp₄, Heap.modelAt_snoc_model, hmodel₃]
  have hlen₅ : h₅.length = h₁.length + 1 := by
    rw [← hh₅, Heap.length_setModel, List.length_append, hlenh]
    rfl
  have hu₅ := hu.congr hd₅
  obtain ⟨h₆, hlink, hs₆⟩ := linkParts_spec hr hu₅ hleft hright
  have hm₆ : h₆.modelAt = h₅.modelAt := Heap.DataStep.modelAt hs₆
  have hnew₆ : h₆.modelAt h₃.length = some mn.reading := by
    rw [hm₆, hm₅, Function.update_of_ne (fun h => hplt h.symm), Function.update_self]
  have hp₆ : h₆.modelAt p = some { mp with children := cp } := by
    rw [hm₆, hm₅, Function.update_self]
  have hcp₁ : p = t.superroot → cp = [some h₃.length] := by
    intro hps
    obtain ⟨hn1, hl1, hb0⟩ := hone hps
    rw [hl1] at hlencp
    obtain ⟨c, rfl⟩ := List.length_eq_one_iff.mp hlencp
    have h0 := hcp 0
    rw [hb0, mp.blockStart_zero, Nat.zero_add, if_pos ⟨le_refl 0, mp.repeats_pos _⟩] at h0
    unfold ModelNode.childAt at h0
    obtain rfl : c = some h₃.length := by simpa using h0
    rfl
  have hsr₆ : ∃ sr', h₆.modelAt t.superroot = some sr' := by
    rw [hm₆, hm₅]
    by_cases hps : t.superroot = p
    · exact ⟨_, by rw [hps, Function.update_self]⟩
    · refine ⟨sr, ?_⟩
      rw [Function.update_of_ne hps, Function.update_of_ne (hlen₃ ▸ (Heap.modelAt_lt hsr).ne)]
      exact hsr
  obtain ⟨sr', hsr'⟩ := hsr₆
  obtain ⟨h₇, hinst, hlen₇, hd₇, hm₇⟩ := installRoot_spec (s := { t with heap := h₆ }) hsr' hp₆
    hcp₁ hnew₆
  have hnew₇ : h₇.modelAt h₃.length = some mn.reading := by
    rw [hm₇, Function.update_of_ne (fun h => hplt h.symm)]
    exact hnew₆
  have hp₈ : (h₇.setModel h₃.length mn).modelAt p = some (withChild { mp with children := cp } cp
      (decide (p = t.superroot)) mn.reading.level) := by
    rw [Heap.modelAt_setModel hnew₇, Function.update_of_ne hplt, hm₇, Function.update_self]
  obtain ⟨h', hfin, hlen', hmodel', hdone⟩ := finish hr hc hleft hright hu₅
    (fun b hbs => (hparts b hbs).congr hd₅)
    (t := { t with
      heap := h₇.setModel h₃.length mn
      rootNode := if p = t.superroot then h₃.length else t.rootNode })
    (fun x => by
      show (h₇.setModel h₃.length mn).dataAt x = _
      rw [Heap.dataAt_setModel hnew₇, hd₇]
      exact Heap.DataStep.dataAt hs₆ x) hp₈ ModelNode.releaseReadLock
  refine ⟨h', md, children, cp, ?_, ?_, ?_, hb, hlevel, hdep, hlock, hcur, hmdlen,
    BlockGiven.of_children hlenc hout hslots, ?_, hlencp, ?_, hdone⟩
  · unfold splitDownwards
    simp only [hold', hmd', hplace, Option.bind_eq_bind, Option.bind_some]
    have hread' : ModelNode.getReadLock { md with children := children } = some mn.reading := hread
    have hdepth : (n.retiring a b).localDepth = n.localDepth := rfl
    rw [hread', Option.bind_some, hdepth, hpoint, Option.bind_some, hlink, Option.bind_some, hinst]
    have hrel : mn.reading.releaseReadLock = mn := ModelNode.releaseReadLock_reading hlock
    simp only [Option.bind_some, Heap.modifyModel_eq hnew₇, hrel]
    rw [hfin, hlenh]
  · rw [hlen']
    show (h₇.setModel h₃.length mn).length = _
    rw [Heap.length_setModel, hlen₇]
    show h₆.length = _
    rw [Heap.DataStep.length hs₆, hlen₅]
  · rw [hmodel']
    show Function.update (Heap.modelAt (h₇.setModel h₃.length mn)) p _ = _
    rw [Heap.modelAt_setModel hnew₇, hm₇, hm₆, hm₅, hlenh]
    funext x
    by_cases hxp : x = p
    · subst hxp
      rw [Function.update_self, Function.update_self]
      rfl
    · rw [Function.update_of_ne hxp, Function.update_of_ne hxp]
      by_cases hxn : x = h₁.length
      · subst hxn
        rw [Function.update_self, Function.update_self]
      · rw [Function.update_of_ne hxn, Function.update_of_ne hxp, Function.update_of_ne hxp,
          Function.update_of_ne hxn, Function.update_of_ne hxn]
  · rw [← hlenh]
    exact hcp
  · rw [← hlenh]
    exact hcp₁

/-! ### Expanding the parent -/

/-- What replacing the parent `p` of a leaf by an expanded copy needs: its own parent `gp` leads the
key to it and is not locked. -/
structure Expandable (s : Index M P) (key : ℤ) (mid : List NodeId) (p gp : NodeId)
    (m mg : ModelNode) : Prop where
  last : (s.superroot :: mid).getLast? = some gp
  ne : p ≠ s.superroot ∧ gp ≠ p
  get : s.heap.modelAt gp = some mg
  lock : mg.lock = 0#32
  current : mg.isObsolete = false
  child : mg.getChildNode key = some p
  fit : mg.blockStart (mg.bucketOf key) m.localDepth + mg.repeats m.localDepth ≤ mg.children.length
  one : gp = s.superroot → mg.numChildren = 1 ∧ mg.children.length = 1

theorem expandParent_spec {mid' : List NodeId} (hr : Replaceable s key (mid' ++ [p]) L p n m)
    {gp : NodeId} {mg : ModelNode} (he : Expandable s key mid' p gp m mg) {h : Heap M P}
    (hmodel : h.modelAt = Function.update s.heap.modelAt p (some m.reading))
    (hdata : ∀ x k, s.heap.dataAt x = some k → ∃ k', h.dataAt x = some k')
    (hlen : s.heap.length ≤ h.length) (k : ℕ) :
    ∃ h' cg, expandParent { s with heap := h } key p k = some (h.length, { s with
        heap := h'
        rootNode := if gp = s.superroot then h.length else s.rootNode
        retired := p :: s.retired }) ∧
      h'.length = h.length + 1 ∧ h'.dataAt = h.dataAt ∧
      h'.modelAt = Function.update (Function.update (Function.update s.heap.modelAt h.length
        (some (m.writing.expand k))) gp
          (some (withChild mg cg (decide (gp = s.superroot)) m.level))) p
        (some { m.writing with isObsolete := true }) ∧
      (∀ j, ({ mg with children := cg } : ModelNode).childAt j =
        if mg.blockStart (mg.bucketOf key) m.localDepth ≤ j ∧
          j < mg.blockStart (mg.bucketOf key) m.localDepth + mg.repeats m.localDepth then
          some h.length else mg.childAt j) ∧ cg.length = mg.children.length ∧
      (gp = s.superroot → cg = [some h.length]) := by
  obtain ⟨sm, hsm⟩ := hr.super
  obtain ⟨hps, hgp⟩ := he.ne
  have hpar := hr.parent
  have hplt : p < h.length := (Heap.modelAt_lt hpar).trans_le hlen
  have hglt : gp < h.length := (Heap.modelAt_lt he.get).trans_le hlen
  have hp : h.modelAt p = some m.reading := by rw [hmodel, Function.update_self]
  have hprom : m.reading.promoteFromReadToWrite = some m.writing :=
    ModelNode.promote_reading hr.current
  generalize hh₁ : (h.setModel p m.writing ++ [.model (m.writing.expand k)] : Heap M P) = h₁
  have hlen₀ := h.length_setModel p m.writing
  have hm₁ : h₁.modelAt = Function.update (Function.update s.heap.modelAt p (some m.writing))
      h.length (some (m.writing.expand k)) := by
    rw [← hh₁, Heap.modelAt_snoc_model, hlen₀, Heap.modelAt_setModel hp, hmodel,
      Function.update_idem]
  have hd₁ : h₁.dataAt = h.dataAt := by
    rw [← hh₁, Heap.dataAt_snoc_model, Heap.dataAt_setModel hp]
  have hlen₁ : h₁.length = h.length + 1 := by
    rw [← hh₁, List.length_append, hlen₀]
    rfl
  have hold : ∀ x mx, s.heap.modelAt x = some mx → x ≠ p → h₁.modelAt x = some mx := by
    intro x mx hx hne
    rw [hm₁, Function.update_of_ne ((Heap.modelAt_lt hx).trans_le hlen).ne,
      Function.update_of_ne hne]
    exact hx
  have hp₁ : h₁.modelAt p = some m.writing := by
    rw [hm₁, Function.update_of_ne hplt.ne, Function.update_self]
  have hsuper : SuperrootOK { s with heap := h₁ } sm :=
    ⟨hold _ _ hsm.get (fun h => hps h.symm), hsm.numChildren, hsm.children, hsm.lock, hsm.current⟩
  -- the descents only see that the lock of the parent has changed
  have htr : Trail h₁.frame key (s.superroot :: (mid' ++ p :: [L])) := by
    have htr₀ := hr.trail
    rw [List.append_assoc] at htr₀
    refine htr₀.congr (fun x _ mx hmx => ?_) (fun x _ level d lo hi hf => ?_)
    · by_cases hxp : x = p
      · subst hxp
        obtain rfl := Option.some.inj (hpar.symm.trans (Heap.modelAt_of_frame hmx))
        exact ⟨_, Heap.frame_model hp₁, rfl⟩
      · exact ⟨mx, Heap.frame_model (hold x mx (Heap.modelAt_of_frame hmx) hxp), rfl⟩
    · obtain ⟨y, hy, _⟩ := Heap.frame_leaf.mp hf
      obtain ⟨y', hy'⟩ := hdata x y (Heap.dataAt_eq_some.mpr hy)
      exact ⟨_, _, _, _, Heap.frame_data (by rw [hd₁]; exact hy')⟩
  have hg₁ : h₁.modelAt gp = some mg := hold gp mg he.get hgp
  obtain ⟨gp', mg', hlock, hlast, hmg', _⟩ := lockParentNode_trail (s := { s with heap := h₁ })
    hsuper htr (fun q mq hq hmq => by
      obtain rfl := Option.some.inj (he.last.symm.trans hq)
      obtain rfl := Option.some.inj (hg₁.symm.trans hmq)
      exact ⟨he.lock, he.current⟩)
  obtain rfl := Option.some.inj (he.last.symm.trans hlast)
  obtain rfl := Option.some.inj (hg₁.symm.trans hmg')
  have hg₂ : (h₁.setModel gp mg.reading).modelAt gp = some mg.reading := by
    rw [Heap.modelAt_setModel hg₁, Function.update_self]
  obtain ⟨cg, hpoint, hlencg, hcg⟩ := pointBlock_spec (m := mg.reading) hg₂ he.fit h.length
  generalize hh₃ : (Heap.setModel (Heap.setModel h₁ gp mg.reading) gp
    { mg.reading with children := cg }) = h₃ at hpoint
  have hd₃ : h₃.dataAt = h.dataAt := by
    rw [← hh₃, Heap.dataAt_setModel hg₂, Heap.dataAt_setModel hg₁, hd₁]
  have hm₃ : h₃.modelAt = Function.update h₁.modelAt gp
      (some { mg.reading with children := cg }) := by
    rw [← hh₃, Heap.modelAt_setModel hg₂, Heap.modelAt_setModel hg₁, Function.update_idem]
  have hlen₃ : h₃.length = h.length + 1 := by
    rw [← hh₃, Heap.length_setModel, Heap.length_setModel, hlen₁]
  have hcg₁ : gp = s.superroot → cg = [some h.length] := by
    intro hgs
    obtain ⟨hn1, hl1⟩ := he.one hgs
    have hl : cg.length = 1 := hlencg.trans hl1
    obtain ⟨c, rfl⟩ := List.length_eq_one_iff.mp hl
    have hb0 : mg.bucketOf key = 0 := by
      have := mg.bucketOf_lt (by rw [hn1]; exact Nat.one_pos) key
      omega
    have h0 := hcg 0
    have hstart : mg.reading.blockStart (mg.bucketOf key) m.localDepth = 0 := by
      rw [hb0]
      exact mg.blockStart_zero _
    rw [hstart, Nat.zero_add, if_pos ⟨le_refl 0, mg.reading.repeats_pos _⟩] at h0
    unfold ModelNode.childAt at h0
    obtain rfl : c = some h.length := by simpa using h0
    rfl
  have hg₃ : h₃.modelAt gp = some { mg.reading with children := cg } := by
    rw [hm₃, Function.update_self]
  have hnew₃ : h₃.modelAt h.length = some (m.writing.expand k) := by
    rw [hm₃, Function.update_of_ne hglt.ne', hm₁, Function.update_self]
  have hsr₃ : ∃ sr, h₃.modelAt s.superroot = some sr := by
    rw [hm₃]
    by_cases hgs : s.superroot = gp
    · exact ⟨_, by rw [hgs, Function.update_self]⟩
    · exact ⟨sm, by rw [Function.update_of_ne hgs]; exact hsuper.get⟩
  obtain ⟨sr, hsr⟩ := hsr₃
  obtain ⟨h₄, hinst, hlen₄, hd₄, hm₄⟩ := installRoot_spec (s := { s with heap := h₃ }) hsr hg₃ hcg₁
    hnew₃
  have hg₄ : h₄.modelAt gp = some (withChild { mg.reading with children := cg } cg
      (decide (gp = s.superroot)) m.level) := by
    rw [hm₄, Function.update_self]
    rfl
  have hp₅ : (h₄.setModel gp (withChild mg cg (decide (gp = s.superroot)) m.level)).modelAt p =
      some m.writing := by
    rw [Heap.modelAt_setModel hg₄, Function.update_of_ne (fun h => hgp h.symm), hm₄,
      Function.update_of_ne (fun h => hgp h.symm)]
    show h₃.modelAt p = _
    rw [hm₃, Function.update_of_ne (fun h => hgp h.symm)]
    exact hp₁
  have hrel : (withChild { mg.reading with children := cg } cg (decide (gp = s.superroot))
      m.level).releaseReadLock = withChild mg cg (decide (gp = s.superroot)) m.level :=
    ModelNode.releaseReadLock_reading
      (m := withChild mg cg (decide (gp = s.superroot)) m.level) he.lock
  refine ⟨(h₄.setModel gp (withChild mg cg (decide (gp = s.superroot)) m.level)).setModel p
    { m.writing with isObsolete := true }, cg, ?_, ?_, ?_, ?_, hcg, hlencg, hcg₁⟩
  · unfold expandParent
    simp only [hp, hprom, hh₁, hlock, Option.bind_eq_bind, Option.bind_some]
    have hdep : m.writing.localDepth = m.localDepth := rfl
    rw [hdep, hpoint, Option.bind_some, hinst]
    simp only [Option.bind_some, Heap.modifyModel_eq hg₄, hrel, Heap.modifyModel_eq hp₅]
    rfl
  · rw [Heap.length_setModel, Heap.length_setModel, hlen₄]
    exact hlen₃
  · rw [Heap.dataAt_setModel hp₅, Heap.dataAt_setModel hg₄, hd₄]
    exact hd₃
  · rw [Heap.modelAt_setModel hp₅, Heap.modelAt_setModel hg₄, hm₄]
    show Function.update (Function.update (Function.update h₃.modelAt gp _) gp _) p _ = _
    rw [Function.update_idem, hm₃, Function.update_idem, hm₁]
    funext x
    by_cases hxp : x = p
    · subst hxp
      rw [Function.update_self, Function.update_self]
    · rw [Function.update_of_ne hxp, Function.update_of_ne hxp]
      by_cases hxg : x = gp
      · subst hxg
        rw [Function.update_self, Function.update_self]
      · rw [Function.update_of_ne hxg, Function.update_of_ne hxg]
        by_cases hxn : x = h.length
        · subst hxn
          rw [Function.update_self, Function.update_self]
        · rw [Function.update_of_ne hxn, Function.update_of_ne hxn, Function.update_of_ne hxp]

end Index

end LearnedIndex.Alexol
