import LearnedIndex.Alexol.Tree

/-! # Replacing parts of the tree

The three ways in which an index changes its tree: the block of a child is given to new nodes
(`Tree.replace`), a model node is replaced by an expanded copy below its parent (`Tree.expand`) or
as the root (`Tree.expandTop`).  All other live nodes keep their frames. -/

namespace LearnedIndex.Alexol

/-- The two model nodes divide the keys in the same way and sit at the same place. -/
structure SameShape (m m' : ModelNode) : Prop where
  numChildren : m'.numChildren = m.numChildren
  model : m'.model = m.model
  level : m'.level = m.level
  localDepth : m'.localDepth = m.localDepth
  length : m'.children.length = m.children.length

namespace SameShape

variable {m m' : ModelNode}

theorem edge (h : SameShape m m') (i : ℕ) : m'.edge i = m.edge i := by
  unfold ModelNode.edge
  rw [h.model]

theorem repeats (h : SameShape m m') (d : ℕ) : m'.repeats d = m.repeats d := by
  unfold ModelNode.repeats
  rw [h.numChildren]

theorem blockStart (h : SameShape m m') (i d : ℕ) : m'.blockStart i d = m.blockStart i d := by
  unfold ModelNode.blockStart
  rw [h.repeats]

end SameShape

/-- The frames of a node before and after a change that keeps its place. -/
def SameFrame (f f' : Frame) : Prop :=
  f' = f ∨ ∃ m m', f = .node m ∧ f' = .node m' ∧ SameShape m m'

namespace SameFrame

variable {f f' : Frame}

theorem place (h : SameFrame f f') :
    f'.level = f.level ∧ f'.localDepth = f.localDepth ∧ f'.lo = f.lo ∧ f'.hi = f.hi := by
  rcases h with rfl | ⟨m, m', rfl, rfl, hs⟩
  · exact ⟨rfl, rfl, rfl, rfl⟩
  · refine ⟨hs.level, hs.localDepth, hs.edge 0, ?_⟩
    show m'.edge m'.numChildren = m.edge m.numChildren
    rw [hs.edge, hs.numChildren]

end SameFrame

/-- A child keeps its place when its own frame and the slots of its block do. -/
theorem ChildAt.congr {F F' : NodeId → Option Frame} {m m' : ModelNode} {i : ℕ} {c : NodeId}
    {f f' : Frame} (h : ChildAt F m i c f) (hs : SameShape m m') (hget : F' c = some f')
    (hf : SameFrame f f')
    (hslots : ∀ j, m.blockStart i f.localDepth ≤ j →
      j < m.blockStart i f.localDepth + m.repeats f.localDepth → m'.childAt j = some c) :
    ChildAt F' m' i c f' := by
  obtain ⟨h1, h2, h3, h4⟩ := hf.place
  refine ⟨hget, ?_, ?_, ?_, ?_, ?_⟩
  · rw [h1, h.level, hs.level]
  · rw [h2, hs.numChildren]
    exact h.depth
  · rw [h2, hs.blockStart, hs.repeats]
    exact hslots
  · rw [h3, h2, hs.blockStart, hs.edge]
    exact h.lo
  · rw [h4, h2, hs.blockStart, hs.repeats, hs.edge]
    exact h.hi

theorem SameShape.refl (m : ModelNode) : SameShape m m := ⟨rfl, rfl, rfl, rfl, rfl⟩

namespace Tree

variable {F F' : NodeId → Option Frame} {root : NodeId} {live live' : Set NodeId}
  {par par' : NodeId → NodeId}

/-- A child is not its own parent. -/
theorem child_ne {p c : NodeId} {m : ModelNode} {i : ℕ} {f : Frame} (hp : F p = some (.node m))
    (hc : ChildAt F m i c f) : c ≠ p := by
  rintro rfl
  obtain rfl := Option.some.inj (hp.symm.trans hc.get)
  have := hc.level
  simp [Frame.level] at this

/-- The children of the other nodes keep their places. -/
theorem modelOK_frame (ht : Tree F root live par) {x L : NodeId} {mx : ModelNode}
    (hx : x ∈ live) (hmx : F x = some (.node mx)) (hL : par L ≠ x)
    (hlive : ∀ y ∈ live, y ≠ L → y ∈ live')
    (hsame : ∀ y ∈ live, y ≠ L → ∀ f, F y = some f → ∃ f', F' y = some f' ∧ SameFrame f f') :
    ModelOK F' live' mx := by
  have hm := ht.model x hx mx hmx
  refine ⟨hm.size, hm.length, hm.slope, fun i hi => ?_⟩
  obtain ⟨c, f, hl, hc⟩ := hm.child i hi
  have hcL : c ≠ L := fun h => hL (h ▸ ht.parent x hx mx i c hmx hc.child)
  obtain ⟨f', hf', hsf⟩ := hsame c hl hcL f hc.get
  exact ⟨c, f', hlive c hl hcL, hc.congr (SameShape.refl mx) hf' hsf hc.slots⟩

/-- What a replacement of the child `L` of `p` by the nodes `new` has to provide. -/
structure Replacement (F F' : NodeId → Option Frame) (root : NodeId) (live live' new : Set NodeId)
    (par par' : NodeId → NodeId) (p L : NodeId) (m m' : ModelNode) (s e : ℕ) : Prop where
  live_eq : live' = (live \ {L}) ∪ new
  fresh : ∀ x ∈ new, x ∉ live
  root_ne : root ≠ L
  same : ∀ x ∈ live, x ≠ p → x ≠ L → F' x = F x
  get : F' p = some (.node m')
  shape : SameShape m m'
  outside : ∀ j, ¬ (s ≤ j ∧ j < e) → m'.childAt j = m.childAt j
  inside : ∀ j, s ≤ j → j < e → ∃ c f, c ∈ new ∧ ChildAt F' m' j c f ∧ par' c = p
  nodes : ∀ x ∈ new, ∃ f, F' x = some f ∧ ∀ mx, f = .node mx → ModelOK F' live' mx ∧
    ∀ i c, mx.childAt i = some c → par' c = x ∧ c ≠ root
  parents : ∀ c ∈ live, par c ≠ L → par' c = par c

/-- The block of a child is given to new nodes. -/
theorem replace (ht : Tree F root live par) {p L : NodeId} {m m' : ModelNode} {i : ℕ} {fL : Frame}
    {new : Set NodeId} (hp : p ∈ live) (hm : F p = some (.node m)) (hL : ChildAt F m i L fL)
    (hr : Replacement F F' root live live' new par par' p L m m' (m.blockStart i fL.localDepth)
      (m.blockStart i fL.localDepth + m.repeats fL.localDepth)) : Tree F' root live' par' := by
  have hmOK := ht.model p hp m hm
  have hLp : L ≠ p := child_ne hm hL
  have hparL : par L = p := ht.parent p hp m i L hm hL.child
  have hlive : ∀ y ∈ live, y ≠ L → y ∈ live' := fun y hy hne => by
    rw [hr.live_eq]
    exact Or.inl ⟨hy, hne⟩
  have hsame : ∀ y ∈ live, y ≠ L → ∀ f, F y = some f → ∃ f', F' y = some f' ∧ SameFrame f f' := by
    intro y hy hyL f hf
    by_cases hyp : y = p
    · subst hyp
      obtain rfl := Option.some.inj (hm.symm.trans hf)
      exact ⟨_, hr.get, Or.inr ⟨m, m', rfl, rfl, hr.shape⟩⟩
    · exact ⟨f, (hr.same y hy hyp hyL).trans hf, Or.inl rfl⟩
  -- a slot of the parent keeps its child or points at a new node
  have hslot : ∀ j c, m'.childAt j = some c →
      (m.childAt j = some c ∧ c ∈ live ∧ c ≠ L) ∨ (c ∈ new ∧ par' c = p) := by
    intro j c hj
    by_cases hb : m.blockStart i fL.localDepth ≤ j ∧
        j < m.blockStart i fL.localDepth + m.repeats fL.localDepth
    · obtain ⟨c', f, hc', hca, hpar⟩ := hr.inside j hb.1 hb.2
      obtain rfl := Option.some.inj (hca.child.symm.trans hj)
      exact Or.inr ⟨hc', hpar⟩
    · rw [hr.outside j hb] at hj
      refine Or.inl ⟨hj, (hmOK.childAt hj).1, ?_⟩
      rintro rfl
      exact hb ((hmOK.slot_iff hL j).mp hj)
  have hold : ∀ x ∈ live, x ≠ L → x ≠ p → ∀ mx, F' x = some (.node mx) → F x = some (.node mx) :=
    fun x hx hxL hxp mx hmx => (hr.same x hx hxp hxL).symm.trans hmx
  refine ⟨hlive root ht.root_mem hr.root_ne, ?_, ?_, ?_, ?_⟩
  · intro x hx
    rw [hr.live_eq] at hx
    rcases hx with ⟨hx, hxL⟩ | hx
    · obtain ⟨f, hf⟩ := ht.get x hx
      obtain ⟨f', hf', _⟩ := hsame x hx hxL f hf
      exact ⟨f', hf'⟩
    · obtain ⟨f, hf, _⟩ := hr.nodes x hx
      exact ⟨f, hf⟩
  · intro x hx mx hmx
    rw [hr.live_eq] at hx
    rcases hx with ⟨hx, hxL⟩ | hx
    · by_cases hxp : x = p
      · subst hxp
        obtain rfl : m' = mx := by simpa using hr.get.symm.trans hmx
        refine ⟨hr.shape.numChildren ▸ hmOK.size, ?_, hr.shape.model ▸ hmOK.slope, fun j hj => ?_⟩
        · rw [hr.shape.length, hr.shape.numChildren]
          exact hmOK.length
        · by_cases hb : m.blockStart i fL.localDepth ≤ j ∧
              j < m.blockStart i fL.localDepth + m.repeats fL.localDepth
          · obtain ⟨c, f, hc, hca, _⟩ := hr.inside j hb.1 hb.2
            refine ⟨c, f, ?_, hca⟩
            rw [hr.live_eq]
            exact Or.inr hc
          · rw [hr.shape.numChildren] at hj
            obtain ⟨c, f, hl, hca⟩ := hmOK.child j hj
            have hcL : c ≠ L := fun h => hb ((hmOK.slot_iff hL j).mp (h ▸ hca.child))
            obtain ⟨f', hf', hsf⟩ := hsame c hl hcL f hca.get
            refine ⟨c, f', hlive c hl hcL, hca.congr hr.shape hf' hsf (fun j' h1 h2 => ?_)⟩
            rw [hr.outside j' (fun hb' => hcL ?_)]
            · exact hca.slots j' h1 h2
            · exact Option.some.inj ((hca.slots j' h1 h2).symm.trans (hL.slots j' hb'.1 hb'.2))
      · exact ht.modelOK_frame (L := L) hx (hold x hx hxL hxp mx hmx)
          (by rw [hparL]; exact fun h => hxp h.symm) hlive hsame
    · obtain ⟨f, hf, hmodel⟩ := hr.nodes x hx
      exact (hmodel mx (Option.some.inj (hf.symm.trans hmx))).1
  · intro x hx mx j c hmx hj
    rw [hr.live_eq] at hx
    rcases hx with ⟨hx, hxL⟩ | hx
    · by_cases hxp : x = p
      · subst hxp
        obtain rfl : m' = mx := by simpa using hr.get.symm.trans hmx
        rcases hslot j c hj with ⟨hj, hl, hcL⟩ | ⟨_, hpar⟩
        · have hpc := ht.parent x hx m j c hm hj
          rw [hr.parents c hl (by rw [hpc]; exact fun h => hLp h.symm), hpc]
        · exact hpar
      · have hmx' := hold x hx hxL hxp mx hmx
        have hpc := ht.parent x hx mx j c hmx' hj
        rw [hr.parents c (((ht.model x hx mx hmx').childAt hj).1) (by rw [hpc]; exact hxL), hpc]
    · obtain ⟨f, hf, hmodel⟩ := hr.nodes x hx
      exact ((hmodel mx (Option.some.inj (hf.symm.trans hmx))).2 j c hj).1
  · intro x hx mx j hmx hj
    rw [hr.live_eq] at hx
    rcases hx with ⟨hx, hxL⟩ | hx
    · by_cases hxp : x = p
      · subst hxp
        obtain rfl : m' = mx := by simpa using hr.get.symm.trans hmx
        rcases hslot j root hj with ⟨hj, _, _⟩ | ⟨hn, _⟩
        · exact ht.root_free x hx m j hm hj
        · exact hr.fresh root hn ht.root_mem
      · exact ht.root_free x hx mx j (hold x hx hxL hxp mx hmx) hj
    · obtain ⟨f, hf, hmodel⟩ := hr.nodes x hx
      exact ((hmodel mx (Option.some.inj (hf.symm.trans hmx))).2 j root hj).2 rfl

/-! ### Expansion -/

theorem childAt_expand (m : ModelNode) (k i : ℕ) :
    (m.expand k).childAt i = m.childAt (i / 2 ^ k) := by
  unfold ModelNode.childAt
  rw [m.expand_getElem?]

/-- The expanded node has its children at the same key ranges. -/
theorem modelOK_expand {m : ModelNode} (hm : ModelOK F live m) (k : ℕ)
    (hsame : ∀ i c, m.childAt i = some c → c ∈ live' ∧ F' c = F c) :
    ModelOK F' live' (m.expand k) := by
  obtain ⟨g, hg⟩ := hm.size
  have hf := Nat.two_pow_pos k
  have hg' : (m.expand k).numChildren = 2 ^ (g + k) := by
    rw [m.expand_numChildren, hg, pow_add]
  refine ⟨⟨g + k, hg'⟩, ?_, m.expand_slope hm.slope k, fun i hi => ?_⟩
  · rw [m.expand_length, hm.length]
    rfl
  · have hi' : i / 2 ^ k < m.numChildren := by
      rw [Nat.div_lt_iff_lt_mul hf]
      exact hi
    obtain ⟨c, f, hl, hc⟩ := hm.child _ hi'
    obtain ⟨hl', hF⟩ := hsame _ c hc.child
    have hd : f.localDepth ≤ g := by
      have := hc.depth
      rwa [hg, log2RoundDown_two_pow] at this
    have hb := m.expand_blockStart hg hd k i
    have hrep := m.expand_repeats hg hd k
    refine ⟨c, f, hl', hF.trans hc.get, hc.level, ?_, fun j h1 h2 => ?_, ?_, ?_⟩
    · rw [hg', log2RoundDown_two_pow]
      omega
    · rw [childAt_expand]
      rw [hb] at h1 h2
      rw [hrep, ← Nat.add_mul] at h2
      exact hc.slots _ ((Nat.le_div_iff_mul_le hf).mpr h1) ((Nat.div_lt_iff_lt_mul hf).mpr h2)
    · rw [hb, m.expand_edge]
      exact hc.lo
    · rw [hb, hrep, ← Nat.add_mul, m.expand_edge]
      exact hc.hi

/-- A model node at the root is replaced by an expanded copy. -/
theorem expandTop (ht : Tree F root live par) {m : ModelNode} (hm : F root = some (.node m))
    (k : ℕ) {new : NodeId} (hnew : new ∉ live)
    (hlive : live' = (live \ {root}) ∪ {new}) (hsame : ∀ x ∈ live, x ≠ root → F' x = F x)
    (hget : F' new = some (.node (m.expand k))) :
    Tree F' new live' (fun c => if par c = root then new else par c) := by
  have hmOK := ht.model root ht.root_mem m hm
  have hstay : ∀ y ∈ live, y ≠ root → y ∈ live' := fun y hy hne => by
    rw [hlive]
    exact Or.inl ⟨hy, hne⟩
  have hchild : ∀ i c, m.childAt i = some c → c ∈ live ∧ c ≠ root ∧ par c = root := by
    intro i c hc
    exact ⟨(hmOK.childAt hc).1, fun h => ht.root_free root ht.root_mem m i hm (h ▸ hc),
      ht.parent root ht.root_mem m i c hm hc⟩
  have hmem : ∀ x ∈ live', (x ∈ live ∧ x ≠ root) ∨ x = new := by
    intro x hx
    rw [hlive] at hx
    exact hx
  refine ⟨by rw [hlive]; exact Or.inr rfl, ?_, ?_, ?_, ?_⟩
  · intro x hx
    rcases hmem x hx with ⟨hx, hne⟩ | rfl
    · rw [hsame x hx hne]
      exact ht.get x hx
    · exact ⟨_, hget⟩
  · intro x hx mx hmx
    rcases hmem x hx with ⟨hx, hne⟩ | rfl
    · rw [hsame x hx hne] at hmx
      have hmx' := ht.model x hx mx hmx
      refine ⟨hmx'.size, hmx'.length, hmx'.slope, fun i hi => ?_⟩
      obtain ⟨c, f, hl, hc⟩ := hmx'.child i hi
      have hcr : c ≠ root := fun h => ht.root_free x hx mx i hmx (h ▸ hc.child)
      exact ⟨c, f, hstay c hl hcr, hc.congr (SameShape.refl mx) ((hsame c hl hcr).trans hc.get)
        (Or.inl rfl) hc.slots⟩
    · obtain rfl : m.expand k = mx := by simpa using hget.symm.trans hmx
      refine modelOK_expand hmOK k (fun i c hc => ?_)
      obtain ⟨hl, hne, _⟩ := hchild i c hc
      exact ⟨hstay c hl hne, hsame c hl hne⟩
  · intro x hx mx i c hmx hc
    rcases hmem x hx with ⟨hx, hne⟩ | rfl
    · rw [hsame x hx hne] at hmx
      have hpc := ht.parent x hx mx i c hmx hc
      rw [if_neg (by rw [hpc]; exact hne), hpc]
    · obtain rfl : m.expand k = mx := by simpa using hget.symm.trans hmx
      rw [childAt_expand] at hc
      rw [if_pos (hchild _ c hc).2.2]
  · intro x hx mx i hmx hc
    rcases hmem x hx with ⟨hx, hne⟩ | rfl
    · rw [hsame x hx hne] at hmx
      exact hnew ((ht.model x hx mx hmx).childAt hc).1
    · obtain rfl : m.expand k = mx := by simpa using hget.symm.trans hmx
      rw [childAt_expand] at hc
      exact hnew (hchild _ _ hc).1

/-- The frame of the expanded node has the same place. -/
theorem expand_frame (m : ModelNode) (k : ℕ) :
    (Frame.node (m.expand k)).lo = (Frame.node m).lo ∧
      (Frame.node (m.expand k)).hi = (Frame.node m).hi := by
  constructor
  · have := m.expand_edge k 0
    rw [Nat.zero_mul] at this
    exact this
  · exact m.expand_edge k m.numChildren

/-- A model node below the root is replaced by an expanded copy. -/
theorem expand (ht : Tree F root live par) {p gp : NodeId} {m mg mg' : ModelNode} {i : ℕ}
    (hgp : gp ∈ live) (hmg : F gp = some (.node mg)) (hm : F p = some (.node m))
    (hp : ChildAt F mg i p (.node m)) (k : ℕ) {new : NodeId} (hnew : new ∉ live)
    (hlive : live' = (live \ {p}) ∪ {new}) (hsame : ∀ x ∈ live, x ≠ gp → x ≠ p → F' x = F x)
    (hget : F' new = some (.node (m.expand k))) (hgp' : F' gp = some (.node mg'))
    (hshape : SameShape mg mg')
    (hslots : ∀ j, mg'.childAt j = if mg.blockStart i m.localDepth ≤ j ∧
      j < mg.blockStart i m.localDepth + mg.repeats m.localDepth then some new else mg.childAt j) :
    Tree F' root live' (fun c => if c = new then gp else if par c = p then new else par c) := by
  have hmgOK := ht.model gp hgp mg hmg
  have hpl : p ∈ live := (hmgOK.childAt hp.child).1
  have hmOK := ht.model p hpl m hm
  have hpg : p ≠ gp := child_ne hmg hp
  have hroot : root ≠ p := fun h => ht.root_free gp hgp mg i hmg (h ▸ hp.child)
  have hne : ∀ c ∈ live, c ≠ new := fun c hc h => hnew (h ▸ hc)
  have hchild : ∀ j c, m.childAt j = some c → c ∈ live ∧ c ≠ p ∧ par c = p ∧ c ≠ root := by
    intro j c hc
    obtain ⟨hcl, f, hca⟩ := hmOK.childAt hc
    exact ⟨hcl, child_ne hm hca, ht.parent p hpl m j c hm hc,
      fun h => ht.root_free p hpl m j hm (h ▸ hc)⟩
  have hcg : ∀ j c, m.childAt j = some c → c ≠ gp := by
    -- the levels of a node, its child and its grandchild differ
    intro j c hc heq
    obtain ⟨_, f, hca⟩ := hmOK.childAt hc
    have h1 := hca.level
    have h2 := hp.level
    obtain rfl := Option.some.inj (hmg.symm.trans (heq ▸ hca.get))
    simp only [Frame.level] at h1 h2
    omega
  refine ht.replace hgp hmg hp ⟨hlive, ?_, hroot, hsame, hgp', hshape, ?_, ?_, ?_, ?_⟩
  · rintro x rfl
    exact hnew
  · intro j hj
    rw [hslots]
    exact if_neg hj
  · intro j h1 h2
    obtain ⟨hlo, hhi⟩ := expand_frame m k
    have hb : mg'.blockStart j m.localDepth = mg.blockStart i m.localDepth := by
      rw [hshape.blockStart]
      exact ModelNode.blockStart_of_mem (mg.repeats_dvd_blockStart i _) h1 h2
    refine ⟨new, .node (m.expand k), rfl, ⟨hget, ?_, ?_, ?_, ?_, ?_⟩, if_pos rfl⟩
    · rw [hshape.level]
      exact hp.level
    · rw [hshape.numChildren]
      exact hp.depth
    · intro j' h3 h4
      show mg'.childAt j' = _
      have h3 : mg'.blockStart j m.localDepth ≤ j' := h3
      have h4 : j' < mg'.blockStart j m.localDepth + mg'.repeats m.localDepth := h4
      rw [hb] at h3 h4
      rw [hshape.repeats] at h4
      rw [hslots, if_pos ⟨h3, h4⟩]
    · show _ = mg'.edge (mg'.blockStart j m.localDepth)
      rw [hlo, hb, hshape.edge]
      exact hp.lo
    · show _ = mg'.edge (mg'.blockStart j m.localDepth + mg'.repeats m.localDepth)
      rw [hhi, hb, hshape.repeats, hshape.edge]
      exact hp.hi
  · rintro x rfl
    refine ⟨_, hget, ?_⟩
    rintro mx ⟨⟩
    refine ⟨modelOK_expand hmOK k (fun j c hc => ?_), fun j c hc => ?_⟩
    · obtain ⟨hcl, hcp, _, _⟩ := hchild j c hc
      exact ⟨by rw [hlive]; exact Or.inl ⟨hcl, hcp⟩, hsame c hcl (hcg j c hc) hcp⟩
    · rw [childAt_expand] at hc
      obtain ⟨hcl, _, hpar, hcr⟩ := hchild _ c hc
      exact ⟨by rw [if_neg (hne c hcl), if_pos hpar], hcr⟩
  · intro c hc hpar
    rw [if_neg (hne c hc), if_neg hpar]

end Tree

end LearnedIndex.Alexol
