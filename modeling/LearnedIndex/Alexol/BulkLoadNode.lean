import LearnedIndex.Alexol.BulkFanout
import LearnedIndex.Alexol.Loaded

/-! # Loading a node (`bulk_load_node`)

Whatever the costs are, `bulk_load_node` divides its pairs among children over consecutive parts of
its key range and returns a loaded subtree (`bulkLoadNode_spec`).  The recursion ends: a child has
at most half the key range of its node, a range that holds two keys is at least one wide, and a
single key is never worth another level (`CheapSingles`). -/

namespace LearnedIndex.Alexol

open LearnedIndex.Chains LearnedIndex.Forests LearnedIndex.Dyadic FanoutTree

variable {M P : Type}

/-- The value at which a node predicts a fraction. -/
theorem LinearModel.cdf_inv {lo hi : ℚ} (h : lo < hi) (q : ℚ) :
    (q - (LinearModel.cdf lo hi).b) / (LinearModel.cdf lo hi).a = valueAt lo hi q := by
  have h1 : hi - lo ≠ 0 := (sub_pos.mpr h).ne'
  unfold LinearModel.cdf valueAt
  field_simp
  ring

/-- A loaded subtree in place of a node of the given level, behind the nodes of `h`. -/
structure Subtree (T : KeyType) (LO HI : ℚ) (h h' : Heap M P) (level : ℤ) (lo hi : ℚ)
    (values : List (ℤ × P)) (id : NodeId) : Prop where
  loaded : ∃ order, Loaded T LO HI h' h.length h'.length [id] order lo hi values
  keeps : ∀ x : ℕ, x < h.length → h'[x]? = h[x]?
  frame : ∃ f, h'.frame id = some f ∧ f.level = level ∧ f.lo = lo ∧ f.hi = hi

/-- Pairs that can be loaded in place of a node over the keys from `lo` to `hi`. -/
structure Loadable (T : KeyType) (LO HI : ℚ) (values : List (ℤ × P)) (node : ModelNode)
    (lo hi : ℚ) : Prop where
  model : node.model = LinearModel.cdf lo hi
  sorted : values.Pairwise (fun v w => v.1 < w.1)
  inside : ∀ v ∈ values, Inside LO HI lo hi v.1
  bounds : ∀ v ∈ values, LO ≤ v.1 ∧ (v.1 : ℚ) ≤ HI ∧ v.1 ≤ T.max
  cheap : values.length ≤ 1 → node.cost < kNodeLookupsWeight

namespace Loadable

variable {T : KeyType} {LO HI : ℚ} {values : List (ℤ × P)} {node : ModelNode} {lo hi : ℚ}

theorem sorted_le (hv : Loadable T LO HI values node lo hi) :
    values.Pairwise (fun v w => v.1 ≤ w.1) := hv.sorted.imp (fun h => h.le)

/-- Two keys need a range that is at least one wide. -/
theorem one_le (hv : Loadable T LO HI values node lo hi)
    (h2 : ¬ values.length ≤ 1) : 1 ≤ hi - lo := by
  cases values with
  | nil => simp at h2
  | cons v vs =>
      cases vs with
      | nil => simp at h2
      | cons w vs =>
          have hlt := (List.pairwise_cons.mp hv.sorted).1 w (List.mem_cons_self ..)
          have hstep : (v.1 : ℚ) + 1 ≤ w.1 := by exact_mod_cast hlt
          have hv1 := hv.bounds v (by simp)
          have hw1 := hv.bounds w (by simp)
          have h1 : lo ≤ v.1 := by
            rcases (hv.inside v (by simp)).1 with h | h
            · exact h
            · exact h ▸ hv1.1
          have h3 : (w.1 : ℚ) ≤ hi := by
            rcases (hv.inside w (by simp)).2 with h | h
            · exact h.le
            · exact h ▸ hw1.2.1
          linarith

end Loadable

/-! ### Data nodes -/

/-- A fresh leaf that is loaded with pairs of its range. -/
theorem LoadedLeaf.of_bulkLoad [NodeModel M] {T : KeyType} {LO HI : ℚ} (n : DataNode M P)
    (hlock : n.lock = 0#32)
    (hlink : n.linkLock = 0#32) (hprev : n.prevLeaf = none) (hnext : n.nextLeaf = none)
    {values : List (ℤ × P)} (hs : values.Pairwise (fun v w => v.1 < w.1))
    (hmax : ∀ v ∈ values, v.1 ≤ T.max)
    (hin : ∀ v ∈ values, Inside LO HI n.minLimit n.maxLimit v.1) (pretrained : Option M)
    (sample : Bool) : ∃ n', n.bulkLoad T values pretrained sample = some n' ∧
    LoadedLeaf T LO HI n' ∧
      n'.pairs = values ∧ n'.SamePlace n := by
  obtain ⟨n', v, k, hload, hh, hents, hroom, hplace, hlock'⟩ :=
    DataNode.bulkLoad_spec (T := T) n (hs.imp (fun h => h.le)) hmax pretrained sample
  have hpairs : n'.pairs = values := by rw [hh.pairs_eq, hents]
  have hzero : isSet 0#32 = false := by decide
  refine ⟨n', hload, ⟨⟨⟨⟨v, k, hh⟩, hpairs ▸ hs⟩, hroom, by rw [hlock', hlock, hzero]⟩,
    ⟨by rw [hplace.linkLock, hlink, hzero], fun e he => ?_⟩, hplace.prevLeaf.trans hprev,
    hplace.nextLeaf.trans hnext⟩, hpairs, hplace⟩
  rw [hplace.minLimit, hplace.maxLimit]
  exact hin e (hpairs ▸ he)

namespace Index

theorem loadDataNode_spec [NodeModel M] {C : Params M P} {LO HI : ℚ} {values : List (ℤ × P)}
    {node : ModelNode}
    {lo hi : ℚ} (hv : Loadable C.T LO HI values node lo hi) (h : Heap M P) (model : M) :
    ∃ h', loadDataNode C h values node lo hi model = some (h', h.length) ∧
      Subtree C.T LO HI h h' node.level lo hi values h.length := by
  obtain ⟨n, hload, hn, hpairs, hplace⟩ := LoadedLeaf.of_bulkLoad
    ({ DataNode.new C.T node.level C.maxDataNodeSlots with minLimit := lo, maxLimit := hi } :
      DataNode M P) rfl rfl rfl rfl hv.sorted (fun v hv' => (hv.bounds v hv').2.2)
        hv.inside (some model)
    C.approximateModelComputation
  have hleaf : LoadedLeaf C.T LO HI { n with cost := node.cost } :=
    ⟨⟨hn.ready.stores.congr rfl rfl, hn.ready.room.congr rfl rfl rfl, hn.ready.free⟩,
      ⟨hn.ok.linkFree, hn.ok.inside⟩, hn.prev, hn.next⟩
  have hloaded := Loaded.single (h := h) hleaf
  have hx : Heap.dataAt (h ++ [.data { n with cost := node.cost }]) h.length =
      some { n with cost := node.cost } := by
    rw [Heap.dataAt_snoc_data, Function.update_self]
  refine ⟨h ++ [.data { n with cost := node.cost }], ?_, ⟨⟨[h.length], ?_⟩, fun x hlt =>
    List.getElem?_append_left hlt, ⟨_, Heap.frame_data hx, ?_, ?_, ?_⟩⟩⟩
  · unfold loadDataNode
    simp only [hload, Option.bind_eq_bind, Option.bind_some]
  · have hlo : lo = n.minLimit := hplace.minLimit.symm
    have hhi : hi = n.maxLimit := hplace.maxLimit.symm
    rw [hlo, hhi, ← hpairs, List.length_append, List.length_singleton]
    exact hloaded
  · exact hplace.level
  · exact hplace.minLimit
  · exact hplace.maxLimit

/-! ### Children -/

/-- A child takes the local depth of its tree node. -/
theorem adoptChild_spec {T : KeyType} {LO HI : ℚ} {h : Heap M P} {a b : ℕ} {x : NodeId}
    {order : List NodeId} {lo hi : ℚ} {values : List (ℤ × P)}
    (hl : Loaded T LO HI h a b [x] order lo hi values) {f : Frame} (hf : h.frame x = some f)
    (t : FTNode M) : ∃ h' f', adoptChild h x t = some h' ∧
      Loaded T LO HI h' a b [x] order lo hi values ∧ h'.length = h.length ∧
      (∀ y, y ≠ x → h'[y]? = h[y]?) ∧ h'.frame x = some f' ∧ f'.level = f.level ∧
      f'.localDepth = t.level ∧ f'.lo = f.lo ∧ f'.hi = f.hi := by
  have hx : x ∈ order := hl.forest.roots_sublist.subset (List.mem_singleton_self x)
  obtain ⟨node, hnode, rfl⟩ := Option.map_eq_some_iff.mp hf
  cases node with
  | data n =>
      have hd := Heap.dataAt_eq_some.mpr hnode
      obtain ⟨n', hn'⟩ : ∃ n' : DataNode M P, n' = { n with
        localDepth := t.level
        expectedAvgExpSearchIterations := t.expectedAvgSearchIterations
        expectedAvgShifts := t.expectedAvgShifts } := ⟨_, rfl⟩
      have hget : (h.setData x n').dataAt x = some n' := by
        rw [Heap.dataAt_setData hd, Function.update_self]
      have hold := hl.leaf x hx n hd
      have hleaf : LoadedLeaf T LO HI n' := by
        subst hn'
        exact ⟨⟨hold.ready.stores.congr rfl rfl, hold.ready.room.congr rfl rfl rfl,
          hold.ready.free⟩,
          ⟨hold.ok.linkFree, hold.ok.inside⟩, hold.prev, hold.next⟩
      have hlo : n'.minLimit = n.minLimit := by rw [hn']
      have hhi : n'.maxLimit = n.maxLimit := by rw [hn']
      refine ⟨h.setData x n', _, ?_, hl.setLeaf hd hleaf
        (DataNode.pairs_congr (by rw [hn'])) hlo hhi,
        h.length_setData x n', fun y hy => List.getElem?_set_ne (fun hxy => hy hxy.symm),
        Heap.frame_data hget, ?_, ?_, hlo, hhi⟩
      · unfold adoptChild
        rw [hnode, hn']
      · show n'.level = n.level
        rw [hn']
      · show n'.localDepth = t.level
        rw [hn']
  | model m =>
      have hm := Heap.modelAt_eq_some.mpr hnode
      have hget : (h.setModel x { m with localDepth := t.level }).modelAt x =
          some { m with localDepth := t.level } := by
        rw [Heap.modelAt_setModel hm, Function.update_self]
      refine ⟨h.setModel x { m with localDepth := t.level }, _, ?_, hl.reroot
        (fun y hy => ?_) ?_ ?_ ?_
        ?_ (fun k hk => ?_) (fun m' hm' => ?_), h.length_setModel x _, fun y hy => ?_,
        Heap.frame_model hget, rfl, rfl, rfl, rfl⟩
      · unfold adoptChild
        rw [hnode]
      · exact List.getElem?_set_ne (fun hxy => hy hxy.symm)
      · rw [pushedChildren_model hget, pushedChildren_model hm]
      · rw [Heap.dataAt_of_model hget, Heap.dataAt_of_model hm]
      · rw [Heap.lo_frame (Heap.frame_model hget), Heap.lo_frame (Heap.frame_model hm)]
        rfl
      · rw [Heap.hi_frame (Heap.frame_model hget), Heap.hi_frame (Heap.frame_model hm)]
        rfl
      · rw [Heap.dataAt_of_model hget] at hk
        cases hk
      · rw [← Option.some.inj (hget.symm.trans hm')]
        refine ⟨m, hm, rfl, rfl,
          fun F live hok => ⟨hok.size, hok.length, hok.slope, fun i hi => ?_⟩⟩
        obtain ⟨c, f, hc, hca⟩ := hok.child i hi
        exact ⟨c, f, hc, ⟨hca.get, hca.level, hca.depth, hca.slots, hca.lo, hca.hi⟩⟩
      · exact List.getElem?_set_ne (fun hxy => hy hxy.symm)

/-! ### Slots -/

/-- The slots of children of the given levels, each pointing at its child. -/
def blocks (D : ℕ) (parts : List (NodeId × ℕ)) : List (Option NodeId) :=
  parts.flatMap (fun p => List.replicate (2 ^ (D - p.2)) (some p.1))

theorem blocks_cons (D : ℕ) (p : NodeId × ℕ) (parts : List (NodeId × ℕ)) :
    blocks D (p :: parts) = List.replicate (2 ^ (D - p.2)) (some p.1) ++ blocks D parts :=
  List.flatMap_cons ..

theorem length_blocks {D : ℕ} : ∀ {parts : List (NodeId × ℕ)} {cur : ℕ},
    Steps D (parts.map Prod.snd) cur → cur + (blocks D parts).length = 2 ^ D
  | [], cur, h => h
  | p :: parts, cur, h => by
      rw [blocks_cons, List.length_append, List.length_replicate, ← Nat.add_assoc]
      exact length_blocks h.2.2

/-- The slots of a block point at its child. -/
theorem getElem?_blocks {D : ℕ} : ∀ {parts : List (NodeId × ℕ)} (filled : List (Option NodeId))
    {b : NodeId × ℕ × ℕ}, b ∈ starts (fun l => 2 ^ (D - l)) parts filled.length →
    ∀ j, b.2.2 ≤ j → j < b.2.2 + 2 ^ (D - b.2.1) → (filled ++ blocks D parts)[j]? = some (some b.1)
  | [], _, _, hb => by cases hb
  | p :: parts, filled, b, hb => by
      intro j h1 h2
      rw [blocks_cons, ← List.append_assoc]
      rcases List.mem_cons.mp hb with rfl | hb
      · have h1 : filled.length ≤ j := h1
        have h2 : j < filled.length + 2 ^ (D - p.2) := h2
        rw [List.getElem?_append_left (by simp; omega), List.getElem?_append_right h1,
          List.getElem?_replicate, if_pos (by omega)]
      · refine getElem?_blocks (filled ++ List.replicate (2 ^ (D - p.2)) (some p.1)) ?_ j h1 h2
        rw [List.length_append, List.length_replicate]
        exact hb

/-- Equal slots count once. -/
theorem distinctChildren_replicate {c : NodeId} {l : List (Option NodeId)}
    (hl : l.head? ≠ some (some c)) : ∀ k : ℕ,
    distinctChildren (List.replicate (k + 1) (some c) ++ l) = some c :: distinctChildren l
  | 0 => by
      cases l with
      | nil => rfl
      | cons d l =>
          show distinctChildren (some c :: d :: l) = _
          rw [distinctChildren, if_neg (fun h => hl (by rw [h]; rfl))]
  | k + 1 => by
      rw [← distinctChildren_replicate hl k]
      show distinctChildren (some c :: some c :: (List.replicate k (some c) ++ l)) = _
      rw [distinctChildren, if_pos rfl]
      rfl

theorem head?_blocks (D : ℕ) (parts : List (NodeId × ℕ)) :
    (blocks D parts).head? = parts.head?.map (fun p => some p.1) := by
  cases parts with
  | nil => rfl
  | cons p parts =>
      obtain ⟨k, hk⟩ := Nat.exists_eq_succ_of_ne_zero (Nat.two_pow_pos (D - p.2)).ne'
      rw [blocks_cons, hk]
      rfl

/-- The slots have the children from left to right. -/
theorem distinctChildren_blocks {D : ℕ} : ∀ {parts : List (NodeId × ℕ)},
    (parts.map Prod.fst).Nodup → distinctChildren (blocks D parts) = parts.map (fun p => some p.1)
  | [], _ => rfl
  | p :: parts, hnd => by
      obtain ⟨hp, hnd⟩ := List.nodup_cons.mp hnd
      obtain ⟨k, hk⟩ := Nat.exists_eq_succ_of_ne_zero (Nat.two_pow_pos (D - p.2)).ne'
      rw [blocks_cons, hk, distinctChildren_replicate, distinctChildren_blocks hnd, List.map_cons]
      rw [head?_blocks]
      intro hhead
      obtain ⟨q, hq, heq⟩ := Option.map_eq_some_iff.mp hhead
      refine hp (List.mem_map.mpr ⟨q, List.mem_of_mem_head? hq, Option.some.inj heq⟩)

/-! ### The children of a model node -/

/-- The child over the slots from `cur` on has the part of the key range of these slots. -/
theorem childNode_eq {node : ModelNode} {lo hi : ℚ} (h : lo < hi)
    (hmodel : node.model = LinearModel.cdf lo hi) (D cur : ℕ) (t : FTNode M) :
    ∃ child, childNode node D cur t = (child, valueAt lo hi ((cur : ℚ) / 2 ^ D),
        valueAt lo hi (((cur + 2 ^ (D - t.level) : ℕ) : ℚ) / 2 ^ D)) ∧
      child.model = LinearModel.cdf (valueAt lo hi ((cur : ℚ) / 2 ^ D))
        (valueAt lo hi (((cur + 2 ^ (D - t.level) : ℕ) : ℚ) / 2 ^ D)) ∧
      child.level = node.level + 1 ∧ child.cost = t.cost := by
  have hcast : (((2 ^ D : ℕ) : ℕ) : ℚ) = 2 ^ D := by push_cast; rfl
  have hleft := LinearModel.cdf_inv h ((cur : ℚ) / 2 ^ D)
  have hright := LinearModel.cdf_inv h (((cur + 2 ^ (D - t.level) : ℕ) : ℚ) / 2 ^ D)
  unfold childNode
  rw [hmodel, hcast, hleft, hright]
  exact ⟨_, rfl, rfl, rfl, rfl⟩

/-- The part of a child can be loaded in its place. -/
theorem loadable_part {T : KeyType} {LO HI : ℚ} {values : List (ℤ × P)} {node child : ModelNode}
    {lo hi : ℚ} (hv : Loadable T LO HI values node lo hi) {D cur : ℕ} {t : FTNode M}
    (hle : cur + 2 ^ (D - t.level) ≤ 2 ^ D)
    (hleft : t.leftBoundary = cutIn values lo hi ((cur : ℚ) / 2 ^ D))
    (hright : t.rightBoundary =
      cutIn values lo hi (((cur + 2 ^ (D - t.level) : ℕ) : ℚ) / 2 ^ D))
    (hlevel : t.level ≠ 0) (hcheap : CheapPart t)
    (hmodel : child.model = LinearModel.cdf (valueAt lo hi ((cur : ℚ) / 2 ^ D))
      (valueAt lo hi (((cur + 2 ^ (D - t.level) : ℕ) : ℚ) / 2 ^ D))) (hcost : child.cost = t.cost) :
    Loadable T LO HI ((values.take t.rightBoundary).drop t.leftBoundary) child
      (valueAt lo hi ((cur : ℚ) / 2 ^ D))
      (valueAt lo hi (((cur + 2 ^ (D - t.level) : ℕ) : ℚ) / 2 ^ D)) := by
  have hpos : (0 : ℚ) < 2 ^ D := by positivity
  have hmem : ∀ v ∈ (values.take t.rightBoundary).drop t.leftBoundary, v ∈ values ∧
      ((cur : ℚ) / 2 ^ D ≤ 0 ∨ valueAt lo hi ((cur : ℚ) / 2 ^ D) ≤ v.1) ∧
      (1 ≤ ((cur + 2 ^ (D - t.level) : ℕ) : ℚ) / 2 ^ D ∨
        (v.1 : ℚ) < valueAt lo hi (((cur + 2 ^ (D - t.level) : ℕ) : ℚ) / 2 ^ D)) := by
    intro v hv'
    rw [hleft, hright] at hv'
    exact mem_partIn hv.sorted_le hv'
  have hsub : ((values.take t.rightBoundary).drop t.leftBoundary).Sublist values :=
    (List.drop_sublist _ _).trans (List.take_sublist _ _)
  refine ⟨hmodel, hv.sorted.sublist hsub, fun v hv' => ?_, fun v hv' => hv.bounds v
    (hsub.subset hv'),
    fun hone => ?_⟩
  · obtain ⟨hvals, h1, h2⟩ := hmem v hv'
    obtain ⟨hin1, hin2⟩ := hv.inside v hvals
    constructor
    · rcases h1 with h1 | h1
      · -- the first child begins where the node does
        have hzero : (cur : ℚ) / 2 ^ D = 0 := le_antisymm h1 (by positivity)
        rw [hzero, valueAt_zero]
        exact hin1
      · exact Or.inl h1
    · rcases h2 with h2 | h2
      · have hone : ((cur + 2 ^ (D - t.level) : ℕ) : ℚ) / 2 ^ D = 1 := by
          refine le_antisymm ((div_le_one hpos).mpr ?_) h2
          exact_mod_cast hle
        rw [hone, valueAt_one]
        exact hin2
      · exact Or.inl h2
  · rw [hcost]
    refine hcheap hlevel ?_
    have hr : t.rightBoundary ≤ values.length := hright ▸ cutIn_le values lo hi _
    rw [List.length_drop, List.length_take, Nat.min_eq_left hr] at hone
    exact hone

/-- A child has at most half the key range of its node. -/
theorem valueAt_width {lo hi : ℚ} (h : lo < hi) {D cur l : ℕ} (hl : l ≤ D) (h0 : l ≠ 0) :
    valueAt lo hi (((cur + 2 ^ (D - l) : ℕ) : ℚ) / 2 ^ D) - valueAt lo hi ((cur : ℚ) / 2 ^ D) ≤
      (hi - lo) / 2 := by
  have hpow : (2 : ℚ) ^ D = 2 ^ (D - l) * 2 ^ l := by rw [← pow_add, Nat.sub_add_cancel hl]
  have hw : (0 : ℚ) < 2 ^ (D - l) := by positivity
  have h2 : (2 : ℚ) ≤ 2 ^ l := by
    calc (2 : ℚ) = 2 ^ 1 := (pow_one 2).symm
      _ ≤ 2 ^ l := pow_le_pow_right₀ (by norm_num) (by omega)
  have hfrac : ((cur + 2 ^ (D - l) : ℕ) : ℚ) / 2 ^ D - (cur : ℚ) / 2 ^ D = 1 / 2 ^ l := by
    rw [hpow]
    push_cast
    field_simp
    ring
  have hdiff : valueAt lo hi (((cur + 2 ^ (D - l) : ℕ) : ℚ) / 2 ^ D) -
      valueAt lo hi ((cur : ℚ) / 2 ^ D) = 1 / 2 ^ l * (hi - lo) := by
    rw [← hfrac]
    unfold valueAt
    ring
  have hhalf : (1 : ℚ) / 2 ^ l ≤ 1 / 2 := one_div_le_one_div_of_le (by norm_num) h2
  rw [hdiff]
  have hpos : 0 < hi - lo := sub_pos.mpr h
  nlinarith

/-- The children of a model node: subtrees side by side, each with its block of slots. -/
structure Children (T : KeyType) (LO HI : ℚ) (h h' : Heap M P) (level : ℤ) (D cur : ℕ) (lo hi : ℚ)
    (values : List (ℤ × P)) (parts : List (NodeId × ℕ)) : Prop where
  loaded : ∃ order, Loaded T LO HI h' h.length h'.length (parts.map Prod.fst) order
    (valueAt lo hi ((cur : ℚ) / 2 ^ D)) hi values
  keeps : ∀ x : ℕ, x < h.length → h'[x]? = h[x]?
  frame : ∀ b ∈ starts (fun l => 2 ^ (D - l)) parts cur, ∃ f, h'.frame b.1 = some f ∧
    f.level = level ∧ f.localDepth = b.2.1 ∧ f.lo = valueAt lo hi ((b.2.2 : ℚ) / 2 ^ D) ∧
    f.hi = valueAt lo hi (((b.2.2 + 2 ^ (D - b.2.1) : ℕ) : ℚ) / 2 ^ D)

/-- A loaded child before the other children. -/
theorem Children.cons {T : KeyType} {LO HI : ℚ} {h h₁ h₂ h' : Heap M P} {level : ℤ} {D cur l : ℕ}
    {lo hi : ℚ} {part rest : List (ℤ × P)} {id : NodeId} {order : List NodeId}
    {parts : List (NodeId × ℕ)} {f : Frame}
    (hl : Loaded T LO HI h₂ h.length h₁.length [id] order (valueAt lo hi ((cur : ℚ) / 2 ^ D))
      (valueAt lo hi (((cur + 2 ^ (D - l) : ℕ) : ℚ) / 2 ^ D)) part)
    (hlen : h₂.length = h₁.length) (hkeeps : ∀ x : ℕ, x < h.length → h₂[x]? = h[x]?)
    (hf : h₂.frame id = some f ∧ f.level = level ∧ f.localDepth = l ∧
      f.lo = valueAt lo hi ((cur : ℚ) / 2 ^ D) ∧
      f.hi = valueAt lo hi (((cur + 2 ^ (D - l) : ℕ) : ℚ) / 2 ^ D))
    (hr : Children T LO HI h₂ h' level D (cur + 2 ^ (D - l)) lo hi rest parts) :
    Children T LO HI h h' level D cur lo hi (part ++ rest) ((id, l) :: parts) := by
  obtain ⟨order', hrest⟩ := hr.loaded
  have hle : h.length ≤ h₂.length := hlen ▸ hl.le
  have hid : id < h₁.length :=
    ((hl.mem id).mp (hl.forest.roots_sublist.subset (List.mem_singleton_self id))).2
  have hl' : Loaded T LO HI h' h.length h₁.length [id] order (valueAt lo hi ((cur : ℚ) / 2 ^ D))
      (valueAt lo hi (((cur + 2 ^ (D - l) : ℕ) : ℚ) / 2 ^ D)) part :=
    hl.congr (fun x _ hx => hr.keeps x (by omega))
  refine ⟨⟨order ++ order', ?_⟩, fun x hx => (hr.keeps x (by omega)).trans (hkeeps x hx),
    fun b hb => ?_⟩
  · rw [hlen] at hrest
    exact hl'.append hrest
  · rcases List.mem_cons.mp hb with rfl | hb
    · have hsame := hr.keeps id (hlen ▸ hid)
      refine ⟨f, ?_, hf.2⟩
      rw [← hf.1]
      exact Heap.frame_congr (Heap.dataAt_congr hsame) (Heap.modelAt_congr hsame)
    · exact hr.frame b hb

/-- The loop over the used tree nodes loads all children. -/
theorem loadChildren_spec {T : KeyType} {LO HI : ℚ} {values : List (ℤ × P)} {node : ModelNode}
    {lo hi : ℚ} (hv : Loadable T LO HI values node lo hi) (hlt : lo < hi) {D : ℕ}
    {load : Heap M P → List (ℤ × P) → ModelNode → ℚ → ℚ → M → Option (Heap M P × NodeId)}
    (hload : ∀ (h : Heap M P) (part : List (ℤ × P)) (child : ModelNode) (l r : ℚ) (model : M),
      Loadable T LO HI part child l r → r - l ≤ (hi - lo) / 2 → ∃ h' id,
        load h part child l r model = some (h', id) ∧
        Subtree T LO HI h h' child.level l r part id) :
    ∀ (ts : List (FTNode M)) (h : Heap M P) (filled : List (Option NodeId)),
      Parts D (cutIn values lo hi) ts filled.length → (∀ t ∈ ts, t.level ≠ 0 ∧ CheapPart t) →
      ∃ h' parts, loadChildren load values node D ts filled.length h
          (filled ++ List.replicate (2 ^ D - filled.length) none) = some
          (h', filled ++ blocks D parts) ∧
        parts.map Prod.snd = ts.map FTNode.level ∧
        Children T LO HI h h' (node.level + 1) D filled.length lo hi
          (values.drop (cutIn values lo hi ((filled.length : ℚ) / 2 ^ D))) parts
  | [], h, filled, hparts, _ => by
      have hend : filled.length = 2 ^ D := hparts
      have hone : (filled.length : ℚ) / 2 ^ D = 1 := by
        rw [hend]
        push_cast
        exact div_self (by positivity)
      refine ⟨h, [], ?_, rfl, ⟨⟨[], ?_⟩, fun _ _ => rfl, fun b hb => by cases hb⟩⟩
      · rw [hend, Nat.sub_self]
        rfl
      · rw [hone, valueAt_one, cutIn_one, List.drop_length]
        exact Loaded.nil T LO HI h h.length hi
  | t :: ts, h, filled, hparts, hts => by
      obtain ⟨hl, _, hleft, hright, hrest⟩ := hparts
      obtain ⟨h0, hcheap⟩ := hts t (List.mem_cons_self ..)
      have hend : filled.length + 2 ^ (D - t.level) ≤ 2 ^ D := hrest.steps.cur_le
      obtain ⟨child, hchild, hmodel, hlevel, hcost⟩ := childNode_eq hlt hv.model D filled.length t
      obtain ⟨h₁, id, hrun, ⟨order, hsub⟩, hkeeps, f, hf, hflevel, hflo, hfhi⟩ :=
        hload h _ child _ _
        t.model (loadable_part hv hend hleft hright h0 hcheap hmodel hcost)
          (valueAt_width hlt hl h0)
      obtain ⟨h₂, f', hadopt, hsub₂, hlen₂, hother, hf', hlevel', hdepth', hlo', hhi'⟩ :=
        adoptChild_spec hsub hf t
      have hid := (hsub.mem id).mp (hsub.forest.roots_sublist.subset (List.mem_singleton_self id))
      -- the slots of the child are filled, and the loop goes on behind them
      have hlen' : (filled ++ List.replicate (2 ^ (D - t.level)) (some id)).length =
          filled.length + 2 ^ (D - t.level) := by
        rw [List.length_append, List.length_replicate]
      obtain ⟨h', parts, hloop, hlevels, hchildren⟩ := loadChildren_spec hv hlt hload ts h₂
        (filled ++ List.replicate (2 ^ (D - t.level)) (some id)) (by rw [hlen']; exact hrest)
        (fun t' ht' => hts t' (List.mem_cons_of_mem t ht'))
      rw [hlen'] at hloop hchildren
      refine ⟨h', (id, t.level) :: parts, ?_, by rw [List.map_cons, List.map_cons, hlevels], ?_⟩
      · unfold loadChildren
        rw [hchild]
        simp only [hrun, hadopt, Option.bind_eq_bind, Option.bind_some]
        rw [ModelNode.fillSlots_prefix id (by omega), Option.bind_some, Nat.sub_sub,
          hloop, blocks_cons,
          List.append_assoc]
      · have hle : t.leftBoundary ≤ t.rightBoundary := by
          rw [hleft, hright]
          refine cutIn_mono values hlt (div_le_div_of_nonneg_right ?_ (by positivity))
          push_cast
          have : (0 : ℚ) < 2 ^ (D - t.level) := by positivity
          linarith
        have hsplit : values.drop (cutIn values lo hi ((filled.length : ℚ) / 2 ^ D)) =
            (values.take t.rightBoundary).drop t.leftBoundary ++ values.drop t.rightBoundary := by
          have hr : t.rightBoundary ≤ values.length := hright ▸ cutIn_le values lo hi _
          rw [← hleft]
          conv_lhs => rw [← List.take_append_drop t.rightBoundary values]
          rw [List.drop_append_of_le_length (by rw [List.length_take]; omega)]
        rw [hsplit]
        rw [← hright] at hchildren
        have hne : ∀ x : ℕ, x < h.length → x ≠ id := fun x hx hxid =>
          absurd hid.1 (Nat.not_le.mpr (hxid ▸ hx))
        exact Children.cons hsub₂ hlen₂ (fun x hx => (hother x (hne x hx)).trans (hkeeps x hx))
          ⟨hf', hlevel'.trans (hflevel.trans hlevel), hdepth', hlo'.trans hflo, hhi'.trans hfhi⟩
          hchildren

/-! ### Model nodes -/

/-- The children of a model node have their places below it. -/
theorem Children.modelOK {T : KeyType} {LO HI : ℚ} {h h' : Heap M P} {level : ℤ} {D : ℕ}
    {lo hi : ℚ} {values : List (ℤ × P)} {parts : List (NodeId × ℕ)} (hlt : lo < hi)
    (hc : Children T LO HI h h' (level + 1) D 0 lo hi values parts)
    (hs : Steps D (parts.map Prod.snd) 0) {order : List NodeId}
    (horder : ∀ id ∈ parts.map Prod.fst, id ∈ order) {m : ModelNode} (hlevel : m.level = level)
    (hmodel : m.model = (LinearModel.cdf lo hi).expand (2 ^ D : ℕ)) (hnum : m.numChildren = 2 ^ D)
    (hchildren : m.children = blocks D parts) : ModelOK h'.frame {y | y ∈ order} m := by
  have hedge : ∀ i : ℕ, m.edge i = valueAt lo hi ((i : ℚ) / 2 ^ D) := by
    intro i
    unfold ModelNode.edge
    rw [hmodel, LinearModel.cdf_edge hlt (Nat.two_pow_pos D)]
    push_cast
    rfl
  have hlen := length_blocks hs
  rw [Nat.zero_add] at hlen
  refine ⟨⟨D, hnum⟩, by rw [hchildren, hlen, hnum], ?_, fun i hi' => ?_⟩
  · rw [hmodel]
    have := LinearModel.cdf_slope hlt
    unfold LinearModel.expand
    positivity
  · rw [hnum] at hi'
    obtain ⟨b, hb, h1, h2⟩ := hs.exists_cell (Nat.zero_le i) hi'
    obtain ⟨hbl, hdvd, -, -⟩ := hs.mem_starts hb
    obtain ⟨f, hf, hflevel, hfdepth, hflo, hfhi⟩ := hc.frame b hb
    have hrep : m.repeats f.localDepth = 2 ^ (D - b.2.1) := by
      rw [hfdepth, ModelNode.repeats_eq hnum]
    have hstart : m.blockStart i f.localDepth = b.2.2 :=
      ModelNode.blockStart_of_mem (by rw [hrep]; exact hdvd) h1 (by rw [hrep]; exact h2)
    have hmem : b.1 ∈ parts.map Prod.fst :=
      List.mem_map.mpr ⟨(b.1, b.2.1), label_mem_of_starts hb, rfl⟩
    refine ⟨b.1, f, horder b.1 hmem, hf, ?_, ?_, fun j h3 h4 => ?_, ?_, ?_⟩
    · rw [hflevel, hlevel]
    · rw [hfdepth, hnum, log2RoundDown_two_pow]
      exact hbl
    · rw [hstart] at h3 h4
      rw [hrep] at h4
      have hget := getElem?_blocks [] hb j h3 h4
      unfold ModelNode.childAt
      rw [hchildren]
      rw [List.nil_append] at hget
      rw [hget]
      rfl
    · rw [hstart, hedge, hflo]
    · rw [hstart, hrep, hedge, hfhi]

/-- A model node above its children. -/
theorem Children.node {T : KeyType} {LO HI : ℚ} {h h' : Heap M P} {level : ℤ} {D : ℕ} {lo hi : ℚ}
    {values : List (ℤ × P)} {parts : List (NodeId × ℕ)} (hlt : lo < hi)
    (hc : Children T LO HI h h' (level + 1) D 0 lo hi values parts)
    (hs : Steps D (parts.map Prod.snd) 0) {m : ModelNode} (hlevel : m.level = level)
    (hmodel : m.model = (LinearModel.cdf lo hi).expand (2 ^ D : ℕ)) (hnum : m.numChildren = 2 ^ D)
    (hchildren : m.children = blocks D parts) (hfree : m.lock = 0#32 ∧ m.isObsolete = false) :
    Subtree T LO HI h (h' ++ [.model m]) level lo hi values h'.length := by
  obtain ⟨order, hloaded⟩ := hc.loaded
  rw [Nat.cast_zero, zero_div, valueAt_zero] at hloaded
  have hroots := hloaded.forest.roots_sublist
  have hok := hc.modelOK hlt hs (fun id hid => hroots.subset hid) hlevel hmodel hnum hchildren
  have hpush : (distinctChildren m.children).mapM id = some (parts.map Prod.fst) := by
    rw [hchildren, distinctChildren_blocks (hloaded.nodup.sublist hroots), mapM_id_eq_some,
      List.map_map]
    rfl
  have hx : Heap.modelAt (h' ++ [.model m]) h'.length = some m := by
    rw [Heap.modelAt_snoc_model, Function.update_self]
  have hedge : ∀ i : ℕ, m.edge i = valueAt lo hi ((i : ℚ) / (2 ^ D : ℕ)) := by
    intro i
    unfold ModelNode.edge
    rw [hmodel, LinearModel.cdf_edge hlt (Nat.two_pow_pos D)]
  refine ⟨⟨h'.length :: order, ?_⟩, fun x hx' => ?_, _, Heap.frame_model hx, hlevel, ?_, ?_⟩
  · rw [List.length_append, List.length_singleton]
    exact hloaded.node hok hpush hfree
  · have hle := hloaded.le
    exact (List.getElem?_append_left (by omega)).trans (hc.keeps x hx')
  · show m.edge 0 = lo
    rw [hedge, Nat.cast_zero, zero_div, valueAt_zero]
  · show m.edge m.numChildren = hi
    rw [hedge, hnum, div_self, valueAt_one]
    exact_mod_cast (Nat.two_pow_pos D).ne'

variable [NodeModel M]

/-- **`bulk_load_node` loads every pair**, whatever the costs are, if the recursion is allowed to
halve the key range below one. -/
theorem bulkLoadNode_spec {C : Params M P} (hC : CheapSingles C) (hslots : 2 ≤ C.maxDataNodeSlots)
    {totalKeys : ℤ} (htotal : 0 ≤ totalKeys) {LO HI : ℚ} :
    ∀ (fuel : ℕ) (h : Heap M P) (values : List (ℤ × P)) (node : ModelNode) (lo hi : ℚ) (model : M),
      Loadable C.T LO HI values node lo hi → hi - lo < 2 ^ fuel →
      ∃ h' id, bulkLoadNode C totalKeys (fuel + 1) h values node lo hi model = some (h', id) ∧
        Subtree C.T LO HI h h' node.level lo hi values id := by
  intro fuel
  have hslotsq : (2 : ℚ) ≤ C.maxDataNodeSlots := by exact_mod_cast hslots
  have hmaxKeys : (1 : ℚ) ≤ C.maxDataNodeSlots * kInitDensity := by
    unfold kInitDensity
    linarith
  have hmax : 1 ≤ (trunc (C.maxDataNodeSlots * kInitDensity)).toNat := by
    have := (le_trunc_iff (x := C.maxDataNodeSlots * kInitDensity) (z := 1) (by norm_num)).mpr
      (by exact_mod_cast hmaxKeys)
    omega
  induction fuel with
  | zero =>
      intro h values node lo hi model hv hrange
      have hone : values.length ≤ 1 := by
        by_contra h2
        have := hv.one_le h2
        rw [pow_zero] at hrange
        linarith
      obtain ⟨h', hload, hsub⟩ := loadDataNode_spec hv h model
      refine ⟨h', h.length, ?_, hsub⟩
      have hle : (values.length : ℚ) ≤ 1 := by exact_mod_cast hone
      unfold bulkLoadNode
      simp only
      rw [if_pos ⟨hle.trans hmaxKeys, Or.inl (hv.cheap hone)⟩, hload]
  | succ fuel ih =>
      intro h values node lo hi model hv hrange
      obtain ⟨hd, hdata, hsub⟩ := loadDataNode_spec hv h model
      unfold bulkLoadNode
      simp only
      by_cases hsmall : (values.length : ℚ) ≤ C.maxDataNodeSlots * kInitDensity ∧
          (node.cost < kNodeLookupsWeight ∨ node.model.a = 0)
      · rw [if_pos hsmall]
        exact ⟨hd, h.length, hdata, hsub⟩
      · rw [if_neg hsmall]
        have h2 : ¬ values.length ≤ 1 := by
          intro hone
          have hle : (values.length : ℚ) ≤ 1 := by exact_mod_cast hone
          exact hsmall ⟨hle.trans hmaxKeys, Or.inl (hv.cheap hone)⟩
        have hwide := hv.one_le h2
        have hlt : lo < hi := by linarith
        have hne : values ≠ [] := by
          rintro rfl
          exact h2 (Nat.zero_le 1)
        obtain ⟨L, cost, used, hfind, hused⟩ := findBestFanoutBottomUp_spec hC hlt hv.model hne
          hv.sorted_le htotal hmax
        simp only [hfind, Option.bind_eq_bind, Option.bind_some]
        split
        · obtain ⟨D, ts, henough, hparts, hts⟩ := enoughFanout_spec hC hlt hv.model totalKeys hmax
            hused
          have hload : ∀ (g : Heap M P) (part : List (ℤ × P)) (child : ModelNode) (l r : ℚ)
              (model : M), Loadable C.T LO HI part child l r → r - l ≤ (hi - lo) / 2 → ∃ g' id,
              bulkLoadNode C totalKeys (fuel + 1) g part child l r model = some (g', id) ∧
                Subtree C.T LO HI g g' child.level l r part id := by
            intro g part child l r model hv' hw
            rw [pow_succ] at hrange
            exact ih g part child l r model hv' (by linarith)
          obtain ⟨h', parts, hloop, hlevels, hchildren⟩ :=
            loadChildren_spec hv hlt hload ts h [] hparts hts
          rw [List.length_nil, Nat.sub_zero, List.nil_append, List.nil_append] at hloop
          rw [List.length_nil, Nat.cast_zero, zero_div, cutIn_zero, List.drop_zero] at hchildren
          have hsteps : Steps D (parts.map Prod.snd) 0 := hlevels ▸ hparts.steps
          refine ⟨_, h'.length, ?_, hchildren.node hlt hsteps (m := { ModelNode.new node.level with
            model := node.model.expand (2 ^ D : ℕ)
            numChildren := 2 ^ D
            children := blocks D parts }) rfl (by rw [hv.model]) rfl rfl ⟨rfl, rfl⟩⟩
          simp only [henough, hloop, Option.bind_some]
        · exact ⟨hd, h.length, hdata, hsub⟩

/-! ### More fuel -/

omit [NodeModel M] in
theorem loadChildren_mono {load load' : Heap M P → List (ℤ × P) → ModelNode → ℚ → ℚ → M →
      Option (Heap M P × NodeId)}
    (hle : ∀ h values node lo hi model r, load h values node lo hi model = some r →
      load' h values node lo hi model = some r)
    (values : List (ℤ × P)) (node : ModelNode) (depth : ℕ) : ∀ (ts : List (FTNode M)) (cur : ℕ)
      (h : Heap M P) (children : List (Option NodeId)) (r : Heap M P × List (Option NodeId)),
      loadChildren load values node depth ts cur h children = some r →
      loadChildren load' values node depth ts cur h children = some r
  | [], _, _, _, _, hr => hr
  | t :: ts, cur, h, children, r, hr => by
      unfold loadChildren at hr ⊢
      obtain ⟨⟨h₁, id⟩, hload, hr⟩ := Option.bind_eq_some_iff.mp hr
      obtain ⟨h₂, hadopt, hr⟩ := Option.bind_eq_some_iff.mp hr
      obtain ⟨children', hfill, hr⟩ := Option.bind_eq_some_iff.mp hr
      refine Option.bind_eq_some_iff.mpr ⟨(h₁, id), hle _ _ _ _ _ _ _ hload,
        Option.bind_eq_some_iff.mpr
          ⟨h₂, hadopt, Option.bind_eq_some_iff.mpr ⟨children', hfill, ?_⟩⟩⟩
      exact loadChildren_mono hle values node depth ts _ h₂ children' r hr

/-- A load that ends is not changed by more fuel. -/
theorem bulkLoadNode_mono {C : Params M P} {totalKeys : ℤ} {fuel : ℕ} : ∀ {h : Heap M P}
    {values : List (ℤ × P)} {node : ModelNode} {lo hi : ℚ} {model : M} {r : Heap M P × NodeId},
    bulkLoadNode C totalKeys fuel h values node lo hi model = some r →
    bulkLoadNode C totalKeys (fuel + 1) h values node lo hi model = some r := by
  induction fuel with
  | zero =>
      intro h values node lo hi model r hr
      cases hr
  | succ fuel ih =>
      intro h values node lo hi model r hr
      rw [bulkLoadNode] at hr ⊢
      dsimp only at hr ⊢
      split at hr
      · rw [if_pos ‹_›]
        exact hr
      · rw [if_neg ‹_›]
        obtain ⟨⟨depth, cost, used⟩, hfind, hr⟩ := Option.bind_eq_some_iff.mp hr
        refine Option.bind_eq_some_iff.mpr ⟨(depth, cost, used), hfind, ?_⟩
        dsimp only at hr ⊢
        split at hr
        · rw [if_pos ‹_›]
          obtain ⟨⟨depth', used'⟩, henough, hr⟩ := Option.bind_eq_some_iff.mp hr
          obtain ⟨⟨h', children⟩, hloop, hr⟩ := Option.bind_eq_some_iff.mp hr
          refine Option.bind_eq_some_iff.mpr ⟨(depth', used'), henough,
            Option.bind_eq_some_iff.mpr ⟨(h', children), ?_, hr⟩⟩
          exact loadChildren_mono (fun _ _ _ _ _ _ _ hload => ih hload) values node depth' used' 0 h
            _ _ hloop
        · rw [if_neg ‹_›]
          exact hr

theorem bulkLoadNode_le {C : Params M P} {totalKeys : ℤ} {h : Heap M P} {values : List (ℤ × P)}
    {node : ModelNode} {lo hi : ℚ} {model : M} {r : Heap M P × NodeId} {fuel fuel' : ℕ}
    (hr : bulkLoadNode C totalKeys fuel h values node lo hi model = some r) (hle : fuel ≤ fuel') :
    bulkLoadNode C totalKeys fuel' h values node lo hi model = some r := by
  induction hle with
  | refl => exact hr
  | step _ ih => exact bulkLoadNode_mono ih

end Index

end LearnedIndex.Alexol
