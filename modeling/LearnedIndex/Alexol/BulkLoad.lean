import LearnedIndex.Alexol.BulkLoadNode
import LearnedIndex.Alexol.LoadedTree
import LearnedIndex.Alexol.PointOps

/-! # Bulk loading (`bulk_load`)

`bulk_load` loads the root with a model over the range of its keys, creates the superroot above it
and links the leaves.  Whatever the costs are, the result is an index that stores the given pairs
(`bulkLoad_spec`); so is the index of the default constructor with no pairs (`new_spec`). -/

namespace LearnedIndex.Alexol

open LearnedIndex.Chains LearnedIndex.Forests FanoutTree

variable {M P : Type} {T : KeyType} {LO HI : ℚ} {a b : ℕ} {root : NodeId}
  {order : List NodeId} {lo hi : ℚ} {values : List (ℤ × P)} {s : Index M P}

/-! ### The keys at the two ends -/

/-- The smallest and the largest key can be read. -/
theorem Loaded.keys_exist (hl : Loaded T LO HI s.heap a b [s.rootNode] order lo hi values) :
    (∃ k, s.getMinKey T = some k) ∧ ∃ k, s.getMaxKey T = some k := by
  have hfuel : order.length ≤ s.heap.length + 1 :=
    (Index.length_order_le hl.forest hl.nodup).trans (Nat.le_succ _)
  have hleaf : ∀ x ∈ s.heap.leavesOf order, ∃ n, s.heap.dataAt x = some n ∧ n.Stores T := by
    intro x hx
    obtain ⟨hmem, n, hn⟩ := Heap.mem_leavesOf.mp hx
    exact ⟨n, hn, (hl.leaf x hmem n hn).ready.stores⟩
  obtain ⟨first, last, hfirst, hlast, hrun⟩ := Index.outermost_ends hl.forest
    (fun x hx m hm => (hl.model x hx m hm).1)
  obtain ⟨hrun, hrun'⟩ := hrun _ hfuel
  obtain ⟨n, hn, hs⟩ := hleaf first (List.mem_of_mem_head? hfirst)
  obtain ⟨n', hn', hs'⟩ := hleaf last (List.mem_of_getLast? hlast)
  constructor
  · unfold Index.getMinKey Index.firstDataNode
    simp only [hrun, hn, Option.bind_eq_bind, Option.bind_some]
    exact ⟨_, hs.firstKey⟩
  · unfold Index.getMaxKey Index.lastDataNode
    simp only [hrun', hn', Option.bind_eq_bind, Option.bind_some]
    exact ⟨_, hs'.lastKey⟩

/-! ### The superroot -/

namespace Index

/-- The superroot is a new node that points at the root. -/
theorem createSuperroot_spec {node : Node M P} (hroot : s.heap[s.rootNode]? = some node) :
    ∃ s' sm, createSuperroot s = some s' ∧ SuperrootOK s' sm ∧ s'.rootNode = s.rootNode ∧
      s'.superroot = s.heap.length ∧ s'.numKeys = s.numKeys ∧
      ∀ x : ℕ, x < s.heap.length → s'.heap[x]? = s.heap[x]? := by
  have hlt := (List.getElem?_eq_some_iff.mp hroot).1
  obtain ⟨sr, hsr⟩ : ∃ sr : ModelNode, sr = { ModelNode.new (node.level - 1) with
      numChildren := 1
      children := [none] } := ⟨_, rfl⟩
  have hget : Heap.modelAt (s.heap ++ [.model sr]) s.heap.length = some sr := by
    rw [Heap.modelAt_snoc_model, Function.update_self]
  have hnode : (s.heap ++ [.model sr])[s.rootNode]? = some node := by
    rw [List.getElem?_append_left hlt, hroot]
  have hset : sr.setChildren 0 1 s.rootNode = some { sr with children := [some s.rootNode] } := by
    rw [hsr]
    rfl
  refine ⟨{ s with
      heap := Heap.setModel (s.heap ++ [.model sr]) s.heap.length
        { sr with level := node.level - 1, children := [some s.rootNode] }
      superroot := s.heap.length },
    { sr with level := node.level - 1, children := [some s.rootNode] }, ?_,
    ⟨?_, by rw [hsr], rfl, by rw [hsr]; rfl, by rw [hsr]; rfl⟩, rfl, rfl, rfl, fun x hx => ?_⟩
  · unfold createSuperroot
    simp only [hroot, Option.bind_eq_bind, Option.bind_some, ← hsr]
    unfold updateSuperrootPointer
    simp only [hnode, hget, hset, Option.bind_eq_bind, Option.bind_some]
  · rw [Heap.modelAt_setModel hget, Function.update_self]
  · exact (List.getElem?_set_ne hx.ne').trans (List.getElem?_append_left hx)

/-- The domain of the keys is stored in the superroot. -/
theorem updateSuperrootKeyDomain_spec {sm : ModelNode} (hs : SuperrootOK s sm) {k k' : ℤ}
    (hmin : s.getMinKey T = some k) (hmax : s.getMaxKey T = some k') :
    ∃ s' sm', updateSuperrootKeyDomain T s = some s' ∧ SuperrootOK s' sm' ∧
      s'.rootNode = s.rootNode ∧ s'.superroot = s.superroot ∧ s'.numKeys = s.numKeys ∧
      ∀ x, x ≠ s.superroot → s'.heap[x]? = s.heap[x]? := by
  refine ⟨{ s with
      heap := s.heap.setModel s.superroot
        { sm with model := ⟨1 / (k' - k : ℤ), -1 * k * (1 / (k' - k : ℤ))⟩ }
      keyDomainMin := k
      keyDomainMax := k'
      numKeysAtLastRightDomainResize := s.numKeys
      numKeysAtLastLeftDomainResize := s.numKeys
      numKeysAboveKeyDomain := 0
      numKeysBelowKeyDomain := 0 },
    { sm with model := ⟨1 / (k' - k : ℤ), -1 * k * (1 / (k' - k : ℤ))⟩ }, ?_,
    ⟨?_, hs.numChildren, hs.children, hs.lock, hs.current⟩, rfl, rfl, rfl, fun x hx => ?_⟩
  · unfold updateSuperrootKeyDomain
    simp only [hmin, hmax, Heap.modifyModel_eq hs.get, Option.bind_eq_bind, Option.bind_some]
  · rw [Heap.modelAt_setModel hs.get, Function.update_self]
  · exact List.getElem?_set_ne (fun heq => hx heq.symm)

/-! ### The whole load -/

/-- Once the root is loaded, the rest of `bulk_load` makes an index of it. -/
theorem finishLoad (hl : Loaded T lo hi s.heap a b [s.rootNode] order lo hi values)
    (hlo : s.heap.lo s.rootNode = lo) (hhi : s.heap.hi s.rootNode = hi) :
    ∃ s₁ s₂ s', createSuperroot s = some s₁ ∧ updateSuperrootKeyDomain T s₁ = some s₂ ∧
      (∀ fuel, order.length ≤ fuel → linkAllDataNodes fuel s₂ = some s') ∧
      s'.numKeys = s.numKeys ∧ LoadedIndex T s' order values := by
  have hlt : ∀ x ∈ order, x < s.heap.length := fun x hx =>
    lt_of_pushedChildren (hl.forest.isSome hx)
  have hroot := hlt s.rootNode hl.root_mem
  obtain ⟨s₁, sm, hcreate, hsuper, hrn, hsr, hnum, hsame⟩ :=
    createSuperroot_spec (List.getElem?_eq_getElem hroot)
  have hl₁ : Loaded T lo hi s₁.heap a b [s.rootNode] order lo hi values :=
    hl.congr (fun x h1 h2 => hsame x (hlt x ((hl.mem x).mpr ⟨h1, h2⟩)))
  rw [← hrn] at hl₁
  obtain ⟨⟨k, hmin⟩, k', hmax⟩ := hl₁.keys_exist
  obtain ⟨s₂, sm', hdomain, hsuper', hrn', hsr', hnum', hsame'⟩ :=
    updateSuperrootKeyDomain_spec hsuper hmin hmax
  have hsame₂ : ∀ x ∈ order, s₂.heap[x]? = s.heap[x]? := by
    intro x hx
    have hxlt := hlt x hx
    rw [hsame' x (by rw [hsr]; exact hxlt.ne), hsame x hxlt]
  have hl₂ : Loaded T lo hi s₂.heap a b [s.rootNode] order lo hi values :=
    hl.congr (fun x h1 h2 => hsame₂ x ((hl.mem x).mpr ⟨h1, h2⟩))
  have hframe : s₂.heap.frame s.rootNode = s.heap.frame s.rootNode := by
    have hget := hsame₂ s.rootNode hl.root_mem
    exact Heap.frame_congr (Heap.dataAt_congr hget) (Heap.modelAt_congr hget)
  have hrn₂ : s₂.rootNode = s.rootNode := hrn'.trans hrn
  rw [← hrn₂] at hl₂
  obtain ⟨s', hlink, hnum'', hindex⟩ := hl₂.linkAllDataNodes
    (by rw [hrn₂, Heap.lo_congr hframe, hlo]) (by rw [hrn₂, Heap.hi_congr hframe, hhi]) hsuper'
    (fun hmem => (hlt _ hmem).ne (hsr'.trans hsr))
  exact ⟨s₁, s₂, s', hcreate, hdomain, hlink, hnum''.trans (hnum'.trans hnum), hindex⟩

/-- The expected costs of a root that is a leaf. -/
theorem recordRootCost_spec {h : Heap M P} (hl : Loaded T LO HI h a b [root] order lo hi values)
    (stats : NodeCost) :
    Loaded T LO HI (recordRootCost h root stats) a b [root] order lo hi values ∧
      (recordRootCost h root stats).frame root = h.frame root := by
  unfold recordRootCost
  cases hx : h.dataAt root with
  | none => exact ⟨hl, rfl⟩
  | some n =>
      have hold := hl.leaf root hl.root_mem n hx
      have hplace : DataNode.SamePlace { n with
          expectedAvgExpSearchIterations := stats.numSearchIterations
          expectedAvgShifts := stats.numShifts } n :=
        ⟨rfl, rfl, rfl, rfl, rfl, rfl, rfl, rfl, rfl⟩
      exact ⟨hl.setLeaf hx ⟨⟨hold.ready.stores.congr rfl rfl, hold.ready.room.congr rfl rfl rfl,
        hold.ready.free⟩, ⟨hold.ok.linkFree, hold.ok.inside⟩, hold.prev, hold.next⟩
        (DataNode.pairs_congr rfl) rfl rfl, congrFun (Heap.frame_setData hx hplace) root⟩

/-- The range of strictly increasing keys has all of them. -/
theorem first_le_last {first last : ℤ × P} (hs : values.Pairwise (fun v w => v.1 < w.1))
    (hfirst : values.head? = some first) (hlast : values.getLast? = some last) :
    ∀ v ∈ values, first.1 ≤ v.1 ∧ v.1 ≤ last.1 := by
  intro v hv
  constructor
  · obtain ⟨rest, rfl⟩ := List.head?_eq_some_iff.mp hfirst
    rcases List.mem_cons.mp hv with rfl | hv
    · exact le_refl _
    · exact ((List.pairwise_cons.mp hs).1 v hv).le
  · obtain ⟨front, rfl⟩ := List.getLast?_eq_some_iff.mp hlast
    rcases List.mem_append.mp hv with hv | hv
    · exact ((List.pairwise_append.mp hs).2.2 v hv last (List.mem_singleton_self last)).le
    · rw [List.mem_singleton.mp hv]

/-- **Bulk loading stores the pairs**, whatever the costs are; the recursion ends. -/
theorem bulkLoad_spec [NodeModel M] {C : Params M P} (hC : CheapSingles C)
    (hslots : 2 ≤ C.maxDataNodeSlots)
    (hs : values.Pairwise (fun v w => v.1 < w.1)) (hmax : ∀ v ∈ values, v.1 ≤ C.T.max)
    (hne : values ≠ []) (hempty : s.numKeys ≤ 0) :
    ∃ s' order N, (∀ fuel, N ≤ fuel → s.bulkLoad C fuel values = some s') ∧
      LoadedIndex C.T s' order values := by
  obtain ⟨first, hfirst⟩ : ∃ first, values.head? = some first := ⟨_, List.head?_eq_some_head hne⟩
  obtain ⟨last, hlast⟩ : ∃ last, values.getLast? = some last :=
    ⟨_, List.getLast?_eq_some_getLast hne⟩
  have hends := first_le_last hs hfirst hlast
  obtain ⟨model, hmodel⟩ : ∃ model : M, model = NodeModel.train C.approximateModelComputation
      (values.map Prod.fst) := ⟨_, rfl⟩
  obtain ⟨stats, hstats⟩ : ∃ stats, stats = C.loadCost values model := ⟨_, rfl⟩
  obtain ⟨node, hnode⟩ : ∃ node, node = { ModelNode.new 0 with
      model := ⟨1 / (last.1 - first.1 : ℤ), -1 * first.1 * (1 / (last.1 - first.1 : ℤ))⟩
      cost := stats.cost } := ⟨_, rfl⟩
  have hv : Loadable C.T first.1 last.1 values node first.1 last.1 := by
    refine ⟨?_, hs, fun v _ => inside_self _ _ _, fun v hv => ?_, fun hone => ?_⟩
    · rw [hnode]
      unfold LinearModel.cdf
      push_cast
      congr 1
      ring
    · exact ⟨by exact_mod_cast (hends v hv).1, by exact_mod_cast (hends v hv).2, hmax v hv⟩
    · rw [hnode, hstats]
      exact hC values model hone
  -- the key range is halved below one
  obtain ⟨K, hK⟩ := pow_unbounded_of_one_lt ((last.1 : ℚ) - first.1) one_lt_two
  obtain ⟨h₁, root, hload, ⟨order, hl⟩, -, f, hf, -, hflo, hfhi⟩ := bulkLoadNode_spec hC hslots
    (Int.natCast_nonneg values.length) K s.heap values node first.1 last.1 model hv hK
  obtain ⟨hl₁, hframe⟩ := recordRootCost_spec hl stats
  obtain ⟨t, ht⟩ : ∃ t : Index M P, t = { s with
      heap := recordRootCost h₁ root stats
      rootNode := root
      numKeys := values.length } := ⟨_, rfl⟩
  have hlt : Loaded C.T first.1 last.1 t.heap s.heap.length h₁.length
    [t.rootNode] order first.1 last.1
      values := by
    rw [ht]
    exact hl₁
  have hlo : t.heap.lo t.rootNode = first.1 := by
    rw [ht]
    exact (Heap.lo_congr hframe).trans ((Heap.lo_frame hf).trans hflo)
  have hhi : t.heap.hi t.rootNode = last.1 := by
    rw [ht]
    exact (Heap.hi_congr hframe).trans ((Heap.hi_frame hf).trans hfhi)
  obtain ⟨s₁, s₂, s', hcreate, hdomain, hlink, -, hindex⟩ := finishLoad hlt hlo hhi
  refine ⟨s', order, max (K + 1) order.length, fun fuel hfuel => ?_, hindex⟩
  have hload' := bulkLoadNode_le hload ((le_max_left _ _).trans hfuel)
  have hlink' := hlink fuel ((le_max_right _ _).trans hfuel)
  unfold bulkLoad
  simp only [hfirst, hlast, if_neg (not_lt.mpr hempty), ← hmodel, ← hstats, ← hnode, hload', ← ht,
    hcreate, hdomain, hlink', Option.bind_eq_bind, Option.bind_some]

/-- The default constructor makes an index without pairs. -/
theorem new_spec [NodeModel M] (C : Params M P) : ∃ s : Index M P, Index.new C = some s ∧
    s.numKeys = 0 ∧
    LoadedIndex C.T s [0] [] := by
  obtain ⟨leaf, hload, hleaf, hpairs, hplace⟩ : ∃ leaf : DataNode M P,
      (DataNode.new C.T 0 C.defaultMaxSlots : DataNode M P).bulkLoad C.T [] none false = some leaf ∧
        LoadedLeaf C.T 0 0 leaf ∧ leaf.pairs = [] ∧
        leaf.SamePlace (DataNode.new C.T 0 C.defaultMaxSlots) :=
    LoadedLeaf.of_bulkLoad _ rfl rfl rfl rfl List.Pairwise.nil
      (fun v hv => absurd hv List.not_mem_nil)
      (fun v hv => absurd hv List.not_mem_nil) none false
  have hlo : leaf.minLimit = 0 := hplace.minLimit
  have hhi : leaf.maxLimit = 0 := hplace.maxLimit
  have hl := Loaded.single (h := []) hleaf
  rw [hlo, hhi, hpairs] at hl
  obtain ⟨t, ht⟩ : ∃ t : Index M P, t =
    { heap := [.data leaf]
      rootNode := 0
      superroot := 0
      numKeys := 0
      insertCounter := 0
      eraseCounter := 0
      keyDomainMin := C.T.max
      keyDomainMax := C.T.lowest
      numKeysAboveKeyDomain := 0
      numKeysBelowKeyDomain := 0
      numKeysAtLastRightDomainResize := 0
      numKeysAtLastLeftDomainResize := 0
      retired := [] } := ⟨_, rfl⟩
  have hroot : t.heap[t.rootNode]? = some (.data leaf) := by rw [ht]; rfl
  obtain ⟨s, sm, hcreate, hsuper, hrn, hsr, hnum, hsame⟩ := createSuperroot_spec hroot
  have hx : s.heap.dataAt 0 = some leaf := by
    rw [Heap.dataAt_eq_some, hsame 0 (by rw [ht]; exact Nat.one_pos), ht]
    rfl
  have hrn : s.rootNode = 0 := by rw [hrn, ht]
  have hl' : Loaded C.T 0 0 s.heap 0 1 [s.rootNode] [0] 0 0 [] := by
    rw [hrn]
    refine hl.congr (fun x _ hx => ?_)
    rw [hsame x (by rw [ht]; exact hx), ht]
    rfl
  refine ⟨s, ?_, by rw [hnum, ht], hl'.loadedIndex (by rw [hrn, Heap.lo_data hx, hlo])
    (by rw [hrn, Heap.hi_data hx, hhi]) hsuper (by rw [hsr, ht]; simp) (Heap.Relinked.refl _ _) ?_⟩
  · unfold Index.new
    simp only [hload, ← ht, Option.bind_eq_bind, Option.bind_some]
    exact hcreate
  · rw [Heap.leavesOf_single hx]
    refine ⟨?_, ?_, trivial⟩
    · unfold Heap.prev
      rw [hx]
      exact hleaf.prev
    · unfold Heap.next
      rw [hx]
      exact hleaf.next

/-- The same for an array without pairs, where the new index is left as it is. -/
theorem bulkLoad_loaded [NodeModel M] {C : Params M P} (hC : CheapSingles C)
    (hslots : 2 ≤ C.maxDataNodeSlots)
    (hs : values.Pairwise (fun v w => v.1 < w.1)) (hmax : ∀ v ∈ values, v.1 ≤ C.T.max)
    (hempty : s.numKeys ≤ 0) (hnew : values = [] → Index.new C = some s) :
    ∃ s' order N, (∀ fuel, N ≤ fuel → s.bulkLoad C fuel values = some s') ∧
      LoadedIndex C.T s' order values := by
  by_cases hne : values = []
  · obtain ⟨s', hs', -, hl⟩ := new_spec C
    rw [hnew hne] at hs'
    obtain rfl := Option.some.inj hs'
    subst hne
    exact ⟨s, [0], 0, fun _ _ => rfl, hl⟩
  · exact bulkLoad_spec hC hslots hs hmax hne hempty

/-! ### The bounds -/

theorem nodesFrom_mono {h : Heap M P} : ∀ {fuel : ℕ} {stack nodes : List NodeId},
    nodesFrom h fuel stack = some nodes → nodesFrom h (fuel + 1) stack = some nodes
  | 0, [], _, hn => hn
  | _ + 1, [], _, hn => hn
  | fuel + 1, cur :: stack, nodes, hn => by
      unfold nodesFrom at hn ⊢
      obtain ⟨children, hc, hn⟩ := Option.bind_eq_some_iff.mp hn
      obtain ⟨rest, hrest, hn⟩ := Option.bind_eq_some_iff.mp hn
      simp only [hc, nodesFrom_mono hrest, Option.bind_eq_bind, Option.bind_some]
      exact hn

theorem nodesFrom_le {h : Heap M P} {fuel fuel' : ℕ} {stack nodes : List NodeId}
    (hn : nodesFrom h fuel stack = some nodes) (hle : fuel ≤ fuel') :
    nodesFrom h fuel' stack = some nodes := by
  induction hle with
  | refl => exact hn
  | step _ ih => exact nodesFrom_mono ih

/-- A bulk load that returns does so with a larger bound. -/
theorem bulkLoad_le [NodeModel M] {C : Params M P} {s' : Index M P} {fuel fuel' : ℕ}
    (h : s.bulkLoad C fuel values = some s') (hle : fuel ≤ fuel') :
    s.bulkLoad C fuel' values = some s' := by
  unfold bulkLoad at h ⊢
  split
  · rename_i first last hfirst hlast
    simp only [hfirst, hlast] at h
    by_cases hnum : 0 < s.numKeys
    · rw [if_pos hnum] at h ⊢
      exact h
    · rw [if_neg hnum] at h ⊢
      obtain ⟨⟨heap, root⟩, hload, h⟩ := Option.bind_eq_some_iff.mp h
      obtain ⟨s₁, hcreate, h⟩ := Option.bind_eq_some_iff.mp h
      obtain ⟨s₂, hdomain, h⟩ := Option.bind_eq_some_iff.mp h
      unfold linkAllDataNodes at h
      obtain ⟨nodes, hnodes, h⟩ := Option.bind_eq_some_iff.mp h
      have hload' := bulkLoadNode_le hload hle
      have hnodes' := nodesFrom_le hnodes hle
      unfold linkAllDataNodes
      simp only [hload', hcreate, hdomain, hnodes', Option.bind_eq_bind, Option.bind_some]
      exact h
  · rename_i hno
    split at h
    · rename_i first last hfirst hlast
      exact absurd hlast (hno first last hfirst)
    · exact h

/-! ### The nodes of the tree -/

/-- A slot of the first node points at the second one. -/
def HasChild (h : Heap M P) (x c : NodeId) : Prop := ∃ m i, h.modelAt x = some m ∧
    m.childAt i = some c

/-- A node of the tree: it is the root or can be reached from it. -/
def InTree (s : Index M P) (x : NodeId) : Prop :=
  Relation.ReflTransGen (HasChild s.heap) s.rootNode x

/-- A data node of the tree stores the pair. -/
def StoredIn (s : Index M P) (x : NodeId) (e : ℤ × P) : Prop :=
  s.InTree x ∧ ∃ n, s.heap.dataAt x = some n ∧ e ∈ n.pairs

end Index

namespace LoadedIndex

/-- The list has the nodes of the tree. -/
theorem inTree_iff (hl : LoadedIndex T s order values) {x : NodeId} : s.InTree x ↔ x ∈ order := by
  constructor
  · intro h
    induction h with
    | refl => exact hl.forest.roots_sublist.subset (List.mem_singleton_self _)
    | tail _ hc ih =>
        obtain ⟨m, i, hm, hi⟩ := hc
        exact hl.forest.child_mem ih (Index.child_of_childAt hm (hl.forest.isSome ih) hi)
  · intro hx
    obtain ⟨r, hr, hreach⟩ := hl.forest.mem_iff.mp hx
    rw [List.mem_singleton.mp hr] at hreach
    exact Relation.ReflTransGen.mono (fun _ _ hc => Index.childAt_of_child hc) _ _ hreach

theorem storedIn_iff (hl : LoadedIndex T s order values) {x : NodeId} {e : ℤ × P} :
    s.StoredIn x e ↔ x ∈ s.heap.leavesOf order ∧ ∃ n, s.heap.dataAt x = some n ∧ e ∈ n.pairs := by
  unfold Index.StoredIn
  rw [hl.inTree_iff, Heap.mem_leavesOf]
  constructor
  · rintro ⟨hx, n, hn, he⟩
    exact ⟨⟨hx, n, hn⟩, n, hn, he⟩
  · rintro ⟨⟨hx, -⟩, n, hn, he⟩
    exact ⟨hx, n, hn, he⟩

theorem mem_values (hl : LoadedIndex T s order values) {e : ℤ × P} :
    e ∈ values ↔ ∃ x, s.StoredIn x e := by
  rw [← hl.pairs, Heap.mem_pairsOf]
  refine exists_congr (fun x => ?_)
  rw [hl.storedIn_iff]

/-- A stored pair is stored in the leaf that `get_leaf` finds, and in no other one. -/
theorem storedIn_getLeaf (hl : LoadedIndex T s order values) {x : NodeId} {e : ℤ × P}
    (hx : s.StoredIn x e) : s.getLeaf e.1 = some x := by
  obtain ⟨par, hg⟩ := hl.good
  obtain ⟨hmem, n, hn, he⟩ := hl.storedIn_iff.mp hx
  obtain ⟨y, n', hget, hy⟩ := hg.getLeaf e.1
  obtain ⟨n'', hn'', hok⟩ := hg.list.leaf x hmem
  obtain rfl := Option.some.inj (hn.symm.trans hn'')
  obtain rfl := hg.list.unique hmem hy.1 hn hy.2.1 (hok.inside e he) hy.2.2
  exact hget

end LoadedIndex

namespace Index

/-- Three pairs, too many for one data node of four slots. -/
def threePairs : List (ℤ × ℕ) := [(1, 10), (2, 20), (3, 30)]

theorem threePairs_sorted : threePairs.Pairwise (fun v w => v.1 < w.1) := by decide

theorem threePairs_le : ∀ v ∈ threePairs, v.1 ≤ smallParams.T.max := by decide

/-- **Bulk loading routes every key to its leaf.**  Whatever the costs are, each pair is stored in
exactly one data node, which is the one that `get_leaf` finds, and no other pair is stored. -/
theorem bulkLoad_routes [NodeModel M] {C : Params M P} (hC : CheapSingles C)
    (hslots : 2 ≤ C.maxDataNodeSlots)
    (hs : values.Pairwise (fun v w => v.1 < w.1)) (hmax : ∀ v ∈ values, v.1 ≤ C.T.max)
    {s₀ : Index M P} (hempty : s₀.numKeys ≤ 0) (hnew : values = [] → Index.new C = some s₀) :
    ∃ s N, (∀ fuel, N ≤ fuel → s₀.bulkLoad C fuel values = some s) ∧
      (∀ e ∈ values, ∃ x, s.StoredIn x e ∧ (∀ y, s.StoredIn y e → y = x) ∧
        s.getLeaf e.1 = some x) ∧
      ∀ x e, s.StoredIn x e → e ∈ values := by
  obtain ⟨s, order, N, hload, hl⟩ := bulkLoad_loaded hC hslots hs hmax hempty hnew
  refine ⟨s, N, hload, fun e he => ?_, fun x e hx => hl.mem_values.mpr ⟨x, hx⟩⟩
  obtain ⟨x, hx⟩ := hl.mem_values.mp he
  have hget := hl.storedIn_getLeaf hx
  exact ⟨x, hx, fun y hy => Option.some.inj ((hl.storedIn_getLeaf hy).symm.trans hget), hget⟩

theorem threeKeys_route : ∃ s₀ s N, Index.new smallParams = some s₀ ∧
    (∀ fuel, N ≤ fuel → s₀.bulkLoad smallParams fuel threePairs = some s) ∧
      (∀ e ∈ threePairs, ∃ x, s.StoredIn x e ∧ (∀ y, s.StoredIn y e → y = x) ∧
        s.getLeaf e.1 = some x) ∧
      ∀ x e, s.StoredIn x e → e ∈ threePairs := by
  obtain ⟨s₀, hnew, hnum, -⟩ := new_spec smallParams
  obtain ⟨s, N, h⟩ := bulkLoad_routes smallParams_cheap (by decide) threePairs_sorted
    threePairs_le hnum.le (fun _ => hnew)
  exact ⟨s₀, s, N, hnew, h⟩

end Index

end LearnedIndex.Alexol
