import LearnedIndex.Alexol.KeyCount
import LearnedIndex.Alexol.RootModel

/-! # The two pointers to the root (`alex.h`)

A leaf that is resized or retrained is replaced in the slots of its parent only.  If it is the root,
that parent is the superroot, and `root_node_` keeps the old leaf, which is retired and stays
locked.

* A root that is a model node stays one, and the superroot follows it.
* A root that is a leaf stays the same unlocked leaf until it is split (`LeafRoot`), as long as it
  is not resized or retrained and its lock word does not run out of versions. -/

namespace LearnedIndex.Alexol.Index

open LearnedIndex.Machine

section
variable {M P : Type} [NodeModel M] {C : Params M P} {s s' : Index M P}

/-! ### A root that is a leaf -/

/-- Both pointers lead to the same leaf, which is unlocked and in use. -/
structure LeafRoot (s : Index M P) : Prop where
  above : s.Above s.rootNode
  leaf : ∃ n, s.heap.dataAt s.rootNode = some n ∧ isSet n.lock = false
  retired : s.rootNode ∉ s.retired

/-- Both pointers lead to the same node, which is a model node or an unlocked leaf in use. -/
def RootOK (s : Index M P) : Prop := LeafRoot s ∨ ModelRoot s

/-- An insert that finds a leaf as root neither resizes nor retrains it, and its lock word has a
version left. -/
def keepsLeafRoot (C : Params M P) (s : Index M P) (key : ℤ) (payload : P) : Bool :=
  (s.heap.dataAt s.rootNode).all (fun n => !isSet (n.lock + 1#32) &&
    (n.insert false key payload).all (fun r => decide (r.2.1 ≠ 5) && (decide (r.2.1 < 1) ||
      (chooseFanout C s r.1 r.2.1).all (fun c => decide (c.1 ≠ 0)))))

theorem keepsLeafRoot_spec {n : DataNode M P} {key : ℤ} {payload : P}
    (h : s.keepsLeafRoot C key payload = true) (hn : s.heap.dataAt s.rootNode = some n) :
    isSet (n.lock + 1#32) = false ∧ ∀ n' fail pos,
      n.insert false key payload = some (n', fail, pos) → fail ≠ 5 ∧
        (1 ≤ fail → ∀ depth used n'', chooseFanout C s n' fail = some (depth, used, n'') →
        depth ≠ 0) := by
  unfold keepsLeafRoot at h
  rw [hn, Option.all_some, Bool.and_eq_true, Bool.not_eq_true'] at h
  refine ⟨h.1, fun n' fail pos hins => ?_⟩
  have hbranch := h.2
  rw [hins, Option.all_some, Bool.and_eq_true, Bool.or_eq_true, decide_eq_true_eq,
    decide_eq_true_eq] at hbranch
  refine ⟨hbranch.1, fun hfail depth used n'' hchoose => ?_⟩
  have hdepth := hbranch.2.resolve_left (not_lt.mpr hfail)
  rw [hchoose, Option.all_some, decide_eq_true_eq] at hdepth
  exact hdepth

omit [NodeModel M] in
theorem insertVerdict_lock (n : DataNode M P) (pos : ℕ) :
    (n.insertVerdict pos).2.1 = 0 ∧ (n.insertVerdict pos).1 = n.releaseLock ∨
      1 ≤ (n.insertVerdict pos).2.1 ∧ (n.insertVerdict pos).2.1 ≠ 4 := by
  unfold DataNode.insertVerdict
  split
  · exact Or.inr ⟨by norm_num, by norm_num⟩
  · split
    · split
      · exact Or.inr ⟨by norm_num, by norm_num⟩
      · split
        · exact Or.inr ⟨by norm_num, by norm_num⟩
        · split
          · exact Or.inr ⟨by norm_num, by norm_num⟩
          · exact Or.inr ⟨by norm_num, by norm_num⟩
    · exact Or.inl ⟨rfl, rfl⟩

theorem findInsertPosition_lock {n n' : DataNode M P} {key : ℤ} {pos upper : ℕ}
    (h : n.findInsertPosition key = some (pos, upper, n')) : n'.lock = n.lock := by
  unfold DataNode.findInsertPosition at h
  obtain ⟨⟨p, n₁⟩, hsearch, h⟩ := Option.bind_eq_some_iff.mp h
  unfold DataNode.exponentialSearchUpperBound at hsearch
  obtain ⟨⟨p', iters⟩, -, hsearch⟩ := Option.bind_eq_some_iff.mp hsearch
  obtain ⟨-, rfl⟩ := Prod.mk.inj (Option.some.inj hsearch)
  dsimp only at h
  split at h
  · obtain ⟨-, hrest⟩ := Prod.mk.inj (Option.some.inj h)
    obtain ⟨-, rfl⟩ := Prod.mk.inj hrest
    rfl
  · obtain ⟨b, -, h⟩ := Option.bind_eq_some_iff.mp h
    split at h
    · obtain ⟨-, hrest⟩ := Prod.mk.inj (Option.some.inj h)
      obtain ⟨-, rfl⟩ := Prod.mk.inj hrest
      rfl
    · obtain ⟨next, -, h⟩ := Option.bind_eq_some_iff.mp h
      obtain ⟨-, hrest⟩ := Prod.mk.inj (Option.some.inj h)
      obtain ⟨-, rfl⟩ := Prod.mk.inj hrest
      rfl

omit [NodeModel M] in
theorem insertAtPosition_lock {n n' : DataNode M P} {key : ℤ} {payload : P} {pos pos' : ℕ}
    (h : n.insertAtPosition key payload pos = some (n', pos')) : n'.lock = n.lock := by
  unfold DataNode.insertAtPosition at h
  obtain ⟨b, -, h⟩ := Option.bind_eq_some_iff.mp h
  split at h
  · obtain ⟨slots, -, h⟩ := Option.bind_eq_some_iff.mp h
    obtain ⟨rfl, -⟩ := Prod.mk.inj (Option.some.inj h)
    rfl
  · obtain ⟨⟨slots, p, shifts⟩, -, h⟩ := Option.bind_eq_some_iff.mp h
    obtain ⟨rfl, -⟩ := Prod.mk.inj (Option.some.inj h)
    rfl

/-- An insert into a free leaf counts its version up, or asks for a restructuring. -/
theorem insert_lock {n n' : DataNode M P} {allowDuplicates : Bool} {key fail pos : ℤ} {payload : P}
    (hl : isSet n.lock = false)
    (h : n.insert allowDuplicates key payload = some (n', fail, pos)) :
    (fail = 0 ∨ fail = -1) ∧ n'.lock = n.lock + 1#32 ∨ 1 ≤ fail ∧ fail ≠ 4 := by
  unfold DataNode.insert at h
  rw [DataNode.tryGetLock_free hl] at h
  obtain ⟨⟨p, upper, n₁⟩, hfind, h⟩ := Option.bind_eq_some_iff.mp h
  have hlock : n₁.lock = n.lock ||| lockSet := findInsertPosition_lock hfind
  obtain ⟨stored, -, h⟩ := Option.bind_eq_some_iff.mp h
  dsimp only at h
  split at h
  · obtain ⟨rfl, hrest⟩ := Prod.mk.inj (Option.some.inj h)
    obtain ⟨rfl, -⟩ := Prod.mk.inj hrest
    refine Or.inl ⟨Or.inr rfl, ?_⟩
    show n₁.lock + 1#32 - lockSet = n.lock + 1#32
    rw [hlock, release_acquire hl]
  · obtain ⟨⟨n₂, p'⟩, hat, h⟩ := Option.bind_eq_some_iff.mp h
    have hlock₂ : (n₂.updateStats key).lock = n.lock ||| lockSet :=
      (insertAtPosition_lock hat).trans hlock
    have hverdict := insertVerdict_lock (n₂.updateStats key) p'
    rw [Option.some.inj h] at hverdict
    refine hverdict.imp_left (fun ⟨hzero, hrelease⟩ => ⟨Or.inl hzero, ?_⟩)
    have hrelease : n' = (n₂.updateStats key).releaseLock := hrelease
    rw [hrelease]
    show (n₂.updateStats key).lock + 1#32 - lockSet = n.lock + 1#32
    rw [hlock₂, release_acquire hl]

omit [NodeModel M] in
theorem getLeaf_of_leafRoot (hr : LeafRoot s) (key : ℤ) : s.getLeaf key = some s.rootNode := by
  obtain ⟨n, hn, -⟩ := hr.leaf
  unfold getLeaf
  simp only [Heap.dataAt_eq_some.mp hn]

omit [NodeModel M] in
theorem LeafRoot.same_nodes (hr : LeafRoot s) (h : SameNodes s s') : LeafRoot s' := by
  obtain ⟨n, hn, hl⟩ := hr.leaf
  refine ⟨h.rootNode ▸ h.sameRoot.above hr.above, ⟨n, ?_, hl⟩, ?_⟩
  · rw [h.heap, h.rootNode, hn]
  · rw [h.rootNode, h.retired]
    exact hr.retired

omit [NodeModel M] in
/-- The insert writes the root. -/
theorem LeafRoot.write (hr : LeafRoot s) {n' : DataNode M P} (hl : isSet n'.lock = false) :
    LeafRoot { s with heap := s.heap.setData s.rootNode n' } := by
  obtain ⟨n, hn, -⟩ := hr.leaf
  have hsame : SameRoot s { s with heap := s.heap.setData s.rootNode n' } :=
    SameRoot.of_heap (KeepsModels.setData hn n')
  refine ⟨hsame.above hr.above, ⟨n', ?_, hl⟩, hr.retired⟩
  show (s.heap.setData s.rootNode n').dataAt s.rootNode = some n'
  rw [Heap.dataAt_setData hn, Function.update_self]

theorem insertRound_leafRoot {key : ℤ} {payload : P} {answer : Option Bool} (hr : LeafRoot s)
    (hkeep : s.keepsLeafRoot C key payload = true)
    (h : insertRound C s key payload = some (s', answer)) : RootOK s' ∧ answer ≠ none := by
  unfold insertRound at h
  obtain ⟨s₁, hdomain, h⟩ := Option.bind_eq_some_iff.mp h
  have hnodes : SameNodes s s₁ := by
    rcases expandDomain_cases hdomain with hsame | ⟨t, expandLeft, hsame, hmodel, -⟩
    · exact hsame
    · obtain ⟨n, hn, -⟩ := hr.leaf
      rw [hsame.heap, hsame.rootNode] at hmodel
      exact absurd (Heap.modelAt_of_data hn) hmodel
  have hr₁ := hr.same_nodes hnodes
  obtain ⟨n, hn, hl⟩ := hr₁.leaf
  rw [getLeaf_of_leafRoot hr₁, Option.bind_eq_bind, Option.bind_some, hn, Option.bind_eq_bind,
    Option.bind_some] at h
  obtain ⟨⟨n', fail, pos⟩, hins, h⟩ := Option.bind_eq_some_iff.mp h
  have hn₀ : s.heap.dataAt s.rootNode = some n := by
    rw [← hnodes.heap, ← hnodes.rootNode, hn]
  obtain ⟨hversion, hbranch⟩ := keepsLeafRoot_spec hkeep hn₀
  obtain ⟨h5, hsplit⟩ := hbranch n' fail pos hins
  have hlock := insert_lock hl hins
  have h : afterInsert C { s₁ with heap := s₁.heap.setData s₁.rootNode n' } s₁.rootNode key fail =
    some (s', answer) := h
  unfold afterInsert at h
  split at h
  · obtain ⟨rfl, rfl⟩ := Prod.mk.inj (Option.some.inj h)
    have hfree : isSet n'.lock = false := by
      obtain ⟨-, hn'⟩ := hlock.resolve_right (by omega)
      rw [hn', hversion]
    have hw := hr₁.write hfree
    exact ⟨Or.inl ⟨hw.above, hw.leaf, hw.retired⟩, Option.some_ne_none _⟩
  · split at h
    · obtain ⟨rfl, rfl⟩ := Prod.mk.inj (Option.some.inj h)
      have hfree : isSet n'.lock = false := by
        obtain ⟨-, hn'⟩ := hlock.resolve_right (by omega)
        rw [hn', hversion]
      exact ⟨Or.inl (hr₁.write hfree), Option.some_ne_none _⟩
    · obtain ⟨hpos, h4⟩ := hlock.resolve_left (by omega)
      rw [if_neg h4] at h
      obtain ⟨s₂, hwork, h⟩ := Option.bind_eq_some_iff.mp h
      obtain ⟨rfl, rfl⟩ := Prod.mk.inj (Option.some.inj h)
      have hsame : SameRoot s₁ { s₁ with heap := s₁.heap.setData s₁.rootNode n' } :=
        SameRoot.of_heap (KeepsModels.setData hn n')
      have hr₂ := restructure_modelRoot (hsame.above hr₁.above) (Or.inr ⟨rfl,
        fun k depth used k' hk hchoose => ?_⟩) hwork
      · exact ⟨Or.inr ⟨hr₂.above, hr₂.root, hr₂.ne⟩, Option.some_ne_none _⟩
      · have hk' : (s₁.heap.setData s₁.rootNode n').dataAt s₁.rootNode = some k := hk
        rw [Heap.dataAt_setData hn, Function.update_self] at hk'
        obtain rfl := Option.some.inj hk'
        refine hsplit hpos depth used k' ?_
        unfold chooseFanout at hchoose ⊢
        rw [← hnodes.numKeys]
        exact hchoose

/-! ### The first root -/

omit [NodeModel M] in
/-- The superroot is created above the root. -/
theorem createSuperroot_above (h : createSuperroot s = some s') :
    s'.Above s'.rootNode ∧ s'.rootNode = s.rootNode ∧ s'.retired = s.retired ∧
      s'.rootNode ≠ s'.superroot ∧ s'.heap.dataAt s.rootNode = s.heap.dataAt s.rootNode ∧
      s'.heap.modelAt s.rootNode = s.heap.modelAt s.rootNode := by
  unfold createSuperroot at h
  obtain ⟨node, hnode, h⟩ := Option.bind_eq_some_iff.mp h
  unfold updateSuperrootPointer at h
  obtain ⟨node', -, h⟩ := Option.bind_eq_some_iff.mp h
  obtain ⟨sr, hsr, h⟩ := Option.bind_eq_some_iff.mp h
  obtain ⟨sr', hset, h⟩ := Option.bind_eq_some_iff.mp h
  obtain rfl := Option.some.inj h
  have hne : s.rootNode ≠ s.heap.length := (List.getElem?_eq_some_iff.mp hnode).1.ne
  have hfirst := hsr
  rw [Heap.modelAt_snoc_model, Function.update_self] at hfirst
  rw [← Option.some.inj hfirst] at hset
  obtain ⟨children, hfill, rfl⟩ := Option.map_eq_some_iff.mp hset
  obtain rfl : [some s.rootNode] = children := Option.some.inj hfill
  refine ⟨⟨_, (congrFun (Heap.modelAt_setModel hsr _) _).trans (Function.update_self ..), rfl⟩, rfl,
    rfl, hne, ?_, ?_⟩
  · refine (congrFun (Heap.dataAt_setModel hsr _) _).trans ?_
    rw [Heap.dataAt_snoc_model]
  · refine (congrFun (Heap.modelAt_setModel hsr _) _).trans ?_
    rw [Function.update_of_ne hne, Heap.modelAt_snoc_model, Function.update_of_ne hne]

omit [NodeModel M] in
/-- A root that is a model node or an unlocked leaf gets its superroot. -/
theorem createSuperroot_rootOK (h : createSuperroot s = some s') (hretired : s.rootNode ∉ s.retired)
    (hroot : (∃ m, s.heap.modelAt s.rootNode = some m) ∨
      ∃ n, s.heap.dataAt s.rootNode = some n ∧ isSet n.lock = false) : RootOK s' := by
  obtain ⟨habove, hrn, hret, hne, hdata, hmodel⟩ := createSuperroot_above h
  rcases hroot with hm | hn
  · refine Or.inr ⟨habove, ?_, hne⟩
    rw [hrn, hmodel]
    exact hm
  · refine Or.inl ⟨habove, ?_, ?_⟩
    · rw [hrn, hdata]
      exact hn
    · rw [hrn, hret]
      exact hretired

omit [NodeModel M] in
/-- The same root and superroot, where data nodes keep their locks. -/
theorem RootOK.same (hr : RootOK s) (h : SameRoot s s') (hret : s'.retired = s.retired)
    (hlock : ∀ x n, s.heap.dataAt x = some n → ∃ n', s'.heap.dataAt x = some n' ∧
    n'.lock = n.lock) :
    RootOK s' := by
  rcases hr with hr | hr
  · obtain ⟨n, hn, hfree⟩ := hr.leaf
    obtain ⟨n', hn', heq⟩ := hlock _ n hn
    refine Or.inl ⟨h.rootNode ▸ h.above hr.above, ⟨n', ?_, heq ▸ hfree⟩, ?_⟩
    · rw [h.rootNode, hn']
    · rw [h.rootNode, hret]
      exact hr.retired
  · exact Or.inr (hr.same h)

omit [NodeModel M] in
theorem updateSuperrootKeyDomain_rootOK {T : KeyType} (hr : RootOK s)
    (h : updateSuperrootKeyDomain T s = some s') : RootOK s' := by
  unfold updateSuperrootKeyDomain at h
  obtain ⟨lo, -, h⟩ := Option.bind_eq_some_iff.mp h
  obtain ⟨hi, -, h⟩ := Option.bind_eq_some_iff.mp h
  obtain ⟨heap, hmodify, h⟩ := Option.bind_eq_some_iff.mp h
  obtain rfl := Option.some.inj h
  refine hr.same ⟨rfl, rfl, KeepsModels.modifyModel hmodify (fun _ => rfl)⟩ rfl (fun x n hn => ?_)
  obtain ⟨m, hm, rfl⟩ := Option.map_eq_some_iff.mp hmodify
  exact ⟨n, by rw [Heap.dataAt_setModel hm, hn], rfl⟩

omit [NodeModel M] in
/-- Linking the leaves changes no lock and no model node. -/
theorem linkLeaves_keeps : ∀ {l : List NodeId} {h h' : Heap M P}, linkLeaves h l = some h' →
    KeepsModels s.superroot h h' ∧
      ∀ x n, h.dataAt x = some n → ∃ n', h'.dataAt x = some n' ∧ n'.lock = n.lock
  | [], h, h', hl => by
      obtain rfl := Option.some.inj hl
      exact ⟨KeepsModels.refl _ h, fun x n hn => ⟨n, hn, rfl⟩⟩
  | [_], h, h', hl => by
      obtain rfl := Option.some.inj hl
      exact ⟨KeepsModels.refl _ h, fun x n hn => ⟨n, hn, rfl⟩⟩
  | prev :: node :: rest, h, h', hl => by
      have hwrite : ∀ {x : NodeId} {g g' : Heap M P} {f : DataNode M P → DataNode M P},
          g.modifyData x f = some g' → (∀ n, (f n).lock = n.lock) →
          ∀ y n, g.dataAt y = some n → ∃ n', g'.dataAt y = some n' ∧ n'.lock = n.lock := by
        intro x g g' f hmodify hf y n hn
        obtain ⟨k, hk, rfl⟩ := Option.map_eq_some_iff.mp hmodify
        rw [Heap.dataAt_setData hk]
        by_cases hy : y = x
        · subst hy
          obtain rfl := Option.some.inj (hk.symm.trans hn)
          exact ⟨f k, Function.update_self .., hf k⟩
        · exact ⟨n, by rw [Function.update_of_ne hy, hn], rfl⟩
      obtain ⟨h₁, hfirst, hl⟩ := Option.bind_eq_some_iff.mp hl
      obtain ⟨h₂, hsecond, hl⟩ := Option.bind_eq_some_iff.mp hl
      obtain ⟨hmodels, hlocks⟩ := linkLeaves_keeps hl
      refine ⟨((KeepsModels.modifyData hfirst).trans (KeepsModels.modifyData hsecond)).trans
        hmodels,
        fun x n hn => ?_⟩
      obtain ⟨n₁, hn₁, heq₁⟩ := hwrite hfirst (fun _ => rfl) x n hn
      obtain ⟨n₂, hn₂, heq₂⟩ := hwrite hsecond (fun _ => rfl) x n₁ hn₁
      obtain ⟨n₃, hn₃, heq₃⟩ := hlocks x n₂ hn₂
      exact ⟨n₃, hn₃, heq₃.trans (heq₂.trans heq₁)⟩

omit [NodeModel M] in
theorem linkAllDataNodes_rootOK {fuel : ℕ} (hr : RootOK s)
    (h : linkAllDataNodes fuel s = some s') : RootOK s' := by
  unfold linkAllDataNodes at h
  obtain ⟨nodes, -, h⟩ := Option.bind_eq_some_iff.mp h
  obtain ⟨heap, hlink, h⟩ := Option.bind_eq_some_iff.mp h
  obtain rfl := Option.some.inj h
  obtain ⟨hmodels, hlocks⟩ := linkLeaves_keeps (s := s) hlink
  exact hr.same ⟨rfl, rfl, hmodels⟩ rfl hlocks

/-- Loading writes no lock. -/
theorem bulkLoad_lock {T : KeyType} {n n' : DataNode M P} {values : List (ℤ × P)}
    {pretrained : Option M} {sample : Bool} (h : n.bulkLoad T values pretrained sample = some n') :
    n'.lock = n.lock := by
  unfold DataNode.bulkLoad at h
  split at h
  · obtain ⟨slots, -, h⟩ := Option.bind_eq_some_iff.mp h
    rw [← Option.some.inj h]
    rfl
  · obtain ⟨slots, -, h⟩ := Option.bind_eq_some_iff.mp h
    rw [← Option.some.inj h]

/-- `bulk_load_node` returns a model node or an unlocked leaf. -/
theorem bulkLoadNode_root {totalKeys : ℤ} {fuel : ℕ} {h h' : Heap M P} {values : List (ℤ × P)}
    {node : ModelNode} {lo hi : ℚ} {model : M} {id : NodeId}
    (hl : bulkLoadNode C totalKeys fuel h values node lo hi model = some (h', id)) :
    (∃ m, h'.modelAt id = some m) ∨ ∃ n, h'.dataAt id = some n ∧ isSet n.lock = false := by
  have hleaf : loadDataNode C h values node lo hi model = some (h', id) →
      ∃ n, h'.dataAt id = some n ∧ isSet n.lock = false := by
    intro hd
    unfold loadDataNode at hd
    obtain ⟨n, hn, hd⟩ := Option.bind_eq_some_iff.mp hd
    obtain ⟨rfl, rfl⟩ := Prod.mk.inj (Option.some.inj hd)
    refine ⟨{ n with cost := node.cost }, ?_, ?_⟩
    · rw [Heap.dataAt_snoc_data, Function.update_self]
    · show isSet n.lock = false
      rw [bulkLoad_lock hn]
      exact (by decide : isSet 0#32 = false)
  cases fuel with
  | zero => cases hl
  | succ fuel =>
      unfold bulkLoadNode at hl
      dsimp only at hl
      split at hl
      · exact Or.inr (hleaf hl)
      · obtain ⟨⟨depth, cost, used⟩, -, hl⟩ := Option.bind_eq_some_iff.mp hl
        dsimp only at hl
        split at hl
        · obtain ⟨⟨depth', used'⟩, -, hl⟩ := Option.bind_eq_some_iff.mp hl
          obtain ⟨⟨h₁, children⟩, -, hl⟩ := Option.bind_eq_some_iff.mp hl
          obtain ⟨rfl, rfl⟩ := Prod.mk.inj (Option.some.inj hl)
          exact Or.inl ⟨_, by rw [Heap.modelAt_snoc_model, Function.update_self]⟩
        · exact Or.inr (hleaf hl)

theorem new_rootOK (h : Index.new C = some s) : RootOK s ∧ s.retired = [] := by
  unfold Index.new at h
  obtain ⟨leaf, hleaf, h⟩ := Option.bind_eq_some_iff.mp h
  refine ⟨createSuperroot_rootOK h List.not_mem_nil (Or.inr ⟨leaf, rfl, ?_⟩), ?_⟩
  · rw [bulkLoad_lock hleaf]
    exact (by decide : isSet 0#32 = false)
  · obtain ⟨-, -, hret, -⟩ := createSuperroot_above h
    exact hret

theorem bulkLoad_rootOK {fuel : ℕ} {values : List (ℤ × P)} (hr : RootOK s) (hret : s.retired = [])
    (h : s.bulkLoad C fuel values = some s') : RootOK s' := by
  unfold bulkLoad at h
  split at h
  · split at h
    · rw [← Option.some.inj h]
      exact hr
    · obtain ⟨⟨heap, root⟩, hload, h⟩ := Option.bind_eq_some_iff.mp h
      obtain ⟨s₁, hsuper, h⟩ := Option.bind_eq_some_iff.mp h
      obtain ⟨s₂, hdomain, h⟩ := Option.bind_eq_some_iff.mp h
      refine linkAllDataNodes_rootOK (updateSuperrootKeyDomain_rootOK
        (createSuperroot_rootOK hsuper ?_ ?_) hdomain) h
      · rw [hret]
        exact List.not_mem_nil
      · show (∃ m, (recordRootCost heap root _).modelAt root = some m) ∨
          ∃ n, (recordRootCost heap root _).dataAt root = some n ∧ isSet n.lock = false
        unfold recordRootCost
        rcases bulkLoadNode_root hload with ⟨m, hm⟩ | ⟨n, hn, hfree⟩
        · rw [Heap.dataAt_of_model hm]
          exact Or.inl ⟨m, hm⟩
        · rw [hn]
          refine Or.inr
            ⟨_, (congrFun (Heap.dataAt_setData hn _) root).trans (Function.update_self ..), ?_⟩
          exact hfree
  · rw [← Option.some.inj h]
    exact hr

/-! ### Runs of inserts -/

theorem insert_modelRoot {key : ℤ} {payload : P} {b : Bool} : ∀ {fuel : ℕ} {s : Index M P},
    ModelRoot s → insert C fuel s key payload = some (b, s') → ModelRoot s'
  | 0, s, _, h => by cases h
  | fuel + 1, s, hr, h => by
      unfold insert at h
      obtain ⟨⟨s₁, answer⟩, hround, h⟩ := Option.bind_eq_some_iff.mp h
      have hr₁ := insertRound_modelRoot hr hround
      cases answer with
      | none => exact insert_modelRoot hr₁ h
      | some b' =>
          obtain ⟨-, rfl⟩ := Prod.mk.inj (Option.some.inj h)
          exact hr₁

theorem insert_rootOK {key : ℤ} {payload : P} {b : Bool} {fuel : ℕ} (hr : RootOK s)
    (hkeep : s.keepsLeafRoot C key payload = true)
    (h : insert C fuel s key payload = some (b, s')) : RootOK s' := by
  rcases hr with hr | hr
  · cases fuel with
    | zero => cases h
    | succ fuel =>
        unfold insert at h
        obtain ⟨⟨s₁, answer⟩, hround, h⟩ := Option.bind_eq_some_iff.mp h
        obtain ⟨hok, hanswer⟩ := insertRound_leafRoot hr hkeep hround
        cases answer with
        | none => exact absurd rfl hanswer
        | some b' =>
            obtain ⟨-, rfl⟩ := Prod.mk.inj (Option.some.inj h)
            exact hok
  · exact Or.inr (insert_modelRoot hr h)

/-- An insert that a thread asks for, with a bound on its retries. -/
structure InsertRequest (P : Type) where
  key : ℤ
  payload : P
  fuel : ℕ

/-- A call of `insert` that returns. -/
def insertCall (C : Params M P) (s : Index M P) (r : InsertRequest P) : Option (Index M P) :=
  (insert C r.fuel s r.key r.payload).map Prod.snd

/-- Both pointers lead to the same node, which is no leaf that is retired or locked. -/
structure RootPointersAgree (s : Index M P) : Prop where
  node : (s.heap[s.rootNode]?).isSome = true
  pointer : ∃ sr, s.heap.modelAt s.superroot = some sr ∧ sr.childAt 0 = some s.rootNode
  inUse : ∀ n, s.heap.dataAt s.rootNode = some n → s.rootNode ∉ s.retired ∧ isSet n.lock = false

omit [NodeModel M] in
theorem RootOK.agree (h : RootOK s) : RootPointersAgree s := by
  have hpointer : ∀ {c : NodeId}, s.Above c →
      ∃ sr, s.heap.modelAt s.superroot = some sr ∧ sr.childAt 0 = some c := by
    rintro c ⟨sr, hsr, hc⟩
    exact ⟨sr, hsr, by unfold ModelNode.childAt; rw [hc]; rfl⟩
  rcases h with h | h
  · obtain ⟨n, hn, hfree⟩ := h.leaf
    refine ⟨by rw [Heap.dataAt_eq_some.mp hn]; rfl, hpointer h.above, fun k hk => ⟨h.retired, ?_⟩⟩
    rw [← Option.some.inj (hn.symm.trans hk), hfree]
  · obtain ⟨m, hm⟩ := h.root
    refine ⟨by rw [Heap.modelAt_eq_some.mp hm]; rfl, hpointer h.above, fun k hk => ?_⟩
    rw [Heap.dataAt_of_model hm] at hk
    cases hk

/-- Inserts that are allowed one after another, after a bulk load. -/
theorem sixSlots_run (ok : Index LinearModel ℕ → InsertRequest ℕ → Prop) [∀ s r, Decidable (ok s r)]
    (values : List (ℤ × ℕ)) (requests : List (InsertRequest ℕ)) (p : Index LinearModel ℕ → Bool)
    (h : ((Index.new sixSlots).bind (fun s₀ => (s₀.bulkLoad sixSlots 1 values).bind (fun s =>
      exec (fun s r => if ok s r then insertCall sixSlots s r else none) s requests))).any
      p = true) :
    ∃ s₀ s s', Index.new sixSlots = some s₀ ∧ s₀.bulkLoad sixSlots 1 values = some s ∧
      Run (insertCall sixSlots) ok s s' ∧ p s' = true := by
  obtain ⟨s', hs'⟩ := Option.isSome_iff_exists.mp (Option.isSome_of_any h)
  rw [hs', Option.any_some] at h
  obtain ⟨s₀, hnew, hs'⟩ := Option.bind_eq_some_iff.mp hs'
  obtain ⟨s, hload, hexec⟩ := Option.bind_eq_some_iff.mp hs'
  exact ⟨s₀, s, s', hnew, hload, run_of_exec_allowed hexec, h⟩

/-- **The two pointers to the root agree** after the constructor or a bulk load and any inserts none
of which resizes or retrains a leaf that is the root. -/
theorem root_pointers_agree (C : Params M P) {s₀ s s' : Index M P} (hnew : Index.new C = some s₀)
    {fuel : ℕ} {values : List (ℤ × P)} (hload : s₀.bulkLoad C fuel values = some s)
    (hrun : Run (insertCall C) (fun s r => s.keepsLeafRoot C r.key r.payload = true) s s') :
    RootPointersAgree s' := by
  obtain ⟨hok, hret⟩ := new_rootOK hnew
  refine (hrun.invariant (bulkLoad_rootOK hok hret hload) (fun t r u ht hkeep hcall => ?_)).agree
  obtain ⟨⟨b, s₁⟩, hinsert, rfl⟩ := Option.map_eq_some_iff.mp hcall
  exact insert_rootOK ht hkeep hinsert

/-- The fifth key splits the leaf that was the root. -/
theorem root_pointers_agree_fourKeys : ∃ s₀ s s' : Index LinearModel ℕ,
    Index.new sixSlots = some s₀ ∧
    s₀.bulkLoad sixSlots 1 [(10, 0), (20, 0), (30, 0), (40, 0)] = some s ∧
    (s'.heap.modelAt s'.rootNode).isSome = true ∧ RootPointersAgree s' := by
  obtain ⟨s₀, s, s', hnew, hload, hrun, hmodel⟩ := sixSlots_run
    (fun s r => s.keepsLeafRoot sixSlots r.key r.payload = true)
    [(10, 0), (20, 0), (30, 0), (40, 0)] [⟨50, 0, 1⟩, ⟨60, 0, 1⟩]
    (fun s' => (s'.heap.modelAt s'.rootNode).isSome) (by decide +kernel)
  exact ⟨s₀, s, s', hnew, hload, hmodel, root_pointers_agree sixSlots hnew hload hrun⟩

/-- The first key of a new index resizes its leaf, and `root_node_` keeps the retired one. -/
theorem root_pointers_differ : ¬ ∀ (C : Params LinearModel ℕ) (s₀ s s' : Index LinearModel ℕ)
    (fuel : ℕ) (values : List (ℤ × ℕ)), Index.new C = some s₀ →
    s₀.bulkLoad C fuel values = some s → Run (insertCall C) Any s s' → RootPointersAgree s' := by
  intro hall
  obtain ⟨s₀, s, s', hnew, hload, hrun, hstale⟩ := sixSlots_run Any [] [⟨1, 0, 1⟩]
    (fun s' => decide (s'.rootNode ∈ s'.retired) && (s'.heap.dataAt s'.rootNode).isSome)
    (by decide +kernel)
  rw [Bool.and_eq_true, decide_eq_true_eq] at hstale
  obtain ⟨n, hn⟩ := Option.isSome_iff_exists.mp hstale.2
  exact ((hall sixSlots s₀ s s' 1 [] hnew hload hrun).inUse n hn).1 hstale.1

end

end LearnedIndex.Alexol.Index
