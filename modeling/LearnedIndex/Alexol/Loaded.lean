import LearnedIndex.Alexol.LeafChain
import LearnedIndex.Lib.PreOrder

/-! # Loaded subtrees

Bulk loading appends nodes to the arena.  `Loaded T LO HI h a b roots order lo hi values` says what
the nodes from `a` to `b` are: the trees below `roots` in pre-order, whose leaves have key ranges
that follow each other from `lo` to `hi` and store the pairs `values` in key order.  Loaded trees
can be put side by side (`Loaded.append`) and below a new model node (`Loaded.node`). -/

namespace LearnedIndex.Alexol

open LearnedIndex.Chains LearnedIndex.Forests

variable {M P : Type}

/-! ### Children -/

namespace Index

/-- The stack of `NodeIterator` is that of a pre-order traversal. -/
theorem nodesFrom_eq_visit (h : Heap M P) : ∀ (fuel : ℕ) (stack : List NodeId),
    nodesFrom h fuel stack = visit (pushedChildren h) fuel stack
  | 0, [] => rfl
  | _ + 1, [] => rfl
  | 0, _ :: _ => rfl
  | fuel + 1, x :: stack => by
      unfold nodesFrom visit
      congr 1
      funext cs
      rw [nodesFrom_eq_visit h fuel]

theorem mem_distinctChildren {c : Option NodeId} : ∀ {l : List (Option NodeId)},
    c ∈ distinctChildren l ↔ c ∈ l
  | [] => Iff.rfl
  | [_] => Iff.rfl
  | d :: e :: l => by
      unfold distinctChildren
      have ih := mem_distinctChildren (c := c) (l := e :: l)
      split
      · rename_i heq
        rw [ih, heq]
        simp
      · rw [List.mem_cons, ih]
        exact List.mem_cons.symm

theorem mapM_id_eq_some {α : Type} : ∀ {l : List (Option α)} {cs : List α},
    l.mapM id = some cs ↔ l = cs.map some
  | [], cs => by cases cs <;> simp
  | o :: l, cs => by
      rw [List.mapM_cons]
      cases o with
      | none => cases cs <;> simp
      | some c =>
          cases cs with
          | nil => cases l.mapM id <;> simp
          | cons c' cs =>
              have ih : l.mapM id = some cs ↔ l = cs.map some := mapM_id_eq_some
              rw [List.map_cons, List.cons.injEq, ← ih]
              cases l.mapM id <;> simp

variable {h : Heap M P} {x c : NodeId} {m : ModelNode} {n : DataNode M P}

theorem pushedChildren_data (hx : h.dataAt x = some n) : pushedChildren h x = some [] := by
  unfold pushedChildren
  rw [Heap.dataAt_eq_some.mp hx]

theorem pushedChildren_model (hx : h.modelAt x = some m) :
    pushedChildren h x = (distinctChildren m.children).mapM id := by
  unfold pushedChildren
  rw [Heap.modelAt_eq_some.mp hx]

/-- `NodeIterator` pushes the nodes that the slots point at. -/
theorem mem_pushedChildren (hx : h.modelAt x = some m) {cs : List NodeId}
    (hcs : pushedChildren h x = some cs) : c ∈ cs ↔ ∃ i, m.childAt i = some c := by
  rw [pushedChildren_model hx] at hcs
  have hmem : c ∈ cs ↔ some c ∈ m.children := by
    rw [← mem_distinctChildren, mapM_id_eq_some.mp hcs]
    simp
  rw [hmem, List.mem_iff_getElem?]
  refine exists_congr (fun i => ?_)
  unfold ModelNode.childAt
  cases m.children[i]? with
  | none => simp
  | some o => cases o <;> simp

/-- A node that a slot points at is a child. -/
theorem child_of_childAt (hx : h.modelAt x = some m) (hsome : (pushedChildren h x).isSome) {i : ℕ}
    (hc : m.childAt i = some c) : Child (pushedChildren h) x c := by
  obtain ⟨cs, hcs⟩ := Option.isSome_iff_exists.mp hsome
  exact ⟨cs, hcs, (mem_pushedChildren hx hcs).mpr ⟨i, hc⟩⟩

/-- Only the slots of model nodes point at children. -/
theorem childAt_of_child (hc : Child (pushedChildren h) x c) :
    ∃ m i, h.modelAt x = some m ∧ m.childAt i = some c := by
  obtain ⟨cs, hcs, hmem⟩ := hc
  have hpush := hcs
  unfold pushedChildren at hpush
  cases hx : h[x]? with
  | none =>
      rw [hx] at hpush
      cases hpush
  | some node =>
      cases node with
      | data n =>
          rw [hx] at hpush
          obtain rfl := Option.some.inj hpush
          cases hmem
      | model m =>
          have hm := Heap.modelAt_eq_some.mpr hx
          obtain ⟨i, hi⟩ := (mem_pushedChildren hm hcs).mp hmem
          exact ⟨m, i, hm, hi⟩

theorem lt_of_pushedChildren (hsome : (pushedChildren h x).isSome) : x < h.length := by
  by_contra hge
  unfold pushedChildren at hsome
  rw [List.getElem?_eq_none (Nat.not_lt.mp hge)] at hsome
  cases hsome

theorem pushedChildren_congr {h' : Heap M P} (heq : h'[x]? = h[x]?) :
    pushedChildren h' x = pushedChildren h x := by
  unfold pushedChildren
  rw [heq]

end Index

/-- The children may change as long as they keep their places. -/
theorem ModelOK.congr {F F' : NodeId → Option Frame} {live live' : Set NodeId} {m : ModelNode}
    (hm : ModelOK F live m) (hF : ∀ i c, m.childAt i = some c → c ∈ live → F' c = F c ∧ c ∈ live') :
    ModelOK F' live' m := by
  refine ⟨hm.size, hm.length, hm.slope, fun i hi => ?_⟩
  obtain ⟨c, f, hl, hc⟩ := hm.child i hi
  obtain ⟨heq, hl'⟩ := hF i c hc.child hl
  exact ⟨c, f, hl', hc.congr (SameShape.refl m) (heq.trans hc.get) (Or.inl rfl) hc.slots⟩

/-! ### Leaves -/

namespace Heap

/-- The leaves among some nodes. -/
def leavesOf (h : Heap M P) (l : List NodeId) : List NodeId :=
  l.filter (fun x => (h.dataAt x).isSome)

variable {h h' : Heap M P} {l l' : List NodeId} {x : NodeId} {n : DataNode M P}

theorem leavesOf_append (l l' : List NodeId) :
    h.leavesOf (l ++ l') = h.leavesOf l ++ h.leavesOf l' := List.filter_append ..

theorem leavesOf_cons_model {m : ModelNode} (hx : h.modelAt x = some m) :
    h.leavesOf (x :: l) = h.leavesOf l := by
  unfold leavesOf
  rw [List.filter_cons_of_neg (by simp [dataAt_of_model hx])]

theorem leavesOf_single (hx : h.dataAt x = some n) : h.leavesOf [x] = [x] := by
  unfold leavesOf
  rw [List.filter_cons_of_pos (by simp [hx]), List.filter_nil]

theorem mem_leavesOf : x ∈ h.leavesOf l ↔ x ∈ l ∧ ∃ n, h.dataAt x = some n := by
  unfold leavesOf
  rw [List.mem_filter, Option.isSome_iff_exists]

theorem leavesOf_congr (heq : ∀ x ∈ l, (h'.dataAt x).isSome = (h.dataAt x).isSome) :
    h'.leavesOf l = h.leavesOf l := List.filter_congr heq

theorem pairsOf_congr
    (heq : ∀ x ∈ l, (h'.dataAt x).map DataNode.pairs = (h.dataAt x).map DataNode.pairs) :
    h'.pairsOf l = h.pairsOf l := by
  unfold pairsOf
  rw [List.flatMap_eq_foldl, List.flatMap_eq_foldl]
  exact List.foldl_ext _ _ _ (fun acc x hx => by rw [heq x hx])

theorem dataAt_congr (heq : h'[x]? = h[x]?) : h'.dataAt x = h.dataAt x := by
  unfold dataAt
  rw [heq]

theorem modelAt_congr (heq : h'[x]? = h[x]?) : h'.modelAt x = h.modelAt x := by
  unfold modelAt
  rw [heq]

theorem lo_congr (heq : h'.frame x = h.frame x) : h'.lo x = h.lo x := by
  unfold lo
  rw [heq]

theorem hi_congr (heq : h'.frame x = h.frame x) : h'.hi x = h.hi x := by
  unfold hi
  rw [heq]

end Heap

/-! ### Loaded trees -/

/-- A leaf of a loaded tree, before the leaves are linked. -/
structure LoadedLeaf (T : KeyType) (LO HI : ℚ) (n : DataNode M P) : Prop where
  ready : n.Ready T
  ok : LeafOK LO HI n
  prev : n.prevLeaf = none
  next : n.nextLeaf = none

/-- The nodes from `a` to `b` are the trees below the roots, over the keys from `lo` to `hi`. -/
structure Loaded (T : KeyType) (LO HI : ℚ) (h : Heap M P) (a b : ℕ) (roots order : List NodeId)
    (lo hi : ℚ) (values : List (ℤ × P)) : Prop where
  le : a ≤ b
  forest : PreOrder (Index.pushedChildren h) roots order
  nodup : order.Nodup
  mem : ∀ x : ℕ, x ∈ order ↔ a ≤ x ∧ x < b
  leaf : ∀ x ∈ order, ∀ n, h.dataAt x = some n → LoadedLeaf T LO HI n
  model : ∀ x ∈ order, ∀ m, h.modelAt x = some m →
    ModelOK h.frame {y | y ∈ order} m ∧ m.lock = 0#32 ∧ m.isObsolete = false
  spans : Spans h.lo h.hi lo (h.leavesOf order) hi
  pairs : h.pairsOf (h.leavesOf order) = values

namespace Loaded

variable {T : KeyType} {LO HI : ℚ} {h h' : Heap M P} {a b c : ℕ}
  {roots roots' order order' : List NodeId}
  {lo mid hi : ℚ} {values values' : List (ℤ × P)}

/-- No tree. -/
theorem nil (T : KeyType) (LO HI : ℚ) (h : Heap M P) (a : ℕ) (lo : ℚ) :
    Loaded T LO HI h a a [] [] lo lo [] :=
  ⟨le_refl a, PreOrder.nil, List.nodup_nil, fun x => by simp, fun x hx => absurd hx (by simp),
    fun x hx => absurd hx (by simp), rfl, rfl⟩

/-- Trees over neighbouring ranges side by side. -/
theorem append (hl : Loaded T LO HI h a b roots order lo mid values)
    (hr : Loaded T LO HI h b c roots' order' mid hi values') :
    Loaded T LO HI h a c (roots ++ roots') (order ++ order') lo hi (values ++ values') := by
  have hle := hl.le
  have hle' := hr.le
  refine ⟨hle.trans hle', hl.forest.append hr.forest, ?_, fun x => ?_, fun x hx n hn => ?_,
    fun x hx m hm => ?_, ?_, ?_⟩
  · refine List.nodup_append.mpr ⟨hl.nodup, hr.nodup, ?_⟩
    rintro x hx _ hy rfl
    have h1 := (hl.mem x).mp hx
    have h2 := (hr.mem x).mp hy
    omega
  · rw [List.mem_append, hl.mem, hr.mem]
    omega
  · rcases List.mem_append.mp hx with hx | hx
    · exact hl.leaf x hx n hn
    · exact hr.leaf x hx n hn
  · rcases List.mem_append.mp hx with hx | hx
    · obtain ⟨hok, hfree⟩ := hl.model x hx m hm
      exact ⟨hok.congr (fun i c _ hc => ⟨rfl, List.mem_append_left _ hc⟩), hfree⟩
    · obtain ⟨hok, hfree⟩ := hr.model x hx m hm
      exact ⟨hok.congr (fun i c _ hc => ⟨rfl, List.mem_append_right _ hc⟩), hfree⟩
  · rw [Heap.leavesOf_append]
    exact spans_append.mpr ⟨mid, hl.spans, hr.spans⟩
  · rw [Heap.leavesOf_append, Heap.pairsOf_append, hl.pairs, hr.pairs]

/-- Nodes of other trees may change. -/
theorem congr (hl : Loaded T LO HI h a b roots order lo hi values)
    (heq : ∀ x, a ≤ x → x < b → h'[x]? = h[x]?) :
    Loaded T LO HI h' a b roots order lo hi values := by
  have heq : ∀ x ∈ order, h'[x]? = h[x]? := fun x hx =>
    heq x ((hl.mem x).mp hx).1 ((hl.mem x).mp hx).2
  have hdata : ∀ x ∈ order, h'.dataAt x = h.dataAt x := fun x hx => Heap.dataAt_congr (heq x hx)
  have hmodel : ∀ x ∈ order, h'.modelAt x = h.modelAt x := fun x hx => Heap.modelAt_congr (heq x hx)
  have hframe : ∀ x ∈ order, h'.frame x = h.frame x := fun x hx =>
    Heap.frame_congr (hdata x hx) (hmodel x hx)
  have hleaves : h'.leavesOf order = h.leavesOf order :=
    Heap.leavesOf_congr (fun x hx => by rw [hdata x hx])
  have hmem : ∀ x ∈ h.leavesOf order, x ∈ order := fun x hx => (Heap.mem_leavesOf.mp hx).1
  refine ⟨hl.le, hl.forest.congr (fun x hx => Index.pushedChildren_congr (heq x hx)),
    hl.nodup, hl.mem,
    fun x hx n hn => ?_, fun x hx m hm => ?_, ?_, ?_⟩
  · rw [hdata x hx] at hn
    exact hl.leaf x hx n hn
  · rw [hmodel x hx] at hm
    obtain ⟨hok, hfree⟩ := hl.model x hx m hm
    exact ⟨hok.congr (fun i c _ hc => ⟨hframe c hc, hc⟩), hfree⟩
  · rw [hleaves]
    exact hl.spans.congr (fun x hx => Heap.lo_congr (hframe x (hmem x hx)))
      (fun x hx => Heap.hi_congr (hframe x (hmem x hx)))
  · have hpairs : h'.pairsOf (h.leavesOf order) = h.pairsOf (h.leavesOf order) :=
      Heap.pairsOf_congr (fun x hx => by rw [hdata x (hmem x hx)])
    rw [hleaves, hpairs]
    exact hl.pairs

/-- A single new leaf. -/
theorem single {n : DataNode M P} (hn : LoadedLeaf T LO HI n) :
    Loaded T LO HI (h ++ [.data n]) h.length (h.length + 1) [h.length] [h.length] n.minLimit
      n.maxLimit n.pairs := by
  have hx : Heap.dataAt (h ++ [.data n]) h.length = some n := by
    rw [Heap.dataAt_snoc_data, Function.update_self]
  refine ⟨Nat.le_succ _, PreOrder.node (Index.pushedChildren_data hx) PreOrder.nil,
    List.nodup_singleton _, fun x => ?_, fun x hmem k hk => ?_, fun x hmem m hm => ?_, ?_, ?_⟩
  · rw [List.mem_singleton]
    omega
  · rw [List.mem_singleton.mp hmem] at hk
    rw [← Option.some.inj (hx.symm.trans hk)]
    exact hn
  · rw [List.mem_singleton.mp hmem, Heap.modelAt_of_data hx] at hm
    cases hm
  · rw [Heap.leavesOf_single hx]
    exact ⟨Heap.lo_data hx, Heap.hi_data hx⟩
  · rw [Heap.leavesOf_single hx, Heap.pairsOf_cons hx, Heap.pairsOf_nil, List.append_nil]

/-- A new model node above all trees. -/
theorem node (hl : Loaded T LO HI h a h.length roots order lo hi values) {m : ModelNode}
    (hm : ModelOK h.frame {y | y ∈ order} m)
    (hroots : (Index.distinctChildren m.children).mapM id = some roots)
    (hfree : m.lock = 0#32 ∧ m.isObsolete = false) :
    Loaded T LO HI (h ++ [.model m]) a (h.length + 1) [h.length] (h.length :: order) lo hi
      values := by
  have hle := hl.le
  have hx : Heap.modelAt (h ++ [.model m]) h.length = some m := by
    rw [Heap.modelAt_snoc_model, Function.update_self]
  have hold : ∀ x ∈ order, x < h.length := fun x hx => ((hl.mem x).mp hx).2
  have hsame : ∀ x, x < h.length → (h ++ [.model m])[x]? = h[x]? := fun x hlt =>
    List.getElem?_append_left hlt
  have hl' : Loaded T LO HI (h ++ [.model m]) a h.length roots order lo hi values :=
    hl.congr (fun x _ hlt => hsame x hlt)
  have hframe : ∀ x ∈ order, Heap.frame (h ++ [.model m]) x = h.frame x := fun x hx =>
    Heap.frame_congr (Heap.dataAt_congr (hsame x (hold x hx)))
      (Heap.modelAt_congr (hsame x (hold x hx)))
  refine ⟨hle.trans (Nat.le_succ _), PreOrder.node ((Index.pushedChildren_model hx).trans hroots)
    hl'.forest, List.nodup_cons.mpr ⟨fun hmem => lt_irrefl _ (hold _ hmem), hl'.nodup⟩, fun x => ?_,
    fun x hmem n hn => ?_, fun x hmem k hk => ?_, ?_, ?_⟩
  · rw [List.mem_cons, hl'.mem]
    omega
  · rcases List.mem_cons.mp hmem with rfl | hmem
    · rw [Heap.dataAt_of_model hx] at hn
      cases hn
    · exact hl'.leaf x hmem n hn
  · rcases List.mem_cons.mp hmem with rfl | hmem
    · obtain rfl := Option.some.inj (hx.symm.trans hk)
      exact ⟨hm.congr (fun i c _ hc => ⟨hframe c hc, List.mem_cons_of_mem _ hc⟩), hfree⟩
    · obtain ⟨hok, hfree'⟩ := hl'.model x hmem k hk
      exact ⟨hok.congr (fun i c _ hc => ⟨rfl, List.mem_cons_of_mem _ hc⟩), hfree'⟩
  · rw [Heap.leavesOf_cons_model hx]
    exact hl'.spans
  · rw [Heap.leavesOf_cons_model hx]
    exact hl'.pairs

/-- The root may change as long as it keeps its children, its range and its pairs. -/
theorem reroot {x : NodeId} (hl : Loaded T LO HI h a b [x] order lo hi values)
    (hsame : ∀ y, y ≠ x → h'[y]? = h[y]?)
    (hpush : Index.pushedChildren h' x = Index.pushedChildren h x)
    (hpairs : (h'.dataAt x).map DataNode.pairs = (h.dataAt x).map DataNode.pairs)
    (hlo : h'.lo x = h.lo x) (hhi : h'.hi x = h.hi x)
    (hleaf : ∀ n', h'.dataAt x = some n' → LoadedLeaf T LO HI n')
    (hmodel : ∀ m', h'.modelAt x = some m' → ∃ m, h.modelAt x = some m ∧
      m'.lock = m.lock ∧ m'.isObsolete = m.isObsolete ∧
      ∀ F live, ModelOK F live m → ModelOK F live m') :
    Loaded T LO HI h' a b [x] order lo hi values := by
  have hdata : ∀ y, y ≠ x → h'.dataAt y = h.dataAt y := fun y hy => Heap.dataAt_congr (hsame y hy)
  have hmod : ∀ y, y ≠ x → h'.modelAt y = h.modelAt y := fun y hy => Heap.modelAt_congr (hsame y hy)
  have hframe : ∀ y, y ≠ x → h'.frame y = h.frame y := fun y hy =>
    Heap.frame_congr (hdata y hy) (hmod y hy)
  have hall : ∀ y, (h'.dataAt y).map DataNode.pairs = (h.dataAt y).map DataNode.pairs := by
    intro y
    by_cases hy : y = x
    · rw [hy]
      exact hpairs
    · rw [hdata y hy]
  have hleaves : h'.leavesOf order = h.leavesOf order := Heap.leavesOf_congr (fun y _ => by
    have heq := congrArg Option.isSome (hall y)
    rwa [Option.isSome_map, Option.isSome_map] at heq)
  -- the root is no child, so the frames of all children are kept
  have hchild : ∀ y ∈ order, ∀ m, h.modelAt y = some m → ∀ i c, m.childAt i = some c → c ∈ order →
      h'.frame c = h.frame c ∧ c ∈ order := by
    intro y hy m hm i c hc hmem
    refine ⟨hframe c (fun hcx => ?_), hmem⟩
    have hnot := hl.forest.not_root hl.nodup hy
      (Index.child_of_childAt hm (hl.forest.isSome hy) hc)
    exact hnot (List.mem_singleton.mpr hcx)
  refine ⟨hl.le, hl.forest.congr (fun y _ => ?_), hl.nodup, hl.mem, fun y hy n' hn' => ?_,
    fun y hy m' hm' => ?_, ?_, ?_⟩
  · by_cases hyx : y = x
    · rw [hyx]
      exact hpush
    · exact Index.pushedChildren_congr (hsame y hyx)
  · by_cases hyx : y = x
    · exact hleaf n' (hyx ▸ hn')
    · rw [hdata y hyx] at hn'
      exact hl.leaf y hy n' hn'
  · by_cases hyx : y = x
    · subst hyx
      obtain ⟨m, hm, hlock, hobs, hok⟩ := hmodel m' hm'
      obtain ⟨h1, h2, h3⟩ := hl.model y hy m hm
      exact ⟨hok _ _ (h1.congr (hchild y hy m hm)), hlock.trans h2, hobs.trans h3⟩
    · rw [hmod y hyx] at hm'
      obtain ⟨h1, hfree⟩ := hl.model y hy m' hm'
      exact ⟨h1.congr (hchild y hy m' hm'), hfree⟩
  · rw [hleaves]
    refine hl.spans.congr (fun y _ => ?_) (fun y _ => ?_)
    · by_cases hyx : y = x
      · rw [hyx]
        exact hlo
      · exact Heap.lo_congr (hframe y hyx)
    · by_cases hyx : y = x
      · rw [hyx]
        exact hhi
      · exact Heap.hi_congr (hframe y hyx)
  · have heq : h'.pairsOf (h.leavesOf order) = h.pairsOf (h.leavesOf order) :=
      Heap.pairsOf_congr (fun y _ => hall y)
    rw [hleaves, heq]
    exact hl.pairs

/-- A root that is a leaf may change as long as it keeps its range and its pairs. -/
theorem setLeaf {x : NodeId} {n n' : DataNode M P}
    (hl : Loaded T LO HI h a b [x] order lo hi values)
    (hx : h.dataAt x = some n) (hleaf : LoadedLeaf T LO HI n') (hpairs : n'.pairs = n.pairs)
    (hlo : n'.minLimit = n.minLimit) (hhi : n'.maxLimit = n.maxLimit) :
    Loaded T LO HI (h.setData x n') a b [x] order lo hi values := by
  have hget : (h.setData x n').dataAt x = some n' := by
    rw [Heap.dataAt_setData hx, Function.update_self]
  refine hl.reroot (fun y hy => List.getElem?_set_ne (fun hxy => hy hxy.symm)) ?_ ?_ ?_ ?_
    (fun k hk => ?_) (fun m' hm' => ?_)
  · rw [Index.pushedChildren_data hget, Index.pushedChildren_data hx]
  · rw [hget, hx, Option.map_some, Option.map_some, hpairs]
  · rw [Heap.lo_data hget, Heap.lo_data hx, hlo]
  · rw [Heap.hi_data hget, Heap.hi_data hx, hhi]
  · rw [← Option.some.inj (hget.symm.trans hk)]
    exact hleaf
  · rw [Heap.modelAt_of_data hget] at hm'
    cases hm'

end Loaded

end LearnedIndex.Alexol
