import LearnedIndex.Alexol.FanoutPartition
import LearnedIndex.Alexol.Index

/-! # The costs of merging (`merge_nodes_upwards`)

A used node adds its weighted cost and the size of a data node to the cost of the tree
(`nodeCharge`).  A merge changes the best cost by the difference of these charges, so that the best
cost stays the charge of the used nodes with the cost of the pointers (`Accounted`).  Merges never
add to the cost, and the best level is cheaper than level 0: the root alone is never used. -/

namespace LearnedIndex.Alexol.FanoutTree

open LearnedIndex.Dyadic

variable {M P : Type}

/-! ### Charges -/

/-- What a used node adds to the cost of the tree. -/
def nodeCharge (C : Params M P) (numKeys : ℕ) (totalKeys : ℤ) (t : FTNode M) : ℚ :=
  t.cost * t.numKeys / numKeys + kModelSizeWeight * C.sizeofDataNode * totalKeys / numKeys

/-- The cost of the traversal to the children and of the pointers to them. -/
def pointerCost (numKeys : ℕ) (totalKeys : ℤ) (depth : ℕ) : ℚ :=
  kNodeLookupsWeight + kModelSizeWeight * (2 ^ depth * 8) * totalKeys / numKeys

/-- The cost of a model node of a depth whose children are the used nodes. -/
def treeCost (C : Params M P) (numKeys : ℕ) (totalKeys : ℤ) (depth : ℕ) (used : List (FTNode M)) :
    ℚ :=
  (used.map (fun t => t.cost * (t.numKeys : ℚ) / numKeys)).sum + kNodeLookupsWeight +
    kModelSizeWeight * ((2 ^ depth : ℕ) * 8 + used.length * C.sizeofDataNode) * totalKeys / numKeys

/-- The charge of a node that is marked. -/
def charge (C : Params M P) (numKeys : ℕ) (totalKeys : ℤ) (t : FTNode M) : ℚ :=
  if t.use then nodeCharge C numKeys totalKeys t else 0

/-- The charges of all marked nodes. -/
def charges (C : Params M P) (numKeys : ℕ) (totalKeys : ℤ) (tree : List (List (FTNode M))) : ℚ :=
  (tree.map (fun nodes => (nodes.map (charge C numKeys totalKeys)).sum)).sum

section
variable {C : Params M P} {numKeys : ℕ} {totalKeys : ℤ}

theorem sum_nodeCharge (used : List (FTNode M)) :
    (used.map (nodeCharge C numKeys totalKeys)).sum =
      (used.map (fun t => t.cost * (t.numKeys : ℚ) / numKeys)).sum +
        used.length * (kModelSizeWeight * C.sizeofDataNode * totalKeys / numKeys) := by
  induction used with
  | nil => simp
  | cons t ts ih =>
      rw [List.map_cons, List.map_cons, List.sum_cons, List.sum_cons, ih, List.length_cons]
      unfold nodeCharge
      push_cast
      ring

theorem treeCost_eq (depth : ℕ) (used : List (FTNode M)) :
    treeCost C numKeys totalKeys depth used =
      (used.map (nodeCharge C numKeys totalKeys)).sum + pointerCost numKeys totalKeys depth := by
  rw [sum_nodeCharge]
  unfold treeCost pointerCost
  push_cast
  ring

/-- The cost of a complete level. -/
theorem levelCost_eq {l : ℕ} {nodes : List (FTNode M)} (h : LevelOK l nodes) :
    levelCost C numKeys totalKeys (2 ^ l) nodes = treeCost C numKeys totalKeys l nodes := by
  unfold levelCost traversalCost treeCost
  rw [h.length]
  push_cast
  ring

theorem sum_map_modify {α : Type} (f : α → ℚ) (g : α → α) {l : List α} {i : ℕ} {a : α}
    (h : l[i]? = some a) :
    ((l.modify i g).map f).sum = (l.map f).sum + (f (g a) - f a) := by
  induction l generalizing i with
  | nil => cases h
  | cons b l ih =>
      cases i with
      | zero =>
          obtain rfl : b = a := by simpa using h
          simp only [List.modify_zero_cons, List.map_cons, List.sum_cons]
          ring
      | succ i =>
          rw [List.modify_succ_cons, List.map_cons, List.map_cons, List.sum_cons, List.sum_cons,
            ih (by simpa using h)]
          ring

theorem charges_setUse {tree : List (List (FTNode M))} {l i : ℕ} {n : FTNode M}
    (h : nodeAt tree l i = some n) (u : Bool) :
    charges C numKeys totalKeys (setUse tree l i u) = charges C numKeys totalKeys tree +
      (charge C numKeys totalKeys { n with use := u } - charge C numKeys totalKeys n) := by
  obtain ⟨nodes, hl, hi⟩ := nodeAt_eq_some.mp h
  unfold charges setUse
  rw [sum_map_modify _ _ hl, sum_map_modify _ _ hi]
  ring

/-- A merge replaces the charges of the children by that of their parent. -/
theorem charges_mergePair {tree : List (List (FTNode M))} {l i : ℕ} {left right parent : FTNode M}
    (hl : nodeAt tree (l + 1) (2 * i) = some left)
    (hr : nodeAt tree (l + 1) (2 * i + 1) = some right) (hp : nodeAt tree l i = some parent)
    (hleft : left.use = true) (hright : right.use = true) (hparent : parent.use = false) :
    charges C numKeys totalKeys (mergePair tree (l + 1) i) = charges C numKeys totalKeys tree +
      (nodeCharge C numKeys totalKeys parent - nodeCharge C numKeys totalKeys left -
        nodeCharge C numKeys totalKeys right) := by
  have hr' : nodeAt (setUse tree (l + 1) (2 * i) false) (l + 1) (2 * i + 1) = some right := by
    rw [nodeAt_setUse, hr, Option.map_some, if_neg (by simp)]
  have hp' : nodeAt (setUse (setUse tree (l + 1) (2 * i) false) (l + 1) (2 * i + 1) false) l i =
      some parent := by
    rw [nodeAt_setUse, nodeAt_setUse, hp, Option.map_some, if_neg (by simp), Option.map_some,
      if_neg (by simp)]
  have hoff : ∀ n : FTNode M, charge C numKeys totalKeys { n with use := false } = 0 := fun _ => rfl
  have hon : ∀ n : FTNode M, n.use = true →
      charge C numKeys totalKeys n = nodeCharge C numKeys totalKeys n := by
    intro n hn
    unfold charge
    rw [if_pos hn]
  have hpar : charge C numKeys totalKeys parent = 0 := by
    unfold charge
    rw [hparent]
    rfl
  have hpar' : charge C numKeys totalKeys { parent with use := true } =
      nodeCharge C numKeys totalKeys parent := rfl
  unfold mergePair
  rw [Nat.add_sub_cancel, charges_setUse hp', charges_setUse hr', charges_setUse hl, hoff, hoff,
    hon left hleft, hon right hright, hpar, hpar']
  ring

/-- A tree whose marked nodes are all unused costs nothing. -/
theorem charges_eq_zero {tree : List (List (FTNode M))}
    (h : ∀ l i n, nodeAt tree l i = some n → n.use = false) : charges C numKeys totalKeys
    tree = 0 := by
  unfold charges
  refine List.sum_eq_zero (fun x hx => ?_)
  obtain ⟨nodes, hnodes, rfl⟩ := List.mem_map.mp hx
  refine List.sum_eq_zero (fun y hy => ?_)
  obtain ⟨n, hn, rfl⟩ := List.mem_map.mp hy
  obtain ⟨l, hl⟩ := List.mem_iff_getElem?.mp hnodes
  obtain ⟨i, hi⟩ := List.mem_iff_getElem?.mp hn
  unfold charge
  rw [h l i n (nodeAt_eq_some.mpr ⟨nodes, hl, hi⟩)]
  rfl

theorem charges_eq_filter (tree : List (List (FTNode M))) :
    charges C numKeys totalKeys tree =
      ((tree.flatten.filter FTNode.use).map (nodeCharge C numKeys totalKeys)).sum := by
  have hlevel : ∀ nodes : List (FTNode M), (nodes.map (charge C numKeys totalKeys)).sum =
      ((nodes.filter FTNode.use).map (nodeCharge C numKeys totalKeys)).sum := by
    intro nodes
    induction nodes with
    | nil => rfl
    | cons n ns ih =>
        rw [List.map_cons, List.sum_cons, ih, List.filter_cons]
        unfold charge
        cases n.use with
        | false => simp
        | true => simp
  unfold charges
  induction tree with
  | nil => rfl
  | cons nodes tree ih =>
      rw [List.map_cons, List.sum_cons, ih, hlevel, List.flatten_cons, List.filter_append,
        List.map_append, List.sum_append]

/-- The collected nodes have the charges of the tree. -/
theorem Marked.charges_collect {D : ℕ} {tree tree' : List (List (FTNode M))}
    (h : Marked D tree tree') :
    ((collectUsedNodes tree' D).map (nodeCharge C numKeys totalKeys)).sum =
      charges C numKeys totalKeys tree' := by
  have hmin : min D (tree'.length - 1) = D := by
    have := h.depth
    omega
  have hperm : (collectUsedNodes tree' D).Perm
      ((tree'.take (D + 1)).flatten.filter FTNode.use) := by
    unfold FanoutTree.collectUsedNodes
    simp only [hmin]
    exact List.perm_insertionSort _ _
  -- no node below the chosen depth is used
  have hdrop : (tree'.drop (D + 1)).flatten.filter FTNode.use = [] := by
    refine List.filter_eq_nil_iff.mpr (fun t ht huse => ?_)
    obtain ⟨nodes, hnodes, hmem⟩ := List.mem_flatten.mp ht
    obtain ⟨l, hl⟩ := List.mem_iff_getElem?.mp hnodes
    obtain ⟨i, hi⟩ := List.mem_iff_getElem?.mp hmem
    rw [List.getElem?_drop] at hl
    have hlev := h.cover.level (D + 1 + l, i) ⟨t, nodeAt_eq_some.mpr ⟨nodes, hl, hi⟩, huse⟩
    simp only at hlev
    omega
  have hsplit : tree'.flatten.filter FTNode.use = (tree'.take (D + 1)).flatten.filter
    FTNode.use := by
    conv_lhs => rw [← List.take_append_drop (D + 1) tree']
    rw [List.flatten_append, List.filter_append, hdrop, List.append_nil]
  rw [charges_eq_filter, hsplit]
  exact (hperm.map _).sum_eq

/-- The charges of a tree in which one level is marked. -/
theorem charges_level {tree : List (List (FTNode M))}
    (huse : ∀ l i n, nodeAt tree l i = some n → n.use = false) {D : ℕ} {nodes : List (FTNode M)}
    (hD : tree[D]? = some nodes) :
    charges C numKeys totalKeys (tree.modify D (List.map (fun n => { n with use := true }))) =
      (nodes.map (nodeCharge C numKeys totalKeys)).sum := by
  have h0 : charges C numKeys totalKeys tree = 0 := charges_eq_zero huse
  have hold : (nodes.map (charge C numKeys totalKeys)).sum = 0 := by
    refine List.sum_eq_zero (fun y hy => ?_)
    obtain ⟨n, hn, rfl⟩ := List.mem_map.mp hy
    obtain ⟨i, hi⟩ := List.mem_iff_getElem?.mp hn
    unfold charge
    rw [huse D i n (nodeAt_eq_some.mpr ⟨nodes, hD, hi⟩)]
    rfl
  unfold charges at h0 ⊢
  rw [sum_map_modify _ _ hD, h0, hold, List.map_map, sub_zero, zero_add]
  rfl

end

/-! ### Merging -/

/-- The key counts of the nodes of a level are those of their children together. -/
def AddUp (nodes nodes' : List (FTNode M)) : Prop :=
  ∀ i p a b, nodes[i]? = some p → nodes'[2 * i]? = some a → nodes'[2 * i + 1]? = some b →
    a.numKeys + b.numKeys = p.numKeys

/-- The key counts of a whole tree add up. -/
def TreeAddsUp (tree : List (List (FTNode M))) : Prop :=
  ∀ l nodes nodes', tree[l]? = some nodes → tree[l + 1]? = some nodes' → AddUp nodes nodes'

section
variable {C : Params M P} {numKeys : ℕ} {totalKeys : ℤ} {D : ℕ}
  {tree tree' : List (List (FTNode M))}

/-- The parent of two used nodes is not used. -/
theorem Marked.parent_unused (h : Marked D tree tree') {l i : ℕ} {left parent : FTNode M}
    (hl : nodeAt tree' (l + 1) (2 * i) = some left) (hp : nodeAt tree' l i = some parent)
    (huse : left.use = true) : parent.use = false := by
  by_contra hne
  have hleft : ((l + 1, 2 * i) : Cell) ∈ usedCells tree' := ⟨left, hl, huse⟩
  have hparent : ((l, i) : Cell) ∈ usedCells tree' := ⟨parent, hp, by simpa using hne⟩
  have hlt : l < D := h.cover.level _ hleft
  have hcov := (covers_parent (i := i) hlt).mpr (Or.inl (covers_slot D (l + 1, 2 * i)))
  have heq := h.cover.unique _ _ _ hleft hparent (covers_slot D _) hcov
  have := (Prod.mk.inj heq).1
  omega

/-- The key counts stay as they are. -/
theorem Marked.adds_up (h : Marked D tree tree') (hadd : TreeAddsUp tree) {l i : ℕ}
    {left right parent : FTNode M} (hl : nodeAt tree' (l + 1) (2 * i) = some left)
    (hr : nodeAt tree' (l + 1) (2 * i + 1) = some right) (hp : nodeAt tree' l i = some parent) :
    left.numKeys + right.numKeys = parent.numKeys := by
  obtain ⟨a, ha, hleft⟩ := h.same _ _ _ hl
  obtain ⟨b, hb, hright⟩ := h.same _ _ _ hr
  obtain ⟨p, hp', hparent⟩ := h.same _ _ _ hp
  obtain ⟨nodes, hnodes, hpi⟩ := nodeAt_eq_some.mp hp'
  obtain ⟨nodes', hnodes', hai⟩ := nodeAt_eq_some.mp ha
  obtain ⟨nodes₂, hnodes₂, hbi⟩ := nodeAt_eq_some.mp hb
  obtain rfl : nodes' = nodes₂ := Option.some.inj (hnodes'.symm.trans hnodes₂)
  rw [hleft, hright, hparent]
  exact hadd l nodes nodes' hnodes hnodes' i p a b hpi hai hbi

/-- The best cost of a marked tree is that of its used nodes; it has not increased. -/
structure Accounted (C : Params M P) (numKeys : ℕ) (totalKeys : ℤ) (D : ℕ)
    (tree : List (List (FTNode M))) (start : ℚ) (tree' : List (List (FTNode M)))
    (cost : ℚ) : Prop where
  marked : Marked D tree tree'
  exact : cost = charges C numKeys totalKeys tree' + pointerCost numKeys totalKeys D
  le : cost ≤ start

/-- What a merge subtracts from the best cost is what it saves. -/
theorem saving_eq (totalKeys : ℤ) (hkeys : 1 ≤ numKeys) {left right parent : FTNode M}
    (hadd : left.numKeys + right.numKeys = parent.numKeys) :
    (if parent.numKeys = 0 then kModelSizeWeight * C.sizeofDataNode * totalKeys / numKeys
      else mergingCostSaving C totalKeys left right parent * parent.numKeys / numKeys) =
      nodeCharge C numKeys totalKeys left + nodeCharge C numKeys totalKeys right -
        nodeCharge C numKeys totalKeys parent := by
  have hn : (numKeys : ℚ) ≠ 0 := by
    have : numKeys ≠ 0 := by omega
    exact_mod_cast this
  unfold nodeCharge
  by_cases hzero : parent.numKeys = 0
  · have hl : left.numKeys = 0 := by omega
    have hr : right.numKeys = 0 := by omega
    rw [if_pos hzero, hzero, hl, hr]
    simp
  · have hp : (parent.numKeys : ℚ) ≠ 0 := by exact_mod_cast hzero
    rw [if_neg hzero]
    unfold mergingCostSaving
    field_simp
    ring

theorem Accounted.mergeStep (hkeys : 1 ≤ numKeys) (htotal : 0 ≤ totalKeys) (hadd : TreeAddsUp tree)
    {start cost : ℚ} (h : Accounted C numKeys totalKeys D tree start tree' cost) {l i : ℕ}
    (hl : l + 1 ≤ D) (hi : i < 2 ^ l) (merged : Bool) :
    ∃ tree'' cost' merged', FanoutTree.mergeStep C numKeys totalKeys (l + 1) i
        (tree', cost, merged) = some (tree'', cost', merged') ∧
      Accounted C numKeys totalKeys D tree start tree'' cost' := by
  have hm := h.marked
  have hdepth := hm.depth
  have hpow : 2 ^ (l + 1) = 2 * 2 ^ l := pow_succ' 2 l
  obtain ⟨left, hleft⟩ := hm.ok.exists_nodeAt (l := l + 1) (i := 2 * i) (by omega) (by omega)
  obtain ⟨right, hright⟩ := hm.ok.exists_nodeAt (l := l + 1) (i := 2 * i + 1) (by omega) (by omega)
  obtain ⟨parent, hparent⟩ := hm.ok.exists_nodeAt (l := l) (i := i) (by omega) hi
  have hsave := saving_eq (C := C) totalKeys hkeys
    (hm.adds_up hadd hleft hright hparent)
  have hn : (0 : ℚ) ≤ numKeys := Nat.cast_nonneg _
  -- after a merge that saves `saving`
  have hmerge : left.use = true ∧ right.use = true → ∀ saving : ℚ, 0 ≤ saving →
      saving = nodeCharge C numKeys totalKeys left + nodeCharge C numKeys totalKeys right -
        nodeCharge C numKeys totalKeys parent →
      Accounted C numKeys totalKeys D tree start (mergePair tree' (l + 1) i) (cost - saving) := by
    intro huse saving hpos heq
    refine ⟨hm.mergePair hleft hright hparent huse, ?_, by linarith [h.le]⟩
    rw [charges_mergePair hleft hright hparent huse.1 huse.2
      (hm.parent_unused hleft hparent huse.1), h.exact, heq]
    ring
  unfold FanoutTree.mergeStep
  simp only [hleft, hright, Nat.add_sub_cancel, hparent, Option.bind_eq_bind, Option.bind_some]
  by_cases huse : left.use = true ∧ right.use = true
  · rw [if_pos huse]
    by_cases hzero : parent.numKeys = 0
    · rw [if_pos hzero] at hsave ⊢
      refine ⟨_, _, _, rfl, hmerge huse _ ?_ hsave⟩
      have ht : (0 : ℚ) ≤ totalKeys := by exact_mod_cast htotal
      unfold kModelSizeWeight
      positivity
    · rw [if_neg hzero] at hsave ⊢
      by_cases hpos : 0 ≤ mergingCostSaving C totalKeys left right parent
      · rw [if_pos hpos]
        exact ⟨_, _, _, rfl, hmerge huse _ (by positivity) hsave⟩
      · rw [if_neg hpos]
        exact ⟨_, _, _, rfl, h⟩
  · rw [if_neg huse]
    exact ⟨_, _, _, rfl, h⟩

theorem Accounted.mergeLevel (hkeys : 1 ≤ numKeys) (htotal : 0 ≤ totalKeys)
    (hadd : TreeAddsUp tree) {start : ℚ} {l : ℕ} (hl : l + 1 ≤ D) (is : List ℕ)
    (his : ∀ i ∈ is, i < 2 ^ l) {cost : ℚ}
    (h : Accounted C numKeys totalKeys D tree start tree' cost) (merged : Bool) :
    ∃ tree'' cost' merged', is.foldlM
        (fun st i => FanoutTree.mergeStep C numKeys totalKeys (l + 1) i st) (tree', cost, merged) =
          some (tree'', cost', merged') ∧
      Accounted C numKeys totalKeys D tree start tree'' cost' := by
  induction is generalizing tree' cost merged with
  | nil => exact ⟨tree', cost, merged, rfl, h⟩
  | cons i is ih =>
      obtain ⟨t, c, b, hstep, ht⟩ :=
        h.mergeStep hkeys htotal hadd hl (his i (List.mem_cons_self ..))
        merged
      rw [List.foldlM_cons, hstep]
      exact ih (fun j hj => his j (List.mem_cons_of_mem i hj)) ht b

theorem Accounted.mergeNodesUpwards (hkeys : 1 ≤ numKeys) (htotal : 0 ≤ totalKeys)
    (hadd : TreeAddsUp tree) {start : ℚ} (level : ℕ) (hl : level ≤ D) {cost : ℚ}
    (h : Accounted C numKeys totalKeys D tree start tree' cost) :
    ∃ cost' tree'', FanoutTree.mergeNodesUpwards C numKeys totalKeys level cost tree' =
        some (cost', tree'') ∧ Accounted C numKeys totalKeys D tree start tree'' cost' := by
  induction level generalizing tree' cost with
  | zero => exact ⟨cost, tree', rfl, h⟩
  | succ level ih =>
      have hrange : ∀ i ∈ List.range (2 ^ (level + 1) / 2), i < 2 ^ level := by
        intro i hi
        have := List.mem_range.mp hi
        rw [pow_succ] at this
        omega
      obtain ⟨t, c, b, hfold, ht⟩ := h.mergeLevel hkeys htotal hadd hl _ hrange false
      unfold FanoutTree.mergeNodesUpwards
      simp only [hfold, Option.bind_eq_bind, Option.bind_some]
      cases b with
      | true => exact ih (by omega) ht
      | false => exact ⟨c, t, rfl, ht⟩

end

/-! ### The best level -/

/-- The levels so far: they are complete, without marks and have the property `Q`; a best level
behind level 0 is cheaper than `start`, the cost of level 0. -/
structure Grown (C : Params M P) (numKeys : ℕ) (totalKeys : ℤ) (Q : ℕ → List (FTNode M) → Prop)
    (start : ℚ) (g : Growth M) : Prop where
  levels : LevelsOK (fun _ => True) g.fanoutTree
  computed : ∀ l nodes, g.fanoutTree[l]? = some nodes → Q l nodes
  best : g.bestLevel < g.fanoutTree.length
  cost : ∃ c, g.bestCost = some c ∧ (1 ≤ g.bestLevel → c < start ∧
    ∃ nodes, g.fanoutTree[g.bestLevel]? = some nodes ∧
      c = levelCost C numKeys totalKeys (2 ^ g.bestLevel) nodes)
  le : ∀ c, g.bestCost = some c → c ≤ start

section
variable {C : Params M P} {numKeys : ℕ} {totalKeys : ℤ} {Q : ℕ → List (FTNode M) → Prop}
  {start : ℚ}

theorem Grown.push {g : Growth M} (h : Grown C numKeys totalKeys Q start g)
    {nodes : List (FTNode M)} (hlevel : LevelOK g.fanoutTree.length nodes)
    (huse : ∀ n ∈ nodes, n.use = false) (hQ : Q g.fanoutTree.length nodes) :
    Grown C numKeys totalKeys Q start (g.push g.fanoutTree.length nodes
      (levelCost C numKeys totalKeys (2 ^ g.fanoutTree.length) nodes)) := by
  obtain ⟨c, hc, hbest⟩ := h.cost
  have hle := h.le c hc
  have hlt := h.best
  have hold : ∀ l, l < g.fanoutTree.length →
      (g.fanoutTree ++ [nodes])[l]? = g.fanoutTree[l]? :=
    fun l hl => List.getElem?_append_left hl
  have hnew : (g.fanoutTree ++ [nodes])[g.fanoutTree.length]? = some nodes :=
    List.getElem?_concat_length
  have hcomputed : ∀ l ns, (g.fanoutTree ++ [nodes])[l]? = some ns → Q l ns := by
    intro l ns hl
    rcases Nat.lt_trichotomy l g.fanoutTree.length with hlt | rfl | hgt
    · rw [hold l hlt] at hl
      exact h.computed l ns hl
    · obtain rfl : nodes = ns := Option.some.inj (hnew.symm.trans hl)
      exact hQ
    · rw [List.getElem?_eq_none (by rw [List.length_append, List.length_singleton]; omega)] at hl
      cases hl
  have hlevels := h.levels.push hlevel (fun n hn => ⟨huse n hn, trivial⟩)
  unfold Growth.push
  rw [hc]
  simp only [cheaper, decide_eq_true_eq]
  by_cases hcheap : levelCost C numKeys totalKeys (2 ^ g.fanoutTree.length) nodes < c
  · rw [if_pos hcheap, if_pos hcheap]
    refine ⟨hlevels, hcomputed, by simp, ⟨_, rfl, fun _ => ⟨hcheap.trans_le hle, nodes, hnew, rfl⟩⟩,
      ?_⟩
    intro c' hc'
    rw [← Option.some.inj hc']
    exact (hcheap.trans_le hle).le
  · rw [if_neg hcheap, if_neg hcheap]
    refine ⟨hlevels, hcomputed, by simp; omega, ⟨c, rfl, fun hL => ?_⟩, fun c' hc' => ?_⟩
    · obtain ⟨hcs, ns, hns, heq⟩ := hbest hL
      refine ⟨hcs, ns, ?_, heq⟩
      rw [hold _ hlt]
      exact hns
    · rw [← Option.some.inj hc']
      exact hle

/-- Every level that `grow` adds has been computed from a state with `R`. -/
theorem Grown.grow {σ : Type} {compute : σ → ℕ → Option (List (FTNode M) × ℚ × σ)} {R : σ → Prop}
    (hcompute : ∀ st l nodes cost st', R st → compute st l = some (nodes, cost, st') →
      R st' ∧ LevelOK l nodes ∧ (∀ n ∈ nodes, n.use = false) ∧
        cost = levelCost C numKeys totalKeys (2 ^ l) nodes ∧ (1 ≤ l → Q l nodes))
    (remaining : ℕ) {g g' : Growth M} {st st' : σ} (hR : R st)
    (h : Grown C numKeys totalKeys Q start g)
    (hg : FanoutTree.grow compute remaining g.fanoutTree.length g st = some (g', st')) :
    Grown C numKeys totalKeys Q start g' ∧ R st' := by
  induction remaining generalizing g st with
  | zero =>
      obtain ⟨rfl, rfl⟩ := Prod.mk.inj (Option.some.inj hg)
      exact ⟨h, hR⟩
  | succ remaining ih =>
      unfold FanoutTree.grow at hg
      cases hc : compute st g.fanoutTree.length with
      | none =>
          rw [hc] at hg
          cases hg
      | some r =>
          obtain ⟨nodes, cost, st₁⟩ := r
          have hbest := h.best
          obtain ⟨hR', hlevel, huse, rfl, hQ⟩ := hcompute _ _ _ _ _ hR hc
          simp only [hc, Option.bind_eq_bind, Option.bind_some] at hg
          by_cases hinc : costsIncrease
            (levelCost C numKeys totalKeys (2 ^ g.fanoutTree.length) nodes ::
              g.fanoutCosts) = true
          · rw [if_pos hinc] at hg
            obtain ⟨rfl, rfl⟩ := Prod.mk.inj (Option.some.inj hg)
            exact ⟨h, hR'⟩
          · rw [if_neg hinc] at hg
            have hpush := h.push hlevel huse (hQ (by omega))
            refine ih hR' hpush ?_
            have hlen : (g.push g.fanoutTree.length nodes (levelCost C numKeys totalKeys
                (2 ^ g.fanoutTree.length) nodes)).fanoutTree.length = g.fanoutTree.length + 1 := by
              unfold Growth.push
              simp
            rw [hlen]
            exact hg

theorem choose_level {g : Growth M} {L : ℕ} {cost : ℚ} {used : List (FTNode M)}
    (h : choose C numKeys totalKeys g = some (L, cost, used)) : g.bestLevel = L := by
  unfold FanoutTree.choose at h
  simp only [Option.bind_eq_bind] at h
  obtain ⟨r, -, hr⟩ := Option.bind_eq_some_iff.mp h
  exact (Prod.mk.inj (Option.some.inj hr)).1

/-- The cost that merging returns is that of the used nodes, and the root is none of them. -/
theorem Grown.choose (hkeys : 1 ≤ numKeys) (htotal : 0 ≤ totalKeys) {g : Growth M}
    (h : Grown C numKeys totalKeys Q start g)
    (hadd : ∀ l nodes nodes', Q l nodes → Q (l + 1) nodes' → AddUp nodes nodes')
    (hroot : ∀ n, nodeAt g.fanoutTree 0 0 = some n →
      start ≤ nodeCharge C numKeys totalKeys n + pointerCost numKeys totalKeys 0)
    (hbest : 1 ≤ g.bestLevel) {L : ℕ} {cost : ℚ} {used : List (FTNode M)}
    (hchoose : FanoutTree.choose C numKeys totalKeys g = some (L, cost, used)) :
    cost = treeCost C numKeys totalKeys L used ∧ ∀ t ∈ used, t.level ≠ 0 := by
  obtain ⟨c, hc, hcost⟩ := h.cost
  obtain ⟨hlt, nodes, hnodes, heq⟩ := hcost hbest
  have huse : ∀ l i n, nodeAt g.fanoutTree l i = some n → n.use = false :=
    fun l i n hn => (h.levels.node l i n hn).1
  have htree : TreeAddsUp g.fanoutTree := fun l ns ns' hl hl' =>
    hadd l ns ns' (h.computed l ns hl) (h.computed (l + 1) ns' hl')
  have hstart : Accounted C numKeys totalKeys g.bestLevel g.fanoutTree c
      (g.fanoutTree.modify g.bestLevel (List.map (fun n => { n with use := true }))) c := by
    refine ⟨marked_level h.levels.ok huse h.best, ?_, le_refl c⟩
    rw [charges_level huse hnodes, heq, levelCost_eq (h.levels.ok _ _ hnodes), treeCost_eq]
  obtain ⟨cost', tree', hmerge, hend⟩ := hstart.mergeNodesUpwards hkeys htotal htree g.bestLevel
    (le_refl _)
  have hused : (g.bestLevel, cost', collectUsedNodes tree' g.bestLevel) = (L, cost, used) := by
    have hrun : FanoutTree.choose C numKeys totalKeys g =
        some (g.bestLevel, cost', collectUsedNodes tree' g.bestLevel) := by
      unfold FanoutTree.choose
      rw [hc]
      simp only [Option.getD_some, hmerge, Option.bind_eq_bind, Option.bind_some]
    exact Option.some.inj (hrun.symm.trans hchoose)
  obtain ⟨rfl, hcu⟩ := Prod.mk.inj hused
  obtain ⟨rfl, rfl⟩ := Prod.mk.inj hcu
  obtain ⟨htiles, hsame⟩ := hend.marked.collect
  have hexact : cost' = treeCost C numKeys totalKeys g.bestLevel
      (collectUsedNodes tree' g.bestLevel) := by
    rw [treeCost_eq, hend.marked.charges_collect]
    exact hend.exact
  refine ⟨hexact, fun t ht hzero => ?_⟩
  -- the root alone costs at least as much as level 0
  have hsingle := htiles.eq_singleton (List.mem_map_of_mem ht) hzero
  have hone : collectUsedNodes tree' g.bestLevel = [t] := by
    obtain ⟨t', ht', -⟩ := List.map_eq_singleton_iff.mp hsingle
    rw [ht'] at ht ⊢
    rw [List.mem_singleton.mp ht]
  obtain ⟨n, hn, htn⟩ := hsame t ht
  obtain ⟨hlen, hid⟩ := h.levels.ok.index_lt hn
  rw [hzero, pow_zero] at hid
  obtain hid : t.nodeId = 0 := by omega
  rw [hzero, hid] at hn
  have hcharge : nodeCharge C numKeys totalKeys t = nodeCharge C numKeys totalKeys n := by
    rw [htn]
    rfl
  have hle := hend.le
  rw [hexact, treeCost_eq, hone, List.map_singleton, List.sum_singleton, hcharge] at hle
  have hpointers : pointerCost numKeys totalKeys 0 ≤ pointerCost numKeys totalKeys g.bestLevel := by
    have ht : (0 : ℚ) ≤ totalKeys := by exact_mod_cast htotal
    have hn : (0 : ℚ) ≤ numKeys := Nat.cast_nonneg _
    unfold pointerCost kModelSizeWeight
    gcongr
    · norm_num
    · exact Nat.zero_le _
  linarith [hroot n hn]

end

end LearnedIndex.Alexol.FanoutTree
