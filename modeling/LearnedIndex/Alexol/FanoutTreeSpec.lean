import LearnedIndex.Alexol.LeafParts
import LearnedIndex.Lib.Dyadic

/-! # What the fanout tree returns

Whatever the costs are, the used nodes that `choose` collects tile the slots of the chosen depth
(`choose_spec`), since marking a whole level covers every slot once and a merge keeps this.

The boundaries of all nodes come from one function of the fraction of the key range
(`Cuts`), so that the parts of used nodes of different levels fit together. -/

namespace LearnedIndex.Alexol.FanoutTree

open LearnedIndex.Dyadic

variable {M P : Type}

/-! ### Complete trees -/

/-- The place of a node in the fanout tree. -/
def cell (t : FTNode M) : Cell := (t.level, t.nodeId)

/-- A complete level. -/
structure LevelOK (l : ℕ) (nodes : List (FTNode M)) : Prop where
  length : nodes.length = 2 ^ l
  cell : ∀ i n, nodes[i]? = some n → cell n = (l, i)

/-- All levels are complete. -/
def TreeOK (tree : List (List (FTNode M))) : Prop :=
  ∀ l nodes, tree[l]? = some nodes → LevelOK l nodes

theorem nodeAt_eq_some {tree : List (List (FTNode M))} {l i : ℕ} {n : FTNode M} :
    nodeAt tree l i = some n ↔ ∃ nodes, tree[l]? = some nodes ∧ nodes[i]? = some n := by
  unfold nodeAt
  rw [Option.bind_eq_some_iff]

namespace TreeOK

variable {tree : List (List (FTNode M))}

theorem cell_nodeAt (h : TreeOK tree) {l i : ℕ} {n : FTNode M} (hn : nodeAt tree l i = some n) :
    cell n = (l, i) := by
  obtain ⟨nodes, hnodes, hi⟩ := nodeAt_eq_some.mp hn
  exact (h l nodes hnodes).cell i n hi

theorem exists_nodeAt (h : TreeOK tree) {l i : ℕ} (hl : l < tree.length) (hi : i < 2 ^ l) :
    ∃ n, nodeAt tree l i = some n := by
  have hnodes := List.getElem?_eq_getElem hl
  have hlen := (h l _ hnodes).length
  refine ⟨(tree[l])[i], nodeAt_eq_some.mpr ⟨_, hnodes, List.getElem?_eq_getElem (by omega)⟩⟩

theorem index_lt (h : TreeOK tree) {l i : ℕ} {n : FTNode M} (hn : nodeAt tree l i = some n) :
    l < tree.length ∧ i < 2 ^ l := by
  obtain ⟨nodes, hnodes, hi⟩ := nodeAt_eq_some.mp hn
  refine ⟨(List.getElem?_eq_some_iff.mp hnodes).1, ?_⟩
  rw [← (h l nodes hnodes).length]
  exact (List.getElem?_eq_some_iff.mp hi).1

end TreeOK

/-! ### Marking nodes -/

/-- Apply a marking to every node of a tree. -/
theorem nodeAt_setUse (tree : List (List (FTNode M))) (l i : ℕ) (u : Bool) (l' i' : ℕ) :
    nodeAt (setUse tree l i u) l' i' =
      (nodeAt tree l' i').map
      (fun n => { n with use := if (l', i') = (l, i) then u else n.use }) := by
  unfold nodeAt setUse
  rw [List.getElem?_modify]
  cases htree : tree[l']? with
  | none => rfl
  | some nodes =>
      by_cases hl : l = l'
      · simp only [hl, Option.map_eq_map, Option.map_some, if_true, Option.bind_some,
          List.getElem?_modify, Prod.mk.injEq, true_and]
        cases nodes[i']? with
        | none => rfl
        | some n =>
            by_cases hi : i = i'
            · simp [hi]
            · have hi' : ¬ i' = i := fun h => hi h.symm
              simp [hi, hi']
      · have hl' : ¬ l' = l := fun h => hl h.symm
        simp [hl, hl']

theorem TreeOK.setUse {tree : List (List (FTNode M))} (h : TreeOK tree) (l i : ℕ) (u : Bool) :
    TreeOK (FanoutTree.setUse tree l i u) := by
  intro l' nodes hnodes
  have hcell : ∀ i n, nodes[i]? = some n → FanoutTree.cell n = (l', i) := by
    intro i' n hn
    have hat := nodeAt_eq_some.mpr ⟨nodes, hnodes, hn⟩
    rw [nodeAt_setUse] at hat
    obtain ⟨n₀, hn₀, rfl⟩ := Option.map_eq_some_iff.mp hat
    have hcell : FanoutTree.cell n₀ = (l', i') := h.cell_nodeAt hn₀
    exact hcell
  refine ⟨?_, hcell⟩
  unfold FanoutTree.setUse at hnodes
  rw [List.getElem?_modify, Option.map_eq_map] at hnodes
  obtain ⟨nodes₀, hnodes₀, rfl⟩ := Option.map_eq_some_iff.mp hnodes
  have hlen := (h l' nodes₀ hnodes₀).length
  split
  · rw [List.length_modify]
    exact hlen
  · exact hlen

/-- The cells of the used nodes. -/
def usedCells (tree : List (List (FTNode M))) : Set Cell :=
  {c | ∃ n, nodeAt tree c.1 c.2 = some n ∧ n.use = true}

theorem mem_usedCells {tree : List (List (FTNode M))} {c : Cell} :
    c ∈ usedCells tree ↔ ∃ n, nodeAt tree c.1 c.2 = some n ∧ n.use = true := Iff.rfl

/-- The state of the merge loop: the tree as it was computed, with marks that cover every slot of
depth `D` once. -/
structure Marked (D : ℕ) (tree tree' : List (List (FTNode M))) : Prop where
  ok : TreeOK tree'
  depth : D < tree'.length
  same : ∀ l i n', nodeAt tree' l i = some n' →
    ∃ n, nodeAt tree l i = some n ∧ n' = { n with use := n'.use }
  cover : ExactCover D (usedCells tree')

theorem nodeAt_mergePair (tree : List (List (FTNode M))) (l i : ℕ) (c : Cell) :
    nodeAt (mergePair tree (l + 1) i) c.1 c.2 = (nodeAt tree c.1 c.2).map (fun n =>
      { n with use := if c = (l, i) then true
        else if c = (l + 1, 2 * i) ∨ c = (l + 1, 2 * i + 1) then false else n.use }) := by
  obtain ⟨l', i'⟩ := c
  unfold mergePair
  rw [nodeAt_setUse, nodeAt_setUse, nodeAt_setUse, Option.map_map, Option.map_map]
  congr 1
  funext n
  by_cases h1 : (l', i') = (l, i)
  · simp [h1]
  · by_cases h2 : (l', i') = (l + 1, 2 * i + 1)
    · simp [h2]
    · by_cases h3 : (l', i') = (l + 1, 2 * i)
      · simp [h3]
      · simp [h1, h2, h3]

theorem Marked.mergePair {D : ℕ} {tree tree' : List (List (FTNode M))} (h : Marked D tree tree')
    {l i : ℕ} {left right parent : FTNode M} (hl : nodeAt tree' (l + 1) (2 * i) = some left)
    (hr : nodeAt tree' (l + 1) (2 * i + 1) = some right) (hp : nodeAt tree' l i = some parent)
    (huse : left.use = true ∧ right.use = true) :
    Marked D tree (FanoutTree.mergePair tree' (l + 1) i) := by
  refine ⟨((h.ok.setUse _ _ _).setUse _ _ _).setUse _ _ _, ?_, ?_, ?_⟩
  · unfold FanoutTree.mergePair setUse
    simp only [List.length_modify]
    exact h.depth
  · intro l' i' n' hn'
    rw [nodeAt_mergePair _ l i (l', i')] at hn'
    obtain ⟨n₁, hn₁, rfl⟩ := Option.map_eq_some_iff.mp hn'
    obtain ⟨n, hn, heq⟩ := h.same l' i' n₁ hn₁
    refine ⟨n, hn, ?_⟩
    rw [heq]
  · refine h.cover.merge (l := l) (i := i) ⟨left, hl, huse.1⟩ ⟨right, hr, huse.2⟩ (fun c => ?_)
    rw [mem_usedCells, mem_usedCells, nodeAt_mergePair]
    constructor
    · rintro ⟨n, hn, hu⟩
      obtain ⟨n₁, hn₁, rfl⟩ := Option.map_eq_some_iff.mp hn
      by_cases h1 : c = (l, i)
      · exact Or.inl h1
      · by_cases h2 : c = (l + 1, 2 * i) ∨ c = (l + 1, 2 * i + 1)
        · simp [h1, h2] at hu
        · rw [if_neg h1, if_neg h2] at hu
          rw [not_or] at h2
          exact Or.inr ⟨⟨n₁, hn₁, hu⟩, h2⟩
    · rintro (rfl | ⟨⟨n₁, hn₁, hu⟩, h2⟩)
      · exact ⟨_, by rw [hp]; rfl, by simp⟩
      · rw [hn₁]
        refine ⟨_, rfl, ?_⟩
        simp only [if_neg (not_or.mpr h2), hu, ite_self]

/-! ### Merging -/

theorem Marked.mergeStep {D : ℕ} {tree tree' : List (List (FTNode M))} (h : Marked D tree tree')
    (C : Params M P) (numKeys : ℕ) (totalKeys : ℤ) {l i : ℕ} (hl : l + 1 ≤ D) (hi : i < 2 ^ l)
    (cost : ℚ) (merged : Bool) :
    ∃ tree'' cost' merged', FanoutTree.mergeStep C numKeys totalKeys (l + 1) i
        (tree', cost, merged) = some (tree'', cost', merged') ∧ Marked D tree tree'' := by
  have hdepth := h.depth
  have hpow : 2 ^ (l + 1) = 2 * 2 ^ l := pow_succ' 2 l
  obtain ⟨left, hleft⟩ := h.ok.exists_nodeAt (l := l + 1) (i := 2 * i) (by omega) (by omega)
  obtain ⟨right, hright⟩ := h.ok.exists_nodeAt (l := l + 1) (i := 2 * i + 1) (by omega) (by omega)
  obtain ⟨parent, hparent⟩ := h.ok.exists_nodeAt (l := l) (i := i) (by omega) hi
  unfold FanoutTree.mergeStep
  simp only [hleft, hright, Nat.add_sub_cancel, hparent, Option.bind_eq_bind, Option.bind_some]
  split
  · rename_i huse
    have hm := h.mergePair hleft hright hparent huse
    split
    · exact ⟨_, _, _, rfl, hm⟩
    · split
      · exact ⟨_, _, _, rfl, hm⟩
      · exact ⟨_, _, _, rfl, h⟩
  · exact ⟨_, _, _, rfl, h⟩

theorem Marked.mergeLevel {D : ℕ} {tree : List (List (FTNode M))} (C : Params M P) (numKeys : ℕ)
    (totalKeys : ℤ) {l : ℕ} (hl : l + 1 ≤ D) : ∀ (is : List ℕ) {tree' : List (List (FTNode M))},
      Marked D tree tree' → (∀ i ∈ is, i < 2 ^ l) → ∀ (cost : ℚ) (merged : Bool),
      ∃ tree'' cost' merged', is.foldlM
        (fun st i => FanoutTree.mergeStep C numKeys totalKeys (l + 1) i st) (tree', cost, merged) =
          some (tree'', cost', merged') ∧ Marked D tree tree''
  | [], tree', h, _, cost, merged => ⟨tree', cost, merged, rfl, h⟩
  | i :: is, tree', h, his, cost, merged => by
      obtain ⟨t, c, b, hstep, ht⟩ :=
        h.mergeStep C numKeys totalKeys hl (his i (List.mem_cons_self ..))
        cost merged
      rw [List.foldlM_cons, hstep]
      exact Marked.mergeLevel C numKeys totalKeys hl is ht
        (fun j hj => his j (List.mem_cons_of_mem i hj)) c b

theorem Marked.mergeNodesUpwards {D : ℕ} {tree : List (List (FTNode M))} (C : Params M P)
    (numKeys : ℕ) (totalKeys : ℤ) : ∀ (level : ℕ) {tree' : List (List (FTNode M))},
      Marked D tree tree' → level ≤ D → ∀ cost : ℚ,
      ∃ cost' tree'', FanoutTree.mergeNodesUpwards C numKeys totalKeys level cost tree' =
        some (cost', tree'') ∧ Marked D tree tree''
  | 0, tree', h, _, cost => ⟨cost, tree', rfl, h⟩
  | level + 1, tree', h, hl, cost => by
      obtain ⟨t, c, b, hfold, ht⟩ := Marked.mergeLevel C numKeys totalKeys hl
        (List.range (2 ^ (level + 1) / 2)) h (fun i hi => by
          have := List.mem_range.mp hi
          rw [pow_succ] at this
          omega) cost false
      unfold FanoutTree.mergeNodesUpwards
      simp only [hfold, Option.bind_eq_bind, Option.bind_some]
      cases b with
      | true =>
          obtain ⟨c', t', hrec, ht'⟩ := Marked.mergeNodesUpwards C numKeys totalKeys level ht
            (by omega) c
          exact ⟨c', t', hrec, ht'⟩
      | false => exact ⟨c, t, rfl, ht⟩

/-- The best level of a tree without marks is marked. -/
theorem marked_level {tree : List (List (FTNode M))} (h : TreeOK tree)
    (huse : ∀ l i n, nodeAt tree l i = some n → n.use = false) {D : ℕ} (hD : D < tree.length) :
    Marked D tree (tree.modify D (List.map (fun n => { n with use := true }))) := by
  have hnode : ∀ l i, nodeAt (tree.modify D (List.map (fun n => { n with use := true }))) l i =
      (nodeAt tree l i).map (fun n => { n with use := if l = D then true else n.use }) := by
    intro l i
    unfold nodeAt
    rw [List.getElem?_modify]
    cases tree[l]? with
    | none => rfl
    | some nodes =>
        by_cases hl : D = l
        · simp [hl]
        · have hl' : ¬ l = D := fun h => hl h.symm
          simp [hl, hl']
  refine ⟨?_, by simpa using hD, ?_, ?_⟩
  · intro l nodes hnodes
    rw [List.getElem?_modify, Option.map_eq_map] at hnodes
    obtain ⟨nodes₀, hnodes₀, hn⟩ := Option.map_eq_some_iff.mp hnodes
    have hok := h l nodes₀ hnodes₀
    by_cases hl : D = l
    · rw [if_pos hl] at hn
      subst hn
      refine ⟨by rw [List.length_map]; exact hok.length, fun i n hi => ?_⟩
      rw [List.getElem?_map] at hi
      obtain ⟨n₀, hn₀, rfl⟩ := Option.map_eq_some_iff.mp hi
      exact hok.cell i n₀ hn₀
    · rw [if_neg hl] at hn
      exact hn ▸ hok
  · intro l i n' hn'
    rw [hnode] at hn'
    obtain ⟨n, hn, rfl⟩ := Option.map_eq_some_iff.mp hn'
    exact ⟨n, hn, rfl⟩
  · have hused : usedCells (tree.modify D (List.map (fun n => { n with use := true }))) =
        {c | c.1 = D ∧ c.2 < 2 ^ D} := by
      ext ⟨l, i⟩
      rw [mem_usedCells, hnode]
      constructor
      · rintro ⟨n, hn, hu⟩
        obtain ⟨n₀, hn₀, rfl⟩ := Option.map_eq_some_iff.mp hn
        by_cases hl : l = D
        · exact ⟨hl, hl ▸ (h.index_lt hn₀).2⟩
        · rw [if_neg hl, huse l i n₀ hn₀] at hu
          cases hu
      · rintro ⟨rfl, hi⟩
        obtain ⟨n, hn⟩ := h.exists_nodeAt hD hi
        exact ⟨_, by rw [hn]; rfl, by simp⟩
    rw [hused]
    exact exactCover_level D

/-! ### Collecting -/

theorem slotOf_eq (D : ℕ) (t : FTNode M) : slotOf D t = slot D (cell t) := by
  unfold slotOf slot size cell
  rw [Nat.shiftLeft_eq]

/-- The nodes of the levels up to `D`. -/
theorem mem_levels {tree : List (List (FTNode M))} {D : ℕ} {t : FTNode M} :
    t ∈ (tree.take (D + 1)).flatten ↔ ∃ l i, l ≤ D ∧ nodeAt tree l i = some t := by
  rw [List.mem_flatten]
  constructor
  · rintro ⟨nodes, hnodes, ht⟩
    obtain ⟨l, hl⟩ := List.mem_iff_getElem?.mp hnodes
    obtain ⟨i, hi⟩ := List.mem_iff_getElem?.mp ht
    rw [List.getElem?_take] at hl
    split at hl
    · exact ⟨l, i, by omega, nodeAt_eq_some.mpr ⟨nodes, hl, hi⟩⟩
    · cases hl
  · rintro ⟨l, i, hl, hat⟩
    obtain ⟨nodes, hnodes, hi⟩ := nodeAt_eq_some.mp hat
    refine ⟨nodes, List.mem_iff_getElem?.mpr ⟨l, ?_⟩, List.mem_iff_getElem?.mpr ⟨i, hi⟩⟩
    rw [List.getElem?_take, if_pos (by omega), hnodes]

/-- No cell occurs twice among the nodes. -/
theorem TreeOK.nodup_levels {tree : List (List (FTNode M))} (h : TreeOK tree) (D : ℕ) :
    (tree.take (D + 1)).flatten.Pairwise (fun t t' => FanoutTree.cell t ≠ FanoutTree.cell t') := by
  have hget : ∀ l nodes, (tree.take (D + 1))[l]? = some nodes → LevelOK l nodes := by
    intro l nodes hl
    rw [List.getElem?_take] at hl
    split at hl
    · exact h l nodes hl
    · cases hl
  rw [List.pairwise_flatten]
  constructor
  · intro nodes hnodes
    obtain ⟨l, hl⟩ := List.mem_iff_getElem?.mp hnodes
    rw [List.pairwise_iff_getElem]
    intro i j hi hj hij
    rw [(hget l nodes hl).cell i _ (List.getElem?_eq_getElem hi),
      (hget l nodes hl).cell j _ (List.getElem?_eq_getElem hj)]
    intro hc
    have := (Prod.mk.inj hc).2
    omega
  · rw [List.pairwise_iff_getElem]
    intro l l' hl hl' hlt t ht t' ht'
    obtain ⟨i, hi⟩ := List.mem_iff_getElem?.mp ht
    obtain ⟨j, hj⟩ := List.mem_iff_getElem?.mp ht'
    rw [(hget l _ (List.getElem?_eq_getElem hl)).cell i t hi,
      (hget l' _ (List.getElem?_eq_getElem hl')).cell j t' hj]
    intro hc
    have := (Prod.mk.inj hc).1
    omega

theorem Marked.collect {D : ℕ} {tree tree' : List (List (FTNode M))}
    (h : Marked D tree tree') : Tiles D ((collectUsedNodes tree' D).map cell) 0 ∧
      ∀ t ∈ collectUsedNodes tree' D, ∃ n, nodeAt tree t.level t.nodeId = some n ∧
        t = { n with use := true } := by
  have hmin : min D (tree'.length - 1) = D := by
    have := h.depth
    omega
  have hperm : (collectUsedNodes tree' D).Perm
    ((tree'.take (D + 1)).flatten.filter FTNode.use) := by
    unfold FanoutTree.collectUsedNodes
    simp only [hmin]
    exact List.perm_insertionSort _ _
  have hmem : ∀ t, t ∈ collectUsedNodes tree' D ↔
      (∃ l i, l ≤ D ∧ nodeAt tree' l i = some t) ∧ t.use = true := by
    intro t
    rw [hperm.mem_iff, List.mem_filter, mem_levels]
  constructor
  · refine h.cover.tiles ?_ ?_ (fun c => ?_)
    · have hnd : ((tree'.take (D + 1)).flatten.filter FTNode.use).Pairwise
          (fun t t' => cell t ≠ cell t') := (h.ok.nodup_levels D).filter _
      exact List.pairwise_map.mpr (hperm.symm.pairwise hnd (fun hne heq => hne heq.symm))
    · rw [List.pairwise_map]
      have hs := List.pairwise_insertionSort (fun x y : FTNode M => slotOf D x ≤ slotOf D y)
        ((tree'.take (D + 1)).flatten.filter FTNode.use)
      unfold FanoutTree.collectUsedNodes
      simp only [hmin]
      refine hs.imp (fun {t t'} hle => ?_)
      rw [← slotOf_eq, ← slotOf_eq]
      exact hle
    · rw [List.mem_map]
      constructor
      · rintro ⟨t, ht, rfl⟩
        obtain ⟨⟨l, i, _, hat⟩, hu⟩ := (hmem t).mp ht
        rw [h.ok.cell_nodeAt hat]
        exact ⟨t, hat, hu⟩
      · rintro ⟨t, hat, hu⟩
        have hc : c ∈ usedCells tree' := ⟨t, hat, hu⟩
        exact ⟨t, (hmem t).mpr ⟨⟨c.1, c.2, h.cover.level c hc, hat⟩, hu⟩, h.ok.cell_nodeAt hat⟩
  · intro t ht
    obtain ⟨⟨l, i, _, hat⟩, hu⟩ := (hmem t).mp ht
    have hcell := h.ok.cell_nodeAt hat
    obtain ⟨n, hn, heq⟩ := h.same l i t hat
    obtain ⟨hl, hi⟩ := Prod.mk.inj hcell
    refine ⟨n, by rw [hl, hi]; exact hn, ?_⟩
    rw [hu] at heq
    exact heq

/-- The nodes that are chosen tile the slots, whatever the costs are. -/
theorem choose_spec (C : Params M P) (numKeys : ℕ) (totalKeys : ℤ) {g : Growth M}
    (h : TreeOK g.fanoutTree) (huse : ∀ l i n, nodeAt g.fanoutTree l i = some n → n.use = false)
    (hbest : g.bestLevel < g.fanoutTree.length) :
    ∃ cost used, choose C numKeys totalKeys g = some (g.bestLevel, cost, used) ∧
      Tiles g.bestLevel (used.map cell) 0 ∧
      ∀ t ∈ used, ∃ n, nodeAt g.fanoutTree t.level t.nodeId = some n ∧
      t = { n with use := true } := by
  obtain ⟨cost, tree, hmerge, hm⟩ := Marked.mergeNodesUpwards C numKeys totalKeys g.bestLevel
    (marked_level h huse hbest) (le_refl _) (g.bestCost.getD 0)
  obtain ⟨htiles, hsame⟩ := hm.collect
  refine ⟨cost, _, ?_, htiles, hsame⟩
  unfold choose
  simp only [hmerge, Option.bind_eq_bind, Option.bind_some]

/-! ### Growing -/

/-- All levels are complete, without marks, and their nodes have the property `Q`. -/
structure LevelsOK (Q : FTNode M → Prop) (tree : List (List (FTNode M))) : Prop where
  ok : TreeOK tree
  node : ∀ l i n, nodeAt tree l i = some n → n.use = false ∧ Q n

/-- One more level. -/
theorem LevelsOK.push {Q : FTNode M → Prop} {tree : List (List (FTNode M))} (h : LevelsOK Q tree)
    {nodes : List (FTNode M)} (hlevel : LevelOK tree.length nodes)
    (hnodes : ∀ n ∈ nodes, n.use = false ∧ Q n) : LevelsOK Q (tree ++ [nodes]) := by
  have hget : ∀ l ns, (tree ++ [nodes])[l]? = some ns →
      tree[l]? = some ns ∨ (l = tree.length ∧ ns = nodes) := by
    intro l ns hl
    rcases Nat.lt_or_ge l tree.length with hlt | hge
    · rw [List.getElem?_append_left hlt] at hl
      exact Or.inl hl
    · rw [List.getElem?_append_right hge, List.getElem?_singleton] at hl
      split at hl
      · exact Or.inr ⟨by omega, (Option.some.inj hl).symm⟩
      · cases hl
  constructor
  · intro l ns hl
    rcases hget l ns hl with hold | ⟨rfl, rfl⟩
    · exact h.ok l ns hold
    · exact hlevel
  · intro l i n hat
    obtain ⟨ns, hl, hi⟩ := nodeAt_eq_some.mp hat
    rcases hget l ns hl with hold | ⟨rfl, rfl⟩
    · exact h.node l i n (nodeAt_eq_some.mpr ⟨ns, hold, hi⟩)
    · exact hnodes n (List.mem_of_getElem? hi)

section
variable {σ : Type} {compute : σ → ℕ → Option (List (FTNode M) × ℚ × σ)} {R : σ → Prop}
  {Q : FTNode M → Prop}

/-- The levels are added one by one, and the best one is among them. -/
theorem grow_spec (hcompute : ∀ st l, R st → ∃ nodes cost st', compute st l =
      some (nodes, cost, st') ∧ R st' ∧ LevelOK l nodes ∧ ∀ n ∈ nodes, n.use = false ∧ Q n) :
    ∀ (remaining : ℕ) (g : Growth M) (st : σ), R st → LevelsOK Q g.fanoutTree →
      g.bestLevel < g.fanoutTree.length →
      ∃ g' st', grow compute remaining g.fanoutTree.length g st = some (g', st') ∧ R st' ∧
        LevelsOK Q g'.fanoutTree ∧ g'.bestLevel < g'.fanoutTree.length
  | 0, g, st, hR, hlv, hbest => ⟨g, st, rfl, hR, hlv, hbest⟩
  | remaining + 1, g, st, hR, hlv, hbest => by
      obtain ⟨nodes, cost, st', hc, hR', hlevel, hnodes⟩ := hcompute st g.fanoutTree.length hR
      unfold grow
      simp only [hc, Option.bind_eq_bind, Option.bind_some]
      split
      · exact ⟨g, st', rfl, hR', hlv, hbest⟩
      · have hlen : (g.push g.fanoutTree.length nodes cost).fanoutTree.length =
            g.fanoutTree.length + 1 := by
          unfold Growth.push
          simp
        have hpush : (g.push g.fanoutTree.length nodes cost).bestLevel <
            (g.push g.fanoutTree.length nodes cost).fanoutTree.length := by
          rw [hlen]
          show (if _ then g.fanoutTree.length else g.bestLevel) < _
          split <;> omega
        have := grow_spec hcompute remaining (g.push g.fanoutTree.length nodes cost) st' hR'
          (hlv.push hlevel hnodes) hpush
        rw [hlen] at this
        exact this

/-- Growth from nothing takes at least the first level. -/
theorem grow_empty (hcompute : ∀ st l, R st → ∃ nodes cost st', compute st l =
      some (nodes, cost, st') ∧ R st' ∧ LevelOK l nodes ∧ ∀ n ∈ nodes, n.use = false ∧ Q n)
    (remaining : ℕ) (st : σ) (hR : R st) :
    ∃ g' st', grow compute (remaining + 1) 0 ⟨0, none, [], []⟩ st = some (g', st') ∧ R st' ∧
      LevelsOK Q g'.fanoutTree ∧ g'.bestLevel < g'.fanoutTree.length := by
  obtain ⟨nodes, cost, st', hc, hR', hlevel, hnodes⟩ := hcompute st 0 hR
  have hempty : LevelsOK Q ([] : List (List (FTNode M))) :=
    ⟨fun l ns hl => by simp at hl, fun l i n hat => by simp [nodeAt] at hat⟩
  unfold grow
  simp only [hc, Option.bind_eq_bind, Option.bind_some]
  have h0 : costsIncrease [cost] = false := rfl
  rw [h0, if_neg (by simp)]
  exact grow_spec hcompute remaining (Growth.push ⟨0, none, [], []⟩ 0 nodes cost) st' hR'
    (hempty.push hlevel hnodes) (by simp [Growth.push])

end

/-! ### Boundaries -/

/-- The two boundaries of a node, given by a function of the fraction of the key range. -/
structure Cuts (B : ℚ → ℕ) (t : FTNode M) : Prop where
  left : t.leftBoundary = B ((t.nodeId : ℚ) / 2 ^ t.level)
  right : t.rightBoundary = B (((t.nodeId : ℚ) + 1) / 2 ^ t.level)

/-- The used nodes divide the range into parts that follow each other from slot `cur` on. -/
def Parts (D : ℕ) (B : ℚ → ℕ) : List (FTNode M) → ℕ → Prop
  | [], cur => cur = 2 ^ D
  | t :: ts, cur => t.level ≤ D ∧ 2 ^ (D - t.level) ∣ cur ∧ t.leftBoundary = B ((cur : ℚ) / 2 ^ D) ∧
      t.rightBoundary = B (((cur + 2 ^ (D - t.level) : ℕ) : ℚ) / 2 ^ D) ∧
      Parts D B ts (cur + 2 ^ (D - t.level))

theorem Parts.steps {D : ℕ} {B : ℚ → ℕ} {ts : List (FTNode M)} {cur : ℕ} (h : Parts D B ts cur) :
    Steps D (ts.map FTNode.level) cur := by
  induction ts generalizing cur with
  | nil => exact h
  | cons t ts ih => exact ⟨h.1, h.2.1, ih h.2.2.2.2⟩

theorem parts_of_tiles {D : ℕ} {B : ℚ → ℕ} : ∀ {ts : List (FTNode M)} {cur : ℕ},
    Tiles D (ts.map cell) cur → (∀ t ∈ ts, Cuts B t) → Parts D B ts cur
  | [], _, h, _ => h
  | t :: ts, cur, h, hcut => by
      obtain ⟨hl, hslot, hrest⟩ := h
      have hl : t.level ≤ D := hl
      have hslot : t.nodeId * 2 ^ (D - t.level) = cur := hslot
      have hpow : (2 : ℚ) ^ D = 2 ^ t.level * 2 ^ (D - t.level) := by
        rw [← pow_add, Nat.add_sub_cancel' hl]
      have hpos : (2 : ℚ) ^ (D - t.level) ≠ 0 := by positivity
      have ht := hcut t (List.mem_cons_self ..)
      refine ⟨hl, hslot ▸ Nat.dvd_mul_left _ _, ?_, ?_,
        parts_of_tiles hrest (fun t' ht' => hcut t' (List.mem_cons_of_mem t ht'))⟩
      · rw [ht.left, ← hslot, hpow]
        push_cast
        rw [mul_div_mul_right _ _ hpos]
      · rw [ht.right, ← hslot, hpow]
        push_cast
        rw [← add_one_mul, mul_div_mul_right _ _ hpos]

/-- The used nodes of a tree whose nodes all have the property `Q`. -/
theorem choose_parts (C : Params M P) (numKeys : ℕ) (totalKeys : ℤ) {g : Growth M} {B : ℚ → ℕ}
    {Q : FTNode M → Prop} (hlv : LevelsOK (fun n => Cuts B n ∧ Q n) g.fanoutTree)
    (hQ : ∀ (n : FTNode M) (u : Bool), Q n → Q { n with use := u })
    (hbest : g.bestLevel < g.fanoutTree.length) :
    ∃ cost used, choose C numKeys totalKeys g = some (g.bestLevel, cost, used) ∧
      Parts g.bestLevel B used 0 ∧ ∀ t ∈ used, Q t := by
  obtain ⟨cost, used, hchoose, htiles, hsame⟩ := choose_spec C numKeys totalKeys hlv.ok
    (fun l i n hn => (hlv.node l i n hn).1) hbest
  have hall : ∀ t ∈ used, Cuts B t ∧ Q t := by
    intro t ht
    obtain ⟨n, hn, heq⟩ := hsame t ht
    obtain ⟨_, hcut, hq⟩ := hlv.node _ _ n hn
    rw [heq]
    exact ⟨⟨hcut.left, hcut.right⟩, hQ n true hq⟩
  exact ⟨cost, used, hchoose, parts_of_tiles htiles (fun t ht => (hall t ht).1),
    fun t ht => (hall t ht).2⟩

end LearnedIndex.Alexol.FanoutTree

namespace LearnedIndex.Alexol

/-! ### Splitting an existing data node -/

namespace DataNode

variable {M P : Type} {T : KeyType} {n : DataNode M P}

/-- The value at a fraction of the key range of the node. -/
def limitAt (n : DataNode M P) (q : ℚ) : ℚ := n.minLimit + q * (n.maxLimit - n.minLimit)

/-- The position at a fraction of the key range of the node. -/
def bound (n : DataNode M P) (q : ℚ) : ℕ :=
  if q ≤ 0 then 0 else if 1 ≤ q then n.dataCapacity else n.cut (n.limitAt q)

theorem bound_zero (n : DataNode M P) : n.bound 0 = 0 := if_pos (le_refl 0)

theorem bound_one (n : DataNode M P) : n.bound 1 = n.dataCapacity := by
  unfold bound
  rw [if_neg (by norm_num), if_pos (le_refl 1)]

namespace Stores

theorem bound_le (h : Stores T n) (q : ℚ) : n.bound q ≤ n.dataCapacity := by
  unfold bound
  split
  · exact Nat.zero_le _
  · split
    · exact le_refl _
    · exact h.cut_le _

theorem bound_mono (h : Stores T n) (hlt : n.minLimit < n.maxLimit) {q q' : ℚ} (hq : q ≤ q') :
    n.bound q ≤ n.bound q' := by
  unfold bound
  by_cases h1 : q ≤ 0
  · rw [if_pos h1]
    exact Nat.zero_le _
  · rw [if_neg h1, if_neg (fun h2 => h1 (hq.trans h2))]
    by_cases h2 : 1 ≤ q'
    · rw [if_pos h2]
      split
      · exact le_refl _
      · exact h.cut_le _
    · rw [if_neg h2, if_neg (fun h3 => h2 (le_trans h3 hq))]
      refine h.cut_mono ?_
      unfold limitAt
      have hpos : 0 < n.maxLimit - n.minLimit := sub_pos.mpr hlt
      nlinarith

/-- The keys of a part lie between its limits, except at the two ends of the node. -/
theorem mem_between (h : Stores T n) {q q' : ℚ} {e : ℤ × P}
    (he : e ∈ n.pairsBetween (n.bound q) (n.bound q')) :
    (q ≤ 0 ∨ n.limitAt q ≤ e.1) ∧ (1 ≤ q' ∨ (e.1 : ℚ) < n.limitAt q') := by
  have hle := h.bound_le q'
  have hempty : ∀ l r : ℕ, r ≤ l → e ∉ n.pairsBetween l r := by
    intro l r hlr
    unfold pairsBetween
    rw [show r - l = 0 by omega]
    simp
  constructor
  · rcases le_or_gt q 0 with h1 | h1
    · exact Or.inl h1
    · rcases le_or_gt 1 q with h2 | h2
      · have hq : n.bound q = n.dataCapacity := by
          unfold bound
          rw [if_neg (by linarith), if_pos h2]
        exact absurd he (hempty _ _ (by omega))
      · refine Or.inr (h.le_of_mem ?_ hle he)
        unfold bound
        rw [if_neg (by linarith), if_neg (by linarith)]
  · rcases le_or_gt 1 q' with h1 | h1
    · exact Or.inl h1
    · rcases le_or_gt q' 0 with h2 | h2
      · have hq : n.bound q' = 0 := if_pos h2
        exact absurd he (hempty _ _ (by omega))
      · refine Or.inr (h.lt_of_mem ?_ he)
        unfold bound
        rw [if_neg (by linarith), if_neg (by linarith)]

end Stores

end DataNode

namespace FanoutTree

open LearnedIndex.Dyadic

variable {M P : Type} [NodeModel M] {T : KeyType} {n : DataNode M P}

/-- A node of a level over a leaf: boundaries and key count are those of the leaf. -/
def RangeOf (n : DataNode M P) (t : FTNode M) : Prop :=
  t.numKeys = (n.pairsBetween t.leftBoundary t.rightBoundary).length

omit [NodeModel M] in
/-- The boundary value of a part of the key range. -/
theorem base_edge (hlt : n.minLimit < n.maxLimit) (l i : ℕ) :
    let a := 1 / (n.maxLimit - n.minLimit)
    ((i : ℚ) - ((⟨a, -1 * a * n.minLimit⟩ : LinearModel).expand (2 ^ l : ℕ)).b) /
        ((⟨a, -1 * a * n.minLimit⟩ : LinearModel).expand (2 ^ l : ℕ)).a =
      n.limitAt ((i : ℚ) / 2 ^ l) := by
  have h1 : n.maxLimit - n.minLimit ≠ 0 := (sub_pos.mpr hlt).ne'
  have h2 : (2 : ℚ) ^ l ≠ 0 := by positivity
  simp only [LinearModel.expand, DataNode.limitAt]
  push_cast
  field_simp
  ring

theorem rangeEnd_spec (h : DataNode.Stores T n) {base : LinearModel} {l : ℕ}
    (hbase : ∀ i : ℕ, ((i : ℚ) - base.b) / base.a = n.limitAt ((i : ℚ) / 2 ^ l)) {i : ℕ}
    (hi : i < 2 ^ l) (a b : ℕ) : ∃ a' b', rangeEnd (n.withCounters a b) base (2 ^ l) i =
      some (n.bound (((i : ℚ) + 1) / 2 ^ l), n.withCounters a' b') := by
  have hpos : (0 : ℚ) < 2 ^ l := by positivity
  unfold rangeEnd
  by_cases hlast : i = 2 ^ l - 1
  · rw [if_pos hlast]
    have hone : ((i : ℚ) + 1) / 2 ^ l = 1 := by
      have hc : i + 1 = 2 ^ l := by omega
      have hq : (i : ℚ) + 1 = 2 ^ l := by exact_mod_cast hc
      rw [hq, div_self hpos.ne']
    rw [hone, n.bound_one]
    exact ⟨a, b, rfl⟩
  · rw [if_neg hlast, hbase (i + 1)]
    have h' : DataNode.Stores T (n.withCounters a b) := h.congr rfl rfl
    obtain ⟨a', b', hlb⟩ := h'.lowerBound (n.limitAt (((i + 1 : ℕ) : ℚ) / 2 ^ l))
    refine ⟨a', b', ?_⟩
    have hlt : ((i : ℚ) + 1) / 2 ^ l < 1 := by
      rw [div_lt_one hpos]
      have hc : i + 1 < 2 ^ l := by omega
      exact_mod_cast hc
    have hgt : 0 < ((i : ℚ) + 1) / 2 ^ l := by positivity
    have hcut : (n.withCounters a b).cut = n.cut := DataNode.cut_congr rfl
    rw [hlb, hcut]
    unfold DataNode.bound
    rw [if_neg (not_le.mpr hgt), if_neg (not_le.mpr hlt)]
    push_cast
    rfl

theorem rangeNode_spec (h : DataNode.Stores T n) (C : Params M P) (l i : ℕ) {left right : ℕ}
    (hlr : left ≤ right) (hr : right ≤ n.dataCapacity) (leftLimit rightLimit : ℚ) (a b : ℕ) :
    ∃ t, rangeNode C (n.withCounters a b) l i left right leftLimit rightLimit = some t ∧
      cell t = (l, i) ∧ t.use = false ∧ t.leftBoundary = left ∧ t.rightBoundary = right ∧
      RangeOf n t := by
  have h' : DataNode.Stores T (n.withCounters a b) := h.congr rfl rfl
  unfold rangeNode RangeOf
  by_cases heq : left = right
  · rw [if_pos heq]
    refine ⟨_, rfl, rfl, rfl, rfl, rfl, ?_⟩
    rw [heq, n.pairsBetween_self]
    rfl
  · rw [if_neg heq]
    simp only [h'.keysBetween C hlr hr, Option.bind_eq_bind, Option.bind_some]
    refine ⟨_, rfl, rfl, rfl, rfl, rfl, ?_⟩
    show List.length (List.map _ _) = _
    have hpb : (n.withCounters a b).pairsBetween = n.pairsBetween := DataNode.pairsBetween_congr rfl
    rw [List.length_map, hpb]

theorem rangeNodes_spec (h : DataNode.Stores T n) (hlt : n.minLimit < n.maxLimit)
    (C : Params M P) {base : LinearModel} {l : ℕ}
    (hbase : ∀ i : ℕ, ((i : ℚ) - base.b) / base.a = n.limitAt ((i : ℚ) / 2 ^ l)) :
    ∀ (remaining i : ℕ) (leftLimit : ℚ) (a b : ℕ), i + remaining = 2 ^ l →
      ∃ ts a' b', rangeNodes C base l remaining i (n.bound ((i : ℚ) / 2 ^ l)) leftLimit
          (n.withCounters a b) = some (ts, n.withCounters a' b') ∧ ts.length = remaining ∧
        ∀ j t, ts[j]? = some t → cell t = (l, i + j) ∧ t.use = false ∧ Cuts n.bound t ∧ RangeOf n t
  | 0, i, leftLimit, a, b, _ => ⟨[], a, b, rfl, rfl, fun j t ht => by simp at ht⟩
  | remaining + 1, i, leftLimit, a, b, hi => by
      obtain ⟨a₁, b₁, hend⟩ := rangeEnd_spec h hbase (i := i) (by omega) a b
      have hpos : (0 : ℚ) < 2 ^ l := by positivity
      have hmono : n.bound ((i : ℚ) / 2 ^ l) ≤ n.bound (((i : ℚ) + 1) / 2 ^ l) :=
        h.bound_mono hlt (div_le_div_of_nonneg_right (by linarith) hpos.le)
      obtain ⟨t, ht, hcell, huse, hleft, hright, hrange⟩ := rangeNode_spec h C l i hmono
        (h.bound_le _) leftLimit (rangeLimit (n.withCounters a₁ b₁) base (2 ^ l) i) a₁ b₁
      obtain ⟨ts, a₂, b₂, hts, hlen, hall⟩ := rangeNodes_spec h hlt C hbase remaining (i + 1)
        (rangeLimit (n.withCounters a₁ b₁) base (2 ^ l) i) a₁ b₁ (by omega)
      have hcast : (((i + 1 : ℕ) : ℚ)) / 2 ^ l = ((i : ℚ) + 1) / 2 ^ l := by push_cast; rfl
      rw [hcast] at hts
      refine ⟨t :: ts, a₂, b₂, ?_, by simp [hlen], ?_⟩
      · unfold rangeNodes
        simp only [hend, ht, hts, Option.bind_eq_bind, Option.bind_some]
      · intro j t' hj
        cases j with
        | zero =>
            obtain rfl : t = t' := by simpa using hj
            obtain ⟨hl, hid⟩ := Prod.mk.inj hcell
            refine ⟨by rw [hcell]; rfl, huse, ⟨?_, ?_⟩, hrange⟩
            · rw [hleft, hl, hid]
            · rw [hright, hl, hid]
        | succ j =>
            obtain ⟨h1, h2⟩ := hall j t' (by simpa using hj)
            exact ⟨by rw [h1]; congr 1; omega, h2⟩

theorem existingLevel_spec (h : DataNode.Stores T n) (hlt : n.minLimit < n.maxLimit)
    (C : Params M P) (totalKeys : ℤ) (st : DataNode M P) (l : ℕ)
    (hst : ∃ a b, st = n.withCounters a b) :
    ∃ nodes cost st', existingLevel C totalKeys st l = some (nodes, cost, st') ∧
      (∃ a b, st' = n.withCounters a b) ∧ LevelOK l nodes ∧
      ∀ t ∈ nodes, t.use = false ∧ Cuts n.bound t ∧ RangeOf n t := by
  obtain ⟨a, b, rfl⟩ := hst
  obtain ⟨ts, a', b', hts, hlen, hall⟩ := rangeNodes_spec h hlt C (base_edge hlt l) (2 ^ l) 0
    n.minLimit a b (by omega)
  rw [Nat.cast_zero, zero_div, n.bound_zero] at hts
  refine ⟨ts, levelCost C n.numKeys totalKeys (2 ^ l) ts, n.withCounters a' b', ?_, ⟨a', b', rfl⟩,
    ⟨hlen, fun i t ht => ?_⟩, fun t ht => ?_⟩
  · unfold existingLevel
    rw [if_neg (fun heq => hlt.ne heq.symm)]
    have hts' : rangeNodes C ((⟨1 / (n.maxLimit - n.minLimit),
        -1 * (1 / (n.maxLimit - n.minLimit)) * n.minLimit⟩ : LinearModel).expand (2 ^ l : ℕ)) l
          (2 ^ l)
        0 0 (n.withCounters a b).minLimit (n.withCounters a b) = some (ts, n.withCounters a' b') :=
          hts
    simp only [DataNode.withCounters] at hts' ⊢
    rw [hts']
    rfl
  · rw [(hall i t ht).1, Nat.zero_add]
  · obtain ⟨j, hj⟩ := List.mem_iff_getElem?.mp ht
    exact (hall j t hj).2

/-- `find_best_fanout_existing_node_without_parent`: the used nodes divide the leaf. -/
theorem findBestFanoutExistingNode_spec (h : DataNode.Stores T n)
    (hlt : n.minLimit < n.maxLimit) (C : Params M P) (totalKeys : ℤ) (maxFanout : ℕ) :
    ∃ D used a b, findBestFanoutExistingNode C n totalKeys maxFanout =
        some (D, used, n.withCounters a b) ∧ Parts D n.bound used 0 ∧ ∀ t ∈ used, RangeOf n t := by
  obtain ⟨g, st, hgrow, ⟨a, b, rfl⟩, hlv, hbest⟩ := grow_empty
    (existingLevel_spec h hlt C totalKeys) (Nat.log2 maxFanout) n
    ⟨n.numLookups, n.numExpSearchIterations, rfl⟩
  obtain ⟨cost, used, hchoose, hparts, hused⟩ := choose_parts C n.numKeys totalKeys hlv
    (fun _ _ hq => hq) hbest
  refine ⟨g.bestLevel, used, a, b, ?_, hparts, hused⟩
  unfold findBestFanoutExistingNode
  rw [hgrow, Option.bind_eq_bind, Option.bind_some]
  have hnum : (n.withCounters a b).numKeys = n.numKeys := rfl
  simp only [hnum, hchoose]
  rfl

end FanoutTree

end LearnedIndex.Alexol
