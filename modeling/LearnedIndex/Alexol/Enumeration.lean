import LearnedIndex.Alexol.BulkLoad
import LearnedIndex.Alexol.ReverseIterator

/-! # Iterating over a loaded index

From `begin()` on an iterator reads the pairs of the leaf list in its order, and from `rbegin()` on
a reverse iterator reads them backwards.  After bulk loading these are the loaded pairs, and
`NodeIterator` visits the nodes of the tree once each (`bulkLoad_iterates`). -/

namespace LearnedIndex.Alexol

open LearnedIndex.Chains LearnedIndex.Forests FanoutTree

variable {M P : Type}

namespace Index

/-- `begin()`. -/
def begin (s : Index M P) : Option Iterator := do
  let leaf ← s.firstDataNode
  Iterator.new s.heap leaf 0

/-- `rbegin()`. -/
def rbegin (s : Index M P) : Option ReverseIterator := do
  let leaf ← s.lastDataNode
  let n ← s.heap.dataAt leaf
  ReverseIterator.new s.heap leaf (n.dataCapacity - 1)

end Index

variable {T : KeyType} {s : Index M P} {leaves order : List NodeId}
  {values : List (ℤ × P)}

/-! ### Reading until the end -/

theorem Index.Iterator.Before.read {h : Heap M P} {it : Index.Iterator} {place : NodeId × ℕ}
    {rest : List (NodeId × ℕ)} (hb : it.Before h leaves (place :: rest)) :
    it.curLeaf = some place.1 ∧ it.read h = h.readPlace place := by
  obtain ⟨A, B, n, -, -, hleaf, hidx, -⟩ := hb
  refine ⟨hleaf, ?_⟩
  unfold Index.Iterator.read
  rw [hleaf, Option.bind_eq_bind, Option.bind_some, hidx]

theorem Index.ReverseIterator.Before.read {h : Heap M P} {it : Index.ReverseIterator}
    {place : NodeId × ℕ} {rest : List (NodeId × ℕ)} (hb : it.Before h leaves (place :: rest)) :
    it.curLeaf = some place.1 ∧ it.read h = h.readPlace place := by
  obtain ⟨A, B, n, -, -, hleaf, hidx, -⟩ := hb
  refine ⟨hleaf, ?_⟩
  unfold Index.ReverseIterator.read
  rw [hleaf, Option.bind_eq_bind, Option.bind_some, hidx]

namespace Chained

/-- An iterator reads the pairs at the positions that are left. -/
theorem collect (hc : Chained T s leaves) : ∀ (places : List (NodeId × ℕ)) (pairs : List (ℤ × P))
    (it : Index.Iterator) (fuel : ℕ), it.Before s.heap leaves places →
    places.map s.heap.readPlace = pairs.map some → places.length ≤ fuel →
    it.collect s.heap fuel = some pairs
  | [], pairs, it, fuel, hb, hread, _ => by
      obtain rfl := List.map_eq_nil_iff.mp hread.symm
      unfold Index.Iterator.collect
      rw [hb.1]
  | place :: places, [], _, _, _, hread, _ => by cases hread
  | place :: places, pair :: pairs, it, fuel, hb, hread, hfuel => by
      obtain ⟨fuel, rfl⟩ :=
        Nat.exists_eq_succ_of_ne_zero (Nat.lt_of_lt_of_le (Nat.succ_pos _) hfuel).ne'
      obtain ⟨hleaf, hpair⟩ := hb.read
      obtain ⟨hhead, htail⟩ := List.cons.inj hread
      obtain ⟨it', hnext, hb'⟩ := hc.next (Heap.Counted.refl s.heap) hb
      have hrest := hc.collect places pairs it' fuel hb' htail (Nat.le_of_succ_le_succ hfuel)
      unfold Index.Iterator.collect
      simp only [hleaf, hpair, hhead, hnext, hrest, Option.bind_eq_bind, Option.bind_some]

/-- So does a reverse iterator. -/
theorem collectReverse (hc : Chained T s leaves) : ∀ (places : List (NodeId × ℕ))
    (pairs : List (ℤ × P)) (it : Index.ReverseIterator) (fuel : ℕ), it.Before s.heap leaves places →
    places.map s.heap.readPlace = pairs.map some → places.length ≤ fuel →
    it.collect s.heap fuel = some pairs
  | [], pairs, it, fuel, hb, hread, _ => by
      obtain rfl := List.map_eq_nil_iff.mp hread.symm
      unfold Index.ReverseIterator.collect
      rw [hb.1]
  | place :: places, [], _, _, _, hread, _ => by cases hread
  | place :: places, pair :: pairs, it, fuel, hb, hread, hfuel => by
      obtain ⟨fuel, rfl⟩ :=
        Nat.exists_eq_succ_of_ne_zero (Nat.lt_of_lt_of_le (Nat.succ_pos _) hfuel).ne'
      obtain ⟨hleaf, hpair⟩ := hb.read
      obtain ⟨hhead, htail⟩ := List.cons.inj hread
      obtain ⟨it', hnext, hb'⟩ := hc.nextReverse hb
      have hrest := hc.collectReverse places pairs it' fuel hb' htail (Nat.le_of_succ_le_succ hfuel)
      unfold Index.ReverseIterator.collect
      simp only [hleaf, hpair, hhead, hnext, hrest, Option.bind_eq_bind, Option.bind_some]

/-- The positions hold as many pairs. -/
theorem length_places (hc : Chained T s leaves) :
    (s.heap.placesOf leaves).length = (s.heap.pairsOf leaves).length := by
  have hread := congrArg List.length (hc.readPlace_placesOf (List.Subset.refl leaves))
  rwa [List.length_map, List.length_map] at hread

/-- From the first leaf on, an iterator reads all pairs. -/
theorem collect_first (hc : Chained T s leaves) {x : NodeId} (hx : leaves.head? = some x) :
    ∃ it, Index.Iterator.new s.heap x 0 = some it ∧
      ∀ fuel, (s.heap.pairsOf leaves).length ≤ fuel →
        it.collect s.heap fuel = some (s.heap.pairsOf leaves) := by
  obtain ⟨B, hB⟩ := List.head?_eq_some_iff.mp hx
  have hl : leaves = [] ++ x :: B := hB
  obtain ⟨n, hn, hfree, -⟩ := hc.at_split hl
  obtain ⟨it, hnew, hb⟩ := hc.newIterator (Heap.Counted.refl s.heap) hl hn hfree.wf.reps.pos
  rw [Heap.placesFrom_zero hn, ← hB] at hb
  refine ⟨it, hnew, fun fuel hfuel => ?_⟩
  exact hc.collect _ _ it fuel hb (hc.readPlace_placesOf (List.Subset.refl leaves))
    (hc.length_places.le.trans hfuel)

/-- From the last position of the last leaf on, a reverse iterator reads all pairs backwards. -/
theorem collect_last (hc : Chained T s leaves) {x : NodeId} (hx : leaves.getLast? = some x) :
    ∃ n it, s.heap.dataAt x = some n ∧
      Index.ReverseIterator.new s.heap x (n.dataCapacity - 1) = some it ∧
      ∀ fuel, (s.heap.pairsOf leaves).length ≤ fuel →
        it.collect s.heap fuel = some (s.heap.pairsOf leaves).reverse := by
  obtain ⟨A, hA⟩ := List.getLast?_eq_some_iff.mp hx
  have hl : leaves = A ++ x :: [] := hA
  obtain ⟨n, hn, hfree, -⟩ := hc.at_split hl
  have hpos := hfree.wf.reps.pos
  have hcap := hfree.wf.reps.cap
  obtain ⟨it, hnew, hb⟩ := hc.newReverse hl hn (show n.dataCapacity - 1 < n.dataCapacity by omega)
  have hend : n.dataCapacity - 1 + 1 = n.view.cap := by omega
  rw [hend, Heap.placesBelow_cap hn, ← hA] at hb
  refine ⟨n, it, hn, hnew, fun fuel hfuel => ?_⟩
  refine hc.collectReverse _ _ it fuel hb ?_ ?_
  · rw [List.map_reverse, hc.readPlace_placesOf (List.Subset.refl leaves), List.map_reverse]
  · rw [List.length_reverse]
    exact hc.length_places.le.trans hfuel

end Chained

/-! ### After bulk loading -/

namespace LoadedIndex

theorem chained (hl : LoadedIndex T s order values) : Chained T s (s.heap.leavesOf order) := by
  obtain ⟨par, hg⟩ := hl.good
  exact hg.chained hl.ready

/-- The first and the last data node are the ends of the leaf list. -/
theorem ends (hl : LoadedIndex T s order values) : ∃ first last,
    (s.heap.leavesOf order).head? = some first ∧ (s.heap.leavesOf order).getLast? = some last ∧
      s.firstDataNode = some first ∧ s.lastDataNode = some last := by
  obtain ⟨par, hg⟩ := hl.good
  obtain ⟨first, last, hfirst, hlast, hrun⟩ := Index.outermost_ends hl.forest
    (fun x hx m hm => hg.tree.model x hx m (Heap.frame_model hm))
  obtain ⟨h1, h2⟩ := hrun (s.heap.length + 1)
    ((Index.length_order_le hl.forest hl.nodup).trans (Nat.le_succ _))
  exact ⟨first, last, hfirst, hlast, h1, h2⟩

/-- Forward iteration. -/
theorem begin_collect (hl : LoadedIndex T s order values) : ∃ it, s.begin = some it ∧
    ∀ fuel, values.length ≤ fuel → it.collect s.heap fuel = some values := by
  obtain ⟨first, last, hfirst, -, hnode, -⟩ := hl.ends
  obtain ⟨it, hnew, hrun⟩ := hl.chained.collect_first hfirst
  rw [hl.pairs] at hrun
  refine ⟨it, ?_, hrun⟩
  unfold Index.begin
  rw [hnode, Option.bind_eq_bind, Option.bind_some, hnew]

/-- Backward iteration. -/
theorem rbegin_collect (hl : LoadedIndex T s order values) : ∃ it, s.rbegin = some it ∧
    ∀ fuel, values.length ≤ fuel → it.collect s.heap fuel = some values.reverse := by
  obtain ⟨first, last, -, hlast, -, hnode⟩ := hl.ends
  obtain ⟨n, it, hn, hnew, hrun⟩ := hl.chained.collect_last hlast
  rw [hl.pairs] at hrun
  refine ⟨it, ?_, hrun⟩
  unfold Index.rbegin
  simp only [hnode, hn, Option.bind_eq_bind, Option.bind_some]
  exact hnew

/-- `NodeIterator` visits every node of the tree once. -/
theorem nodesFrom_root (hl : LoadedIndex T s order values) {fuel : ℕ}
    (hfuel : order.length ≤ fuel) :
    Index.nodesFrom s.heap fuel [s.rootNode] = some order :=
  (Index.nodesFrom_eq_visit _ _ _).trans (hl.forest.visit_eq hfuel)

end LoadedIndex

namespace Index

/-- **Iteration enumerates a loaded index**, whatever the costs are: forwards in key order,
backwards in the reverse order, and over every node of the tree once. -/
theorem bulkLoad_iterates [NodeModel M] {C : Params M P} (hC : CheapSingles C)
    (hslots : 2 ≤ C.maxDataNodeSlots)
    (hs : values.Pairwise (fun v w => v.1 < w.1)) (hmax : ∀ v ∈ values, v.1 ≤ C.T.max)
    {s₀ : Index M P} (hempty : s₀.numKeys ≤ 0) (hnew : values = [] → Index.new C = some s₀) :
    ∃ s N, (∀ fuel, N ≤ fuel → s₀.bulkLoad C fuel values = some s) ∧
      (∃ it, s.begin = some it ∧ ∀ fuel, N ≤ fuel → it.collect s.heap fuel = some values) ∧
      (∃ it, s.rbegin = some it ∧ ∀ fuel, N ≤ fuel → it.collect s.heap fuel = some values.reverse) ∧
      ∃ nodes, (∀ fuel, N ≤ fuel → nodesFrom s.heap fuel [s.rootNode] = some nodes) ∧
        nodes.Nodup ∧ ∀ x, x ∈ nodes ↔ s.InTree x := by
  obtain ⟨s, order, N, hload, hl⟩ := bulkLoad_loaded hC hslots hs hmax hempty hnew
  obtain ⟨it, hit, hrun⟩ := hl.begin_collect
  obtain ⟨it', hit', hrun'⟩ := hl.rbegin_collect
  refine ⟨s, max N (max values.length order.length), fun fuel hfuel => ?_,
    ⟨it, hit, fun fuel hfuel => ?_⟩,
    ⟨it', hit', fun fuel hfuel => ?_⟩, order, fun fuel hfuel => ?_, hl.nodup,
      fun x => hl.inTree_iff.symm⟩
  · exact hload fuel (by omega)
  · exact hrun fuel (by omega)
  · exact hrun' fuel (by omega)
  · exact hl.nodesFrom_root (by omega)

theorem threePairs_iterate : ∃ s₀ s N, Index.new smallParams = some s₀ ∧
    (∀ fuel, N ≤ fuel → s₀.bulkLoad smallParams fuel threePairs = some s) ∧
      (∃ it, s.begin = some it ∧ ∀ fuel, N ≤ fuel → it.collect s.heap fuel = some threePairs) ∧
      (∃ it, s.rbegin = some it ∧ ∀ fuel, N ≤ fuel →
        it.collect s.heap fuel = some threePairs.reverse) ∧
      ∃ nodes, (∀ fuel, N ≤ fuel → nodesFrom s.heap fuel [s.rootNode] = some nodes) ∧
        nodes.Nodup ∧ ∀ x, x ∈ nodes ↔ s.InTree x := by
  obtain ⟨s₀, hnew, hnum, -⟩ := new_spec smallParams
  obtain ⟨s, N, h⟩ := bulkLoad_iterates smallParams_cheap (by decide) threePairs_sorted
    threePairs_le hnum.le (fun _ => hnew)
  exact ⟨s₀, s, N, hnew, h⟩

end Index

end LearnedIndex.Alexol
