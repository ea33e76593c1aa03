import LearnedIndex.Alexol.DoublesDescent
import LearnedIndex.Alexol.LeafSwap
import LearnedIndex.Alexol.WellFormed

/-! # The chain of leaves

Scans and iterators never look at the tree: after `get_leaf` they follow the links of the leaves.
`Chained` is what they rely on.  The leaves are well formed, linked in key order and not locked, no
key is stored twice, and `get_leaf` ends in one of them, whatever the doubles predict.  An index
that satisfies the invariant is of this kind (`Good.chained`). -/

namespace LearnedIndex.Alexol

open LearnedIndex.Chains

variable {M P : Type}

namespace Heap

/-- The pairs of some leaves, from left to right. -/
def pairsOf (h : Heap M P) (leaves : List NodeId) : List (ℤ × P) :=
  leaves.flatMap (fun x => ((h.dataAt x).map DataNode.pairs).getD [])

variable {h : Heap M P}

@[simp] theorem pairsOf_nil : h.pairsOf [] = [] := rfl

theorem pairsOf_cons {x : NodeId} {n : DataNode M P} (hn : h.dataAt x = some n)
    (l : List NodeId) : h.pairsOf (x :: l) = n.pairs ++ h.pairsOf l := by
  unfold pairsOf
  rw [List.flatMap_cons, hn]
  rfl

theorem pairsOf_append (l l' : List NodeId) : h.pairsOf (l ++ l') = h.pairsOf l ++ h.pairsOf l' :=
  List.flatMap_append

theorem mem_pairsOf {leaves : List NodeId} {e : ℤ × P} :
    e ∈ h.pairsOf leaves ↔ ∃ x ∈ leaves, ∃ n, h.dataAt x = some n ∧ e ∈ n.pairs := by
  unfold pairsOf
  rw [List.mem_flatMap]
  refine exists_congr (fun x => and_congr_right (fun _ => ?_))
  cases h.dataAt x with
  | none => simp
  | some n => simp

end Heap

/-- A heap whose leaves differ in their lookup counters only. -/
def Heap.Counted (h h' : Heap M P) : Prop :=
  ∀ x n, h.dataAt x = some n → ∃ a b, h'.dataAt x = some (n.withCounters a b)

theorem Heap.Counted.refl (h : Heap M P) : h.Counted h :=
  fun _ n hn => ⟨n.numLookups, n.numExpSearchIterations, hn⟩

theorem Heap.Counted.setData {h h' : Heap M P} (hc : h.Counted h') {x : NodeId}
    {n : DataNode M P} (hn : h.dataAt x = some n) (a b : ℕ) :
    h.Counted (h'.setData x (n.withCounters a b)) := by
  intro y m hm
  obtain ⟨c, d, hx⟩ := hc x n hn
  rw [Heap.dataAt_setData hx]
  by_cases hy : y = x
  · rw [hy] at hm ⊢
    obtain rfl := Option.some.inj (hn.symm.trans hm)
    exact ⟨a, b, Function.update_self ..⟩
  · rw [Function.update_of_ne hy]
    exact hc y m hm

/-- Every leaf is a node of it. -/
theorem Heap.Counted.lt_length {h h' : Heap M P} (hc : h.Counted h') {x : NodeId}
    {n : DataNode M P} (hn : h.dataAt x = some n) : x < h'.length := by
  obtain ⟨a, b, hx⟩ := hc x n hn
  exact (List.getElem?_eq_some_iff.mp (Heap.dataAt_eq_some.mp hx)).1

section
variable {T : KeyType} {s : Index M P} {live : Set NodeId} {par : NodeId → NodeId}
  {leaves : List NodeId}

/-- A well-formed leaf that is not locked. -/
structure LeafFree (T : KeyType) (n : DataNode M P) : Prop where
  wf : n.WellFormed T
  free : isSet n.lock = false

/-- The leaves of an index with one thread, linked in key order. -/
structure Chained (T : KeyType) (s : Index M P) (leaves : List NodeId) : Prop where
  nodup : leaves.Nodup
  linked : Linked s.heap.prev s.heap.next none leaves none
  leaf : ∀ x ∈ leaves, ∃ n, s.heap.dataAt x = some n ∧ LeafFree T n
  sorted : (s.heap.pairsOf leaves).Pairwise (fun a b => a.1 < b.1)
  reach : ∀ (D : Doubles) (key : ℤ), ∃ x ∈ leaves, s.getLeafOn D key = some x

/-- The place of the leaf that `get_leaf` returns. -/
theorem Chained.getLeafOn (h : Chained T s leaves) (D : Doubles) (key : ℤ) :
    ∃ A x B, leaves = A ++ x :: B ∧ s.getLeafOn D key = some x := by
  obtain ⟨x, hx, hget⟩ := h.reach D key
  obtain ⟨A, B, hl⟩ := List.append_of_mem hx
  exact ⟨A, x, B, hl, hget⟩

/-- The leaves before, at and behind a place of a chain. -/
theorem Chained.at_split (h : Chained T s leaves) {A B : List NodeId} {x : NodeId}
    (hl : leaves = A ++ x :: B) : ∃ n, s.heap.dataAt x = some n ∧ LeafFree T n ∧
      n.pairs.Pairwise (fun a b => a.1 < b.1) ∧ n.nextLeaf = B.head? ∧ n.prevLeaf = A.getLast? := by
  obtain ⟨n, hn, hfree⟩ := h.leaf x (by rw [hl]; simp)
  have hsorted := h.sorted
  have hlinked := h.linked
  rw [hl, Heap.pairsOf_append, Heap.pairsOf_cons hn] at hsorted
  rw [hl] at hlinked
  have hsx := (List.pairwise_append.mp hsorted).2.1
  obtain ⟨hprev, hnext, _⟩ := (linked_append.mp hlinked).2
  refine ⟨n, hn, hfree, (List.pairwise_append.mp hsx).1, ?_, ?_⟩
  · rw [Option.or_none] at hnext
    rw [← hnext]
    unfold Heap.next
    rw [hn, Option.bind_some]
  · rw [Option.or_none] at hprev
    rw [← hprev]
    unfold Heap.prev
    rw [hn, Option.bind_some]

/-- There are no more leaves than nodes. -/
theorem Chained.length_le (h : Chained T s leaves) {h' : Heap M P} (hc : s.heap.Counted h') :
    leaves.length ≤ h'.length := by
  have hsub : leaves ⊆ List.range h'.length := by
    intro x hx
    obtain ⟨n, hn, _⟩ := h.leaf x hx
    exact List.mem_range.mpr (hc.lt_length hn)
  have := (h.nodup.subperm hsub).length_le
  rwa [List.length_range] at this

theorem pairwise_of_split {α : Type} {R : α → α → Prop} : ∀ {l : List α},
    (∀ A x B, l = A ++ x :: B → ∀ y ∈ B, R x y) → l.Pairwise R
  | [], _ => List.Pairwise.nil
  | x :: l, h => List.pairwise_cons.mpr ⟨h [] x l rfl,
      pairwise_of_split (fun A y B hl => h (x :: A) y B (by rw [hl]; rfl))⟩

namespace Good

/-- The pairs of a leaf are inside its range. -/
theorem inside_leaf (hg : Good s live par leaves) {x : NodeId} {n : DataNode M P} (hx : x ∈ leaves)
    (hn : s.heap.dataAt x = some n) {e : ℤ × P} (he : e ∈ n.pairs) :
    Inside (s.heap.lo s.rootNode) (s.heap.hi s.rootNode) (s.heap.lo x) (s.heap.hi x) e.1 := by
  obtain ⟨n', hn', hok⟩ := hg.list.leaf x hx
  obtain rfl := Option.some.inj (hn.symm.trans hn')
  rw [Heap.lo_data hn, Heap.hi_data hn]
  exact hok.inside e he

/-- With a leaf behind another every range has keys. -/
theorem strict_split (hg : Good s live par leaves) {A B : List NodeId} {x y : NodeId}
    (hl : leaves = A ++ x :: B) (hy : y ∈ B) :
    ∀ z ∈ A ++ x :: B, s.heap.lo z < s.heap.hi z := by
  have hnd := hg.list.nodup
  rw [hl] at hnd
  have hne : x ≠ y := by
    rintro rfl
    exact (List.nodup_cons.mp (List.nodup_append.mp hnd).2.1).1 hy
  have hlt := hg.list.lt (x := x) (y := y) (by rw [hl]; simp) (by rw [hl]; simp [hy]) hne
  rwa [hl] at hlt

/-- A key of one leaf lies below every key of a leaf behind it. -/
theorem lt_behind (hg : Good s live par leaves) {A B : List NodeId} {x : NodeId}
    (hl : leaves = A ++ x :: B) {key : ℤ}
    (hin : Inside (s.heap.lo s.rootNode) (s.heap.hi s.rootNode) (s.heap.lo x) (s.heap.hi x) key)
    {e : ℤ × P} (he : e ∈ s.heap.pairsOf B) : key < e.1 := by
  obtain ⟨y, hy, n, hn, hp⟩ := Heap.mem_pairsOf.mp he
  have hspans := hg.list.spans
  rw [hl] at hspans
  exact hspans.lt_of_inside (hg.strict_split hl hy) hy hin
    (hg.inside_leaf (by rw [hl]; simp [hy]) hn hp)

/-- A key of one leaf lies above every key of a leaf before it. -/
theorem lt_before (hg : Good s live par leaves) {A B : List NodeId} {x : NodeId}
    (hl : leaves = A ++ x :: B) {key : ℤ}
    (hin : Inside (s.heap.lo s.rootNode) (s.heap.hi s.rootNode) (s.heap.lo x) (s.heap.hi x) key)
    {e : ℤ × P} (he : e ∈ s.heap.pairsOf A) : e.1 < key := by
  obtain ⟨y, hy, n, hn, hp⟩ := Heap.mem_pairsOf.mp he
  obtain ⟨A₁, A₂, rfl⟩ := List.append_of_mem hy
  have hl' : leaves = A₁ ++ y :: (A₂ ++ x :: B) := by rw [hl]; simp
  have hspans := hg.list.spans
  rw [hl'] at hspans
  have hx : x ∈ A₂ ++ x :: B := by simp
  exact hspans.lt_of_inside (hg.strict_split hl' hx) hx
    (hg.inside_leaf (by rw [hl']; simp) hn hp) hin

/-- An index that satisfies the invariant has its leaves in a chain. -/
theorem chained (hg : Good s live par leaves) (hready : s.Each leaves (DataNode.Ready T)) :
    Chained T s leaves := by
  have hleaf : ∀ x ∈ leaves, ∃ n, s.heap.dataAt x = some n ∧ n.Ready T := by
    intro x hx
    obtain ⟨n, hn, _⟩ := hg.list.leaf x hx
    exact ⟨n, hn, hready x hx n hn⟩
  refine ⟨hg.list.nodup, hg.list.linked, fun x hx => ?_, ?_, hg.getLeafOn⟩
  · obtain ⟨n, hn, hr⟩ := hleaf x hx
    exact ⟨n, hn, DataNode.wellFormed_iff.mpr hr.stores.holds, hr.free⟩
  · refine List.pairwise_flatMap.mpr ⟨fun x hx => ?_, ?_⟩
    · obtain ⟨n, hn, hr⟩ := hleaf x hx
      rw [hn]
      exact hr.stores.sorted
    · refine pairwise_of_split (fun A x B hl y hy e he e' he' => ?_)
      obtain ⟨n, hn, _⟩ := hleaf x (by rw [hl]; simp)
      rw [hn] at he
      refine hg.lt_behind hl (hg.inside_leaf (by rw [hl]; simp) hn he) ?_
      exact List.mem_flatMap.mpr ⟨y, hy, he'⟩

end Good

/-! ### A single leaf -/

/-- An index whose root is a leaf. -/
def Index.ofLeaf (n : DataNode M P) : Index M P where
  heap := [.data n,
    .model { ModelNode.new (n.level - 1) with numChildren := 1, children := [some 0] }]
  rootNode := 0
  superroot := 1
  numKeys := n.numKeys
  insertCounter := 0
  eraseCounter := 0
  keyDomainMin := 0
  keyDomainMax := 0
  numKeysAboveKeyDomain := 0
  numKeysBelowKeyDomain := 0
  numKeysAtLastRightDomainResize := n.numKeys
  numKeysAtLastLeftDomainResize := n.numKeys
  retired := []

theorem pairsOf_ofLeaf (n : DataNode M P) : (Index.ofLeaf n).heap.pairsOf [0] = n.pairs := by
  have hx : (Index.ofLeaf n).heap.dataAt 0 = some n := rfl
  rw [Heap.pairsOf_cons hx, Heap.pairsOf_nil, List.append_nil]

theorem Chained.ofLeaf {n : DataNode M P} (hn : LeafFree T n)
    (hs : n.pairs.Pairwise (fun a b => a.1 < b.1)) (hprev : n.prevLeaf = none)
    (hnext : n.nextLeaf = none) : Chained T (Index.ofLeaf n) [0] := by
  have hx : (Index.ofLeaf n).heap.dataAt 0 = some n := rfl
  refine ⟨List.nodup_singleton 0, ⟨hprev, hnext, trivial⟩, fun x hx' => ?_,
    by rwa [pairsOf_ofLeaf], fun D key => ⟨0, List.mem_singleton_self 0, rfl⟩⟩
  rw [List.mem_singleton.mp hx']
  exact ⟨n, hx, hn⟩

theorem threeKeys_chained : ∃ n, DataNode.threeKeys = some n ∧
    Chained KeyType.uint64 (Index.ofLeaf n) [0] := by
  obtain ⟨n, hn, hwf⟩ := DataNode.threeKeys_wellFormed
  have hfields : DataNode.threeKeys.map (fun n => (n.pairs, isSet n.lock, n.prevLeaf, n.nextLeaf)) =
      some ([(1, 10), (2, 20), (3, 30)], false, none, none) := by decide +kernel
  rw [hn, Option.map_some, Option.some.injEq, Prod.mk.injEq, Prod.mk.injEq,
    Prod.mk.injEq] at hfields
  obtain ⟨hpairs, hlock, hprev, hnext⟩ := hfields
  refine ⟨n, hn, Chained.ofLeaf ⟨hwf, hlock⟩ ?_ hprev hnext⟩
  rw [hpairs]
  decide

end

end LearnedIndex.Alexol
