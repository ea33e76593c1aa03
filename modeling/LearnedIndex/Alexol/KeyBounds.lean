import LearnedIndex.Alexol.BitmapBounds
import LearnedIndex.Alexol.Enumeration
import LearnedIndex.Alexol.FilledBounds
import LearnedIndex.Alexol.PointOps

/-! # Iterators at a key: `lower_bound`, `upper_bound`, `find` and `count`

The bounds search the leaf of the key and make an iterator at the position found.  Above the last
key of a leaf whose capacity is a multiple of 64 the search reads the word behind the bitmap
(`FilledBounds`), and the position is the capacity or lies behind it, whatever the word is: the
iterator begins in the next leaf all the same (`Holds.findLower_past`).  So from the bounds on an
iterator reads exactly the pairs whose keys are on the right side (`Content.lowerBound`,
`Content.upperBound`). -/

namespace LearnedIndex.Alexol

open LearnedIndex.Words LearnedIndex.Chains

/-! ### A search that ends at the capacity -/

/-- A scan that begins at the last word, or behind it, ends there. -/
theorem Slots.scanWords_last {P : Type} (s : Slots P) {idx : ℕ} (h : s.bitmapSize ≤ idx + 1)
    (fuel : ℕ) (data : Word) :
    s.scanWords fuel idx data = some (if data = 0#64 then none else some (idx, data)) := by
  unfold Slots.scanWords
  by_cases hz : data = 0#64
  · simp only [if_pos hz, if_pos h]
  · simp only [if_neg hz]

/-- From the capacity on nothing is found, whatever lies behind the bitmap. -/
theorem Reps.getNextFilledPosition_past {P : Type} {s : Slots P} {v : View P} (h : Reps s v)
    (w : Word) : ∃ pos, s.getNextFilledPosition (some w) v.cap false = some pos ∧ v.cap ≤ pos := by
  have hsize := h.size
  by_cases hd : 64 ∣ v.cap
  · have hidx : v.cap / 64 = s.bitmapSize := by omega
    have hword : s.wordAt (some w) (v.cap / 64) = some w := by
      unfold Slots.wordAt
      rw [if_pos hidx]
    unfold Slots.getNextFilledPosition
    simp only [Bool.false_eq_true, false_and, if_false, Reps.shift_div, Reps.shift_mod, hword,
      Option.bind_eq_bind, Option.bind_some]
    obtain ⟨data, hdata⟩ : ∃ data, data = w &&& ~~~((1#64 <<< (v.cap % 64)) - 1#64) := ⟨_, rfl⟩
    rw [← hdata, s.scanWords_last (by omega)]
    by_cases hz : data = 0#64
    · rw [if_pos hz]
      exact ⟨_, rfl, h.cap.ge⟩
    · rw [if_neg hz]
      refine ⟨_, rfl, ?_⟩
      rw [getOffset_extractRightmostOne hz]
      omega
  · have hidx : v.cap / 64 ≠ s.bitmapSize := by omega
    have hcap := h.getNextFilledPosition_cap
    rw [if_neg hd] at hcap
    refine ⟨v.cap, ?_, le_refl _⟩
    rw [← hcap]
    unfold Slots.getNextFilledPosition
    simp only [Bool.false_eq_true, false_and, if_false, Reps.shift_div,
      Slots.wordAt_of_ne hidx (some w)]

namespace DataNode

variable {M P : Type} {T : KeyType} {n : DataNode M P} {v : View P} {k : ℕ → ℤ}

/-- The pairs from the position on are those that pass the test. -/
structure Begins (v : View P) (test : ℤ → Bool) (pos : ℕ) : Prop where
  seg : v.seg pos v.cap = v.entries.filter (fun e => test e.1)
  filled : pos < v.cap → v.bit pos = true

theorem Holds.seg_cut (h : Holds T n v k) {below : ℤ → Prop} {c : ℕ} (hc : v.CutAt k below c)
    {test : ℤ → Bool} (htest : ∀ x, test x = true ↔ ¬ below x) :
    v.seg c v.cap = v.entries.filter (fun e => test e.1) := by
  obtain ⟨hsplit, hlow, hhigh⟩ := h.gapped.entries_cut hc
  rw [hsplit, List.filter_append, List.filter_eq_nil_iff.mpr, List.nil_append,
    List.filter_eq_self.mpr]
  · exact fun e he => (htest e.1).mpr (hhigh e he)
  · exact fun e he ht => (htest e.1).mp ht (hlow e he)

/-- The scan after a search, whatever lies behind the bitmap. -/
theorem Holds.nextFilled_past (h : Holds T n v k) {below : ℤ → Prop} {c : ℕ}
    (hc : v.CutAt k below c) (test : ℤ → Bool) (htest : ∀ x, test x = true ↔ ¬ below x) (w : Word) :
    ∃ pos, n.getNextFilledPosition (some w) c false = some pos ∧ Begins v test pos := by
  have hseg := h.seg_cut hc htest
  rcases Nat.lt_or_ge c v.cap with hlt | hge
  · obtain ⟨pos, he, hcp, hp, hb, hgap⟩ := h.reps.getNextFilledPosition_spec (some w)
      (show (if false then c + 1 else c) < v.cap from hlt)
    simp only [Bool.false_eq_true, if_false] at hcp hgap
    refine ⟨pos, he, ?_, hb⟩
    rw [← hseg, View.seg_append hcp hp, View.seg_gaps hgap, List.nil_append]
  · obtain rfl : c = v.cap := le_antisymm hc.le hge
    obtain ⟨pos, he, hp⟩ := h.reps.getNextFilledPosition_past w
    refine ⟨pos, he, ?_, fun hlt => absurd hlt (not_lt.mpr hp)⟩
    rw [← hseg, View.seg_empty hp, View.seg_empty (le_refl _)]

variable [NodeModel M]

/-- What a search of a data node gives: a position, and the node with new lookup counters. -/
def Searches (n : DataNode M P) (v : View P) (test : ℤ → Bool)
    (found : Option (ℕ × DataNode M P)) : Prop :=
  ∃ pos a b, found = some (pos, n.withCounters a b) ∧ Begins v test pos

theorem Holds.findLower_past (h : Holds T n v k) (key : ℤ) (w : Word) :
    n.Searches v (fun x => decide (key ≤ x)) (n.findLower (some w) key) := by
  obtain ⟨c, hc⟩ := h.exists_lower key
  obtain ⟨a, b, he⟩ := h.lowerBound hc
  obtain ⟨pos, hpos, hb⟩ := h.nextFilled_past hc (fun x => decide (key ≤ x))
    (fun x => by simp) w
  have hpos' : (n.withCounters a b).getNextFilledPosition (some w) c false = some pos := hpos
  refine ⟨pos, a, b, ?_, hb⟩
  unfold DataNode.findLower
  simp only [he, hpos', Option.bind_eq_bind, Option.bind_some]

theorem Holds.findUpper_past (h : Holds T n v k) (key : ℤ) (w : Word) :
    n.Searches v (fun x => decide (key < x)) (n.findUpper (some w) key) := by
  obtain ⟨c, hc⟩ := h.exists_upper key
  obtain ⟨a, b, he⟩ := h.upperBound hc
  obtain ⟨pos, hpos, hb⟩ := h.nextFilled_past hc (fun x => decide (key < x))
    (fun x => by simp) w
  have hpos' : (n.withCounters a b).getNextFilledPosition (some w) c false = some pos := hpos
  refine ⟨pos, a, b, ?_, hb⟩
  unfold DataNode.findUpper
  simp only [he, hpos', Option.bind_eq_bind, Option.bind_some]

omit [NodeModel M] in
/-- The position of a stored key. -/
theorem Stores.begins (h : Stores T n) (hh : Holds T n v k) {i : ℕ} {key : ℤ} (hi : i < v.cap)
    (hb : v.bit i = true) (hk : k i = key) :
    Begins v (fun x => decide (key ≤ x)) i ∧ ∃ p, v.cell i = some (key, p) := by
  obtain ⟨p, -, hcell⟩ := hh.gapped.cell hi hb
  rw [hk] at hcell
  have hsorted := h.sorted
  have hsplit : n.pairs = v.seg 0 i ++ v.seg i v.cap := by
    rw [hh.pairs_eq]
    exact View.seg_append (Nat.zero_le _) hi.le
  have hseg : v.seg i v.cap = (key, p) :: v.seg (i + 1) v.cap := by
    rw [View.seg_append (Nat.le_succ i) hi, View.seg_single, hcell]
    rfl
  rw [hsplit, hseg] at hsorted
  refine ⟨⟨?_, fun _ => hb⟩, p, hcell⟩
  rw [← hh.pairs_eq, hsplit, hseg, List.filter_append, List.filter_eq_nil_iff.mpr,
    List.nil_append, List.filter_eq_self.mpr]
  · intro e he
    rw [decide_eq_true_iff]
    rcases List.mem_cons.mp he with rfl | he
    · exact le_refl _
    · exact ((List.pairwise_cons.mp (List.pairwise_append.mp hsorted).2.1).1 e he).le
  · intro e he hle
    have hlt := (List.pairwise_append.mp hsorted).2.2 e he _ (List.mem_cons_self ..)
    exact absurd (of_decide_eq_true hle) (not_le.mpr hlt)

end DataNode

/-! ### The operations -/

section
variable {M P : Type}

namespace Index

/-- The pairs that an iterator reads with the key, one after another. -/
def countFrom (h : Heap M P) (key : ℤ) : ℕ → Iterator → Option ℕ
  | fuel, it =>
      match it.curLeaf with
      | none => some 0
      | some _ => do
          let pair ← it.read h
          if pair.1 = key then
            match fuel with
            | 0 => none
            | fuel + 1 => do
                let it ← it.next h
                (countFrom h key fuel it).map (· + 1)
          else some 0

variable [NodeModel M]

/-- `Iterator(leaf, idx)` at the position that a search of the leaf of the key gives. -/
def iteratorAt (search : DataNode M P → ℤ → Option (ℕ × DataNode M P)) (s : Index M P) (key : ℤ) :
    Option (Iterator × Index M P) := do
  let leaf ← s.getLeaf key
  let n ← s.heap.dataAt leaf
  let (idx, n) ← search n key
  let it ← Iterator.new (s.heap.setData leaf n) leaf idx
  some (it, { s with heap := s.heap.setData leaf n })

/-- `lower_bound`. -/
def lowerBound (C : Params M P) (s : Index M P) (key : ℤ) : Option (Iterator × Index M P) :=
  s.iteratorAt (fun n key => n.findLower (some (C.past n.toSlots)) key) key

/-- `upper_bound`. -/
def upperBound (C : Params M P) (s : Index M P) (key : ℤ) : Option (Iterator × Index M P) :=
  s.iteratorAt (fun n key => n.findUpper (some (C.past n.toSlots)) key) key

/-- `find`: an iterator at the right-most pair with the key, or the end. -/
def find (s : Index M P) (key : ℤ) : Option (Iterator × Index M P) := do
  let leaf ← s.getLeaf key
  let n ← s.heap.dataAt leaf
  let (idx, n) ← n.findKey key
  match idx with
  | none => some (Iterator.atEnd, { s with heap := s.heap.setData leaf n })
  | some idx => do
      let it ← Iterator.new (s.heap.setData leaf n) leaf idx
      some (it, { s with heap := s.heap.setData leaf n })

/-- `count`. -/
def count (C : Params M P) (fuel : ℕ) (s : Index M P) (key : ℤ) : Option (ℕ × Index M P) := do
  let (it, s) ← s.lowerBound C key
  let numEqual ← countFrom s.heap key fuel it
  some (numEqual, s)

end Index

end

/-! ### Positions of the chain -/

variable {M P : Type} {T : KeyType} {s : Index M P} {live : Set NodeId}
  {par : NodeId → NodeId} {leaves : List NodeId} {L : NodeId} {n : DataNode M P} {key : ℤ}
  {f : ℤ → Option P}

/-- An iterator of an index that reads the pairs, one after another, until the end. -/
def Index.Reads (T : KeyType) (s : Index M P) (it : Index.Iterator) (pairs : List (ℤ × P)) : Prop :=
  ∃ leaves places, Chained T s leaves ∧ it.Before s.heap leaves places ∧
    places.map s.heap.readPlace = pairs.map some

namespace Chained

/-- An iterator can be made at any position; at the capacity or behind it, it begins in the next
leaf. -/
theorem newIterator_any (hc : Chained T s leaves) {A B : List NodeId} (hl : leaves = A ++ L :: B)
    (hn : s.heap.dataAt L = some n) (idx : ℕ) : ∃ it, Index.Iterator.new s.heap L idx = some it ∧
      it.Before s.heap leaves (s.heap.placesFrom L n idx B) := by
  rcases Nat.lt_or_ge idx n.dataCapacity with hlt | hge
  · exact hc.newIterator (Heap.Counted.refl _) hl hn hlt
  · obtain ⟨n', hn', hfree, -, hnext, -⟩ := hc.at_split hl
    obtain rfl := Option.some.inj (hn.symm.trans hn')
    have hnil : n.view.filledFrom idx = [] :=
      View.filledFrom_eq_nil (fun i h1 h2 => absurd h2 (not_lt.mpr (hge.trans h1)))
    have hplaces : s.heap.placesFrom L n idx B = s.heap.placesOf B := by
      unfold Heap.placesFrom
      rw [hnil, List.map_nil, List.nil_append]
    rw [hplaces]
    unfold Index.Iterator.new
    rw [hn, Option.bind_eq_bind, Option.bind_some, if_pos hge, hnext]
    cases B with
    | nil => exact ⟨_, rfl, rfl, rfl⟩
    | cons y B =>
        have hl' : leaves = (A ++ [L]) ++ y :: B := by rw [hl]; simp
        obtain ⟨m, hm, hmfree, -⟩ := hc.at_split hl'
        obtain ⟨it, he, hb⟩ := hc.initAt (Heap.Counted.refl _) hl' hm hmfree.wf.reps.pos
        rw [Heap.placesFrom_zero hm] at hb
        exact ⟨it, he, hb⟩

/-- The filled positions from a position on hold the pairs from it on. -/
theorem readPlace_placesFrom (hc : Chained T s leaves) {A B : List NodeId}
    (hl : leaves = A ++ L :: B) (hn : s.heap.dataAt L = some n) (pos : ℕ) :
    (s.heap.placesFrom L n pos B).map s.heap.readPlace =
      (n.view.seg pos n.view.cap ++ s.heap.pairsOf B).map some := by
  obtain ⟨n', hn', hfree, -⟩ := hc.at_split hl
  obtain rfl := Option.some.inj (hn.symm.trans hn')
  have hread : s.heap.readPlace ∘ (fun i => (L, i)) = n.pairAt := by
    funext i
    show s.heap.readPlace (L, i) = n.pairAt i
    unfold Heap.readPlace
    rw [hn, Option.bind_some]
  unfold Heap.placesFrom
  rw [List.map_append, List.map_append, List.map_map, hread, hfree.wf.holds.pairAt_filledFrom,
    hc.readPlace_placesOf (fun x hx => by rw [hl]; simp [hx])]

end Chained

namespace Index.Reads

variable {it : Index.Iterator} {pairs : List (ℤ × P)}

theorem collect (h : s.Reads T it pairs) {fuel : ℕ} (hfuel : pairs.length ≤ fuel) :
    it.collect s.heap fuel = some pairs := by
  obtain ⟨leaves, places, hc, hb, hread⟩ := h
  have hlen := congrArg List.length hread
  rw [List.length_map, List.length_map] at hlen
  exact hc.collect places pairs it fuel hb hread (by omega)

theorem nil (h : s.Reads T it []) : it.curLeaf = none := by
  obtain ⟨leaves, places, -, hb, hread⟩ := h
  obtain rfl := List.map_eq_nil_iff.mp hread
  exact hb.1

/-- An iterator that is not at the end reads the first pair and steps behind it. -/
theorem cons {pair : ℤ × P} (h : s.Reads T it (pair :: pairs)) : ∃ leaf it',
    it.curLeaf = some leaf ∧ it.read s.heap = some pair ∧ it.next s.heap = some it' ∧
      s.Reads T it' pairs := by
  obtain ⟨leaves, places, hc, hb, hread⟩ := h
  cases places with
  | nil => cases hread
  | cons place places =>
      obtain ⟨hleaf, hpair⟩ := hb.read
      obtain ⟨hhead, htail⟩ := List.cons.inj hread
      obtain ⟨it', hnext, hb'⟩ := hc.next (Heap.Counted.refl s.heap) hb
      exact ⟨_, it', hleaf, hpair.trans hhead, hnext, leaves, places, hc, hb', htail⟩

/-- The pairs with the key that come first are counted. -/
theorem countFrom (key : ℤ) : ∀ {pairs : List (ℤ × P)} {it : Index.Iterator} {fuel : ℕ},
    s.Reads T it pairs → pairs.length ≤ fuel →
    Index.countFrom s.heap key fuel it =
      some (pairs.takeWhile (fun e => decide (e.1 = key))).length
  | [], it, fuel, h, _ => by
      unfold Index.countFrom
      rw [h.nil]
      rfl
  | pair :: pairs, it, 0, _, hfuel => absurd hfuel (Nat.not_succ_le_zero _)
  | pair :: pairs, it, fuel + 1, h, hfuel => by
      obtain ⟨leaf, it', hleaf, hread, hnext, hrest⟩ := h.cons
      have ih := countFrom key hrest (Nat.le_of_succ_le_succ hfuel)
      unfold Index.countFrom
      by_cases hk : pair.1 = key
      · rw [List.takeWhile_cons_of_pos (p := fun e : ℤ × P => decide (e.1 = key))
          (decide_eq_true hk)]
        simp only [hleaf, hread, hnext, ih, if_pos hk, Option.bind_eq_bind, Option.bind_some]
        rfl
      · rw [List.takeWhile_cons_of_neg (p := fun e : ℤ × P => decide (e.1 = key))
          (by rw [decide_eq_true_iff]; exact hk)]
        simp only [hleaf, hread, if_neg hk, Option.bind_eq_bind, Option.bind_some]
        rfl

end Index.Reads

/-! ### The content at a key -/

/-- The pairs of a map whose keys pass the test, in key order. -/
structure Lists (f : ℤ → Option P) (test : ℤ → Bool) (pairs : List (ℤ × P)) : Prop where
  sorted : pairs.Pairwise (fun a b => a.1 < b.1)
  mem : ∀ k p, (k, p) ∈ pairs ↔ test k = true ∧ f k = some p

/-- The test is passed by the keys above the given one and failed by those below it. -/
structure Separates (key : ℤ) (test : ℤ → Bool) : Prop where
  below : ∀ k, k < key → test k = false
  above : ∀ k, key < k → test k = true

theorem separates_le (key : ℤ) : Separates key (fun x => decide (key ≤ x)) :=
  ⟨fun _ h => decide_eq_false (not_le.mpr h), fun _ h => decide_eq_true h.le⟩

theorem separates_lt (key : ℤ) : Separates key (fun x => decide (key < x)) :=
  ⟨fun _ h => decide_eq_false (not_lt.mpr h.le), fun _ h => decide_eq_true h⟩

/-- The pairs that pass the test: those of the leaf of the key that do, and all behind it. -/
theorem Good.filter_pairsOf (hg : Good s live par leaves) (hL : Good.LeafOf s leaves key L n)
    {test : ℤ → Bool} (htest : Separates key test) :
    ∃ A B, leaves = A ++ L :: B ∧ (s.heap.pairsOf leaves).filter (fun e => test e.1) =
      n.pairs.filter (fun e => test e.1) ++ s.heap.pairsOf B := by
  obtain ⟨hmem, hn, hin⟩ := hL
  obtain ⟨A, B, hl⟩ := List.append_of_mem hmem
  rw [← Heap.lo_data hn, ← Heap.hi_data hn] at hin
  have hA : (s.heap.pairsOf A).filter (fun e => test e.1) = [] := by
    refine List.filter_eq_nil_iff.mpr (fun e he ht => ?_)
    rw [htest.below _ (hg.lt_before hl hin he)] at ht
    cases ht
  have hB : (s.heap.pairsOf B).filter (fun e => test e.1) = s.heap.pairsOf B :=
    List.filter_eq_self.mpr (fun e he => htest.above _ (hg.lt_behind hl hin he))
  refine ⟨A, B, hl, ?_⟩
  rw [hl, Heap.pairsOf_append, Heap.pairsOf_cons hn, List.filter_append, List.filter_append, hA, hB,
    List.nil_append]

namespace Index.Content

/-- What a lookup of the key finds at a position of its leaf: the content is left as it is, and an
iterator at the position reads the pairs that pass the test. -/
theorem atPosition (h : s.Content T f) (key : ℤ) : ∃ L n, s.getLeaf key = some L ∧
    s.heap.dataAt L = some n ∧ n.Ready T ∧ (∀ p, f key = some p ↔ (key, p) ∈ n.pairs) ∧
    ∀ a b, Content T { s with heap := s.heap.setData L (n.withCounters a b) } f ∧
      ∀ test pos, Separates key test → DataNode.Begins n.view test pos → ∃ it pairs,
        Iterator.new (s.heap.setData L (n.withCounters a b)) L pos = some it ∧
          Reads T { s with heap := s.heap.setData L (n.withCounters a b) } it pairs ∧
          Lists f test pairs ∧ (∀ e, n.view.cell pos = some e → pairs.head? = some e) := by
  obtain ⟨live, par, leaves, L, n, hg, hready, hget, hL, hn, hf, hst⟩ := h.leaf key
  refine ⟨L, n, hget, hL.2.1, hn, hf, fun a b => ?_⟩
  have hplace : (n.withCounters a b).SamePlace n := ⟨rfl, rfl, rfl, rfl, rfl, rfl, rfl, rfl, rfl⟩
  have hready' : (n.withCounters a b).Ready T :=
    ⟨hn.stores.congr rfl rfl, hn.room.congr rfl rfl rfl, hn.free⟩
  have hpairs : (n.withCounters a b).pairs = n.pairs := DataNode.pairs_congr rfl
  have hb := Rebinds.of_eq hpairs hf
  have hg' := hg.rebind hL hplace hb
  have hL' := hL.setLeaf hplace
  have heach := Good.each_setLeaf hL hready hready'
  have hst' : ∀ k p, Index.Stored { s with heap := s.heap.setData L (n.withCounters a b) } leaves
      (k, p) ↔ f k = some p := by
    intro k p
    rw [hg.stored_setLeaf hL hb, hst]
    by_cases hk : k = key
    · rw [if_pos hk, hk]
    · rw [if_neg hk]
  refine ⟨⟨live, par, leaves, hg', heach, hst'⟩, fun test pos htest hpos => ?_⟩
  have hc := hg'.chained heach
  obtain ⟨A, B, hl, hfilter⟩ := hg'.filter_pairsOf hL' htest
  obtain ⟨it, hnew, hbefore⟩ := hc.newIterator_any hl hL'.2.1 pos
  have hh := (DataNode.wellFormed_iff.mpr hn.stores.holds).holds
  have hseg : n.view.seg pos n.view.cap = n.pairs.filter (fun e => test e.1) := by
    rw [hh.pairs_eq]
    exact hpos.seg
  have hview : (n.withCounters a b).view = n.view := rfl
  have hread := hc.readPlace_placesFrom hl hL'.2.1 pos
  rw [hview, hseg, ← hpairs, ← hfilter] at hread
  refine ⟨it, _, hnew, ⟨leaves, _, hc, hbefore, hread⟩, ⟨hc.sorted.filter _, fun k p => ?_⟩,
    fun e he => ?_⟩
  · rw [List.mem_filter, ← hst', Heap.mem_pairsOf, and_comm]
    rfl
  · have hlt : pos < n.view.cap := by
      by_contra hge
      rw [View.cell_gap (hh.reps.clear pos (not_lt.mp hge))] at he
      cases he
    rw [hfilter, hpairs, ← hseg, View.seg_append (Nat.le_succ pos) hlt, View.seg_single, he]
    rfl

/-- A search of the leaf of the key. -/
theorem iteratorAt (h : s.Content T f) (search : DataNode M P → ℤ → Option (ℕ × DataNode M P))
    (key : ℤ) {test : ℤ → Bool} (htest : Separates key test)
    (hsearch : ∀ n v k, DataNode.Holds T n v k → n.Searches v test (search n key)) :
    ∃ it s' pairs, s.iteratorAt search key = some (it, s') ∧ s'.Content T f ∧
      s'.Reads T it pairs ∧ Lists f test pairs := by
  obtain ⟨L, n, hget, hn, hready, -, hat⟩ := h.atPosition key
  have hh := (DataNode.wellFormed_iff.mpr hready.stores.holds).holds
  obtain ⟨pos, a, b, hrun, hpos⟩ := hsearch n _ _ hh
  obtain ⟨hc, hit⟩ := hat a b
  obtain ⟨it, pairs, hnew, hreads, hlists, -⟩ := hit test pos htest hpos
  refine ⟨it, _, pairs, ?_, hc, hreads, hlists⟩
  unfold Index.iteratorAt
  simp only [hget, hn, hrun, hnew, Option.bind_eq_bind, Option.bind_some]

/-- `lower_bound` begins at the first key no less than the given one. -/
theorem lowerBound [NodeModel M] (h : s.Content T f) (C : Params M P) (key : ℤ) : ∃ it s' pairs,
    s.lowerBound C key = some (it, s') ∧ s'.Content T f ∧ s'.Reads T it pairs ∧
      Lists f (fun x => decide (key ≤ x)) pairs :=
  h.iteratorAt _ key (separates_le key) (fun n _ _ hh => hh.findLower_past key (C.past n.toSlots))

/-- `upper_bound` begins at the first key greater than the given one. -/
theorem upperBound [NodeModel M] (h : s.Content T f) (C : Params M P) (key : ℤ) : ∃ it s' pairs,
    s.upperBound C key = some (it, s') ∧ s'.Content T f ∧ s'.Reads T it pairs ∧
      Lists f (fun x => decide (key < x)) pairs :=
  h.iteratorAt _ key (separates_lt key) (fun n _ _ hh => hh.findUpper_past key (C.past n.toSlots))

/-- `find` stands at the pair with the key, or at the end. -/
theorem find [NodeModel M] (h : s.Content T f) (hkey : key < T.max) : ∃ it s',
    s.find key = some (it, s') ∧
    s'.Content T f ∧ (f key = none → it.curLeaf = none) ∧
    ∀ p, f key = some p → ∃ pairs, s'.Reads T it ((key, p) :: pairs) ∧
      Lists f (fun x => decide (key ≤ x)) ((key, p) :: pairs) := by
  obtain ⟨L, n, hget, hn, hready, hf, hat⟩ := h.atPosition key
  have hh := (DataNode.wellFormed_iff.mpr hready.stores.holds).holds
  obtain ⟨r, a, b, hrun, hr⟩ := hh.findKey hkey
  obtain ⟨hc, hit⟩ := hat a b
  rcases hr with ⟨rfl, hno⟩ | ⟨i, rfl, hi, hbit, hki, -⟩
  · refine ⟨Iterator.atEnd, _, ?_, hc, fun _ => rfl, fun p hp => ?_⟩
    · unfold Index.find
      simp only [hget, hn, hrun, Option.bind_eq_bind, Option.bind_some]
    · have hmem := (hf p).mp hp
      rw [hh.pairs_eq] at hmem
      exact absurd rfl (hno _ hmem)
  · obtain ⟨hpos, p, hcell⟩ := hready.stores.begins hh hi hbit hki
    obtain ⟨it, pairs, hnew, hreads, hlists, hhead⟩ := hit _ i (separates_le key) hpos
    obtain ⟨rest, rfl⟩ := List.head?_eq_some_iff.mp (hhead _ hcell)
    have hfp : f key = some p := ((hlists.mem key p).mp (List.mem_cons_self ..)).2
    refine ⟨it, _, ?_, hc, fun hnone => ?_, fun q hq => ?_⟩
    · unfold Index.find
      simp only [hget, hn, hrun, hnew, Option.bind_eq_bind, Option.bind_some]
    · rw [hnone] at hfp
      cases hfp
    · obtain rfl := Option.some.inj (hfp.symm.trans hq)
      exact ⟨rest, hreads, hlists⟩

end Index.Content

/-- A map has at most one pair with the key; it comes first. -/
theorem Lists.count {pairs : List (ℤ × P)} (h : Lists f (fun x => decide (key ≤ x)) pairs) :
    (pairs.takeWhile (fun e => decide (e.1 = key))).length = if (f key).isSome then 1 else 0 := by
  have hmem : ∀ p, f key = some p → (key, p) ∈ pairs :=
    fun p hp => (h.mem key p).mpr ⟨decide_eq_true (le_refl key), hp⟩
  have htake : ∀ (e : ℤ × P) (rest : List (ℤ × P)), key < e.1 →
      (e :: rest).takeWhile (fun e => decide (e.1 = key)) = [] := fun e rest hlt =>
    List.takeWhile_cons_of_neg (p := fun e : ℤ × P => decide (e.1 = key))
      (by rw [decide_eq_true_iff]; exact hlt.ne')
  cases pairs with
  | nil =>
      have hnone : f key = none :=
        Option.eq_none_iff_forall_ne_some.mpr (fun p hp => List.not_mem_nil (hmem p hp))
      rw [hnone]
      rfl
  | cons e rest =>
      obtain ⟨hhead, -⟩ := List.pairwise_cons.mp h.sorted
      obtain ⟨hle, hfe⟩ := (h.mem e.1 e.2).mp (List.mem_cons_self ..)
      rcases (of_decide_eq_true hle).lt_or_eq with hlt | hk
      · have hnone : f key = none := by
          refine Option.eq_none_iff_forall_ne_some.mpr (fun p hp => ?_)
          rcases List.mem_cons.mp (hmem p hp) with rfl | hin
          · exact lt_irrefl _ hlt
          · exact lt_asymm hlt (hhead _ hin)
        rw [htake e rest hlt, hnone]
        rfl
      · have hnil : rest.takeWhile (fun e => decide (e.1 = key)) = [] := by
          cases rest with
          | nil => rfl
          | cons e' rest => exact htake e' rest (hk ▸ hhead e' (List.mem_cons_self ..))
        rw [List.takeWhile_cons_of_pos (p := fun e : ℤ × P => decide (e.1 = key))
          (decide_eq_true hk.symm), hnil, hk, hfe]
        rfl

/-- `count` is one for a stored key. -/
theorem Index.Content.count [NodeModel M] (h : s.Content T f) (C : Params M P) (key : ℤ) : ∃ s' N,
    s'.Content T f ∧ ∀ fuel, N ≤ fuel →
      s.count C fuel key = some (if (f key).isSome then 1 else 0, s') := by
  obtain ⟨it, s', pairs, hrun, hc, hreads, hlists⟩ := h.lowerBound C key
  refine ⟨s', pairs.length, hc, fun fuel hfuel => ?_⟩
  have hcount := hreads.countFrom key hfuel
  rw [hlists.count] at hcount
  unfold Index.count
  simp only [hrun, hcount, Option.bind_eq_bind, Option.bind_some]

end LearnedIndex.Alexol
