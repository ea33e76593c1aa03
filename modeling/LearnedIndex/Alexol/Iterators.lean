import LearnedIndex.Alexol.LeafChain

/-! # Iterators over the index

`Alex::Iterator` walks the filled positions of a leaf word by word and follows the link to the next
leaf when the bitmap ends.  `Iterator.Before h leaves it rest` says that an iterator stands before
the filled positions `rest`; a start anywhere in the chain and every step establish it again for
the positions that are left (`begin_spec`, `next_spec`). -/

namespace LearnedIndex.Alexol

open LearnedIndex.Words LearnedIndex.Chains

variable {M P : Type}

/-- The pair in a slot of a leaf. -/
def Heap.readPlace (h : Heap M P) (place : NodeId × ℕ) : Option (ℤ × P) :=
  (h.dataAt place.1).bind (fun n => n.pairAt place.2)

namespace Index

/-- `Alex::Iterator`; without a leaf it is at the end. -/
structure Iterator where
  curLeaf : Option NodeId
  curIdx : ℕ
  curBitmapIdx : ℕ
  curBitmapData : Word

namespace Iterator

/-- `end()`. -/
def atEnd : Iterator := ⟨none, 0, 0, 0#64⟩

/-- `advance` from the cached word of a leaf; `fuel` bounds the number of leaves entered. -/
def advanceFrom (h : Heap M P) : ℕ → NodeId → ℕ → Word → Option Iterator
  | fuel, leaf, curBitmapIdx, curBitmapData => do
      let n ← h.dataAt leaf
      match ← n.scanWords n.bitmapSize curBitmapIdx curBitmapData with
      | some (idx, data) =>
          some ⟨some leaf, getOffset idx (extractRightmostOne data), idx, removeRightmostOne data⟩
      | none =>
          match n.nextLeaf with
          | none => some atEnd
          | some next =>
              match fuel with
              | 0 => none
              | fuel + 1 => do
                  let m ← h.dataAt next
                  let data ← m.bitmap[0]?
                  advanceFrom h fuel next 0 data

/-- `operator++`. -/
def next (h : Heap M P) (it : Iterator) : Option Iterator := do
  let leaf ← it.curLeaf
  advanceFrom h h.length leaf it.curBitmapIdx it.curBitmapData

/-- `initialize` at a position of a leaf, below its capacity. -/
def initAt (h : Heap M P) (leaf : NodeId) (idx : ℕ) : Option Iterator := do
  let n ← h.dataAt leaf
  let curBitmapIdx := idx >>> 6
  let data ← n.bitmap[curBitmapIdx]?
  let bitPos := idx - (curBitmapIdx <<< 6)
  advanceFrom h h.length leaf curBitmapIdx (data &&& ~~~((1#64 <<< bitPos) - 1#64))

/-- `Iterator(leaf, idx)`. -/
def new (h : Heap M P) (leaf : NodeId) (idx : ℕ) : Option Iterator := do
  let n ← h.dataAt leaf
  if n.dataCapacity ≤ idx then
    match n.nextLeaf with
    | none => some atEnd
    | some next => initAt h next 0
  else initAt h leaf idx

/-- `operator*`. -/
def read (h : Heap M P) (it : Iterator) : Option (ℤ × P) := do
  let leaf ← it.curLeaf
  h.readPlace (leaf, it.curIdx)

/-- The pairs read from an iterator on until its end. -/
def collect (h : Heap M P) : ℕ → Iterator → Option (List (ℤ × P))
  | fuel, it =>
      match it.curLeaf with
      | none => some []
      | some _ =>
          match fuel with
          | 0 => none
          | fuel + 1 => do
              let pair ← it.read h
              let it ← it.next h
              let rest ← collect h fuel it
              some (pair :: rest)

end Iterator

end Index

/-! ### Filled positions of the chain -/

section
variable {h h' : Heap M P}

/-- The filled positions of some leaves, from left to right. -/
def Heap.placesOf (h : Heap M P) (leaves : List NodeId) : List (NodeId × ℕ) :=
  leaves.flatMap (fun x =>
    ((h.dataAt x).map (fun n => (n.view.filledFrom 0).map (fun i => (x, i)))).getD [])

theorem Heap.placesOf_cons {x : NodeId} {n : DataNode M P} (hn : h.dataAt x = some n)
    (l : List NodeId) :
    h.placesOf (x :: l) = (n.view.filledFrom 0).map (fun i => (x, i)) ++ h.placesOf l := by
  unfold Heap.placesOf
  rw [List.flatMap_cons, hn]
  rfl

theorem Heap.mem_placesOf {leaves : List NodeId} {place : NodeId × ℕ} :
    place ∈ h.placesOf leaves ↔ ∃ x ∈ leaves, ∃ n, h.dataAt x = some n ∧
      ∃ i < n.dataCapacity, n.view.bit i = true ∧ (x, i) = place := by
  unfold Heap.placesOf
  rw [List.mem_flatMap]
  refine exists_congr (fun x => and_congr_right (fun _ => ?_))
  cases h.dataAt x with
  | none => simp
  | some n =>
      rw [Option.map_some, Option.getD_some, List.mem_map]
      constructor
      · rintro ⟨i, hi, he⟩
        obtain ⟨_, hcap, hb⟩ := View.mem_filledFrom.mp hi
        exact ⟨n, rfl, i, hcap, hb, he⟩
      · rintro ⟨m, hm, i, hcap, hb, he⟩
        obtain rfl := Option.some.inj hm
        exact ⟨i, View.mem_filledFrom.mpr ⟨Nat.zero_le i, hcap, hb⟩, he⟩

/-- The filled positions of a leaf from `lo` on, and those of the leaves behind it. -/
def Heap.placesFrom (h : Heap M P) (x : NodeId) (n : DataNode M P) (lo : ℕ) (B : List NodeId) :
    List (NodeId × ℕ) :=
  (n.view.filledFrom lo).map (fun i => (x, i)) ++ h.placesOf B

theorem Heap.placesFrom_zero {x : NodeId} {n : DataNode M P} (hn : h.dataAt x = some n)
    (B : List NodeId) : h.placesFrom x n 0 B = h.placesOf (x :: B) :=
  (h.placesOf_cons hn B).symm

/-- An iterator before the filled positions that are left. -/
def Index.Iterator.Before (h : Heap M P) (leaves : List NodeId) (it : Index.Iterator) :
    List (NodeId × ℕ) → Prop
  | [] => it.curLeaf = none ∧ it.curIdx = 0
  | place :: rest => ∃ A B n, leaves = A ++ place.1 :: B ∧ h.dataAt place.1 = some n ∧
      it.curLeaf = some place.1 ∧ it.curIdx = place.2 ∧ n.Filled place.2 ∧
      it.curBitmapIdx < n.bitmapSize ∧ 64 * it.curBitmapIdx ≤ place.2 ∧
      Pending n.view it.curBitmapIdx it.curBitmapData (place.2 + 1) ∧
      rest = h.placesFrom place.1 n (place.2 + 1) B

end

variable {T : KeyType} {s : Index M P} {leaves : List NodeId}

/-- The filled slots of a leaf hold its pairs. -/
theorem DataNode.Holds.pairAt_filledFrom {n : DataNode M P} {v : View P} {k : ℕ → ℤ}
    (h : DataNode.Holds T n v k) (lo : ℕ) :
    (v.filledFrom lo).map n.pairAt = (v.seg lo v.cap).map some := by
  unfold View.filledFrom View.seg
  have hrange : ∀ i ∈ List.range' lo (v.cap - lo), i < v.cap := by
    intro i hi
    rw [List.mem_range'_1] at hi
    omega
  generalize List.range' lo (v.cap - lo) = l at hrange ⊢
  induction l with
  | nil => rfl
  | cons i l ih =>
      have ih := ih (fun j hj => hrange j (List.mem_cons_of_mem i hj))
      have hi := hrange i (List.mem_cons_self ..)
      cases hb : v.bit i with
      | false => rw [List.filter_cons_of_neg (by simp [hb]), List.filterMap_cons_none
          (View.cell_gap hb), ih]
      | true =>
          obtain ⟨p, hpair, hcell⟩ := h.pairAt_filled hi hb
          rw [List.filter_cons_of_pos hb, List.filterMap_cons_some hcell, List.map_cons,
            List.map_cons, ih, hpair]

/-- The filled positions of the chain hold its pairs. -/
theorem Chained.readPlace_placesOf (hc : Chained T s leaves) : ∀ {l : List NodeId}, l ⊆ leaves →
    (s.heap.placesOf l).map s.heap.readPlace = (s.heap.pairsOf l).map some := by
  intro l
  induction l with
  | nil => intro _; rfl
  | cons x l ih =>
      intro hl
      obtain ⟨n, hn, hfree⟩ := hc.leaf x (hl (List.mem_cons_self ..))
      have hh := hfree.wf.holds
      have hread : ∀ i, s.heap.readPlace (x, i) = n.pairAt i := by
        intro i
        unfold Heap.readPlace
        rw [hn, Option.bind_some]
      rw [Heap.placesOf_cons hn, Heap.pairsOf_cons hn, List.map_append, List.map_append,
        ih (fun y hy => hl (List.mem_cons_of_mem x hy)), hh.pairs_eq, List.map_map]
      congr 1
      calc (n.view.filledFrom 0).map (s.heap.readPlace ∘ fun i => (x, i))
          = (n.view.filledFrom 0).map n.pairAt := List.map_congr_left (fun i _ => hread i)
        _ = n.view.entries.map some := hh.pairAt_filledFrom 0

/-- `advance` inside one leaf: it finds the next filled position, or there is none. -/
theorem Chained.advance_leaf (hc : Chained T s leaves) {h' : Heap M P} (hcount : s.heap.Counted h')
    {A B : List NodeId} {x : NodeId} {n : DataNode M P} {idx lo : ℕ} {data : Word}
    (hl : leaves = A ++ x :: B) (hn : s.heap.dataAt x = some n) (hidx : idx < n.bitmapSize)
    (hp : Pending n.view idx data lo) (hbefore : ∀ i, lo ≤ i → i < 64 * idx →
    n.view.bit i = false) :
    (∃ it, (∀ fuel, Index.Iterator.advanceFrom h' fuel x idx data = some it) ∧
        it.Before s.heap leaves (s.heap.placesFrom x n lo B)) ∨
      (n.view.filledFrom lo = [] ∧
        (B = [] → ∀ fuel, Index.Iterator.advanceFrom h' fuel x idx data =
          some Index.Iterator.atEnd) ∧
        ∀ y B' fuel, B = y :: B' → Index.Iterator.advanceFrom h' (fuel + 1) x idx data =
          (h'.dataAt y).bind (fun m => (m.bitmap[0]?).bind
            (fun data => Index.Iterator.advanceFrom h' fuel y 0 data))) := by
  obtain ⟨n', hn', hfree, _, hnext, _⟩ := hc.at_split hl
  obtain rfl := Option.some.inj (hn.symm.trans hn')
  obtain ⟨a, b, hx⟩ := hcount x n hn
  have hreps := hfree.wf.reps
  have hcounted : ∀ fuel, Index.Iterator.advanceFrom h' fuel x idx data =
      (n.scanWords n.bitmapSize idx data).bind (fun r => match r with
        | some (idx, data) => some ⟨some x, getOffset idx (extractRightmostOne data), idx,
            removeRightmostOne data⟩
        | none =>
            match n.nextLeaf with
            | none => some Index.Iterator.atEnd
            | some next =>
                match fuel with
                | 0 => none
                | fuel + 1 => (h'.dataAt next).bind (fun m => (m.bitmap[0]?).bind
                    (fun data => Index.Iterator.advanceFrom h' fuel next 0 data))) := by
    intro fuel
    rw [Index.Iterator.advanceFrom, hx]
    rfl
  rcases hreps.scanWords_spec n.bitmapSize idx data hidx (by omega) hp hbefore with
    ⟨he, hclear⟩ | ⟨idx', data', he, hidx', hd, hp', hbefore'⟩
  · refine Or.inr ⟨View.filledFrom_eq_nil (fun i h1 _ => hclear i h1), fun hB fuel => ?_,
      fun y B' fuel hB => ?_⟩
    · rw [hcounted, he, hnext, hB]
      rfl
    · rw [hcounted, he, hnext, hB]
      rfl
  · obtain ⟨j, hj, h1, h2, h3, h4⟩ := Reps.pending_first hp' hd hbefore'
    refine Or.inl ⟨⟨some x, j, idx', removeRightmostOne data'⟩, fun fuel => ?_, ?_⟩
    · rw [hcounted, he, Option.bind_some]
      simp only [hj]
    · have hjcap := hreps.lt_cap h2
      unfold Heap.placesFrom
      rw [View.filledFrom_eq_cons h1 hjcap h2 h3]
      refine ⟨A, B, n, hl, hn, rfl, rfl, h2, hidx', ?_, h4, rfl⟩
      dsimp only
      rw [← hj, getOffset_extractRightmostOne hd]
      exact Nat.le_add_right _ _

/-- `advance` finds the first filled position that is left. -/
theorem Chained.advanceFrom (hc : Chained T s leaves) {h' : Heap M P} (hcount : s.heap.Counted h') :
    ∀ (B A : List NodeId) (x : NodeId) (n : DataNode M P) (fuel idx lo : ℕ) (data : Word),
    leaves = A ++ x :: B → s.heap.dataAt x = some n → B.length ≤ fuel → idx < n.bitmapSize →
    Pending n.view idx data lo → (∀ i, lo ≤ i → i < 64 * idx → n.view.bit i = false) →
    ∃ it, Index.Iterator.advanceFrom h' fuel x idx data = some it ∧
      it.Before s.heap leaves (s.heap.placesFrom x n lo B) := by
  intro B
  induction B with
  | nil =>
      intro A x n fuel idx lo data hl hn _ hidx hp hbefore
      rcases hc.advance_leaf hcount hl hn hidx hp hbefore with ⟨it, he, hb⟩ | ⟨hnil, hend, _⟩
      · exact ⟨it, he fuel, hb⟩
      · refine ⟨_, hend rfl fuel, ?_⟩
        unfold Heap.placesFrom
        rw [hnil]
        exact ⟨rfl, rfl⟩
  | cons y B ih =>
      intro A x n fuel idx lo data hl hn hfuel hidx hp hbefore
      rcases hc.advance_leaf hcount hl hn hidx hp hbefore with ⟨it, he, hb⟩ | ⟨hnil, _, hgo⟩
      · exact ⟨it, he fuel, hb⟩
      · -- the walk goes on in the first word of the next leaf
        obtain ⟨fuel, rfl⟩ : ∃ f, fuel = f + 1 := ⟨fuel - 1, by simp at hfuel; omega⟩
        have hl' : leaves = (A ++ [x]) ++ y :: B := by rw [hl]; simp
        obtain ⟨m, hm, hmfree, _⟩ := hc.at_split hl'
        have hmreps := hmfree.wf.reps
        have hpos := hmreps.pos
        have hsize := hmreps.size
        obtain ⟨w, hw, hbits⟩ := hmreps.getElem_bitmap (show 0 < m.bitmapSize by omega)
        obtain ⟨a, b, hy⟩ := hcount y m hm
        obtain ⟨it, he, hb⟩ := ih (A ++ [x]) y m fuel 0 0 w hl' hm (by simpa using hfuel) (by omega)
          ⟨Nat.zero_le _, fun i hi => by simp [hbits i hi]⟩ (fun i _ h2 => by omega)
        refine ⟨it, ?_, ?_⟩
        · rw [hgo y B fuel rfl, hy, Option.bind_some]
          have hw' : (m.withCounters a b).bitmap[0]? = some w := hw
          rw [hw', Option.bind_some, he]
        · unfold Heap.placesFrom at hb ⊢
          rw [hnil, Heap.placesOf_cons hm, List.map_nil, List.nil_append]
          exact hb

/-- An iterator made at a position below the capacity stands before the filled positions from it
on. -/
theorem Chained.initAt (hc : Chained T s leaves) {h' : Heap M P} (hcount : s.heap.Counted h')
    {A B : List NodeId} {x : NodeId} {n : DataNode M P} {idx : ℕ} (hl : leaves = A ++ x :: B)
    (hn : s.heap.dataAt x = some n) (hidx : idx < n.dataCapacity) :
    ∃ it, Index.Iterator.initAt h' x idx = some it ∧
      it.Before s.heap leaves (s.heap.placesFrom x n idx B) := by
  obtain ⟨n', hn', hfree, _⟩ := hc.at_split hl
  obtain rfl := Option.some.inj (hn.symm.trans hn')
  obtain ⟨a, b, hx⟩ := hcount x n hn
  have hreps := hfree.wf.reps
  have hdiv : idx / 64 < n.bitmapSize := by
    have := hreps.div_lt hidx
    rwa [hreps.bmLen] at this
  obtain ⟨w, hw, hbits⟩ := hreps.getElem_bitmap hdiv
  have hlen : B.length ≤ h'.length := by
    have h1 := hc.length_le hcount
    rw [hl, List.length_append, List.length_cons] at h1
    omega
  obtain ⟨it, he, hb⟩ := hc.advanceFrom hcount B A x n h'.length (idx / 64) idx
    (w &&& ~~~((1#64 <<< (idx % 64)) - 1#64)) hl hn hlen hdiv (hreps.pending_mask hdiv hw)
    (fun i h1 h2 => by omega)
  refine ⟨it, ?_, hb⟩
  unfold Index.Iterator.initAt
  have hw' : (n.withCounters a b).bitmap[idx / 64]? = some w := hw
  simp only [hx, Reps.shift_div, Reps.shift_mod, hw', Option.bind_eq_bind, Option.bind_some]
  exact he

/-- So does the public constructor. -/
theorem Chained.newIterator (hc : Chained T s leaves) {h' : Heap M P} (hcount : s.heap.Counted h')
    {A B : List NodeId} {x : NodeId} {n : DataNode M P} {idx : ℕ} (hl : leaves = A ++ x :: B)
    (hn : s.heap.dataAt x = some n) (hidx : idx < n.dataCapacity) :
    ∃ it, Index.Iterator.new h' x idx = some it ∧
      it.Before s.heap leaves (s.heap.placesFrom x n idx B) := by
  obtain ⟨it, he, hb⟩ := hc.initAt hcount hl hn hidx
  obtain ⟨a, b, hx⟩ := hcount x n hn
  refine ⟨it, ?_, hb⟩
  unfold Index.Iterator.new
  have hlt : ¬ (n.withCounters a b).dataCapacity ≤ idx := not_le.mpr hidx
  rw [hx, Option.bind_eq_bind, Option.bind_some, if_neg hlt, he]

/-- A step moves an iterator behind the position it stands at. -/
theorem Chained.next (hc : Chained T s leaves) {h' : Heap M P} (hcount : s.heap.Counted h')
    {it : Index.Iterator} {place : NodeId × ℕ} {rest : List (NodeId × ℕ)}
    (hb : it.Before s.heap leaves (place :: rest)) :
    ∃ it', it.next h' = some it' ∧ it'.Before s.heap leaves rest := by
  obtain ⟨A, B, n, hl, hn, hleaf, _, _, hidx, hle, hp, hrest⟩ := hb
  have hlen : B.length ≤ h'.length := by
    have h1 := hc.length_le hcount
    rw [hl, List.length_append, List.length_cons] at h1
    omega
  obtain ⟨it', he, hb'⟩ := hc.advanceFrom hcount B A place.1 n h'.length it.curBitmapIdx
    (place.2 + 1) it.curBitmapData hl hn hlen hidx hp (fun i h1 h2 => by omega)
  refine ⟨it', ?_, ?_⟩
  · unfold Index.Iterator.next
    rw [hleaf, Option.bind_eq_bind, Option.bind_some, he]
  · rwa [hrest]

end LearnedIndex.Alexol
