import LearnedIndex.Alexol.ClosestGap
import LearnedIndex.Alexol.Iterators

/-! # Reverse iterators

`Alex::ReverseIterator` walks the filled positions of a leaf from the last one on, peels the
leftmost one off the cached word and follows the link to the previous leaf when the bitmap begins.
`PendingBack` and `ReverseIterator.Before` are the mirror images of the invariants of the forward
iterator. -/

namespace LearnedIndex.Alexol

open LearnedIndex.Words LearnedIndex.Chains

variable {M P : Type}

/-! ### Words from right to left -/

/-- Skip zero words towards the first one.  `none` inside is the beginning of the bitmap. -/
def Slots.scanWordsBack (s : Slots P) : ℕ → Word → Option (Option (ℕ × Word))
  | 0, data => if data = 0#64 then some none else some (some (0, data))
  | idx + 1, data =>
      if data = 0#64 then do
        let data ← s.bitmap[idx]?
        scanWordsBack s idx data
      else some (some (idx + 1, data))

/-- The filled positions below `hi`, in decreasing order. -/
def View.filledBelow (v : View P) (hi : ℕ) : List ℕ := ((List.range hi).filter v.bit).reverse

theorem View.filledBelow_eq_nil {v : View P} {hi : ℕ} (h : ∀ i, i < hi → v.bit i = false) :
    v.filledBelow hi = [] := by
  unfold filledBelow
  rw [List.filter_eq_nil_iff.mpr (fun i hi => by simp [h i (List.mem_range.mp hi)])]
  rfl

theorem View.filledBelow_eq_cons {v : View P} {hi j : ℕ} (hj : j < hi) (hb : v.bit j = true)
    (hgap : ∀ i, j < i → i < hi → v.bit i = false) :
    v.filledBelow hi = j :: v.filledBelow j := by
  unfold filledBelow
  have hsplit : List.range hi = List.range j ++ j :: List.range' (j + 1) (hi - (j + 1)) := by
    rw [List.range_eq_range', List.range_eq_range']
    have h1 : hi = j + ((hi - (j + 1)) + 1) := by omega
    conv_lhs => rw [h1]
    rw [← List.range'_append_1, Nat.zero_add, List.range'_succ]
  have hnil : (List.range' (j + 1) (hi - (j + 1))).filter v.bit = [] := by
    refine List.filter_eq_nil_iff.mpr (fun i hi' => ?_)
    rw [List.mem_range'_1] at hi'
    simp [hgap i (by omega) (by omega)]
  rw [hsplit, List.filter_append, List.filter_cons_of_pos hb, hnil, List.reverse_append]
  rfl

/-- From the capacity on, these are all filled positions. -/
theorem View.filledBelow_cap (v : View P) : v.filledBelow v.cap = (v.filledFrom 0).reverse := by
  unfold filledBelow filledFrom
  rw [Nat.sub_zero, List.range_eq_range']

/-- The cached word holds the filled positions of word `idx` below `hi`. -/
structure PendingBack (v : View P) (idx : ℕ) (data : Word) (hi : ℕ) : Prop where
  ge : 64 * idx ≤ hi
  bit : ∀ i, i < 64 → data.getLsbD i = (v.bit (64 * idx + i) && decide (64 * idx + i < hi))

namespace Reps

variable {s : Slots P} {v : View P}

/-- A whole word caches its filled positions. -/
theorem pendingBack_word (h : Reps s v) {idx : ℕ} {w : Word} (hi : idx < s.bitmapSize)
    (hw : s.bitmap[idx]? = some w) {hi' : ℕ} (hhi : 64 * (idx + 1) ≤ hi') :
    PendingBack v idx w hi' := by
  obtain ⟨w', hw', hb⟩ := h.getElem_bitmap hi
  obtain rfl := Option.some.inj (hw.symm.trans hw')
  refine ⟨by omega, fun i hi64 => ?_⟩
  have hlt : 64 * idx + i < hi' := by omega
  rw [hb i hi64]
  simp [hlt]

/-- Zeroing the bits above the start position of a word. -/
theorem pendingBack_mask (h : Reps s v) {pos : ℕ} {w : Word} (hi : pos / 64 < s.bitmapSize)
    (hw : s.bitmap[pos / 64]? = some w) : PendingBack v (pos / 64)
      (w &&& ((1#64 <<< (pos % 64)) ||| ((1#64 <<< (pos % 64)) - 1#64))) (pos + 1) := by
  obtain ⟨w', hw', hb⟩ := h.getElem_bitmap hi
  obtain rfl := Option.some.inj (hw.symm.trans hw')
  refine ⟨by omega, fun i hi64 => ?_⟩
  have hlt : pos % 64 < 64 := Nat.mod_lt _ (by omega)
  have hlow := getLsbD_and_mask w hlt hi64
  have hone : (w &&& (1#64 <<< (pos % 64))).getLsbD i = (w.getLsbD i && decide (i = pos % 64)) := by
    have hset := getLsbD_or_one_shiftLeft 0#64 (pos % 64) i hi64
    rw [BitVec.zero_or, BitVec.getLsbD_zero, Bool.false_or] at hset
    rw [BitVec.getLsbD_and, hset]
  have hsplit : (w &&& ((1#64 <<< (pos % 64)) ||| ((1#64 <<< (pos % 64)) - 1#64))).getLsbD i =
      ((w &&& (1#64 <<< (pos % 64))).getLsbD i ||
        (w &&& ((1#64 <<< (pos % 64)) - 1#64)).getLsbD i) := by
    rw [BitVec.getLsbD_and, BitVec.getLsbD_or, BitVec.getLsbD_and, BitVec.getLsbD_and,
      Bool.and_or_distrib_left]
  rw [hsplit, hone, hlow, hb i hi64, ← Bool.and_or_distrib_left, ← Bool.decide_or]
  congr 2
  have : 64 * (pos / 64) + i < pos + 1 ↔ i = pos % 64 ∨ i < pos % 64 := by omega
  exact propext this.symm

/-- No filled position is left in a zero word. -/
theorem PendingBack.clear {idx hi : ℕ} (hp : PendingBack v idx 0#64 hi) {i : ℕ} (h1 : i < hi)
    (h2 : 64 * idx ≤ i) (h3 : i < 64 * (idx + 1)) : v.bit i = false := by
  have h := hp.bit (i - 64 * idx) (by omega)
  have he : 64 * idx + (i - 64 * idx) = i := by omega
  rw [he] at h
  simpa [h1] using h

/-- One scan: the beginning of the bitmap, or the last word with a filled position below `hi`. -/
theorem scanWordsBack_spec (h : Reps s v) {hi : ℕ} : ∀ (idx : ℕ) (data : Word),
    idx < s.bitmapSize → PendingBack v idx data hi →
    (∀ i, 64 * (idx + 1) ≤ i → i < hi → v.bit i = false) →
    (s.scanWordsBack idx data = some none ∧ ∀ i, i < hi → v.bit i = false) ∨
    ∃ idx' data', s.scanWordsBack idx data = some (some (idx', data')) ∧ idx' < s.bitmapSize ∧
      data' ≠ 0#64 ∧ PendingBack v idx' data' hi ∧
        ∀ i, 64 * (idx' + 1) ≤ i → i < hi → v.bit i = false
  | 0, data, hidx, hp, hafter => by
      by_cases hd : data = 0#64
      · subst hd
        refine Or.inl ⟨rfl, fun i hi' => ?_⟩
        rcases Nat.lt_or_ge i 64 with hlt | hge
        · exact PendingBack.clear hp hi' (by omega) (by omega)
        · exact hafter i (by omega) hi'
      · exact Or.inr ⟨0, data, by rw [Slots.scanWordsBack, if_neg hd], hidx, hd, hp, hafter⟩
  | idx + 1, data, hidx, hp, hafter => by
      by_cases hd : data = 0#64
      · subst hd
        obtain ⟨w, hw, _⟩ := h.getElem_bitmap (show idx < s.bitmapSize by omega)
        have hstep : s.scanWordsBack (idx + 1) 0#64 = s.scanWordsBack idx w := by
          rw [Slots.scanWordsBack, if_pos rfl, hw]
          rfl
        rw [hstep]
        refine scanWordsBack_spec h idx w (by omega) (h.pendingBack_word (by omega) hw hp.ge)
          (fun i h1 h2 => ?_)
        rcases Nat.lt_or_ge i (64 * (idx + 1 + 1)) with hlt | hge
        · exact PendingBack.clear hp h2 h1 hlt
        · exact hafter i hge h2
      · exact Or.inr ⟨idx + 1, data, by rw [Slots.scanWordsBack, if_neg hd], hidx, hd, hp, hafter⟩

/-- The leftmost one of a cached word is the next filled position. -/
theorem pendingBack_last {idx hi : ℕ} {data : Word} (hp : PendingBack v idx data hi)
    (hd : data ≠ 0#64) (hafter : ∀ i, 64 * (idx + 1) ≤ i → i < hi → v.bit i = false) :
    ∃ j, (idx <<< 6) + (63 - lzcnt data) = j ∧ j < hi ∧ v.bit j = true ∧ j < 64 * (idx + 1) ∧
      64 * idx ≤ j ∧ (∀ i, j < i → i < hi → v.bit i = false) ∧
      PendingBack v idx (data &&& ~~~(1#64 <<< (63 - lzcnt data))) j := by
  obtain ⟨hlt, htop, hhigh⟩ := lzcnt_spec hd
  have hj := hp.bit _ (show 63 - lzcnt data < 64 by omega)
  rw [htop] at hj
  have hj' := hj.symm
  rw [Bool.and_eq_true, decide_eq_true_eq] at hj'
  have hoff : (idx <<< 6) + (63 - lzcnt data) = 64 * idx + (63 - lzcnt data) := by
    rw [Nat.shiftLeft_eq]
    omega
  refine ⟨64 * idx + (63 - lzcnt data), hoff, hj'.2, hj'.1, by omega, by omega, fun i h1 h2 => ?_,
    by omega, fun i hi64 => ?_⟩
  · rcases Nat.lt_or_ge i (64 * (idx + 1)) with hlt' | hge
    · have hb := hp.bit (i - 64 * idx) (by omega)
      have he : 64 * idx + (i - 64 * idx) = i := by omega
      rw [he, hhigh _ (by omega)] at hb
      simpa [h2] using hb.symm
    · exact hafter i hge h2
  · rw [getLsbD_and_not_one_shiftLeft _ _ _ hi64, hp.bit i hi64]
    have hb := hp.bit i hi64
    rcases Nat.lt_trichotomy i (63 - lzcnt data) with h1 | h1 | h1
    · have h2 : 64 * idx + i < hi := by omega
      have h3 : 64 * idx + i < 64 * idx + (63 - lzcnt data) := by omega
      simp [h2, h3, h1.ne]
    · have h3 : ¬ 64 * idx + i < 64 * idx + (63 - lzcnt data) := by omega
      simp [h1]
    · rw [hhigh i h1] at hb
      have h3 : ¬ 64 * idx + i < 64 * idx + (63 - lzcnt data) := by omega
      rw [← hb]
      simp [h3]

end Reps

/-! ### The iterator -/

namespace Index

/-- `Alex::ReverseIterator`; without a leaf it is at the end. -/
structure ReverseIterator where
  curLeaf : Option NodeId
  curIdx : ℕ
  curBitmapIdx : ℕ
  curBitmapData : Word

namespace ReverseIterator

/-- `rend()`. -/
def atEnd : ReverseIterator := ⟨none, 0, 0, 0#64⟩

/-- `advance` from the cached word of a leaf; `fuel` bounds the number of leaves entered. -/
def advanceFrom (h : Heap M P) : ℕ → NodeId → ℕ → Word → Option ReverseIterator
  | fuel, leaf, curBitmapIdx, curBitmapData => do
      let n ← h.dataAt leaf
      match ← n.scanWordsBack curBitmapIdx curBitmapData with
      | some (idx, data) =>
          let bitPos := 63 - lzcnt data
          some ⟨some leaf, (idx <<< 6) + bitPos, idx, data &&& ~~~(1#64 <<< bitPos)⟩
      | none =>
          match n.prevLeaf with
          | none => some atEnd
          | some prev =>
              match fuel with
              | 0 => none
              | fuel + 1 => do
                  let m ← h.dataAt prev
                  let data ← m.bitmap[m.bitmapSize - 1]?
                  advanceFrom h fuel prev (m.bitmapSize - 1) data

/-- `operator++`. -/
def next (h : Heap M P) (it : ReverseIterator) : Option ReverseIterator := do
  let leaf ← it.curLeaf
  advanceFrom h h.length leaf it.curBitmapIdx it.curBitmapData

/-- `initialize` at a position of a leaf, below its capacity. -/
def initAt (h : Heap M P) (leaf : NodeId) (idx : ℕ) : Option ReverseIterator := do
  let n ← h.dataAt leaf
  let curBitmapIdx := idx >>> 6
  let data ← n.bitmap[curBitmapIdx]?
  let bitPos := idx - (curBitmapIdx <<< 6)
  advanceFrom h h.length leaf curBitmapIdx
    (data &&& ((1#64 <<< bitPos) ||| ((1#64 <<< bitPos) - 1#64)))

/-- `ReverseIterator(leaf, idx)`. -/
def new (h : Heap M P) (leaf : NodeId) (idx : ℕ) : Option ReverseIterator := do
  let n ← h.dataAt leaf
  if n.dataCapacity ≤ idx then
    match n.nextLeaf with
    | none => some atEnd
    | some next => initAt h next 0
  else initAt h leaf idx

/-- `operator*`. -/
def read (h : Heap M P) (it : ReverseIterator) : Option (ℤ × P) := do
  let leaf ← it.curLeaf
  h.readPlace (leaf, it.curIdx)

/-- The pairs read from an iterator on until its end. -/
def collect (h : Heap M P) : ℕ → ReverseIterator → Option (List (ℤ × P))
  | fuel, it =>
      match it.curLeaf with
      | none => some []
      | some _ =>
          match fuel with
          | 0 => none
          | fuel + 1 => do
              let pair ← it.read h
              let it ← it.next h
              let rest ← collect h fuel it
              some (pair :: rest)

end ReverseIterator

end Index

/-! ### Filled positions from right to left -/

section
variable {h : Heap M P}

theorem Heap.placesOf_append (l l' : List NodeId) :
    h.placesOf (l ++ l') = h.placesOf l ++ h.placesOf l' := List.flatMap_append

/-- The filled positions of a leaf below `hi`, and those of the leaves before it, from right to
left. -/
def Heap.placesBelow (h : Heap M P) (x : NodeId) (n : DataNode M P) (hi : ℕ) (A : List NodeId) :
    List (NodeId × ℕ) :=
  (n.view.filledBelow hi).map (fun i => (x, i)) ++ (h.placesOf A).reverse

theorem Heap.placesBelow_cap {x : NodeId} {n : DataNode M P} (hn : h.dataAt x = some n)
    (A : List NodeId) :
    h.placesBelow x n n.view.cap A = (h.placesOf (A ++ [x])).reverse := by
  unfold Heap.placesBelow
  rw [Heap.placesOf_append, List.reverse_append, Heap.placesOf_cons hn, View.filledBelow_cap,
    List.map_reverse]
  unfold Heap.placesOf
  rw [List.flatMap_nil, List.append_nil]

/-- A reverse iterator before the filled positions that are left. -/
def Index.ReverseIterator.Before (h : Heap M P) (leaves : List NodeId)
    (it : Index.ReverseIterator) : List (NodeId × ℕ) → Prop
  | [] => it.curLeaf = none ∧ it.curIdx = 0
  | place :: rest => ∃ A B n, leaves = A ++ place.1 :: B ∧ h.dataAt place.1 = some n ∧
      it.curLeaf = some place.1 ∧ it.curIdx = place.2 ∧ it.curBitmapIdx < n.bitmapSize ∧
      place.2 < 64 * (it.curBitmapIdx + 1) ∧
      PendingBack n.view it.curBitmapIdx it.curBitmapData place.2 ∧
      rest = h.placesBelow place.1 n place.2 A

end

variable {T : KeyType} {s : Index M P} {leaves : List NodeId}

/-- `advance` inside one leaf: it finds the last filled position that is left, or there is none. -/
theorem Chained.advanceBack_leaf (hc : Chained T s leaves) {A B : List NodeId} {x : NodeId}
    {n : DataNode M P} {idx hi : ℕ} {data : Word} (hl : leaves = A ++ x :: B)
    (hn : s.heap.dataAt x = some n) (hidx : idx < n.bitmapSize)
    (hp : PendingBack n.view idx data hi)
    (hafter : ∀ i, 64 * (idx + 1) ≤ i → i < hi → n.view.bit i = false) :
    (∃ it, (∀ fuel, Index.ReverseIterator.advanceFrom s.heap fuel x idx data = some it) ∧
        it.Before s.heap leaves (s.heap.placesBelow x n hi A)) ∨
      (n.view.filledBelow hi = [] ∧
        (A.getLast? = none → ∀ fuel, Index.ReverseIterator.advanceFrom s.heap fuel x idx data =
          some Index.ReverseIterator.atEnd) ∧
        ∀ y fuel, A.getLast? = some y →
          Index.ReverseIterator.advanceFrom s.heap (fuel + 1) x idx data =
            (s.heap.dataAt y).bind (fun m => (m.bitmap[m.bitmapSize - 1]?).bind
              (fun data => Index.ReverseIterator.advanceFrom s.heap fuel y
              (m.bitmapSize - 1) data))) := by
  obtain ⟨n', hn', hfree, _, _, hprev⟩ := hc.at_split hl
  obtain rfl := Option.some.inj (hn.symm.trans hn')
  have hreps := hfree.wf.reps
  have hrun : ∀ fuel, Index.ReverseIterator.advanceFrom s.heap fuel x idx data =
      (n.scanWordsBack idx data).bind (fun r => match r with
        | some (idx, data) =>
            let bitPos := 63 - lzcnt data
            some ⟨some x, (idx <<< 6) + bitPos, idx, data &&& ~~~(1#64 <<< bitPos)⟩
        | none =>
            match n.prevLeaf with
            | none => some Index.ReverseIterator.atEnd
            | some prev =>
                match fuel with
                | 0 => none
                | fuel + 1 => (s.heap.dataAt prev).bind (fun m => (m.bitmap[m.bitmapSize - 1]?).bind
                    (fun data => Index.ReverseIterator.advanceFrom s.heap fuel prev
                      (m.bitmapSize - 1) data))) := by
    intro fuel
    rw [Index.ReverseIterator.advanceFrom, hn]
    rfl
  rcases hreps.scanWordsBack_spec idx data hidx hp hafter with
    ⟨he, hclear⟩ | ⟨idx', data', he, hidx', hd, hp', hafter'⟩
  · refine Or.inr ⟨View.filledBelow_eq_nil hclear, fun hA fuel => ?_, fun y fuel hA => ?_⟩
    · rw [hrun, he, hprev, hA]
      rfl
    · rw [hrun, he, hprev, hA]
      rfl
  · obtain ⟨j, hj, h1, h2, h3, h4, h5, h6⟩ := Reps.pendingBack_last hp' hd hafter'
    refine Or.inl
      ⟨⟨some x, j, idx', data' &&& ~~~(1#64 <<< (63 - lzcnt data'))⟩, fun fuel => ?_, ?_⟩
    · rw [hrun, he, Option.bind_some]
      simp only [hj]
    · unfold Heap.placesBelow
      rw [View.filledBelow_eq_cons h1 h2 h5]
      exact ⟨A, B, n, hl, hn, rfl, rfl, hidx', h3, h6, rfl⟩

/-- `advance` finds the last filled position that is left. -/
theorem Chained.advanceBack (hc : Chained T s leaves) : ∀ (k : ℕ) (A B : List NodeId) (x : NodeId)
    (n : DataNode M P) (fuel idx hi : ℕ) (data : Word), A.length = k →
    leaves = A ++ x :: B → s.heap.dataAt x = some n → A.length ≤ fuel → idx < n.bitmapSize →
    PendingBack n.view idx data hi →
    (∀ i, 64 * (idx + 1) ≤ i → i < hi → n.view.bit i = false) →
    ∃ it, Index.ReverseIterator.advanceFrom s.heap fuel x idx data = some it ∧
      it.Before s.heap leaves (s.heap.placesBelow x n hi A) := by
  intro k
  induction k with
  | zero =>
      intro A B x n fuel idx hi data hk hl hn _ hidx hp hafter
      obtain rfl := List.length_eq_zero_iff.mp hk
      rcases hc.advanceBack_leaf hl hn hidx hp hafter with ⟨it, he, hb⟩ | ⟨hnil, hend, _⟩
      · exact ⟨it, he fuel, hb⟩
      · refine ⟨_, hend rfl fuel, ?_⟩
        unfold Heap.placesBelow
        rw [hnil]
        exact ⟨rfl, rfl⟩
  | succ k ih =>
      intro A B x n fuel idx hi data hk hl hn hfuel hidx hp hafter
      rcases hc.advanceBack_leaf hl hn hidx hp hafter with ⟨it, he, hb⟩ | ⟨hnil, _, hgo⟩
      · exact ⟨it, he fuel, hb⟩
      · -- the walk goes on in the last word of the leaf before
        obtain ⟨fuel, rfl⟩ : ∃ f, fuel = f + 1 := ⟨fuel - 1, by omega⟩
        have hne : A ≠ [] := by
          rintro rfl
          cases hk
        obtain ⟨y, hy⟩ : ∃ y, A.getLast? = some y := ⟨_, List.getLast?_eq_some_getLast hne⟩
        obtain ⟨A', rfl⟩ := List.getLast?_eq_some_iff.mp hy
        have hl' : leaves = A' ++ y :: (x :: B) := by rw [hl]; simp
        rw [List.length_append, List.length_singleton] at hk hfuel
        obtain ⟨m, hm, hmfree, _⟩ := hc.at_split hl'
        have hmreps := hmfree.wf.reps
        have hpos := hmreps.size_pos
        have hsize := hmreps.size
        obtain ⟨w, hw, hbits⟩ :=
          hmreps.getElem_bitmap (show m.bitmapSize - 1 < m.bitmapSize by omega)
        have hpend : PendingBack m.view (m.bitmapSize - 1) w m.view.cap := by
          refine ⟨?_, fun i hi => ?_⟩
          · rw [hsize]
            have := hmreps.pos
            omega
          · rw [hbits i hi]
            cases hb : m.view.bit (64 * (m.bitmapSize - 1) + i) with
            | false => rfl
            | true => simp [hmreps.lt_cap hb]
        obtain ⟨it, he, hb⟩ := ih A' (x :: B) y m fuel (m.bitmapSize - 1) m.view.cap w
          (by omega) hl' hm
          (by omega) (by omega) hpend (fun i h1 h2 => hmreps.bit_of_size (by omega))
        refine ⟨it, ?_, ?_⟩
        · rw [hgo y fuel hy, hm, Option.bind_some, hw, Option.bind_some, he]
        · rw [Heap.placesBelow_cap hm] at hb
          unfold Heap.placesBelow
          rw [hnil, List.map_nil, List.nil_append]
          exact hb

/-- A reverse iterator made at a position of a leaf stands before the filled positions up to it. -/
theorem Chained.newReverse (hc : Chained T s leaves) {A B : List NodeId} {x : NodeId}
    {n : DataNode M P} {idx : ℕ} (hl : leaves = A ++ x :: B) (hn : s.heap.dataAt x = some n)
    (hidx : idx < n.dataCapacity) :
    ∃ it, Index.ReverseIterator.new s.heap x idx = some it ∧
      it.Before s.heap leaves (s.heap.placesBelow x n (idx + 1) A) := by
  obtain ⟨n', hn', hfree, _⟩ := hc.at_split hl
  obtain rfl := Option.some.inj (hn.symm.trans hn')
  have hreps := hfree.wf.reps
  have hdiv : idx / 64 < n.bitmapSize := by
    have := hreps.div_lt hidx
    rwa [hreps.bmLen] at this
  obtain ⟨w, hw, -⟩ := hreps.getElem_bitmap hdiv
  have hlen : A.length ≤ s.heap.length := by
    have h1 := hc.length_le (Heap.Counted.refl s.heap)
    rw [hl, List.length_append] at h1
    omega
  obtain ⟨it, he, hb⟩ := hc.advanceBack A.length A B x n s.heap.length (idx / 64)
    (idx + 1) _ rfl hl hn
    hlen hdiv (hreps.pendingBack_mask hdiv hw) (fun i h1 h2 => by omega)
  refine ⟨it, ?_, hb⟩
  unfold Index.ReverseIterator.new Index.ReverseIterator.initAt
  rw [hn, Option.bind_eq_bind, Option.bind_some, if_neg (not_le.mpr hidx)]
  simp only [Reps.shift_div, Reps.shift_mod, hw, Option.bind_eq_bind, Option.bind_some]
  exact he

/-- A step moves a reverse iterator behind the position it stands at. -/
theorem Chained.nextReverse (hc : Chained T s leaves) {it : Index.ReverseIterator}
    {place : NodeId × ℕ} {rest : List (NodeId × ℕ)} (hb : it.Before s.heap leaves (place :: rest)) :
    ∃ it', it.next s.heap = some it' ∧ it'.Before s.heap leaves rest := by
  obtain ⟨A, B, n, hl, hn, hleaf, _, hidx, hlt, hp, hrest⟩ := hb
  have hlen : A.length ≤ s.heap.length := by
    have h1 := hc.length_le (Heap.Counted.refl s.heap)
    rw [hl, List.length_append] at h1
    omega
  obtain ⟨it', he, hb'⟩ :=
    hc.advanceBack A.length A B place.1 n s.heap.length it.curBitmapIdx place.2
    it.curBitmapData rfl hl hn hlen hidx hp (fun i h1 h2 => by omega)
  refine ⟨it', ?_, ?_⟩
  · unfold Index.ReverseIterator.next
    rw [hleaf, Option.bind_eq_bind, Option.bind_some, he]
  · rwa [hrest]

end LearnedIndex.Alexol
