import LearnedIndex.Alexol.LeafChain

/-! # Range scans

`range_scan_by_size` of a data node and of the index.  A scan starts one position before the upper
bound of its key, in whatever leaf the doubles lead to, so it is right exactly if that leaf holds
the key, or nothing is to be read (`rangeScanBySize_iff`).  The position before a leaf whose first
slot is above the key is `-1`, and the iterator then reads the word before the bitmap. -/

namespace LearnedIndex.Alexol

open LearnedIndex.Words LearnedIndex.Chains

variable {M P : Type}

namespace DataNode

/-- `Iterator(node, idx)` for an `int` position; there is no word before the bitmap. -/
def iteratorAt (n : DataNode M P) (idx : ℤ) : Option Slots.Iter :=
  if idx < 0 then none else Slots.Iter.init none n.toSlots idx.toNat

/-- The loop over an iterator until its end or until `toScan` pairs are read. -/
def readPairs (n : DataNode M P) : ℕ → Slots.Iter → Option (List (ℤ × P))
  | 0, _ => some []
  | toScan + 1, iter =>
      match iter.curIdx with
      | none => some []
      | some i => do
          let pair ← n.pairAt i
          let iter ← iter.next n.toSlots
          let rest ← readPairs n toScan iter
          some (pair :: rest)

variable [NodeModel M]

/-- `range_scan_by_size` in one leaf; a locked leaf is tested again for ever. -/
def scanLeaf (n : DataNode M P) (key : ℤ) (toScan : ℕ) :
    Option (List (ℤ × P) × DataNode M P) := do
  if isSet n.lock then none
  else
    let version := n.lock
    let predictedPos := n.predictPosition key
    let (c, n) ← n.exponentialSearchUpperBound predictedPos key
    let pos : ℤ := c - 1
    let iter ← n.iteratorAt pos
    let scanned ← n.readPairs toScan iter
    if version = n.lock then some (scanned, n) else none

end DataNode

namespace Index
variable [NodeModel M]

/-- `range_scan_by_size` from a leaf on; a recursion over more leaves than there are nodes never
ends. -/
def scanFrom (T : KeyType) : ℕ → Heap M P → NodeId → ℤ → ℕ → Option (List (ℤ × P) × Heap M P)
  | 0, _, _, _, _ => none
  | fuel + 1, h, leaf, key, toScan => do
      let n ← h.dataAt leaf
      let (scanned, n) ← n.scanLeaf key toScan
      let h := h.setData leaf n
      match n.nextLeaf with
      | none => some (scanned, h)
      | some nextLeaf =>
          if scanned.length < toScan then do
            let next ← h.dataAt nextLeaf
            let firstKey ← next.firstKey T
            let (rest, h) ← scanFrom T fuel h nextLeaf firstKey (toScan - scanned.length)
            some (scanned ++ rest, h)
          else some (scanned, h)

/-- `range_scan_by_size`: the pairs written to the result, whose number is returned. -/
def rangeScanBySize (D : Doubles) (T : KeyType) (s : Index M P) (key : ℤ) (toScan : ℕ) :
    Option (List (ℤ × P) × Index M P) := do
  let leaf ← s.getLeafOn D key
  let (result, h) ← scanFrom T s.heap.length s.heap leaf key toScan
  some (result, { s with heap := h })

end Index

/-! ### One leaf -/

namespace DataNode

variable {T : KeyType} {n : DataNode M P} {v : View P} {k : ℕ → ℤ}

/-- The pairs that are read from a filled position on. -/
theorem Holds.readPairs (h : Holds T n v k) : ∀ (toScan : ℕ) (iter : Slots.Iter) (j : ℕ),
    iter.curIdx = some j → v.bit j = true → iter.curBitmapIdx < n.bitmapSize →
    64 * iter.curBitmapIdx ≤ j → Pending v iter.curBitmapIdx iter.curBitmapData (j + 1) →
    n.readPairs toScan iter = some ((v.seg j v.cap).take toScan)
  | 0, _, _, _, _, _, _, _ => rfl
  | toScan + 1, iter, j, hcur, hb, hidx, hle, hp => by
      have hj := h.reps.lt_cap hb
      obtain ⟨p, hpair, hcell⟩ := h.pairAt_filled hj hb
      obtain ⟨iter', hnext, hcase⟩ := h.reps.iter_next_spec iter hidx hp (fun i h1 h2 => by omega)
      have hseg : v.seg j v.cap = (k j, p) :: v.seg (j + 1) v.cap := by
        rw [View.seg_append (Nat.le_succ j) hj, View.seg_single, hcell]
        rfl
      unfold DataNode.readPairs
      simp only [hcur, hpair, hnext, Option.bind_eq_bind, Option.bind_some]
      rcases hcase with ⟨hend, hclear⟩ | ⟨j', hcur', h1, h2, h3, h4, h5, h6⟩
      · have hnil : n.readPairs toScan iter' = some [] := by
          cases toScan with
          | zero => rfl
          | succ toScan =>
              unfold DataNode.readPairs
              rw [hend]
        rw [hnil, hseg, View.seg_gaps (fun i h1 _ => hclear i h1), List.take_succ_cons,
          List.take_nil]
        rfl
      · have hskip : v.seg (j + 1) v.cap = v.seg j' v.cap := by
          rw [View.seg_append h1 (h.reps.lt_cap h2).le, View.seg_gaps h3, List.nil_append]
        rw [h.readPairs toScan iter' j' hcur' h2 h4 h5 h6, hseg, hskip, List.take_succ_cons]
        rfl

/-- The pairs that are read from any position of the arrays on. -/
theorem Holds.readPairs_iteratorAt (h : Holds T n v k) {pos : ℕ} (hpos : pos < v.cap)
    (toScan : ℕ) : ∃ iter, n.iteratorAt pos = some iter ∧
      n.readPairs toScan iter = some ((v.seg pos v.cap).take toScan) := by
  obtain ⟨iter, hinit, hcase⟩ := h.reps.iter_init_spec none hpos
  refine ⟨iter, ?_, ?_⟩
  · unfold iteratorAt
    rw [if_neg (by omega), Int.toNat_natCast]
    exact hinit
  · rcases hcase with ⟨hend, hclear⟩ | ⟨j, hcur, h1, h2, h3, h4, h5, h6⟩
    · rw [View.seg_gaps (fun i h1 _ => hclear i h1), List.take_nil]
      cases toScan with
      | zero => rfl
      | succ toScan =>
          unfold DataNode.readPairs
          rw [hend]
    · rw [h.readPairs toScan iter j hcur h2 h4 h5 h6,
        View.seg_append h1 (h.reps.lt_cap h2).le, View.seg_gaps h3, List.nil_append]

/-- The position before an upper bound is filled, or the key is no less than the sentinel. -/
theorem Holds.before_cut (h : Holds T n v k) {key : ℤ} {c : ℕ} (hc : v.CutAt k (· ≤ key) c)
    (hc0 : c ≠ 0) :
    (v.bit (c - 1) = true ∧ ∃ p, n.pairAt (c - 1) = some (k (c - 1), p) ∧
        v.seg (c - 1) v.cap = (k (c - 1), p) :: v.seg c v.cap) ∨
      (v.bit (c - 1) = false ∧ c = v.cap ∧ T.max ≤ key) := by
  have hle := hc.le
  have hc1 : c - 1 + 1 = c := by omega
  cases hb : v.bit (c - 1) with
  | true =>
      obtain ⟨p, hpair, hcell⟩ := h.pairAt_filled (show c - 1 < v.cap by omega) hb
      refine Or.inl ⟨rfl, p, hpair, ?_⟩
      rw [View.seg_append (Nat.sub_le c 1) hle]
      conv_lhs => rw [← hc1]
      rw [Nat.add_sub_cancel, View.seg_single, hcell, hc1]
      rfl
  | false =>
      refine Or.inr ⟨rfl, ?_⟩
      have hgap := h.gapped.gap (c - 1) (by omega) hb
      rw [hc1] at hgap
      have hbelow : k (c - 1) ≤ key := hc.lt (c - 1) (by omega)
      rw [hgap] at hbelow
      have hcap : c = v.cap := by
        by_contra hne
        exact hc.ge c (le_refl c) (by omega) hbelow
      refine ⟨hcap, ?_⟩
      rwa [h.gapped.past c (by omega)] at hbelow

/-- No slot is behind the upper bound of a key that is no less than the sentinel. -/
theorem Holds.cut_of_max_le (h : Holds T n v k) {key : ℤ} {c : ℕ} (hc : v.CutAt k (· ≤ key) c)
    (hmax : T.max ≤ key) : c = v.cap := by
  have hle := hc.le
  by_contra hne
  exact hc.ge c (le_refl c) (by omega) ((h.gapped.le_past c).trans hmax)

/-- With no slot before the upper bound all keys of the leaf are larger, and so is the sentinel. -/
theorem Holds.above_of_cut_zero (h : Holds T n v k) {key : ℤ} (hc : v.CutAt k (· ≤ key) 0) :
    (∀ e ∈ n.pairs, key < e.1) ∧ key < T.max := by
  constructor
  · intro e he
    rw [h.pairs_eq] at he
    exact not_le.mp ((h.gapped.entries_cut hc).2.2 e he)
  · exact lt_of_lt_of_le (not_le.mp (hc.ge 0 (le_refl 0) h.reps.pos)) (h.gapped.le_past 0)

/-- A scan in a free leaf: nothing can be read before the first slot; from any other upper bound
on the scan reads the pair before the bound as well. -/
theorem Holds.scanLeaf [NodeModel M] (h : Holds T n v k) (hl : isSet n.lock = false)
    {key : ℤ} {c : ℕ}
    (hc : v.CutAt k (· ≤ key) c) (toScan : ℕ) :
    (c = 0 → n.scanLeaf key toScan = none) ∧
      (c ≠ 0 → ∃ a b, n.scanLeaf key toScan =
        some ((v.seg (c - 1) v.cap).take toScan, n.withCounters a b)) := by
  obtain ⟨iters, he⟩ := h.exponentialSearchUpperBound (cutAt_intCast.mpr hc)
    (n.predictPosition_lt key h.pos)
  have hle := hc.le
  unfold DataNode.scanLeaf
  simp only [hl, he, Bool.false_eq_true, if_false, Option.bind_eq_bind, Option.bind_some]
  constructor
  · rintro rfl
    unfold DataNode.iteratorAt
    rw [if_pos (by omega)]
    rfl
  · intro hc0
    have hh : Holds T (n.withCounters n.numLookups iters) v k := h.congr rfl rfl
    obtain ⟨iter, hiter, hread⟩ := hh.readPairs_iteratorAt (show c - 1 < v.cap by omega) toScan
    refine ⟨n.numLookups, iters, ?_⟩
    rw [show ((c : ℤ) - 1) = ((c - 1 : ℕ) : ℤ) by omega, hiter, Option.bind_some, hread,
      Option.bind_some]
    exact if_pos rfl

/-- The stored pairs before the position before an upper bound have smaller keys. -/
theorem Holds.pairs_at_cut (h : Holds T n v k) (hs : n.pairs.Pairwise (fun x y => x.1 < y.1))
    (hbelow : ∀ e ∈ n.pairs, e.1 < T.max) {key : ℤ} {c : ℕ} (hc : v.CutAt k (· ≤ key) c) :
    ∃ A, n.pairs = A ++ v.seg (c - 1) v.cap ∧ (∀ e ∈ A, e.1 < key) ∧
      ∀ e ∈ v.seg c v.cap, key < e.1 := by
  obtain ⟨_, _, hhigh⟩ := h.gapped.entries_cut hc
  have hle := hc.le
  have hpairs : n.pairs = v.seg 0 (c - 1) ++ v.seg (c - 1) v.cap := by
    rw [h.pairs_eq]
    exact View.seg_append (Nat.zero_le _) (by omega)
  refine ⟨v.seg 0 (c - 1), hpairs, fun e he => ?_, fun e he => not_le.mp (hhigh e he)⟩
  by_cases hc0 : c = 0
  · rw [hc0, Nat.zero_sub, View.seg_empty (le_refl 0)] at he
    cases he
  rcases h.before_cut hc hc0 with ⟨_, p, _, hseg⟩ | ⟨_, _, hmax⟩
  · rw [hpairs, hseg] at hs
    exact lt_of_lt_of_le ((List.pairwise_append.mp hs).2.2 e he _ (List.mem_cons_self ..))
      (hc.lt (c - 1) (by omega))
  · exact lt_of_lt_of_le (hbelow e (by rw [hpairs]; exact List.mem_append_left _ he)) hmax

/-- From its first key on all pairs of a leaf are read. -/
theorem Holds.seg_firstKey (h : Holds T n v k) (hs : n.pairs.Pairwise (fun x y => x.1 < y.1))
    (hbelow : ∀ e ∈ n.pairs, e.1 < T.max) {f : ℤ} (hf : n.firstKey T = some f) {c : ℕ}
    (hc : v.CutAt k (· ≤ f) c) : c ≠ 0 ∧ v.seg (c - 1) v.cap = n.pairs := by
  have hf : (n.pairs.head?.map Prod.fst).getD T.max = f :=
    Option.some.inj (h.firstKey.symm.trans hf)
  obtain ⟨A, hpairs, hA, _⟩ := h.pairs_at_cut hs hbelow hc
  have hfirst : k 0 ≤ f ∧ A = [] := by
    cases hp : n.pairs with
    | nil =>
        rw [hp] at hf hpairs
        exact ⟨hf ▸ h.gapped.le_past 0, (List.append_eq_nil_iff.mp hpairs.symm).1⟩
    | cons x rest =>
        rw [hp] at hf hpairs
        obtain rfl : x.1 = f := hf
        constructor
        · have hx : x ∈ v.entries := by
            rw [← h.pairs_eq, hp]
            exact List.mem_cons_self ..
          obtain ⟨i, _, hi, hcell⟩ := View.mem_seg.mp hx
          rw [(h.gapped.key_of_cell hi hcell).2]
          exact h.gapped.mono (Nat.zero_le i)
        · cases A with
          | nil => rfl
          | cons y A =>
              obtain rfl := (List.cons.inj hpairs).1
              exact absurd (hA x (List.mem_cons_self ..)) (lt_irrefl _)
  refine ⟨?_, ?_⟩
  · rintro rfl
    exact hc.ge 0 (le_refl 0) h.reps.pos hfirst.1
  · rw [hpairs, hfirst.2, List.nil_append]

end DataNode

/-! ### The chain -/

variable {D : Doubles} {T : KeyType} {s : Index M P} {leaves : List NodeId}

/-- A scan over the leaves behind a place reads all their pairs. -/
theorem Chained.scanFrom [NodeModel M] (h : Chained T s leaves)
    (hmax : ∀ e ∈ s.heap.pairsOf leaves, e.1 < T.max) : ∀ (B A : List NodeId) (x : NodeId)
    (fuel : ℕ) (h' : Heap M P) (key : ℤ) (toScan : ℕ) (n : DataNode M P) (v : View P)
    (k : ℕ → ℤ) (c : ℕ), leaves = A ++ x :: B → s.heap.Counted h' → B.length < fuel →
    s.heap.dataAt x = some n → DataNode.Holds T n v k → v.CutAt k (· ≤ key) c → c ≠ 0 →
    ∃ h'', Index.scanFrom T fuel h' x key toScan =
      some ((v.seg (c - 1) v.cap ++ s.heap.pairsOf B).take toScan, h'') ∧ s.heap.Counted h'' := by
  intro B
  induction B with
  | nil =>
      intro A x fuel h' key toScan n v k c hl hcount hfuel hn hh hc hc0
      obtain ⟨fuel, rfl⟩ : ∃ f, fuel = f + 1 := ⟨fuel - 1, by omega⟩
      obtain ⟨n', hn', hfree, _, hnext, _⟩ := h.at_split hl
      obtain rfl := Option.some.inj (hn.symm.trans hn')
      obtain ⟨a, b, hx⟩ := hcount x n hn
      have hh' : DataNode.Holds T (n.withCounters a b) v k := hh.congr rfl rfl
      obtain ⟨a', b', hscan⟩ := (hh'.scanLeaf hfree.free hc toScan).2 hc0
      refine ⟨h'.setData x (n.withCounters a' b'), ?_, hcount.setData hn a' b'⟩
      unfold Index.scanFrom
      simp only [hx, hscan, Option.bind_eq_bind, Option.bind_some]
      have hlink : ((n.withCounters a b).withCounters a' b').nextLeaf = none := hnext
      rw [hlink, Heap.pairsOf_nil, List.append_nil]
      rfl
  | cons y B ih =>
      intro A x fuel h' key toScan n v k c hl hcount hfuel hn hh hc hc0
      obtain ⟨fuel, rfl⟩ : ∃ f, fuel = f + 1 := ⟨fuel - 1, by omega⟩
      obtain ⟨n', hn', hfree, _, hnext, _⟩ := h.at_split hl
      obtain rfl := Option.some.inj (hn.symm.trans hn')
      obtain ⟨a, b, hx⟩ := hcount x n hn
      have hh' : DataNode.Holds T (n.withCounters a b) v k := hh.congr rfl rfl
      obtain ⟨a', b', hscan⟩ := (hh'.scanLeaf hfree.free hc toScan).2 hc0
      have hcount' := hcount.setData hn a' b'
      have hlink : ((n.withCounters a b).withCounters a' b').nextLeaf = some y := hnext
      unfold Index.scanFrom
      simp only [hx, hscan, Option.bind_eq_bind, Option.bind_some, hlink]
      by_cases hmore : ((v.seg (c - 1) v.cap).take toScan).length < toScan
      · -- the next leaf is scanned from its first key
        have hlen : (v.seg (c - 1) v.cap).length < toScan := by
          rw [List.length_take] at hmore
          omega
        have hl' : leaves = (A ++ [x]) ++ y :: B := by rw [hl]; simp
        obtain ⟨m, hm, hmfree, hms, _⟩ := h.at_split hl'
        have hmbelow := fun e he => hmax e (Heap.mem_pairsOf.mpr ⟨y, by rw [hl]; simp, m, hm, he⟩)
        obtain ⟨a₂, b₂, hy⟩ := hcount' y m hm
        have hmh := hmfree.wf.holds
        obtain ⟨f, hf⟩ : ∃ f, m.firstKey T = some f := ⟨_, hmh.firstKey⟩
        obtain ⟨c₂, hc₂⟩ := hmh.exists_upper (f : ℚ)
        obtain ⟨hc₂0, hseg⟩ := hmh.seg_firstKey hms hmbelow hf
          (DataNode.cutAt_intCast.mp hc₂)
        have hf' : (m.withCounters a₂ b₂).firstKey T = some f := by
          have hmh' : DataNode.Holds T (m.withCounters a₂ b₂) m.view (m.keyFrom T) :=
            hmh.congr rfl rfl
          have hpairs : (m.withCounters a₂ b₂).pairs = m.pairs := DataNode.pairs_congr rfl
          rw [hmh'.firstKey, hpairs, ← hmh.firstKey, hf]
        obtain ⟨h'', hrest, hcount''⟩ := ih (A ++ [x]) y fuel _ f
          (toScan - (v.seg (c - 1) v.cap).length) m _ _ c₂ hl' hcount' (by simpa using hfuel) hm hmh
          (DataNode.cutAt_intCast.mp hc₂) hc₂0
        have hx' : h'.setData x ((n.withCounters a b).withCounters a' b') =
            h'.setData x (n.withCounters a' b') := rfl
        rw [if_pos hmore, hx', hy]
        simp only [Option.bind_some, hf', List.take_of_length_le hlen.le, hrest, hseg]
        refine ⟨h'', ?_, hcount''⟩
        have htake : (v.seg (c - 1) v.cap ++ (m.pairs ++ s.heap.pairsOf B)).take toScan =
            v.seg (c - 1) v.cap ++ (m.pairs ++ s.heap.pairsOf B).take
              (toScan - (v.seg (c - 1) v.cap).length) := by
          rw [List.take_append, List.take_of_length_le hlen.le]
        rw [Heap.pairsOf_cons hm, htake]
      · have hlen : toScan ≤ (v.seg (c - 1) v.cap).length := by
          rw [List.length_take] at hmore
          omega
        rw [if_neg hmore]
        refine ⟨_, ?_, hcount'⟩
        rw [List.take_append_of_le_length hlen]
        rfl

/-- The pairs that a scan has to read. -/
def Index.pairsFrom (s : Index M P) (leaves : List NodeId) (key : ℤ) : List (ℤ × P) :=
  (s.heap.pairsOf leaves).filter (fun e => decide (key ≤ e.1))

/-- The leaf that `get_leaf` returns holds the key; or nothing is to be read and its first slot is
not above the key; or the key is no less than the sentinel, the last slot of the leaf is a gap, and
the leaves behind it store nothing. -/
def Index.scanStarts (D : Doubles) (T : KeyType) (s : Index M P) (leaves : List NodeId) (key : ℤ)
    (toScan : ℕ) : Prop :=
  ∃ A leaf B n, leaves = A ++ leaf :: B ∧ s.getLeafOn D key = some leaf ∧
    s.heap.dataAt leaf = some n ∧
    ((∃ p, (key, p) ∈ n.pairs) ∨ (toScan = 0 ∧ ∃ x, n.keyAt 0 = some x ∧ x ≤ key) ∨
      (T.max ≤ key ∧ ¬ n.Filled (n.dataCapacity - 1) ∧ s.heap.pairsOf B = []))

theorem filter_eq_nil_of_lt {l : List (ℤ × P)} {key : ℤ} (h : ∀ e ∈ l, e.1 < key) :
    l.filter (fun e => decide (key ≤ e.1)) = [] := by
  refine List.filter_eq_nil_iff.mpr (fun e he => ?_)
  rw [decide_eq_true_eq, not_le]
  exact h e he

theorem filter_eq_self_of_lt {l : List (ℤ × P)} {key : ℤ} (h : ∀ e ∈ l, key < e.1) :
    l.filter (fun e => decide (key ≤ e.1)) = l :=
  List.filter_eq_self.mpr (fun e he => decide_eq_true (h e he).le)

/-- A scan fails in front of the first slot; otherwise it begins one position before the upper
bound. -/
theorem Chained.rangeScanBySize [NodeModel M] (h : Chained T s leaves)
    (hmax : ∀ e ∈ s.heap.pairsOf leaves, e.1 < T.max) {A B : List NodeId} {x : NodeId}
    {key : ℤ} (hl : leaves = A ++ x :: B) (hget : s.getLeafOn D key = some x) {n : DataNode M P}
    (hn : s.heap.dataAt x = some n) {v : View P} {k : ℕ → ℤ} (hh : DataNode.Holds T n v k)
    {c : ℕ} (hc : v.CutAt k (· ≤ key) c) (toScan : ℕ) :
    (c = 0 → s.rangeScanBySize D T key toScan = none) ∧
      (c ≠ 0 → ∃ s', s.rangeScanBySize D T key toScan =
        some ((v.seg (c - 1) v.cap ++ s.heap.pairsOf B).take toScan, s')) := by
  have hlen := h.length_le (Heap.Counted.refl _)
  rw [hl, List.length_append, List.length_cons] at hlen
  obtain ⟨n', hn', hfree, _⟩ := h.at_split hl
  obtain rfl := Option.some.inj (hn.symm.trans hn')
  unfold Index.rangeScanBySize
  rw [hget, Option.bind_eq_bind, Option.bind_some]
  constructor
  · intro hc0
    obtain ⟨fuel, hfuel⟩ : ∃ f, s.heap.length = f + 1 := ⟨s.heap.length - 1, by omega⟩
    have hscan := (hh.scanLeaf hfree.free hc toScan).1 hc0
    rw [hfuel]
    unfold Index.scanFrom
    simp only [hn, hscan, Option.bind_eq_bind, Option.bind_some, Option.bind_none]
  · intro hc0
    obtain ⟨h', hscan, _⟩ := h.scanFrom hmax B A x s.heap.length s.heap key toScan n v k c hl
      (Heap.Counted.refl _) (by omega) hn hh hc hc0
    exact ⟨_, by rw [hscan]; rfl⟩

/-- The place of a leaf in a chain is determined by the leaf. -/
theorem Chained.split_unique (h : Chained T s leaves) {A A' B B' : List NodeId} {x : NodeId}
    (hl : leaves = A ++ x :: B) (hl' : leaves = A' ++ x :: B') : A = A' ∧ B = B' := by
  have hnd := h.nodup
  rw [hl] at hnd
  have hA : x ∉ A := fun hx => (List.nodup_append.mp hnd).2.2 x hx x (List.mem_cons_self ..) rfl
  have hB : x ∉ B := (List.nodup_cons.mp (List.nodup_append.mp hnd).2.1).1
  obtain ⟨hA', -, hB'⟩ := (List.append_cons_inj_of_notMem hA hB).mp (hl.symm.trans hl')
  exact ⟨hA', hB'⟩

/-- Around a stored key there are only smaller keys before it and only larger ones behind it. -/
theorem Chained.pairsFrom_stored (h : Chained T s leaves) {key : ℤ} {p : P}
    {before behind : List (ℤ × P)}
    (hsplit : s.heap.pairsOf leaves = before ++ (key, p) :: behind) :
    s.pairsFrom leaves key = (key, p) :: behind := by
  have hs := h.sorted
  rw [hsplit] at hs
  obtain ⟨-, hbehind, hbefore⟩ := List.pairwise_append.mp hs
  unfold Index.pairsFrom
  rw [hsplit, List.filter_append, List.filter_cons_of_pos (by simp),
    filter_eq_nil_of_lt (fun e he => hbefore e he _ (List.mem_cons_self ..)),
    filter_eq_self_of_lt (fun e he => (List.pairwise_cons.mp hbehind).1 e he), List.nil_append]

/-- The condition, at the leaf that `get_leaf` returns. -/
theorem Chained.scanStarts_iff (h : Chained T s leaves) {A B : List NodeId} {x : NodeId} {key : ℤ}
    (hl : leaves = A ++ x :: B) (hget : s.getLeafOn D key = some x) {n : DataNode M P}
    (hn : s.heap.dataAt x = some n) (toScan : ℕ) : s.scanStarts D T leaves key toScan ↔
      (∃ p, (key, p) ∈ n.pairs) ∨ (toScan = 0 ∧ ∃ x, n.keyAt 0 = some x ∧ x ≤ key) ∨
        (T.max ≤ key ∧ ¬ n.Filled (n.dataCapacity - 1) ∧ s.heap.pairsOf B = []) := by
  constructor
  · rintro ⟨A', x', B', n', hl', hget', hn', hcase⟩
    obtain rfl := Option.some.inj (hget.symm.trans hget')
    obtain rfl := Option.some.inj (hn.symm.trans hn')
    obtain ⟨-, rfl⟩ := h.split_unique hl hl'
    exact hcase
  · exact fun hcase => ⟨A, x, B, n, hl, hget, hn, hcase⟩

/-- What a scan reads from a filled slot on is right if the slot holds the key; otherwise it holds
the predecessor, which is read if anything is. -/
theorem Chained.take_filled_iff (h : Chained T s leaves)
    (hmax : ∀ e ∈ s.heap.pairsOf leaves, e.1 < T.max) {A B : List NodeId} {x : NodeId} {key : ℤ}
    (hl : leaves = A ++ x :: B) {n : DataNode M P} (hn : s.heap.dataAt x = some n) {c : ℕ}
    (hc : n.view.CutAt (n.keyFrom T) (· ≤ key) c) (hc0 : c ≠ 0)
    (hb : n.view.bit (c - 1) = true) (toScan : ℕ) :
    (n.view.seg (c - 1) n.view.cap ++ s.heap.pairsOf B).take toScan =
        (s.pairsFrom leaves key).take toScan ↔
      (∃ p, (key, p) ∈ n.pairs) ∨ (toScan = 0 ∧ ∃ x, n.keyAt 0 = some x ∧ x ≤ key) ∨
        (T.max ≤ key ∧ ¬ n.Filled (n.dataCapacity - 1) ∧ s.heap.pairsOf B = []) := by
  obtain ⟨n', hn', hfree, hs, _⟩ := h.at_split hl
  obtain rfl := Option.some.inj (hn.symm.trans hn')
  have hbelow := fun e he => hmax e (Heap.mem_pairsOf.mpr ⟨x, by rw [hl]; simp, n, hn, he⟩)
  have hh := hfree.wf.holds
  obtain ⟨A', hpairs, hA', hhigh⟩ := hh.pairs_at_cut hs hbelow hc
  obtain ⟨p, _, hseg⟩ : ∃ p, n.pairAt (c - 1) = some (n.keyFrom T (c - 1), p) ∧
      n.view.seg (c - 1) n.view.cap = (n.keyFrom T (c - 1), p) :: n.view.seg c n.view.cap := by
    rcases hh.before_cut hc hc0 with ⟨_, hfilled⟩ | ⟨hgap, _⟩
    · exact hfilled
    · rw [hb] at hgap
      cases hgap
  have hk : n.keyFrom T (c - 1) ≤ key := hc.lt (c - 1) (by omega)
  rw [hseg] at hpairs ⊢
  rcases hk.eq_or_lt with hk | hk
  · -- the slot holds the key
    refine iff_of_true ?_ (Or.inl ⟨p, ?_⟩)
    · have hsplit : s.heap.pairsOf leaves = (s.heap.pairsOf A ++ A') ++
          (key, p) :: (n.view.seg c n.view.cap ++ s.heap.pairsOf B) := by
        rw [hl, Heap.pairsOf_append, Heap.pairsOf_cons hn, hpairs, hk]
        simp
      rw [h.pairsFrom_stored hsplit, hk, List.cons_append]
    · rw [hpairs, hk]
      exact List.mem_append_right _ (List.mem_cons_self ..)
  · cases toScan with
    | zero =>
        exact iff_of_true rfl
          (Or.inr (Or.inl ⟨rfl, _, hh.keyAt hh.reps.pos, hc.lt 0 (by omega)⟩))
    | succ toScan =>
        refine iff_of_false (fun he => ?_) ?_
        · rw [List.cons_append, List.take_succ_cons] at he
          have hhead : (n.keyFrom T (c - 1), p) ∈ s.pairsFrom leaves key :=
            List.mem_of_mem_take (he ▸ List.mem_cons_self ..)
          have hge := of_decide_eq_true (List.mem_filter.mp hhead).2
          exact absurd hge (not_le.mpr hk)
        · rintro (⟨q, hq⟩ | ⟨h0, _⟩ | ⟨hle, hgap, _⟩)
          · rw [hpairs] at hq
            rcases List.mem_append.mp hq with hq | hq
            · exact lt_irrefl _ (hA' _ hq)
            · rcases List.mem_cons.mp hq with hq | hq
              · exact hk.ne (Prod.mk.inj hq).1.symm
              · exact lt_irrefl _ (hhigh _ hq)
          · cases h0
          · rw [hh.cut_of_max_le hc hle] at hb
            exact hgap hb

/-- In front of a gap at the end the key is no less than the sentinel, and nothing is stored from it
on: the scan is right if it has nothing to read. -/
theorem Chained.take_gap_iff (h : Chained T s leaves)
    (hmax : ∀ e ∈ s.heap.pairsOf leaves, e.1 < T.max) {A B : List NodeId} {x : NodeId} {key : ℤ}
    (hl : leaves = A ++ x :: B) {n : DataNode M P} (hn : s.heap.dataAt x = some n) {c : ℕ}
    (hc : n.view.CutAt (n.keyFrom T) (· ≤ key) c) (hc0 : c ≠ 0)
    (hb : n.view.bit (c - 1) = false) (toScan : ℕ) :
    (n.view.seg (c - 1) n.view.cap ++ s.heap.pairsOf B).take toScan =
        (s.pairsFrom leaves key).take toScan ↔
      (∃ p, (key, p) ∈ n.pairs) ∨ (toScan = 0 ∧ ∃ x, n.keyAt 0 = some x ∧ x ≤ key) ∨
        (T.max ≤ key ∧ ¬ n.Filled (n.dataCapacity - 1) ∧ s.heap.pairsOf B = []) := by
  obtain ⟨n', hn', hfree, _⟩ := h.at_split hl
  obtain rfl := Option.some.inj (hn.symm.trans hn')
  have hh := hfree.wf.holds
  obtain ⟨hcap, hmaxkey⟩ : c = n.view.cap ∧ T.max ≤ key := by
    rcases hh.before_cut hc hc0 with ⟨hfilled, _⟩ | ⟨_, hend⟩
    · rw [hb] at hfilled
      cases hfilled
    · exact hend
  have hseg : n.view.seg (c - 1) n.view.cap = [] := by
    refine View.seg_gaps (fun i h1 h2 => ?_)
    rw [show i = c - 1 by omega]
    exact hb
  have hfrom : s.pairsFrom leaves key = [] :=
    filter_eq_nil_of_lt (fun e he => lt_of_lt_of_le (hmax e he) hmaxkey)
  have hgap : ¬ n.Filled (n.dataCapacity - 1) := by
    rw [hcap] at hb
    rw [hh.filled_iff]
    exact fun hf => absurd (hb.symm.trans hf) (by simp)
  have hnot : ¬ ∃ p, (key, p) ∈ n.pairs := by
    rintro ⟨p, hp⟩
    have hlt := hmax _ (Heap.mem_pairsOf.mpr ⟨x, by rw [hl]; simp, n, hn, hp⟩)
    exact absurd hlt (not_lt.mpr hmaxkey)
  rw [hseg, hfrom, List.nil_append, List.take_nil, List.take_eq_nil_iff]
  constructor
  · rintro (h0 | hB)
    · exact Or.inr (Or.inl ⟨h0, _, hh.keyAt hh.reps.pos, hc.lt 0 (by omega)⟩)
    · exact Or.inr (Or.inr ⟨hmaxkey, hgap, hB⟩)
  · rintro (hstored | ⟨h0, -⟩ | ⟨-, -, hB⟩)
    · exact absurd hstored hnot
    · exact Or.inl h0
    · exact Or.inr hB

/-- **A range scan returns the smallest pairs from its key on**, whatever the arithmetic on doubles,
exactly if it starts at the key, or has nothing to read. -/
theorem rangeScanBySize_iff [NodeModel M] (h : Chained T s leaves)
    (hmax : ∀ e ∈ s.heap.pairsOf leaves, e.1 < T.max) (key : ℤ) (toScan : ℕ) :
    (∃ s', s.rangeScanBySize D T key toScan = some ((s.pairsFrom leaves key).take toScan, s')) ↔
      s.scanStarts D T leaves key toScan := by
  obtain ⟨A, x, B, hl, hget⟩ := h.getLeafOn D key
  obtain ⟨n, hn, hfree, _⟩ := h.at_split hl
  have hh := hfree.wf.holds
  obtain ⟨c, hcq⟩ := hh.exists_upper (key : ℚ)
  have hc := DataNode.cutAt_intCast.mp hcq
  obtain ⟨hnone, hsome⟩ := h.rangeScanBySize hmax hl hget hn hh hc toScan
  rw [h.scanStarts_iff hl hget hn]
  by_cases hc0 : c = 0
  · -- the word before the bitmap is read
    rw [hnone hc0]
    refine iff_of_false (fun ⟨_, he⟩ => (by cases he)) ?_
    rw [hc0] at hc
    obtain ⟨habove, hlt⟩ := hh.above_of_cut_zero hc
    rintro (⟨p, hp⟩ | ⟨_, y, hy, hle⟩ | ⟨hmax, _⟩)
    · exact lt_irrefl _ (habove _ hp)
    · rw [hh.keyAt hh.reps.pos] at hy
      exact hc.ge 0 (le_refl 0) hh.reps.pos (Option.some.inj hy ▸ hle)
    · exact absurd hlt (not_lt.mpr hmax)
  · obtain ⟨s', hscan⟩ := hsome hc0
    have hiff : (∃ s', s.rangeScanBySize D T key toScan =
        some ((s.pairsFrom leaves key).take toScan, s')) ↔
        (n.view.seg (c - 1) n.view.cap ++ s.heap.pairsOf B).take toScan =
          (s.pairsFrom leaves key).take toScan := by
      rw [hscan]
      constructor
      · rintro ⟨s'', he⟩
        exact (Prod.mk.inj (Option.some.inj he)).1
      · intro he
        exact ⟨s', by rw [he]⟩
    rw [hiff]
    cases hb : n.view.bit (c - 1) with
    | true => exact h.take_filled_iff hmax hl hn hc hc0 hb toScan
    | false => exact h.take_gap_iff hmax hl hn hc hc0 hb toScan

theorem rangeScanBySize_threeKeys : ∃ n s', DataNode.threeKeys = some n ∧
    (Index.ofLeaf n).rangeScanBySize Doubles.binary64 KeyType.uint64 2 5 =
      some (((Index.ofLeaf n).pairsFrom [0] 2).take 5, s') := by
  obtain ⟨n, hn, h⟩ := threeKeys_chained
  have hpairs : DataNode.threeKeys.map (fun n => n.pairs) = some [(1, 10), (2, 20), (3, 30)] := by
    decide +kernel
  rw [hn, Option.map_some, Option.some.injEq] at hpairs
  have hmax : ∀ e ∈ (Index.ofLeaf n).heap.pairsOf [0], e.1 < KeyType.uint64.max := by
    rw [pairsOf_ofLeaf, hpairs]
    decide
  obtain ⟨s', hs'⟩ := (rangeScanBySize_iff h hmax 2 5).mpr
    ⟨[], 0, [], n, rfl, rfl, rfl, Or.inl ⟨20, by rw [hpairs]; decide⟩⟩
  exact ⟨n, s', hn, hs'⟩

/-- Scans from keys that are not stored: above all keys the last pair is returned, and below all
keys the word before the bitmap is read. -/
theorem rangeScanBySize_absent : ∃ n, DataNode.threeKeys = some n ∧
    Chained KeyType.uint64 (Index.ofLeaf n) [0] ∧
    ((Index.ofLeaf n).rangeScanBySize Doubles.binary64 KeyType.uint64 4 1).map Prod.fst = some
    [(3, 30)] ∧
    (Index.ofLeaf n).pairsFrom [0] 4 = [] ∧
    (Index.ofLeaf n).rangeScanBySize Doubles.binary64 KeyType.uint64 0 1 = none := by
  obtain ⟨n, hn, h⟩ := threeKeys_chained
  have hruns : DataNode.threeKeys.map (fun n =>
      (((Index.ofLeaf n).rangeScanBySize Doubles.binary64 KeyType.uint64 4 1).map Prod.fst,
        (Index.ofLeaf n).pairsFrom [0] 4,
        ((Index.ofLeaf n).rangeScanBySize Doubles.binary64 KeyType.uint64 0 1).map Prod.fst)) =
      some (some [(3, 30)], [], none) := by
    decide +kernel
  rw [hn, Option.map_some, Option.some.injEq, Prod.mk.injEq, Prod.mk.injEq, Option.map_eq_none_iff]
    at hruns
  exact ⟨n, hn, h, hruns⟩

end LearnedIndex.Alexol
