import LearnedIndex.Alexol.Iterators
import LearnedIndex.Alexol.Scan

/-! # Predecessor lookups

`find_last_no_greater_than` and `get_payload_last_no_greater_than` look one slot before the upper
bound of the key, in whatever leaf the doubles lead to, and in the previous leaves if there is none.
They differ at the left end of the list only: there the iterator runs to the first pair of the
index, while `first_pos` of an empty leaf is a slot without a pair.  Where they agree, they are
right if the leaf they begin in is (`findsPredecessor_iff`). -/

namespace LearnedIndex.Alexol

open LearnedIndex.Words LearnedIndex.Chains

variable {M P : Type}

namespace DataNode

/-- The first filled position of a list, or 0. -/
def firstFilledPos (n : DataNode M P) : List ℕ → Option ℕ
  | [] => some 0
  | i :: is => do
      if ← n.checkExists i then some i else firstFilledPos n is

def firstPos (n : DataNode M P) : Option ℕ := n.firstFilledPos (List.range n.dataCapacity)

def lastPos (n : DataNode M P) : Option ℕ := n.firstFilledPos (List.range n.dataCapacity).reverse

end DataNode

namespace Index

/-- The loop over the previous leaves: the next leaf on the left that has keys (`true`), or the
leftmost leaf. -/
def prevNonEmpty (h : Heap M P) : ℕ → NodeId → Option (NodeId × Bool)
  | fuel, leaf => do
      let n ← h.dataAt leaf
      match n.prevLeaf with
      | none => some (leaf, false)
      | some prev =>
          match fuel with
          | 0 => none
          | fuel + 1 => do
              let m ← h.dataAt prev
              if 0 < m.numKeys then some (prev, true) else prevNonEmpty h fuel prev

variable [NodeModel M]

/-- The leaf of a key and the upper bound of the key in it. -/
def upperBoundInLeaf (D : Doubles) (s : Index M P) (key : ℤ) :
    Option (NodeId × ℕ × Heap M P) := do
  let leaf ← s.getLeafOn D key
  let n ← s.heap.dataAt leaf
  let (c, n) ← n.upperBound key
  some (leaf, c, s.heap.setData leaf n)

def findLastNoGreaterThan (D : Doubles) (s : Index M P) (key : ℤ) :
    Option (Iterator × Index M P) := do
  let (leaf, c, h) ← s.upperBoundInLeaf D key
  let idx : ℤ := c - 1
  if 0 ≤ idx then do
    let it ← Iterator.new h leaf idx.toNat
    some (it, { s with heap := h })
  else do
    let (leaf, hasKeys) ← prevNonEmpty h h.length leaf
    let n ← h.dataAt leaf
    let pos ← (if hasKeys then n.lastPos else some 0)
    let it ← Iterator.new h leaf pos
    some (it, { s with heap := h })

/-- The address of a payload is its leaf and its slot. -/
def getPayloadLastNoGreaterThan (D : Doubles) (s : Index M P) (key : ℤ) :
    Option ((NodeId × ℕ) × Index M P) := do
  let (leaf, c, h) ← s.upperBoundInLeaf D key
  let idx : ℤ := c - 1
  if 0 ≤ idx then some ((leaf, idx.toNat), { s with heap := h })
  else do
    let (leaf, hasKeys) ← prevNonEmpty h h.length leaf
    let n ← h.dataAt leaf
    let pos ← (if hasKeys then n.lastPos else n.firstPos)
    some ((leaf, pos), { s with heap := h })

end Index

/-! ### The positions of one leaf -/

namespace DataNode

variable {T : KeyType} {n : DataNode M P} {v : View P} {k : ℕ → ℤ}

theorem Holds.firstFilledPos (h : Holds T n v k) : ∀ (l : List ℕ), (∀ i ∈ l, i < v.cap) →
    n.firstFilledPos l = some ((l.filter v.bit).head?.getD 0) := by
  intro l
  induction l with
  | nil => intro _; rfl
  | cons i l ih =>
      intro hl
      have hi := hl i (List.mem_cons_self ..)
      unfold DataNode.firstFilledPos
      rw [h.reps.checkExists hi, Option.bind_eq_bind, Option.bind_some]
      cases hb : v.bit i with
      | false =>
          rw [if_neg (by simp), ih (fun j hj => hl j (List.mem_cons_of_mem i hj)),
            List.filter_cons_of_neg (by simp [hb])]
      | true => rw [if_pos rfl, List.filter_cons_of_pos hb]; rfl

/-- The first filled position, or 0. -/
theorem Holds.firstPos (h : Holds T n v k) :
    n.firstPos = some ((v.filledFrom 0).head?.getD 0) := by
  have hrange : List.range n.dataCapacity = List.range' 0 (v.cap - 0) := by
    rw [h.reps.cap, Nat.sub_zero, List.range_eq_range']
  unfold DataNode.firstPos
  rw [hrange]
  refine h.firstFilledPos _ (fun i hi => ?_)
  rw [List.mem_range'_1] at hi
  omega

/-- The last filled position, or 0. -/
theorem Holds.lastPos (h : Holds T n v k) :
    n.lastPos = some ((v.filledFrom 0).getLast?.getD 0) := by
  have hrange : List.range n.dataCapacity = List.range' 0 (v.cap - 0) := by
    rw [h.reps.cap, Nat.sub_zero, List.range_eq_range']
  unfold DataNode.lastPos
  rw [hrange, h.firstFilledPos _ (fun i hi => ?_), List.filter_reverse, List.head?_reverse]
  · rfl
  · rw [List.mem_reverse, List.mem_range'_1] at hi
    omega

/-- The pairs before, at and behind a filled position. -/
theorem Holds.pairs_split (h : Holds T n v k) {i : ℕ} (hb : v.bit i = true) :
    ∃ p, n.pairAt i = some (k i, p) ∧
      n.pairs = v.seg 0 i ++ (k i, p) :: v.seg (i + 1) v.cap := by
  have hi := h.reps.lt_cap hb
  obtain ⟨p, hpair, hcell⟩ := h.pairAt_filled hi hb
  refine ⟨p, hpair, ?_⟩
  rw [h.pairs_eq]
  calc v.entries = v.seg 0 i ++ v.seg i v.cap := View.seg_append (Nat.zero_le i) hi.le
    _ = v.seg 0 i ++ (v.seg i (i + 1) ++ v.seg (i + 1) v.cap) := by
        rw [View.seg_append (Nat.le_succ i) hi]
    _ = v.seg 0 i ++ (k i, p) :: v.seg (i + 1) v.cap := by
        rw [View.seg_single, hcell]
        rfl

end DataNode

/-! ### The walk over the previous leaves -/

variable {D : Doubles} {T : KeyType} {s : Index M P} {leaves : List NodeId}

/-- The walk ends at the next leaf on the left that has pairs; all leaves between are empty. -/
theorem Chained.prevNonEmpty (hc : Chained T s leaves) {h' : Heap M P}
    (hcount : s.heap.Counted h') : ∀ (A : List NodeId) (x : NodeId) (B : List NodeId) (fuel : ℕ),
    leaves = A ++ x :: B → A.length ≤ fuel →
    (∃ A₁ y A₂ m, A = A₁ ++ y :: A₂ ∧ s.heap.dataAt y = some m ∧ m.pairs ≠ [] ∧
        s.heap.pairsOf A₂ = [] ∧ Index.prevNonEmpty h' fuel x = some (y, true)) ∨
      (s.heap.pairsOf A = [] ∧
        ∃ y C, leaves = y :: C ∧ Index.prevNonEmpty h' fuel x = some (y, false)) := by
  intro A
  induction A using List.reverseRecOn with
  | nil =>
      intro x B fuel hl _
      obtain ⟨n, hn, _, _, _, hprev⟩ := hc.at_split hl
      obtain ⟨a, b, hx⟩ := hcount x n hn
      have hlink : (n.withCounters a b).prevLeaf = none := hprev
      refine Or.inr ⟨rfl, x, B, hl, ?_⟩
      rw [Index.prevNonEmpty, hx, Option.bind_eq_bind, Option.bind_some, hlink]
  | append_singleton A y ih =>
      intro x B fuel hl hfuel
      obtain ⟨fuel, rfl⟩ : ∃ f, fuel = f + 1 := ⟨fuel - 1, by simp at hfuel; omega⟩
      obtain ⟨n, hn, _, _, _, hprev⟩ := hc.at_split hl
      have hl' : leaves = A ++ y :: (x :: B) := by rw [hl]; simp
      obtain ⟨m, hm, hfree, _⟩ := hc.at_split hl'
      obtain ⟨a, b, hx⟩ := hcount x n hn
      obtain ⟨c, d, hy⟩ := hcount y m hm
      have hlink : (n.withCounters a b).prevLeaf = some y := by
        rw [List.getLast?_concat] at hprev
        exact hprev
      have hkeys : (m.withCounters c d).numKeys = m.pairs.length := hfree.wf.numKeys
      have hstep : Index.prevNonEmpty h' (fuel + 1) x =
          if 0 < m.pairs.length then some (y, true) else Index.prevNonEmpty h' fuel y := by
        rw [Index.prevNonEmpty, hx, Option.bind_eq_bind, Option.bind_some, hlink]
        simp only [hy, Option.bind_some, hkeys]
      rw [hstep]
      by_cases hpos : 0 < m.pairs.length
      · rw [if_pos hpos]
        exact Or.inl ⟨A, y, [], m, rfl, hm, List.length_pos_iff.mp hpos, rfl, rfl⟩
      · rw [if_neg hpos]
        have hnil : m.pairs = [] := List.length_eq_zero_iff.mp (by omega)
        have hy0 : s.heap.pairsOf [y] = [] := by
          rw [Heap.pairsOf_cons hm, hnil, Heap.pairsOf_nil, List.nil_append]
        rcases ih y (x :: B) fuel hl' (by simpa using hfuel) with
          ⟨A₁, z, A₂, m', rfl, hz, hne, hA₂, hwalk⟩ | ⟨hA, hwalk⟩
        · refine Or.inl ⟨A₁, z, A₂ ++ [y], m', by simp, hz, hne, ?_, hwalk⟩
          rw [Heap.pairsOf_append, hA₂, hy0, List.nil_append]
        · refine Or.inr ⟨?_, hwalk⟩
          rw [Heap.pairsOf_append, hA, hy0, List.nil_append]

/-! ### What has to be found -/

/-- The place of the largest key that is no greater, or of the smallest key if there is none. -/
def Index.IsPredecessor (s : Index M P) (leaves : List NodeId) (key : ℤ)
    (place : NodeId × ℕ) : Prop :=
  place ∈ s.heap.placesOf leaves ∧ ∃ k p, s.heap.readPlace place = some (k, p) ∧
    ((k ≤ key ∧ ∀ e ∈ s.heap.pairsOf leaves, e.1 ≤ key → e.1 ≤ k) ∨
      ∀ e ∈ s.heap.pairsOf leaves, key < e.1 ∧ k ≤ e.1)

/-- Both lookups end at a place. -/
def Index.LookupsEndAt [NodeModel M] (D : Doubles) (s : Index M P) (key : ℤ)
    (place : NodeId × ℕ) : Prop :=
  (∃ it s', s.findLastNoGreaterThan D key = some (it, s') ∧ it.curLeaf = some place.1 ∧
    it.curIdx = place.2) ∧ ∃ s', s.getPayloadLastNoGreaterThan D key = some (place, s')

/-- Both lookups lead to the place of the predecessor. -/
def Index.FindsPredecessor [NodeModel M] (D : Doubles) (s : Index M P) (leaves : List NodeId)
    (key : ℤ) : Prop :=
  ∃ place, s.IsPredecessor leaves key place ∧ s.LookupsEndAt D key place

/-- The leaf that `get_leaf` returns has no key behind it that is no greater.  Besides, it has no
larger key before it, the key is below the sentinel or the last slot of the leaf is filled, and a
key no greater is stored or the leftmost leaf is not empty; or there is one key before it, a larger
one. -/
def Index.predecessorInReach (D : Doubles) (T : KeyType) (s : Index M P) (leaves : List NodeId)
    (key : ℤ) : Prop :=
  ∃ A leaf B n, leaves = A ++ leaf :: B ∧ s.getLeafOn D key = some leaf ∧
    s.heap.dataAt leaf = some n ∧ (∀ e ∈ s.heap.pairsOf B, key < e.1) ∧
    (((∀ e ∈ s.heap.pairsOf A, e.1 ≤ key) ∧ (key < T.max ∨ n.Filled (n.dataCapacity - 1)) ∧
        ((∃ e ∈ s.heap.pairsOf leaves, e.1 ≤ key) ∨ ∃ first m, leaves.head? = some first ∧
          s.heap.dataAt first = some m ∧ m.pairs ≠ [])) ∨
      ∃ e, s.heap.pairsOf A = [e] ∧ key < e.1)

/-- A place with its pair, between the pairs before and behind it. -/
structure Index.StoredAt (s : Index M P) (leaves : List NodeId) (place : NodeId × ℕ)
    (before : List (ℤ × P)) (e : ℤ × P) (behind : List (ℤ × P)) : Prop where
  mem : place ∈ s.heap.placesOf leaves
  read : s.heap.readPlace place = some e
  split : s.heap.pairsOf leaves = before ++ e :: behind

theorem Index.StoredAt.stored {place : NodeId × ℕ} {before behind : List (ℤ × P)} {e : ℤ × P}
    (h : s.StoredAt leaves place before e behind) : e ∈ s.heap.pairsOf leaves := by
  rw [h.split]
  exact List.mem_append_right _ (List.mem_cons_self ..)

/-- A filled slot of a leaf of the chain. -/
theorem Chained.storedAt (hc : Chained T s leaves) {A B : List NodeId} {x : NodeId}
    (hl : leaves = A ++ x :: B) {n : DataNode M P} (hn : s.heap.dataAt x = some n) {i : ℕ}
    (hf : n.view.bit i = true) :
    ∃ p, n.pairs = n.view.seg 0 i ++ (n.keyFrom T i, p) :: n.view.seg (i + 1) n.view.cap ∧
      s.StoredAt leaves (x, i) (s.heap.pairsOf A ++ n.view.seg 0 i) (n.keyFrom T i, p)
        (n.view.seg (i + 1) n.view.cap ++ s.heap.pairsOf B) := by
  obtain ⟨n', hn', hfree, _⟩ := hc.at_split hl
  obtain rfl := Option.some.inj (hn.symm.trans hn')
  have hh := hfree.wf.holds
  obtain ⟨p, hpair, hpairs⟩ := hh.pairs_split hf
  refine ⟨p, hpairs, ?_, ?_, ?_⟩
  · exact Heap.mem_placesOf.mpr ⟨x, by rw [hl]; simp, n, hn, i, hh.reps.lt_cap hf, hf, rfl⟩
  · unfold Heap.readPlace
    rw [hn, Option.bind_some, hpair]
  · rw [hl, Heap.pairsOf_append, Heap.pairsOf_cons hn, hpairs]
    simp

/-- A stored pair is the predecessor if its key is the last one no greater; or if it is the first
pair of the index and larger. -/
theorem Chained.isPredecessor_iff (hc : Chained T s leaves) {place : NodeId × ℕ} {key : ℤ}
    {before behind : List (ℤ × P)} {e : ℤ × P} (h : s.StoredAt leaves place before e behind) :
    s.IsPredecessor leaves key place ↔
      (e.1 ≤ key ∧ ∀ x ∈ behind, key < x.1) ∨ (before = [] ∧ key < e.1) := by
  have hs := hc.sorted
  rw [h.split] at hs
  obtain ⟨-, hright, hleft⟩ := List.pairwise_append.mp hs
  have hbefore : ∀ x ∈ before, x.1 < e.1 := fun x hx => hleft x hx e (List.mem_cons_self ..)
  have hbehind : ∀ x ∈ behind, e.1 < x.1 := (List.pairwise_cons.mp hright).1
  unfold Index.IsPredecessor
  rw [h.split]
  constructor
  · rintro ⟨-, k, p, hread, hcase⟩
    obtain rfl := Option.some.inj (h.read.symm.trans hread)
    rcases hcase with ⟨hle, hlargest⟩ | hsmallest
    · refine Or.inl ⟨hle, fun x hx => ?_⟩
      by_contra hcon
      have hxe := hlargest x (by simp [hx]) (not_lt.mp hcon)
      exact absurd (hbehind x hx) (not_lt.mpr hxe)
    · refine Or.inr ⟨?_, (hsmallest (k, p) (by simp)).1⟩
      refine List.eq_nil_iff_forall_not_mem.mpr (fun x hx => ?_)
      exact absurd (hbefore x hx) (not_lt.mpr (hsmallest x (by simp [hx])).2)
  · rintro (⟨hle, hgt⟩ | ⟨hnil, hlt⟩)
    · refine ⟨h.mem, e.1, e.2, h.read, Or.inl ⟨hle, fun x hx hxle => ?_⟩⟩
      rcases List.mem_append.mp hx with hx | hx
      · exact (hbefore x hx).le
      · rcases List.mem_cons.mp hx with rfl | hx
        · exact le_refl _
        · exact absurd hxle (not_le.mpr (hgt x hx))
    · refine ⟨h.mem, e.1, e.2, h.read, Or.inr (fun x hx => ?_)⟩
      rw [hnil, List.nil_append] at hx
      rcases List.mem_cons.mp hx with rfl | hx
      · exact ⟨hlt, le_refl _⟩
      · exact ⟨hlt.trans (hbehind x hx), (hbehind x hx).le⟩

variable [NodeModel M]

/-- The lookups end at one place only. -/
theorem Index.LookupsEndAt.finds_iff {key : ℤ} {place : NodeId × ℕ}
    (h : s.LookupsEndAt D key place) :
    s.FindsPredecessor D leaves key ↔ s.IsPredecessor leaves key place := by
  obtain ⟨s', haddr⟩ := h.2
  constructor
  · rintro ⟨place', hpred, -, s'', haddr'⟩
    obtain ⟨rfl, -⟩ := Prod.mk.inj (Option.some.inj (haddr.symm.trans haddr'))
    exact hpred
  · exact fun hpred => ⟨place, hpred, h⟩

/-! ### Both lookups -/

/-- The upper bound in the leaf of the key; the search changes its counters. -/
theorem Chained.upperBoundInLeaf (hc : Chained T s leaves) {A B : List NodeId} {x : NodeId}
    {key : ℤ} (hl : leaves = A ++ x :: B) (hget : s.getLeafOn D key = some x) {n : DataNode M P}
    (hn : s.heap.dataAt x = some n) {c : ℕ} (hcut : n.view.CutAt (n.keyFrom T) (· ≤ key) c) :
    ∃ h', s.upperBoundInLeaf D key = some (x, c, h') ∧ s.heap.Counted h' := by
  obtain ⟨n', hn', hfree, _⟩ := hc.at_split hl
  obtain rfl := Option.some.inj (hn.symm.trans hn')
  obtain ⟨a, b, he⟩ := hfree.wf.holds.upperBound (DataNode.cutAt_intCast.mpr hcut)
  refine ⟨s.heap.setData x (n.withCounters a b), ?_, (Heap.Counted.refl _).setData hn a b⟩
  unfold Index.upperBoundInLeaf
  rw [hget, Option.bind_eq_bind, Option.bind_some, hn, Option.bind_eq_bind, Option.bind_some, he]
  rfl

/-- The address that is returned with a slot before the upper bound. -/
theorem Chained.payload_inside (hc : Chained T s leaves) {A B : List NodeId} {x : NodeId} {key : ℤ}
    (hl : leaves = A ++ x :: B) (hget : s.getLeafOn D key = some x) {n : DataNode M P}
    (hn : s.heap.dataAt x = some n) {c : ℕ} (hcut : n.view.CutAt (n.keyFrom T) (· ≤ key) c)
    (hc0 : c ≠ 0) : ∃ s', s.getPayloadLastNoGreaterThan D key = some ((x, c - 1), s') := by
  obtain ⟨h', he, -⟩ := hc.upperBoundInLeaf hl hget hn hcut
  have hidx : (0 : ℤ) ≤ (c : ℤ) - 1 := by omega
  have hnat : ((c : ℤ) - 1).toNat = c - 1 := by omega
  refine ⟨{ s with heap := h' }, ?_⟩
  unfold Index.getPayloadLastNoGreaterThan
  rw [he, Option.bind_eq_bind, Option.bind_some]
  dsimp only
  rw [if_pos hidx, hnat]

/-- With a filled slot before the upper bound both lookups end there. -/
theorem Chained.lookups_inside (hc : Chained T s leaves) {A B : List NodeId} {x : NodeId} {key : ℤ}
    (hl : leaves = A ++ x :: B) (hget : s.getLeafOn D key = some x) {n : DataNode M P}
    (hn : s.heap.dataAt x = some n) {c : ℕ} (hcut : n.view.CutAt (n.keyFrom T) (· ≤ key) c)
    (hc0 : c ≠ 0) (hf : n.view.bit (c - 1) = true) : s.LookupsEndAt D key (x, c - 1) := by
  obtain ⟨n', hn', hfree, _⟩ := hc.at_split hl
  obtain rfl := Option.some.inj (hn.symm.trans hn')
  obtain ⟨h', he, hcount⟩ := hc.upperBoundInLeaf hl hget hn hcut
  have hcap : c - 1 < n.view.cap := hfree.wf.holds.reps.lt_cap hf
  obtain ⟨it, hit, hb⟩ := hc.newIterator hcount hl hn hcap
  have hidx : (0 : ℤ) ≤ (c : ℤ) - 1 := by omega
  have hnat : ((c : ℤ) - 1).toNat = c - 1 := by omega
  refine ⟨⟨it, { s with heap := h' }, ?_, ?_⟩, hc.payload_inside hl hget hn hcut hc0⟩
  · unfold Index.findLastNoGreaterThan
    rw [he, Option.bind_eq_bind, Option.bind_some]
    dsimp only
    rw [if_pos hidx, hnat, hit]
    rfl
  · unfold Heap.placesFrom at hb
    rw [View.filledFrom_eq_cons (le_refl _) hcap hf (fun i h1 h2 => by omega)] at hb
    obtain ⟨_, _, _, _, _, hleaf, hcur, _⟩ := hb
    exact ⟨hleaf, hcur⟩

/-- An address of a slot that is not filled is not that of the predecessor. -/
theorem not_finds_of_payload {key : ℤ} {place : NodeId × ℕ}
    (haddr : ∃ s', s.getPayloadLastNoGreaterThan D key = some (place, s'))
    (hplace : place ∉ s.heap.placesOf leaves) : ¬ s.FindsPredecessor D leaves key := by
  obtain ⟨s', haddr⟩ := haddr
  rintro ⟨place', hpred, -, s'', haddr'⟩
  obtain ⟨rfl, -⟩ := Prod.mk.inj (Option.some.inj (haddr.symm.trans haddr'))
  exact hplace hpred.1

/-- Without a slot before the upper bound both lookups walk to the left. -/
theorem Chained.lookups_walk (hc : Chained T s leaves) {A B : List NodeId} {x : NodeId} {key : ℤ}
    (hl : leaves = A ++ x :: B) (hget : s.getLeafOn D key = some x) {n : DataNode M P}
    (hn : s.heap.dataAt x = some n) (hcut : n.view.CutAt (n.keyFrom T) (· ≤ key) 0) :
    ∃ h', s.heap.Counted h' ∧
      (s.findLastNoGreaterThan D key =
        (Index.prevNonEmpty h' h'.length x).bind (fun r => (h'.dataAt r.1).bind (fun m =>
          (if r.2 then m.lastPos else some 0).bind (fun pos =>
            (Index.Iterator.new h' r.1 pos).bind (fun it => some (it, { s with heap := h' })))))) ∧
      s.getPayloadLastNoGreaterThan D key =
        (Index.prevNonEmpty h' h'.length x).bind (fun r => (h'.dataAt r.1).bind (fun m =>
          (if r.2 then m.lastPos else m.firstPos).bind (fun pos =>
            some ((r.1, pos), { s with heap := h' })))) := by
  obtain ⟨h', he, hcount⟩ := hc.upperBoundInLeaf hl hget hn hcut
  have hidx : ¬ (0 : ℤ) ≤ ((0 : ℕ) : ℤ) - 1 := by omega
  refine ⟨h', hcount, ?_, ?_⟩
  · unfold Index.findLastNoGreaterThan
    rw [he, Option.bind_eq_bind, Option.bind_some]
    dsimp only
    rw [if_neg hidx]
    rfl
  · unfold Index.getPayloadLastNoGreaterThan
    rw [he, Option.bind_eq_bind, Option.bind_some]
    dsimp only
    rw [if_neg hidx]
    rfl

omit [NodeModel M] in
/-- The last filled slot of a leaf with pairs, and the iterator that begins there. -/
theorem Chained.lastSlot (hc : Chained T s leaves) {A B : List NodeId} {y : NodeId}
    (hl : leaves = A ++ y :: B) {m : DataNode M P} (hm : s.heap.dataAt y = some m)
    (hne : m.pairs ≠ []) {h' : Heap M P} (hcount : s.heap.Counted h') :
    ∃ it pos a b, h'.dataAt y = some (m.withCounters a b) ∧
      (m.withCounters a b).lastPos = some pos ∧ Index.Iterator.new h' y pos = some it ∧
      it.curLeaf = some y ∧ it.curIdx = pos ∧ m.view.bit pos = true ∧
      m.view.seg (pos + 1) m.view.cap = [] := by
  obtain ⟨m', hm', hfree, _⟩ := hc.at_split hl
  obtain rfl := Option.some.inj (hm.symm.trans hm')
  obtain ⟨a, b, hy⟩ := hcount y m hm
  have hh := hfree.wf.holds
  have hh' : DataNode.Holds T (m.withCounters a b) m.view (m.keyFrom T) := hh.congr rfl rfl
  have hfilled : m.view.filledFrom 0 ≠ [] := by
    intro hnil
    have hpairs := hh.pairAt_filledFrom 0
    rw [hnil, List.map_nil] at hpairs
    exact hne (hh.pairs_eq.trans (List.map_eq_nil_iff.mp hpairs.symm))
  obtain ⟨l, j, hj⟩ : ∃ l j, m.view.filledFrom 0 = l ++ [j] :=
    ⟨_, _, (List.dropLast_append_getLast hfilled).symm⟩
  obtain ⟨_, hcap, hf⟩ := View.mem_filledFrom.mp (show j ∈ m.view.filledFrom 0 by rw [hj]; simp)
  have hlast : m.view.seg (j + 1) m.view.cap = [] := by
    refine View.seg_gaps (fun i h1 h2 => ?_)
    by_contra hcon
    have hi : i ∈ l ++ [j] := by
      rw [← hj]
      exact View.mem_filledFrom.mpr ⟨Nat.zero_le i, h2, by simpa using hcon⟩
    have hsorted : (l ++ [j]).Pairwise (· < ·) := by
      rw [← hj]
      exact List.Pairwise.filter _ List.pairwise_lt_range'
    rcases List.mem_append.mp hi with hi | hi
    · have := (List.pairwise_append.mp hsorted).2.2 i hi j (List.mem_singleton_self j)
      omega
    · rw [List.mem_singleton] at hi
      omega
  obtain ⟨it, hit, hb⟩ := hc.newIterator hcount hl hm hcap
  unfold Heap.placesFrom at hb
  rw [View.filledFrom_eq_cons (le_refl _) hcap hf (fun i h1 h2 => by omega)] at hb
  obtain ⟨_, _, _, _, _, hleaf, hcur, _⟩ := hb
  exact ⟨it, j, a, b, hy, by rw [hh'.lastPos, hj, List.getLast?_concat, Option.getD_some], hit,
    hleaf, hcur, hf, hlast⟩

omit [NodeModel M] in
/-- At the left end the iterator runs to the first pair of the index; the payload address is that of
the first slot of an empty leaf, or of the first pair of the leaf. -/
theorem Chained.firstSlot (hc : Chained T s leaves) {C : List NodeId} {y : NodeId}
    (hl : leaves = y :: C) (hne : s.heap.pairsOf leaves ≠ []) {h' : Heap M P}
    (hcount : s.heap.Counted h') :
    ∃ it place m a b pos, s.heap.dataAt y = some m ∧ h'.dataAt y = some (m.withCounters a b) ∧
      Index.Iterator.new h' y 0 = some it ∧ it.curLeaf = some place.1 ∧ it.curIdx = place.2 ∧
      (∃ e rest, s.StoredAt leaves place [] e rest) ∧ (m.withCounters a b).firstPos = some pos ∧
      (m.pairs ≠ [] → (y, pos) = place) ∧ (m.pairs = [] → (y, pos) ∉ s.heap.placesOf leaves) := by
  obtain ⟨m, hm, hfree, _⟩ := hc.at_split (A := []) hl
  obtain ⟨a, b, hy⟩ := hcount y m hm
  have hh := hfree.wf.holds
  have hh' : DataNode.Holds T (m.withCounters a b) m.view (m.keyFrom T) := hh.congr rfl rfl
  obtain ⟨it, hit, hb⟩ := hc.newIterator (A := []) hcount hl hm hh.reps.pos
  rw [Heap.placesFrom_zero hm, ← hl] at hb
  have hread := hc.readPlace_placesOf (List.Subset.refl leaves)
  cases hplaces : s.heap.placesOf leaves with
  | nil =>
      rw [hplaces, List.map_nil] at hread
      exact absurd (List.map_eq_nil_iff.mp hread.symm) hne
  | cons place rest =>
      rw [hplaces] at hb
      obtain ⟨_, _, _, _, _, hleaf, hcur, _⟩ := hb
      have hpairs := hh.pairAt_filledFrom 0
      refine ⟨it, place, m, a, b, _, hm, hy, hit, hleaf, hcur, ?_, hh'.firstPos, ?_, ?_⟩
      · rw [hplaces, List.map_cons] at hread
        cases hstored : s.heap.pairsOf leaves with
        | nil => exact absurd hstored hne
        | cons e l =>
            rw [hstored, List.map_cons] at hread
            exact ⟨e, l, by rw [hplaces]; exact List.mem_cons_self .., (List.cons.inj hread).1,
              hstored⟩
      · intro hm0
        rw [hl, Heap.placesOf_cons hm] at hplaces
        cases hf : m.view.filledFrom 0 with
        | nil =>
            rw [hf, List.map_nil] at hpairs
            exact absurd (hh.pairs_eq.trans (List.map_eq_nil_iff.mp hpairs.symm)) hm0
        | cons j l =>
            rw [hf] at hplaces
            exact (List.cons.inj hplaces).1
      · intro hm0 hmem
        rw [← hplaces] at hmem
        obtain ⟨z, _, n, hn, i, hi, hf, he⟩ := Heap.mem_placesOf.mp hmem
        obtain ⟨rfl, rfl⟩ := Prod.mk.inj he
        obtain rfl := Option.some.inj (hm.symm.trans hn)
        obtain ⟨p, _, hsplit⟩ := hh.pairs_split hf
        rw [hm0] at hsplit
        cases (List.append_eq_nil_iff.mp hsplit.symm).2

/-! ### When the lookups are right -/

omit [NodeModel M] in
/-- The condition, at the leaf that `get_leaf` returns. -/
theorem Chained.predecessorInReach_iff (hc : Chained T s leaves) {A B : List NodeId} {x : NodeId}
    {key : ℤ} (hl : leaves = A ++ x :: B) (hget : s.getLeafOn D key = some x) {n : DataNode M P}
    (hn : s.heap.dataAt x = some n) : s.predecessorInReach D T leaves key ↔
      (∀ e ∈ s.heap.pairsOf B, key < e.1) ∧
      (((∀ e ∈ s.heap.pairsOf A, e.1 ≤ key) ∧ (key < T.max ∨ n.Filled (n.dataCapacity - 1)) ∧
          ((∃ e ∈ s.heap.pairsOf leaves, e.1 ≤ key) ∨ ∃ first m, leaves.head? = some first ∧
            s.heap.dataAt first = some m ∧ m.pairs ≠ [])) ∨
        ∃ e, s.heap.pairsOf A = [e] ∧ key < e.1) := by
  constructor
  · rintro ⟨A', x', B', n', hl', hget', hn', hcase⟩
    obtain rfl := Option.some.inj (hget.symm.trans hget')
    obtain rfl := Option.some.inj (hn.symm.trans hn')
    obtain ⟨rfl, rfl⟩ := hc.split_unique hl hl'
    exact hcase
  · exact fun hcase => ⟨A, x, B, n, hl, hget, hn, hcase⟩

omit [NodeModel M] in
/-- No stored key is above the sentinel. -/
theorem Chained.le_max (hc : Chained T s leaves) {e : ℤ × P} (he : e ∈ s.heap.pairsOf leaves) :
    e.1 ≤ T.max := by
  obtain ⟨y, hy, m, hm, hp⟩ := Heap.mem_pairsOf.mp he
  obtain ⟨m', hm', hfree⟩ := hc.leaf y hy
  obtain rfl := Option.some.inj (hm.symm.trans hm')
  have hh := hfree.wf.holds
  rw [hh.pairs_eq] at hp
  obtain ⟨i, _, hi, hcell⟩ := View.mem_seg.mp hp
  rw [(hh.gapped.key_of_cell hi hcell).2]
  exact hh.gapped.le_past i

/-- With a slot before the upper bound, the leaf has to be the last with a key no greater. -/
theorem Chained.finds_inside_iff (hc : Chained T s leaves) {A B : List NodeId} {x : NodeId}
    {key : ℤ} (hl : leaves = A ++ x :: B) (hget : s.getLeafOn D key = some x) {n : DataNode M P}
    (hn : s.heap.dataAt x = some n) {c : ℕ} (hcut : n.view.CutAt (n.keyFrom T) (· ≤ key) c)
    (hc0 : c ≠ 0) : s.FindsPredecessor D leaves key ↔ s.predecessorInReach D T leaves key := by
  obtain ⟨n', hn', hfree, _⟩ := hc.at_split hl
  obtain rfl := Option.some.inj (hn.symm.trans hn')
  have hh := hfree.wf.holds
  rw [hc.predecessorInReach_iff hl hget hn]
  rcases hh.before_cut hcut hc0 with ⟨hf, _⟩ | ⟨hf, hcap, hmax⟩
  · have hk : n.keyFrom T (c - 1) ≤ key := hcut.lt (c - 1) (by omega)
    have hc1 : c - 1 + 1 = c := by omega
    obtain ⟨p, -, hat⟩ := hc.storedAt hl hn hf
    have hs := hc.sorted
    rw [hat.split] at hs
    have hbefore := fun e he => (List.pairwise_append.mp hs).2.2 e he _ (List.mem_cons_self ..)
    rw [hc1] at hat
    rw [(hc.lookups_inside hl hget hn hcut hc0 hf).finds_iff, hc.isPredecessor_iff hat]
    constructor
    · rintro (⟨-, hbehind⟩ | ⟨-, hlt⟩)
      · refine ⟨fun e he => hbehind e (List.mem_append_right _ he), Or.inl ⟨fun e he => ?_, ?_, ?_⟩⟩
        · exact (hbefore e (List.mem_append_left _ he)).le.trans hk
        · rcases lt_or_ge key T.max with hlt | hge
          · exact Or.inl hlt
          · rw [hh.cut_of_max_le hcut hge] at hf
            exact Or.inr hf
        · exact Or.inl ⟨_, hat.stored, hk⟩
      · exact absurd hk (not_le.mpr hlt)
    · rintro ⟨hB, -⟩
      refine Or.inl ⟨hk, fun e he => ?_⟩
      rcases List.mem_append.mp he with he | he
      · exact not_le.mp ((hh.gapped.entries_cut hcut).2.2 e he)
      · exact hB e he
  · -- the address is that of the gap at the end, which holds the sentinel
    refine iff_of_false (not_finds_of_payload (hc.payload_inside hl hget hn hcut hc0) ?_) ?_
    · intro hmem
      obtain ⟨y, _, m, hm, i, _, hi, he⟩ := Heap.mem_placesOf.mp hmem
      obtain ⟨rfl, rfl⟩ := Prod.mk.inj he
      obtain rfl := Option.some.inj (hn.symm.trans hm)
      exact absurd (hf.symm.trans hi) (by simp)
    · rintro ⟨-, ⟨-, hlt | hlast, -⟩ | ⟨e, hA, hlt⟩⟩
      · omega
      · rw [hcap] at hf
        exact absurd (hf.symm.trans hlast) (by simp)
      · have := hc.le_max (show e ∈ s.heap.pairsOf leaves by
          rw [hl, Heap.pairsOf_append, hA]
          exact List.mem_cons_self ..)
        omega

/-- Without a slot before the upper bound, but with pairs before the leaf, both lookups end at the
last of these. -/
theorem Chained.finds_before_iff (hc : Chained T s leaves) {A B : List NodeId} {x : NodeId}
    {key : ℤ} (hl : leaves = A ++ x :: B) (hget : s.getLeafOn D key = some x) {n : DataNode M P}
    (hn : s.heap.dataAt x = some n) (hcut : n.view.CutAt (n.keyFrom T) (· ≤ key) 0)
    (hA : s.heap.pairsOf A ≠ []) :
    s.FindsPredecessor D leaves key ↔ s.predecessorInReach D T leaves key := by
  obtain ⟨n', hn', hfree, _⟩ := hc.at_split hl
  obtain rfl := Option.some.inj (hn.symm.trans hn')
  obtain ⟨hnpairs, hmax⟩ := hfree.wf.holds.above_of_cut_zero hcut
  obtain ⟨h', hcount, hfind, hget'⟩ := hc.lookups_walk hl hget hn hcut
  have hlen := hc.length_le hcount
  rw [hl, List.length_append] at hlen
  obtain ⟨A₁, y, A₂, m, hsplit, hm, hm0, hA₂, hwalk⟩ :=
    (hc.prevNonEmpty hcount A x B h'.length hl (by omega)).resolve_right (fun hnil => hA hnil.1)
  have hl' : leaves = A₁ ++ y :: (A₂ ++ x :: B) := by rw [hl, hsplit]; simp
  obtain ⟨it, pos, a, b, hy, hlast, hit, hcur, hidx, hf, hend⟩ := hc.lastSlot hl' hm hm0 hcount
  rw [hwalk, Option.bind_some, hy, Option.bind_some, if_pos rfl, hlast, Option.bind_some]
    at hfind hget'
  rw [hit] at hfind
  have hends : s.LookupsEndAt D key (y, pos) := ⟨⟨it, _, hfind, hcur, hidx⟩, _, hget'⟩
  obtain ⟨p, hpairs, hat⟩ := hc.storedAt hl' hm hf
  have hbehind : m.view.seg (pos + 1) m.view.cap ++ s.heap.pairsOf (A₂ ++ x :: B) =
      n.pairs ++ s.heap.pairsOf B := by
    rw [hend, List.nil_append, Heap.pairsOf_append, hA₂, Heap.pairsOf_cons hn, List.nil_append]
  have hbefore : s.heap.pairsOf A =
      (s.heap.pairsOf A₁ ++ m.view.seg 0 pos) ++ [(m.keyFrom T pos, p)] := by
    rw [hsplit, Heap.pairsOf_append, Heap.pairsOf_cons hm, hpairs, hend, hA₂]
    simp
  rw [hbehind] at hat
  have hs := hc.sorted
  rw [hat.split] at hs
  obtain ⟨-, hright, hleft⟩ := List.pairwise_append.mp hs
  rw [hc.predecessorInReach_iff hl hget hn, hends.finds_iff, hc.isPredecessor_iff hat, hbefore]
  constructor
  · rintro (⟨hk, hgt⟩ | ⟨hnil, hlt⟩)
    · refine ⟨fun e he => hgt e (List.mem_append_right _ he), Or.inl ⟨fun e he => ?_,
        Or.inl hmax, Or.inl ⟨_, hat.stored, hk⟩⟩⟩
      rcases List.mem_append.mp he with he | he
      · exact (hleft e he _ (List.mem_cons_self ..)).le.trans hk
      · rw [List.mem_singleton.mp he]
        exact hk
    · refine ⟨fun e he => hlt.trans ?_, Or.inr ⟨_, by rw [hnil, List.nil_append], hlt⟩⟩
      exact (List.pairwise_cons.mp hright).1 e (List.mem_append_right _ he)
  · rintro ⟨hB, ⟨hle, -⟩ | ⟨e, he, hlt⟩⟩
    · refine Or.inl ⟨hle _ (by simp), fun e he => ?_⟩
      exact (List.mem_append.mp he).elim (hnpairs e) (hB e)
    · obtain ⟨hnil, heq⟩ := List.append_eq_singleton_iff.mp he |>.resolve_right (by simp)
      obtain rfl := List.singleton_inj.mp heq
      exact Or.inr ⟨hnil, hlt⟩

/-- Without a slot before the upper bound and without pairs before the leaf, both lookups are right
if the leftmost leaf has pairs; otherwise the address is that of a slot without a pair. -/
theorem Chained.finds_first_iff (hc : Chained T s leaves) {A B : List NodeId} {x : NodeId}
    {key : ℤ} (hl : leaves = A ++ x :: B) (hget : s.getLeafOn D key = some x) {n : DataNode M P}
    (hn : s.heap.dataAt x = some n) (hcut : n.view.CutAt (n.keyFrom T) (· ≤ key) 0)
    (hA : s.heap.pairsOf A = []) (hne : s.heap.pairsOf leaves ≠ []) :
    s.FindsPredecessor D leaves key ↔ s.predecessorInReach D T leaves key := by
  obtain ⟨n', hn', hfree, _⟩ := hc.at_split hl
  obtain rfl := Option.some.inj (hn.symm.trans hn')
  obtain ⟨hnpairs, hmax⟩ := hfree.wf.holds.above_of_cut_zero hcut
  have hall : s.heap.pairsOf leaves = n.pairs ++ s.heap.pairsOf B := by
    rw [hl, Heap.pairsOf_append, Heap.pairsOf_cons hn, hA, List.nil_append]
  obtain ⟨h', hcount, hfind, hget'⟩ := hc.lookups_walk hl hget hn hcut
  have hlen := hc.length_le hcount
  rw [hl, List.length_append] at hlen
  obtain ⟨-, y, C, hl', hwalk⟩ :=
    (hc.prevNonEmpty hcount A x B h'.length hl (by omega)).resolve_left (by
      rintro ⟨A₁, y, A₂, m, rfl, hm, hm0, -⟩
      rw [Heap.pairsOf_append, Heap.pairsOf_cons hm] at hA
      exact hm0 (List.append_eq_nil_iff.mp (List.append_eq_nil_iff.mp hA).2).1)
  obtain ⟨it, place, m, a, b, pos, hm, hy, hit, hcur, hidx, ⟨e, rest, hat⟩, hfirst, hsame,
    hother⟩ := hc.firstSlot hl' hne hcount
  rw [hwalk, Option.bind_some, hy, Option.bind_some, if_neg (by simp)] at hfind hget'
  rw [Option.bind_some, hit] at hfind
  rw [hfirst, Option.bind_some] at hget'
  rw [hc.predecessorInReach_iff hl hget hn]
  by_cases hm0 : m.pairs = []
  · refine iff_of_false (not_finds_of_payload ⟨_, hget'⟩ (hother hm0)) ?_
    rintro ⟨hB, ⟨-, -, ⟨e, he, hle⟩ | ⟨first, n', hhead, hn', hne'⟩⟩ | ⟨e, he, -⟩⟩
    · rw [hall] at he
      exact absurd hle (not_le.mpr ((List.mem_append.mp he).elim (hnpairs e) (hB e)))
    · rw [hl'] at hhead
      obtain rfl := Option.some.inj hhead
      obtain rfl := Option.some.inj (hm.symm.trans hn')
      exact hne' hm0
    · rw [hA] at he
      cases he
  · -- the leaf is the leftmost one
    have hn0 : n.pairs ≠ [] := by
      rw [hl] at hl'
      cases A with
      | nil =>
          obtain ⟨rfl, -⟩ := List.cons.inj hl'
          obtain rfl := Option.some.inj (hn.symm.trans hm)
          exact hm0
      | cons z A =>
          obtain ⟨rfl, -⟩ := List.cons.inj hl'
          rw [Heap.pairsOf_cons hm] at hA
          exact absurd (List.append_eq_nil_iff.mp hA).1 hm0
    have hB : ∀ e ∈ s.heap.pairsOf B, key < e.1 := by
      obtain ⟨e', he'⟩ := List.exists_mem_of_ne_nil _ hn0
      intro e he
      have hs := hc.sorted
      rw [hall] at hs
      exact (hnpairs e' he').trans ((List.pairwise_append.mp hs).2.2 e' he' e he)
    have hends : s.LookupsEndAt D key place := by
      rw [hsame hm0] at hget'
      exact ⟨⟨it, _, hfind, hcur, hidx⟩, _, hget'⟩
    have hlow : key < e.1 := by
      have he := hat.stored
      rw [hall] at he
      exact (List.mem_append.mp he).elim (hnpairs e) (hB e)
    rw [hends.finds_iff, hc.isPredecessor_iff hat]
    refine iff_of_true (Or.inr ⟨rfl, hlow⟩) ⟨hB, Or.inl ⟨?_, Or.inl hmax, Or.inr ?_⟩⟩
    · rw [hA]
      simp
    · exact ⟨y, m, by rw [hl']; rfl, hm, hm0⟩

/-- **Both predecessor lookups are right and agree**, whatever the arithmetic on doubles, exactly if
the leaf that `get_leaf` returns is the one of the predecessor, or as good. -/
theorem findsPredecessor_iff (hc : Chained T s leaves) (hne : s.heap.pairsOf leaves ≠ [])
    (key : ℤ) : s.FindsPredecessor D leaves key ↔ s.predecessorInReach D T leaves key := by
  obtain ⟨A, x, B, hl, hget⟩ := hc.getLeafOn D key
  obtain ⟨n, hn, hfree, _⟩ := hc.at_split hl
  obtain ⟨c, hcq⟩ := hfree.wf.holds.exists_upper (key : ℚ)
  have hcut := DataNode.cutAt_intCast.mp hcq
  by_cases hc0 : c = 0
  · subst hc0
    by_cases hA : s.heap.pairsOf A = []
    · exact hc.finds_first_iff hl hget hn hcut hA hne
    · exact hc.finds_before_iff hl hget hn hcut hA
  · exact hc.finds_inside_iff hl hget hn hcut hc0

theorem findsPredecessor_threeKeys : ∃ n, DataNode.threeKeys = some n ∧
    (Index.ofLeaf n).FindsPredecessor Doubles.binary64 [0] 2 := by
  obtain ⟨n, hn, h⟩ := threeKeys_chained
  have hpairs : DataNode.threeKeys.map (fun n => n.pairs) = some [(1, 10), (2, 20), (3, 30)] := by
    decide +kernel
  rw [hn, Option.map_some, Option.some.injEq] at hpairs
  have hne : (Index.ofLeaf n).heap.pairsOf [0] ≠ [] := by
    rw [pairsOf_ofLeaf, hpairs]
    decide
  refine ⟨n, hn, (findsPredecessor_iff h hne 2).mpr
    ⟨[], 0, [], n, rfl, rfl, rfl, by simp, Or.inl ⟨by simp, Or.inl (by decide), Or.inl ?_⟩⟩⟩
  rw [pairsOf_ofLeaf, hpairs]
  exact ⟨(2, 20), by simp, le_refl _⟩

/-! ### An empty leaf on the left -/

/-- A root with two leaves, the left one for the keys below 1. -/
def ModelNode.ofTwoLeaves : ModelNode :=
  { ModelNode.new 0 with model := ⟨1, 0⟩, numChildren := 2, children := [some 0, some 1] }

def Index.ofTwoLeaves (left right : DataNode M P) : Index M P :=
  { Index.ofLeaf left with
    heap := [.data { left with prevLeaf := none, nextLeaf := some 1, maxLimit := 1 },
      .data { right with prevLeaf := some 0, nextLeaf := none, minLimit := 1 },
      .model ModelNode.ofTwoLeaves,
      .model { ModelNode.new (-1) with numChildren := 1, children := [some 2] }]
    rootNode := 2
    superroot := 3 }

omit [NodeModel M] in
theorem redirectOn_ofTwoLeaves (D : Doubles) (left right : DataNode M P) (key : ℤ) (X : ℚ)
    {x : NodeId} (hx : x ∈ [0, 1]) : ∃ y ∈ [0, 1],
      Index.redirectOn D (Index.ofTwoLeaves left right).heap key x X = some y := by
  rcases List.mem_cons.mp hx with rfl | hx
  · change ∃ y ∈ [0, 1], (if |D.round (X - Index.roundedOn D X)| ≤ D.round (10 * Index.epsilon * X)
      then if (Index.roundedOn D X : ℚ) ≤ X then some 0
        else some (if 1 ≤ D.round key then 1 else 0) else some 0) = some y
    split_ifs
    all_goals simp
  · obtain rfl := List.mem_singleton.mp hx
    change ∃ y ∈ [0, 1], (if |D.round (X - Index.roundedOn D X)| ≤ D.round (10 * Index.epsilon * X)
      then if (Index.roundedOn D X : ℚ) ≤ X then some (if D.round key < 1 then 0 else 1)
        else some 1 else some 1) = some y
    split_ifs
    all_goals simp

omit [NodeModel M] in
/-- A descent ends in one of the two leaves. -/
theorem getLeafOn_ofTwoLeaves (D : Doubles) (left right : DataNode M P) (key : ℤ) :
    ∃ x ∈ [0, 1], (Index.ofTwoLeaves left right).getLeafOn D key = some x := by
  have hb : ModelNode.ofTwoLeaves.bucketOn D key < 2 :=
    ModelNode.bucketOn_lt (m := ModelNode.ofTwoLeaves) Nat.two_pos D key
  have hroot : (Index.ofTwoLeaves left right).heap.modelAt 2 = some ModelNode.ofTwoLeaves := rfl
  have hget : (Index.ofTwoLeaves left right).getLeafOn D key =
      (Index.descendOn D (Index.ofTwoLeaves left right).heap key 4 2).bind (fun r =>
        Index.redirectOn D (Index.ofTwoLeaves left right).heap key r.1 r.2) := rfl
  rw [hget, Index.descendOn, hroot, Option.bind_eq_bind, Option.bind_some]
  generalize ModelNode.ofTwoLeaves.model.predictDoubleOn D key = X
  rcases (by omega : ModelNode.ofTwoLeaves.bucketOn D key = 0 ∨
    ModelNode.ofTwoLeaves.bucketOn D key = 1) with h | h
  · rw [h]
    exact redirectOn_ofTwoLeaves D left right key X (List.mem_cons_self ..)
  · rw [h]
    exact redirectOn_ofTwoLeaves D left right key X (by simp)

omit [NodeModel M] in
theorem LeafFree.congr {n n' : DataNode M P} (h : LeafFree T n) (hs : n'.toSlots = n.toSlots)
    (hk : n'.numKeys = n.numKeys) (hl : n'.lock = n.lock) : LeafFree T n' := by
  have hh : DataNode.Holds T n' n.view (n.keyFrom T) := h.wf.holds.congr hs hk
  refine ⟨hh.wellFormed, ?_⟩
  rw [hl]
  exact h.free

omit [NodeModel M] in
theorem Chained.ofTwoLeaves {left right : DataNode M P} (hl : LeafFree T left)
    (hr : LeafFree T right) (hls : left.pairs.Pairwise (fun a b => a.1 < b.1))
    (hrs : right.pairs.Pairwise (fun a b => a.1 < b.1)) (hlow : ∀ e ∈ left.pairs, e.1 < 1)
    (hhigh : ∀ e ∈ right.pairs, 1 ≤ e.1) : Chained T (Index.ofTwoLeaves left right) [0, 1] := by
  have h0 : (Index.ofTwoLeaves left right).heap.pairsOf [0] = left.pairs := by
    rw [Heap.pairsOf_cons rfl, Heap.pairsOf_nil, List.append_nil]
    exact DataNode.pairs_congr rfl
  have h1 : (Index.ofTwoLeaves left right).heap.pairsOf [1] = right.pairs := by
    rw [Heap.pairsOf_cons rfl, Heap.pairsOf_nil, List.append_nil]
    exact DataNode.pairs_congr rfl
  refine ⟨by decide, ⟨rfl, rfl, rfl, rfl, trivial⟩, fun x hx => ?_, ?_,
    fun D key => getLeafOn_ofTwoLeaves D left right key⟩
  · rcases List.mem_cons.mp hx with rfl | hx
    · exact ⟨_, rfl, hl.congr rfl rfl rfl⟩
    · rw [List.mem_singleton.mp hx]
      exact ⟨_, rfl, hr.congr rfl rfl rfl⟩
  · rw [show [(0 : NodeId), 1] = [0] ++ [1] from rfl, Heap.pairsOf_append, h0, h1]
    refine List.pairwise_append.mpr ⟨hls, hrs, fun a ha b hb => ?_⟩
    have := hlow a ha
    have := hhigh b hb
    omega

/-- The leaf that `bulk_load` makes of no pairs. -/
def DataNode.noKeys : Option (DataNode LinearModel ℕ) :=
  (DataNode.new KeyType.uint64 1 100).bulkLoad KeyType.uint64 [] none false

theorem DataNode.noKeys_wellFormed : ∃ n, noKeys = some n ∧ WellFormed KeyType.uint64 n := by
  obtain ⟨n, v, k, he, hh, _⟩ := (DataNode.new KeyType.uint64 1 100 :
    DataNode LinearModel ℕ).bulkLoad_spec (T := KeyType.uint64) List.Pairwise.nil
      (by simp) none false
  exact ⟨n, he, hh.wellFormed⟩

/-- Below all keys, with an empty leaf on the left, the iterator is at the smallest key and the
payload address is the first slot of the empty leaf. -/
theorem findsPredecessor_empty_left : ∃ left right, DataNode.noKeys = some left ∧
    DataNode.threeKeys = some right ∧
    Chained KeyType.uint64 (Index.ofTwoLeaves left right) [0, 1] ∧
    (Index.ofTwoLeaves left right).heap.pairsOf [0, 1] = [(1, 10), (2, 20), (3, 30)] ∧
    ¬ (Index.ofTwoLeaves left right).FindsPredecessor Doubles.binary64 [0, 1] 0 := by
  obtain ⟨left, hleft, hlwf⟩ := DataNode.noKeys_wellFormed
  obtain ⟨right, hright, hrwf⟩ := DataNode.threeKeys_wellFormed
  have hnodes : (DataNode.noKeys.map (fun l => (l.pairs, isSet l.lock)) = some ([], false)) ∧
      DataNode.threeKeys.map (fun r => (r.pairs, isSet r.lock)) =
        some ([(1, 10), (2, 20), (3, 30)], false) := by decide +kernel
  have hruns : DataNode.noKeys.bind (fun l => DataNode.threeKeys.map (fun r =>
      ((Index.ofTwoLeaves l r).heap.pairsOf [0, 1],
        ((Index.ofTwoLeaves l r).findLastNoGreaterThan Doubles.binary64 0).map
          (fun i => i.1.curLeaf),
        ((Index.ofTwoLeaves l r).getPayloadLastNoGreaterThan Doubles.binary64 0).map Prod.fst))) =
      some ([(1, 10), (2, 20), (3, 30)], some (some 1), some (0, 0)) := by decide +kernel
  rw [hleft, hright, Option.map_some, Option.map_some, Option.some.injEq, Option.some.injEq,
    Prod.mk.injEq, Prod.mk.injEq] at hnodes
  obtain ⟨⟨hlp, hll⟩, hrp, hrl⟩ := hnodes
  rw [hleft, hright, Option.bind_some, Option.map_some, Option.some.injEq, Prod.mk.injEq,
    Prod.mk.injEq] at hruns
  obtain ⟨hpairs, hfind, hget⟩ := hruns
  refine ⟨left, right, hleft, hright, Chained.ofTwoLeaves ⟨hlwf, hll⟩ ⟨hrwf, hrl⟩ ?_ ?_ ?_ ?_,
    hpairs, ?_⟩
  · rw [hlp]
    exact List.Pairwise.nil
  · rw [hrp]
    decide
  · rw [hlp]
    simp
  · rw [hrp]
    decide
  · rintro ⟨place, _, ⟨it, s', hit, hleaf, _⟩, s'', haddr⟩
    rw [hit, Option.map_some, Option.some.injEq, hleaf] at hfind
    rw [haddr, Option.map_some, Option.some.injEq] at hget
    have hplace : place = (0, 0) := hget
    rw [hplace] at hfind
    cases hfind

end LearnedIndex.Alexol
