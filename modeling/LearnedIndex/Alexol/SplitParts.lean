import LearnedIndex.Alexol.FanoutTreeSpec
import LearnedIndex.Alexol.Insert
import LearnedIndex.Alexol.IndexInvariant

/-! # The new leaves of a split

`createParts` appends the new leaves of a split to the arena.  Whether the leaf is split in two or
by the used nodes of a fanout tree, the new leaves divide its pairs at the same fractions of its key
range at which their cells divide the slots (`Created`). -/

namespace LearnedIndex.Alexol

open LearnedIndex.Chains LearnedIndex.Dyadic

variable {M P : Type}

/-- The leaf while its new leaves exist: an obsolete copy with other lookup counters. -/
def DataNode.retiring (n : DataNode M P) (a b : ℕ) : DataNode M P :=
  { n.withCounters a b with isObsolete := true }

/-- The pairs of the cell of level `l` at slot `x` of depth `D`. -/
def DataNode.cellPairs (n : DataNode M P) (D l x : ℕ) : List (ℤ × P) :=
  n.pairsBetween (n.bound ((x : ℚ) / 2 ^ D)) (n.bound (((x + 2 ^ (D - l) : ℕ) : ℚ) / 2 ^ D))

/-- The new leaf of a cell: it has the pairs of the cell and is locked. -/
def IsPart (T : KeyType) (h : Heap M P) (n : DataNode M P) (D : ℕ) (b : NodeId × ℕ × ℕ) : Prop :=
  ∃ k, h.dataAt b.1 = some k ∧ k.lock = lockSet ∧ k.Fresh T (n.cellPairs D b.2.1 b.2.2)

/-- The arena `h'` has the new leaves of the leaf `L` besides the nodes of `h`. -/
structure Created (T : KeyType) (h h' : Heap M P) (L : NodeId) (n : DataNode M P) (D : ℕ)
    (parts : List (NodeId × ℕ)) : Prop where
  length : h'.length = h.length + parts.length
  ids : parts.map Prod.fst = List.range' h.length parts.length
  steps : Steps D (parts.map Prod.snd) 0
  model : h'.modelAt = h.modelAt
  leaf : ∃ a b, h'.dataAt L = some (n.retiring a b)
  others : ∀ x, x ≠ L → x < h.length → h'.dataAt x = h.dataAt x
  linked : Linked h'.prev h'.next none (parts.map Prod.fst) none
  part : ∀ b ∈ starts (fun l => 2 ^ (D - l)) parts 0, IsPart T h' n D b

/-! ### The pairs of all cells -/

namespace DataNode

variable {T : KeyType} {n : DataNode M P}

theorem Stores.bound_le_bound (h : Stores T n) (hlt : n.minLimit < n.maxLimit) {x y : ℕ} (D : ℕ)
    (hxy : x ≤ y) : n.bound ((x : ℚ) / 2 ^ D) ≤ n.bound ((y : ℚ) / 2 ^ D) := by
  refine h.bound_mono hlt (div_le_div_of_nonneg_right ?_ (by positivity))
  exact_mod_cast hxy

/-- The cells behind a slot have the pairs behind its position. -/
theorem Stores.flatMap_cellPairs (h : Stores T n) (hlt : n.minLimit < n.maxLimit) {D : ℕ} :
    ∀ {parts : List (NodeId × ℕ)} {cur : ℕ}, Steps D (parts.map Prod.snd) cur →
      (starts (fun l => 2 ^ (D - l)) parts cur).flatMap (fun b => n.cellPairs D b.2.1 b.2.2) =
        n.pairsBetween (n.bound ((cur : ℚ) / 2 ^ D)) n.dataCapacity
  | [], cur, hs => by
      obtain rfl : cur = 2 ^ D := hs
      have hone : (((2 ^ D : ℕ) : ℚ)) / 2 ^ D = 1 := by
        push_cast
        exact div_self (by positivity)
      rw [hone, n.bound_one, n.pairsBetween_self]
      rfl
  | (id, l) :: parts, cur, hs => by
      show n.cellPairs D l cur ++ (starts (fun l => 2 ^ (D - l)) parts (cur + 2 ^ (D - l))).flatMap
        (fun b => n.cellPairs D b.2.1 b.2.2) = _
      rw [h.flatMap_cellPairs hlt hs.2.2]
      exact n.pairsBetween_append (h.bound_le_bound hlt D (Nat.le_add_right _ _)) (h.bound_le _)

/-- The new leaves have the pairs of the leaf. -/
theorem Stores.flatMap_parts (h : Stores T n) (hlt : n.minLimit < n.maxLimit) {D : ℕ}
    {parts : List (NodeId × ℕ)} (hs : Steps D (parts.map Prod.snd) 0) :
    (starts (fun l => 2 ^ (D - l)) parts 0).flatMap (fun b => n.cellPairs D b.2.1 b.2.2) =
      n.pairs := by
  rw [h.flatMap_cellPairs hlt hs, Nat.cast_zero, zero_div, n.bound_zero, n.pairs_eq_pairsBetween]

end DataNode

/-! ### Parts of a fanout tree -/

namespace Index

variable {C : Params M P} {n : DataNode M P}

variable [NodeModel M]

theorem createDataNode_spec (hs : n.Stores C.T) {old : DataNode M P}
    (hold : old.toSlots = n.toSlots) (hnum : old.numKeys = n.numKeys) {t : FTNode M}
    (hlr : t.leftBoundary ≤ t.rightBoundary) (hr : t.rightBoundary ≤ n.dataCapacity)
    (ht : FanoutTree.RangeOf n t) :
    ∃ k, createDataNode C old t = some k ∧ k.lock = lockSet ∧
      k.Fresh C.T (n.pairsBetween t.leftBoundary t.rightBoundary) := by
  have hs' : old.Stores C.T := hs.congr hold hnum
  have hcap : t.rightBoundary ≤ old.dataCapacity := by rw [hold]; exact hr
  have hpb : old.pairsBetween = n.pairsBetween := DataNode.pairsBetween_congr hold
  obtain ⟨k, hk, hfresh, _, _⟩ := hs'.bulkLoadLeafNode (C := C) rfl hlr hcap false
    (o := some t) (by
      rintro t' ⟨⟩
      rw [hpb]
      exact ht) false
    (old.isAppendMostlyRight && decide (t.leftLimit ≤ old.maxKey) &&
      decide ((old.maxKey : ℚ) < t.rightLimit))
    (old.isAppendMostlyLeft && decide (t.leftLimit ≤ old.minKey) &&
      decide ((old.minKey : ℚ) < t.rightLimit))
  unfold createDataNode
  simp only [hk, Option.bind_eq_bind, Option.bind_some]
  rw [hpb] at hfresh
  exact ⟨_, rfl, rfl, hfresh.congr rfl rfl rfl rfl⟩

/-- The nodes appended for the used nodes from slot `cur` on. -/
theorem createDataNodes_spec (hs : n.Stores C.T) (hlt : n.minLimit < n.maxLimit)
    {old : DataNode M P} (hold : old.toSlots = n.toSlots) (hnum : old.numKeys = n.numKeys) {D : ℕ} :
    ∀ (ts : List (FTNode M)) (cur : ℕ) (prev : Option NodeId) (h : Heap M P),
      FanoutTree.Parts D n.bound ts cur → (∀ t ∈ ts, FanoutTree.RangeOf n t) →
      ∃ h' parts, createDataNodes C old ts prev h = some (h', parts) ∧
        parts.map Prod.snd = ts.map FTNode.level ∧ h'.length = h.length + parts.length ∧
        parts.map Prod.fst = List.range' h.length parts.length ∧ h'.modelAt = h.modelAt ∧
        (∀ x, x < h.length → h'.dataAt x = h.dataAt x) ∧
        Linked h'.prev h'.next prev (parts.map Prod.fst) none ∧
        ∀ b ∈ starts (fun l => 2 ^ (D - l)) parts cur, IsPart C.T h' n D b
  | [], cur, prev, h, _, _ => ⟨h, [], rfl, rfl, rfl, rfl, rfl, fun _ _ => rfl, trivial, by
      intro b hb
      cases hb⟩
  | t :: ts, cur, prev, h, hp, hrange => by
      obtain ⟨_, _, hleft, hright, hrest⟩ := hp
      have hlr : t.leftBoundary ≤ t.rightBoundary := by
        rw [hleft, hright]
        exact hs.bound_le_bound hlt D (Nat.le_add_right _ _)
      have hr : t.rightBoundary ≤ n.dataCapacity := by
        rw [hright]
        exact hs.bound_le _
      obtain ⟨k, hk, hlock, hfresh⟩ := createDataNode_spec hs hold hnum hlr hr
        (hrange t (List.mem_cons_self ..))
      let k' : DataNode M P := { k with
        prevLeaf := prev
        nextLeaf := if ts.isEmpty then none else some (h.length + 1) }
      obtain ⟨h', parts, hcreate, hlevels, hlen, hids, hmodel, hothers, hlinked, hparts⟩ :=
        createDataNodes_spec hs hlt hold hnum ts (cur + 2 ^ (D - t.level)) (some h.length)
          (h ++ [.data k']) hrest (fun t' ht' => hrange t' (List.mem_cons_of_mem t ht'))
      have hlen₁ : (h ++ [Node.data k']).length = h.length + 1 := by simp
      have hget : h'.dataAt h.length = some k' := by
        rw [hothers _ (by omega), Heap.dataAt_snoc_data, Function.update_self]
      have hhead : (parts.map Prod.fst).head? =
          if ts.isEmpty then none else some (h.length + 1) := by
        have hl : parts.length = ts.length := by simpa using congrArg List.length hlevels
        rw [hids, hlen₁, hl]
        cases ts <;> rfl
      refine ⟨h', (h.length, t.level) :: parts, ?_, ?_, ?_, ?_, ?_, fun x hx => ?_, ?_, ?_⟩
      · unfold createDataNodes
        simp only [hk, Option.bind_eq_bind, Option.bind_some]
        rw [hcreate]
        rfl
      · rw [List.map_cons, List.map_cons, hlevels]
      · rw [hlen, hlen₁, List.length_cons]
        omega
      · rw [List.map_cons, hids, hlen₁, List.length_cons, List.range'_succ]
      · rw [hmodel, Heap.modelAt_snoc_data]
      · rw [hothers x (by omega), Heap.dataAt_snoc_data, Function.update_of_ne hx.ne]
      · refine ⟨?_, ?_, hlinked⟩
        · show (h'.dataAt h.length).bind DataNode.prevLeaf = prev
          rw [hget]
          rfl
        · show (h'.dataAt h.length).bind DataNode.nextLeaf = _
          rw [hget, Option.or_none, hhead]
          rfl
      · intro b hb
        rcases List.mem_cons.mp hb with rfl | hb
        · refine ⟨k', hget, hlock, ?_⟩
          rw [hleft, hright] at hfresh
          exact hfresh.congr rfl rfl rfl rfl
        · exact hparts b hb

theorem createNewDataNodes_spec (hs : n.Stores C.T) (hlt : n.minLimit < n.maxLimit) {h : Heap M P}
    {L : NodeId} (hL : h.dataAt L = some n) {D : ℕ} {used : List (FTNode M)}
    (hparts : FanoutTree.Parts D n.bound used 0) (hrange : ∀ t ∈ used, FanoutTree.RangeOf n t) :
    ∃ h' parts, createNewDataNodes C h L used = some (h', parts) ∧
    Created C.T h h' L n D parts := by
  have hlt' := Heap.dataAt_lt hL
  have hlen₁ := h.length_setData L { n with isObsolete := true }
  have hdata₁ := Heap.dataAt_setData hL { n with isObsolete := true }
  obtain ⟨h', parts, hcreate, hlevels, hlen, hids, hmodel, hothers, hlinked, hpart⟩ :=
    createDataNodes_spec hs hlt rfl rfl used 0 none
      (h.setData L { n with isObsolete := true }) hparts hrange
  rw [hlen₁] at hlen hids hothers
  refine ⟨h', parts, ?_, hlen, hids, ?_, ?_, ⟨n.numLookups, n.numExpSearchIterations, ?_⟩,
    fun x hx hxl => ?_, hlinked, hpart⟩
  · unfold createNewDataNodes
    simp only [hL, Option.bind_eq_bind, Option.bind_some]
    exact hcreate
  · rw [hlevels]
    exact hparts.steps
  · rw [hmodel, Heap.modelAt_setData hL]
  · rw [hothers L hlt', hdata₁, Function.update_self]
    rfl
  · rw [hothers x hxl, hdata₁, Function.update_of_ne hx]

/-! ### Two halves -/

omit [NodeModel M] in
/-- The two halves of the key range meet at the middle. -/
theorem half_cells (n : DataNode M P) :
    n.cellPairs 1 1 0 = n.pairsBetween 0 (n.cut (n.minLimit + (n.maxLimit - n.minLimit) / 2)) ∧
      n.cellPairs 1 1 1 =
        n.pairsBetween (n.cut (n.minLimit + (n.maxLimit - n.minLimit) / 2)) n.dataCapacity := by
  have hmid : n.bound (1 / 2) = n.cut (n.minLimit + (n.maxLimit - n.minLimit) / 2) := by
    unfold DataNode.bound
    rw [if_neg (by norm_num), if_neg (by norm_num)]
    congr 1
    unfold DataNode.limitAt
    ring
  unfold DataNode.cellPairs
  refine ⟨?_, ?_⟩
  · rw [← hmid]
    norm_num
    rw [n.bound_zero]
  · rw [← hmid]
    norm_num
    rw [n.bound_one]

theorem createTwoNewDataNodes_spec (hs : n.Stores C.T) {h : Heap M P} {L : NodeId}
    (hL : h.dataAt L = some n) (reuseModel : Bool) :
    ∃ h' parts, createTwoNewDataNodes C h L reuseModel = some (h', parts) ∧
      Created C.T h h' L n 1 parts := by
  obtain ⟨a, b, hlb⟩ := hs.lowerBound (n.minLimit + (n.maxLimit - n.minLimit) / 2)
  have hs' : (n.withCounters a b).Stores C.T := hs.congr rfl rfl
  have hcut := hs.cut_le (n.minLimit + (n.maxLimit - n.minLimit) / 2)
  have hpb : (n.withCounters a b).pairsBetween = n.pairsBetween := DataNode.pairsBetween_congr rfl
  obtain ⟨hcell₀, hcell₁⟩ := half_cells n
  generalize n.cut (n.minLimit + (n.maxLimit - n.minLimit) / 2) = boundary at hlb hcut hcell₀ hcell₁
  obtain ⟨l, hl, hlfresh, hlprev, _⟩ :=
    hs'.bulkLoadLeafNode (C := C) rfl (Nat.zero_le boundary) hcut
    true (o := none) (by simp) reuseModel
    ((n.withCounters a b).isAppendMostlyRight &&
      decide (((n.withCounters a b).maxKey : ℚ) < n.minLimit + (n.maxLimit - n.minLimit) / 2))
    ((n.withCounters a b).isAppendMostlyLeft &&
      decide (((n.withCounters a b).minKey : ℚ) < n.minLimit + (n.maxLimit - n.minLimit) / 2))
  obtain ⟨r, hr, hrfresh, _, hrnext⟩ := hs'.bulkLoadLeafNode (C := C) rfl hcut (le_refl _)
    true (o := none) (by simp) reuseModel
    ((n.withCounters a b).isAppendMostlyRight &&
      !decide (((n.withCounters a b).maxKey : ℚ) < n.minLimit + (n.maxLimit - n.minLimit) / 2))
    ((n.withCounters a b).isAppendMostlyLeft &&
      !decide (((n.withCounters a b).minKey : ℚ) < n.minLimit + (n.maxLimit - n.minLimit) / 2))
  rw [hpb, ← hcell₀] at hlfresh
  rw [hpb, ← hcell₁] at hrfresh
  let l' : DataNode M P := { l with
    minLimit := n.minLimit
    maxLimit := n.minLimit + (n.maxLimit - n.minLimit) / 2
    nextLeaf := some (h.length + 1)
    lock := lockSet }
  let r' : DataNode M P := { r with
    minLimit := n.minLimit + (n.maxLimit - n.minLimit) / 2
    maxLimit := n.maxLimit
    prevLeaf := some h.length
    lock := lockSet }
  have hlt := Heap.dataAt_lt hL
  have hlen₁ := h.length_setData L (n.retiring a b)
  have hsnoc : h.setData L (n.retiring a b) ++ [Node.data l', .data r'] =
      (h.setData L (n.retiring a b) ++ [.data l']) ++ [.data r'] := by simp
  have hlen₂ : (h.setData L (n.retiring a b) ++ [Node.data l']).length = h.length + 1 := by
    rw [List.length_append, hlen₁]
    rfl
  have hdata : Heap.dataAt (h.setData L (n.retiring a b) ++ [.data l', .data r']) =
      Function.update (Function.update (Function.update h.dataAt L (some (n.retiring a b))) h.length
        (some l')) (h.length + 1) (some r') := by
    rw [hsnoc, Heap.dataAt_snoc_data, hlen₂, Heap.dataAt_snoc_data, hlen₁, Heap.dataAt_setData hL]
  have hgetl : Heap.dataAt (h.setData L (n.retiring a b) ++ [.data l', .data r']) h.length =
      some l' := by
    rw [hdata, Function.update_of_ne (Nat.lt_succ_self _).ne, Function.update_self]
  have hgetr : Heap.dataAt (h.setData L (n.retiring a b) ++ [.data l', .data r']) (h.length + 1) =
      some r' := by
    rw [hdata, Function.update_self]
  have hsteps : Steps 1 [1, 1] 0 := ⟨le_refl 1, by simp, le_refl 1, by simp, rfl⟩
  refine ⟨h.setData L (n.retiring a b) ++ [.data l', .data r'], [(h.length, 1), (h.length + 1, 1)],
    ?_, ?_, rfl, hsteps, ?_, ⟨a, b, ?_⟩, fun x hx hxl => ?_, ?_, ?_⟩
  · unfold createTwoNewDataNodes
    simp only [hL, hlb, Option.bind_eq_bind, Option.bind_some]
    simp only [DataNode.withCounters] at hl hr ⊢
    rw [hl, Option.bind_some, hr, Option.bind_some]
    rfl
  · rw [hsnoc, List.length_append, hlen₂]
    rfl
  · rw [hsnoc, Heap.modelAt_snoc_data, Heap.modelAt_snoc_data, Heap.modelAt_setData hL]
  · rw [hdata, Function.update_of_ne (Nat.lt_succ_of_lt hlt).ne, Function.update_of_ne hlt.ne,
      Function.update_self]
  · rw [hdata, Function.update_of_ne (Nat.lt_succ_of_lt hxl).ne, Function.update_of_ne hxl.ne,
      Function.update_of_ne hx]
  · refine ⟨?_, ?_, ?_, ?_, trivial⟩
    · show (Heap.dataAt _ h.length).bind DataNode.prevLeaf = none
      rw [hgetl]
      exact hlprev
    · show (Heap.dataAt _ h.length).bind DataNode.nextLeaf = _
      rw [hgetl]
      rfl
    · show (Heap.dataAt _ (h.length + 1)).bind DataNode.prevLeaf = _
      rw [hgetr]
      rfl
    · show (Heap.dataAt _ (h.length + 1)).bind DataNode.nextLeaf = _
      rw [hgetr]
      exact hrnext
  · intro x hx
    rcases List.mem_cons.mp hx with rfl | hx
    · exact ⟨l', hgetl, rfl, hlfresh.congr rfl rfl rfl rfl⟩
    · rcases List.mem_cons.mp hx with rfl | hx
      · exact ⟨r', hgetr, rfl, hrfresh.congr rfl rfl rfl rfl⟩
      · cases hx

/-! ### The fanout -/

/-- The used nodes `used` are none, for a split in two, or divide the leaf. -/
def Divides (n : DataNode M P) (D : ℕ) (used : List (FTNode M)) : Prop :=
  (used = [] ∧ D = 1) ∨
    (FanoutTree.Parts D n.bound used 0 ∧ ∀ t ∈ used, FanoutTree.RangeOf n t)

omit [NodeModel M] in
theorem Divides.withCounters {D : ℕ} {used : List (FTNode M)} (h : Divides n D used) (a b : ℕ) :
    Divides (n.withCounters a b) D used := by
  have hb : (n.withCounters a b).bound = n.bound := by
    funext q
    unfold DataNode.bound DataNode.limitAt
    rw [DataNode.cut_congr (n := n) rfl]
    rfl
  have hp : (n.withCounters a b).pairsBetween = n.pairsBetween := DataNode.pairsBetween_congr rfl
  rcases h with h | ⟨h1, h2⟩
  · exact Or.inl h
  · refine Or.inr ⟨by rw [hb]; exact h1, fun t ht => ?_⟩
    unfold FanoutTree.RangeOf
    rw [hp]
    exact h2 t ht

omit [NodeModel M] in
/-- The used nodes of a positive depth are not empty. -/
theorem Parts.ne_nil {D : ℕ} {B : ℚ → ℕ} {used : List (FTNode M)}
    (h : FanoutTree.Parts D B used 0) : used ≠ [] := by
  rintro rfl
  exact (Nat.two_pow_pos D).ne h

theorem createParts_spec (hs : n.Stores C.T) (hlt : n.minLimit < n.maxLimit) {h : Heap M P}
    {L : NodeId} (hL : h.dataAt L = some n) {D : ℕ} {used : List (FTNode M)} (hd : Divides n D used)
    (reuseModel : Bool) :
    ∃ h' parts, createParts C h L used reuseModel = some (h', parts) ∧
      Created C.T h h' L n D parts := by
  unfold createParts
  rcases hd with ⟨rfl, rfl⟩ | ⟨hparts, hrange⟩
  · exact createTwoNewDataNodes_spec hs hL reuseModel
  · rw [if_neg (by simpa using Parts.ne_nil hparts)]
    exact createNewDataNodes_spec hs hlt hL hparts hrange

/-- The choice of a fanout for a leaf. -/
theorem chooseFanout_spec (hs : n.Stores C.T) (hlt : n.minLimit < n.maxLimit) (s : Index M P)
    (fail : ℤ) : ∃ D used a b, chooseFanout C s n fail = some (D, used, n.withCounters a b) ∧
      Divides n D used := by
  unfold chooseFanout
  split
  · exact ⟨1, [], n.numLookups, n.numExpSearchIterations, rfl, Or.inl ⟨rfl, rfl⟩⟩
  · split
    · obtain ⟨D, used, a, b, hf, hp⟩ :=
        FanoutTree.findBestFanoutExistingNode_spec hs hlt C s.numKeys 2
      exact ⟨D, used, a, b, hf, Or.inr hp⟩
    · obtain ⟨D, used, a, b, hf, hp⟩ :=
        FanoutTree.findBestFanoutExistingNode_spec hs hlt C s.numKeys C.maxFanout
      exact ⟨D, used, a, b, hf, Or.inr hp⟩

end Index

end LearnedIndex.Alexol
