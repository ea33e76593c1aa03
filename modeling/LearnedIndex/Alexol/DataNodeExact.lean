import LearnedIndex.Alexol.WellFormed

/-! # What the operations of a data node do to its pairs

For every well-formed node, whatever its layout and its model: an insert stores the pair between
the smaller and the larger keys, removal takes out exactly the pairs asked for, and loading and
rebuilding place every pair once and in order.  Each result is stated on `pairs`, the stored pairs
in slot order; that an operation returns at all says that it stays inside the arrays. -/

namespace LearnedIndex.Alexol

open LearnedIndex.Words

namespace DataNode

variable {M P : Type} {T : KeyType} {n : DataNode M P} {v : View P} {k : ℕ → ℤ}

/-! ### Pairs of a range of slots -/

/-- The pairs stored at the positions from `left` up to `right` (exclusive). -/
def pairsIn (n : DataNode M P) (left right : ℕ) : List (ℤ × P) :=
  (List.range' left (right - left)).filterMap
    (fun i => if n.checkExists i = some true then n.pairAt i else none)

theorem Holds.pairsIn_eq (h : Holds T n v k) {left right : ℕ} (hr : right ≤ v.cap) :
    n.pairsIn left right = v.seg left right := by
  unfold pairsIn View.seg
  refine List.filterMap_congr (fun i hi => ?_)
  rw [List.mem_range'_1] at hi
  have hlt : i < v.cap := by omega
  rw [h.reps.checkExists hlt]
  cases hb : v.bit i with
  | false =>
      rw [if_neg (by simp), View.cell_gap hb]
  | true =>
      obtain ⟨p, _, hcell⟩ := h.gapped.cell hlt hb
      rw [if_pos rfl, hcell]
      exact h.pairAt hcell

/-! ### Inserts -/

/-- With a free slot `closest_gap` finds one, from every position. -/
theorem Holds.closestGap_found (h : Holds T n v k) (hroom : n.numKeys < n.dataCapacity) (pos : ℕ) :
    ∃ g : ℕ, n.closestGap pos = some (g : ℤ) ∧ g < n.dataCapacity := by
  have hroom' : v.entries.length < v.cap := by
    rw [← h.count, ← h.reps.cap]
    exact hroom
  obtain ⟨i, hi, hb⟩ := h.gapped.exists_gap hroom'
  obtain ⟨r, hr, hans⟩ := h.reps.closestGap_spec pos
  rcases hans with ⟨g, rfl, hn⟩ | ⟨_, hfull⟩
  · exact ⟨g, hr, by rw [h.reps.cap]; exact hn.lt⟩
  · rw [hfull i (Nat.zero_le i) hi hi] at hb
    cases hb

/-- The node that an insert returns, whatever the flag, has the arrays and the key count of the
node that holds the new pair; with flag 0 the position is reported. -/
theorem insertVerdict_arrays (n : DataNode M P) (pos : ℕ) : ∃ n' code p,
    n.insertVerdict pos = (n', code, p) ∧ n'.toSlots = n.toSlots ∧ n'.numKeys = n.numKeys ∧
      code ∈ [0, 1, 2, 3, 5] ∧ (code = 0 → p = pos) := by
  rcases insertVerdict_cases n pos with ⟨he, _⟩ | ⟨code, hcode, he⟩
  · exact ⟨_, _, _, he, rfl, rfl, List.mem_cons_self .., fun _ => rfl⟩
  · refine ⟨_, _, _, he, rfl, rfl, ?_, fun hzero => ?_⟩
    · simp only [List.mem_cons, List.not_mem_nil, or_false]
      omega
    · omega

variable [NodeModel M]

/-- What an insert into a free node with room returns. -/
theorem WellFormed.insert_outcome (h : WellFormed T n) (hl : isSet n.lock = false)
    (hroom : n.numKeys < n.dataCapacity) {key : ℤ} (hkey : key < T.max) (allowDuplicates : Bool)
    (payload : P) : ∃ n' code pos,
      n.insert allowDuplicates key payload = some (n', code, pos) ∧ WellFormed T n' ∧
      ((allowDuplicates = false ∧ ∃ x ∈ n.pairs, x.1 = key) →
        code = -1 ∧ (∃ i : ℕ, pos = i ∧ n.Filled i ∧ n.keyAt i = some key) ∧
        n'.toSlots = n.toSlots ∧ n'.numKeys = n.numKeys) ∧
      (¬ (allowDuplicates = false ∧ ∃ x ∈ n.pairs, x.1 = key) →
        code ∈ [0, 1, 2, 3, 5] ∧ n'.numKeys = n.numKeys + 1 ∧
        (∃ A B, n.pairs = A ++ B ∧ n'.pairs = A ++ (key, payload) :: B ∧
          (∀ x ∈ A, x.1 ≤ key) ∧ ∀ x ∈ B, key < x.1) ∧
        (code = 0 → ∃ i : ℕ, pos = i ∧ n'.Filled i ∧ n'.pairAt i = some (key, payload))) := by
  have hh := h.holds
  have hpairs := hh.pairs_eq
  rcases hh.insert_exact allowDuplicates hl hroom hkey payload with
    ⟨hd, hx, i, b, he, hi, hbit, hk⟩ |
      ⟨hn, n', pos, v', k', A, B, he, hh', hcap, hs, hs', hnum, _, _, _, _, hA, hB, hpos, hcell⟩
  · -- the key is stored at position `i`
    have hh' : Holds T { n.withCounters n.numLookups b with lock := n.lock + 1#32 } n.view
        (n.keyFrom T) := hh.congr rfl rfl
    refine ⟨_, -1, i, he, hh'.wellFormed, fun _ => ⟨rfl, ⟨i, rfl, ?_, ?_⟩, rfl, rfl⟩,
      fun hno => absurd ⟨hd, ?_⟩ hno⟩
    · exact (hh.filled_iff i).mpr hbit
    · rw [hh.keyAt hi, hk]
    · rw [hpairs]
      exact hx
  · obtain ⟨m, code, p, hv, harr, hkeys, hcode, hzero⟩ := insertVerdict_arrays n' pos
    rw [hv] at he
    have hm : Holds T m v' k' := hh'.congr harr hkeys
    refine ⟨m, code, p, he, hm.wellFormed, fun hyes => ?_, fun _ => ⟨hcode, by rw [hkeys, hnum],
      ⟨A, B, by rw [hpairs, hs], by rw [hm.pairs_eq, hs'], hA, hB⟩,
        fun h0 => ⟨pos, hzero h0, ?_, ?_⟩⟩⟩
    · rw [hpairs] at hyes
      obtain ⟨hd, x, hx, hxk⟩ := hyes
      rcases hn with hn | hn
      · rw [hd] at hn
        cases hn
      · exact absurd hxk (hn x hx)
    · exact (hm.filled_iff pos).mpr (View.cell_eq_some.mp hcell).1
    · exact hm.pairAt hcell

/-- `insert` is exact for every layout and every prediction.  A locked node is left alone (flag
4); a stored key is reported at its position unless duplicates are allowed; any other key is
stored behind the keys that are not larger. -/
theorem insert_stores_exactly (h : WellFormed T n) (hroom : n.numKeys < n.dataCapacity) {key : ℤ}
    (hkey : key < T.max) (allowDuplicates : Bool) (payload : P) :
    (∀ pos, ∃ g : ℕ, n.closestGap pos = some (g : ℤ) ∧ g < n.dataCapacity) ∧
    (isSet n.lock = true → n.insert allowDuplicates key payload = some (n, 4, -1)) ∧
    (isSet n.lock = false → ∃ n' code pos,
      n.insert allowDuplicates key payload = some (n', code, pos) ∧ WellFormed T n' ∧
      ((allowDuplicates = false ∧ ∃ x ∈ n.pairs, x.1 = key) →
        code = -1 ∧ (∃ i : ℕ, pos = i ∧ n.Filled i ∧ n.keyAt i = some key) ∧
        n'.toSlots = n.toSlots ∧ n'.numKeys = n.numKeys) ∧
      (¬ (allowDuplicates = false ∧ ∃ x ∈ n.pairs, x.1 = key) →
        code ∈ [0, 1, 2, 3, 5] ∧ n'.numKeys = n.numKeys + 1 ∧
        (∃ A B, n.pairs = A ++ B ∧ n'.pairs = A ++ (key, payload) :: B ∧
          (∀ x ∈ A, x.1 ≤ key) ∧ ∀ x ∈ B, key < x.1) ∧
        (code = 0 → ∃ i : ℕ, pos = i ∧ n'.Filled i ∧ n'.pairAt i = some (key, payload)))) :=
  ⟨h.holds.closestGap_found hroom, fun hl => insert_locked allowDuplicates hl key payload,
    fun hl => h.insert_outcome hl hroom hkey allowDuplicates payload⟩

theorem insert_stores_threeKeys : ∃ n n' : DataNode LinearModel ℕ, ∃ code pos,
    threeKeys = some n ∧ n.insert false 7 70 = some (n', code, pos) ∧ n'.numKeys = 4 := by
  obtain ⟨n, hn, h⟩ := threeKeys_wellFormed
  have hread : threeKeys.map (fun n => (n.dataCapacity, n.numKeys, n.lock, n.pairs)) =
      some (4, 3, 0#32, [(1, 10), (2, 20), (3, 30)]) := by decide +kernel
  rw [hn, Option.map_some] at hread
  have hread := Option.some.inj hread
  simp only [Prod.mk.injEq] at hread
  obtain ⟨hcap, hnum, hlock, hpairs⟩ := hread
  have hl : isSet n.lock = false := by
    rw [hlock]
    decide
  obtain ⟨n', code, pos, he, _, _, hins⟩ :=
    (insert_stores_exactly h (by omega) (show (7 : ℤ) < KeyType.uint64.max by decide) false 70).2.2
      hl
  refine ⟨n, n', code, pos, hn, he, ?_⟩
  rw [(hins (by rw [hpairs]; decide)).2.1, hnum]

/-! ### Removal -/

/-- The keys that `erase_range` takes out. -/
def inRange (startKey endKey : ℤ) (endKeyInclusive : Bool) (key : ℤ) : Bool :=
  decide (startKey ≤ key) &&
    (if endKeyInclusive then decide (key ≤ endKey) else decide (key < endKey))

theorem inRange_eq (startKey endKey : ℤ) (inclusive : Bool) (key : ℤ) :
    inRange startKey endKey inclusive key =
      decide (¬ key < startKey ∧ beforeEnd endKey inclusive key) := by
  unfold inRange beforeEnd
  cases inclusive <;> simp

/-- Removal is exact: `erase` takes out the pairs with the key, `erase_one_at` the pair at the
position and `erase_range` the pairs in the range, also when the node contracts; all other pairs
stay in their order. -/
theorem erase_removes_exactly (h : WellFormed T n) :
    (∀ key, (isSet n.lock = true → n.erase T key = some (none, n)) ∧
      (isSet n.lock = false → ∃ count n', n.erase T key = some (some count, n') ∧
        WellFormed T n' ∧ count = (n.pairs.filter (fun x => decide (x.1 = key))).length ∧
        n'.pairs = n.pairs.filter (fun x => decide (x.1 ≠ key)) ∧
        (count = 0 → n'.toSlots = n.toSlots ∧ n'.numKeys = n.numKeys))) ∧
    (∀ pos, n.Filled pos → ∃ n' x, n.eraseOneAt T pos = some n' ∧ WellFormed T n' ∧
      n.pairAt pos = some x ∧
      n.pairs = n.pairsIn 0 pos ++ x :: n.pairsIn (pos + 1) n.dataCapacity ∧
      n'.pairs = n.pairsIn 0 pos ++ n.pairsIn (pos + 1) n.dataCapacity) ∧
    (∀ startKey endKey inclusive, ∃ count n',
      n.eraseRange T startKey endKey inclusive = some (count, n') ∧ WellFormed T n' ∧
      count = (n.pairs.filter (fun x => inRange startKey endKey inclusive x.1)).length ∧
      n'.pairs = n.pairs.filter (fun x => !inRange startKey endKey inclusive x.1)) := by
  have hh := h.holds
  have hpairs := hh.pairs_eq
  refine ⟨fun key => ⟨fun hl => erase_locked hl key, fun hl => ?_⟩, fun pos hf => ?_,
    fun startKey endKey inclusive => ?_⟩
  · obtain ⟨r, n', v', k', he, hh', _, hr, hents, _, _, _, _, hsame⟩ := hh.erase hl key
    refine ⟨r, n', he, hh'.wellFormed, by rw [hpairs]; exact hr, ?_, fun h0 => ⟨hsame h0, ?_⟩⟩
    · rw [hh'.pairs_eq, hpairs]
      exact hents
    · rw [hh'.wellFormed.numKeys, h.numKeys, pairs_congr (hsame h0)]
  · have hpos := h.filled_lt hf
    obtain ⟨n', v', k', x, he, hh', hcell, hs, hs', _⟩ :=
      hh.eraseOneAt hpos ((hh.filled_iff pos).mp hf)
    have h1 : n.pairsIn 0 pos = n.view.seg 0 pos := hh.pairsIn_eq (le_of_lt hpos)
    have h2 : n.pairsIn (pos + 1) n.dataCapacity = n.view.seg (pos + 1) n.view.cap :=
      hh.pairsIn_eq (le_refl _)
    refine ⟨n', x, he, hh'.wellFormed, hh.pairAt hcell, ?_, ?_⟩
    · rw [hpairs, h1, h2]
      exact hs
    · rw [hh'.pairs_eq, h1, h2]
      exact hs'
  · obtain ⟨d, n', v', k', he, hh', hd, hents, _⟩ := hh.eraseRange startKey endKey inclusive
    simp only [inRange_eq]
    refine ⟨d, n', he, hh'.wellFormed, by rw [hpairs]; exact hd, ?_⟩
    rw [hh'.pairs_eq, hents, hpairs]
    refine List.filter_congr (fun x _ => ?_)
    rw [← decide_not, decide_eq_decide]
    tauto

theorem erase_removes_threeKeys : ∃ n n' : DataNode LinearModel ℕ, ∃ count,
    threeKeys = some n ∧ n.eraseRange KeyType.uint64 2 9 false = some (count, n') ∧
      n'.pairs = [(1, 10)] := by
  obtain ⟨n, hn, h⟩ := threeKeys_wellFormed
  have hread : threeKeys.map (fun n => n.pairs) = some [(1, 10), (2, 20), (3, 30)] := by
    decide +kernel
  rw [hn, Option.map_some] at hread
  have hpairs := Option.some.inj hread
  obtain ⟨count, n', he, _, _, hp⟩ := (erase_removes_exactly h).2.2 2 9 false
  refine ⟨n, n', count, hn, he, ?_⟩
  rw [hp, hpairs]
  decide

/-! ### Loading and rebuilding -/

/-- The node is well formed, has room for another key and holds exactly these pairs, in this
order. -/
structure Rebuilt (T : KeyType) (n : DataNode M P) (pairs : List (ℤ × P)) : Prop where
  wellFormed : WellFormed T n
  room : HasRoom n
  pairs_eq : n.pairs = pairs
  numKeys : n.numKeys = pairs.length

omit [NodeModel M] in
theorem Holds.rebuilt (h : Holds T n v k) {pairs : List (ℤ × P)} (he : v.entries = pairs)
    (hr : Room n) : Rebuilt T n pairs :=
  ⟨h.wellFormed, hr.hasRoom, by rw [h.pairs_eq, he], by rw [h.count, he]⟩

/-- Resizing a node that holds a key, in place or into a copy. -/
theorem WellFormed.resizes (h : WellFormed T n) (hpos : 1 ≤ n.numKeys) (targetDensity : ℚ)
    (forceRetrain keepLeft keepRight : Bool) :
    (∃ n', n.resize T targetDensity forceRetrain keepLeft keepRight = some n' ∧
      Rebuilt T n' n.pairs) ∧
    ∃ n', n.newFromExisting.resizeFromExisting T n targetDensity forceRetrain keepLeft keepRight =
      some n' ∧ Rebuilt T n' n.pairs := by
  have hh := h.holds
  rw [hh.pairs_eq]
  constructor
  · obtain ⟨n', v', k', he, hh', hents, hroom, _⟩ :=
      hh.resize targetDensity forceRetrain keepLeft keepRight
    rcases hroom with ⟨-, hempty⟩ | hroom
    · omega
    · exact ⟨n', he, hh'.rebuilt hents hroom⟩
  · obtain ⟨n', v', k', he, hh', hents, hroom, _⟩ :=
      hh.resizeFromExisting (by omega) targetDensity forceRetrain keepLeft keepRight
    exact ⟨n', he, hh'.rebuilt hents hroom⟩

/-- Loading and rebuilding place every pair of the source once and in order, for any model: its
predictions may be any function of the key.  The key bound on an array says that its keys are
values of the key type. -/
theorem rebuild_keeps_pairs (T : KeyType) :
    (∀ (n : DataNode M P) (values : List (ℤ × P)) (pretrained : Option M) (sample : Bool),
      values.Pairwise (fun x y => x.1 ≤ y.1) → (∀ x ∈ values, x.1 ≤ T.max) →
      ∃ n', n.bulkLoad T values pretrained sample = some n' ∧ Rebuilt T n' values) ∧
    (∀ (n src : DataNode M P) (left right : ℕ) (keepLeft keepRight : Bool)
      (precomputed : Option (M × ℕ)), WellFormed T src → left ≤ right →
      right ≤ src.dataCapacity → left < src.dataCapacity →
      (∀ m ∈ precomputed, m.2 = (src.pairsIn left right).length) →
      ∃ n', n.bulkLoadFromExisting T none src left right keepLeft keepRight precomputed =
        some n' ∧ Rebuilt T n' (src.pairsIn left right)) ∧
    (∀ (n : DataNode M P) (targetDensity : ℚ) (forceRetrain keepLeft keepRight : Bool),
      WellFormed T n → 1 ≤ n.numKeys →
      (∃ n', n.resize T targetDensity forceRetrain keepLeft keepRight = some n' ∧
        Rebuilt T n' n.pairs) ∧
      ∃ n', n.newFromExisting.resizeFromExisting T n targetDensity forceRetrain keepLeft
        keepRight = some n' ∧ Rebuilt T n' n.pairs) ∧
    (∀ (n n₁ : DataNode M P) (allowDuplicates : Bool) (key : ℤ) (payload : P) (code pos : ℤ)
      (targetDensity : ℚ) (forceRetrain keepLeft keepRight : Bool),
      WellFormed T n → n.numKeys < n.dataCapacity → key < T.max →
      n.insert allowDuplicates key payload = some (n₁, code, pos) → code ∈ [1, 2, 3, 5] →
      (∃ n', n₁.resize T targetDensity forceRetrain keepLeft keepRight = some n' ∧
        Rebuilt T n' n₁.pairs) ∧
      ∃ n', n₁.newFromExisting.resizeFromExisting T n₁ targetDensity forceRetrain keepLeft
        keepRight = some n' ∧ Rebuilt T n' n₁.pairs) := by
  refine ⟨?_, ?_, ?_, ?_⟩
  · intro n values pretrained sample hs hB
    obtain ⟨n', v', k', he, hh, hents, hroom, _⟩ := n.bulkLoad_spec hs hB pretrained sample
    exact ⟨n', he, hh.rebuilt hents hroom⟩
  · intro n src left right keepLeft keepRight precomputed h hlr hr hl hpre
    have hh := h.holds
    have hpairs : src.pairsIn left right = src.view.seg left right := hh.pairsIn_eq hr
    rw [hpairs] at hpre ⊢
    obtain ⟨n', v', k', he, hh', hents, hroom, _⟩ :=
      hh.bulkLoadFromExisting n none hlr hr (Or.inl hl) keepLeft keepRight hpre
    exact ⟨n', he, hh'.rebuilt hents hroom⟩
  · intro n targetDensity forceRetrain keepLeft keepRight h hpos
    exact h.resizes hpos targetDensity forceRetrain keepLeft keepRight
  · intro n n₁ allowDuplicates key payload code pos targetDensity forceRetrain keepLeft keepRight
      h hroom hkey he hcode
    -- a locked node or a stored key would have given another flag
    cases hl : isSet n.lock with
    | true =>
        rw [insert_locked allowDuplicates hl] at he
        simp only [Option.some.injEq, Prod.mk.injEq] at he
        simp [← he.2.1] at hcode
    | false =>
        obtain ⟨n', code', pos', he', hw, hyes, hno⟩ :=
          h.insert_outcome hl hroom hkey allowDuplicates payload
        rw [he'] at he
        simp only [Option.some.injEq, Prod.mk.injEq] at he
        obtain ⟨rfl, rfl, rfl⟩ := he
        by_cases hd : allowDuplicates = false ∧ ∃ x ∈ n.pairs, x.1 = key
        · simp [(hyes hd).1] at hcode
        · have hnum := (hno hd).2.1
          exact hw.resizes (by omega) targetDensity forceRetrain keepLeft keepRight

theorem rebuild_keeps_threeKeys : ∃ n n' : DataNode LinearModel ℕ, threeKeys = some n ∧
    n.resize KeyType.uint64 kMaxDensity false false false = some n' ∧
      n'.pairs = [(1, 10), (2, 20), (3, 30)] := by
  obtain ⟨n, hn, h⟩ := threeKeys_wellFormed
  have hread : threeKeys.map (fun n => (n.numKeys, n.pairs)) =
      some (3, [(1, 10), (2, 20), (3, 30)]) := by decide +kernel
  rw [hn, Option.map_some] at hread
  have hread := Option.some.inj hread
  simp only [Prod.mk.injEq] at hread
  obtain ⟨n', he, hr⟩ := ((rebuild_keeps_pairs KeyType.uint64).2.2.1 n kMaxDensity false false false
    h (by omega)).1
  exact ⟨n, n', hn, he, by rw [hr.pairs_eq, hread.2]⟩

end DataNode

end LearnedIndex.Alexol
