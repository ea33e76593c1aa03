import LearnedIndex.Alexol.ModelNode
import Mathlib.Algebra.Order.Floor.Semifield

/-! # Slots, blocks and edges of a model node

A model node with positive slope divides the keys at its edges: the slots from `s` to `e` are those
of the keys between `edge s` and `edge e`, where the first and the last slot also take the keys
beyond them (`bucketOf_mem_iff`).  A child of local depth `d` takes an aligned block of
`2 ^ (g - d)` of the `2 ^ g` slots. -/

namespace LearnedIndex.Alexol

namespace ModelNode

variable {m : ModelNode}

/-! ### Edges -/

theorem edge_le_iff (ha : 0 < m.model.a) {i : ℕ} {key : ℤ} :
    m.edge i ≤ key ↔ (i : ℚ) ≤ m.model.predictDouble key := by
  unfold edge LinearModel.predictDouble
  rw [div_le_iff₀ ha]
  constructor <;> intro h <;> linarith

theorem lt_edge_iff (ha : 0 < m.model.a) {i : ℕ} {key : ℤ} :
    (key : ℚ) < m.edge i ↔ m.model.predictDouble key < i := by
  rw [← not_le, ← not_le, edge_le_iff ha]

theorem edge_lt_edge (ha : 0 < m.model.a) {i j : ℕ} : m.edge i < m.edge j ↔ i < j := by
  unfold edge
  rw [div_lt_div_iff_of_pos_right ha, sub_lt_sub_iff_right, Nat.cast_lt]

theorem edge_inj (ha : 0 < m.model.a) {i j : ℕ} (h : m.edge i = m.edge j) : i = j := by
  rcases Nat.lt_trichotomy i j with hlt | heq | hgt
  · exact absurd h ((edge_lt_edge ha).mpr hlt).ne
  · exact heq
  · exact absurd h.symm ((edge_lt_edge ha).mpr hgt).ne

/-! ### The slot of a key -/

theorem bucketOf_lt (hN : 0 < m.numChildren) (key : ℤ) : m.bucketOf key < m.numChildren := by
  unfold bucketOf
  omega

/-- The keys whose slot lies between `s` and `e`. -/
theorem bucketOf_mem_iff (ha : 0 < m.model.a) {s e : ℕ} (hse : s < e) (he : e ≤ m.numChildren)
    {key : ℤ} :
    (s ≤ m.bucketOf key ∧ m.bucketOf key < e) ↔
      (s = 0 ∨ m.edge s ≤ key) ∧ (e = m.numChildren ∨ (key : ℚ) < m.edge e) := by
  rw [edge_le_iff ha, lt_edge_iff ha]
  have hlow : s ≤ m.bucketOf key ↔ s = 0 ∨ (s : ℚ) ≤ m.model.predictDouble key := by
    rcases Nat.eq_zero_or_pos s with h0 | hpos
    · simp [h0]
    · have ht := le_trunc_iff (x := m.model.predictDouble key) (show (0 : ℤ) < s by omega)
      rw [Int.cast_natCast] at ht
      rw [← ht]
      unfold bucketOf LinearModel.predict
      omega
  have hhigh : m.bucketOf key < e ↔ e = m.numChildren ∨ m.model.predictDouble key < e := by
    have ht := trunc_lt_iff (x := m.model.predictDouble key) (show (0 : ℤ) < e by omega)
    rw [Int.cast_natCast] at ht
    rw [← ht]
    unfold bucketOf LinearModel.predict
    omega
  rw [hlow, hhigh]

/-! ### Blocks -/

theorem repeats_eq {g d : ℕ} (hg : m.numChildren = 2 ^ g) : m.repeats d = 2 ^ (g - d) := by
  unfold repeats
  rw [hg, log2RoundDown_two_pow]

theorem repeats_pos (m : ModelNode) (d : ℕ) : 0 < m.repeats d := Nat.two_pow_pos _

theorem repeats_dvd {g d : ℕ} (hg : m.numChildren = 2 ^ g) : m.repeats d ∣ m.numChildren := by
  rw [repeats_eq hg, hg]
  exact Nat.pow_dvd_pow 2 (Nat.sub_le g d)

theorem blockStart_eq (m : ModelNode) (i d : ℕ) :
    m.blockStart i d = m.repeats d * (i / m.repeats d) := by
  unfold blockStart
  have := Nat.div_add_mod i (m.repeats d)
  omega

theorem blockStart_le (m : ModelNode) (i d : ℕ) : m.blockStart i d ≤ i := Nat.sub_le _ _

theorem lt_blockStart_add (m : ModelNode) (i d : ℕ) : i < m.blockStart i d + m.repeats d := by
  have := Nat.mod_lt i (m.repeats_pos d)
  have := Nat.mod_le i (m.repeats d)
  unfold blockStart
  omega

theorem blockStart_add_le {g d : ℕ} (hg : m.numChildren = 2 ^ g) {i : ℕ}
    (hi : i < m.numChildren) : m.blockStart i d + m.repeats d ≤ m.numChildren := by
  obtain ⟨q, hq⟩ := repeats_dvd (m := m) (d := d) hg
  rw [blockStart_eq, hq]
  rw [hq] at hi
  have hlt : i / m.repeats d < q := Nat.div_lt_of_lt_mul hi
  calc m.repeats d * (i / m.repeats d) + m.repeats d
      = m.repeats d * (i / m.repeats d + 1) := by ring
    _ ≤ m.repeats d * q := Nat.mul_le_mul_left _ hlt

/-- A slot lies in exactly one aligned block. -/
theorem blockStart_of_mem {i d s : ℕ} (hs : m.repeats d ∣ s) (h1 : s ≤ i)
    (h2 : i < s + m.repeats d) : m.blockStart i d = s := by
  obtain ⟨q, rfl⟩ := hs
  rw [blockStart_eq]
  have : i / m.repeats d = q := by
    rw [Nat.div_eq_iff (m.repeats_pos d), Nat.mul_comm]
    omega
  rw [this]

theorem repeats_dvd_blockStart (m : ModelNode) (i d : ℕ) : m.repeats d ∣ m.blockStart i d := by
  rw [blockStart_eq]
  exact Nat.dvd_mul_right _ _

theorem blockStart_zero (m : ModelNode) (d : ℕ) : m.blockStart 0 d = 0 := by
  unfold blockStart
  omega

/-! ### Writing slots -/

theorem fillSlots_eq_some {children children' : List (Option NodeId)} {start count : ℕ}
    {c : NodeId} (h : fillSlots children start count c = some children') :
    start + count ≤ children.length ∧ children'.length = children.length ∧
      ∀ j, children'[j]? =
        if start ≤ j ∧ j < start + count then some (some c) else children[j]? := by
  unfold fillSlots at h
  split at h
  · rename_i hle
    obtain rfl := Option.some.inj h
    refine ⟨hle, ?_, ?_⟩
    · simp
      omega
    · intro j
      rw [List.append_assoc]
      rcases Nat.lt_or_ge j start with h1 | h1
      · rw [List.getElem?_append_left (by simp; omega), List.getElem?_take_of_lt h1,
          if_neg (by omega)]
      · rw [List.getElem?_append_right (by simp; omega), List.length_take,
          Nat.min_eq_left (by omega)]
        rcases Nat.lt_or_ge j (start + count) with h2 | h2
        · rw [List.getElem?_append_left (by simp; omega), if_pos ⟨h1, h2⟩,
            List.getElem?_replicate, if_pos (by omega)]
        · rw [List.getElem?_append_right (by simp; omega), if_neg (by omega),
            List.length_replicate, List.getElem?_drop]
          congr 1
          omega
  · exact absurd h (by simp)

theorem fillSlots_isSome {children : List (Option NodeId)} {start count : ℕ} (c : NodeId)
    (h : start + count ≤ children.length) :
    ∃ children', fillSlots children start count c = some children' :=
  ⟨_, if_pos h⟩

/-- Writing the slots behind a filled prefix makes the prefix longer. -/
theorem fillSlots_prefix {pre : List (Option NodeId)} {count rest : ℕ} (c : NodeId)
    (h : count ≤ rest) :
    fillSlots (pre ++ List.replicate rest none) pre.length count c =
      some (pre ++ List.replicate count (some c) ++ List.replicate (rest - count) none) := by
  unfold fillSlots
  rw [if_pos (by simp; omega), List.take_left' rfl, List.drop_append]
  simp

/-! ### Expansion -/

theorem getElem?_flatMap_replicate {α : Type} (f : ℕ) (hf : 0 < f) : ∀ (l : List α) (i : ℕ),
    (l.flatMap (List.replicate f))[i]? = l[i / f]?
  | [], i => by simp
  | x :: l, i => by
      rw [List.flatMap_cons]
      rcases Nat.lt_or_ge i f with h | h
      · rw [List.getElem?_append_left (by simpa using h), List.getElem?_replicate, if_pos h,
          Nat.div_eq_of_lt h]
        rfl
      · rw [List.getElem?_append_right (by simpa using h), List.length_replicate,
          getElem?_flatMap_replicate f hf l (i - f)]
        have : i / f = (i - f) / f + 1 := by
          rw [← Nat.div_eq_sub_div hf h]
        rw [this]
        rfl

@[simp] theorem expand_localDepth (m : ModelNode) (k : ℕ) :
    (m.expand k).localDepth = m.localDepth :=
  rfl

@[simp] theorem expand_level (m : ModelNode) (k : ℕ) : (m.expand k).level = m.level := rfl

@[simp] theorem expand_numChildren (m : ModelNode) (k : ℕ) :
    (m.expand k).numChildren = m.numChildren * 2 ^ k := rfl

theorem expand_getElem? (m : ModelNode) (k i : ℕ) :
    (m.expand k).children[i]? = m.children[i / 2 ^ k]? :=
  getElem?_flatMap_replicate _ (Nat.two_pow_pos k) m.children i

theorem expand_length (m : ModelNode) (k : ℕ) :
    (m.expand k).children.length = m.children.length * 2 ^ k := by
  unfold expand
  simp [List.length_flatMap]

theorem expand_slope (ha : 0 < m.model.a) (k : ℕ) : 0 < (m.expand k).model.a := by
  show 0 < m.model.a * (2 : ℚ) ^ k
  positivity

theorem expand_edge (m : ModelNode) (k i : ℕ) : (m.expand k).edge (i * 2 ^ k) = m.edge i := by
  show (((i * 2 ^ k : ℕ) : ℚ) - m.model.b * 2 ^ k) /
    (m.model.a * 2 ^ k) = (i - m.model.b) / m.model.a
  have h2 : (2 : ℚ) ^ k ≠ 0 := by positivity
  rw [show ((i * 2 ^ k : ℕ) : ℚ) - m.model.b * 2 ^ k = (i - m.model.b) * 2 ^ k by push_cast; ring,
    mul_div_mul_right _ _ h2]

theorem expand_repeats {g d : ℕ} (hg : m.numChildren = 2 ^ g) (hd : d ≤ g) (k : ℕ) :
    (m.expand k).repeats d = m.repeats d * 2 ^ k := by
  have hg' : (m.expand k).numChildren = 2 ^ (g + k) := by
    rw [expand_numChildren, hg, pow_add]
  rw [repeats_eq hg', repeats_eq hg, ← pow_add]
  congr 1
  omega

theorem expand_blockStart {g d : ℕ} (hg : m.numChildren = 2 ^ g) (hd : d ≤ g) (k i : ℕ) :
    (m.expand k).blockStart i d = m.blockStart (i / 2 ^ k) d * 2 ^ k := by
  rw [blockStart_eq, blockStart_eq, expand_repeats hg hd, Nat.mul_comm (m.repeats d) (2 ^ k),
    Nat.div_div_eq_div_mul]
  ring

/-- Scaling by a positive whole factor commutes with truncation and clamping. -/
theorem clamp_trunc_mul (x : ℚ) {n f : ℕ} (hn : 0 < n) (hf : 0 < f) :
    (min (max (trunc (x * f)) 0) (((n * f : ℕ) : ℤ) - 1)).toNat / f =
      (min (max (trunc x) 0) ((n : ℤ) - 1)).toNat := by
  have hfq : (0 : ℚ) < f := by exact_mod_cast hf
  rcases lt_or_ge x 0 with hx | hx
  · -- both predictions are truncated to something that is not positive: slot 0
    have h1 := trunc_nonpos_of_neg hx
    have h2 := trunc_nonpos_of_neg (mul_neg_of_neg_of_pos hx hfq)
    have h3 : 0 < n * f := Nat.mul_pos hn hf
    rw [max_eq_right h1, max_eq_right h2, min_eq_left (by omega), min_eq_left (by omega)]
    simp
  · have hfl : (⌊x * f⌋).toNat / f = (⌊x⌋).toNat := by
      rw [Int.floor_toNat, Int.floor_toNat, ← Nat.floor_div_natCast,
        mul_div_cancel_right₀ _ (ne_of_gt hfq)]
    have h1 : 0 ≤ ⌊x⌋ := Int.floor_nonneg.mpr hx
    have h2 : 0 ≤ ⌊x * f⌋ := Int.floor_nonneg.mpr (by positivity)
    rw [trunc_of_nonneg hx, trunc_of_nonneg (by positivity), max_eq_left h1, max_eq_left h2]
    have hpos : 1 ≤ n * f := Nat.mul_pos hn hf
    rcases Nat.lt_or_ge (⌊x⌋).toNat n with h | h
    · -- the prediction is a slot of the old node, and the scaled one a slot of the new node
      have hlt : (⌊x * f⌋).toNat < n * f := by
        rw [← hfl] at h
        exact (Nat.div_lt_iff_lt_mul hf).mp h
      rw [min_eq_left (by omega), min_eq_left (by omega), hfl]
    · have hge : n * f ≤ (⌊x * f⌋).toNat := by
        rw [← hfl] at h
        exact (Nat.le_div_iff_mul_le hf).mp h
      rw [min_eq_right (by omega), min_eq_right (by omega)]
      have e1 : (((n * f : ℕ) : ℤ) - 1).toNat = (n - 1) * f + (f - 1) := by
        obtain ⟨n, rfl⟩ := Nat.exists_eq_add_of_le' hn
        rw [Nat.add_sub_cancel, Nat.add_mul, Nat.one_mul]
        omega
      have e2 : ((n : ℤ) - 1).toNat = n - 1 := by omega
      rw [e1, e2, Nat.mul_comm, Nat.mul_add_div hf, Nat.div_eq_of_lt (by omega), Nat.add_zero]

/-- The expanded node divides the keys as before, whatever the line. -/
theorem expand_bucketOf (hN : 0 < m.numChildren) (k : ℕ) (key : ℤ) :
    (m.expand k).bucketOf key / 2 ^ k = m.bucketOf key := by
  have hx : (m.expand k).model.predictDouble key =
      m.model.predictDouble key * ((2 ^ k : ℕ) : ℚ) := by
    unfold expand LinearModel.predictDouble LinearModel.expand
    push_cast
    ring
  unfold bucketOf LinearModel.predict
  rw [hx, expand_numChildren]
  exact clamp_trunc_mul _ hN (Nat.two_pow_pos k)

@[simp] theorem expand_childAt (m : ModelNode) (k i : ℕ) :
    (m.expand k).childAt i = m.childAt (i / 2 ^ k) := by
  unfold childAt
  rw [expand_getElem?]

/-- The slots of the block of local depth `d` around slot `i` all point to `c`. -/
def Occupies (m : ModelNode) (c : NodeId) (d i : ℕ) : Prop :=
  ∀ j, m.blockStart i d ≤ j → j < m.blockStart i d + m.repeats d → m.childAt j = some c

instance (m : ModelNode) (c : NodeId) (d i : ℕ) : Decidable (m.Occupies c d i) :=
  decidable_of_iff (∀ j < m.blockStart i d + m.repeats d, m.blockStart i d ≤ j →
    m.childAt j = some c)
    ⟨fun h j h1 h2 => h j h2 h1, fun h j h2 h1 => h j h1 h2⟩

/-- A slot of the block of the expanded node is a copy of a slot of the old block. -/
theorem mem_expand_block {g d : ℕ} (hg : m.numChildren = 2 ^ g) (hd : d ≤ g) (k i j : ℕ) :
    ((m.expand k).blockStart i d ≤ j ∧
        j < (m.expand k).blockStart i d + (m.expand k).repeats d) ↔
      (m.blockStart (i / 2 ^ k) d ≤ j / 2 ^ k ∧
        j / 2 ^ k < m.blockStart (i / 2 ^ k) d + m.repeats d) := by
  rw [expand_blockStart hg hd, expand_repeats hg hd, ← Nat.add_mul,
    Nat.le_div_iff_mul_le (Nat.two_pow_pos k), Nat.div_lt_iff_lt_mul (Nat.two_pow_pos k)]

/-- A child keeps its block, with the same local depth, in the expanded node. -/
theorem occupies_expand {g d : ℕ} (hg : m.numChildren = 2 ^ g) (hd : d ≤ g) (c : NodeId)
    (k i : ℕ) : (m.expand k).Occupies c d i ↔ m.Occupies c d (i / 2 ^ k) := by
  constructor
  · intro h j h1 h2
    have hj : j * 2 ^ k / 2 ^ k = j := Nat.mul_div_cancel j (Nat.two_pow_pos k)
    have hb := (mem_expand_block hg hd k i (j * 2 ^ k)).mpr (by rw [hj]; exact ⟨h1, h2⟩)
    have hc := h (j * 2 ^ k) hb.1 hb.2
    rwa [expand_childAt, hj] at hc
  · intro h j h1 h2
    have hb := (mem_expand_block hg hd k i j).mp ⟨h1, h2⟩
    rw [expand_childAt]
    exact h (j / 2 ^ k) hb.1 hb.2

/-- Expansion preserves routing: every key finds the child it found before, and a child that
occupied the block of its local depth occupies the block of the same local depth. -/
theorem expand_preserves_routing {g : ℕ} (hg : m.numChildren = 2 ^ g) (k : ℕ) :
    (∀ key, (m.expand k).getChildNode key = m.getChildNode key) ∧
      ∀ c d i, d ≤ g →
        ((m.expand k).Occupies c d i ↔ m.Occupies c d (i / 2 ^ k)) ∧
        (m.expand k).blockStart i d = m.blockStart (i / 2 ^ k) d * 2 ^ k ∧
        (m.expand k).repeats d = m.repeats d * 2 ^ k := by
  have hN : 0 < m.numChildren := by
    rw [hg]
    exact Nat.two_pow_pos g
  refine ⟨fun key => ?_, fun c d i hd => ?_⟩
  · unfold getChildNode
    rw [expand_childAt, expand_bucketOf hN]
  · exact ⟨occupies_expand hg hd c k i, expand_blockStart hg hd k i, expand_repeats hg hd k⟩

/-- A node with a falling line, two children and one doubling. -/
theorem expand_preserves_routing_two :
    let m : ModelNode := { ModelNode.new 0 with
      model := ⟨-1, 3⟩, numChildren := 2, children := [some 4, some 5] }
    (m.expand 1).getChildNode 9 = m.getChildNode 9 ∧ (m.expand 1).Occupies 5 1 3 := by
  intro m
  have h := expand_preserves_routing (m := m) (g := 1) rfl 1
  exact ⟨h.1 9, ((h.2 5 1 3 (le_refl 1)).1).mpr (by decide)⟩

end ModelNode

end LearnedIndex.Alexol
