import LearnedIndex.Alexol.ExpandDomain
import LearnedIndex.Alexol.ExpandSlots
import LearnedIndex.Alexol.FanoutPartition
import LearnedIndex.Alexol.PathCorrection

/-! # The root after an expansion

* **Unset slots.**  The expansion factor is rounded up to a power of two.  When the new domain is
  clipped, whole blocks of new slots may lie beyond the slot of its new end; they are never
  assigned, and `last_data_node` or a `NodeIterator` reads them (`expandRoot_allSet_iff`, for any
  arithmetic on doubles).
* **Local depths.**  No old node gets a new `local_depth_`.  The children of a root that is expanded
  in place would have to take more slots, and an old root below a new one all of them
  (`expandRoot_not_blocks`). -/

namespace LearnedIndex.Alexol

/-! ### The new end of the domain -/

/-- An unsigned integer type. -/
def KeyType.Unsigned (T : KeyType) : Prop := T.lowest = 0 ∧ ∃ w : ℕ, T.max = 2 ^ w - 1

theorem KeyType.Unsigned.odd {T : KeyType} (h : T.Unsigned) : ∃ K, 0 ≤ K ∧ T.max = 2 * K + 1 := by
  obtain ⟨h0, w, hw⟩ := h
  have hlt := T.lowest_lt_max
  cases w with
  | zero =>
      rw [hw, h0, pow_zero] at hlt
      omega
  | succ w =>
      have hpos : (0 : ℤ) < 2 ^ w := by positivity
      refine ⟨2 ^ w - 1, by omega, ?_⟩
      rw [hw, pow_succ]
      ring

theorem KeyType.uint64_unsigned : KeyType.uint64.Unsigned := ⟨rfl, 64, rfl⟩

theorem KeyType.arith_exact {T : KeyType} {x : ℤ} (h1 : T.lowest ≤ x) (h2 : x ≤ T.max) :
    T.arith x = some x := if_pos ⟨h1, h2⟩

/-- The value of an unsigned type for an exact one. -/
def KeyType.wrap (T : KeyType) (x : ℤ) : ℤ := x % (T.max + 1)

/-- Arithmetic of an unsigned type never fails. -/
theorem KeyType.Unsigned.arith_eq {T : KeyType} (h : T.Unsigned) (x : ℤ) :
    T.arith x = some (T.wrap x) := by
  unfold KeyType.arith KeyType.wrap
  split
  · rw [Int.emod_eq_of_lt (by have := h.1; omega) (by omega)]
  · rw [if_pos h.1]

theorem KeyType.Unsigned.wrap_nonneg {T : KeyType} (h : T.Unsigned) (x : ℤ) : 0 ≤ T.wrap x :=
  Int.emod_nonneg _ (by have := h.1; have := T.lowest_lt_max; omega)

namespace Index

variable {M P : Type}

/-- The expansion factor for keys `d` beyond the domain. -/
def doublesFactor (D : Doubles) (s : Index M P) (d : ℤ) : ℕ :=
  pow2RoundUp (expansionRatio D d s.domainSize).toNat

/-- `half_expanded_domain_size`. -/
def halfSize (D : Doubles) (T : KeyType) (s : Index M P) (d : ℤ) : ℤ :=
  T.wrap ((s.doublesFactor D d / 2 : ℕ) * s.domainSize)

/-- The new lower end for keys `d` below the domain: the lowest key, or twice the half below the
upper end. -/
def clippedMin (D : Doubles) (T : KeyType) (s : Index M P) (d : ℤ) : ℤ :=
  if s.keyDomainMax.tdiv 2 - T.lowest.tdiv 2 < s.halfSize D T d then T.lowest
  else s.keyDomainMax - s.halfSize D T d - s.halfSize D T d

/-- The new upper end for keys `d` above the domain. -/
def clippedMax (D : Doubles) (T : KeyType) (s : Index M P) (d : ℤ) : ℤ :=
  if T.max.tdiv 2 - s.keyDomainMin.tdiv 2 < s.halfSize D T d then T.max
  else s.keyDomainMin + s.halfSize D T d + s.halfSize D T d

/-- A key outside the domain on the side that is expanded, and the ends of the stored keys. -/
structure KeyBeyond (T : KeyType) (s : Index M P) (key minKey maxKey : ℤ) (expandLeft : Bool) :
    Prop where
  domain_ge : T.lowest ≤ s.keyDomainMin
  domain_lt : s.keyDomainMin < s.keyDomainMax
  domain_le : s.keyDomainMax ≤ T.max
  key_range : T.lowest ≤ key ∧ key ≤ T.max
  side : if expandLeft then key < s.keyDomainMin else s.keyDomainMax < key
  getMinKey : s.getMinKey T = some minKey
  getMaxKey : s.getMaxKey T = some maxKey
  minKey_ge : T.lowest ≤ minKey
  maxKey_le : maxKey ≤ T.max

section
variable {D : Doubles} {T : KeyType} {s : Index M P} {key minKey maxKey d : ℤ} {expandLeft : Bool}

theorem KeyBeyond.reach_spec (hT : T.Unsigned) (h : KeyBeyond T s key minKey maxKey expandLeft) :
    keyDifference T s key expandLeft = some (s.reach key minKey maxKey expandLeft) := by
  have h0 := hT.1
  have hge := h.domain_ge
  have hlt := h.domain_lt
  have hle := h.domain_le
  have hkey := h.key_range
  have hside := h.side
  have hmin := h.minKey_ge
  have hmax := h.maxKey_le
  unfold reach keyDifference
  cases expandLeft with
  | true =>
      simp only [if_true, h.getMinKey, Option.bind_eq_bind, Option.bind_some] at hside ⊢
      exact KeyType.arith_exact (by omega) (by omega)
  | false =>
      simp only [Bool.false_eq_true, if_false, h.getMaxKey, Option.bind_eq_bind, Option.bind_some]
        at hside ⊢
      exact KeyType.arith_exact (by omega) (by omega)

theorem expansionFactor_eq {size : ℤ} {factor : ℕ} (h : expansionFactor D d size = some factor) :
    factor = pow2RoundUp (expansionRatio D d size).toNat := by
  unfold expansionFactor at h
  dsimp only at h
  split at h
  · exact (Option.some.inj h).symm
  · cases h

theorem expandedMax_clipped (hT : T.Unsigned) {size : ℤ} {factor : ℕ} {lo : ℤ}
    (hlo : T.lowest ≤ lo) (hlo' : lo ≤ T.max) :
    expandedMax T lo size factor = some
      (if T.max.tdiv 2 - lo.tdiv 2 < T.wrap ((factor / 2 : ℕ) * size) then T.max
        else lo + T.wrap ((factor / 2 : ℕ) * size) + T.wrap ((factor / 2 : ℕ) * size)) := by
  obtain ⟨K, hK, hmaxK⟩ := hT.odd
  have hzero := hT.1
  have h0 := hT.wrap_nonneg ((factor / 2 : ℕ) * size)
  unfold expandedMax
  rw [hT.arith_eq ((factor / 2 : ℕ) * size)]
  generalize T.wrap ((factor / 2 : ℕ) * size) = half at h0 ⊢
  rw [hmaxK, Int.tdiv_eq_ediv_of_nonneg (by omega), Int.tdiv_eq_ediv_of_nonneg (by omega),
    KeyType.arith_exact (x := (2 * K + 1) / 2 - lo / 2) (by omega) (by omega)]
  simp only [Option.bind_eq_bind, Option.bind_some]
  by_cases hclip : (2 * K + 1) / 2 - lo / 2 < half
  · rw [if_pos hclip, if_pos hclip]
  · rw [if_neg hclip, if_neg hclip, KeyType.arith_exact (x := lo + half) (by omega) (by omega),
      Option.bind_some, KeyType.arith_exact (by omega) (by omega)]

theorem expandedMin_clipped (hT : T.Unsigned) {size : ℤ} {factor : ℕ} {hi : ℤ}
    (hhi : T.lowest ≤ hi) (hhi' : hi ≤ T.max) :
    expandedMin T hi size factor = some
      (if hi.tdiv 2 - T.lowest.tdiv 2 < T.wrap ((factor / 2 : ℕ) * size) then T.lowest
        else hi - T.wrap ((factor / 2 : ℕ) * size) - T.wrap ((factor / 2 : ℕ) * size)) := by
  have hzero := hT.1
  have h0 := hT.wrap_nonneg ((factor / 2 : ℕ) * size)
  unfold expandedMin
  rw [hT.arith_eq ((factor / 2 : ℕ) * size)]
  generalize T.wrap ((factor / 2 : ℕ) * size) = half at h0 ⊢
  rw [hzero, Int.zero_tdiv, Int.sub_zero, Int.tdiv_eq_ediv_of_nonneg (by omega),
    KeyType.arith_exact (x := hi / 2) (by omega) (by omega)]
  simp only [Option.bind_eq_bind, Option.bind_some]
  by_cases hclip : hi / 2 < half
  · rw [if_pos hclip, if_pos hclip]
  · rw [if_neg hclip, if_neg hclip, KeyType.arith_exact (x := hi - half) (by omega) (by omega),
      Option.bind_some, KeyType.arith_exact (by omega) (by omega)]

/-- The expansion factor and the new end, from the domain and the keys. -/
theorem KeyBeyond.expandedDomain_eq (hT : T.Unsigned)
    (h : KeyBeyond T s key minKey maxKey expandLeft) {factor : ℕ} {lo hi : ℤ}
    (hd : expandedDomain D T s key expandLeft = some (factor, lo, hi)) :
    factor = s.doublesFactor D (s.reach key minKey maxKey expandLeft) ∧
      if expandLeft then lo = s.clippedMin D T (s.reach key minKey maxKey expandLeft)
      else hi = s.clippedMax D T (s.reach key minKey maxKey expandLeft) := by
  have hge := h.domain_ge
  have hlt := h.domain_lt
  have hle := h.domain_le
  have h0 := hT.1
  have harith : T.arith (s.keyDomainMax - s.keyDomainMin) = some s.domainSize :=
    KeyType.arith_exact (by omega) (by omega)
  unfold expandedDomain at hd
  simp only [harith, h.reach_spec hT, Option.bind_eq_bind, Option.bind_some] at hd
  obtain ⟨f, hf, hd⟩ := Option.bind_eq_some_iff.mp hd
  have hfactor : f = s.doublesFactor D (s.reach key minKey maxKey expandLeft) :=
    expansionFactor_eq hf
  unfold clippedMin clippedMax halfSize
  rw [← hfactor]
  cases expandLeft with
  | true =>
      rw [if_pos rfl, expandedMin_clipped hT (by omega) hle, Option.bind_some] at hd
      obtain ⟨rfl, hrest⟩ := Prod.mk.inj (Option.some.inj hd)
      obtain ⟨rfl, -⟩ := Prod.mk.inj hrest
      exact ⟨rfl, rfl⟩
  | false =>
      rw [if_neg (by simp), expandedMax_clipped hT hge (by omega), Option.bind_some] at hd
      obtain ⟨rfl, hrest⟩ := Prod.mk.inj (Option.some.inj hd)
      obtain ⟨-, rfl⟩ := Prod.mk.inj hrest
      exact ⟨rfl, rfl⟩

end

/-! ### Which slots are set -/

/-- The loop to the right reaches the last block if and only if that block begins at or below the
slot of the new end. -/
theorem blocksFrom_covers {n f : ℕ} {p : ℤ} (hn : 0 < n) :
    (∀ j, n ≤ j → j < n * (f + 2) →
      j ∈ blocksFrom n (n * (f + 2)) (min ((n * (f + 2) : ℕ) : ℤ) (p + 1)) n) ↔
      ((n * (f + 1) : ℕ) : ℤ) ≤ p := by
  have hlast : n * (f + 2) = n * (f + 1) + n := Nat.mul_succ n (f + 1)
  have hfirst : n * (f + 1) = n * f + n := Nat.mul_succ n f
  constructor
  · intro h
    obtain ⟨k, -, hin, hle, hlt⟩ := h (n * (f + 1)) (by omega) (by omega)
    have hblock : n + n * k = n * (k + 1) := by rw [Nat.mul_succ, Nat.add_comm]
    have hk : f < k + 1 := by
      have : n * (f + 1) < n * (k + 1 + 1) := by
        rw [Nat.mul_succ n (k + 1), ← hblock, Nat.mul_succ]
        rw [Nat.mul_succ] at hlt
        omega
      have := Nat.lt_of_mul_lt_mul_left this
      omega
    have hmul : n * (f + 1) ≤ n * (k + 1) := Nat.mul_le_mul_left n (by omega)
    omega
  · intro h j h1 h2
    have hmod := Nat.div_add_mod j n
    have hrem := Nat.mod_lt j hn
    obtain ⟨k, hk⟩ : ∃ k, j / n = k + 1 :=
      Nat.exists_eq_succ_of_ne_zero (Nat.div_pos h1 hn).ne'
    rw [hk, Nat.mul_succ] at hmod
    have hkf : k ≤ f := by
      have : n * (k + 1) < n * (f + 2) := by
        rw [Nat.mul_succ]
        omega
      have := Nat.lt_of_mul_lt_mul_left this
      omega
    have hmul : n * k ≤ n * f := Nat.mul_le_mul_left n hkf
    exact ⟨k, by omega, by omega, by omega, by rw [Nat.mul_succ]; omega⟩

/-- The loop to the left reaches the first block if and only if that block ends above the slot of
the new end. -/
theorem blocksBelow_covers {n f : ℕ} {p : ℤ} (hn : 0 < n) :
    (∀ j, j < n * (f + 1) → j ∈ blocksBelow n 0 (max ((0 : ℕ) : ℤ) p) (n * (f + 1))) ↔ p < n := by
  have hfirst : n * (f + 1) = n * f + n := Nat.mul_succ n f
  have hle : ∀ {a c : ℕ}, n * a < n * (c + 1) → a ≤ c := fun h =>
    Nat.lt_succ_iff.mp (Nat.lt_of_mul_lt_mul_left h)
  constructor
  · intro h
    obtain ⟨k, hk, hin, hfirst', -⟩ := h 0 (by omega)
    have hmul : n * k ≤ n * f := Nat.mul_le_mul_left n (hle (by omega))
    omega
  · intro h j hj
    have hmod := Nat.div_add_mod j n
    have hrem := Nat.mod_lt j hn
    have hsum : n * (f - j / n) + n * (j / n) = n * f := by
      rw [← Nat.mul_add, Nat.sub_add_cancel (hle (by omega))]
    exact ⟨f - j / n, by omega, by omega, by omega, by omega⟩

section
variable {D : Doubles} {old m m' : ModelNode} {factor n start stop rootId b : ℕ} {lo hi : ℤ}
  {expandLeft : Bool}

/-- The model of the enlarged root predicts the new end of the domain in the outermost of its blocks
of `n` slots, or beyond. -/
def ReachesLastBlock (D : Doubles) (model : LinearModel) (n factor : ℕ) (lo hi : ℤ)
    (expandLeft : Bool) : Prop :=
  if expandLeft then model.predictOn D lo < n
  else ((n * (factor - 1) : ℕ) : ℤ) ≤ model.predictOn D hi

theorem Enlarged.covers (he : Enlarged factor expandLeft n start stop m) (hF : 2 ≤ factor)
    (hn : 0 < n) :
    (∀ j, j < n * factor → ¬ (oldStart n factor expandLeft ≤ j ∧
      j < oldStart n factor expandLeft + n) → j ∈ writtenSlots D n start stop m lo hi expandLeft) ↔
      ReachesLastBlock D m.model n factor lo hi expandLeft := by
  obtain ⟨f, rfl⟩ : ∃ f, factor = f + 2 := ⟨factor - 2, by omega⟩
  have hstart := he.start
  have hstop := he.stop
  have hlast : n * (f + 2) = n * (f + 1) + n := Nat.mul_succ n (f + 1)
  have hfirst : n * (f + 1) = n * f + n := Nat.mul_succ n f
  unfold ReachesLastBlock writtenSlots oldStart
  cases expandLeft with
  | true =>
      simp only [if_true] at hstart hstop ⊢
      obtain rfl := hstart
      obtain rfl : stop = n * (f + 1) := by omega
      rw [← blocksBelow_covers (f := f) hn]
      exact ⟨fun h j hj => h j (by omega) (by omega), fun h j _ hj => h j (by omega)⟩
  | false =>
      simp only [Bool.false_eq_true, if_false] at hstart hstop ⊢
      rw [hstart, hstop, show f + 2 - 1 = f + 1 from rfl, ← blocksFrom_covers (f := f) hn]
      exact ⟨fun h j h1 h2 => h j h2 (by omega), fun h j h1 h2 => h j (by omega) h1⟩

/-- No old slot is written. -/
theorem Enlarged.not_written (he : Enlarged factor expandLeft n start stop m) {j : ℕ}
    (hj : oldStart n factor expandLeft ≤ j ∧ j < oldStart n factor expandLeft + n) :
    j ∉ writtenSlots D n start stop m lo hi expandLeft := by
  have hstart := he.start
  have hstop := he.stop
  unfold oldStart at hj
  unfold writtenSlots
  cases expandLeft with
  | true =>
      simp only [if_true] at hj hstop ⊢
      rintro ⟨k, hk, -, -, hlt⟩
      have hlong : n ≤ stop := by
        cases factor with
        | zero => omega
        | succ f =>
            have hmul : n * (f + 1) = n * f + n := Nat.mul_succ n f
            cases f with
            | zero => omega
            | succ f =>
                have : n * (f + 1) = n * f + n := Nat.mul_succ n f
                omega
      omega
  | false =>
      simp only [Bool.false_eq_true, if_false] at hj hstart ⊢
      rintro ⟨k, -, -, hle, -⟩
      omega

theorem Kept.set (hk : Kept old rootId factor expandLeft m n) (hset : AllSet old) {j : ℕ}
    (hj : oldStart n factor expandLeft ≤ j ∧ j < oldStart n factor expandLeft + n) :
    ∃ c, m.childAt j = some c := by
  cases hk with
  | slots hslots =>
      obtain ⟨c, hc⟩ := hset.set (j - oldStart old.numChildren factor expandLeft) (by omega)
      refine ⟨c, ?_⟩
      have hslot := hslots (j - oldStart old.numChildren factor expandLeft) (by omega)
      rw [Nat.add_sub_cancel' hj.1] at hslot
      rw [hslot, hc]
  | below hbelow =>
      obtain rfl : j = oldStart 1 factor expandLeft := by omega
      exact ⟨rootId, hbelow⟩

theorem allSet_iff_written
    (hr : Refilled b (writtenSlots D n start stop m lo hi expandLeft) m m')
    (he : Enlarged factor expandLeft n start stop m)
    (hk : Kept old rootId factor expandLeft m n) (hset : AllSet old) :
    AllSet m' ↔ ∀ j, j < n * factor → ¬ (oldStart n factor expandLeft ≤ j ∧
      j < oldStart n factor expandLeft + n) →
      j ∈ writtenSlots D n start stop m lo hi expandLeft := by
  have hnum : m'.numChildren = n * factor := hr.numChildren.trans he.numChildren
  constructor
  · intro hall j hj hnew
    by_contra hnot
    obtain ⟨c, hc⟩ := hall.set j (hnum ▸ hj)
    rw [hr.old j hnot] at hc
    exact hnew (he.outside j c hc)
  · intro hcover
    refine ⟨by rw [hr.length, he.length, hr.numChildren], fun j hj => ?_⟩
    by_cases hold : oldStart n factor expandLeft ≤ j ∧ j < oldStart n factor expandLeft + n
    · obtain ⟨c, hc⟩ := hk.set hset hold
      exact ⟨c, (hr.old j (he.not_written hold)).trans hc⟩
    · obtain ⟨c, -, hc⟩ := hr.new j (hcover j (hnum ▸ hj) hold)
      exact ⟨c, hc⟩

end

section
variable {D : Doubles} {C : Params M P} {s s' : Index M P} {old : ModelNode}
  {key minKey maxKey : ℤ} {expandLeft : Bool}

/-- A root with a first leaf has a slot. -/
theorem numChildren_pos (hroot : s.heap.modelAt s.rootNode = some old)
    (hlen : old.children.length = old.numChildren) (hmin : s.getMinKey C.T = some minKey) :
    0 < old.numChildren := by
  unfold getMinKey at hmin
  obtain ⟨first, hfirst, -⟩ := Option.bind_eq_some_iff.mp hmin
  unfold firstDataNode outermostDataNode at hfirst
  simp only [Heap.modelAt_eq_some.mp hroot] at hfirst
  obtain ⟨c, hc, -⟩ := Option.bind_eq_some_iff.mp hfirst
  exact hlen ▸ childAt_lt hc

variable [NodeModel M]

/-- **Slots of an expanded root**: whatever the arithmetic on doubles, all slots are set after an
expansion towards the key if and only if the model of the enlarged root predicts the new end of the
domain in the outermost block of new slots. -/
theorem expandRoot_allSet_iff (hT : C.T.Unsigned)
    (hkey : KeyBeyond C.T s key minKey maxKey expandLeft)
    (hroot : s.heap.modelAt s.rootNode = some old) (hset : AllSet old)
    (hsuper : ∃ sr, s.heap.modelAt s.superroot = some sr)
    (hrun : expandRoot D C s key expandLeft = some s') :
    (∃ m, s'.heap.modelAt s'.rootNode = some m ∧ AllSet m) ↔
      ReachesLastBlock D
        (enlargedModel D C.maxFanout old
          (s.doublesFactor D (s.reach key minKey maxKey expandLeft)) expandLeft)
        (oldSlots C.maxFanout old (s.doublesFactor D (s.reach key minKey maxKey expandLeft)))
        (s.doublesFactor D (s.reach key minKey maxKey expandLeft))
        (s.clippedMin D C.T (s.reach key minKey maxKey expandLeft))
        (s.clippedMax D C.T (s.reach key minKey maxKey expandLeft)) expandLeft := by
  have hN := numChildren_pos hroot hset.length hkey.getMinKey
  obtain ⟨factor, lo, hi, start, stop, m₁, m, hdomain, hF, hmodel, he, hk, -, hm, hr⟩ :=
    expandRoot_spec hroot hset.length hsuper hrun
  obtain ⟨hfactor, hends⟩ := hkey.expandedDomain_eq hT hdomain
  have hall : (∃ m, s'.heap.modelAt s'.rootNode = some m ∧ AllSet m) ↔ AllSet m := by
    constructor
    · rintro ⟨m', hm', hset'⟩
      obtain rfl := Option.some.inj (hm.symm.trans hm')
      exact hset'
    · exact fun hset' => ⟨m, hm, hset'⟩
  rw [hall, allSet_iff_written hr he hk hset, he.covers hF (oldSlots_pos hN), hmodel, ← hfactor]
  unfold ReachesLastBlock
  cases expandLeft with
  | true =>
      simp only [if_true] at hends ⊢
      rw [hends]
  | false =>
      simp only [Bool.false_eq_true, if_false] at hends ⊢
      rw [hends]

end

/-! ### Which blocks are right -/

/-- The model nodes in use are well blocked. -/
structure WellBlocked (s : Index M P) (live : Set NodeId) : Prop where
  super : ∃ m, s.heap.modelAt s.superroot = some m ∧ m.numChildren = 1 ∧
    m.childAt 0 = some s.rootNode
  super_mem : s.superroot ∈ live
  blocks : ∀ x ∈ live, ∀ m, s.heap.modelAt x = some m → Blocks s.heap live m

section
variable {h : Heap M P} {live : Set NodeId} {m : ModelNode}

/-- The block of a child is no longer than any range of slots that has all of its slots. -/
theorem repeats_le_of_blocks (hb : Blocks h live m) {c j : ℕ} (a count : ℕ) {node : Node M P}
    (hc : h[c]? = some node) (hj : m.childAt j = some c)
    (hin : ∀ i, m.childAt i = some c → a ≤ i ∧ i < a + count) :
    m.repeats node.localDepth ≤ count := by
  have hiff := hb.slot_iff hj hc
  have hpos : 0 < m.repeats node.localDepth := Nat.two_pow_pos _
  have hfirst := hin _ ((hiff (m.blockStart j node.localDepth)).mpr ⟨le_refl _, by omega⟩)
  have hlast := hin _ ((hiff (m.blockStart j node.localDepth + m.repeats node.localDepth - 1)).mpr
    ⟨by omega, by omega⟩)
  omega

/-- Twice as many slots make every block twice as long. -/
theorem lt_repeats {m' : ModelNode} {factor d : ℕ} (hsize : ∃ g, m.numChildren = 2 ^ g)
    (hnum : m'.numChildren = m.numChildren * factor) (hF : 2 ≤ factor)
    (hd : d ≤ log2RoundDown m.numChildren) : m.repeats d < m'.repeats d := by
  obtain ⟨g, hg⟩ := hsize
  have hlog : log2RoundDown m.numChildren = g := by rw [hg, log2RoundDown_two_pow]
  have hbig : 2 ^ (g + 1) ≤ m'.numChildren := by
    rw [hnum, hg, pow_succ]
    exact Nat.mul_le_mul_left _ hF
  have hlog' : g + 1 ≤ log2RoundDown m'.numChildren :=
    (Nat.le_log2 (by have := Nat.two_pow_pos (g + 1); omega)).mpr hbig
  unfold ModelNode.repeats
  rw [hlog] at hd ⊢
  exact Nat.pow_lt_pow_right (by norm_num) (by omega)

end

section
variable {D : Doubles} {C : Params M P} {s s' : Index M P} {live : Set NodeId} {key : ℤ}
  {expandLeft : Bool}

theorem WellBlocked.root_mem (hw : WellBlocked s live) : s.rootNode ∈ live := by
  obtain ⟨sr, hsr, -, hchild⟩ := hw.super
  exact ((hw.blocks _ hw.super_mem sr hsr).childAt hchild).1

/-- The root takes the only slot of the superroot. -/
theorem WellBlocked.localDepth (hw : WellBlocked s live) {node : Node M P}
    (hroot : s.heap[s.rootNode]? = some node) : node.localDepth = 0 := by
  obtain ⟨sr, hsr, hone, hchild⟩ := hw.super
  obtain ⟨-, node', hnode, hdepth, -⟩ := (hw.blocks _ hw.super_mem sr hsr).childAt hchild
  obtain rfl := Option.some.inj (hroot.symm.trans hnode)
  rw [hone] at hdepth
  exact Nat.le_zero.mp hdepth

variable [NodeModel M]

/-- **Blocks of an expanded root**: `expand_root` never leaves a well-blocked root behind. -/
theorem expandRoot_not_blocks (hw : WellBlocked s live)
    (hroot : ∃ m, s.heap.modelAt s.rootNode = some m)
    (hrun : expandRoot D C s key expandLeft = some s') :
    ¬ ∃ live' m, s'.heap.modelAt s'.rootNode = some m ∧ Blocks s'.heap live' m := by
  rintro ⟨live', m', hm', hb'⟩
  obtain ⟨old, hroot⟩ := hroot
  have hb := hw.blocks _ hw.root_mem old hroot
  obtain ⟨g, hg⟩ := hb.size
  have hN : 0 < old.numChildren := hg ▸ Nat.two_pow_pos g
  obtain ⟨sr, hsr, -⟩ := hw.super
  obtain ⟨factor, lo, hi, start, stop, m₁, m, -, hF, -, he, hk, hkeeps, hm, hr⟩ :=
    expandRoot_spec hroot hb.length ⟨sr, hsr⟩ hrun
  obtain rfl := Option.some.inj (hm.symm.trans hm')
  have hn : 0 < oldSlots C.maxFanout old factor := oldSlots_pos hN
  generalize oldSlots C.maxFanout old factor = n at hn he hk hr
  have hnum : m.numChildren = n * factor := hr.numChildren.trans he.numChildren
  -- a slot that leads to an old node is a slot of the old root
  have hslot : ∀ {c j : ℕ}, c < s.heap.length → m.childAt j = some c → m₁.childAt j = some c := by
    intro c j hlt hc
    by_cases hj : j ∈ writtenSlots D n start stop m₁ lo hi expandLeft
    · obtain ⟨c', hle, hc'⟩ := hr.new j hj
      obtain rfl := Option.some.inj (hc.symm.trans hc')
      omega
    · exact (hr.old j hj).symm.trans hc
  have hfirst : m.childAt (oldStart n factor expandLeft) =
      m₁.childAt (oldStart n factor expandLeft) :=
    hr.old _ (he.not_written ⟨le_refl _, by omega⟩)
  cases hk with
  | slots hslots =>
      -- the child in the first slot keeps its local depth and its number of slots
      obtain ⟨c, node, hc, -, hnode, hdepth, hblock⟩ := hb.child 0 hN
      obtain ⟨node', hnode', hdepth'⟩ := hkeeps.depth c node hnode
      have hfirst' := hslots 0 hN
      rw [Nat.add_zero, ← hfirst, hc] at hfirst'
      have hle := repeats_le_of_blocks hb' (oldStart old.numChildren factor expandLeft)
        (old.repeats node.localDepth) hnode' hfirst' (fun i hi => by
          have hi₁ := hslot (List.getElem?_eq_some_iff.mp hnode).1 hi
          obtain ⟨hge, hlt⟩ := he.outside i c hi₁
          have hold := hslots (i - oldStart old.numChildren factor expandLeft) (by omega)
          rw [Nat.add_sub_cancel' hge, hi₁] at hold
          have hin := (hblock _).mp hold.symm
          rw [ModelNode.blockStart_zero] at hin
          omega)
      rw [hdepth'] at hle
      exact absurd (lt_repeats hb.size hnum hF hdepth) (by omega)
  | below hbelow =>
      -- the old root has local depth zero and one slot
      have hnode := Heap.modelAt_eq_some.mp hroot
      obtain ⟨node', hnode', hdepth'⟩ := hkeeps.depth s.rootNode _ hnode
      have hzero : (Node.model old : Node M P).localDepth = 0 := hw.localDepth hnode
      have hle := repeats_le_of_blocks hb' (oldStart 1 factor expandLeft) 1 hnode'
        (hfirst.trans hbelow) (fun i hi => he.outside i _ (hslot (Heap.modelAt_lt hroot) hi))
      rw [hdepth', hzero] at hle
      have hlt := lt_repeats (m := { ModelNode.new 0 with numChildren := 1 }) (d := 0)
        ⟨0, rfl⟩ hnum hF (Nat.zero_le _)
      have hpos : 0 < ModelNode.repeats { ModelNode.new 0 with numChildren := 1 } 0 :=
        Nat.two_pow_pos _
      omega

end

/-! ### A root with two leaves -/

/-- The leaf of a single key. -/
def oneKey (key : ℤ) : Option (DataNode LinearModel ℕ) :=
  (DataNode.new KeyType.uint64 0 100).bulkLoad KeyType.uint64 [(key, 10)] none false

/-- The index over the keys `lo` and `hi` with a leaf for each of them. -/
def twoLeaves (left right : DataNode LinearModel ℕ) (lo hi : ℤ) : Index LinearModel ℕ :=
  { Index.ofLeaf left with
    heap := [.model (superNode 1),
      .model (pairNode 0 ⟨2 / (hi - lo : ℤ), -2 * lo / (hi - lo : ℤ)⟩ 2 3),
      .data { left with localDepth := 1, nextLeaf := some 3 },
      .data { right with localDepth := 1, prevLeaf := some 2 }]
    rootNode := 1
    superroot := 0
    numKeys := 2
    keyDomainMin := lo
    keyDomainMax := hi }

/-- The ends of the stored keys, and after an expansion the slots of the root and the local depths
of all nodes. -/
def expandTwoLeaves (C : Params LinearModel ℕ) (lo hi key : ℤ) :
    Option (Option ℤ × Option ℤ × List (Option NodeId) × List ℕ) := do
  let left ← oneKey lo
  let right ← oneKey hi
  let s := twoLeaves left right lo hi
  let s' ← expandRoot Doubles.binary64 C s key false
  let m ← s'.heap.modelAt s'.rootNode
  some (s.getMinKey C.T, s.getMaxKey C.T, m.children, s'.heap.map Node.localDepth)

section
variable (left right : DataNode LinearModel ℕ) (lo hi : ℤ)

theorem twoLeaves_root : (twoLeaves left right lo hi).heap.modelAt 1 =
    some (pairNode 0 ⟨2 / (hi - lo : ℤ), -2 * lo / (hi - lo : ℤ)⟩ 2 3) := rfl

theorem twoLeaves_wellBlocked : WellBlocked (twoLeaves left right lo hi) Set.univ := by
  refine ⟨⟨superNode 1, rfl, rfl, rfl⟩, Set.mem_univ _, fun x _ m hm => ?_⟩
  have hx : x < 4 := Heap.modelAt_lt hm
  interval_cases x
  · obtain rfl := Option.some.inj hm
    exact blocks_superNode (Set.mem_univ _) rfl rfl
  · obtain rfl := Option.some.inj hm
    exact blocks_pairNode (by decide) (Set.mem_univ _) (Set.mem_univ _) rfl rfl rfl rfl
  · cases hm
  · cases hm

theorem twoLeaves_allSet :
    AllSet (pairNode 0 ⟨2 / (hi - lo : ℤ), -2 * lo / (hi - lo : ℤ)⟩ 2 3) := by
  refine ⟨rfl, fun j hj => ?_⟩
  have hj2 : j < 2 := hj
  obtain rfl | rfl : j = 0 ∨ j = 1 := by omega
  · exact ⟨2, rfl⟩
  · exact ⟨3, rfl⟩

end

theorem twoLeaves_keyBeyond {left right : DataNode LinearModel ℕ} {lo hi key : ℤ} (h0 : 0 ≤ lo)
    (h1 : lo < hi) (h2 : hi < key) (h3 : key ≤ 2 ^ 64 - 1)
    (hmin : (twoLeaves left right lo hi).getMinKey KeyType.uint64 = some lo)
    (hmax : (twoLeaves left right lo hi).getMaxKey KeyType.uint64 = some hi) :
    KeyBeyond KeyType.uint64 (twoLeaves left right lo hi) key lo hi false := by
  have hle : hi ≤ 2 ^ 64 - 1 := by omega
  have hkey : 0 ≤ key := by omega
  exact ⟨h0, h1, hle, ⟨hkey, h3⟩, h2, hmin, hmax, h0, hle⟩

/-- The states before and after the expansion. -/
theorem expandTwoLeaves_spec {C : Params LinearModel ℕ} {lo hi key : ℤ} {a z : Option ℤ}
    {children : List (Option NodeId)} {depths : List ℕ}
    (h : expandTwoLeaves C lo hi key = some (a, z, children, depths)) :
    ∃ left right s' m, oneKey lo = some left ∧ oneKey hi = some right ∧
      expandRoot Doubles.binary64 C (twoLeaves left right lo hi) key false = some s' ∧
      s'.heap.modelAt s'.rootNode = some m ∧ m.children = children ∧
      s'.heap.map Node.localDepth = depths ∧
      (twoLeaves left right lo hi).getMinKey C.T = a ∧
      (twoLeaves left right lo hi).getMaxKey C.T = z := by
  unfold expandTwoLeaves at h
  obtain ⟨left, hleft, h⟩ := Option.bind_eq_some_iff.mp h
  obtain ⟨right, hright, h⟩ := Option.bind_eq_some_iff.mp h
  obtain ⟨s', hrun, h⟩ := Option.bind_eq_some_iff.mp h
  obtain ⟨m, hm, h⟩ := Option.bind_eq_some_iff.mp h
  obtain ⟨hmin, hrest⟩ := Prod.mk.inj (Option.some.inj h)
  obtain ⟨hmax, hrest⟩ := Prod.mk.inj hrest
  obtain ⟨hchildren, hdepths⟩ := Prod.mk.inj hrest
  exact ⟨left, right, s', m, hleft, hright, hrun, hm, hchildren, hdepths, hmin, hmax⟩

/-- Parameters that let a root grow to a thousand slots. -/
def wideParams : Params LinearModel ℕ := { FanoutTree.smallParams with maxFanout := 1024 }

/-- For the key 6 the domain `[1, 3]` becomes `[1, 9]`, in place. -/
theorem expandTwoLeaves_near : expandTwoLeaves wideParams 1 3 6 =
    some (some 1, some 3,
      [some 2, some 3, some 4, some 4, some 5, some 5, some 6, some 6], [0, 0, 1, 1, 2, 2, 2]) := by
  decide +kernel

theorem expandRoot_allSet_near : ∃ left right s', oneKey 1 = some left ∧ oneKey 3 = some right ∧
    expandRoot Doubles.binary64 wideParams (twoLeaves left right 1 3) 6 false = some s' ∧
    ∃ m, s'.heap.modelAt s'.rootNode = some m ∧ AllSet m := by
  obtain ⟨left, right, s', m, hleft, hright, hrun, -, -, -, hmin, hmax⟩ :=
    expandTwoLeaves_spec expandTwoLeaves_near
  have hfactor : (twoLeaves left right 1 3).doublesFactor Doubles.binary64 3 = 4 := by
    show pow2RoundUp (expansionRatio Doubles.binary64 3 2).toNat = 4
    decide +kernel
  have hmax' : (twoLeaves left right 1 3).clippedMax Doubles.binary64 KeyType.uint64 3 = 9 := by
    unfold clippedMax halfSize
    rw [hfactor]
    rfl
  have hreach : (twoLeaves left right 1 3).reach 6 1 3 false = 3 := rfl
  refine ⟨left, right, s', hleft, hright, hrun,
    (expandRoot_allSet_iff (C := wideParams) KeyType.uint64_unsigned
      (twoLeaves_keyBeyond (by norm_num) (by norm_num) (by norm_num) (by norm_num) hmin hmax)
      (twoLeaves_root left right 1 3) (twoLeaves_allSet 1 3) ⟨superNode 1, rfl⟩ hrun).mpr ?_⟩
  unfold ReachesLastBlock
  rw [if_neg (by simp), hreach, hfactor]
  show ((2 * (4 - 1) : ℕ) : ℤ) ≤ LinearModel.predictOn Doubles.binary64
    ⟨2 / ((3 - 1 : ℤ) : ℚ), -2 * ((1 : ℤ) : ℚ) / ((3 - 1 : ℤ) : ℚ)⟩
    ((twoLeaves left right 1 3).clippedMax Doubles.binary64 KeyType.uint64 3)
  rw [hmax']
  decide +kernel

/-- For the key `18 * 10^18` the domain `[3 * 2^61, 5 * 2^61]` is clipped at the largest key. -/
theorem expandTwoLeaves_clipped :
    expandTwoLeaves wideParams (3 * 2 ^ 61) (5 * 2 ^ 61) (18 * 10 ^ 18) =
      some (some (3 * 2 ^ 61), some (5 * 2 ^ 61),
        [some 2, some 3, some 4, some 4, some 5, some 5, none, none], [0, 0, 1, 1, 2, 2]) := by
  decide +kernel

/-- The last two of the eight slots lie beyond the largest key. -/
theorem not_expandRoot_allSet : ¬ ∀ (C : Params LinearModel ℕ) (s s' : Index LinearModel ℕ)
    (key minKey maxKey : ℤ) (expandLeft : Bool) (old : ModelNode), C.T.Unsigned →
      KeyBeyond C.T s key minKey maxKey expandLeft → s.heap.modelAt s.rootNode = some old →
      AllSet old → (∃ sr, s.heap.modelAt s.superroot = some sr) →
      expandRoot Doubles.binary64 C s key expandLeft = some s' →
      ∃ m, s'.heap.modelAt s'.rootNode = some m ∧ AllSet m := by
  intro hall
  obtain ⟨left, right, s', m, -, -, hrun, hm, hchildren, -, hmin, hmax⟩ :=
    expandTwoLeaves_spec expandTwoLeaves_clipped
  obtain ⟨m', hm', hset⟩ := hall wideParams _ s' _ _ _ false _ KeyType.uint64_unsigned
    (twoLeaves_keyBeyond (by norm_num) (by norm_num) (by norm_num) (by norm_num) hmin hmax)
    (twoLeaves_root left right (3 * 2 ^ 61) (5 * 2 ^ 61))
    (twoLeaves_allSet (3 * 2 ^ 61) (5 * 2 ^ 61)) ⟨superNode 1, rfl⟩ hrun
  obtain rfl := Option.some.inj (hm.symm.trans hm')
  obtain ⟨c, hc⟩ := hset.set 6 (by rw [← hset.length, hchildren]; decide)
  unfold ModelNode.childAt at hc
  rw [hchildren] at hc
  cases hc

theorem expandRoot_not_blocks_near : ∃ left right s', oneKey 1 = some left ∧ oneKey 3 = some right ∧
    expandRoot Doubles.binary64 wideParams (twoLeaves left right 1 3) 6 false = some s' ∧
    ¬ ∃ live m, s'.heap.modelAt s'.rootNode = some m ∧ Blocks s'.heap live m := by
  obtain ⟨left, right, s', -, hleft, hright, hrun, -⟩ := expandTwoLeaves_spec expandTwoLeaves_near
  exact ⟨left, right, s', hleft, hright, hrun,
    expandRoot_not_blocks (twoLeaves_wellBlocked left right 1 3)
      ⟨_, twoLeaves_root left right 1 3⟩ hrun⟩

/-- The two leaves of local depth one would have to take four of the eight slots each. -/
theorem not_expandRoot_blocks : ¬ ∀ (C : Params LinearModel ℕ) (s s' : Index LinearModel ℕ)
    (live : Set NodeId) (key minKey maxKey : ℤ) (expandLeft : Bool),
      KeyBeyond C.T s key minKey maxKey expandLeft → WellBlocked s live →
      (∃ m, s.heap.modelAt s.rootNode = some m) →
      expandRoot Doubles.binary64 C s key expandLeft = some s' →
      ∃ live' m, s'.heap.modelAt s'.rootNode = some m ∧ Blocks s'.heap live' m := by
  intro hall
  obtain ⟨left, right, s', m, -, -, hrun, hm, hchildren, hdepths, hmin, hmax⟩ :=
    expandTwoLeaves_spec expandTwoLeaves_near
  obtain ⟨live', m', hm', hb⟩ := hall wideParams _ s' _ _ _ _ false
    (twoLeaves_keyBeyond (by norm_num) (by norm_num) (by norm_num) (by norm_num) hmin hmax)
    (twoLeaves_wellBlocked left right 1 3) ⟨_, twoLeaves_root left right 1 3⟩ hrun
  obtain rfl := Option.some.inj (hm.symm.trans hm')
  have hslot : ∀ j, m.childAt j = (([some 2, some 3, some 4, some 4, some 5, some 5, some 6,
      some 6] : List (Option NodeId))[j]?).join := by
    intro j
    unfold ModelNode.childAt
    rw [hchildren]
  have hnum : m.numChildren = 2 ^ 3 := by
    rw [← hb.length, hchildren]
    rfl
  obtain ⟨-, node, hnode, -, -⟩ := hb.childAt (hslot 0)
  have hdepth : node.localDepth = 1 := by
    have hget : (s'.heap.map Node.localDepth)[2]? = some node.localDepth := by
      rw [List.getElem?_map, hnode, Option.map_some]
    rw [hdepths] at hget
    exact (Option.some.inj hget).symm
  have hin := (hb.slot_iff (hslot 0) hnode 1).mpr (by
    rw [ModelNode.blockStart_zero, hdepth]
    unfold ModelNode.repeats
    rw [hnum, log2RoundDown_two_pow]
    decide)
  rw [hslot 1] at hin
  cases hin

end Index

end LearnedIndex.Alexol
