import LearnedIndex.Alexol.ExpandRoot
import LearnedIndex.Alexol.LeafChain

/-! # The arithmetic of an expansion (`expand_root`)

The ratio of the new domain to the old one is converted to `int` and rounded up to a power of two.
For `uint64_t` keys everything behind this conversion is safe (`safeExpansion_iff`): half of the new
domain fits in the key type, the new bound is clipped or exact, and the domain reaches the key.  The
conversion itself fails when a key lies more than `2^30 - 1` domains away. -/

namespace LearnedIndex.Alexol

/-! ### Rounding up to a power of two -/

theorem testBit_smear (x k i : ℕ) :
    (x ||| x >>> k).testBit i = (x.testBit i || x.testBit (k + i)) := by
  rw [Nat.testBit_or, Nat.testBit_shiftRight]

/-- Bit `i` of `y` says whether one of the `m` bits of `x` from bit `i` on is set. -/
def Smeared (x m y : ℕ) : Prop :=
  ∀ i, y.testBit i = true ↔ ∃ j, i ≤ j ∧ j < i + m ∧ x.testBit j = true

theorem Smeared.double {x m y : ℕ} (h : Smeared x m y) : Smeared x (2 * m) (y ||| y >>> m) := by
  intro i
  rw [testBit_smear, Bool.or_eq_true, h i, h (m + i)]
  constructor
  · rintro (⟨j, h1, h2, h3⟩ | ⟨j, h1, h2, h3⟩)
    · exact ⟨j, h1, by omega, h3⟩
    · exact ⟨j, by omega, by omega, h3⟩
  · rintro ⟨j, h1, h2, h3⟩
    rcases Nat.lt_or_ge j (i + m) with hlt | hge
    · exact Or.inl ⟨j, h1, hlt, h3⟩
    · exact Or.inr ⟨j, by omega, by omega, h3⟩

/-- The smallest power of two at or above `x`, for every positive `int`. -/
theorem pow2RoundUp_eq {x : ℕ} (h1 : 2 ≤ x) (h2 : x ≤ 2 ^ 31) :
    pow2RoundUp x = 2 ^ (Nat.log2 (x - 1) + 1) := by
  have hone : Smeared (x - 1) 1 (x - 1) := by
    intro i
    constructor
    · exact fun h => ⟨i, le_refl i, Nat.lt_succ_self i, h⟩
    · rintro ⟨j, h1, h2, h3⟩
      obtain rfl : i = j := by omega
      exact h3
  obtain ⟨y, hy, heq⟩ : ∃ y, Smeared (x - 1) 32 y ∧ pow2RoundUp x = y + 1 :=
    ⟨_, hone.double.double.double.double.double, rfl⟩
  have hne : x - 1 ≠ 0 := by omega
  have hlog : Nat.log2 (x - 1) < 31 := (Nat.log2_lt hne).mpr (by omega)
  have hsmear : y = 2 ^ (Nat.log2 (x - 1) + 1) - 1 := by
    refine Nat.eq_of_testBit_eq (fun i => ?_)
    rw [Nat.testBit_two_pow_sub_one, Bool.eq_iff_iff, hy i, decide_eq_true_eq]
    constructor
    · rintro ⟨j, hij, -, hj⟩
      have := Nat.ge_two_pow_of_testBit hj
      have : j ≤ Nat.log2 (x - 1) := (Nat.le_log2 hne).mpr this
      omega
    · intro hi
      exact ⟨Nat.log2 (x - 1), by omega, by omega, Nat.testBit_log2 hne⟩
  rw [heq, hsmear]
  have := Nat.two_pow_pos (Nat.log2 (x - 1) + 1)
  omega

/-- The power of two lies above the value, and its half below it. -/
theorem pow2RoundUp_spec {x : ℕ} (h1 : 2 ≤ x) (h2 : x ≤ 2 ^ 31) :
    ∃ g, pow2RoundUp x = 2 ^ (g + 1) ∧ 2 ^ g < x ∧ x ≤ 2 ^ (g + 1) := by
  have hne : x - 1 ≠ 0 := by omega
  have hle := Nat.log2_self_le hne
  have hlt := Nat.lt_log2_self (n := x - 1)
  exact ⟨Nat.log2 (x - 1), pow2RoundUp_eq h1 h2, by omega, by omega⟩

/-- The result is an `int` for values up to `2^30` only. -/
theorem pow2RoundUp_fits {x : ℕ} (h1 : 2 ≤ x) (h2 : x ≤ 2 ^ 31) :
    pow2RoundUp x ≤ 2 ^ 31 - 1 ↔ x ≤ 2 ^ 30 := by
  obtain ⟨g, heq, hlt, hle⟩ := pow2RoundUp_spec h1 h2
  rw [heq]
  constructor
  · intro h
    have hg : 2 ^ (g + 1) < 2 ^ 31 := by omega
    have : g + 1 < 31 := (Nat.pow_lt_pow_iff_right (by norm_num)).mp hg
    exact hle.trans (Nat.pow_le_pow_right (by norm_num) (by omega))
  · intro h
    have hg : 2 ^ g < 2 ^ 30 := by omega
    have hg' : g < 30 := (Nat.pow_lt_pow_iff_right (by norm_num)).mp hg
    have : 2 ^ (g + 1) ≤ 2 ^ 30 := Nat.pow_le_pow_right (by norm_num) (by omega)
    omega

namespace Index

variable {M P : Type}

/-! ### The ratio of the domains -/

/-- `ceil((key_difference + domain_size) / domain_size)`. -/
def sizeRatio (keyDifference domainSize : ℤ) : ℤ :=
  ⌈((keyDifference : ℚ) + domainSize) / domainSize⌉

theorem expansionRatio_exact (d size : ℤ) :
    expansionRatio Doubles.exact d size = sizeRatio d size := trunc_intCast _

theorem sizeRatio_spec {d size : ℤ} (hd : 1 ≤ d) (hsize : 1 ≤ size) :
    2 ≤ sizeRatio d size ∧ d + size ≤ sizeRatio d size * size ∧
      (sizeRatio d size - 1) * size < d + size := by
  have hpos : (0 : ℚ) < size := by exact_mod_cast hsize
  have hle : ((d : ℚ) + size) / size ≤ sizeRatio d size := Int.le_ceil _
  have hlt : ((sizeRatio d size : ℤ) : ℚ) - 1 < ((d : ℚ) + size) / size := by
    have := Int.ceil_lt_add_one (((d : ℚ) + size) / size)
    unfold sizeRatio
    linarith
  rw [div_le_iff₀ hpos] at hle
  rw [lt_div_iff₀ hpos] at hlt
  have hle' : d + size ≤ sizeRatio d size * size := by exact_mod_cast hle
  have hlt' : (sizeRatio d size - 1) * size < d + size := by exact_mod_cast hlt
  refine ⟨?_, hle', hlt'⟩
  by_contra hcon
  have h1 : sizeRatio d size ≤ 1 := by omega
  have : sizeRatio d size * size ≤ 1 * size := Int.mul_le_mul_of_nonneg_right h1 (by omega)
  omega

/-- The ratio is at most `2^30` for keys at most `2^30 - 1` domains away. -/
theorem sizeRatio_le_iff {d size : ℤ} (hd : 1 ≤ d) (hsize : 1 ≤ size) :
    sizeRatio d size ≤ 2 ^ 30 ↔ d ≤ (2 ^ 30 - 1) * size := by
  obtain ⟨-, hle, hlt⟩ := sizeRatio_spec hd hsize
  constructor
  · intro h
    have : sizeRatio d size * size ≤ 2 ^ 30 * size := Int.mul_le_mul_of_nonneg_right h (by omega)
    linarith
  · intro h
    by_contra hcon
    have h1 : 2 ^ 30 ≤ sizeRatio d size - 1 := by omega
    have : 2 ^ 30 * size ≤ (sizeRatio d size - 1) * size :=
      Int.mul_le_mul_of_nonneg_right h1 (by omega)
    linarith

/-! ### Safe expansions -/

def domainSize (s : Index M P) : ℤ := s.keyDomainMax - s.keyDomainMin

/-- How far the key and the stored keys reach beyond the domain on the chosen side. -/
def reach (s : Index M P) (key minKey maxKey : ℤ) (expandLeft : Bool) : ℤ :=
  if expandLeft then s.keyDomainMin - min key minKey else max key maxKey - s.keyDomainMax

/-- The expansion factor for a key `d` beyond the domain, in exact arithmetic. -/
def factorFor (s : Index M P) (d : ℤ) : ℕ := pow2RoundUp (sizeRatio d s.domainSize).toNat

/-- `expansion_factor / 2 * domain_size`, in exact arithmetic. -/
def halfExpanded (s : Index M P) (d : ℤ) : ℤ := (s.factorFor d / 2 : ℕ) * s.domainSize

/-- No step of the computation of the new domain goes wrong, and the new domain has all keys. -/
structure SafeExpansion (T : KeyType) (s : Index M P) (key d : ℤ) (expandLeft : Bool)
    (stored : Set ℤ) : Prop where
  converted : sizeRatio d s.domainSize ≤ 2 ^ 31 - 1
  rounded : s.factorFor d ≤ 2 ^ 31 - 1
  power : ∃ g, s.factorFor d = 2 ^ (g + 1)
  half : s.halfExpanded d ≤ T.max
  bound : if expandLeft then s.keyDomainMax.tdiv 2 - T.lowest.tdiv 2 < s.halfExpanded d ∨
      T.lowest ≤ s.keyDomainMax - s.halfExpanded d - s.halfExpanded d
    else T.max.tdiv 2 - s.keyDomainMin.tdiv 2 < s.halfExpanded d ∨
      s.keyDomainMin + s.halfExpanded d + s.halfExpanded d ≤ T.max
  domain : ∃ lo hi, expandedDomain Doubles.exact T s key expandLeft = some (s.factorFor d, lo, hi) ∧
    lo ≤ s.keyDomainMin ∧ s.keyDomainMax ≤ hi ∧ (lo ≤ key ∧ key ≤ hi) ∧
    ∀ k ∈ stored, lo ≤ k ∧ k ≤ hi

theorem uint64_max : KeyType.uint64.max = 2 ^ 64 - 1 := rfl
theorem uint64_lowest : KeyType.uint64.lowest = 0 := rfl

/-- Arithmetic that stays in the key type is exact. -/
theorem arith_uint64 {x : ℤ} (h1 : 0 ≤ x) (h2 : x ≤ 2 ^ 64 - 1) :
    KeyType.uint64.arith x = some x := if_pos ⟨h1, h2⟩

section
variable {size half : ℤ} {factor : ℕ}

/-- The new upper bound, when half of the new domain is a key. -/
theorem expandedMax_eq {lo : ℤ} (hlo : 0 ≤ lo) (hlo' : lo ≤ 2 ^ 64 - 1)
    (hhalf : ((factor / 2 : ℕ) : ℤ) * size = half) (h0 : 0 ≤ half) (hmax : half ≤ 2 ^ 64 - 1) :
    ∃ hi, expandedMax KeyType.uint64 lo size factor = some hi ∧ hi ≤ 2 ^ 64 - 1 ∧
      ((KeyType.uint64.max.tdiv 2 - lo.tdiv 2 < half ∧ hi = 2 ^ 64 - 1) ∨
      hi = lo + half + half) := by
  unfold expandedMax
  rw [hhalf, uint64_max, Int.tdiv_eq_ediv_of_nonneg (by norm_num), Int.tdiv_eq_ediv_of_nonneg hlo,
    arith_uint64 (x := (2 ^ 64 - 1) / 2 - lo / 2) (by omega) (by omega), arith_uint64 h0 hmax]
  simp only [Option.bind_eq_bind, Option.bind_some]
  by_cases hclip : (2 ^ 64 - 1) / 2 - lo / 2 < half
  · rw [if_pos hclip]
    exact ⟨2 ^ 64 - 1, rfl, le_refl _, Or.inl ⟨hclip, rfl⟩⟩
  · rw [if_neg hclip, arith_uint64 (x := lo + half) (by omega) (by omega), Option.bind_some,
      arith_uint64 (x := lo + half + half) (by omega) (by omega)]
    exact ⟨lo + half + half, rfl, by omega, Or.inr rfl⟩

/-- The new lower bound, when half of the new domain is a key. -/
theorem expandedMin_eq {hi : ℤ} (hhi : 0 ≤ hi) (hhi' : hi ≤ 2 ^ 64 - 1)
    (hhalf : ((factor / 2 : ℕ) : ℤ) * size = half) (h0 : 0 ≤ half) (hmax : half ≤ 2 ^ 64 - 1) :
    ∃ lo, expandedMin KeyType.uint64 hi size factor = some lo ∧ 0 ≤ lo ∧
      ((hi.tdiv 2 - KeyType.uint64.lowest.tdiv 2 < half ∧ lo = 0) ∨ lo = hi - half - half) := by
  unfold expandedMin
  rw [hhalf, uint64_lowest, Int.zero_tdiv, Int.sub_zero, Int.tdiv_eq_ediv_of_nonneg hhi,
    arith_uint64 (x := hi / 2) (by omega) (by omega), arith_uint64 h0 hmax]
  simp only [Option.bind_eq_bind, Option.bind_some]
  by_cases hclip : hi / 2 < half
  · rw [if_pos hclip]
    exact ⟨0, rfl, le_refl _, Or.inl ⟨hclip, rfl⟩⟩
  · rw [if_neg hclip, arith_uint64 (x := hi - half) (by omega) (by omega), Option.bind_some,
      arith_uint64 (x := hi - half - half) (by omega) (by omega)]
    exact ⟨hi - half - half, rfl, by omega, Or.inr rfl⟩

end

section
variable {s : Index M P} {d : ℤ}

/-- The factor for a ratio that can be rounded. -/
theorem factorFor_spec (hd : 1 ≤ d) (hsize : 1 ≤ s.domainSize)
    (hratio : sizeRatio d s.domainSize ≤ 2 ^ 31) :
    ∃ g, s.factorFor d = 2 ^ (g + 1) ∧ s.halfExpanded d = 2 ^ g * s.domainSize ∧
      s.halfExpanded d < d + s.domainSize ∧
      d + s.domainSize ≤ s.halfExpanded d + s.halfExpanded d := by
  obtain ⟨h2, hle, hlt⟩ := sizeRatio_spec hd hsize
  have hnat : ((sizeRatio d s.domainSize).toNat : ℤ) = sizeRatio d s.domainSize := by omega
  obtain ⟨g, hg, hbelow, habove⟩ := pow2RoundUp_spec (x := (sizeRatio d s.domainSize).toNat)
    (by omega) (by omega)
  have hpow : 2 ^ (g + 1) = 2 * 2 ^ g := pow_succ' 2 g
  have hhalf : s.halfExpanded d = 2 ^ g * s.domainSize := by
    unfold halfExpanded factorFor
    rw [hg, hpow, Nat.mul_div_cancel_left _ (by norm_num)]
    push_cast
    rfl
  have hbelow' : (2 : ℤ) ^ g ≤ sizeRatio d s.domainSize - 1 := by
    have : ((2 ^ g : ℕ) : ℤ) + 1 ≤ ((sizeRatio d s.domainSize).toNat : ℤ) :=
      by exact_mod_cast hbelow
    push_cast at this
    omega
  have habove' : sizeRatio d s.domainSize ≤ 2 * 2 ^ g := by
    have : ((sizeRatio d s.domainSize).toNat : ℤ) ≤ ((2 ^ (g + 1) : ℕ) : ℤ) :=
      by exact_mod_cast habove
    rw [hpow] at this
    push_cast at this
    omega
  have h1 : 2 ^ g * s.domainSize ≤ (sizeRatio d s.domainSize - 1) * s.domainSize :=
    Int.mul_le_mul_of_nonneg_right hbelow' (by omega)
  have h3 : sizeRatio d s.domainSize * s.domainSize ≤ 2 * 2 ^ g * s.domainSize :=
    Int.mul_le_mul_of_nonneg_right habove' (by omega)
  refine ⟨g, hg, hhalf, by rw [hhalf]; omega, ?_⟩
  rw [hhalf]
  linarith

variable {key minKey maxKey : ℤ} {expandLeft : Bool} {stored : Set ℤ}

/-- The domain, the key on the chosen side and the stored keys with their two ends. -/
structure OutOfDomain (s : Index M P) (key minKey maxKey : ℤ) (expandLeft : Bool)
    (stored : Set ℤ) : Prop where
  domain_nonneg : 0 ≤ s.keyDomainMin
  domain_lt : s.keyDomainMin < s.keyDomainMax
  domain_le : s.keyDomainMax ≤ 2 ^ 64 - 1
  key_range : 0 ≤ key ∧ key ≤ 2 ^ 64 - 1
  side : if expandLeft then key < s.keyDomainMin else s.keyDomainMax < key
  getMinKey : s.getMinKey KeyType.uint64 = some minKey
  getMaxKey : s.getMaxKey KeyType.uint64 = some maxKey
  least : IsLeast stored minKey
  greatest : IsGreatest stored maxKey
  stored_range : ∀ k ∈ stored, 0 ≤ k ∧ k ≤ 2 ^ 64 - 1

theorem OutOfDomain.one_le_reach (h : OutOfDomain s key minKey maxKey expandLeft stored) :
    1 ≤ s.reach key minKey maxKey expandLeft := by
  have hside := h.side
  unfold reach
  cases expandLeft with
  | true =>
      simp only [if_true] at hside ⊢
      omega
  | false =>
      simp only [Bool.false_eq_true, if_false] at hside ⊢
      omega

/-- The new domain is computed from the exact size and distance. -/
theorem OutOfDomain.expandedDomain_eq (h : OutOfDomain s key minKey maxKey expandLeft stored)
    (hratio : sizeRatio (s.reach key minKey maxKey expandLeft) s.domainSize ≤ 2 ^ 30) :
    expandedDomain Doubles.exact KeyType.uint64 s key expandLeft =
      if expandLeft then
        (expandedMin KeyType.uint64 s.keyDomainMax s.domainSize
          (s.factorFor (s.reach key minKey maxKey expandLeft))).map
            (fun lo => (s.factorFor (s.reach key minKey maxKey expandLeft), lo, s.keyDomainMax))
      else
        (expandedMax KeyType.uint64 s.keyDomainMin s.domainSize
          (s.factorFor (s.reach key minKey maxKey expandLeft))).map
            (fun hi => (s.factorFor (s.reach key minKey maxKey expandLeft),
            s.keyDomainMin, hi)) := by
  have hd := h.one_le_reach
  have hlt := h.domain_lt
  have hlow := h.domain_nonneg
  have hmax := h.domain_le
  have hkey := h.key_range
  have hmin' := h.stored_range _ h.least.1
  have hmax' := h.stored_range _ h.greatest.1
  have hsize : 1 ≤ s.domainSize := by
    unfold domainSize
    omega
  have harith : KeyType.uint64.arith (s.keyDomainMax - s.keyDomainMin) = some s.domainSize :=
    arith_uint64 (by omega) (by omega)
  have hdiff : keyDifference KeyType.uint64 s key expandLeft =
      some (s.reach key minKey maxKey expandLeft) := by
    unfold keyDifference
    unfold reach at hd ⊢
    cases expandLeft with
    | true =>
        simp only [if_true, h.getMinKey, Option.bind_eq_bind, Option.bind_some] at hd ⊢
        exact arith_uint64 (by omega) (by omega)
    | false =>
        simp only [Bool.false_eq_true, if_false, h.getMaxKey, Option.bind_eq_bind, Option.bind_some]
          at hd ⊢
        exact arith_uint64 (by omega) (by omega)
  have hfactor : expansionFactor Doubles.exact (s.reach key minKey maxKey expandLeft) s.domainSize =
      some (s.factorFor (s.reach key minKey maxKey expandLeft)) := by
    obtain ⟨h2, -, -⟩ := sizeRatio_spec hd hsize
    unfold expansionFactor
    rw [expansionRatio_exact]
    exact if_pos ⟨by omega, le_trans (by norm_num) h2, hratio⟩
  unfold expandedDomain
  simp only [harith, hdiff, hfactor, Option.bind_eq_bind, Option.bind_some]
  cases expandLeft with
  | true => exact Option.map_eq_bind.symm
  | false => exact Option.map_eq_bind.symm

/-- A ratio up to `2^30` makes the expansion safe. -/
theorem OutOfDomain.safe (h : OutOfDomain s key minKey maxKey expandLeft stored)
    (hratio : sizeRatio (s.reach key minKey maxKey expandLeft) s.domainSize ≤ 2 ^ 30)
    (hother : ∀ k ∈ stored, if expandLeft then k ≤ s.keyDomainMax else s.keyDomainMin ≤ k) :
    SafeExpansion KeyType.uint64 s key (s.reach key minKey maxKey expandLeft)
    expandLeft stored := by
  have hd := h.one_le_reach
  have hlt := h.domain_lt
  have hlow := h.domain_nonneg
  have hmax := h.domain_le
  have hkey := h.key_range
  have hmin' := h.stored_range _ h.least.1
  have hmax' := h.stored_range _ h.greatest.1
  have hsize : s.domainSize = s.keyDomainMax - s.keyDomainMin := rfl
  have hdomain := h.expandedDomain_eq hratio
  obtain ⟨h2, -, -⟩ := sizeRatio_spec hd (show 1 ≤ s.domainSize by omega)
  obtain ⟨g, hg, -, hbelow, habove⟩ := factorFor_spec (s := s) hd (by omega) (by omega)
  have hfits : s.factorFor (s.reach key minKey maxKey expandLeft) ≤ 2 ^ 31 - 1 :=
    (pow2RoundUp_fits (by omega) (by omega)).mpr (by omega)
  have hhalf : ((s.factorFor (s.reach key minKey maxKey expandLeft) / 2 : ℕ) : ℤ) * s.domainSize =
      s.halfExpanded (s.reach key minKey maxKey expandLeft) := rfl
  have hpos : 0 ≤ s.halfExpanded (s.reach key minKey maxKey expandLeft) := by omega
  have hside := h.side
  cases expandLeft with
  | true =>
      have hreach : s.reach key minKey maxKey true = s.keyDomainMin - min key minKey := rfl
      simp only [if_true] at hside hother hdomain
      obtain ⟨lo, hlo, hlo0, hcase⟩ := expandedMin_eq (show 0 ≤ s.keyDomainMax by omega) (by omega)
        hhalf hpos (by omega)
      rw [hlo, Option.map_some] at hdomain
      have hreaches : lo ≤ min key minKey := by
        rcases hcase with ⟨-, hclip⟩ | hexact
        · omega
        · omega
      refine ⟨by omega, hfits, ⟨g, hg⟩, by rw [uint64_max]; omega, ?_, lo, s.keyDomainMax, hdomain,
        by omega, le_refl _, ⟨by omega, by omega⟩, fun k hk => ⟨?_, hother k hk⟩⟩
      · rw [if_pos rfl]
        rcases hcase with ⟨hclip, -⟩ | hexact
        · exact Or.inl hclip
        · exact Or.inr (hexact ▸ hlo0)
      · have := h.least.2 hk
        omega
  | false =>
      have hreach : s.reach key minKey maxKey false = max key maxKey - s.keyDomainMax := rfl
      simp only [Bool.false_eq_true, if_false] at hside hother hdomain
      obtain ⟨hi, hhi, hhimax, hcase⟩ :=
        expandedMax_eq (show 0 ≤ s.keyDomainMin by omega) (by omega)
        hhalf hpos (by omega)
      rw [hhi, Option.map_some] at hdomain
      have hreaches : max key maxKey ≤ hi := by
        rcases hcase with ⟨-, hclip⟩ | hexact
        · omega
        · omega
      refine ⟨by omega, hfits, ⟨g, hg⟩, by rw [uint64_max]; omega, ?_, s.keyDomainMin, hi, hdomain,
        le_refl _, by omega, ⟨by omega, by omega⟩, fun k hk => ⟨hother k hk, ?_⟩⟩
      · rw [if_neg (by simp)]
        rcases hcase with ⟨hclip, -⟩ | hexact
        · exact Or.inl hclip
        · exact Or.inr (hexact ▸ hhimax)
      · have := h.greatest.2 hk
        omega

/-- A ratio that fits in `int` and can be rounded is at most `2^30`. -/
theorem OutOfDomain.ratio_le (h : OutOfDomain s key minKey maxKey expandLeft stored)
    (hconverted : sizeRatio (s.reach key minKey maxKey expandLeft) s.domainSize ≤ 2 ^ 31 - 1)
    (hrounded : s.factorFor (s.reach key minKey maxKey expandLeft) ≤ 2 ^ 31 - 1) :
    sizeRatio (s.reach key minKey maxKey expandLeft) s.domainSize ≤ 2 ^ 30 := by
  have hlt := h.domain_lt
  have hsize : s.domainSize = s.keyDomainMax - s.keyDomainMin := rfl
  obtain ⟨h2, -, -⟩ := sizeRatio_spec h.one_le_reach (show 1 ≤ s.domainSize by omega)
  have := (pow2RoundUp_fits (by omega) (by omega)).mp hrounded
  omega

/-- **Expansion arithmetic of `expand_root`**: the expansion of a domain of `uint64_t` keys is safe
if and only if the key and the stored keys lie at most `2^30 - 1` domains beyond it on the chosen
side, and no stored key lies beyond it on the other side. -/
theorem safeExpansion_iff (h : OutOfDomain s key minKey maxKey expandLeft stored) :
    SafeExpansion KeyType.uint64 s key (s.reach key minKey maxKey expandLeft) expandLeft stored ↔
      s.reach key minKey maxKey expandLeft ≤ (2 ^ 30 - 1) * (s.keyDomainMax - s.keyDomainMin) ∧
        ∀ k ∈ stored, if expandLeft then k ≤ s.keyDomainMax else s.keyDomainMin ≤ k := by
  have hlt := h.domain_lt
  have hiff := sizeRatio_le_iff h.one_le_reach (show 1 ≤ s.keyDomainMax - s.keyDomainMin by omega)
  constructor
  · intro hsafe
    have hratio := h.ratio_le hsafe.converted hsafe.rounded
    refine ⟨hiff.mp hratio, fun k hk => ?_⟩
    obtain ⟨lo, hi, hdomain, -, -, -, hstored⟩ := hsafe.domain
    rw [h.expandedDomain_eq hratio] at hdomain
    cases expandLeft with
    | true =>
        obtain ⟨x, -, hx⟩ := Option.map_eq_some_iff.mp hdomain
        obtain ⟨-, hx'⟩ := Prod.mk.inj hx
        obtain ⟨-, rfl⟩ := Prod.mk.inj hx'
        exact (hstored k hk).2
    | false =>
        obtain ⟨x, -, hx⟩ := Option.map_eq_some_iff.mp hdomain
        obtain ⟨-, hx'⟩ := Prod.mk.inj hx
        obtain ⟨rfl, -⟩ := Prod.mk.inj hx'
        exact (hstored k hk).1
  · rintro ⟨hreach, hother⟩
    exact h.safe (hiff.mpr hreach) hother

end

/-! ### A narrow domain -/

/-- An index over the domain `[1, 3]` whose root has one leaf. -/
def narrowDomain (n : DataNode LinearModel ℕ) : Index LinearModel ℕ :=
  { Index.ofLeaf n with
    heap := [.data n,
      .model { ModelNode.new 0 with
        model := ⟨1, -1⟩
        numChildren := 2
        children := [some 0, some 0] },
      .model { ModelNode.new (-1) with numChildren := 1, children := [some 1] }]
    rootNode := 1
    superroot := 2
    keyDomainMin := 1
    keyDomainMax := 3 }

theorem narrowDomain_outOfDomain {key : ℤ} (h1 : 3 < key) (h2 : key ≤ 2 ^ 64 - 1) :
    ∃ n, DataNode.threeKeys = some n ∧ OutOfDomain (narrowDomain n) key 1 3 false {1, 2, 3} := by
  obtain ⟨n, hn, -⟩ := DataNode.threeKeys_wellFormed
  have hmin : DataNode.threeKeys.bind
    (fun n => (narrowDomain n).getMinKey KeyType.uint64) = some 1 := by
    decide +kernel
  have hmax : DataNode.threeKeys.bind
    (fun n => (narrowDomain n).getMaxKey KeyType.uint64) = some 3 := by
    decide +kernel
  rw [hn, Option.bind_some] at hmin hmax
  refine ⟨n, hn, ?_, ?_, ?_, ⟨by omega, h2⟩, ?_, hmin, hmax, ⟨by simp, ?_⟩, ⟨by simp, ?_⟩, ?_⟩
  · show (0 : ℤ) ≤ 1
    norm_num
  · show (1 : ℤ) < 3
    norm_num
  · show (3 : ℤ) ≤ 2 ^ 64 - 1
    norm_num
  · exact h1
  · rintro k (rfl | rfl | rfl) <;> norm_num
  · rintro k (rfl | rfl | rfl) <;> norm_num
  · rintro k (rfl | rfl | rfl) <;> norm_num

theorem safeExpansion_near : ∃ n, DataNode.threeKeys = some n ∧
    SafeExpansion KeyType.uint64 (narrowDomain n) 1000 997 false {1, 2, 3} := by
  obtain ⟨n, hn, hout⟩ := narrowDomain_outOfDomain (show (3 : ℤ) < 1000 by norm_num) (by norm_num)
  have hreach : (narrowDomain n).reach 1000 1 3 false = 997 := rfl
  refine ⟨n, hn, hreach ▸ (safeExpansion_iff hout).mpr ⟨?_, ?_⟩⟩
  · show (997 : ℤ) ≤ (2 ^ 30 - 1) * (3 - 1)
    norm_num
  · rintro k (rfl | rfl | rfl)
    · exact le_refl _
    · show (1 : ℤ) ≤ 2
      norm_num
    · show (1 : ℤ) ≤ 3
      norm_num

/-- A key `2^40` is `2^39` domains away from the domain `[1, 3]`. -/
theorem not_safeExpansion_far : ¬ ∀ (s : Index LinearModel ℕ) (key minKey maxKey : ℤ)
    (expandLeft : Bool) (stored : Set ℤ), OutOfDomain s key minKey maxKey expandLeft stored →
      SafeExpansion KeyType.uint64 s key (s.reach key minKey maxKey expandLeft)
      expandLeft stored := by
  intro hall
  obtain ⟨n, -, hout⟩ := narrowDomain_outOfDomain (show (3 : ℤ) < 2 ^ 40 by norm_num) (by norm_num)
  have hsafe := hall _ _ _ _ _ _ hout
  have hratio := hout.ratio_le hsafe.converted hsafe.rounded
  have hsize : (1 : ℤ) ≤ 3 - 1 := by norm_num
  have hfar : ¬ ((2 ^ 40 - 3 : ℤ) ≤ (2 ^ 30 - 1) * (3 - 1)) := by norm_num
  exact hfar ((sizeRatio_le_iff hout.one_le_reach hsize).mp hratio)

end Index

end LearnedIndex.Alexol
