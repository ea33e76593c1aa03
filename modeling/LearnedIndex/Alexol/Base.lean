import LearnedIndex.Lib.Words

/-! # Shared definitions of ALEX+ (`alex_base.h`)

Key types, lock words, linear models and the bit tricks used by all of the index code.

* **Keys.** A key type `T` is an integer type; the model keeps its two limits (`KeyType`) and
  represents keys as integers.  `kEndSentinel_` of a data node is `T.max`.
* **Models.** A model node predicts with an exact rational line (`LinearModel`);
  `static_cast<int>` is truncation toward zero.  A data node only ever uses the predictions of
  its model as a hint, so data nodes are generic in their model type: `class NodeModel` lists
  what they call, and every instance is allowed.
* **Locks.** `lock_` is a 32-bit word whose top bit is `lockSet`; the low 31 bits are a version
  (data nodes) or a reader count (model nodes). -/

namespace LearnedIndex.Alexol

open LearnedIndex.Words

/-! ### Key types -/

/-- The limits of an integer key type. -/
structure KeyType where
  lowest : ℤ
  max : ℤ
  lowest_lt_max : lowest < max

/-- `uint64_t`. -/
def KeyType.uint64 : KeyType := ⟨0, 2 ^ 64 - 1, by norm_num⟩

/-! ### Truncation and linear models -/

/-- `static_cast<int>` of an exact value: truncation toward zero. -/
def trunc (x : ℚ) : ℤ := if 0 ≤ x then ⌊x⌋ else ⌈x⌉

theorem trunc_intCast (z : ℤ) : trunc z = z := by
  unfold trunc
  split <;> simp

theorem trunc_of_nonneg {x : ℚ} (h : 0 ≤ x) : trunc x = ⌊x⌋ := if_pos h

/-- For a positive bound truncation is as good as the floor. -/
theorem le_trunc_iff {x : ℚ} {z : ℤ} (hz : 0 < z) : z ≤ trunc x ↔ (z : ℚ) ≤ x := by
  unfold trunc
  split
  · exact Int.le_floor
  · rename_i h
    have hx : x < 0 := not_le.mp h
    constructor
    · intro hle
      have : ⌈x⌉ ≤ 0 := Int.ceil_le.mpr (by simpa using hx.le)
      omega
    · intro hle
      have : (0 : ℚ) < z := by exact_mod_cast hz
      linarith

theorem trunc_lt_iff {x : ℚ} {z : ℤ} (hz : 0 < z) : trunc x < z ↔ x < z := by
  rw [← not_le, ← not_le, le_trunc_iff hz]

theorem trunc_nonpos_of_neg {x : ℚ} (h : x < 0) : trunc x ≤ 0 := by
  unfold trunc
  rw [if_neg (not_le.mpr h)]
  exact Int.ceil_le.mpr (by simpa using h.le)

/-- A line `a_ * key + b_` in exact arithmetic. -/
@[ext]
structure LinearModel where
  a : ℚ
  b : ℚ
deriving DecidableEq

namespace LinearModel

/-- `LinearModel()`. -/
def zero : LinearModel := ⟨0, 0⟩

def expand (m : LinearModel) (expansionFactor : ℚ) : LinearModel :=
  ⟨m.a * expansionFactor, m.b * expansionFactor⟩

def predictDouble (m : LinearModel) (key : ℤ) : ℚ := m.a * key + m.b

def predict (m : LinearModel) (key : ℤ) : ℤ := trunc (m.predictDouble key)

end LinearModel

/-- What a data node asks of its model.  `train` is `LinearModelBuilder` (and, with the flag
set, `build_model_sampling`) run over the keys in order. -/
class NodeModel (M : Type) where
  predict : M → ℤ → ℤ
  expand : M → ℚ → M
  addIntercept : M → ℚ → M
  train : Bool → List ℤ → M
  zero : M

/-! ### Linear regression -/

/-- `LinearModelBuilder`: the sums over the points added so far. -/
structure LinearModelBuilder where
  count : ℕ := 0
  xSum : ℚ := 0
  ySum : ℚ := 0
  xxSum : ℚ := 0
  xySum : ℚ := 0
  xMin : ℤ := 0
  xMax : ℤ := 0
  yMin : ℚ := 0
  yMax : ℚ := 0

namespace LinearModelBuilder

def add (b : LinearModelBuilder) (x : ℤ) (y : ℕ) : LinearModelBuilder where
  count := b.count + 1
  xSum := b.xSum + x
  ySum := b.ySum + y
  xxSum := b.xxSum + x * x
  xySum := b.xySum + x * y
  -- the extrema start at the limits of the types, so the first point sets them
  xMin := if b.count = 0 then x else min x b.xMin
  xMax := if b.count = 0 then x else max x b.xMax
  yMin := if b.count = 0 then y else min (y : ℚ) b.yMin
  yMax := if b.count = 0 then y else max (y : ℚ) b.yMax

def build (b : LinearModelBuilder) : LinearModel :=
  let det := b.count * b.xxSum - b.xSum * b.xSum
  if b.count ≤ 1 then ⟨0, b.ySum⟩
  else if det = 0 then ⟨0, b.ySum / b.count⟩
  else
    let slope := (b.count * b.xySum - b.xSum * b.ySum) / det
    if slope ≤ 0 then
      let spline := (b.yMax - b.yMin) / (b.xMax - b.xMin : ℤ)
      ⟨spline, -b.xMin * spline⟩
    else ⟨slope, (b.ySum - slope * b.xSum) / b.count⟩

/-- Add the points `(keys[i], i)` for the positions of a list. -/
def addAll (b : LinearModelBuilder) (keys : List ℤ) (positions : List ℕ) : LinearModelBuilder :=
  positions.foldl (fun b i => b.add (keys.getD i 0) i) b

end LinearModelBuilder

namespace LinearModel

/-- `build_model` without sampling. -/
def buildModel (keys : List ℤ) : LinearModel :=
  (LinearModelBuilder.addAll {} keys (List.range keys.length)).build

/-- The first step size of `build_model_sampling`: halve the sample until it is below ten. -/
def sampleStep : ℕ → ℚ → ℕ → ℕ
  | 0, _, step => step
  | fuel + 1, sampleSize, step =>
      if 10 ≤ sampleSize then sampleStep fuel (sampleSize / 2) (step * 2) else step

/-- The model hardly changed between two samples; a change relative to zero never is small. -/
def closeTo (m prev : LinearModel) : Bool :=
  decide (prev.a ≠ 0 ∧ |(m.a - prev.a) / prev.a| < 1 / 100 ∧
    (prev.b ≠ 0 ∧ |m.b - prev.b| / |prev.b| < 1 / 100 ∨ |m.b - prev.b| < 1 / 2))

/-- Halve the step size until the model is stable. -/
def sampleMore (keys : List ℤ) : ℕ → ℕ → LinearModelBuilder → LinearModel → LinearModel
  | 0, _, _, m => m
  | fuel + 1, step, b, prev =>
      if 1 < step then
        let step := step / 2
        let fresh := (List.range keys.length).filter (fun i => i % (2 * step) = step)
        let b := b.addAll keys fresh
        if b.build.closeTo prev then b.build else sampleMore keys fuel step b b.build
      else prev

def buildModelSampling (keys : List ℤ) : LinearModel :=
  if keys.length ≤ 20 then buildModel keys
  else
    let step := sampleStep keys.length keys.length 1 / 2
    let b := LinearModelBuilder.addAll {} keys
      ((List.range keys.length).filter (fun i => i % step = 0))
    sampleMore keys step step b b.build

end LinearModel

/-- Linear regression in exact arithmetic, the model the source uses everywhere. -/
instance : NodeModel LinearModel where
  predict := LinearModel.predict
  expand := LinearModel.expand
  addIntercept m d := { m with b := m.b + d }
  train sample keys :=
    if sample then LinearModel.buildModelSampling keys else LinearModel.buildModel keys
  zero := LinearModel.zero

/-! ### Lock words -/

/-- A lock word. -/
abbrev LockWord := BitVec 32

def lockSet : LockWord := 1#32 <<< 31
def lockMask : LockWord := lockSet - 1#32

/-- The `lockSet` bit of a lock word. -/
def isSet (v : LockWord) : Bool := (v &&& lockSet) != 0#32

theorem isSet_eq (v : LockWord) : isSet v = v.getLsbD 31 := by
  have h : ∀ i, i < 32 → (v &&& lockSet).getLsbD i = (v.getLsbD 31 && decide (i = 31)) := by
    intro i hi
    rw [BitVec.getLsbD_and]
    by_cases hi31 : i = 31
    · subst hi31
      simp [lockSet]
    · have h0 : lockSet.getLsbD i = false := by
        unfold lockSet
        rw [BitVec.getLsbD_shiftLeft]
        have hlt : i < 31 := by omega
        simp [hlt]
      simp [h0, hi31]
  unfold isSet
  cases hv : v.getLsbD 31 with
  | true =>
      rw [bne_iff_ne]
      intro h0
      have := h 31 (by omega)
      rw [h0, hv] at this
      simp at this
  | false =>
      have h0 : v &&& lockSet = 0#32 := by
        apply BitVec.eq_of_getLsbD_eq
        intro i hi
        rw [h i hi, hv]
        simp
      simp [h0]

theorem isSet_iff_toNat (v : LockWord) : isSet v = true ↔ 2 ^ 31 ≤ v.toNat := by
  rw [isSet_eq]
  have hlt := v.isLt
  rw [BitVec.getLsbD, Nat.testBit_eq_decide_div_mod_eq, decide_eq_true_eq]
  omega

theorem toNat_lockSet : lockSet.toNat = 2 ^ 31 := by decide

theorem toNat_and_lockMask (v : LockWord) : (v &&& lockMask).toNat = v.toNat % 2 ^ 31 := by
  have hmask : lockMask.toNat = 2 ^ 31 - 1 := by decide
  rw [BitVec.toNat_and, hmask, Nat.and_two_pow_sub_one_eq_mod]

theorem toNat_or_lockSet {v : LockWord} (h : v.toNat < 2 ^ 31) :
    (v ||| lockSet).toNat = v.toNat + 2 ^ 31 := by
  have hand : v &&& lockSet = 0#32 := by
    have hset : ¬ isSet v = true := by
      rw [isSet_iff_toNat]
      omega
    unfold isSet at hset
    simpa using hset
  rw [← BitVec.add_eq_or_of_and_eq_zero v lockSet hand, BitVec.toNat_add, toNat_lockSet]
  omega

/-- Taking a free lock sets its top bit. -/
theorem isSet_or_lockSet (v : LockWord) : isSet (v ||| lockSet) = true := by
  rw [isSet_eq, BitVec.getLsbD_or]
  have h : lockSet.getLsbD 31 = true := by decide
  rw [h, Bool.or_true]

/-- Taking a free lock and releasing it counts the version up. -/
theorem release_acquire {v : LockWord} (h : isSet v = false) :
    (v ||| lockSet) + 1#32 - lockSet = v + 1#32 := by
  have hand : v &&& lockSet = 0#32 := by
    unfold isSet at h
    simpa using h
  rw [← BitVec.add_eq_or_of_and_eq_zero v lockSet hand, BitVec.add_assoc,
    BitVec.add_comm lockSet 1#32, ← BitVec.add_assoc, BitVec.add_sub_cancel]

/-! ### Helper methods for bitmaps -/

def extractRightmostOne (value : Word) : Word := value &&& -value

def removeRightmostOne (value : Word) : Word := value &&& (value - 1#64)

def countOnes (value : Word) : ℕ := value.cpop.toNat

/-- `_tzcnt_u64`: 64 on the zero word. -/
def tzcnt (value : Word) : ℕ := value.ctz.toNat

/-- `_lzcnt_u64`: 64 on the zero word. -/
def lzcnt (value : Word) : ℕ := value.clz.toNat

/-- Offset in the bitmap of the single bit `bit` of word `wordId`. -/
def getOffset (wordId : ℕ) (bit : Word) : ℕ := (wordId <<< 6) + countOnes (bit - 1#64)

theorem getOffset_extractRightmostOne {v : Word} (hv : v ≠ 0#64) (wordId : ℕ) :
    getOffset wordId (extractRightmostOne v) = 64 * wordId + v.ctz.toNat := by
  unfold getOffset extractRightmostOne countOnes
  rw [and_neg_eq_twoPow hv, cpop_twoPow_sub_one (ctz_lt hv), Nat.shiftLeft_eq]
  omega

theorem getLsbD_removeRightmostOne {v : Word} (hv : v ≠ 0#64) (i : ℕ) :
    (removeRightmostOne v).getLsbD i = (v.getLsbD i && decide (i ≠ v.ctz.toNat)) :=
  getLsbD_and_sub_one hv i

/-! ### Rounding -/

/-- `while (x >>= 1) ++res`. -/
def log2RoundDown (x : ℕ) : ℕ := Nat.log2 x

@[simp] theorem log2RoundDown_two_pow (g : ℕ) : log2RoundDown (2 ^ g) = g := Nat.log2_two_pow

/-- The smallest power of two at or above `x`, by smearing the bits of `x - 1` to the right. -/
def pow2RoundUp (x : ℕ) : ℕ :=
  let x := x - 1
  let x := x ||| (x >>> 1)
  let x := x ||| (x >>> 2)
  let x := x ||| (x >>> 4)
  let x := x ||| (x >>> 8)
  let x := x ||| (x >>> 16)
  x + 1

end LearnedIndex.Alexol
