import LearnedIndex.Alexol.Base
import Mathlib.Data.Int.Log

/-! # Arithmetic on doubles

Where a result depends on rounding, the model is parametric in the arithmetic of the machine.

* **Operations.** `Doubles` has the conversion of an exact value to `double`, the value of
  `a * x + b` for doubles, and the conversion to `int`.  Nothing is assumed of them: a compiler may
  contract the product and the sum to one operation, and the conversion of a value that is not an
  `int` is undefined.
* **Instances.** `Doubles.exact` computes without rounding; `Doubles.binary64` rounds to 53 bits, to
  even at a tie, and converts every value that is not an `int` to the least one.  The bounds of the
  exponent are left out. -/

namespace LearnedIndex.Alexol

/-- The machine's doubles. -/
structure Doubles where
  /-- The double for an exact value. -/
  round : ℚ → ℚ
  /-- `a * x + b`. -/
  mulAdd : ℚ → ℚ → ℚ → ℚ
  /-- `static_cast<int>`. -/
  toInt : ℚ → ℤ

namespace Doubles

/-- Exact values and integers of any size. -/
def exact : Doubles := ⟨id, fun a x b => a * x + b, trunc⟩

/-- The nearest integer, the even one at a tie. -/
def nearestEven (x : ℚ) : ℤ :=
  if x - ⌊x⌋ < 1 / 2 ∨ (x - ⌊x⌋ = 1 / 2 ∧ ⌊x⌋ % 2 = 0) then ⌊x⌋ else ⌊x⌋ + 1

/-- The nearest value with a significand of 53 bits. -/
def nearest53 (x : ℚ) : ℚ :=
  let unit := (2 : ℚ) ^ (Int.log 2 |x| - 52)
  nearestEven (x / unit) * unit

/-- Doubles of 53 bits, without contraction, on a machine whose conversion to `int` gives `-2^31`
for every value out of range. -/
def binary64 : Doubles where
  round := nearest53
  mulAdd a x b := nearest53 (nearest53 (a * x) + b)
  toInt x := if -2 ^ 31 ≤ trunc x ∧ trunc x < 2 ^ 31 then trunc x else -2 ^ 31

@[simp] theorem exact_round (x : ℚ) : exact.round x = x := rfl
@[simp] theorem exact_mulAdd (a x b : ℚ) : exact.mulAdd a x b = a * x + b := rfl
@[simp] theorem exact_toInt (x : ℚ) : exact.toInt x = trunc x := rfl

end Doubles

/-- `predict_double`. -/
def LinearModel.predictDoubleOn (D : Doubles) (m : LinearModel) (key : ℤ) : ℚ :=
  D.mulAdd m.a (D.round key) m.b

/-- `predict`. -/
def LinearModel.predictOn (D : Doubles) (m : LinearModel) (key : ℤ) : ℤ :=
  D.toInt (m.predictDoubleOn D key)

@[simp] theorem LinearModel.predictDoubleOn_exact (m : LinearModel) (key : ℤ) :
    m.predictDoubleOn Doubles.exact key = m.predictDouble key := rfl

@[simp] theorem LinearModel.predictOn_exact (m : LinearModel) (key : ℤ) :
    m.predictOn Doubles.exact key = m.predict key := rfl

/-- With 53 bits the largest `uint64_t` rounds up, and a slot too high is predicted for it. -/
example : LinearModel.predictOn Doubles.binary64 ⟨1 / 2 ^ 60, -10⟩ (2 ^ 64 - 1) = 6 ∧
    LinearModel.predict ⟨1 / 2 ^ 60, -10⟩ (2 ^ 64 - 1) = 5 := by decide +kernel

end LearnedIndex.Alexol
