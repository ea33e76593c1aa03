import LearnedIndex.Benchmark.PgmMetric
import LearnedIndex.Alexol.Base

/-! # The mean squared error of `PGM_metric`

`PGM_metric` also adds up `get_mse_metric` of its segments and divides by their number.  A segment
is added when the first point after it is refused, so that the last one, at which the keys end, is
counted in the number but not in the sum (`pgmMse_mean_iff`).

Numbers that the source computes in floating point are exact rationals. -/

namespace LearnedIndex.Benchmark

open LearnedIndex.Tangents LearnedIndex.Alexol

/-- The points of a segment and its rectangle, on which `get_mse_metric` depends. -/
structure Finished where
  points : List (ℤ × ℕ)
  rectangle0 : Point
  rectangle1 : Point
  rectangle2 : Point
  rectangle3 : Point
deriving DecidableEq

namespace Finished

def onePoint (s : Finished) : Bool :=
  s.rectangle0 == s.rectangle2 && s.rectangle1 == s.rectangle3

/-- `first_x`. -/
def firstX (s : Finished) : ℤ := (s.points.head?.map Prod.fst).getD 0

/-- The slope of `get_floating_point_segment`. -/
def slope (s : Finished) : ℚ :=
  if s.onePoint then 0
  else ((s.rectangle3.y - s.rectangle1.y : ℤ) : ℚ) / (s.rectangle3.x - s.rectangle1.x : ℤ)

/-- The intercept of `get_floating_point_segment` at `first_x`. -/
def intercept (s : Finished) : ℤ :=
  if s.onePoint then (s.rectangle0.y + s.rectangle1.y) / 2
  else
    let slope := s.rectangle3.sub s.rectangle1
    let interceptN := slope.dy * (s.firstX - s.rectangle1.x)
    let interceptD := slope.dx
    let sign : ℤ := if xor (decide (interceptN < 0)) (decide (interceptD < 0)) then -1 else 1
    let roundingTerm := (sign * interceptD).tdiv 2
    (interceptN + roundingTerm).tdiv interceptD + s.rectangle1.y

/-- The squared error at a point, in unsigned 64-bit arithmetic. -/
def squaredError (s : Finished) (point : ℤ × ℕ) : ℕ :=
  let predictPos := trunc (s.slope * (point.1 - s.firstX : ℤ)) + s.intercept
  let val := ((predictPos - point.2) % 2 ^ 64).toNat
  val * val % 2 ^ 64

/-- `get_mse_metric`. -/
def getMseMetric (s : Finished) : ℚ :=
  (s.points.map (fun point => (s.squaredError point : ℚ))).sum / s.points.length

end Finished

/-- `OptimalPiecewiseLinearModel` with the members that the error needs besides those of the model.
-/
structure ErrorModel extends PiecewiseModel where
  points : List (ℤ × ℕ)

namespace ErrorModel

def new (epsilon : ℕ) : ErrorModel := { PiecewiseModel.new epsilon with points := [] }

/-- `add_point`, which also records every point that it accepts. -/
def addPoint (m : ErrorModel) (x : ℤ) (y : ℕ) : Option (Bool × ErrorModel) := do
  let (fits, model) ← m.toPiecewiseModel.addPoint x y
  some (fits, { model with points := if fits then m.points ++ [(x, y)] else m.points })

def reset (m : ErrorModel) : ErrorModel := { m.toPiecewiseModel.reset with points := [] }

def finished (m : ErrorModel) : Finished where
  points := m.points
  rectangle0 := m.rectangle0
  rectangle1 := m.rectangle1
  rectangle2 := m.rectangle2
  rectangle3 := m.rectangle3

end ErrorModel

/-- The variables of the loop of `PGM_metric`. -/
structure MetricState where
  segment : ErrorModel
  metric : ℕ
  mseSum : ℚ

/-- One iteration of the loop of `PGM_metric` for a given `mse`. -/
def metricStep (getMse : Finished → ℚ) (s : MetricState) (key : ℤ) (i : ℕ) :
    Option MetricState := do
  let (fits, segment) ← s.segment.addPoint key i
  if fits then some { s with segment := segment }
  else
    let (_, next) ← segment.reset.addPoint key i
    some { segment := next, metric := s.metric + 1, mseSum := s.mseSum + getMse segment.finished }

def metricLoop (getMse : Finished → ℚ) : List ℤ → ℕ → MetricState → Option MetricState
  | [], _, s => some s
  | key :: keys, i, s => do
      let s ← metricStep getMse s key i
      metricLoop getMse keys (i + 1) s

/-- `PGM_metric` with `mse`: the number of segments and `*mse`. -/
def pgmMetricMse (getMse : Finished → ℚ) (keys : List ℤ) (errorBound : ℕ) : Option (ℕ × ℚ) := do
  let s ← metricLoop getMse (keys.insertionSort (· ≤ ·)) 0 ⟨ErrorModel.new errorBound, 1, 0⟩
  some (s.metric, s.mseSum / s.metric)

/-! ### The segments -/

/-- The segments that are cut from `keys` on, and the one at which the keys end. -/
def segmentsLoop : List ℤ → ℕ → ErrorModel → Option (List Finished × Finished)
  | [], _, segment => some ([], segment.finished)
  | key :: keys, i, segment => do
      let (fits, segment) ← segment.addPoint key i
      if fits then segmentsLoop keys (i + 1) segment
      else
        let (_, next) ← segment.reset.addPoint key i
        let (cut, last) ← segmentsLoop keys (i + 1) next
        some (segment.finished :: cut, last)

/-- The segments that `PGM_metric` cuts, and its last one. -/
def pgmSegments (keys : List ℤ) (errorBound : ℕ) : Option (List Finished × Finished) :=
  segmentsLoop (keys.insertionSort (· ≤ ·)) 0 (ErrorModel.new errorBound)

/-- The arithmetic mean of `getMse` over some segments. -/
def mean (getMse : Finished → ℚ) (segments : List Finished) : ℚ :=
  (segments.map getMse).sum / segments.length

namespace ErrorModel

/-- A reset model accepts any point. -/
theorem addPoint_reset (m : ErrorModel) (x : ℤ) (y : ℕ) :
    ∃ m', m.reset.addPoint x y = some (true, m') ∧
      m.toPiecewiseModel.reset.addPoint x y = some (true, m'.toPiecewiseModel) ∧
      m'.points = [(x, y)] := by
  refine ⟨_, rfl, rfl, rfl⟩

theorem addPoint_eq {m : ErrorModel} {x : ℤ} {y : ℕ} {fits : Bool} {model : PiecewiseModel}
    (h : m.toPiecewiseModel.addPoint x y = some (fits, model)) :
    ∃ m', m.addPoint x y = some (fits, m') ∧ m'.toPiecewiseModel = model ∧
      m'.points = if fits then m.points ++ [(x, y)] else m.points := by
  refine ⟨{ model with points := if fits then m.points ++ [(x, y)] else m.points }, ?_, rfl, rfl⟩
  unfold addPoint
  rw [h]
  rfl

end ErrorModel

/-- Where the loop of the metric cuts, a segment ends, and the segments hold the keys with their
positions, each once.  The induction is over the keys that are left. -/
theorem segmentsLoop_spec : ∀ {keys : List ℤ} {i : ℕ} {m : ErrorModel} {cuts : List ℕ},
    pgmLoop keys i m.toPiecewiseModel = some cuts →
    ∃ cut last, segmentsLoop keys i m = some (cut, last) ∧ cut.length = cuts.length ∧
      (cut ++ [last]).flatMap Finished.points = m.points ++ keys.zipIdx i
  | [], i, m, cuts, h => by
      obtain rfl := Option.some.inj h
      exact ⟨[], m.finished, rfl, rfl, by simp [ErrorModel.finished]⟩
  | key :: keys, i, m, cuts, h => by
      obtain ⟨⟨model, isCut⟩, hstep, hrest⟩ := Option.bind_eq_some_iff.mp h
      obtain ⟨⟨fits, model₁⟩, hadd, hnext⟩ := Option.bind_eq_some_iff.mp hstep
      obtain ⟨cuts', hloop, hcuts⟩ := Option.bind_eq_some_iff.mp hrest
      obtain ⟨m₁, hm₁, rfl, hpoints⟩ := ErrorModel.addPoint_eq hadd
      cases fits with
      | true =>
          obtain ⟨rfl, rfl⟩ := Prod.mk.inj (Option.some.inj hnext)
          obtain rfl := Option.some.inj hcuts
          obtain ⟨cut, last, hseg, hlen, hflat⟩ := segmentsLoop_spec hloop
          refine ⟨cut, last, ?_, hlen, ?_⟩
          · unfold segmentsLoop
            simp only [hm₁, Option.bind_eq_bind, Option.bind_some, if_true, hseg]
          · rw [hflat, hpoints, if_pos rfl, List.zipIdx_cons, List.append_assoc]
            rfl
      | false =>
          obtain ⟨m₂, hm₂, hadd₂, hpoints₂⟩ := m₁.addPoint_reset key i
          have hnext : (m₁.toPiecewiseModel.reset.addPoint key i).bind (fun r => some (r.2, true)) =
              some (model, isCut) := hnext
          rw [hadd₂, Option.bind_some] at hnext
          obtain ⟨rfl, rfl⟩ := Prod.mk.inj (Option.some.inj hnext)
          obtain rfl := Option.some.inj hcuts
          obtain ⟨cut, last, hseg, hlen, hflat⟩ := segmentsLoop_spec hloop
          refine ⟨m₁.finished :: cut, last, ?_, ?_, ?_⟩
          · unfold segmentsLoop
            simp only [hm₁, hm₂, Option.bind_eq_bind, Option.bind_some,
              Bool.false_eq_true, if_false,
              hseg]
          · rw [List.length_cons, hlen]
            rfl
          · rw [List.cons_append, List.flatMap_cons, hflat, hpoints₂, List.zipIdx_cons]
            show m₁.points ++ _ = _
            rw [hpoints]
            rfl

/-- The loop of `PGM_metric` counts one segment for every cut and adds up the errors of those it
cuts. -/
theorem metricLoop_eq (getMse : Finished → ℚ) : ∀ {keys : List ℤ} {i : ℕ} (metric : ℕ) (mseSum : ℚ)
    {m : ErrorModel} {cut : List Finished} {last : Finished},
    segmentsLoop keys i m = some (cut, last) →
    ∃ m', metricLoop getMse keys i ⟨m, metric, mseSum⟩ =
      some ⟨m', metric + cut.length, mseSum + (cut.map getMse).sum⟩
  | [], i, metric, mseSum, m, cut, last, h => by
      obtain ⟨rfl, rfl⟩ := Prod.mk.inj (Option.some.inj h)
      exact ⟨m, by simp [metricLoop]⟩
  | key :: keys, i, metric, mseSum, m, cut, last, h => by
      obtain ⟨⟨fits, m₁⟩, hadd, hrest⟩ := Option.bind_eq_some_iff.mp h
      unfold metricLoop metricStep
      cases fits with
      | true =>
          obtain ⟨m', hloop⟩ := metricLoop_eq getMse metric mseSum hrest
          refine ⟨m', ?_⟩
          simp only [hadd, Option.bind_eq_bind, Option.bind_some, if_true, hloop]
      | false =>
          have hrest : (m₁.reset.addPoint key i).bind (fun r =>
              (segmentsLoop keys (i + 1) r.2).bind (fun q => some (m₁.finished :: q.1, q.2))) =
              some (cut, last) := hrest
          obtain ⟨⟨fits₂, m₂⟩, hadd₂, hrest⟩ := Option.bind_eq_some_iff.mp hrest
          obtain ⟨⟨cut', last'⟩, hloop, hcut⟩ := Option.bind_eq_some_iff.mp hrest
          obtain ⟨rfl, rfl⟩ := Prod.mk.inj (Option.some.inj hcut)
          obtain ⟨m', hmetric⟩ := metricLoop_eq getMse (metric + 1) (mseSum + getMse m₁.finished)
            hloop
          refine ⟨m', ?_⟩
          simp only [hadd, hadd₂, Option.bind_eq_bind, Option.bind_some,
            Bool.false_eq_true, if_false,
            hmetric, List.length_cons, List.map_cons, List.sum_cons]
          congr 2
          · omega
          · ring

/-- **When `*mse` is the mean over all segments**: the segments hold the keys, each once, and `*mse`
is their mean error exactly if the error of the last one is 0. -/
theorem pgmMse_mean_iff (getMse : Finished → ℚ) (keys : List ℤ) (eps : ℕ)
    (hinc : keys.Pairwise (· < ·)) (hpos : 1 ≤ keys.length) (hlen : keys.length < 2 ^ 31)
    (heps : eps < 2 ^ 31) :
    ∃ cut last mse, pgmSegments keys eps = some (cut, last) ∧
      pgmMetricMse getMse keys eps = some ((cut ++ [last]).length, mse) ∧
      pgmMetric keys eps = some (cut ++ [last]).length ∧
      (cut ++ [last]).flatMap Finished.points = keys.zipIdx ∧
      (mse = mean getMse (cut ++ [last]) ↔ getMse last = 0) := by
  have hsort : keys.insertionSort (· ≤ ·) = keys :=
    List.Pairwise.insertionSort_eq (hinc.imp le_of_lt)
  have hempty : Fits keys eps 0 (0 + 0) := ⟨⟨0, 0⟩, fun i k _ hi _ => absurd hi (by omega)⟩
  obtain ⟨cuts, hloop, -⟩ := pgmLoop_spec hinc
    (show keys.length + eps ≤ PiecewiseModel.maxY by unfold PiecewiseModel.maxY; omega)
    keys 0 0 (PiecewiseModel.new eps) rfl ⟨rfl, fun h => absurd rfl h, trivial⟩ rfl hempty hpos
  obtain ⟨cut, last, hseg, hcuts, hflat⟩ := segmentsLoop_spec (m := ErrorModel.new eps) hloop
  obtain ⟨m', hmetric⟩ := metricLoop_eq getMse 1 0 hseg
  have hcount : (cut ++ [last]).length = 1 + cut.length := by simp [Nat.add_comm]
  refine ⟨cut, last, (0 + (cut.map getMse).sum) / (1 + cut.length : ℕ), ?_, ?_, ?_, hflat, ?_⟩
  · unfold pgmSegments
    rw [hsort]
    exact hseg
  · unfold pgmMetricMse
    rw [hsort, hmetric, hcount]
    rfl
  · unfold pgmMetric pgmCuts
    rw [hsort, hloop, hcount, hcuts, Nat.add_comm]
    rfl
  · have hne : ((1 + cut.length : ℕ) : ℚ) ≠ 0 := by positivity
    rw [mean, hcount, div_left_inj' hne, List.map_append, List.sum_append]
    simp

theorem pgmMse_mean_iff_two : ∃ cut last mse, pgmSegments [0, 1] 64 = some (cut, last) ∧
    pgmMetricMse Finished.getMseMetric [0, 1] 64 = some ((cut ++ [last]).length, mse) ∧
    pgmMetric [0, 1] 64 = some (cut ++ [last]).length ∧
    (cut ++ [last]).flatMap Finished.points = [0, 1].zipIdx ∧
    (mse = mean Finished.getMseMetric (cut ++ [last]) ↔ Finished.getMseMetric last = 0) :=
  pgmMse_mean_iff Finished.getMseMetric [0, 1] 64 (by decide) (by decide) (by decide) (by decide)

/-- Two keys are one segment, whose line misses the second key by 64 positions, and `*mse` is 0. -/
theorem not_pgmMse_mean : ¬ ∀ (getMse : Finished → ℚ) (keys : List ℤ) (eps : ℕ)
    (cut : List Finished)
    (last : Finished) (metric : ℕ) (mse : ℚ), keys.Pairwise (· < ·) → 1 ≤ keys.length →
      pgmSegments keys eps = some (cut, last) →
      pgmMetricMse getMse keys eps = some (metric, mse) → mse = mean getMse (cut ++ [last]) := by
  intro h
  obtain ⟨last, hlast⟩ : ∃ last : Finished, last =
      ⟨[(0, 0), (1, 1)], ⟨0, 64⟩, ⟨0, 0⟩, ⟨1, 0⟩, ⟨1, 65⟩⟩ := ⟨_, rfl⟩
  have hseg : pgmSegments [0, 1] 64 = some ([], last) := by
    rw [hlast]
    decide +kernel
  have hmse : pgmMetricMse Finished.getMseMetric [0, 1] 64 = some (1, 0) := by decide +kernel
  have hmean := h Finished.getMseMetric [0, 1] 64 [] last 1 0 (by decide) (by decide) hseg hmse
  rw [hlast] at hmean
  exact absurd hmean (by decide +kernel)

end LearnedIndex.Benchmark
