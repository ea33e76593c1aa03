import LearnedIndex.Lib.Tangents

/-! # The dataset metric (`pgm_metric.h`)

`OptimalPiecewiseLinearModel` of `pgm_metric.h` for 64-bit unsigned keys and ranks, and
`PGM_metric`, which counts the segments that it needs for an array of keys.

Differences are taken in `__int128`, which never overflows for 64-bit keys and ranks below `2^33`,
so they are integers here.  The mean squared error and the random generator of the class do not take
part in the count and are left out.  A function returns `none` where the source throws or reads
outside a vector. -/

namespace LearnedIndex.Benchmark

open LearnedIndex.Tangents

/-- `OptimalPiecewiseLinearModel`. -/
structure PiecewiseModel where
  epsilon : ℕ
  lower : List Point
  upper : List Point
  lastX : ℤ
  lowerStart : ℕ
  upperStart : ℕ
  pointsInHull : ℕ
  rectangle0 : Point
  rectangle1 : Point
  rectangle2 : Point
  rectangle3 : Point
deriving DecidableEq

namespace PiecewiseModel

/-- The constructor. -/
def new (epsilon : ℕ) : PiecewiseModel where
  epsilon := epsilon
  lower := []
  upper := []
  lastX := 0
  lowerStart := 0
  upperStart := 0
  pointsInHull := 0
  rectangle0 := ⟨0, 0⟩
  rectangle1 := ⟨0, 0⟩
  rectangle2 := ⟨0, 0⟩
  rectangle3 := ⟨0, 0⟩

/-- `std::numeric_limits<Y>::max()`. -/
def maxY : ℕ := 2 ^ 64 - 1

/-- `y >= max_y - epsilon ? max_y : y + epsilon`. -/
def above (epsilon y : ℕ) : ℕ := if maxY - epsilon ≤ y then maxY else y + epsilon

/-- `y <= min_y + epsilon ? min_y : y - epsilon`. -/
def below (epsilon y : ℕ) : ℕ := if y ≤ epsilon then 0 else y - epsilon

/-- The part of `add_point` that moves the line of the largest slope to an upper point `p1` under
it. -/
def lowerSlope (m : PiecewiseModel) (p1 : Point) : Option PiecewiseModel := do
  let minI ← extreme .lower m.lower m.lowerStart p1
  let point ← m.lower[minI]?
  some { m with
    rectangle1 := point
    rectangle3 := p1
    lowerStart := minI
    upper := pushHull .upper m.upper m.upperStart p1 }

/-- The part of `add_point` that moves the line of the smallest slope to a lower point `p2` above
it. -/
def raiseSlope (m : PiecewiseModel) (p2 : Point) : Option PiecewiseModel := do
  let maxI ← extreme .upper m.upper m.upperStart p2
  let point ← m.upper[maxI]?
  some { m with
    rectangle0 := point
    rectangle2 := p2
    upperStart := maxI
    lower := pushHull .lower m.lower m.lowerStart p2 }

/-- `if (p1 - rectangle[1] < slope2)`. -/
def adjustUpper (m : PiecewiseModel) (slope2 : Slope) (p1 : Point) : Option PiecewiseModel :=
  if (p1.sub m.rectangle1).lt slope2 then m.lowerSlope p1 else some m

/-- `if (p2 - rectangle[0] > slope1)`. -/
def adjustLower (m : PiecewiseModel) (slope1 : Slope) (p2 : Point) : Option PiecewiseModel :=
  if (p2.sub m.rectangle0).gt slope1 then m.raiseSlope p2 else some m

/-- The last part of `add_point`, for a point that fits. -/
def adjust (m : PiecewiseModel) (p1 p2 : Point) : Option PiecewiseModel := do
  let slope1 := m.rectangle2.sub m.rectangle0
  let slope2 := m.rectangle3.sub m.rectangle1
  let m ← m.adjustUpper slope2 p1
  let m ← m.adjustLower slope1 p2
  some { m with pointsInHull := m.pointsInHull + 1 }

def addPoint (m : PiecewiseModel) (x : ℤ) (y : ℕ) : Option (Bool × PiecewiseModel) :=
  if 0 < m.pointsInHull ∧ x ≤ m.lastX then none
  else
    let m := { m with lastX := x }
    let p1 : Point := ⟨x, above m.epsilon y⟩
    let p2 : Point := ⟨x, below m.epsilon y⟩
    if m.pointsInHull = 0 then
      some (true, { m with
        rectangle0 := p1
        rectangle1 := p2
        upper := [p1]
        lower := [p2]
        upperStart := 0
        lowerStart := 0
        pointsInHull := 1 })
    else if m.pointsInHull = 1 then
      some (true, { m with
        rectangle2 := p2
        rectangle3 := p1
        upper := m.upper ++ [p1]
        lower := m.lower ++ [p2]
        pointsInHull := 2 })
    else
      let slope1 := m.rectangle2.sub m.rectangle0
      let slope2 := m.rectangle3.sub m.rectangle1
      let outsideLine1 := (p1.sub m.rectangle2).lt slope1
      let outsideLine2 := (p2.sub m.rectangle3).gt slope2
      if outsideLine1 || outsideLine2 then some (false, { m with pointsInHull := 0 })
      else (m.adjust p1 p2).map (fun m => (true, m))

def reset (m : PiecewiseModel) : PiecewiseModel :=
  { m with pointsInHull := 0, lower := [], upper := [] }

end PiecewiseModel

/-- One iteration of the loop of `PGM_metric`: the model, and whether the segment was cut. -/
def pgmStep (segment : PiecewiseModel) (key : ℤ) (i : ℕ) : Option (PiecewiseModel × Bool) := do
  let (fits, segment) ← segment.addPoint key i
  if fits then some (segment, false)
  else
    let (_, segment) ← segment.reset.addPoint key i
    some (segment, true)

/-- The loop of `PGM_metric` from position `i` on, with the positions at which it cuts. -/
def pgmLoop : List ℤ → ℕ → PiecewiseModel → Option (List ℕ)
  | [], _, _ => some []
  | key :: keys, i, segment => do
      let (segment, cut) ← pgmStep segment key i
      let cuts ← pgmLoop keys (i + 1) segment
      some (if cut then i :: cuts else cuts)

/-- The positions at which `PGM_metric` cuts the sorted keys. -/
def pgmCuts (keys : List ℤ) (errorBound : ℕ) : Option (List ℕ) :=
  pgmLoop (keys.insertionSort (· ≤ ·)) 0 (PiecewiseModel.new errorBound)

/-- `PGM_metric`: one segment, and one more for every cut. -/
def pgmMetric (keys : List ℤ) (errorBound : ℕ) : Option ℕ :=
  (pgmCuts keys errorBound).map (fun cuts => cuts.length + 1)

end LearnedIndex.Benchmark
