import LearnedIndex.Benchmark.PgmMetric

/-! # `add_point` in 128-bit arithmetic

Differences and products of coordinates are computed in `__int128`.  `addPoint128` is `add_point`
with every difference and product checked for overflow; for `uint64_t` keys, ranks and an error
bound below `2^31` no check fails (`addPoint128_eq`), so the exact decision of `addPoint_spec` is
the one of the code.  `addPoint_exact` puts this together for any sequence of points. -/

namespace LearnedIndex.Benchmark

open LearnedIndex.Tangents

/-! ### Checked arithmetic -/

/-- A result in `__int128`; `none` is an overflow. -/
def int128 (z : ℤ) : Option ℤ := if -2 ^ 127 ≤ z ∧ z < 2 ^ 127 then some z else none

/-- `operator-` of points. -/
def sub128 (p q : Point) : Option Slope := do
  let dx ← int128 (p.x - q.x)
  let dy ← int128 (p.y - q.y)
  some ⟨dx, dy⟩

/-- `operator<` of slopes. -/
def lt128 (s p : Slope) : Option Bool := do
  let a ← int128 (s.dy * p.dx)
  let b ← int128 (s.dx * p.dy)
  some (decide (a < b))

/-- `operator>` of slopes. -/
def gt128 (s p : Slope) : Option Bool := do
  let a ← int128 (s.dy * p.dx)
  let b ← int128 (s.dx * p.dy)
  some (decide (a > b))

def cross128 (O A B : Point) : Option ℤ := do
  let OA ← sub128 A O
  let OB ← sub128 B O
  let a ← int128 (OA.dx * OB.dy)
  let b ← int128 (OA.dy * OB.dx)
  int128 (a - b)

def worse128 : Side → Slope → Slope → Option Bool
  | .lower => gt128
  | .upper => lt128

def walk128 (s : Side) (p : Point) : List Point → ℕ → ℕ → Slope → Option ℕ
  | [], _, best, _ => some best
  | q :: rest, i, best, slope => do
      let val ← sub128 q p
      if ← worse128 s val slope then some best else walk128 s p rest (i + 1) i val

def extreme128 (s : Side) (pts : List Point) (start : ℕ) (p : Point) : Option ℕ := do
  let q ← pts[start]?
  let slope ← sub128 q p
  walk128 s p (pts.drop (start + 1)) (start + 1) start slope

def trim128 (s : Side) (pts : List Point) (start : ℕ) (p : Point) : ℕ → Option ℕ
  | 0 => some 0
  | e + 1 =>
      if start + 2 ≤ e + 1 then do
        let a ← pts[e - 1]?
        let b ← pts[e]?
        let z ← cross128 a b p
        if s.pops z then trim128 s pts start p e else some (e + 1)
      else some (e + 1)

def pushHull128 (s : Side) (pts : List Point) (start : ℕ) (p : Point) : Option (List Point) :=
  (trim128 s pts start p pts.length).map (fun e => pts.take e ++ [p])

namespace PiecewiseModel

def lowerSlope128 (m : PiecewiseModel) (p1 : Point) : Option PiecewiseModel := do
  let minI ← extreme128 .lower m.lower m.lowerStart p1
  let point ← m.lower[minI]?
  let upper ← pushHull128 .upper m.upper m.upperStart p1
  some { m with rectangle1 := point, rectangle3 := p1, lowerStart := minI, upper := upper }

def raiseSlope128 (m : PiecewiseModel) (p2 : Point) : Option PiecewiseModel := do
  let maxI ← extreme128 .upper m.upper m.upperStart p2
  let point ← m.upper[maxI]?
  let lower ← pushHull128 .lower m.lower m.lowerStart p2
  some { m with rectangle0 := point, rectangle2 := p2, upperStart := maxI, lower := lower }

/-- The last part of `add_point`, for a point that fits. -/
def adjust128 (m : PiecewiseModel) (p1 p2 : Point) (slope1 slope2 : Slope) :
    Option PiecewiseModel := do
  let toFirst ← sub128 p1 m.rectangle1
  let m ← (if ← lt128 toFirst slope2 then m.lowerSlope128 p1 else some m)
  let toFirst ← sub128 p2 m.rectangle0
  let m ← (if ← gt128 toFirst slope1 then m.raiseSlope128 p2 else some m)
  some { m with pointsInHull := m.pointsInHull + 1 }

/-- `add_point` with checked arithmetic. -/
def addPoint128 (m : PiecewiseModel) (x : ℤ) (y : ℕ) : Option (Bool × PiecewiseModel) :=
  if 0 < m.pointsInHull ∧ x ≤ m.lastX then none
  else
    let m := { m with lastX := x }
    let p1 : Point := ⟨x, above m.epsilon y⟩
    let p2 : Point := ⟨x, below m.epsilon y⟩
    if m.pointsInHull = 0 then
      some (true, { m with
        rectangle0 := p1
        rectangle1 := p2
        upper := [p1]
        lower := [p2]
        upperStart := 0
        lowerStart := 0
        pointsInHull := 1 })
    else if m.pointsInHull = 1 then
      some (true, { m with
        rectangle2 := p2
        rectangle3 := p1
        upper := m.upper ++ [p1]
        lower := m.lower ++ [p2]
        pointsInHull := 2 })
    else do
      let slope1 ← sub128 m.rectangle2 m.rectangle0
      let slope2 ← sub128 m.rectangle3 m.rectangle1
      let toLine1 ← sub128 p1 m.rectangle2
      let outsideLine1 ← lt128 toLine1 slope1
      let toLine2 ← sub128 p2 m.rectangle3
      let outsideLine2 ← gt128 toLine2 slope2
      if outsideLine1 || outsideLine2 then some (false, { m with pointsInHull := 0 })
      else (m.adjust128 p1 p2 slope1 slope2).map (fun m => (true, m))

end PiecewiseModel

/-! ### Nothing overflows -/

/-- A 64-bit key with an end of the range of a small rank. -/
structure Small (p : Point) : Prop where
  x0 : 0 ≤ p.x
  x1 : p.x < 2 ^ 64
  y0 : 0 ≤ p.y
  y1 : p.y < 2 ^ 32

/-- The difference of two such points. -/
structure SmallSlope (s : Slope) : Prop where
  dx : |s.dx| ≤ 2 ^ 64
  dy : |s.dy| ≤ 2 ^ 32

theorem Small.sub {p q : Point} (hp : Small p) (hq : Small q) : SmallSlope (p.sub q) := by
  obtain ⟨hp1, hp2, hp3, hp4⟩ := hp
  obtain ⟨hq1, hq2, hq3, hq4⟩ := hq
  exact ⟨abs_le.mpr ⟨by show -2 ^ 64 ≤ p.x - q.x; omega, by show p.x - q.x ≤ 2 ^ 64; omega⟩,
    abs_le.mpr ⟨by show -2 ^ 32 ≤ p.y - q.y; omega, by show p.y - q.y ≤ 2 ^ 32; omega⟩⟩

theorem int128_of_abs {z : ℤ} (h : |z| ≤ 2 ^ 98) : int128 z = some z := by
  obtain ⟨h1, h2⟩ := abs_le.mp h
  exact if_pos ⟨by omega, by omega⟩

theorem SmallSlope.product {s p : Slope} (hs : SmallSlope s) (hp : SmallSlope p) :
    |s.dy * p.dx| ≤ 2 ^ 96 ∧ |s.dx * p.dy| ≤ 2 ^ 96 := by
  constructor
  · rw [abs_mul]
    calc |s.dy| * |p.dx| ≤ 2 ^ 32 * 2 ^ 64 := mul_le_mul hs.dy hp.dx (abs_nonneg _) (by norm_num)
      _ = 2 ^ 96 := by norm_num
  · rw [abs_mul]
    calc |s.dx| * |p.dy| ≤ 2 ^ 64 * 2 ^ 32 := mul_le_mul hs.dx hp.dy (abs_nonneg _) (by norm_num)
      _ = 2 ^ 96 := by norm_num

theorem sub128_eq {p q : Point} (hp : Small p) (hq : Small q) : sub128 p q = some (p.sub q) := by
  obtain ⟨hdx, hdy⟩ := hp.sub hq
  have h1 : |p.x - q.x| ≤ 2 ^ 64 := hdx
  have h2 : |p.y - q.y| ≤ 2 ^ 32 := hdy
  unfold sub128
  rw [int128_of_abs (by omega), int128_of_abs (by omega)]
  rfl

theorem lt128_eq {s p : Slope} (hs : SmallSlope s) (hp : SmallSlope p) :
    lt128 s p = some (s.lt p) := by
  obtain ⟨h1, h2⟩ := hs.product hp
  unfold lt128
  rw [int128_of_abs (by omega), int128_of_abs (by omega)]
  rfl

theorem gt128_eq {s p : Slope} (hs : SmallSlope s) (hp : SmallSlope p) :
    gt128 s p = some (s.gt p) := by
  obtain ⟨h1, h2⟩ := hs.product hp
  unfold gt128
  rw [int128_of_abs (by omega), int128_of_abs (by omega)]
  rfl

theorem worse128_eq (s : Side) {a b : Slope} (ha : SmallSlope a) (hb : SmallSlope b) :
    worse128 s a b = some (s.worse a b) := by
  cases s with
  | lower => exact gt128_eq ha hb
  | upper => exact lt128_eq ha hb

theorem cross128_eq {O A B : Point} (hO : Small O) (hA : Small A) (hB : Small B) :
    cross128 O A B = some (cross O A B) := by
  obtain ⟨h1, h2⟩ := (hA.sub hO).product (hB.sub hO)
  obtain ⟨h3, h4⟩ := abs_le.mp h1
  obtain ⟨h5, h6⟩ := abs_le.mp h2
  unfold cross128
  rw [sub128_eq hA hO, sub128_eq hB hO]
  simp only [Option.bind_eq_bind, Option.bind_some]
  rw [int128_of_abs (by omega), Option.bind_some, int128_of_abs (by omega), Option.bind_some,
    int128_of_abs (abs_le.mpr ⟨by omega, by omega⟩)]
  rfl

theorem walk128_eq (s : Side) {p : Point} (hp : Small p) : ∀ {rest : List Point} (i best : ℕ)
    {slope : Slope}, (∀ q ∈ rest, Small q) → SmallSlope slope →
    walk128 s p rest i best slope = some (walk s p rest i best slope)
  | [], _, _, _, _, _ => rfl
  | q :: rest, i, best, slope, hrest, hslope => by
      have hq : Small q := hrest q (List.mem_cons_self ..)
      have hsub := hq.sub hp
      unfold walk128 walk
      rw [sub128_eq hq hp, Option.bind_eq_bind, Option.bind_some, worse128_eq s hsub hslope,
        Option.bind_eq_bind, Option.bind_some,
        walk128_eq s hp _ _ (fun a ha => hrest a (List.mem_cons_of_mem q ha)) hsub]
      split
      · rfl
      · rfl

theorem extreme128_eq (s : Side) {pts : List Point} (start : ℕ) {p : Point}
    (hpts : ∀ q ∈ pts, Small q) (hp : Small p) :
    extreme128 s pts start p = extreme s pts start p := by
  unfold extreme128 extreme
  cases hq : pts[start]? with
  | none => rfl
  | some q =>
      have hsmall := hpts q (List.mem_of_getElem? hq)
      rw [Option.bind_eq_bind, Option.bind_some, sub128_eq hsmall hp, Option.bind_eq_bind,
        Option.bind_some, walk128_eq s hp _ _ (fun a ha => hpts a (List.mem_of_mem_drop ha))
          (hsmall.sub hp)]
      rfl

theorem trim128_eq (s : Side) {pts : List Point} (start : ℕ) {p : Point}
    (hpts : ∀ q ∈ pts, Small q) (hp : Small p) : ∀ e ≤ pts.length,
    trim128 s pts start p e = some (trim s pts start p e)
  | 0, _ => rfl
  | e + 1, he => by
      unfold trim128 trim
      by_cases hroom : start + 2 ≤ e + 1
      · rw [if_pos hroom, if_pos hroom]
        have ha : pts[e - 1]? = some (pts.get ⟨e - 1, by omega⟩) := List.getElem?_eq_getElem ..
        have hb : pts[e]? = some (pts.get ⟨e, by omega⟩) := List.getElem?_eq_getElem ..
        generalize pts.get ⟨e - 1, by omega⟩ = a at ha
        generalize pts.get ⟨e, by omega⟩ = b at hb
        simp only [ha, hb, Option.bind_eq_bind, Option.bind_some]
        rw [cross128_eq (hpts a (List.mem_of_getElem? ha)) (hpts b (List.mem_of_getElem? hb)) hp,
          Option.bind_some, trim128_eq s start hpts hp e (by omega)]
        split
        · rfl
        · rfl
      · rw [if_neg hroom, if_neg hroom]

theorem pushHull128_eq (s : Side) {pts : List Point} (start : ℕ) {p : Point}
    (hpts : ∀ q ∈ pts, Small q) (hp : Small p) :
    pushHull128 s pts start p = some (pushHull s pts start p) := by
  unfold pushHull128 pushHull
  rw [trim128_eq s start hpts hp _ le_rfl, Option.map_some]

theorem pushHull_small (s : Side) {pts : List Point} (start : ℕ) {p : Point}
    (hpts : ∀ q ∈ pts, Small q) (hp : Small p) : ∀ q ∈ pushHull s pts start p, Small q := by
  intro q hq
  rcases List.mem_append.mp hq with hq | hq
  · exact hpts q (List.mem_of_mem_take hq)
  · rw [List.mem_singleton.mp hq]
    exact hp

namespace PiecewiseModel

/-- All points that the model holds are small; the far corners of the rectangle are set by the
second point only. -/
structure InRange (m : PiecewiseModel) : Prop where
  lower : ∀ q ∈ m.lower, Small q
  upper : ∀ q ∈ m.upper, Small q
  rectangle0 : Small m.rectangle0
  rectangle1 : Small m.rectangle1
  far : 2 ≤ m.pointsInHull → Small m.rectangle2 ∧ Small m.rectangle3

section adjust
variable {m : PiecewiseModel} {p : Point}

theorem lowerSlope128_eq (h : m.InRange) (hp : Small p) : m.lowerSlope128 p = m.lowerSlope p := by
  unfold lowerSlope128 lowerSlope
  rw [extreme128_eq .lower _ h.lower hp, pushHull128_eq .upper _ h.upper hp]
  rfl

theorem raiseSlope128_eq (h : m.InRange) (hp : Small p) : m.raiseSlope128 p = m.raiseSlope p := by
  unfold raiseSlope128 raiseSlope
  rw [extreme128_eq .upper _ h.upper hp, pushHull128_eq .lower _ h.lower hp]
  rfl

variable {m' : PiecewiseModel}

theorem InRange.lowerSlope (h : m.InRange) (hp : Small p) (h2 : 2 ≤ m.pointsInHull)
    (he : m.lowerSlope p = some m') : m'.InRange ∧ m'.pointsInHull = m.pointsInHull := by
  unfold PiecewiseModel.lowerSlope at he
  obtain ⟨i, -, he⟩ := Option.bind_eq_some_iff.mp he
  obtain ⟨q, hq, he⟩ := Option.bind_eq_some_iff.mp he
  obtain rfl := Option.some.inj he
  exact ⟨⟨h.lower, pushHull_small .upper _ h.upper hp, h.rectangle0,
    h.lower q (List.mem_of_getElem? hq), fun _ => ⟨(h.far h2).1, hp⟩⟩, rfl⟩

theorem InRange.raiseSlope (h : m.InRange) (hp : Small p) (h2 : 2 ≤ m.pointsInHull)
    (he : m.raiseSlope p = some m') : m'.InRange ∧ m'.pointsInHull = m.pointsInHull := by
  unfold PiecewiseModel.raiseSlope at he
  obtain ⟨i, -, he⟩ := Option.bind_eq_some_iff.mp he
  obtain ⟨q, hq, he⟩ := Option.bind_eq_some_iff.mp he
  obtain rfl := Option.some.inj he
  exact ⟨⟨pushHull_small .lower _ h.lower hp, h.upper, h.upper q (List.mem_of_getElem? hq),
    h.rectangle1, fun _ => ⟨hp, (h.far h2).2⟩⟩, rfl⟩

theorem InRange.adjustUpper (h : m.InRange) (hp : Small p) (h2 : 2 ≤ m.pointsInHull) {slope : Slope}
    (he : m.adjustUpper slope p = some m') : m'.InRange ∧ m'.pointsInHull = m.pointsInHull := by
  unfold PiecewiseModel.adjustUpper at he
  split at he
  · exact h.lowerSlope hp h2 he
  · obtain rfl := Option.some.inj he
    exact ⟨h, rfl⟩

theorem InRange.adjustLower (h : m.InRange) (hp : Small p) (h2 : 2 ≤ m.pointsInHull) {slope : Slope}
    (he : m.adjustLower slope p = some m') : m'.InRange ∧ m'.pointsInHull = m.pointsInHull := by
  unfold PiecewiseModel.adjustLower at he
  split at he
  · exact h.raiseSlope hp h2 he
  · obtain rfl := Option.some.inj he
    exact ⟨h, rfl⟩

theorem adjust128_eq (h : m.InRange) (h2 : 2 ≤ m.pointsInHull) {p1 p2 : Point} (hp1 : Small p1)
    (hp2 : Small p2) : m.adjust128 p1 p2 (m.rectangle2.sub m.rectangle0)
      (m.rectangle3.sub m.rectangle1) = m.adjust p1 p2 := by
  obtain ⟨hfar2, hfar3⟩ := h.far h2
  have hslope1 := hfar2.sub h.rectangle0
  have hslope2 := hfar3.sub h.rectangle1
  have hupper : (if (p1.sub m.rectangle1).lt (m.rectangle3.sub m.rectangle1) then m.lowerSlope128 p1
      else some m) = m.adjustUpper (m.rectangle3.sub m.rectangle1) p1 := by
    unfold PiecewiseModel.adjustUpper
    rw [lowerSlope128_eq h hp1]
  unfold adjust128 PiecewiseModel.adjust
  rw [sub128_eq hp1 h.rectangle1, Option.bind_eq_bind, Option.bind_some,
    lt128_eq (hp1.sub h.rectangle1) hslope2, Option.bind_eq_bind, Option.bind_some, hupper]
  refine Option.bind_congr (fun m₁ hm₁ => ?_)
  obtain ⟨h₁, -⟩ := h.adjustUpper hp1 h2 hm₁
  rw [sub128_eq hp2 h₁.rectangle0, Option.bind_some, gt128_eq (hp2.sub h₁.rectangle0) hslope1,
    Option.bind_some, raiseSlope128_eq h₁ hp2]
  rfl

theorem InRange.adjust (h : m.InRange) (h2 : 2 ≤ m.pointsInHull) {p1 p2 : Point} (hp1 : Small p1)
    (hp2 : Small p2) (he : m.adjust p1 p2 = some m') : m'.InRange := by
  unfold PiecewiseModel.adjust at he
  obtain ⟨m₁, hm₁, he⟩ := Option.bind_eq_some_iff.mp he
  obtain ⟨m₂, hm₂, he⟩ := Option.bind_eq_some_iff.mp he
  obtain rfl := Option.some.inj he
  obtain ⟨h₁, hcount₁⟩ := h.adjustUpper hp1 h2 hm₁
  obtain ⟨h₂, hcount₂⟩ := h₁.adjustLower hp2 (by omega) hm₂
  exact ⟨h₂.lower, h₂.upper, h₂.rectangle0, h₂.rectangle1, fun _ => h₂.far (by omega)⟩

end adjust

/-- A rank below `2^31` gives small points. -/
theorem small_ends {x : ℤ} {y eps : ℕ} (hx0 : 0 ≤ x) (hx1 : x < 2 ^ 64) (hy : y < 2 ^ 31)
    (heps : eps < 2 ^ 31) : Small ⟨x, above eps y⟩ ∧ Small ⟨x, below eps y⟩ := by
  have habove : above eps y = y + eps := by
    unfold above maxY
    rw [if_neg (by omega)]
  have hbelow : below eps y ≤ y := by
    unfold below
    split <;> omega
  refine ⟨⟨hx0, hx1, Int.natCast_nonneg _, ?_⟩, hx0, hx1, Int.natCast_nonneg _, ?_⟩
  · show ((above eps y : ℕ) : ℤ) < 2 ^ 32
    omega
  · show ((below eps y : ℕ) : ℤ) < 2 ^ 32
    omega

/-- No difference or product overflows. -/
theorem addPoint128_eq {m : PiecewiseModel} (h : m.pointsInHull ≠ 0 → m.InRange) {x : ℤ} {y : ℕ}
    (hx0 : 0 ≤ x) (hx1 : x < 2 ^ 64) (hy : y < 2 ^ 31) (heps : m.epsilon < 2 ^ 31) :
    m.addPoint128 x y = m.addPoint x y := by
  obtain ⟨hp1, hp2⟩ := small_ends hx0 hx1 hy heps
  unfold addPoint128 addPoint
  by_cases hguard : 0 < m.pointsInHull ∧ x ≤ m.lastX
  · rw [if_pos hguard, if_pos hguard]
  · rw [if_neg hguard, if_neg hguard]
    dsimp only
    by_cases h0 : m.pointsInHull = 0
    · rw [if_pos h0, if_pos h0]
    · rw [if_neg h0, if_neg h0]
      by_cases h1 : m.pointsInHull = 1
      · rw [if_pos h1, if_pos h1]
      · rw [if_neg h1, if_neg h1]
        have hin := h h0
        have h2 : 2 ≤ m.pointsInHull := by omega
        obtain ⟨hfar2, hfar3⟩ := hin.far h2
        rw [sub128_eq hfar2 hin.rectangle0, sub128_eq hfar3 hin.rectangle1, sub128_eq hp1 hfar2,
          sub128_eq hp2 hfar3]
        simp only [Option.bind_eq_bind, Option.bind_some]
        rw [lt128_eq (hp1.sub hfar2) (hfar2.sub hin.rectangle0), Option.bind_some,
          gt128_eq (hp2.sub hfar3) (hfar3.sub hin.rectangle1), Option.bind_some]
        have hadjust := adjust128_eq (m := { m with lastX := x })
          ⟨hin.lower, hin.upper, hin.rectangle0, hin.rectangle1, hin.far⟩ h2 hp1 hp2
        rw [hadjust]

theorem addPoint_inRange {m m' : PiecewiseModel} (h : m.pointsInHull ≠ 0 → m.InRange) {x : ℤ}
    {y : ℕ} (hx0 : 0 ≤ x) (hx1 : x < 2 ^ 64) (hy : y < 2 ^ 31) (heps : m.epsilon < 2 ^ 31)
    {fits : Bool} (he : m.addPoint x y = some (fits, m')) : m'.pointsInHull ≠ 0 → m'.InRange := by
  obtain ⟨hp1, hp2⟩ := small_ends hx0 hx1 hy heps
  intro hcount
  unfold addPoint at he
  split at he
  · cases he
  · dsimp only at he
    split at he
    · obtain ⟨-, rfl⟩ := Prod.mk.inj (Option.some.inj he)
      exact ⟨by simpa using hp2, by simpa using hp1, hp1, hp2, fun h2 => absurd h2
        (show ¬ 2 ≤ 1 by decide)⟩
    · have hin := h ‹_›
      split at he
      · obtain ⟨-, rfl⟩ := Prod.mk.inj (Option.some.inj he)
        refine ⟨fun q hq => ?_, fun q hq => ?_, hin.rectangle0, hin.rectangle1, fun _ => ⟨hp2, hp1⟩⟩
        · rcases List.mem_append.mp hq with hq | hq
          · exact hin.lower q hq
          · rw [List.mem_singleton.mp hq]
            exact hp2
        · rcases List.mem_append.mp hq with hq | hq
          · exact hin.upper q hq
          · rw [List.mem_singleton.mp hq]
            exact hp1
      · split at he
        · obtain ⟨-, rfl⟩ := Prod.mk.inj (Option.some.inj he)
          exact absurd rfl hcount
        · obtain ⟨m₁, hm₁, he⟩ := Option.map_eq_some_iff.mp he
          obtain ⟨-, rfl⟩ := Prod.mk.inj he
          refine InRange.adjust (m := { m with lastX := x })
            ⟨hin.lower, hin.upper, hin.rectangle0, hin.rectangle1, hin.far⟩ ?_ hp1 hp2 hm₁
          show 2 ≤ m.pointsInHull
          omega

/-! ### The starts of the hulls -/

/-- `lower_start` and `upper_start` are indices of the vectors. -/
def StartsValid (m : PiecewiseModel) : Prop := ∀ s, m.start s < (m.pts s).length

theorem Segment.startsValid {m : PiecewiseModel} {l : List Sample} (h : m.Segment l)
    (hne : l ≠ []) :
    m.StartsValid := by
  obtain ⟨-, -, hshape⟩ := h
  intro s
  match l, hne, hshape with
  | [a], _, hshape =>
      obtain ⟨hpts, hstart, -⟩ := hshape s
      rw [hpts, hstart]
      exact Nat.one_pos
  | a :: b :: r, _, hshape =>
      obtain ⟨rest, hrest⟩ := (hshape.chain s).head
      by_contra hge
      have hnil : m.chain s = [] := List.drop_eq_nil_of_le (not_lt.mp hge)
      rw [hnil] at hrest
      cases hrest

/-- A refused point leaves the vectors alone. -/
theorem addPoint_refused {m m' : PiecewiseModel} {x : ℤ} {y : ℕ}
    (he : m.addPoint x y = some (false, m')) (h : m.StartsValid) : m'.StartsValid := by
  unfold addPoint at he
  split at he
  · cases he
  · dsimp only at he
    split at he
    · cases he
    · split at he
      · cases he
      · split at he
        · obtain ⟨-, rfl⟩ := Prod.mk.inj (Option.some.inj he)
          intro s
          have hs := h s
          cases s with
          | lower => exact hs
          | upper => exact hs
        · obtain ⟨m₁, -, he⟩ := Option.map_eq_some_iff.mp he
          cases he

end PiecewiseModel

/-! ### Sequences of points -/

/-- Some real line is within the error bound of the rank, and not below zero, at every point. -/
def FitsAll (eps : ℕ) (points : List (ℤ × ℕ)) : Prop :=
  ∃ f : Line, ∀ p ∈ points, max 0 ((p.2 : ℝ) - eps) ≤ f.eval p.1 ∧ f.eval p.1 ≤ p.2 + eps

/-- Increasing 64-bit keys with small ranks. -/
structure Feedable (points : List (ℤ × ℕ)) : Prop where
  increasing : points.Pairwise (fun p q => p.1 < q.1)
  key : ∀ p ∈ points, 0 ≤ p.1 ∧ p.1 < 2 ^ 64
  rank : ∀ p ∈ points, p.2 < 2 ^ 31

def samples (eps : ℕ) (points : List (ℤ × ℕ)) : List Sample :=
  points.map (fun p => sample eps p.2 p.1)

theorem feasible_samples_iff {eps : ℕ} {points : List (ℤ × ℕ)} :
    Feasible (samples eps points) ↔ FitsAll eps points := by
  unfold Feasible FitsAll samples
  refine exists_congr (fun f => ?_)
  rw [List.forall_mem_map]
  exact forall₂_congr (fun p _ => meets_sample_iff)

namespace PiecewiseModel

/-- Feed points until one is refused. -/
def feed (m : PiecewiseModel) : List (ℤ × ℕ) → Option (Bool × PiecewiseModel)
  | [] => some (true, m)
  | (x, y) :: rest => do
      let (fits, m) ← m.addPoint128 x y
      if fits then feed m rest else some (false, m)

/-- The model after some points that fit. -/
structure Fed (m : PiecewiseModel) (eps : ℕ) (points : List (ℤ × ℕ)) : Prop where
  epsilon : m.epsilon = eps
  segment : m.Segment (samples eps points)
  inRange : m.pointsInHull ≠ 0 → m.InRange

/-- One more point. -/
theorem Fed.addPoint {m : PiecewiseModel} {eps : ℕ} {points : List (ℤ × ℕ)} (h : m.Fed eps points)
    (heps : eps < 2 ^ 31) {x : ℤ} {y : ℕ} (hpoints : Feedable (points ++ [(x, y)])) :
    ∃ fits m', m.addPoint128 x y = some (fits, m') ∧ m'.StartsValid ∧
      (fits = true ↔ FitsAll eps (points ++ [(x, y)])) ∧
      (fits = true → m'.Fed eps (points ++ [(x, y)])) := by
  have hmem : (x, y) ∈ points ++ [(x, y)] := by simp
  obtain ⟨hx0, hx1⟩ := hpoints.key _ hmem
  have hy := hpoints.rank _ hmem
  have hm := h.epsilon
  have hchecked := addPoint128_eq h.inRange hx0 hx1 hy (hm ▸ heps)
  have hleft : LeftOf (samples eps points) (sample eps y x).x := by
    intro t ht
    obtain ⟨p, hp, rfl⟩ := List.mem_map.mp ht
    exact (List.pairwise_append.mp hpoints.increasing).2.2 p hp (x, y) (by simp)
  have hthin : (sample eps y x).lo = (sample eps y x).hi → ∀ u ∈ samples eps points,
    u.lo = u.hi := by
    intro heq u hu
    obtain ⟨p, -, rfl⟩ := List.mem_map.mp hu
    unfold sample at heq ⊢
    simp only at heq ⊢
    omega
  obtain ⟨fits, m', hadd, heps', hfits, hseg, -⟩ := addPoint_spec h.segment hleft
    (y := y) (by rw [hm, sample_below]) (by rw [hm, sample_above (by unfold maxY; omega)]) hthin
  have hsamples : samples eps points ++ [sample eps y x] = samples eps (points ++ [(x, y)]) := by
    unfold samples
    rw [List.map_append]
    rfl
  rw [hsamples] at hfits hseg
  have hadd' : m.addPoint x y = some (fits, m') := hadd
  refine ⟨fits, m', hchecked.trans hadd', ?_, hfits.trans feasible_samples_iff, fun htrue =>
    ⟨heps'.trans hm, hseg htrue, addPoint_inRange h.inRange hx0 hx1 hy (hm ▸ heps) hadd'⟩⟩
  cases fits with
  | true => exact (hseg rfl).startsValid (by simp [samples])
  | false =>
      -- the first point is never refused
      have hne : samples eps points ≠ [] := by
        intro hnil
        have hsingle : samples eps (points ++ [(x, y)]) = [sample eps y x] := by
          rw [← hsamples, hnil]
          rfl
        rw [hsingle] at hfits
        exact absurd (hfits.mpr (feasible_singleton _)) (by simp)
      exact addPoint_refused hadd' (h.segment.startsValid hne)

/-- Feeding never fails, and it stops exactly when no line fits.  The induction is over the points
that are left. -/
theorem Fed.feed {eps : ℕ} (heps : eps < 2 ^ 31) : ∀ {rest points : List (ℤ × ℕ)}
    {m : PiecewiseModel}, m.Fed eps points → FitsAll eps points → (points ≠ [] → m.StartsValid) →
    Feedable (points ++ rest) →
    ∃ fits m', m.feed rest = some (fits, m') ∧ (points ++ rest ≠ [] → m'.StartsValid) ∧
      (fits = true ↔ FitsAll eps (points ++ rest)) ∧ (fits = true → m'.Fed eps (points ++ rest))
  | [], points, m, h, hfits, hvalid, _ => by
      rw [List.append_nil]
      exact ⟨true, m, rfl, hvalid, ⟨fun _ => hfits, fun _ => rfl⟩, fun _ => h⟩
  | (x, y) :: rest, points, m, h, hfits, _, hpoints => by
      have hsplit : points ++ (x, y) :: rest = (points ++ [(x, y)]) ++ rest := by simp
      rw [hsplit] at hpoints ⊢
      have hfirst : Feedable (points ++ [(x, y)]) :=
        ⟨(List.pairwise_append.mp hpoints.increasing).1,
          fun p hp => hpoints.key p (List.mem_append_left _ hp),
          fun p hp => hpoints.rank p (List.mem_append_left _ hp)⟩
      obtain ⟨fits, m₁, hadd, hvalid, hiff, hfed⟩ := h.addPoint heps hfirst
      unfold PiecewiseModel.feed
      rw [hadd, Option.bind_eq_bind, Option.bind_some]
      cases fits with
      | true => exact (hfed rfl).feed heps (hiff.mp rfl) (fun _ => hvalid) hpoints
      | false =>
          refine ⟨false, m₁, rfl, fun _ => hvalid, ⟨by simp, fun hall => ?_⟩, by simp⟩
          obtain ⟨f, hf⟩ := hall
          exact hiff.mpr ⟨f, fun p hp => hf p (List.mem_append_left _ hp)⟩

/-- **`add_point` decides feasibility exactly**: fed to a new or reset model, points are accepted as
long as some real line fits them all, the next point is accepted exactly if some real line fits it
too, no 128-bit operation overflows, and the starts stay indices of the hulls. -/
theorem addPoint_exact {m : PiecewiseModel} {eps : ℕ}
    (hstart : m = new eps ∨ ∃ m₀ : PiecewiseModel, m₀.epsilon = eps ∧ m = m₀.reset)
    (heps : eps < 2 ^ 31) {points : List (ℤ × ℕ)} {x : ℤ} {y : ℕ}
    (hpoints : Feedable (points ++ [(x, y)])) :
    ∃ fits m₁, m.feed points = some (fits, m₁) ∧ (points ≠ [] → m₁.StartsValid) ∧
      (fits = true ↔ FitsAll eps points) ∧
      (fits = true → ∃ next m₂, m₁.addPoint128 x y = some (next, m₂) ∧ m₂.StartsValid ∧
        (next = true ↔ FitsAll eps (points ++ [(x, y)]))) := by
  have hempty : m.epsilon = eps ∧ m.pointsInHull = 0 := by
    rcases hstart with rfl | ⟨m₀, rfl, rfl⟩
    · exact ⟨rfl, rfl⟩
    · exact ⟨rfl, rfl⟩
  have hfed : m.Fed eps [] :=
    ⟨hempty.1, ⟨hempty.2, fun h => absurd rfl h, trivial⟩, fun h => absurd hempty.2 h⟩
  have hnone : FitsAll eps [] := ⟨⟨0, 0⟩, fun p hp => by cases hp⟩
  have hfirst : Feedable points :=
    ⟨(List.pairwise_append.mp hpoints.increasing).1,
      fun p hp => hpoints.key p (List.mem_append_left _ hp),
      fun p hp => hpoints.rank p (List.mem_append_left _ hp)⟩
  obtain ⟨fits, m₁, hfeed, hvalid, hiff, hfed₁⟩ :=
    hfed.feed heps hnone (fun h => absurd rfl h) hfirst
  refine ⟨fits, m₁, hfeed, hvalid, hiff, fun htrue => ?_⟩
  obtain ⟨next, m₂, hadd, hvalid₂, hnext, -⟩ := (hfed₁ htrue).addPoint heps hpoints
  exact ⟨next, m₂, hadd, hvalid₂, hnext⟩

/-- Two ranks are on a line with any other, the third is not. -/
theorem addPoint_exact_three : ∃ fits m₁, (new 0).feed [(0, 0), (1, 1)] = some (fits, m₁) ∧
    (([(0, 0), (1, 1)] : List (ℤ × ℕ)) ≠ [] → m₁.StartsValid) ∧
    (fits = true ↔ FitsAll 0 [(0, 0), (1, 1)]) ∧
    (fits = true → ∃ next m₂, m₁.addPoint128 2 5 = some (next, m₂) ∧ m₂.StartsValid ∧
      (next = true ↔ FitsAll 0 [(0, 0), (1, 1), (2, 5)])) :=
  addPoint_exact (Or.inl rfl) (by norm_num) ⟨by decide, by decide, by decide⟩

end PiecewiseModel

end LearnedIndex.Benchmark
