import LearnedIndex.Benchmark.PgmHull

/-! # `add_point` decides whether a segment can be extended

`Hull` is the invariant of `OptimalPiecewiseLinearModel` once it holds two points: the rectangle
holds the two extremal lines of the samples added so far, and the chains cover the points of their
sides. `move` is the part of `add_point` that moves the line of one side; the two parts differ in
the side only and are described by one lemma (`move_spec`).  `addPoint_spec` says that `add_point`
succeeds exactly when one line meets all samples and the new one. -/

namespace LearnedIndex.Benchmark

open LearnedIndex.Tangents

namespace PiecewiseModel

def left (m : PiecewiseModel) : Side → Point
  | .lower => m.rectangle1
  | .upper => m.rectangle0

def right (m : PiecewiseModel) : Side → Point
  | .lower => m.rectangle3
  | .upper => m.rectangle2

def pts (m : PiecewiseModel) : Side → List Point
  | .lower => m.lower
  | .upper => m.upper

def start (m : PiecewiseModel) : Side → ℕ
  | .lower => m.lowerStart
  | .upper => m.upperStart

/-- The part of the vector from the start on. -/
def chain (m : PiecewiseModel) (s : Side) : List Point := (m.pts s).drop (m.start s)

/-- The extremal line of the side. -/
noncomputable def line (m : PiecewiseModel) (s : Side) : Line := through (m.left s) (m.right s)

/-- The part of `add_point` for the line of one side. -/
def move (m : PiecewiseModel) (n : Point) : Side → Option PiecewiseModel
  | .lower => m.adjustUpper (m.rectangle3.sub m.rectangle1) n
  | .upper => m.adjustLower (m.rectangle2.sub m.rectangle0) n

/-! ### Moving one line -/

/-- The line of the side `s` now goes from the point at `i` to `n`, and `n` is a new point of the
other chain. -/
structure Turned (m m' : PiecewiseModel) (s : Side) (n : Point) (i : ℕ) : Prop where
  left : (m.pts s)[i]? = some (m'.left s)
  right : m'.right s = n
  chain : m'.chain s = (m.pts s).drop i
  otherLeft : m'.left s.other = m.left s.other
  otherRight : m'.right s.other = m.right s.other
  otherChain : m'.chain s.other =
    (pushHull s.other (m.pts s.other) (m.start s.other) n).drop (m.start s.other)

/-- What the two parts of `add_point` leave alone. -/
def Same (m m' : PiecewiseModel) : Prop :=
  m'.epsilon = m.epsilon ∧ m'.lastX = m.lastX ∧ m'.pointsInHull = m.pointsInHull

theorem move_turned {m : PiecewiseModel} {s : Side} {n c : Point} {i : ℕ}
    (hlt : (m.left s).x < (m.right s).x) (htake : s.lt n.y ((m.line s).eval n.x))
    (hi : extreme s (m.pts s) (m.start s) n = some i) (hc : (m.pts s)[i]? = some c) :
    ∃ m', m.move n s = some m' ∧ Turned m m' s n i ∧ Same m m' := by
  cases s with
  | lower =>
      have htest : (n.sub m.rectangle1).lt (m.rectangle3.sub m.rectangle1) = true :=
        (lt_left_iff hlt).mpr htake
      have hi : extreme .lower m.lower m.lowerStart n = some i := hi
      have hc : m.lower[i]? = some c := hc
      simp only [move, adjustUpper, lowerSlope, htest, if_true, hi, hc, Option.bind_eq_bind,
        Option.bind_some]
      exact ⟨_, rfl, ⟨hc, rfl, rfl, rfl, rfl, rfl⟩, rfl, rfl, rfl⟩
  | upper =>
      have htest : (n.sub m.rectangle0).gt (m.rectangle2.sub m.rectangle0) = true :=
        (gt_left_iff hlt).mpr htake
      have hi : extreme .upper m.upper m.upperStart n = some i := hi
      have hc : m.upper[i]? = some c := hc
      simp only [move, adjustLower, raiseSlope, htest, if_true, hi, hc, Option.bind_eq_bind,
        Option.bind_some]
      exact ⟨_, rfl, ⟨hc, rfl, rfl, rfl, rfl, rfl⟩, rfl, rfl, rfl⟩

theorem move_same {m : PiecewiseModel} {s : Side} {n : Point}
    (hlt : (m.left s).x < (m.right s).x) (htake : ¬ s.lt n.y ((m.line s).eval n.x)) :
    m.move n s = some m := by
  cases s with
  | lower =>
      have htest : ¬ (n.sub m.rectangle1).lt (m.rectangle3.sub m.rectangle1) = true :=
        fun h => htake ((lt_left_iff hlt).mp h)
      unfold move adjustUpper
      rw [if_neg htest]
  | upper =>
      have htest : ¬ (n.sub m.rectangle0).gt (m.rectangle2.sub m.rectangle0) = true :=
        fun h => htake ((gt_left_iff hlt).mp h)
      unfold move adjustLower
      rw [if_neg htest]

/-- What the part for the side `s` does to the lines and chains when the sample `t` is added to the
samples `l`, whose extremal lines are `E`. -/
structure Moved (m m' : PiecewiseModel) (l : List Sample) (t : Sample)
    (E : Side → Line) (s : Side) :
    Prop where
  extremal : Extremal (l ++ [t]) s (m'.left s) (m'.right s)
  slope : s.le (m'.line s).slope (E s).slope
  otherLeft : m'.left s.other = m.left s.other
  otherRight : m'.right s.other = m.right s.other
  chain : IsChain s (l ++ [t]) (m'.left s) (m'.chain s)
  sub : ∀ c ∈ m'.chain s, c ∈ m.chain s
  cover : ∀ g, s.le g.slope (m'.line s).slope → (∀ c ∈ m'.chain s, Clears s g c) →
    ∀ c ∈ m.chain s, Clears s g c
  otherChain : IsChain s.other (l ++ [t]) (m.left s.other) (m'.chain s.other)
  otherCover : Covers s.other (m'.chain s.other) (m.chain s.other)
  otherSub : ∀ c ∈ m'.chain s.other, c ∈ m.chain s.other ∨
    c = t.point s.other ∧ s.lt (t.point s.other).y ((E s).eval t.x)
  covered : ∀ g, Between g E → (∀ u ∈ l, Clears s.other g (u.point s.other)) →
    (∀ c ∈ m'.chain s.other, Clears s.other g c) → Clears s.other g (t.point s.other)
  same : Same m m'

section move
variable {m : PiecewiseModel} {l : List Sample} {t : Sample} {s : Side}
  {p q : Side → Point} {f : Line}

/-- The line of the side `s` cannot stay. -/
theorem moved_of_lt (h : ∀ r, Extremal l r (p r) (q r)) (hleft : LeftOf l t.x)
    (hf : ∀ u ∈ l ++ [t], Meets f u) (hl : m.left s = p s) (hr : m.right s = q s)
    (hchain : IsChain s (l ++ [t]) (p s) (m.chain s))
    (hcov : Covered s (m.chain s) l (fun r => through (p r) (q r)))
    (hbehind : ∀ c ∈ m.chain s, Behind s (t.point s.other) c)
    (hother : IsChain s.other (l ++ [t]) (m.left s.other) (m.chain s.other))
    (hotherx : ∀ c ∈ m.chain s.other, c.x < t.x)
    (htake : s.lt (t.point s.other).y ((through (p s) (q s)).eval t.x)) :
    ∃ m', m.move (t.point s.other) s = some m' ∧
      Moved m m' l t (fun r => through (p r) (q r)) s := by
  have hnx : (t.point s.other).x = t.x := t.point_x _
  have hpx : (p s).x < (t.point s.other).x := by
    obtain ⟨u, hu, hpu⟩ := (h s).left
    rw [hpu, hnx, Sample.point_x]
    exact hleft u hu
  obtain ⟨rest, hrest⟩ := hchain.head
  obtain ⟨i, pre, c', post, hi, hget, hdrop, hsplit, hrising, hturning, hc'x, hclear, -⟩ :=
    extreme_spec (s := s) (p := t.point s.other) hrest hpx (by rw [← hrest]; exact hchain.rising)
      (by rw [← hrest]; exact hchain.turning)
      (fun c hc => hbehind c (by rw [hrest]; exact List.mem_cons_of_mem _ hc))
  have hmem : ∀ c ∈ c' :: post, c ∈ m.chain s := by
    intro c hc
    rw [hrest, hsplit]
    exact List.mem_append_right _ hc
  rw [← hrest] at hclear hsplit
  obtain ⟨hext, hslope⟩ := extremal_turn h hleft hf hchain hcov htake
    (hmem c' (List.mem_cons_self ..)) (by rw [← hnx]; exact hc'x) hclear
  obtain ⟨m', hm', hturn, hsame⟩ := move_turned (m := m) (s := s) (n := t.point s.other)
    (by rw [hl, hr]; exact (h s).lt) (by rw [hnx, line, hl, hr]; exact htake) hi hget
  have hleft' : m'.left s = c' := by
    have := hturn.left
    rw [hget] at this
    exact (Option.some.inj this).symm
  have hline : m'.line s = through c' (t.point s.other) := by
    rw [line, hleft', hturn.right]
  have hchain' : m'.chain s = c' :: post := by rw [hturn.chain, hdrop]
  obtain ⟨rest₂, hrest₂⟩ := hother.head
  obtain ⟨rest', hpush, hrising₂, hturning₂, hnew, hsub₂, hcover₂⟩ :=
    pushHull_spec (s := s.other) (p := t.point s.other) hrest₂
      (by rw [← hrest₂]; exact hother.rising) (by rw [← hrest₂]; exact hother.turning)
      (by rw [← hrest₂, hnx]; exact hotherx)
  rw [← hturn.otherChain] at hpush
  refine ⟨m', hm', ?_⟩
  constructor
  case extremal => rw [hleft', hturn.right]; exact hext
  case slope => rw [hline]; exact hslope
  case otherLeft => exact hturn.otherLeft
  case otherRight => exact hturn.otherRight
  case chain =>
    rw [hleft', hchain']
    exact ⟨⟨post, rfl⟩, hrising, hturning, fun c hc => hchain.points c (hmem c hc)⟩
  case sub => rw [hchain']; exact hmem
  case cover =>
    -- the points before `c'` lie under the new line, which is steeper than `g`
    intro g hg hclears c hc
    rw [hline] at hg
    rw [hchain'] at hclears
    rw [hsplit] at hc
    rcases List.mem_append.mp hc with hc | hc
    · have hcx : (c.x : ℝ) ≤ c'.x := by
        have hrise := hchain.rising
        rw [hsplit] at hrise
        have := (List.pairwise_append.mp hrise).2.2 c hc c' (List.mem_cons_self ..)
        exact_mod_cast this.le
      refine (hclear c (by rw [hsplit]; exact List.mem_append_left _ hc)).trans ?_
      refine Side.le_left hg ?_ hcx
      rw [through_left]
      exact hclears c' (List.mem_cons_self ..)
    · exact hclears c hc
  case otherChain =>
    rw [hpush]
    refine ⟨⟨rest', rfl⟩, hrising₂, hturning₂, fun c hc => ?_⟩
    rcases hsub₂ c hc with hc | rfl
    · exact hother.points c (by rw [hrest₂]; exact hc)
    · exact ⟨t, by simp, rfl⟩
  case otherCover => rw [hpush, hrest₂]; exact hcover₂
  case otherSub =>
    intro c hc
    rw [hpush] at hc
    rcases hsub₂ c hc with hc | rfl
    · exact Or.inl (by rw [hrest₂]; exact hc)
    · exact Or.inr ⟨rfl, htake⟩
  case covered =>
    intro g _ _ hclears
    rw [hpush] at hclears
    exact hclears _ hnew
  case same => exact hsame

/-- The line of the side `s` meets the new sample. -/
theorem moved_of_not_lt (h : ∀ r, Extremal l r (p r) (q r)) (hleft : LeftOf l t.x)
    (hl : m.left s = p s) (hr : m.right s = q s)
    (htest : s.le (t.point s).y ((through (p s) (q s)).eval t.x))
    (hchain : IsChain s (l ++ [t]) (p s) (m.chain s))
    (hother : IsChain s.other (l ++ [t]) (m.left s.other) (m.chain s.other))
    (htake : ¬ s.lt (t.point s.other).y ((through (p s) (q s)).eval t.x)) :
    ∃ m', m.move (t.point s.other) s = some m' ∧
      Moved m m' l t (fun r => through (p r) (q r)) s := by
  have hmove := move_same (m := m) (s := s) (n := t.point s.other)
    (by rw [hl, hr]; exact (h s).lt) (by rw [Sample.point_x, line, hl, hr]; exact htake)
  have hnot := Side.not_lt htake
  refine ⟨m, hmove, ?_⟩
  constructor
  case extremal =>
    rw [hl, hr]
    refine (h s).concat (fun r => ?_)
    rcases Side.eq_or_eq_other r s with rfl | rfl
    · unfold Clears
      rw [Sample.point_x]
      exact htest
    · refine clears_other.mpr ?_
      rw [Sample.point_x]
      exact hnot
  case slope => rw [line, hl, hr]; exact Side.le_of_eq rfl
  case otherLeft => rfl
  case otherRight => rfl
  case chain => rw [hl]; exact hchain
  case sub => exact fun c hc => hc
  case cover => exact fun g _ hg => hg
  case otherChain => exact hother
  case otherCover => exact fun g hg => hg
  case otherSub => exact fun c hc => Or.inl hc
  case covered =>
    -- to the right of `q` a line of no larger slope stays inside the line of the side
    intro g hbetween hg _
    obtain ⟨u, hu, hq⟩ := (h s).right
    refine clears_other.mpr ?_
    rw [Sample.point_x]
    refine ((h s).bound (hbetween s) ?_ ?_).trans hnot
    · rw [hq]
      exact hg u hu
    · rw [hq, Sample.point_x]
      exact_mod_cast (hleft u hu).le
  case same => exact ⟨rfl, rfl, rfl⟩

end move

/-! ### The invariant -/

/-- The model holds the extremal lines of the samples, and its chains cover their points. -/
structure Hull (m : PiecewiseModel) (l : List Sample) : Prop where
  extremal : ∀ s, Extremal l s (m.left s) (m.right s)
  chain : ∀ s, IsChain s l (m.left s) (m.chain s)
  covered : ∀ s, Covered s (m.chain s) l m.line

/-- If every sample allows one value only, then the two lines are the same. -/
theorem eval_eq_of_thin {l : List Sample} {p q : Side → Point}
    (h : ∀ r, Extremal l r (p r) (q r)) (hthin : ∀ u ∈ l, u.lo = u.hi) (x : ℝ) :
    (through (p .lower) (q .lower)).eval x = (through (p .upper) (q .upper)).eval x := by
  have hexact : ∀ r, ∀ u ∈ l, (through (p r) (q r)).eval u.x = u.lo := by
    intro r u hu
    have h1 : (u.lo : ℝ) ≤ (through (p r) (q r)).eval u.x := (h r).meets u hu .lower
    have h2 : (through (p r) (q r)).eval u.x ≤ (u.hi : ℝ) := (h r).meets u hu .upper
    rw [← hthin u hu] at h2
    exact le_antisymm h2 h1
  obtain ⟨a, ha, hpa⟩ := (h .lower).left
  obtain ⟨b, hb, hqb⟩ := (h .lower).right
  have hab : (a.x : ℝ) < b.x := by
    have := (h .lower).lt
    rw [hpa, hqb, Sample.point_x, Sample.point_x] at this
    exact_mod_cast this
  have ha' := (hexact .lower a ha).trans (hexact .upper a ha).symm
  have hb' := (hexact .lower b hb).trans (hexact .upper b hb).symm
  have hslope := le_antisymm (Line.slope_le hab ha'.ge hb'.le) (Line.slope_le hab ha'.le hb'.ge)
  unfold Line.eval at ha' ⊢
  rw [hslope] at ha' ⊢
  linarith

theorem adjust_eq (m : PiecewiseModel) (p1 p2 : Point) :
    m.adjust p1 p2 = (m.move p1 .lower).bind (fun m' =>
      (m'.adjustLower (m.rectangle2.sub m.rectangle0) p2).bind (fun m' =>
        some { m' with pointsInHull := m'.pointsInHull + 1 })) := rfl

/-- The two parts of `add_point` keep the invariant. -/
theorem adjust_hull {m : PiecewiseModel} {l : List Sample} {t : Sample} (h : m.Hull l)
    (hleft : LeftOf l t.x) (hthin : t.lo = t.hi → ∀ u ∈ l, u.lo = u.hi)
    (hfeas : Feasible (l ++ [t])) :
    ∃ m', m.adjust (t.point .upper) (t.point .lower) = some m' ∧ m'.Hull (l ++ [t]) ∧
      m'.epsilon = m.epsilon ∧ m'.lastX = m.lastX ∧ m'.pointsInHull = m.pointsInHull + 1 := by
  have htest := (feasible_concat_iff h.extremal hleft).mp hfeas
  obtain ⟨f, hf⟩ := hfeas
  have hsub : l ⊆ l ++ [t] := List.subset_append_left l [t]
  have hx : ∀ s, ∀ c ∈ m.chain s, c.x < t.x := by
    intro s c hc
    obtain ⟨u, hu, hcu⟩ := (h.chain s).points c hc
    rw [hcu, Sample.point_x]
    exact hleft u hu
  -- the line of the largest slope
  obtain ⟨m₁, hm₁, h₁⟩ : ∃ m', m.move (t.point .upper) .lower = some m' ∧
      Moved m m' l t m.line .lower := by
    by_cases htake : Side.lt .lower (t.point .upper).y ((m.line .lower).eval t.x)
    · refine moved_of_lt (s := .lower) h.extremal hleft hf rfl rfl ((h.chain .lower).mono hsub)
        (h.covered .lower) (fun c hc => Or.inl ?_) ((h.chain .upper).mono hsub) (hx .upper) htake
      rw [Sample.point_x]
      exact hx .lower c hc
    · exact moved_of_not_lt (s := .lower) h.extremal hleft rfl rfl (htest .lower)
        ((h.chain .lower).mono hsub) ((h.chain .upper).mono hsub) htake
  -- the line of the smallest slope
  obtain ⟨m₂, hm₂, h₂⟩ : ∃ m', m₁.move (t.point .lower) .upper = some m' ∧
      Moved m₁ m' l t m.line .upper := by
    have hchain : IsChain .upper (l ++ [t]) (m.left .upper) (m₁.chain .upper) := h₁.otherChain
    by_cases htake : Side.lt .upper (t.point .lower).y ((m.line .upper).eval t.x)
    · refine moved_of_lt (s := .upper) h.extremal hleft hf h₁.otherLeft h₁.otherRight hchain
        (fun g hg hc => h.covered .upper g hg (h₁.otherCover g hc)) (fun c hc => ?_) h₁.chain
        (fun c hc => hx .lower c (h₁.sub c hc)) htake
      rcases h₁.otherSub c hc with hc | ⟨rfl, htake'⟩
      · refine Or.inl ?_
        rw [Sample.point_x]
        exact hx .upper c hc
      · -- both lines move, so the sample allows more than one value
        refine Or.inr ⟨rfl, ?_⟩
        have hne : t.lo ≠ t.hi := by
          intro heq
          have hlo : (m.line .upper).eval t.x < (t.lo : ℝ) := htake
          have hhi : (t.hi : ℝ) < (m.line .lower).eval t.x := htake'
          have := eval_eq_of_thin h.extremal (hthin heq) t.x
          rw [heq] at hlo
          exact absurd (hhi.trans_eq this) (not_lt.mpr hlo.le)
        have hlt : t.lo < t.hi := lt_of_le_of_ne t.le hne
        show (t.lo : ℝ) < t.hi
        exact_mod_cast hlt
    · exact moved_of_not_lt (s := .upper) h.extremal hleft h₁.otherLeft h₁.otherRight (htest .upper)
        hchain h₁.chain htake
  have hadjust : m₁.adjustLower (m.rectangle2.sub m.rectangle0) (t.point .lower) = some m₂ := by
    have hl : m₁.rectangle0 = m.rectangle0 := h₁.otherLeft
    have hr : m₁.rectangle2 = m.rectangle2 := h₁.otherRight
    rw [← hl, ← hr]
    exact hm₂
  refine ⟨{ m₂ with pointsInHull := m₂.pointsInHull + 1 }, ?_, ?_, ?_, ?_, ?_⟩
  · rw [adjust_eq, hm₁, Option.bind_some, hadjust, Option.bind_some]
  · have hl₂ : m₂.left .lower = m₁.left .lower := h₂.otherLeft
    have hr₂ : m₂.right .lower = m₁.right .lower := h₂.otherRight
    have hline : m₂.line .lower = m₁.line .lower := by rw [line, line, hl₂, hr₂]
    have hbetween : ∀ g, Between g m₂.line → Between g m.line := by
      intro g hg s
      cases s with
      | lower =>
          have := hg .lower
          rw [hline] at this
          exact this.trans h₁.slope
      | upper => exact (hg .upper).trans h₂.slope
    have hsplit : ∀ {s : Side} {g : Line}, (∀ u ∈ l, Clears s g (u.point s)) →
        Clears s g (t.point s) → ∀ u ∈ l ++ [t], Clears s g (u.point s) := by
      intro s g hg ht u hu
      rcases List.mem_append.mp hu with hu | hu
      · exact hg u hu
      · rwa [List.mem_singleton.mp hu]
    refine ⟨fun s => ?_, fun s => ?_, fun s => ?_⟩
    · cases s with
      | lower =>
          show Extremal (l ++ [t]) .lower (m₂.left .lower) (m₂.right .lower)
          rw [hl₂, hr₂]
          exact h₁.extremal
      | upper => exact h₂.extremal
    · cases s with
      | lower =>
          show IsChain .lower (l ++ [t]) (m₂.left .lower) (m₂.chain .lower)
          rw [hl₂]
          exact h₂.otherChain
      | upper => exact h₂.chain
    · intro g hg hclears
      have hg : Between g m₂.line := hg
      have hg₀ := hbetween g hg
      cases s with
      | lower =>
          have hslope : Side.le .lower g.slope (m₁.line .lower).slope := by
            rw [← hline]
            exact hg .lower
          have hold := h.covered .lower g hg₀
            (h₁.cover g hslope (h₂.otherCover g hclears))
          exact hsplit hold (h₂.covered g hg₀ hold hclears)
      | upper =>
          have hmid := h₂.cover g (hg .upper) hclears
          have hold := h.covered .upper g hg₀ (h₁.otherCover g hmid)
          exact hsplit hold (h₁.covered g hg₀ hold hmid)
  · exact h₂.same.1.trans h₁.same.1
  · exact h₂.same.2.1.trans h₁.same.2.1
  · show m₂.pointsInHull + 1 = _
    rw [h₂.same.2.2, h₁.same.2.2]

/-! ### `add_point` -/

/-- The model holds the samples of a segment. -/
def Segment (m : PiecewiseModel) (l : List Sample) : Prop :=
  m.pointsInHull = l.length ∧ (l ≠ [] → ∃ t ∈ l, m.lastX = t.x) ∧
    match l with
    | [] => True
    | [a] => ∀ s, m.pts s = [a.point s] ∧ m.start s = 0 ∧ m.left s = a.point s
    | _ => m.Hull l

/-- Two samples have two lines through opposite corners. -/
theorem hull_pair {m : PiecewiseModel} {a b : Sample} (hab : a.x < b.x)
    (hpts : ∀ s, m.pts s = [a.point s, b.point s]) (hstart : ∀ s, m.start s = 0)
    (hleft : ∀ s, m.left s = a.point s) (hright : ∀ s, m.right s = b.point s.other) :
    m.Hull [a, b] := by
  have hchain : ∀ s, m.chain s = [a.point s, b.point s] := by
    intro s
    rw [chain, hpts, hstart, List.drop_zero]
  have hlt : ∀ r s : Side, (a.point r).x < (b.point s).x := by
    intro r s
    rw [Sample.point_x, Sample.point_x]
    exact hab
  refine ⟨fun s => ?_, fun s => ?_, fun s => ?_⟩
  · rw [hleft, hright]
    refine ⟨fun u hu r => ?_, ⟨a, by simp, rfl⟩, ⟨b, by simp, rfl⟩, hlt _ _⟩
    have hcases : u = a ∨ u = b := by simpa using hu
    have hL := through_left (a.point s) (b.point s.other)
    have hR := through_right (hlt s s.other)
    rw [Sample.point_x] at hL hR
    rcases hcases with rfl | rfl
    · unfold Clears
      rw [Sample.point_x, hL]
      rcases Side.eq_or_eq_other r s with rfl | rfl
      · exact Side.le_of_eq rfl
      · exact Side.le_other.mpr (u.point_le s)
    · unfold Clears
      rw [Sample.point_x, hR]
      rcases Side.eq_or_eq_other r s with rfl | rfl
      · exact u.point_le r
      · exact Side.le_of_eq rfl
  · rw [hchain, hleft]
    refine ⟨⟨_, rfl⟩, ?_, trivial, fun q hq => ?_⟩
    · exact List.pairwise_pair.mpr (hlt s s)
    · have hcases : q = a.point s ∨ q = b.point s := by simpa using hq
      rcases hcases with rfl | rfl
      · exact ⟨a, by simp, rfl⟩
      · exact ⟨b, by simp, rfl⟩
  · intro g _ hclears u hu
    rw [hchain] at hclears
    have hcases : u = a ∨ u = b := by simpa using hu
    rcases hcases with rfl | rfl
    · exact hclears _ (by simp)
    · exact hclears _ (by simp)

theorem feasible_singleton (t : Sample) : Feasible [t] := by
  refine ⟨⟨0, t.lo⟩, fun u hu s => ?_⟩
  obtain rfl := List.mem_singleton.mp hu
  have heval : (Line.mk 0 u.lo).eval u.x = u.lo := by
    unfold Line.eval
    ring
  unfold Clears
  rw [Sample.point_x, heval]
  cases s with
  | lower => exact le_refl (u.lo : ℝ)
  | upper =>
      show (u.lo : ℝ) ≤ u.hi
      exact_mod_cast u.le

/-- A single line meets any two samples at different keys. -/
theorem feasible_pair {a b : Sample} (hab : a.x < b.x) : Feasible [a, b] := by
  have h := hull_pair (m := {
      epsilon := 0, lastX := 0, lowerStart := 0, upperStart := 0, pointsInHull := 2
      lower := [a.point .lower, b.point .lower]
      upper := [a.point .upper, b.point .upper]
      rectangle0 := a.point .upper
      rectangle1 := a.point .lower
      rectangle2 := b.point .lower
      rectangle3 := b.point .upper }) hab
    (fun s => by cases s <;> rfl) (fun s => by cases s <;> rfl) (fun s => by cases s <;> rfl)
    (fun s => by cases s <;> rfl)
  exact ⟨_, (h.extremal .lower).meets⟩

/-- The two tests of `add_point`. -/
theorem outside_iff {m : PiecewiseModel} {l : List Sample} {t : Sample} (h : m.Hull l)
    (hleft : LeftOf l t.x) :
    (((t.point .upper).sub m.rectangle2).lt (m.rectangle2.sub m.rectangle0) ||
      ((t.point .lower).sub m.rectangle3).gt (m.rectangle3.sub m.rectangle1)) = true ↔
      ¬ Feasible (l ++ [t]) := by
  have h1 := lt_right_iff (n := t.point .upper) (h.extremal .upper).lt
  have h2 := gt_right_iff (n := t.point .lower) (h.extremal .lower).lt
  rw [Bool.or_eq_true, feasible_concat_iff h.extremal hleft]
  constructor
  · rintro (hout | hout) hall
    · exact absurd (hall .upper) (not_le.mpr (h1.mp hout))
    · exact absurd (hall .lower) (not_le.mpr (h2.mp hout))
  · intro hnot
    by_contra hin
    obtain ⟨hin1, hin2⟩ := not_or.mp hin
    refine hnot (fun s => ?_)
    cases s with
    | lower => exact not_lt.mp (fun hlt => hin2 (h2.mpr hlt))
    | upper => exact not_lt.mp (fun hlt => hin1 (h1.mpr hlt))

/-- `add_point` succeeds exactly when one line meets the samples and the new one. -/
theorem addPoint_spec {m : PiecewiseModel} {l : List Sample} {t : Sample} {y : ℕ}
    (h : m.Segment l) (hleft : LeftOf l t.x) (hlo : t.lo = below m.epsilon y)
    (hhi : t.hi = above m.epsilon y) (hthin : t.lo = t.hi → ∀ u ∈ l, u.lo = u.hi) :
    ∃ fits m', m.addPoint t.x y = some (fits, m') ∧ m'.epsilon = m.epsilon ∧
      (fits = true ↔ Feasible (l ++ [t])) ∧ (fits = true → m'.Segment (l ++ [t])) ∧
      (fits = false → m'.pointsInHull = 0) := by
  obtain ⟨hcount, hlast, hshape⟩ := h
  have hguard : ¬ (0 < m.pointsInHull ∧ t.x ≤ m.lastX) := by
    rintro ⟨hpos, hle⟩
    obtain ⟨u, hu, hux⟩ := hlast (by rintro rfl; rw [hcount] at hpos; cases hpos)
    have := hleft u hu
    omega
  have hp1 : (⟨t.x, above m.epsilon y⟩ : Point) = t.point .upper := by rw [← hhi]; rfl
  have hp2 : (⟨t.x, below m.epsilon y⟩ : Point) = t.point .lower := by rw [← hlo]; rfl
  unfold addPoint
  rw [if_neg hguard]
  simp only [hp1, hp2]
  match l, hcount, hlast, hshape, hleft, hthin with
  | [], hcount, _, _, _, _ =>
      have hcount : m.pointsInHull = 0 := hcount
      rw [if_pos hcount]
      refine ⟨true, _, rfl, rfl, ⟨fun _ => feasible_singleton t, fun _ => rfl⟩,
        fun _ => ?_, by simp⟩
      refine ⟨rfl, fun _ => ⟨t, by simp, rfl⟩, fun s => ?_⟩
      cases s with
      | lower => exact ⟨rfl, rfl, rfl⟩
      | upper => exact ⟨rfl, rfl, rfl⟩
  | [a], hcount, _, hshape, hleft, _ =>
      have hcount : m.pointsInHull = 1 := hcount
      have hax : a.x < t.x := hleft a (by simp)
      rw [if_neg (by omega), if_pos hcount]
      refine ⟨true, _, rfl, rfl, ⟨fun _ => feasible_pair hax, fun _ => rfl⟩, fun _ => ?_, by simp⟩
      refine ⟨rfl, fun _ => ⟨t, by simp, rfl⟩, hull_pair hax ?_ ?_ ?_ ?_⟩
      · intro s
        have hs := (hshape s).1
        cases s with
        | lower =>
            show m.lower ++ _ = _
            rw [show m.lower = _ from hs]
            rfl
        | upper =>
            show m.upper ++ _ = _
            rw [show m.upper = _ from hs]
            rfl
      · intro s
        have hs := (hshape s).2.1
        cases s with
        | lower => exact hs
        | upper => exact hs
      · intro s
        have hs := (hshape s).2.2
        cases s with
        | lower => exact hs
        | upper => exact hs
      · intro s
        cases s with
        | lower => rfl
        | upper => rfl
  | a :: b :: r, hcount, _, hshape, hleft, hthin =>
      have hcount' : m.pointsInHull = r.length + 2 := hcount
      have hull : Hull { m with lastX := t.x } (a :: b :: r) := ⟨hshape.1, hshape.2, hshape.3⟩
      rw [if_neg (by omega), if_neg (by omega)]
      have hout := outside_iff hull hleft
      by_cases hfeas : Feasible (a :: b :: r ++ [t])
      · rw [if_neg (fun hh => hout.mp hh hfeas)]
        obtain ⟨m', hm', hull', heps, hlastX, hpts⟩ := adjust_hull hull hleft hthin hfeas
        rw [hm']
        refine ⟨true, m', rfl, heps, ⟨fun _ => hfeas, fun _ => rfl⟩, fun _ => ?_, by simp⟩
        refine ⟨?_, fun _ => ⟨t, by simp, hlastX⟩, hull'⟩
        rw [hpts, List.length_append]
        exact congrArg (· + 1) hcount
      · rw [if_pos (hout.mpr hfeas)]
        exact ⟨false, _, rfl, rfl, ⟨by simp, fun hh => absurd hh hfeas⟩, by simp, fun _ => rfl⟩

end PiecewiseModel

end LearnedIndex.Benchmark
