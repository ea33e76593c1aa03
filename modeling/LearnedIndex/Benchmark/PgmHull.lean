import LearnedIndex.Benchmark.PgmModel

/-! # The feasible lines of a segment

A sample asks of a line that its value at `x` lies between `lo` and `hi`.
`OptimalPiecewiseLinearModel` keeps two lines that meet all samples so far, one of the largest and
one of the smallest slope, each through a lower and an upper point (`Extremal`), and for each side a
chain of points that stands for all points of that side: a line whose slope lies between the two
slopes and that clears the chain clears them all (`Covered`).

`feasible_concat_iff` is the test of `add_point`: another sample can be met exactly when its points
are on the right side of the two lines.  The rest of the module shows that the changes to the lines
and chains keep the invariant `Hull`.  Both sides are treated by the same lemmas. -/

namespace LearnedIndex.Benchmark

open LearnedIndex.Tangents

/-- A key with the range of its position. -/
structure Sample where
  x : ℤ
  lo : ℤ
  hi : ℤ
  le : lo ≤ hi

namespace Sample

def point (t : Sample) : Side → Point
  | .lower => ⟨t.x, t.lo⟩
  | .upper => ⟨t.x, t.hi⟩

@[simp] theorem point_x (t : Sample) (s : Side) : (t.point s).x = t.x := by cases s <;> rfl

/-- The two points of a sample are in the order of the side. -/
theorem point_le (t : Sample) (s : Side) : s.le (t.point s).y (t.point s.other).y := by
  have h : (t.lo : ℝ) ≤ t.hi := by exact_mod_cast t.le
  cases s <;> exact h

end Sample

/-- The line meets the sample. -/
def Meets (g : Line) (t : Sample) : Prop := ∀ s, Clears s g (t.point s)

def Feasible (l : List Sample) : Prop := ∃ g, ∀ t ∈ l, Meets g t

/-- The line through `p` and `q` meets all samples and is the steepest for the side: it touches a
point of the side first and then a point of the other side. -/
structure Extremal (l : List Sample) (s : Side) (p q : Point) : Prop where
  meets : ∀ t ∈ l, Meets (through p q) t
  left : ∃ t ∈ l, p = t.point s
  right : ∃ t ∈ l, q = t.point s.other
  lt : p.x < q.x

/-- What `clears_other` says in the order of the side. -/
theorem clears_other {s : Side} {g : Line} {q : Point} :
    Clears s.other g q ↔ s.le (g.eval q.x) q.y := Side.le_other

section extremal
variable {l : List Sample} {s : Side} {p q : Point} {g : Line}

theorem Extremal.slope_le (h : Extremal l s p q) (hg : ∀ t ∈ l, Meets g t) :
    s.le g.slope (through p q).slope := by
  obtain ⟨t, ht, hp⟩ := h.left
  obtain ⟨u, hu, hq⟩ := h.right
  have hlt : (p.x : ℝ) < q.x := by exact_mod_cast h.lt
  refine Side.slope_le hlt ?_ ?_
  · rw [through_left]
    have := hg t ht s
    rwa [← hp] at this
  · rw [through_right h.lt]
    have := clears_other.mp (hg u hu s.other)
    rwa [← hq] at this

/-- To the right of its second point an extremal line bounds all lines of no larger slope that clear
that point. -/
theorem Extremal.bound (h : Extremal l s p q) (hslope : s.le g.slope (through p q).slope)
    (hq : Clears s.other g q) {w : ℝ} (hw : (q.x : ℝ) ≤ w) :
    s.le (g.eval w) ((through p q).eval w) := by
  refine Side.le_right hslope ?_ hw
  rw [through_right h.lt]
  exact clears_other.mp hq

end extremal

/-- The samples lie to the left of `x`. -/
def LeftOf (l : List Sample) (x : ℤ) : Prop := ∀ t ∈ l, t.x < x

/-- Another sample can be met exactly when it is on the right side of both extremal lines. -/
theorem feasible_concat_iff {l : List Sample} {p q : Side → Point} {t : Sample}
    (h : ∀ s, Extremal l s (p s) (q s)) (hleft : LeftOf l t.x) :
    Feasible (l ++ [t]) ↔ ∀ s : Side, s.le (t.point s).y ((through (p s) (q s)).eval t.x) := by
  have hright : ∀ s, ((q s).x : ℝ) ≤ t.x := by
    intro s
    obtain ⟨u, hu, hq⟩ := (h s).right
    have := hleft u hu
    rw [hq, Sample.point_x]
    exact_mod_cast this.le
  constructor
  · rintro ⟨g, hg⟩ s
    have hgl : ∀ u ∈ l, Meets g u := fun u hu => hg u (List.mem_append_left _ hu)
    obtain ⟨u, hu, hq⟩ := (h s).right
    have hgt : Clears s g (t.point s) := hg t (by simp) s
    unfold Clears at hgt
    rw [Sample.point_x] at hgt
    refine hgt.trans ((h s).bound ((h s).slope_le hgl) ?_ (hright s))
    rw [hq]
    exact hgl u hu s.other
  · intro htest
    -- between the two lines every value at `t.x` is taken
    obtain ⟨e₁, he₁⟩ : ∃ e, e = (through (p .upper) (q .upper)).eval t.x := ⟨_, rfl⟩
    obtain ⟨e₂, he₂⟩ : ∃ e, e = (through (p .lower) (q .lower)).eval t.x := ⟨_, rfl⟩
    have hlo : (t.lo : ℝ) ≤ e₂ := he₂ ▸ htest .lower
    have hhi : e₁ ≤ (t.hi : ℝ) := he₁ ▸ htest .upper
    have hle : (t.lo : ℝ) ≤ t.hi := by exact_mod_cast t.le
    have h12 : e₁ ≤ e₂ := by
      rw [he₁, he₂]
      obtain ⟨u, hu, hq⟩ := (h .lower).right
      refine (h .lower).bound ((h .lower).slope_le (h .upper).meets) ?_ (hright .lower)
      rw [hq]
      exact (h .upper).meets u hu _
    obtain ⟨v, hv1, hv2, hv3, hv4⟩ : ∃ v, e₁ ≤ v ∧ v ≤ e₂ ∧ (t.lo : ℝ) ≤ v ∧ v ≤ t.hi :=
      ⟨max e₁ t.lo, le_max_left _ _, max_le h12 hlo, le_max_right _ _, max_le hhi hle⟩
    obtain ⟨r, hr0, hr1, hr⟩ : ∃ r : ℝ, 0 ≤ r ∧ r ≤ 1 ∧ (1 - r) * e₁ + r * e₂ = v := by
      rcases eq_or_lt_of_le h12 with heq | hlt
      · exact ⟨0, le_rfl, zero_le_one, by linarith⟩
      · refine ⟨(v - e₁) / (e₂ - e₁), div_nonneg (by linarith) (by linarith),
          (div_le_one (by linarith)).mpr (by linarith), ?_⟩
        field_simp
        ring
    refine ⟨Line.mix r (through (p .upper) (q .upper)) (through (p .lower) (q .lower)),
      fun u hu s => ?_⟩
    unfold Clears
    rcases List.mem_append.mp hu with hu | hu
    · have h1 := (h .upper).meets u hu s
      have h2 := (h .lower).meets u hu s
      unfold Clears at h1 h2
      rw [Line.eval_mix]
      cases s with
      | lower =>
          have h1 : ((u.point .lower).y : ℝ) ≤ _ := h1
          have h2 : ((u.point .lower).y : ℝ) ≤ _ := h2
          show ((u.point .lower).y : ℝ) ≤ _
          nlinarith
      | upper =>
          have h1 : _ ≤ ((u.point .upper).y : ℝ) := h1
          have h2 : _ ≤ ((u.point .upper).y : ℝ) := h2
          show _ ≤ ((u.point .upper).y : ℝ)
          nlinarith
    · obtain rfl := List.mem_singleton.mp hu
      rw [Sample.point_x, Line.eval_mix, ← he₁, ← he₂, hr]
      cases s with
      | lower => exact hv3
      | upper => exact hv4

/-! ### The chains of the two sides -/

/-- The chain consists of points of the side and starts with `p`. -/
structure IsChain (s : Side) (l : List Sample) (p : Point) (chain : List Point) : Prop where
  head : ∃ rest, chain = p :: rest
  rising : Rising chain
  turning : Turning s chain
  points : ∀ q ∈ chain, ∃ t ∈ l, q = t.point s

/-- The slope lies between those of the two lines. -/
def Between (g : Line) (E : Side → Line) : Prop := ∀ r : Side, r.le g.slope (E r).slope

/-- A line of a slope between those of the two lines that clears the chain clears all points of the
side. -/
def Covered (s : Side) (chain : List Point) (l : List Sample) (E : Side → Line) : Prop :=
  ∀ g, Between g E → (∀ c ∈ chain, Clears s g c) → ∀ t ∈ l, Clears s g (t.point s)

theorem IsChain.mono {s : Side} {l l' : List Sample} {p : Point} {chain : List Point}
    (h : IsChain s l p chain) (hsub : l ⊆ l') : IsChain s l' p chain where
  head := h.head
  rising := h.rising
  turning := h.turning
  points := fun q hq => by
    obtain ⟨t, ht, hqt⟩ := h.points q hq
    exact ⟨t, hsub ht, hqt⟩

/-- An extremal line that the new sample does not push stays extremal. -/
theorem Extremal.concat {l : List Sample} {s : Side} {p q : Point} {t : Sample}
    (h : Extremal l s p q) (ht : Meets (through p q) t) : Extremal (l ++ [t]) s p q where
  meets := fun u hu => by
    rcases List.mem_append.mp hu with hu | hu
    · exact h.meets u hu
    · rwa [List.mem_singleton.mp hu]
  left := by
    obtain ⟨u, hu, hp⟩ := h.left
    exact ⟨u, List.mem_append_left _ hu, hp⟩
  right := by
    obtain ⟨u, hu, hq⟩ := h.right
    exact ⟨u, List.mem_append_left _ hu, hq⟩
  lt := h.lt

/-! ### Moving one line -/

section turn
variable {l : List Sample} {s : Side} {t : Sample} {p q : Side → Point} {f : Line}

/-- A line through a point `c` of the side that clears the chain and the new point `n` is extremal
for all samples and `n`. -/
theorem extremal_turn (h : ∀ r, Extremal l r (p r) (q r)) (hleft : LeftOf l t.x)
    (hf : ∀ u ∈ l ++ [t], Meets f u) {chain : List Point} {c : Point}
    (hchain : IsChain s (l ++ [t]) (p s) chain)
    (hcov : Covered s chain l (fun r => through (p r) (q r)))
    (htake : s.lt (t.point s.other).y ((through (p s) (q s)).eval t.x))
    (hc : c ∈ chain) (hcx : c.x < t.x)
    (hclear : ∀ a ∈ chain, Clears s (through c (t.point s.other)) a) :
    Extremal (l ++ [t]) s c (t.point s.other) ∧
      s.le (through c (t.point s.other)).slope (through (p s) (q s)).slope := by
  obtain ⟨n, hn⟩ : ∃ n, n = t.point s.other := ⟨_, rfl⟩
  have hnx : n.x = t.x := by rw [hn, Sample.point_x]
  rw [← hn] at htake hclear ⊢
  have hcn : c.x < n.x := by rw [hnx]; exact hcx
  have hcn' : (c.x : ℝ) < n.x := by exact_mod_cast hcn
  obtain ⟨a, ha, hca⟩ := hchain.points c hc
  have hfc : Clears s f c := by
    rw [hca]
    exact hf a ha s
  have hfn : s.le (f.eval n.x) n.y := by
    have := clears_other.mp (hf t (by simp) s.other)
    rwa [← hn] at this
  have hfl : ∀ u ∈ l, Meets f u := fun u hu => hf u (List.mem_append_left _ hu)
  -- the new line is steeper than `f` and less steep than the old one
  have hslope : s.le f.slope (through c n).slope := by
    refine Side.slope_le hcn' ?_ ?_
    · rw [through_left]
      exact hfc
    · rw [through_right hcn]
      exact hfn
  have hpn : ((p s).x : ℝ) < n.x := by
    obtain ⟨u, hu, hpu⟩ := (h s).left
    have := hleft u hu
    rw [hpu, Sample.point_x, hnx]
    exact_mod_cast this
  have hslope' : s.le (through c n).slope (through (p s) (q s)).slope := by
    refine Side.slope_le hpn ?_ ?_
    · rw [through_left]
      obtain ⟨rest, hrest⟩ := hchain.head
      exact hclear (p s) (by rw [hrest]; exact List.mem_cons_self ..)
    · rw [through_right hcn, hnx]
      exact htake.le
  have hbetween : Between (through c n) (fun r => through (p r) (q r)) := by
    intro r
    rcases Side.eq_or_eq_other r s with rfl | rfl
    · exact hslope'
    · exact Side.le_other.mpr ((Side.le_other.mp ((h s.other).slope_le hfl)).trans hslope)
  refine ⟨⟨fun u hu r => ?_, ⟨a, ha, hca⟩, ⟨t, by simp, hn⟩, hcn⟩, hslope'⟩
  rcases List.mem_append.mp hu with hu | hu
  · rcases Side.eq_or_eq_other r s with rfl | rfl
    · exact hcov _ hbetween hclear u hu
    · refine clears_other.mpr ?_
      rw [Sample.point_x]
      rcases le_total (c.x : ℝ) u.x with hux | hux
      · -- between `c` and `n` the line lies inside the old one
        have hun : (u.x : ℝ) ≤ n.x := by
          have := hleft u hu
          rw [hnx]
          exact_mod_cast this.le
        have hold := clears_other.mp ((h s).meets u hu s.other)
        rw [Sample.point_x] at hold
        refine (Side.le_between hux hun ?_ ?_).trans hold
        · rw [through_left, hca]
          rcases List.mem_append.mp ha with ha | ha
          · exact (h s).meets a ha s
          · rw [List.mem_singleton.mp ha] at hca
            rw [hca, Sample.point_x] at hcx
            exact absurd hcx (lt_irrefl _)
        · rw [through_right hcn, hnx]
          exact htake.le
      · have hfu := clears_other.mp (hfl u hu s.other)
        rw [Sample.point_x] at hfu
        refine (Side.le_left hslope ?_ hux).trans hfu
        rw [through_left]
        exact hfc
  · obtain rfl := List.mem_singleton.mp hu
    unfold Clears
    rw [Sample.point_x, ← hnx, through_right hcn]
    rcases Side.eq_or_eq_other r s with rfl | rfl
    · rw [hn]
      exact u.point_le r
    · rw [hn]
      exact Side.le_of_eq rfl

end turn

end LearnedIndex.Benchmark
