import Mathlib.Tactic
import Mathlib.Data.Real.Basic

/-! # Lines, convex chains and tangents

Points have integer coordinates and lines are real.  A point on the side `lower` is a lower bound
for the lines that clear it, a point on the side `upper` an upper bound; the two sides are mirror
images, and every lemma is stated for both.

A chain is a list of points from left to right that turns in one direction only.  `extreme` walks
along a chain to the point whose line to a new point `p` clears the whole chain (`extreme_spec`),
and `pushHull` adds `p` to a chain and removes the points that no longer matter: a line that clears
the new chain clears the old one (`pushHull_spec`). -/

namespace LearnedIndex.Tangents

structure Point where
  x : ℤ
  y : ℤ
deriving DecidableEq

/-- A direction; two directions are compared by their cross product. -/
structure Slope where
  dx : ℤ
  dy : ℤ
deriving DecidableEq

namespace Slope

def lt (s p : Slope) : Bool := decide (s.dy * p.dx < s.dx * p.dy)

def gt (s p : Slope) : Bool := decide (s.dy * p.dx > s.dx * p.dy)

end Slope

def Point.sub (p q : Point) : Slope := ⟨p.x - q.x, p.y - q.y⟩

/-- Positive if `O`, `A`, `B` turn to the left. -/
def cross (O A B : Point) : ℤ :=
  (A.sub O).dx * (B.sub O).dy - (A.sub O).dy * (B.sub O).dx

/-! ### Lines -/

structure Line where
  slope : ℝ
  intercept : ℝ

namespace Line

def eval (g : Line) (x : ℝ) : ℝ := g.slope * x + g.intercept

variable {g h : Line} {x z w : ℝ}

theorem slope_le (hxz : x < z) (hx : h.eval x ≤ g.eval x) (hz : g.eval z ≤ h.eval z) :
    g.slope ≤ h.slope := by
  unfold eval at hx hz
  nlinarith

theorem le_left (hs : g.slope ≤ h.slope) (hx : h.eval x ≤ g.eval x) (hw : w ≤ x) :
    h.eval w ≤ g.eval w := by
  unfold eval at *
  nlinarith

theorem le_right (hs : g.slope ≤ h.slope) (hx : g.eval x ≤ h.eval x) (hw : x ≤ w) :
    g.eval w ≤ h.eval w := by
  unfold eval at *
  nlinarith

theorem le_between (hxw : x ≤ w) (hwz : w ≤ z) (hx : g.eval x ≤ h.eval x)
    (hz : g.eval z ≤ h.eval z) : g.eval w ≤ h.eval w := by
  rcases le_total g.slope h.slope with hs | hs
  · exact le_right hs hx hxw
  · exact le_left hs hz hwz

/-- A line between two lines. -/
def mix (t : ℝ) (g h : Line) : Line :=
  ⟨(1 - t) * g.slope + t * h.slope, (1 - t) * g.intercept + t * h.intercept⟩

theorem eval_mix (t : ℝ) (g h : Line) (x : ℝ) :
    (mix t g h).eval x = (1 - t) * g.eval x + t * h.eval x := by
  unfold eval mix
  ring

end Line

/-- The line through two points. -/
noncomputable def through (p q : Point) : Line :=
  let slope : ℝ := ((q.y : ℝ) - p.y) / (q.x - p.x)
  ⟨slope, p.y - slope * p.x⟩

theorem through_left (p q : Point) : (through p q).eval p.x = p.y := by
  unfold through Line.eval
  ring

theorem through_right {p q : Point} (h : p.x < q.x) : (through p q).eval q.x = q.y := by
  have hne : (q.x : ℝ) - p.x ≠ 0 := by
    have : (p.x : ℝ) < q.x := by exact_mod_cast h
    linarith
  unfold through Line.eval
  field_simp
  ring

/-! ### Sides -/

inductive Side where
  | lower
  | upper
deriving DecidableEq

namespace Side

/-- The order of the side. -/
def le : Side → ℝ → ℝ → Prop
  | lower, a, b => a ≤ b
  | upper, a, b => b ≤ a

def lt : Side → ℝ → ℝ → Prop
  | lower, a, b => a < b
  | upper, a, b => b < a

/-- The walk along a chain stops at a slope that is worse than the last one. -/
def worse : Side → Slope → Slope → Bool
  | lower => Slope.gt
  | upper => Slope.lt

/-- The middle one of three points does not matter. -/
def pops : Side → ℤ → Bool
  | lower, z => decide (0 ≤ z)
  | upper, z => decide (z ≤ 0)

variable {s : Side} {a b c : ℝ}

theorem le.trans (h : s.le a b) (h' : s.le b c) : s.le a c := by
  cases s with
  | lower => exact le_trans h h'
  | upper => exact le_trans h' h

theorem lt.le (h : s.lt a b) : s.le a b := by
  cases s with
  | lower => exact le_of_lt h
  | upper => exact le_of_lt h

theorem le_of_eq (h : a = b) : s.le a b := by
  cases s with
  | lower => exact Eq.le h
  | upper => exact Eq.ge h

theorem not_lt (h : ¬ s.lt a b) : s.le b a := by
  cases s with
  | lower => exact not_lt.mp h
  | upper => exact not_lt.mp h

/-- The other side. -/
def other : Side → Side
  | lower => upper
  | upper => lower

theorem eq_or_eq_other (r s : Side) : r = s ∨ r = s.other := by
  cases r <;> cases s <;> simp [other]

theorem le_other : s.other.le a b ↔ s.le b a := by
  cases s with
  | lower => exact Iff.rfl
  | upper => exact Iff.rfl

variable {g h : Line} {x z w : ℝ}

theorem slope_le (hxz : x < z) (hx : s.le (h.eval x) (g.eval x)) (hz : s.le (g.eval z) (h.eval z)) :
    s.le g.slope h.slope := by
  cases s with
  | lower => exact Line.slope_le hxz hx hz
  | upper => exact Line.slope_le hxz hx hz

theorem le_left (hs : s.le g.slope h.slope) (hx : s.le (h.eval x) (g.eval x)) (hw : w ≤ x) :
    s.le (h.eval w) (g.eval w) := by
  cases s with
  | lower => exact Line.le_left hs hx hw
  | upper => exact Line.le_left hs hx hw

theorem le_right (hs : s.le g.slope h.slope) (hx : s.le (g.eval x) (h.eval x)) (hw : x ≤ w) :
    s.le (g.eval w) (h.eval w) := by
  cases s with
  | lower => exact Line.le_right hs hx hw
  | upper => exact Line.le_right hs hx hw

theorem le_between (hxw : x ≤ w) (hwz : w ≤ z) (hx : s.le (g.eval x) (h.eval x))
    (hz : s.le (g.eval z) (h.eval z)) : s.le (g.eval w) (h.eval w) := by
  cases s with
  | lower => exact Line.le_between hxw hwz hx hz
  | upper => exact Line.le_between hxw hwz hx hz

end Side

/-- The line keeps to the allowed side of the point. -/
def Clears (s : Side) (g : Line) (q : Point) : Prop := s.le q.y (g.eval q.x)

theorem clears_through_left (s : Side) (c p : Point) : Clears s (through c p) c :=
  Side.le_of_eq (through_left c p).symm

/-- The walk stops where the next point is strictly cleared. -/
theorem worse_iff {s : Side} {q c p : Point} (hc : c.x < p.x) :
    s.worse (q.sub p) (c.sub p) = true ↔ s.lt q.y ((through c p).eval q.x) := by
  have hpos : (0 : ℝ) < (p.x : ℝ) - c.x := by
    have : (c.x : ℝ) < p.x := by exact_mod_cast hc
    linarith
  have hval : ((through c p).eval q.x - q.y) * ((p.x : ℝ) - c.x) =
      ((q.y : ℝ) - p.y) * (c.x - p.x) - (q.x - p.x) * (c.y - p.y) := by
    unfold through Line.eval
    field_simp
    ring
  cases s with
  | lower =>
      refine decide_eq_true_iff.trans ?_
      show (q.x - p.x) * (c.y - p.y) < (q.y - p.y) * (c.x - p.x) ↔ (q.y : ℝ) < _
      rw [← sub_pos (b := (q.y : ℝ)), ← mul_pos_iff_of_pos_right hpos, hval, sub_pos]
      exact_mod_cast Iff.rfl
  | upper =>
      refine decide_eq_true_iff.trans ?_
      show (q.y - p.y) * (c.x - p.x) < (q.x - p.x) * (c.y - p.y) ↔ _ < (q.y : ℝ)
      have hval' : ((q.y : ℝ) - (through c p).eval q.x) * ((p.x : ℝ) - c.x) =
          (q.x - p.x) * (c.y - p.y) - ((q.y : ℝ) - p.y) * (c.x - p.x) := by
        linear_combination -hval
      rw [← sub_pos (a := (q.y : ℝ)), ← mul_pos_iff_of_pos_right hpos, hval', sub_pos]
      exact_mod_cast Iff.rfl

/-- A point under a line, seen from the left or the right of two points on it. -/
theorem lt_through_iff {p q n : Point} (h : p.x < q.x) :
    (n.y : ℝ) < (through p q).eval n.x ↔ (n.y - p.y) * (q.x - p.x) < (n.x - p.x) * (q.y - p.y) := by
  have hpos : (0 : ℝ) < (q.x : ℝ) - p.x := by
    have : (p.x : ℝ) < q.x := by exact_mod_cast h
    linarith
  have hval : ((through p q).eval n.x - n.y) * ((q.x : ℝ) - p.x) =
      (n.x - p.x) * (q.y - p.y) - (n.y - p.y) * (q.x - p.x) := by
    unfold through Line.eval
    field_simp
    ring
  rw [← sub_pos (b := (n.y : ℝ)), ← mul_pos_iff_of_pos_right hpos, hval, sub_pos]
  exact_mod_cast Iff.rfl

theorem through_lt_iff {p q n : Point} (h : p.x < q.x) :
    (through p q).eval n.x < n.y ↔ (n.x - p.x) * (q.y - p.y) < (n.y - p.y) * (q.x - p.x) := by
  have hpos : (0 : ℝ) < (q.x : ℝ) - p.x := by
    have : (p.x : ℝ) < q.x := by exact_mod_cast h
    linarith
  have hval : ((n.y : ℝ) - (through p q).eval n.x) * ((q.x : ℝ) - p.x) =
      (n.y - p.y) * (q.x - p.x) - (n.x - p.x) * (q.y - p.y) := by
    unfold through Line.eval
    field_simp
    ring
  rw [← sub_pos (a := (n.y : ℝ)), ← mul_pos_iff_of_pos_right hpos, hval, sub_pos]
  exact_mod_cast Iff.rfl

section slopes
variable {p q n : Point}

theorem lt_left_iff (h : p.x < q.x) :
    (n.sub p).lt (q.sub p) = true ↔ (n.y : ℝ) < (through p q).eval n.x := by
  rw [lt_through_iff h]
  exact decide_eq_true_iff

theorem gt_left_iff (h : p.x < q.x) :
    (n.sub p).gt (q.sub p) = true ↔ (through p q).eval n.x < n.y := by
  rw [through_lt_iff h]
  exact decide_eq_true_iff

theorem lt_right_iff (h : p.x < q.x) :
    (n.sub q).lt (q.sub p) = true ↔ (n.y : ℝ) < (through p q).eval n.x := by
  rw [lt_through_iff h]
  refine decide_eq_true_iff.trans ?_
  show (n.y - q.y) * (q.x - p.x) < (n.x - q.x) * (q.y - p.y) ↔ _
  constructor <;> intro h <;> linarith

theorem gt_right_iff (h : p.x < q.x) :
    (n.sub q).gt (q.sub p) = true ↔ (through p q).eval n.x < n.y := by
  rw [through_lt_iff h]
  refine decide_eq_true_iff.trans ?_
  show (n.x - q.x) * (q.y - p.y) < (n.y - q.y) * (q.x - p.x) ↔ _
  constructor <;> intro h <;> linarith

end slopes

/-! ### Chains -/

/-- The points go from left to right. -/
def Rising (l : List Point) : Prop := l.Pairwise (fun p q => p.x < q.x)

/-- Every three neighbours turn towards the side. -/
def Turning (s : Side) : List Point → Prop
  | a :: b :: c :: rest => s.pops (cross a b c) = false ∧ Turning s (b :: c :: rest)
  | _ => True

theorem Turning.tail {s : Side} {a : Point} : ∀ {l : List Point}, Turning s (a :: l) → Turning s l
  | [], _ => trivial
  | [_], _ => trivial
  | _ :: _ :: _, h => h.2

theorem Turning.of_append {s : Side} : ∀ {l l' : List Point}, Turning s (l ++ l') → Turning s l'
  | [], _, h => h
  | _ :: l, _, h => Turning.of_append (l := l) h.tail

/-- A point under the segment of its neighbours is cleared with them. -/
theorem clears_of_pops {s : Side} {g : Line} {a b c : Point} (hab : a.x < b.x) (hbc : b.x < c.x)
    (hpop : s.pops (cross a b c) = true) (ha : Clears s g a) (hc : Clears s g c) :
    Clears s g b := by
  have h1 : (0 : ℝ) < (b.x : ℝ) - a.x := by
    have : (a.x : ℝ) < b.x := by exact_mod_cast hab
    linarith
  have h2 : (0 : ℝ) < (c.x : ℝ) - b.x := by
    have : (b.x : ℝ) < c.x := by exact_mod_cast hbc
    linarith
  have hcross : (cross a b c : ℝ) =
      (b.x - a.x) * (c.y - a.y) - (b.y - a.y) * (c.x - a.x) := by
    unfold cross Point.sub
    push_cast
    ring
  cases s with
  | lower =>
      have hz : (0 : ℝ) ≤ cross a b c := by exact_mod_cast of_decide_eq_true hpop
      unfold Clears Side.le Line.eval at *
      simp only at *
      rw [hcross] at hz
      nlinarith [mul_le_mul_of_nonneg_left ha h2.le, mul_le_mul_of_nonneg_left hc h1.le]
  | upper =>
      have hz : (cross a b c : ℝ) ≤ 0 := by exact_mod_cast of_decide_eq_true hpop
      unfold Clears Side.le Line.eval at *
      simp only at *
      rw [hcross] at hz
      nlinarith [mul_le_mul_of_nonneg_left ha h2.le, mul_le_mul_of_nonneg_left hc h1.le]

/-- Past a point that it clears, a line clears the rest of the chain unless the chain rises above it
at that point. -/
theorem clears_rest {s : Side} {g : Line} : ∀ {l : List Point} {a b : Point},
    Rising (a :: b :: l) → Turning s (a :: b :: l) → Clears s g b →
    s.le ((b.y : ℝ) - a.y) (g.slope * (b.x - a.x)) → ∀ q ∈ l, Clears s g q
  | [], _, _, _, _, _, _ => by simp
  | c :: l, a, b, hr, ht, hb, hedge => by
      obtain ⟨hra, hr'⟩ := List.pairwise_cons.mp hr
      obtain ⟨hrb, _⟩ := List.pairwise_cons.mp hr'
      have h1 : (0 : ℝ) < (b.x : ℝ) - a.x := by
        have : (a.x : ℝ) < b.x := by exact_mod_cast hra b (List.mem_cons_self ..)
        linarith
      have h2 : (0 : ℝ) < (c.x : ℝ) - b.x := by
        have : (b.x : ℝ) < c.x := by exact_mod_cast hrb c (List.mem_cons_self ..)
        linarith
      have hcross : (cross a b c : ℝ) =
          (b.x - a.x) * (c.y - b.y) - (b.y - a.y) * (c.x - b.x) := by
        unfold cross Point.sub
        push_cast
        ring
      -- the next edge is less steep than this one
      have hedge' : s.le ((c.y : ℝ) - b.y) (g.slope * (c.x - b.x)) := by
        have hturn := ht.1
        cases s with
        | lower =>
            have hz : (cross a b c : ℝ) < 0 := by
              exact_mod_cast lt_of_not_ge (of_decide_eq_false hturn)
            rw [hcross] at hz
            have hedge : (b.y : ℝ) - a.y ≤ g.slope * (b.x - a.x) := hedge
            show (c.y : ℝ) - b.y ≤ g.slope * (c.x - b.x)
            by_contra hlt
            nlinarith [mul_le_mul_of_nonneg_right hedge h2.le,
              mul_lt_mul_of_pos_left (not_le.mp hlt) h1]
        | upper =>
            have hz : (0 : ℝ) < cross a b c := by
              exact_mod_cast lt_of_not_ge (of_decide_eq_false hturn)
            rw [hcross] at hz
            have hedge : g.slope * (b.x - a.x) ≤ (b.y : ℝ) - a.y := hedge
            show g.slope * (c.x - b.x) ≤ (c.y : ℝ) - b.y
            by_contra hlt
            nlinarith [mul_le_mul_of_nonneg_right hedge h2.le,
              mul_lt_mul_of_pos_left (not_le.mp hlt) h1]
      have hc : Clears s g c := by
        unfold Clears Side.le Line.eval at *
        cases s with
        | lower => simp only at *; linarith
        | upper => simp only at *; linarith
      intro q hq
      rcases List.mem_cons.mp hq with rfl | hq
      · exact hc
      · exact clears_rest hr' ht.tail hc hedge' q hq

/-! ### The tangent from a point -/

/-- Walk along the points `rest` from position `i`, with the best position and slope so far. -/
def walk (s : Side) (p : Point) : List Point → ℕ → ℕ → Slope → ℕ
  | [], _, best, _ => best
  | q :: rest, i, best, slope =>
      if s.worse (q.sub p) slope then best else walk s p rest (i + 1) i (q.sub p)

/-- The position, from `start` on, of the point with the extreme slope to `p`. -/
def extreme (s : Side) (pts : List Point) (start : ℕ) (p : Point) : Option ℕ :=
  (pts[start]?).map (fun q => walk s p (pts.drop (start + 1)) (start + 1) start (q.sub p))

/-- The point lies to the left of `p`, or straight behind it. -/
def Behind (s : Side) (p q : Point) : Prop := q.x < p.x ∨ q.x = p.x ∧ s.lt q.y p.y

/-- A point that is not strictly cleared gives a line further out. -/
theorem le_through_of_not_lt {s : Side} {c q p : Point} (hc : c.x < p.x) (hq : q.x < p.x)
    (h : s.le ((through c p).eval q.x) q.y) {w : ℝ} (hw : w ≤ p.x) :
    s.le ((through c p).eval w) ((through q p).eval w) := by
  have hq' : (q.x : ℝ) < p.x := by exact_mod_cast hq
  have hcp := through_right hc
  have hqp := through_right hq
  have hqq := through_left q p
  cases s with
  | lower =>
      have h' : (through c p).eval q.x ≤ (through q p).eval q.x := by rw [hqq]; exact h
      have hp : (through q p).eval p.x ≤ (through c p).eval p.x := by rw [hqp, hcp]
      exact Line.le_left (Line.slope_le hq' h' hp) (by rw [hqp, hcp]) hw
  | upper =>
      have h' : (through q p).eval q.x ≤ (through c p).eval q.x := by rw [hqq]; exact h
      have hp : (through c p).eval p.x ≤ (through q p).eval p.x := by rw [hqp, hcp]
      exact Line.le_left (Line.slope_le hq' h' hp) (by rw [hqp, hcp]) hw

theorem walk_spec {s : Side} {p : Point} : ∀ (best : ℕ) {rest : List Point} {c : Point},
    c.x < p.x → Rising (c :: rest) → Turning s (c :: rest) → (∀ q ∈ rest, Behind s p q) →
    ∃ pre c' post, c :: rest = pre ++ c' :: post ∧
      walk s p rest (best + 1) best (c.sub p) = best + pre.length ∧ c'.x < p.x ∧
      (∀ q ∈ c :: rest, Clears s (through c' p) q) ∧
      ∀ w : ℝ, w ≤ p.x → s.le ((through c p).eval w) ((through c' p).eval w)
  | best, [], c, hc, _, _, _ => by
      refine ⟨[], c, [], rfl, rfl, hc, fun q hq => ?_, fun w _ => Side.le_of_eq rfl⟩
      obtain rfl := List.mem_singleton.mp hq
      exact clears_through_left s q p
  | best, q :: rest, c, hc, hr, ht, hb => by
      unfold walk
      split
      · rename_i hworse
        have hq := ((worse_iff hc).mp hworse).le
        refine ⟨[], c, q :: rest, rfl, rfl, hc, fun x hx => ?_, fun w _ => Side.le_of_eq rfl⟩
        rcases List.mem_cons.mp hx with rfl | hx
        · exact clears_through_left s x p
        · rcases List.mem_cons.mp hx with rfl | hx
          · exact hq
          · refine clears_rest hr ht hq ?_ x hx
            have hleft := through_left c p
            unfold Clears Side.le Line.eval at *
            cases s with
            | lower => simp only at *; linarith
            | upper => simp only at *; linarith
      · rename_i hnot
        have hle : s.le ((through c p).eval q.x) q.y :=
          Side.not_lt (fun h => hnot ((worse_iff hc).mpr h))
        have hq : q.x < p.x := by
          rcases hb q (List.mem_cons_self ..) with h | ⟨hx, hlt⟩
          · exact h
          · refine absurd ((worse_iff hc).mpr ?_) hnot
            rw [hx, through_right hc]
            exact hlt
        obtain ⟨pre, c', post, hsplit, hwalk, hc', hclear, hout⟩ :=
          walk_spec (best + 1) hq (List.pairwise_cons.mp hr).2 ht.tail
            (fun x hx => hb x (List.mem_cons_of_mem q hx))
        have hgrow : ∀ w : ℝ, w ≤ p.x → s.le ((through c p).eval w) ((through c' p).eval w) :=
          fun w hw => (le_through_of_not_lt hc hq hle hw).trans (hout w hw)
        refine ⟨c :: pre, c', post, ?_, ?_, hc', fun x hx => ?_, hgrow⟩
        · rw [hsplit]
          rfl
        · rw [hwalk, List.length_cons]
          omega
        · rcases List.mem_cons.mp hx with rfl | hx
          · have hx' : (x.x : ℝ) ≤ p.x := by exact_mod_cast hc.le
            exact (clears_through_left s x p).trans (hgrow x.x hx')
          · exact hclear x hx

/-- The line from the extreme point to `p` clears the chain, and the chain goes on from there. -/
theorem extreme_spec {s : Side} {pts : List Point} {start : ℕ} {p c : Point} {rest : List Point}
    (hdrop : pts.drop start = c :: rest) (hc : c.x < p.x) (hr : Rising (c :: rest))
    (ht : Turning s (c :: rest)) (hb : ∀ q ∈ rest, Behind s p q) :
    ∃ i pre c' post, extreme s pts start p = some i ∧ pts[i]? = some c' ∧ pts.drop i = c' :: post ∧
      c :: rest = pre ++ c' :: post ∧ Rising (c' :: post) ∧ Turning s (c' :: post) ∧
      c'.x < p.x ∧ (∀ q ∈ c :: rest, Clears s (through c' p) q) ∧
      ∀ w : ℝ, w ≤ p.x → s.le ((through c p).eval w) ((through c' p).eval w) := by
  have hget : pts[start]? = some c := by
    rw [← List.head?_drop, hdrop]
    rfl
  have hrest : pts.drop (start + 1) = rest := by
    rw [← List.drop_drop, hdrop]
    rfl
  obtain ⟨pre, c', post, hsplit, hwalk, hc', hclear, hout⟩ :=
    walk_spec start hc hr ht hb
  have hdrop' : pts.drop (start + pre.length) = c' :: post := by
    rw [← List.drop_drop, hdrop, hsplit, List.drop_left']
    rfl
  have hsub : (c' :: post).Sublist (c :: rest) := by
    rw [hsplit]
    exact List.sublist_append_right _ _
  refine ⟨start + pre.length, pre, c', post, ?_, ?_, hdrop', hsplit, hr.sublist hsub,
    ?_, hc', hclear,
    hout⟩
  · unfold extreme
    rw [hget, hrest, ← hwalk]
    rfl
  · rw [← List.head?_drop, hdrop']
    rfl
  · rw [hsplit] at ht
    exact ht.of_append

/-! ### Adding a point to a chain -/

/-- `for (; end >= start + 2 && pops(cross(pts[end - 2], pts[end - 1], p)); --end)`. -/
def trim (s : Side) (pts : List Point) (start : ℕ) (p : Point) : ℕ → ℕ
  | 0 => 0
  | e + 1 =>
      if start + 2 ≤ e + 1 then
        match pts[e - 1]?, pts[e]? with
        | some a, some b => if s.pops (cross a b p) then trim s pts start p e else e + 1
        | _, _ => e + 1
      else e + 1

/-- The points that are left, and `p`. -/
def pushHull (s : Side) (pts : List Point) (start : ℕ) (p : Point) : List Point :=
  pts.take (trim s pts start p pts.length) ++ [p]

/-- Lines that clear the first chain clear the second. -/
def Covers (s : Side) (l l' : List Point) : Prop :=
  ∀ g, (∀ c ∈ l, Clears s g c) → ∀ q ∈ l', Clears s g q

theorem Turning.take {s : Side} : ∀ {l : List Point} (n : ℕ), Turning s l → Turning s (l.take n)
  | _, 0, _ => by rw [List.take_zero]; trivial
  | [], _ + 1, _ => trivial
  | [_], n + 1, _ => by cases n <;> trivial
  | [_, _], n + 1, _ => by
      cases n with
      | zero => trivial
      | succ n => cases n <;> trivial
  | a :: b :: c :: l, n + 1, h => by
      have ih := Turning.take n h.tail
      cases n with
      | zero => trivial
      | succ n =>
          cases n with
          | zero => trivial
          | succ n => exact ⟨h.1, ih⟩

theorem Turning.concat {s : Side} {a b p : Point} (hturn : s.pops (cross a b p) = false) :
    ∀ {l : List Point}, Turning s (l ++ [a, b]) → Turning s (l ++ [a, b, p])
  | [], _ => ⟨hturn, trivial⟩
  | [_], h => ⟨h.1, hturn, trivial⟩
  | _ :: c :: l, h => by
      have ih := Turning.concat hturn (l := c :: l) h.tail
      cases l with
      | nil => exact ⟨h.1, ih⟩
      | cons d l => exact ⟨h.1, ih⟩

theorem trim_spec {s : Side} {pts : List Point} {start : ℕ} {p : Point}
    (hr : Rising (pts.drop start)) (hp : ∀ q ∈ pts.drop start, q.x < p.x) :
    ∀ (e : ℕ), 1 ≤ e → e ≤ (pts.drop start).length →
      Covers s ((pts.drop start).take e ++ [p]) (pts.drop start) →
      ∃ e', 1 ≤ e' ∧ e' ≤ (pts.drop start).length ∧ trim s pts start p (start + e) = start + e' ∧
        Covers s ((pts.drop start).take e' ++ [p]) (pts.drop start) ∧
        (e' = 1 ∨ ∃ a b l, (pts.drop start).take e' = l ++ [a, b] ∧ s.pops (cross a b p) = false)
  | 0, h, _, _ => absurd h (by omega)
  | 1, _, hlen, hcov => by
      refine ⟨1, le_rfl, hlen, ?_, hcov, Or.inl rfl⟩
      unfold trim
      rw [if_neg (by omega)]
  | e + 2, _, hlen, hcov => by
      have hlen' : start + e + 1 < pts.length := by
        rw [List.length_drop] at hlen
        omega
      have hget : ∀ i, i < e + 2 → ∃ q, pts[start + i]? = some q ∧
        (pts.drop start)[i]? = some q := by
        intro i hi
        refine ⟨pts[start + i], List.getElem?_eq_getElem (by omega), ?_⟩
        rw [List.getElem?_drop]
        exact List.getElem?_eq_getElem (by omega)
      obtain ⟨a, ha, ha'⟩ := hget e (by omega)
      obtain ⟨b, hb, hb'⟩ := hget (e + 1) (by omega)
      have htake : (pts.drop start).take (e + 2) = (pts.drop start).take e ++ [a, b] := by
        rw [List.take_add_one, List.take_add_one, hb', ha', List.append_assoc]
        rfl
      have hstep : trim s pts start p (start + (e + 2)) =
          if s.pops (cross a b p) then trim s pts start p (start + (e + 1))
          else start + (e + 2) := by
        rw [show start + (e + 2) = (start + (e + 1)) + 1 by omega, trim, if_pos (by omega)]
        rw [show start + (e + 1) - 1 = start + e by omega, ha, hb]
      rw [hstep]
      cases hpop : s.pops (cross a b p) with
      | false =>
          rw [if_neg (by simp)]
          exact ⟨e + 2, by omega, hlen, rfl, hcov, Or.inr ⟨a, b, _, htake, hpop⟩⟩
      | true =>
          rw [if_pos rfl]
          refine trim_spec hr hp (e + 1) (by omega) (by omega) ?_
          -- the point `b` lies under the segment from `a` to `p`
          have hab : a.x < b.x := by
            have hsub : [a, b].Sublist (pts.drop start) := by
              refine List.Sublist.trans ?_ (List.take_sublist (e + 2) _)
              rw [htake]
              exact List.sublist_append_right _ _
            exact (List.pairwise_cons.mp (hr.sublist hsub)).1 b (by simp)
          have hbp : b.x < p.x := hp b (List.mem_of_getElem? hb')
          have htake' : (pts.drop start).take (e + 1) = (pts.drop start).take e ++ [a] := by
            rw [List.take_add_one, ha']
            rfl
          intro g hg
          rw [htake'] at hg
          refine hcov g (fun c hc => ?_)
          rw [htake] at hc
          have hga : Clears s g a := hg a (by simp)
          have hgp : Clears s g p := hg p (by simp)
          rcases List.mem_append.mp hc with hc | hc
          · rcases List.mem_append.mp hc with hc | hc
            · exact hg c (by simp [hc])
            · rcases List.mem_cons.mp hc with rfl | hc
              · exact hga
              · obtain rfl := List.mem_singleton.mp hc
                exact clears_of_pops hab hbp hpop hga hgp
          · obtain rfl := List.mem_singleton.mp hc
            exact hgp

/-- Adding a point to the right keeps the chain, its first point and the lines that clear it. -/
theorem pushHull_spec {s : Side} {pts : List Point} {start : ℕ} {p c : Point} {rest : List Point}
    (hdrop : pts.drop start = c :: rest) (hr : Rising (c :: rest)) (ht : Turning s (c :: rest))
    (hp : ∀ q ∈ c :: rest, q.x < p.x) :
    ∃ rest', (pushHull s pts start p).drop start = c :: rest' ∧ Rising (c :: rest') ∧
      Turning s (c :: rest') ∧ p ∈ c :: rest' ∧ (∀ q ∈ c :: rest', q ∈ c :: rest ∨ q = p) ∧
      Covers s (c :: rest') (c :: rest) := by
  have hlen : start + (c :: rest).length = pts.length := by
    rw [← hdrop, List.length_drop]
    have : start < pts.length := by
      by_contra hge
      rw [List.drop_eq_nil_of_le (by omega)] at hdrop
      cases hdrop
    omega
  obtain ⟨e, he1, he, htrim, hcov, hlast⟩ := trim_spec (s := s) (p := p)
    (show Rising (pts.drop start) by rw [hdrop]; exact hr) (by rw [hdrop]; exact hp)
    (c :: rest).length (by simp)
    (by rw [hdrop]) (by
      intro g hg q hq
      rw [hdrop] at hg hq
      exact hg q (by rw [List.take_length]; exact List.mem_append_left _ hq))
  rw [hlen] at htrim
  rw [hdrop] at hcov hlast he
  have hpush : (pushHull s pts start p).drop start = (c :: rest).take e ++ [p] := by
    unfold pushHull
    rw [htrim, List.drop_append_of_le_length (by rw [List.length_take]; omega), List.drop_take,
      hdrop, Nat.add_sub_cancel_left]
  obtain ⟨k, rfl⟩ : ∃ k, e = k + 1 := ⟨e - 1, by omega⟩
  have hform : (c :: rest).take (k + 1) ++ [p] = c :: (rest.take k ++ [p]) := rfl
  rw [hform] at hcov hpush
  have hsub : (c :: rest.take k).Sublist (c :: rest) := (List.take_sublist k rest).cons_cons c
  refine ⟨rest.take k ++ [p], hpush, ?_, ?_, by simp, fun q hq => ?_, hcov⟩
  · show List.Pairwise _ ((c :: rest.take k) ++ [p])
    refine List.pairwise_append.mpr ⟨hr.sublist hsub, List.pairwise_singleton _ _, ?_⟩
    intro q hq x hx
    obtain rfl := List.mem_singleton.mp hx
    exact hp q (hsub.subset hq)
  · rcases hlast with hk | ⟨a, b, l, htake, hturn⟩
    · obtain rfl : k = 0 := by omega
      trivial
    · have hturns := ht.take (k + 1)
      rw [htake] at hturns
      have := Turning.concat hturn hturns
      rw [← hform, htake, List.append_assoc]
      exact this
  · rcases List.mem_append.mp (show q ∈ (c :: rest.take k) ++ [p] from hq) with hq | hq
    · exact Or.inl (hsub.subset hq)
    · exact Or.inr (List.mem_singleton.mp hq)

end LearnedIndex.Tangents
