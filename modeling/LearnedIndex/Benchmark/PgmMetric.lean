import LearnedIndex.Lib.Greedy
import LearnedIndex.Benchmark.PgmSegment

/-! # `PGM_metric` is optimal

The loop of `PGM_metric` cuts a segment exactly where no line meets all its samples and the next
one. Such greedy cuts are the fewest, so the metric is the least number of segments
(`pgmMetric_optimal`). -/

namespace LearnedIndex.Benchmark

open LearnedIndex.Tangents LearnedIndex.Greedy

/-- Some real line is within the error bound of the positions `a`, …, `b - 1` of the keys. -/
def Fits (keys : List ℤ) (eps : ℕ) (a b : ℕ) : Prop :=
  ∃ f : Line, ∀ i k, a ≤ i → i < b → keys[i]? = some k →
    max 0 ((i : ℝ) - eps) ≤ f.eval k ∧ f.eval k ≤ i + eps

theorem fits_hereditary (keys : List ℤ) (eps : ℕ) : Hereditary (Fits keys eps) := by
  rintro a b a' b' ⟨f, hf⟩ ha hb
  exact ⟨f, fun i k hai hib hk => hf i k (by omega) (by omega) hk⟩

/-- The range of the position of a key. -/
def sample (eps i : ℕ) (k : ℤ) : Sample where
  x := k
  lo := max 0 ((i : ℤ) - eps)
  hi := i + eps
  le := by omega

/-- The samples of `n` positions from `a` on. -/
def block (keys : List ℤ) (eps a n : ℕ) : List Sample :=
  (List.range' a n).filterMap (fun i => (keys[i]?).map (sample eps i))

section block
variable {keys : List ℤ} {eps a n : ℕ}

theorem mem_block {t : Sample} :
    t ∈ block keys eps a n ↔
      ∃ i k, a ≤ i ∧ i < a + n ∧ keys[i]? = some k ∧ t = sample eps i k := by
  unfold block
  rw [List.mem_filterMap]
  constructor
  · rintro ⟨i, hi, ht⟩
    obtain ⟨k, hk, rfl⟩ := Option.map_eq_some_iff.mp ht
    obtain ⟨h1, h2⟩ := List.mem_range'_1.mp hi
    exact ⟨i, k, h1, h2, hk, rfl⟩
  · rintro ⟨i, k, h1, h2, hk, rfl⟩
    exact ⟨i, List.mem_range'_1.mpr ⟨h1, h2⟩, by rw [hk]; rfl⟩

theorem block_succ {k : ℤ} (hk : keys[a + n]? = some k) :
    block keys eps a (n + 1) = block keys eps a n ++ [sample eps (a + n) k] := by
  unfold block
  rw [List.range'_1_concat, List.filterMap_append]
  simp [hk]

/-- A line meets the sample of a position exactly when it is within the error bound. -/
theorem meets_sample_iff {f : Line} {i : ℕ} {k : ℤ} : Meets f (sample eps i k) ↔
    max 0 ((i : ℝ) - eps) ≤ f.eval k ∧ f.eval k ≤ i + eps := by
  have hlo : ((sample eps i k).lo : ℝ) = max 0 ((i : ℝ) - eps) := by
    unfold sample
    push_cast
    rfl
  have hhi : ((sample eps i k).hi : ℝ) = i + eps := by
    unfold sample
    push_cast
    rfl
  rw [← hlo, ← hhi]
  constructor
  · intro h
    exact ⟨h .lower, h .upper⟩
  · rintro ⟨h1, h2⟩ s
    cases s with
    | lower => exact h1
    | upper => exact h2

/-- A line meets the samples exactly when it is within the error bound. -/
theorem feasible_block_iff : Feasible (block keys eps a n) ↔ Fits keys eps a (a + n) := by
  constructor
  · rintro ⟨f, hf⟩
    refine ⟨f, fun i k h1 h2 hk => meets_sample_iff.mp
      (hf _ (mem_block.mpr ⟨i, k, h1, h2, hk, rfl⟩))⟩
  · rintro ⟨f, hf⟩
    refine ⟨f, fun t ht => ?_⟩
    obtain ⟨i, k, h1, h2, hk, rfl⟩ := mem_block.mp ht
    exact meets_sample_iff.mpr (hf i k h1 h2 hk)

/-- In increasing keys the samples of a block lie to the left of the next key. -/
theorem leftOf_block {k : ℤ} (hinc : keys.Pairwise (· < ·)) (hk : keys[a + n]? = some k) :
    LeftOf (block keys eps a n) k := by
  intro t ht
  obtain ⟨i, k', _, hi, hk', rfl⟩ := mem_block.mp ht
  obtain ⟨h1, rfl⟩ := List.getElem?_eq_some_iff.mp hk'
  obtain ⟨h2, rfl⟩ := List.getElem?_eq_some_iff.mp hk
  exact List.pairwise_iff_getElem.mp hinc i (a + n) h1 h2 hi

end block

namespace PiecewiseModel

/-- While positions and error bound are small, the ends of the range do not saturate. -/
theorem sample_below (eps i : ℕ) (k : ℤ) : (sample eps i k).lo = below eps i := by
  show max 0 ((i : ℤ) - eps) = below eps i
  unfold below
  split <;> omega

theorem sample_above {eps i : ℕ} (h : i + eps ≤ maxY) (k : ℤ) :
    (sample eps i k).hi = above eps i := by
  show (i : ℤ) + eps = above eps i
  unfold above
  split <;> omega

end PiecewiseModel

section loop
variable {keys : List ℤ} {eps : ℕ}

open PiecewiseModel

/-- `add_point` for the next position of the keys. -/
theorem addPoint_block {m : PiecewiseModel} {a n : ℕ} {k : ℤ} (hinc : keys.Pairwise (· < ·))
    (hm : m.Segment (block keys eps a n)) (heps : m.epsilon = eps) (hk : keys[a + n]? = some k)
    (hsmall : a + n + eps ≤ maxY) :
    ∃ fits m', m.addPoint k (a + n) = some (fits, m') ∧ m'.epsilon = eps ∧
      (fits = true ↔ Fits keys eps a (a + n + 1)) ∧
      (fits = true → m'.Segment (block keys eps a (n + 1))) := by
  have hthin : (sample eps (a + n) k).lo = (sample eps (a + n) k).hi →
      ∀ u ∈ block keys eps a n, u.lo = u.hi := by
    intro heq u hu
    obtain ⟨i, k', _, _, _, rfl⟩ := mem_block.mp hu
    unfold sample at heq ⊢
    simp only at heq ⊢
    omega
  obtain ⟨fits, m', hadd, heps', hfits, hseg, -⟩ :=
    addPoint_spec (t := sample eps (a + n) k) (y := a + n) hm (leftOf_block hinc hk)
      (by rw [heps, sample_below]) (by rw [heps, sample_above hsmall]) hthin
  rw [← block_succ hk] at hfits hseg
  refine ⟨fits, m', hadd, heps'.trans heps, ?_, hseg⟩
  rw [hfits, feasible_block_iff, add_assoc]

/-- The loop of `PGM_metric`: its cuts are admissible and maximal.  The induction is over the keys
that are left; the model holds the block from `a` to the current position. -/
theorem pgmLoop_spec (hinc : keys.Pairwise (· < ·)) (hsmall : keys.length + eps ≤ maxY) :
    ∀ (rest : List ℤ) (a n : ℕ) (m : PiecewiseModel), keys.drop (a + n) = rest →
      m.Segment (block keys eps a n) → m.epsilon = eps → Fits keys eps a (a + n) →
      a < keys.length →
      ∃ cuts, pgmLoop rest (a + n) m = some cuts ∧
        Cutting (Fits keys eps) keys.length a cuts ∧ Maximal (Fits keys eps) a cuts
  | [], a, n, m, hrest, _, _, hfit, ha => by
      have hlen : keys.length ≤ a + n := List.drop_eq_nil_iff.mp hrest
      exact ⟨[], rfl, ⟨ha, fits_hereditary keys eps _ _ _ _ hfit le_rfl hlen⟩, trivial⟩
  | k :: rest, a, n, m, hrest, hm, heps, hfit, ha => by
      have hk : keys[a + n]? = some k := by
        rw [← List.head?_drop, hrest]
        rfl
      have hrest' : keys.drop (a + n + 1) = rest := by
        rw [← List.drop_drop, hrest]
        rfl
      have hlt : a + n < keys.length := (List.getElem?_eq_some_iff.mp hk).1
      obtain ⟨fits, m', hadd, heps', hfits, hseg⟩ := addPoint_block hinc hm heps hk (by omega)
      cases fits with
      | true =>
          obtain ⟨cuts, hloop, hcut, hmax⟩ := pgmLoop_spec hinc hsmall rest a (n + 1) m' hrest'
            (hseg rfl) heps' (hfits.mp rfl) ha
          refine ⟨cuts, ?_, hcut, hmax⟩
          unfold pgmLoop pgmStep
          simp only [hadd, Option.bind_eq_bind, Option.bind_some, if_true]
          rw [show a + n + 1 = a + (n + 1) from rfl, hloop]
          rfl
      | false =>
          have hnot : ¬ Fits keys eps a (a + n + 1) := fun h => absurd (hfits.mpr h) (by simp)
          -- a block of one sample always fits, so the block that is cut is not empty
          have hn : 0 < n := by
            rcases Nat.eq_zero_or_pos n with rfl | hpos
            · refine absurd ?_ hnot
              refine feasible_block_iff.mp ?_
              rw [block_succ hk]
              exact feasible_singleton _
            · exact hpos
          have hreset : m'.reset.Segment (block keys eps (a + n) 0) := by
            refine ⟨rfl, fun h => absurd rfl h, trivial⟩
          obtain ⟨fits₂, m₂, hadd₂, heps₂, hfits₂, hseg₂⟩ :=
            addPoint_block (m := m'.reset) (n := 0) hinc hreset heps' hk (by omega)
          have hone : Fits keys eps (a + n) (a + n + 1) := by
            have hblock : block keys eps (a + n) 1 = [sample eps (a + n) k] :=
              block_succ (n := 0) hk
            refine feasible_block_iff.mp ?_
            rw [hblock]
            exact feasible_singleton _
          have htrue : fits₂ = true := hfits₂.mpr hone
          obtain ⟨cuts, hloop, hcut, hmax⟩ := pgmLoop_spec hinc hsmall rest (a + n) 1 m₂ hrest'
            (hseg₂ htrue) heps₂ hone hlt
          have hadd₂' : m'.reset.addPoint k (a + n) = some (fits₂, m₂) := hadd₂
          refine ⟨(a + n) :: cuts, ?_, ⟨by omega, hfit, hcut⟩, hnot, hmax⟩
          unfold pgmLoop pgmStep
          simp only [hadd, hadd₂', Option.bind_eq_bind, Option.bind_some, Bool.false_eq_true,
            if_false, if_true, hloop]

end loop

/-- `PGM_metric` is the least number of blocks for which a line is within the error bound, and each
block that it cuts is maximal to the right. -/
theorem pgmMetric_optimal (keys : List ℤ) (eps : ℕ) (hinc : keys.Pairwise (· < ·))
    (hpos : 1 ≤ keys.length) (hlen : keys.length < 2 ^ 31) (heps : eps < 2 ^ 31) :
    ∃ cuts, pgmCuts keys eps = some cuts ∧ pgmMetric keys eps = some (cuts.length + 1) ∧
      Cutting (Fits keys eps) keys.length 0 cuts ∧
      IsLeast {k | ∃ cuts', Cutting (Fits keys eps) keys.length 0 cuts' ∧ k = cuts'.length + 1}
        (cuts.length + 1) ∧
      Maximal (Fits keys eps) 0 cuts := by
  have hsort : keys.insertionSort (· ≤ ·) = keys :=
    List.Pairwise.insertionSort_eq (hinc.imp le_of_lt)
  have hempty : Fits keys eps 0 (0 + 0) := ⟨⟨0, 0⟩, fun i k _ hi _ => absurd hi (by omega)⟩
  obtain ⟨cuts, hloop, hcut, hmax⟩ := pgmLoop_spec hinc
    (show keys.length + eps ≤ PiecewiseModel.maxY by unfold PiecewiseModel.maxY; omega)
    keys 0 0 (PiecewiseModel.new eps) rfl ⟨rfl, fun h => absurd rfl h, trivial⟩ rfl hempty hpos
  have hcuts : pgmCuts keys eps = some cuts := by
    unfold pgmCuts
    rw [hsort]
    exact hloop
  refine ⟨cuts, hcuts, ?_, hcut, hmax.isLeast (fits_hereditary keys eps) hcut, hmax⟩
  unfold pgmMetric
  rw [hcuts]
  rfl

theorem pgmMetric_optimal_four :
    ∃ cuts, pgmCuts [0, 1, 5, 6] 0 = some cuts ∧ pgmMetric [0, 1, 5, 6] 0 = some (cuts.length + 1) ∧
      Cutting (Fits [0, 1, 5, 6] 0) 4 0 cuts ∧
      IsLeast {k | ∃ cuts', Cutting (Fits [0, 1, 5, 6] 0) 4 0 cuts' ∧ k = cuts'.length + 1}
        (cuts.length + 1) ∧
      Maximal (Fits [0, 1, 5, 6] 0) 0 cuts :=
  pgmMetric_optimal [0, 1, 5, 6] 0 (by decide) (by decide) (by decide) (by decide)

end LearnedIndex.Benchmark
