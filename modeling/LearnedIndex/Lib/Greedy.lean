import Mathlib.Tactic
import Mathlib.Data.List.Chain

/-! # Greedy cuts

Positions `0, …, n - 1` are cut into consecutive blocks, each of which has to be admissible, where a
part of an admissible block is admissible.  Cutting a block only where it cannot be extended needs
the fewest blocks (`Maximal.isLeast`): by induction along the cuts, no other cutting ever gets
ahead. -/

namespace LearnedIndex.Greedy

variable {R : ℕ → ℕ → Prop} {n a b : ℕ} {cuts cuts' : List ℕ}

/-- A part of an admissible block is admissible. -/
def Hereditary (R : ℕ → ℕ → Prop) : Prop :=
  ∀ a b a' b', R a b → a ≤ a' → b' ≤ b → R a' b'

/-- The blocks from `a` to `n` that end at the cuts and at `n` are admissible. -/
def Cutting (R : ℕ → ℕ → Prop) (n : ℕ) : ℕ → List ℕ → Prop
  | a, [] => a < n ∧ R a n
  | a, c :: cuts => a < c ∧ R a c ∧ Cutting R n c cuts

/-- No block that ends at a cut can be extended by one position. -/
def Maximal (R : ℕ → ℕ → Prop) : ℕ → List ℕ → Prop
  | _, [] => True
  | a, c :: cuts => ¬ R a (c + 1) ∧ Maximal R c cuts

theorem Cutting.lt : ∀ {a : ℕ} {cuts : List ℕ}, Cutting R n a cuts → a < n
  | _, [], h => h.1
  | _, _ :: _, h => h.1.trans (Cutting.lt h.2.2)

/-- A cutting that starts further back needs no fewer cuts. -/
theorem Maximal.length_le (hR : Hereditary R) :
    ∀ {cuts cuts' : List ℕ} {a b : ℕ}, Maximal R a cuts → Cutting R n a cuts →
      Cutting R n b cuts' → b ≤ a → cuts.length ≤ cuts'.length
  | [], _, _, _, _, _, _, _ => Nat.zero_le _
  | c :: cuts, [], a, b, hmax, hcut, hcut', hba => by
      -- the other cutting ends here, so the block could be extended
      exact absurd (hR b n a (c + 1) hcut'.2 hba hcut.2.2.lt) hmax.1
  | c :: cuts, d :: cuts', a, b, hmax, hcut, hcut', hba => by
      have hdc : d ≤ c := by
        by_contra hlt
        exact hmax.1 (hR b d a (c + 1) hcut'.2.1 hba (by omega))
      exact Nat.succ_le_succ (Maximal.length_le hR hmax.2 hcut.2.2 hcut'.2.2 hdc)

/-- Maximal blocks are the fewest. -/
theorem Maximal.isLeast (hR : Hereditary R) (hmax : Maximal R a cuts) (hcut : Cutting R n a cuts) :
    IsLeast {k | ∃ cuts', Cutting R n a cuts' ∧ k = cuts'.length + 1} (cuts.length + 1) := by
  refine ⟨⟨cuts, hcut, rfl⟩, ?_⟩
  rintro k ⟨cuts', hcut', rfl⟩
  exact Nat.succ_le_succ (Maximal.length_le hR hmax hcut hcut' le_rfl)

end LearnedIndex.Greedy
