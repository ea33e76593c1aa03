import LearnedIndex.Alexol.DataNodeRun
import LearnedIndex.Alexol.Leaf

/-! # Well-formed data nodes

`WellFormed` says directly on the arrays of a data node that they have the sizes the source
allocates, that the slots are sorted, that a gap holds the key of the next filled slot or the end
sentinel, and that the bits count `num_keys_`.  It is the same as holding the entries of a gapped
view (`wellFormed_iff`), so that the lemmas about views apply to every node of this kind, however
it came about. -/

namespace LearnedIndex.Alexol

open LearnedIndex.Words

namespace DataNode

variable {M P : Type} {T : KeyType} {n : DataNode M P} {v : View P} {k : ℕ → ℤ}

/-- The data-node invariant with the sizes of the arrays.  `le_max` only says that the slots hold
values of the key type. -/
structure WellFormed (T : KeyType) (n : DataNode M P) : Prop extends RepInvariant T n where
  pos : 0 < n.dataCapacity
  keyLen : n.keySlots.length = n.dataCapacity
  payLen : n.payloadSlots.length = n.dataCapacity
  size : n.bitmapSize = (n.dataCapacity + 63) / 64
  bmLen : n.bitmap.length = n.bitmapSize
  le_max : ∀ i x, n.keyAt i = some x → x ≤ T.max
  pay : ∀ i, i < n.dataCapacity → bitAt n.bitmap i = true → ∃ p, n.payloadAt i = some p

/-- A position that the bitmap marks as filled. -/
def Filled (n : DataNode M P) (i : ℕ) : Prop := bitAt n.bitmap i = true

instance (n : DataNode M P) (i : ℕ) : Decidable (n.Filled i) := inferInstanceAs (Decidable (_ = _))

/-- The arrays as functions of the position. -/
def view (n : DataNode M P) : View P where
  cap := n.dataCapacity
  key := n.keyAt
  pay := n.payloadAt
  bit := bitAt n.bitmap

/-- The key slots, continued with the sentinel. -/
def keyFrom (T : KeyType) (n : DataNode M P) (i : ℕ) : ℤ :=
  if i < n.dataCapacity then (n.keyAt i).getD T.max else T.max

theorem WellFormed.reps (h : WellFormed T n) : Reps n.toSlots n.view :=
  ⟨rfl, h.pos, h.keyLen, h.payLen, h.size, h.bmLen, fun _ => rfl, fun _ => rfl, fun _ => rfl,
    h.clear⟩

theorem WellFormed.keyAt (h : WellFormed T n) {i : ℕ} (hi : i < n.dataCapacity) :
    n.keyAt i = some (n.keyFrom T i) := by
  obtain ⟨x, _, hx, _, _⟩ := h.sorted i i (le_refl i) hi
  unfold keyFrom
  rw [if_pos hi, hx, Option.getD_some]

theorem WellFormed.keyFrom_le (h : WellFormed T n) (i : ℕ) : n.keyFrom T i ≤ T.max := by
  rcases Nat.lt_or_ge i n.dataCapacity with hi | hi
  · exact h.le_max i _ (h.keyAt hi)
  · unfold keyFrom
    rw [if_neg (by omega)]

theorem WellFormed.keyFrom_mono (h : WellFormed T n) {i j : ℕ} (hij : i ≤ j) :
    n.keyFrom T i ≤ n.keyFrom T j := by
  rcases Nat.lt_or_ge j n.dataCapacity with hj | hj
  · obtain ⟨x, y, hx, hy, hxy⟩ := h.sorted i j hij hj
    rw [h.keyAt (by omega)] at hx
    rw [h.keyAt hj] at hy
    rw [Option.some.inj hx, Option.some.inj hy]
    exact hxy
  · have hmax : n.keyFrom T j = T.max := if_neg (by omega)
    rw [hmax]
    exact h.keyFrom_le i

theorem WellFormed.gapped (h : WellFormed T n) : n.view.Gapped T (n.keyFrom T) := by
  refine ⟨⟨fun i hi => h.keyAt hi, fun i hi => if_neg (not_lt.mpr hi),
    fun i => h.keyFrom_mono (Nat.le_succ i), fun i hi hb => ?_, h.pay⟩⟩
  -- the next filled slot has the key of the gap, and so does every slot between them
  have hi : i < n.dataCapacity := hi
  have hstep : n.keyFrom T i ≤ n.keyFrom T (i + 1) := h.keyFrom_mono (Nat.le_succ i)
  refine le_antisymm hstep ?_
  rcases h.gaps i hi hb with ⟨j, hij, hj, _, _, heq⟩ | ⟨_, hmax⟩
  · rw [h.keyAt hi, h.keyAt hj] at heq
    rw [Option.some.inj heq]
    exact h.keyFrom_mono hij
  · rw [h.keyAt hi] at hmax
    rw [Option.some.inj hmax]
    exact h.keyFrom_le (i + 1)

/-- A well-formed node holds the entries of its own view. -/
theorem WellFormed.holds (h : WellFormed T n) : Holds T n n.view (n.keyFrom T) :=
  ⟨h.reps, h.gapped, by rw [h.gapped.length_entries, ← h.count]; exact h.reps.ones⟩

/-- A node that holds the entries of a view is well formed. -/
theorem Holds.wellFormed (h : Holds T n v k) : WellFormed T n := by
  have hcap := h.reps.cap
  refine ⟨h.repInvariant, h.pos, by rw [hcap]; exact h.reps.keyLen,
    by rw [hcap]; exact h.reps.payLen,
    by rw [hcap]; exact h.reps.size, h.reps.bmLen, fun i x hx => ?_, fun i hi hb => ?_⟩
  · rcases Nat.lt_or_ge i v.cap with hi | hi
    · rw [h.reps.key, h.gapped.init i hi] at hx
      rw [← Option.some.inj hx]
      exact h.gapped.le_past i
    · have hnone : n.keySlots[i]? = none :=
        List.getElem?_eq_none (by rw [h.reps.keyLen]; exact hi)
      unfold Slots.keyAt at hx
      rw [hnone] at hx
      cases hx
  · rw [h.reps.pay]
    rw [h.reps.bit] at hb
    exact h.gapped.pay i (by omega) hb

theorem wellFormed_iff : WellFormed T n ↔ ∃ v k, Holds T n v k :=
  ⟨fun h => ⟨_, _, h.holds⟩, fun ⟨_, _, h⟩ => h.wellFormed⟩

theorem Holds.filled_iff (h : Holds T n v k) (i : ℕ) : n.Filled i ↔ v.bit i = true := by
  unfold Filled
  rw [h.reps.bit]

theorem Holds.keyAt (h : Holds T n v k) {i : ℕ} (hi : i < v.cap) : n.keyAt i = some (k i) := by
  rw [h.reps.key]
  exact h.gapped.init i hi

theorem WellFormed.filled_lt (h : WellFormed T n) {i : ℕ} (hf : n.Filled i) :
    i < n.dataCapacity := by
  by_contra hge
  rw [Filled, h.clear i (by omega)] at hf
  cases hf

/-- The pair of a filled position. -/
theorem Holds.pairAt_filled (h : Holds T n v k) {i : ℕ} (hi : i < v.cap) (hb : v.bit i = true) :
    ∃ p, n.pairAt i = some (k i, p) ∧ v.cell i = some (k i, p) := by
  obtain ⟨p, _, hcell⟩ := h.gapped.cell hi hb
  exact ⟨p, h.pairAt hcell, hcell⟩

theorem Reachable.wellFormed [NodeModel M] {allowDuplicates : Bool}
    (h : Reachable T allowDuplicates n) :
    WellFormed T n :=
  wellFormed_iff.mpr h.good.holds

theorem WellFormed.numKeys (h : WellFormed T n) : n.numKeys = n.pairs.length := by
  rw [h.holds.pairs_eq]
  exact h.holds.count

/-! ### A small node -/

/-- The node that `bulk_load` makes of three pairs. -/
def threeKeys : Option (DataNode LinearModel ℕ) :=
  (DataNode.new KeyType.uint64 0 100).bulkLoad KeyType.uint64 [(1, 10), (2, 20), (3, 30)] none false

theorem threeKeys_wellFormed : ∃ n, threeKeys = some n ∧ WellFormed KeyType.uint64 n := by
  have hs : [((1 : ℤ), 10), (2, 20), (3, 30)].Pairwise (fun a b => a.1 ≤ b.1) := by decide
  have hB : ∀ y ∈ [((1 : ℤ), 10), (2, 20), (3, 30)], y.1 ≤ KeyType.uint64.max := by decide
  obtain ⟨n, v, k, he, hh, _⟩ := (DataNode.new KeyType.uint64 0 100 :
    DataNode LinearModel ℕ).bulkLoad_spec hs hB none false
  exact ⟨n, he, hh.wellFormed⟩

end DataNode

end LearnedIndex.Alexol
