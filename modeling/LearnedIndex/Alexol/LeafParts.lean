import LearnedIndex.Alexol.Leaf
import LearnedIndex.Alexol.Restructure

/-! # Parts of a leaf

A split divides the slots of a leaf at positions that it finds by key.  `cut n x` is the position
that `lower_bound` returns for the value `x`, and `pairsBetween` lists the pairs between two
positions.  A new leaf that is loaded from a range of positions stores exactly those pairs. -/

namespace LearnedIndex.Alexol

open LearnedIndex.Words

/-! ### Counting the keys of a range -/

namespace Reps

variable {P : Type} {s : Slots P} {v : View P}

/-- The filled positions of `[lo, hi)`. -/
def filledIn (v : View P) (lo hi : ℕ) : ℕ := Nat.count (fun i => v.bit (lo + i) = true) (hi - lo)

theorem filledIn_add {lo mid hi : ℕ} (h1 : lo ≤ mid) (h2 : mid ≤ hi) :
    filledIn v lo mid + filledIn v mid hi = filledIn v lo hi := by
  unfold filledIn
  rw [show hi - lo = mid - lo + (hi - mid) by omega, Nat.count_add]
  congr 2
  funext i
  rw [show lo + (mid - lo + i) = mid + i by omega]

/-- The bits of a word that belong to positions from `lo` to `hi`. -/
theorem countOnes_word {j a b : ℕ} {data : Word} (hab : a ≤ b) (hb : b ≤ 64)
    (h : ∀ i, i < 64 → (data.getLsbD i = true ↔ v.bit (64 * j + i) = true ∧ a ≤ i ∧ i < b)) :
    countOnes data = filledIn v (64 * j + a) (64 * j + b) := by
  unfold countOnes filledIn
  rw [cpop_between hab hb h, show 64 * j + b - (64 * j + a) = b - a by omega]
  congr 1
  funext i
  rw [Nat.add_assoc]

theorem inner_words (h : Reps s v) (start : ℕ) : ∀ n, start + n ≤ s.bitmapSize →
    ∃ ws, (List.range' start n).mapM (fun i => s.bitmap[i]?) = some ws ∧
      (ws.map countOnes).sum = filledIn v (64 * start) (64 * (start + n))
  | 0, _ => ⟨[], rfl, by simp [filledIn]⟩
  | n + 1, hn => by
      obtain ⟨ws, hws, hsum⟩ := h.inner_words start n (by omega)
      obtain ⟨w, hw, hbits⟩ := h.getElem_bitmap (show start + n < s.bitmapSize by omega)
      refine ⟨ws ++ [w], ?_, ?_⟩
      · rw [List.range'_concat, List.mapM_append, hws]
        simp [hw]
      · have hword : countOnes w = filledIn v (64 * (start + n) + 0) (64 * (start + n) + 64) :=
          countOnes_word (by omega) (le_refl 64) (fun i hi => by
            rw [hbits i hi]
            simp [hi])
        rw [List.map_append, List.sum_append, hsum, List.map_singleton, List.sum_singleton, hword,
          Nat.add_zero, filledIn_add (by omega) (by omega)]
        rfl

/-- `num_keys_in_range` counts the filled positions. -/
theorem numKeysInRange (h : Reps s v) (past : Word) {left right : ℕ} (hlr : left ≤ right)
    (hr : right ≤ v.cap) :
    s.numKeysInRange (some past) left right = some (filledIn v left right) := by
  have hsize := h.size
  have hl64 : left % 64 < 64 := Nat.mod_lt _ (by omega)
  have hr64 : right % 64 < 64 := Nat.mod_lt _ (by omega)
  unfold Slots.numKeysInRange
  simp only [shift_div, shift_mod]
  by_cases heq : left / 64 = right / 64
  · rw [if_pos heq]
    rcases Nat.lt_or_ge (left / 64) s.bitmapSize with hlt | hge
    · obtain ⟨w, hw, hbits⟩ := h.getElem_bitmap hlt
      have hword : s.wordAt (some past) (left / 64) = some w := by
        unfold Slots.wordAt
        rw [if_neg (by omega), hw]
      simp only [hword, Option.bind_eq_bind, Option.bind_some]
      rw [countOnes_word (v := v) (j := left / 64) (a := left % 64) (b := right % 64) (by omega)
        (by omega)]
      · rw [Nat.div_add_mod, heq, Nat.div_add_mod]
      · intro i hi
        rw [getLsbD_and_mask _ hr64 hi, getLsbD_and_not_mask _ hl64 hi, hbits i hi]
        simp [and_assoc]
    · -- both positions are the capacity, at the end of the last word
      have hle : left / 64 = s.bitmapSize := by omega
      have hword : s.wordAt (some past) (left / 64) = some past := by
        unfold Slots.wordAt
        rw [if_pos hle]
      have h0 : left = right := by omega
      simp only [hword, Option.bind_eq_bind, Option.bind_some]
      rw [countOnes_word (v := v) (j := left / 64) (a := left % 64) (b := right % 64) (by omega)
        (by omega)]
      · rw [Nat.div_add_mod, heq, Nat.div_add_mod]
      · intro i hi
        rw [getLsbD_and_mask _ hr64 hi, getLsbD_and_not_mask _ hl64 hi]
        have hbit : v.bit (64 * (left / 64) + i) = false := h.bit_of_size (by omega)
        rw [hbit]
        simp
        omega
  · rw [if_neg heq]
    have hdiv : left / 64 < right / 64 := lt_of_le_of_ne (Nat.div_le_div_right hlr) heq
    obtain ⟨w, hw, hbits⟩ := h.getElem_bitmap (show left / 64 < s.bitmapSize by omega)
    obtain ⟨ws, hws, hsum⟩ := h.inner_words (left / 64 + 1) (right / 64 - (left / 64 + 1))
      (by omega)
    rw [show left / 64 + 1 + (right / 64 - (left / 64 + 1)) = right / 64 by omega] at hsum
    have hleft : countOnes (w &&& ~~~((1#64 <<< (left % 64)) - 1#64)) =
        filledIn v left (64 * (left / 64 + 1)) := by
      rw [countOnes_word (v := v) (j := left / 64) (a := left % 64) (b := 64) (by omega)
        (le_refl 64)]
      · rw [Nat.div_add_mod]
        rfl
      · intro i hi
        rw [getLsbD_and_not_mask _ hl64 hi, hbits i hi]
        simp [hi]
    simp only [hw, hws, Option.bind_eq_bind, Option.bind_some, hleft, hsum]
    rw [filledIn_add (by omega) (by omega)]
    by_cases hend : right / 64 = s.bitmapSize
    · rw [if_pos hend, show 64 * (right / 64) = right by omega]
    · rw [if_neg hend]
      obtain ⟨w', hw', hbits'⟩ := h.getElem_bitmap (show right / 64 < s.bitmapSize by omega)
      simp only [hw', Option.bind_some]
      rw [countOnes_word (v := v) (j := right / 64) (a := 0) (b := right % 64) (by omega)
        (by omega)]
      · rw [Nat.add_zero, Nat.div_add_mod, filledIn_add (by omega) (by omega)]
      · intro i hi
        rw [getLsbD_and_mask _ hr64 hi, hbits' i hi]
        simp

end Reps

/-! ### Cuts -/

namespace DataNode

variable {M P : Type} {T : KeyType} {n : DataNode M P} {v : View P} {k : ℕ → ℤ}

/-- The pairs between two positions. -/
def pairsBetween (n : DataNode M P) (left right : ℕ) : List (ℤ × P) :=
  (List.range' left (right - left)).filterMap
    (fun i => if n.checkExists i = some true then n.pairAt i else none)

/-- The first position whose key is no less than `x`. -/
def cut (n : DataNode M P) (x : ℚ) : ℕ :=
  ((List.range n.dataCapacity).takeWhile
    (fun i => (n.keyAt i).any (fun k => decide ((k : ℚ) < x)))).length

theorem pairs_eq_pairsBetween (n : DataNode M P) : n.pairs = n.pairsBetween 0 n.dataCapacity := by
  unfold pairs pairsBetween
  rw [Nat.sub_zero, ← List.range_eq_range']

theorem pairsBetween_append (n : DataNode M P) {l m r : ℕ} (h1 : l ≤ m) (h2 : m ≤ r) :
    n.pairsBetween l m ++ n.pairsBetween m r = n.pairsBetween l r := by
  unfold pairsBetween
  rw [← List.filterMap_append]
  congr 1
  have h := List.range'_append_1 (s := l) (m := m - l) (n := r - m)
  rw [show l + (m - l) = m by omega, show m - l + (r - m) = r - l by omega] at h
  exact h

theorem pairsBetween_self (n : DataNode M P) (l : ℕ) : n.pairsBetween l l = [] := by
  unfold pairsBetween
  rw [Nat.sub_self]
  rfl

theorem pairsBetween_congr {n' : DataNode M P} (h : n'.toSlots = n.toSlots) :
    n'.pairsBetween = n.pairsBetween := by
  funext l r
  unfold pairsBetween pairAt
  rw [h]

theorem cut_congr {n' : DataNode M P} (h : n'.toSlots = n.toSlots) : n'.cut = n.cut := by
  funext x
  unfold cut
  rw [h]

theorem Holds.pairsBetween_eq (h : Holds T n v k) {left right : ℕ} (hr : right ≤ v.cap) :
    n.pairsBetween left right = v.seg left right := by
  unfold pairsBetween View.seg
  refine List.filterMap_congr (fun i hi => ?_)
  have hlt : i < v.cap := by
    rw [List.mem_range'_1] at hi
    omega
  rw [h.reps.checkExists hlt]
  cases hb : v.bit i with
  | false => rw [if_neg (by simp), View.cell_gap hb]
  | true =>
      obtain ⟨p, _, hcell⟩ := h.gapped.cell hlt hb
      rw [if_pos rfl, hcell]
      exact h.pairAt hcell

theorem Holds.cut_spec (h : Holds T n v k) (x : ℚ) :
    v.CutAt k (fun y => (y : ℚ) < x) (n.cut x) := by
  obtain ⟨c, hc⟩ := h.exists_lower x
  have hkey : ∀ i, i < v.cap → n.keyAt i = some (k i) := fun i hi => by
    rw [h.reps.key]
    exact h.gapped.init i hi
  have hle := hc.le
  suffices hcut : n.cut x = c by
    rw [hcut]
    exact hc
  unfold cut
  have hsplit := List.range'_append_1 (s := 0) (m := c) (n := v.cap - c)
  rw [Nat.zero_add, show c + (v.cap - c) = v.cap by omega] at hsplit
  rw [h.reps.cap, List.range_eq_range', ← hsplit, List.takeWhile_append_of_pos]
  · have hrest : (List.range' c (v.cap - c)).takeWhile
        (fun i => (n.keyAt i).any (fun k => decide ((k : ℚ) < x))) = [] := by
      cases hd : v.cap - c with
      | zero => rfl
      | succ d =>
          have hge := hc.ge c (le_refl c) (by omega)
          rw [List.range'_succ, List.takeWhile_cons_of_neg]
          rw [hkey c (by omega)]
          simpa using hge
    rw [hrest, List.append_nil, List.length_range']
  · intro i hi
    have hi : i < c := by simpa using hi
    rw [hkey i (by omega)]
    simpa using hc.lt i hi

namespace Stores

theorem cut_le (h : Stores T n) (x : ℚ) : n.cut x ≤ n.dataCapacity := by
  obtain ⟨v, k, hh⟩ := h.holds
  rw [hh.reps.cap]
  exact (hh.cut_spec x).le

theorem cut_mono (h : Stores T n) {x y : ℚ} (hxy : x ≤ y) : n.cut x ≤ n.cut y := by
  obtain ⟨v, k, hh⟩ := h.holds
  have hx := hh.cut_spec x
  have hy := hh.cut_spec y
  by_contra hlt
  have h1 := hx.lt (n.cut y) (by omega)
  exact hy.ge (n.cut y) (le_refl _) (lt_of_lt_of_le (by omega) hx.le) (lt_of_lt_of_le h1 hxy)

theorem lowerBound [NodeModel M] (h : Stores T n) (x : ℚ) :
    ∃ a b, n.lowerBound x = some (n.cut x, n.withCounters a b) := by
  obtain ⟨v, k, hh⟩ := h.holds
  exact hh.lowerBound (hh.cut_spec x)

/-- The pairs below a cut have smaller keys. -/
theorem lt_of_mem (h : Stores T n) {l r : ℕ} {x : ℚ} (hr : r ≤ n.cut x) {e : ℤ × P}
    (he : e ∈ n.pairsBetween l r) : (e.1 : ℚ) < x := by
  obtain ⟨v, k, hh⟩ := h.holds
  have hc := hh.cut_spec x
  rw [hh.pairsBetween_eq (hr.trans hc.le)] at he
  obtain ⟨i, _, hi, hcell⟩ := View.mem_seg.mp he
  rw [(hh.gapped.key_of_cell (lt_of_lt_of_le (by omega) hc.le) hcell).2]
  exact hc.lt i (by omega)

/-- The pairs from a cut on have keys that are no less. -/
theorem le_of_mem (h : Stores T n) {l r : ℕ} {x : ℚ} (hl : n.cut x ≤ l) (hr : r ≤ n.dataCapacity)
    {e : ℤ × P} (he : e ∈ n.pairsBetween l r) : x ≤ e.1 := by
  obtain ⟨v, k, hh⟩ := h.holds
  have hc := hh.cut_spec x
  rw [hh.reps.cap] at hr
  rw [hh.pairsBetween_eq hr] at he
  obtain ⟨i, hi, hi', hcell⟩ := View.mem_seg.mp he
  rw [(hh.gapped.key_of_cell (lt_of_lt_of_le hi' hr) hcell).2]
  exact not_lt.mp (hc.ge i (by omega) (by omega))

theorem mem_pairs (h : Stores T n) {l r : ℕ} (hr : r ≤ n.dataCapacity) {e : ℤ × P}
    (he : e ∈ n.pairsBetween l r) : e ∈ n.pairs := by
  obtain ⟨v, k, hh⟩ := h.holds
  rw [hh.reps.cap] at hr
  rw [hh.pairsBetween_eq hr] at he
  obtain ⟨i, _, hi, hcell⟩ := View.mem_seg.mp he
  rw [hh.pairs_eq]
  exact View.mem_seg.mpr ⟨i, Nat.zero_le i, by omega, hcell⟩

theorem numKeysInRange (h : Stores T n) (past : Word) {left right : ℕ} (hlr : left ≤ right)
    (hr : right ≤ n.dataCapacity) :
    n.numKeysInRange (some past) left right = some (n.pairsBetween left right).length := by
  obtain ⟨v, k, hh⟩ := h.holds
  rw [hh.reps.cap] at hr
  rw [hh.reps.numKeysInRange past hlr hr, hh.pairsBetween_eq hr]
  have hlen := hh.gapped.toGappedTo.length_seg left (right - left) (by omega)
  rw [show left + (right - left) = right by omega] at hlen
  rw [hlen]
  rfl

theorem keysBetween (h : Stores T n) (C : Params M P) {left right : ℕ} (hlr : left ≤ right)
    (hr : right ≤ n.dataCapacity) : FanoutTree.keysBetween C n left right =
      some ((n.pairsBetween left right).map Prod.fst) := by
  obtain ⟨v, k, hh⟩ := h.holds
  rw [hh.reps.cap] at hr
  obtain ⟨front, back, hpos, hback, hread⟩ := hh.positions (some (C.past n.toSlots)) hlr hr
    (Or.inr (by simp))
  unfold FanoutTree.keysBetween
  rw [hpos, Option.bind_eq_bind, Option.bind_some, keysBelow_eq hback hread,
    hh.pairsBetween_eq hr]

end Stores

/-! ### Loading a part -/

/-- A new leaf that stores the given pairs, without a place yet. -/
structure Fresh (T : KeyType) (n : DataNode M P) (pairs : List (ℤ × P)) : Prop where
  stores : Stores T n
  pairs_eq : n.pairs = pairs
  room : Room n
  linkLock : n.linkLock = 0#32

theorem Fresh.congr {n' : DataNode M P} {pairs : List (ℤ × P)} (h : Fresh T n pairs)
    (hs : n'.toSlots = n.toSlots) (hn : n'.numKeys = n.numKeys)
    (ht : n'.expansionThreshold = n.expansionThreshold) (hl : n'.linkLock = n.linkLock) :
    Fresh T n' pairs :=
  ⟨h.stores.congr hs hn, (pairs_congr hs).trans h.pairs_eq, h.room.congr hn ht (by rw [hs]),
    hl.trans h.linkLock⟩

theorem Stores.pairsBetween_sorted (h : Stores T n) {left right : ℕ} (hlr : left ≤ right)
    (hr : right ≤ n.dataCapacity) :
    (n.pairsBetween left right).Pairwise (fun x y => x.1 < y.1) := by
  have hs := h.sorted
  rw [pairs_eq_pairsBetween, ← n.pairsBetween_append (Nat.zero_le left) (hlr.trans hr),
    ← n.pairsBetween_append hlr hr] at hs
  exact (List.pairwise_append.mp (List.pairwise_append.mp hs).2.1).1

/-- `bulk_load_leaf_node_from_existing`. -/
theorem Stores.bulkLoadLeafNode [NodeModel M] (h : Stores T n) {C : Params M P} (hT : C.T = T)
    {left right : ℕ}
    (hlr : left ≤ right) (hr : right ≤ n.dataCapacity) (computeCost : Bool)
    {o : Option (FTNode M)}
    (htree : ∀ t ∈ o, t.numKeys = (n.pairsBetween left right).length)
    (reuseModel keepLeft keepRight : Bool) :
    ∃ n', Index.bulkLoadLeafNodeFromExisting C n left right computeCost o reuseModel keepLeft
        keepRight = some n' ∧ Fresh T n' (n.pairsBetween left right) ∧ n'.prevLeaf = none ∧
      n'.nextLeaf = none := by
  subst hT
  obtain ⟨v, k, hh⟩ := h.holds
  have hrv := hr
  rw [hh.reps.cap] at hrv
  have hseg : n.pairsBetween left right = v.seg left right := hh.pairsBetween_eq hrv
  obtain ⟨pre, hpre, hcount⟩ : ∃ pre, Index.precomputedModel C n left right o reuseModel =
      some pre ∧ ∀ m ∈ pre, m.2 = (v.seg left right).length := by
    unfold Index.precomputedModel
    cases o with
    | some t =>
        refine ⟨_, rfl, ?_⟩
        rintro m ⟨⟩
        rw [← hseg]
        exact htree t rfl
    | none =>
        by_cases hreuse : reuseModel = true
        · rw [if_pos hreuse, h.numKeysInRange _ hlr hr]
          refine ⟨_, rfl, ?_⟩
          rintro m ⟨⟩
          rw [hseg]
        · rw [if_neg hreuse]
          exact ⟨none, rfl, by simp⟩
  obtain ⟨n', v', k', hload, hh', hents, hroom, hplace, _⟩ := hh.bulkLoadFromExisting
    (DataNode.new C.T 0 C.defaultMaxSlots) (some (C.past n.toSlots)) hlr hrv (Or.inr (by simp))
    keepLeft keepRight hcount
  have hs : Stores C.T n' := by
    refine ⟨⟨v', k', hh'⟩, ?_⟩
    rw [hh'.pairs_eq, hents, ← hseg]
    exact h.pairsBetween_sorted hlr hr
  unfold Index.bulkLoadLeafNodeFromExisting
  simp only [hpre, hload, Option.bind_eq_bind, Option.bind_some]
  have hpairs : n'.pairs = n.pairsBetween left right := by rw [hh'.pairs_eq, hents, hseg]
  have hfresh : Fresh C.T n' (n.pairsBetween left right) := ⟨hs, hpairs, hroom, hplace.linkLock⟩
  cases computeCost with
  | true => exact ⟨_, rfl, hfresh.congr rfl rfl rfl rfl, hplace.prevLeaf, hplace.nextLeaf⟩
  | false => exact ⟨_, rfl, hfresh.congr rfl rfl rfl rfl, hplace.prevLeaf, hplace.nextLeaf⟩

end DataNode

end LearnedIndex.Alexol
