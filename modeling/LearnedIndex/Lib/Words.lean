import Mathlib.Data.Nat.Count
import Mathlib.Tactic

/-! # Bits of machine words and word-packed bitmaps

Two layers.  The first is about a single word `BitVec w`: the population count as a count of
set bits, the lowest set bit isolated by `x &&& -x` and removed by `x &&& (x - 1)`, and the
positions named by the leading and trailing zero counts.  The second packs a sequence of
Booleans into a list of words of 64 bits (`Bitmap`), position `i` being bit `i % 64` of word
`i / 64`, and says what setting or clearing one bit does to the sequence and to the number of
set bits.

`bitAt` reads positions outside the list as clear, so every statement below is total; the
programs that use a bitmap read words through `bits[j]?` and are the ones to show that they
stay inside. -/

namespace LearnedIndex.Words

/-! ### One word -/

section word
variable {w : ℕ}

theorem cpopNatRec_eq_count (x : BitVec w) (n : ℕ) :
    x.cpopNatRec n 0 = Nat.count (fun i => x.getLsbD i = true) n := by
  induction n with
  | zero => simp
  | succ n ih =>
      rw [BitVec.cpopNatRec_succ, Nat.zero_add, BitVec.cpopNatRec_eq, ih, Nat.count_succ]
      cases x.getLsbD n <;> simp

/-- The population count is the number of set bits. -/
theorem cpop_eq_count (x : BitVec w) :
    x.cpop.toNat = Nat.count (fun i => x.getLsbD i = true) w := by
  rw [BitVec.toNat_cpop, cpopNatRec_eq_count]

theorem ctz_lt {x : BitVec w} (hx : x ≠ 0#w) : x.ctz.toNat < w := by
  have h := BitVec.lt_def.mp (BitVec.ctz_lt_iff_ne_zero.mpr hx)
  simpa using h

theorem getLsbD_false_of_clz {x : BitVec w} {i : ℕ} (hi : w - x.clz.toNat ≤ i) :
    x.getLsbD i = false := by
  have h := BitVec.toNat_lt_two_pow_sub_clz (x := x)
  rw [BitVec.getLsbD]
  exact Nat.testBit_lt_two_pow (lt_of_lt_of_le h (Nat.pow_le_pow_right (by omega) hi))

/-- Isolating the lowest set bit. -/
theorem and_neg_eq_twoPow {x : BitVec w} (hx : x ≠ 0#w) :
    x &&& -x = BitVec.twoPow w x.ctz.toNat := by
  have hlt := ctz_lt hx
  have htop := BitVec.getLsbD_true_ctz_of_ne_zero hx
  apply BitVec.eq_of_getLsbD_eq
  intro i hi
  rw [BitVec.getLsbD_and, BitVec.getLsbD_neg, BitVec.getLsbD_twoPow]
  rcases Nat.lt_trichotomy i x.ctz.toNat with h | h | h
  · simp [BitVec.getLsbD_false_of_lt_ctz h, Nat.ne_of_gt h]
  · have hno : ¬ ∃ j < i, x.getLsbD j = true := by
      rintro ⟨j, hj, hb⟩
      rw [BitVec.getLsbD_false_of_lt_ctz (h ▸ hj)] at hb
      cases hb
    have hdec : decide (∃ j < i, x.getLsbD j = true) = false := decide_eq_false hno
    rw [hdec, h, htop]
    simp [hlt]
  · have hyes : ∃ j < i, x.getLsbD j = true := ⟨_, h, htop⟩
    cases x.getLsbD i <;> simp [hyes, hi, Nat.ne_of_lt h]

theorem getLsbD_sub_one {x : BitVec w} {i : ℕ} (hi : i < w) :
    (x - 1#w).getLsbD i = !(x.getLsbD i ^^ decide (∃ j < i, x.getLsbD j = true)) := by
  rw [← BitVec.not_neg, BitVec.getLsbD_not, BitVec.getLsbD_neg]
  simp [hi]

/-- Removing the lowest set bit leaves the other bits alone. -/
theorem getLsbD_and_sub_one {x : BitVec w} (hx : x ≠ 0#w) (i : ℕ) :
    (x &&& (x - 1#w)).getLsbD i = (x.getLsbD i && decide (i ≠ x.ctz.toNat)) := by
  have htop := BitVec.getLsbD_true_ctz_of_ne_zero hx
  rw [BitVec.getLsbD_and]
  by_cases hi : i < w
  · rw [getLsbD_sub_one hi]
    rcases Nat.lt_trichotomy i x.ctz.toNat with h | h | h
    · simp [BitVec.getLsbD_false_of_lt_ctz h]
    · have hno : ¬ ∃ j < i, x.getLsbD j = true := by
        rintro ⟨j, hj, hb⟩
        rw [BitVec.getLsbD_false_of_lt_ctz (h ▸ hj)] at hb
        cases hb
      have hdec : decide (∃ j < i, x.getLsbD j = true) = false := decide_eq_false hno
      rw [hdec, h, htop]
      simp
    · have hyes : ∃ j < i, x.getLsbD j = true := ⟨_, h, htop⟩
      cases x.getLsbD i <;> simp [hyes, Nat.ne_of_gt h]
  · simp [BitVec.getLsbD_of_ge x i (Nat.le_of_not_lt hi)]

/-- The bits below a power of two, counted. -/
theorem cpop_twoPow_sub_one {t : ℕ} (ht : t < w) :
    (BitVec.twoPow w t - 1#w).cpop.toNat = t := by
  have hbit : ∀ i, i < w → (BitVec.twoPow w t - 1#w).getLsbD i = decide (i < t) := by
    intro i hi
    rw [getLsbD_sub_one hi]
    simp only [BitVec.getLsbD_twoPow, ht, decide_true, Bool.true_and]
    by_cases h1 : t = i
    · simp [h1]
    · by_cases h2 : t < i
      · have h3 : ¬ i < t := by omega
        simp [h1, h2, h3]
      · have h3 : i < t := by omega
        simp [h1, h2, h3]
  rw [cpop_eq_count]
  have hcount : ∀ n, n ≤ w → Nat.count (fun i => (BitVec.twoPow w t - 1#w).getLsbD i = true) n
      = min n t := by
    intro n
    induction n with
    | zero => simp
    | succ n ih =>
        intro hn
        rw [Nat.count_succ, ih (by omega), hbit n (by omega)]
        by_cases h : n < t
        · simp [h]; omega
        · simp [h]; omega
  rw [hcount w le_rfl]
  omega

end word

/-! ### Bitmaps -/

/-- A machine word of 64 bits. -/
abbrev Word := BitVec 64

/-- A sequence of Booleans packed 64 to a word. -/
abbrev Bitmap := List Word

/-- Position `i` of a bitmap; positions past the last word read as clear. -/
def bitAt (bm : Bitmap) (i : ℕ) : Bool := (bm.getD (i / 64) 0#64).getLsbD (i % 64)

/-- Number of set bits of a bitmap. -/
def ones (bm : Bitmap) : ℕ := (bm.map (fun v => v.cpop.toNat)).sum

theorem bitAt_of_ge {bm : Bitmap} {i : ℕ} (h : 64 * bm.length ≤ i) : bitAt bm i = false := by
  unfold bitAt
  rw [List.getD_eq_getElem?_getD, List.getElem?_eq_none (by omega)]
  simp

theorem bitAt_eq {bm : Bitmap} {i : ℕ} {v : Word} (h : bm[i / 64]? = some v) :
    bitAt bm i = v.getLsbD (i % 64) := by
  rw [bitAt, List.getD_eq_getElem?_getD, h]
  rfl

/-- Bitmaps of one length with the same positions are the same. -/
theorem bitmap_ext {bm bm' : Bitmap} (hlen : bm.length = bm'.length)
    (h : ∀ i, bitAt bm i = bitAt bm' i) : bm = bm' := by
  refine List.ext_getElem hlen (fun j hj hj' => BitVec.eq_of_getLsbD_eq (fun i hi => ?_))
  have hdiv : (64 * j + i) / 64 = j := by omega
  have hmod : (64 * j + i) % 64 = i := by omega
  have hj1 : bm[(64 * j + i) / 64]? = some bm[j] := by
    rw [hdiv]
    exact List.getElem?_eq_getElem hj
  have hj2 : bm'[(64 * j + i) / 64]? = some bm'[j] := by
    rw [hdiv]
    exact List.getElem?_eq_getElem hj'
  have hb := h (64 * j + i)
  rwa [bitAt_eq hj1, bitAt_eq hj2, hmod] at hb

theorem bitAt_cons_lt (v : Word) (bm : Bitmap) {i : ℕ} (h : i < 64) :
    bitAt (v :: bm) i = v.getLsbD i := by
  simp [bitAt, Nat.div_eq_of_lt h, Nat.mod_eq_of_lt h]

theorem bitAt_cons_add (v : Word) (bm : Bitmap) (i : ℕ) :
    bitAt (v :: bm) (64 + i) = bitAt bm i := by
  have h1 : (64 + i) / 64 = i / 64 + 1 := by omega
  have h2 : (64 + i) % 64 = i % 64 := by omega
  simp [bitAt, h1, h2]

/-- The population counts of the words add up to the number of set positions. -/
theorem ones_eq_count (bm : Bitmap) :
    ones bm = Nat.count (fun i => bitAt bm i = true) (64 * bm.length) := by
  induction bm with
  | nil => simp [ones]
  | cons v bm ih =>
      have hlen : 64 * (v :: bm).length = 64 + 64 * bm.length := by simp; omega
      have hhead : Nat.count (fun i => bitAt (v :: bm) i = true) 64 = v.cpop.toNat := by
        rw [cpop_eq_count, Nat.count_eq_card_filter_range, Nat.count_eq_card_filter_range]
        refine congrArg Finset.card (Finset.filter_congr ?_)
        intro i hi
        rw [bitAt_cons_lt v bm (Finset.mem_range.mp hi)]
      rw [hlen, Nat.count_add, hhead]
      simp only [bitAt_cons_add]
      rw [← ih]
      simp [ones]

/-- Counting up to any bound past the last set bit gives the number of set bits. -/
theorem ones_eq_count_of_clear {bm : Bitmap} {n : ℕ} (hn : n ≤ 64 * bm.length)
    (h : ∀ i, n ≤ i → bitAt bm i = false) :
    ones bm = Nat.count (fun i => bitAt bm i = true) n := by
  obtain ⟨d, hd⟩ := Nat.exists_eq_add_of_le hn
  rw [ones_eq_count, hd, Nat.count_add]
  have hz : Nat.count (fun k => bitAt bm (n + k) = true) d = 0 := by
    rw [Nat.count_iff_forall_not]
    intro k _
    rw [h _ (Nat.le_add_right n k)]
    simp
  omega

/-- Setting one bit of a word. -/
theorem getLsbD_or_one_shiftLeft (v : Word) (b i : ℕ) (hi : i < 64) :
    (v ||| (1#64 <<< b)).getLsbD i = (v.getLsbD i || decide (i = b)) := by
  rw [BitVec.getLsbD_or, BitVec.getLsbD_shiftLeft]
  by_cases h : i = b
  · simp [h, h ▸ hi]
  · by_cases h' : i < b
    · simp [h, h']
    · have : ¬ i - b = 0 := by omega
      simp [h, BitVec.getLsbD_one, this]

/-- Clearing one bit of a word. -/
theorem getLsbD_and_not_one_shiftLeft (v : Word) (b i : ℕ) (hi : i < 64) :
    (v &&& ~~~(1#64 <<< b)).getLsbD i = (v.getLsbD i && decide (i ≠ b)) := by
  rw [BitVec.getLsbD_and, BitVec.getLsbD_not, BitVec.getLsbD_shiftLeft]
  by_cases h : i = b
  · simp [h, h ▸ hi]
  · by_cases h' : i < b
    · simp [h, h', hi]
    · have : ¬ i - b = 0 := by omega
      simp [h, hi, BitVec.getLsbD_one, this]

/-- Testing one bit of a word. -/
theorem and_one_shiftLeft_ne_zero (v : Word) {b : ℕ} (hb : b < 64) :
    ((v &&& (1#64 <<< b)) != 0#64) = v.getLsbD b := by
  have hbit : ∀ i, i < 64 → (v &&& (1#64 <<< b)).getLsbD i = (v.getLsbD b && decide (i = b)) := by
    intro i hi
    rw [BitVec.getLsbD_and, BitVec.getLsbD_shiftLeft]
    by_cases h : i = b
    · simp [h, hb]
    · by_cases h' : i < b
      · simp [h, h']
      · have : ¬ i - b = 0 := by omega
        simp [h, BitVec.getLsbD_one, this]
  cases hv : v.getLsbD b with
  | true =>
      rw [bne_iff_ne]
      intro h0
      have := hbit b hb
      rw [h0, hv] at this
      simp at this
  | false =>
      have h0 : v &&& (1#64 <<< b) = 0#64 := by
        apply BitVec.eq_of_getLsbD_eq
        intro i hi
        rw [hbit i hi, hv]
        simp
      simp [h0]

/-- The bits from `b` on. -/
theorem getLsbD_and_not_mask (v : Word) {b i : ℕ} (hb : b < 64) (hi : i < 64) :
    (v &&& ~~~((1#64 <<< b) - 1#64)).getLsbD i = (v.getLsbD i && decide (b ≤ i)) := by
  have htp : (1#64 <<< b) = BitVec.twoPow 64 b := (BitVec.twoPow_eq 64 b).symm
  rw [BitVec.getLsbD_and, BitVec.getLsbD_not, htp, getLsbD_sub_one hi]
  simp only [BitVec.getLsbD_twoPow, hb, hi, decide_true, Bool.true_and]
  by_cases h1 : b = i
  · simp [h1]
  · by_cases h2 : b < i
    · simp [h1, h2, Nat.le_of_lt h2]
    · have h3 : ¬ b ≤ i := by omega
      simp [h1, h2, h3]

/-- The bits below `b`. -/
theorem getLsbD_and_mask (v : Word) {b i : ℕ} (hb : b < 64) (hi : i < 64) :
    (v &&& ((1#64 <<< b) - 1#64)).getLsbD i = (v.getLsbD i && decide (i < b)) := by
  have h := getLsbD_and_not_mask v hb hi
  rw [BitVec.getLsbD_and, BitVec.getLsbD_not] at h
  rw [BitVec.getLsbD_and]
  have hdec : decide (i < b) = !decide (b ≤ i) := by grind
  rw [hdec]
  revert h
  cases v.getLsbD i <;> simp [hi]

/-- The set bits of a word between two positions. -/
theorem cpop_between {v : Word} {p : ℕ → Prop} [DecidablePred p] {a b : ℕ} (hab : a ≤ b)
    (hb : b ≤ 64) (h : ∀ i, i < 64 → (v.getLsbD i = true ↔ p i ∧ a ≤ i ∧ i < b)) :
    v.cpop.toNat = Nat.count (fun i => p (a + i)) (b - a) := by
  have hsplit := Nat.count_add (fun i => v.getLsbD i = true) a (b - a + (64 - b))
  rw [show a + (b - a + (64 - b)) = 64 by omega, Nat.count_add] at hsplit
  rw [cpop_eq_count, hsplit]
  have h1 : Nat.count (fun i => v.getLsbD i = true) a = 0 := by
    rw [Nat.count_iff_forall_not]
    intro i hi hv
    have := (h i (by omega)).mp hv
    omega
  have h3 : Nat.count (fun i => v.getLsbD (a + (b - a + i)) = true) (64 - b) = 0 := by
    rw [Nat.count_iff_forall_not]
    intro i hi hv
    have := (h _ (by omega)).mp hv
    omega
  rw [h1, h3, Nat.zero_add, Nat.add_zero, Nat.count_eq_card_filter_range,
    Nat.count_eq_card_filter_range]
  congr 1
  refine Finset.filter_congr (fun i hi => ?_)
  have hi := Finset.mem_range.mp hi
  rw [h (a + i) (by omega)]
  constructor
  · exact fun hp => hp.1
  · exact fun hp => ⟨hp, by omega, by omega⟩

theorem bitAt_set {bm : Bitmap} {j : ℕ} {v : Word} (hj : j < bm.length) (i : ℕ) :
    bitAt (bm.set j v) i = if i / 64 = j then v.getLsbD (i % 64) else bitAt bm i := by
  unfold bitAt
  rw [List.getD_eq_getElem?_getD, List.getD_eq_getElem?_getD, List.getElem?_set]
  by_cases h : j = i / 64
  · simp [h, h ▸ hj]
  · simp [h, Ne.symm h]

/-- Setting position `p`. -/
theorem bitAt_setOne {bm : Bitmap} {p : ℕ} {v : Word} (hv : bm[p / 64]? = some v) (i : ℕ) :
    bitAt (bm.set (p / 64) (v ||| (1#64 <<< (p % 64)))) i = (bitAt bm i || decide (i = p)) := by
  obtain ⟨hlt, _⟩ := List.getElem?_eq_some_iff.mp hv
  rw [bitAt_set hlt]
  by_cases h : i / 64 = p / 64
  · rw [if_pos h, getLsbD_or_one_shiftLeft _ _ _ (Nat.mod_lt _ (by omega)),
      bitAt_eq (h ▸ hv : bm[i / 64]? = some v)]
    have : i % 64 = p % 64 ↔ i = p := by omega
    simp [this]
  · rw [if_neg h]
    have : i ≠ p := fun e => h (by rw [e])
    simp [this]

/-- Clearing position `p`. -/
theorem bitAt_clearOne {bm : Bitmap} {p : ℕ} {v : Word} (hv : bm[p / 64]? = some v) (i : ℕ) :
    bitAt (bm.set (p / 64) (v &&& ~~~(1#64 <<< (p % 64)))) i = (bitAt bm i && decide (i ≠ p)) := by
  obtain ⟨hlt, _⟩ := List.getElem?_eq_some_iff.mp hv
  rw [bitAt_set hlt]
  by_cases h : i / 64 = p / 64
  · rw [if_pos h, getLsbD_and_not_one_shiftLeft _ _ _ (Nat.mod_lt _ (by omega)),
      bitAt_eq (h ▸ hv : bm[i / 64]? = some v)]
    have : i % 64 = p % 64 ↔ i = p := by omega
    simp [this]
  · rw [if_neg h]
    have : i ≠ p := fun e => h (by rw [e])
    simp [this]

theorem bitAt_replicate_zero (n i : ℕ) : bitAt (List.replicate n 0#64) i = false := by
  unfold bitAt
  rw [List.getD_eq_getElem?_getD, List.getElem?_replicate]
  split <;> simp

end LearnedIndex.Words
