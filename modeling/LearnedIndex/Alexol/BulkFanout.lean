import LearnedIndex.Alexol.FanoutCollapse
import LearnedIndex.Alexol.ImplicitBuild
import Mathlib.Data.List.TakeWhile

/-! # The parts of an array (`bulk_load_node`)

A node over the key range from `lo` to `hi` predicts the fraction of the range (`cdf`).  A level of
its fanout tree divides the sorted array at the values of equal fractions: both kinds of search and
the loop behind them end at the first key that is no less (`partEnd_eq`), and `cutIn` is that
position for any fraction.

So the nodes that are used divide the array at the fractions where they divide the slots
(`bulkFanout_spec`), whether the best level was chosen by cost or an uncut node had to be
divided. -/

namespace LearnedIndex.Alexol

/-- The model of a node over a key range, which outputs a value in `[0, 1)`. -/
def LinearModel.cdf (lo hi : ℚ) : LinearModel := ⟨1 / (hi - lo), -(1 / (hi - lo)) * lo⟩

theorem LinearModel.cdf_slope {lo hi : ℚ} (h : lo < hi) : 0 < (LinearModel.cdf lo hi).a :=
  one_div_pos.mpr (sub_pos.mpr h)

/-- The value at a fraction of a key range. -/
def valueAt (lo hi q : ℚ) : ℚ := lo + q * (hi - lo)

theorem valueAt_zero (lo hi : ℚ) : valueAt lo hi 0 = lo := by
  unfold valueAt
  ring

theorem valueAt_one (lo hi : ℚ) : valueAt lo hi 1 = hi := by
  unfold valueAt
  ring

/-- The slot `i` of the expanded model begins at the fraction `i / F`. -/
theorem LinearModel.cdf_edge {lo hi : ℚ} (h : lo < hi) {F : ℕ} (hF : 0 < F) (x : ℚ) :
    (x - ((LinearModel.cdf lo hi).expand (F : ℚ)).b) / ((LinearModel.cdf lo hi).expand (F : ℚ)).a =
      valueAt lo hi (x / F) := by
  have h1 : hi - lo ≠ 0 := (sub_pos.mpr h).ne'
  have h2 : (F : ℚ) ≠ 0 := by exact_mod_cast hF.ne'
  unfold LinearModel.expand LinearModel.cdf valueAt
  field_simp
  ring

/-- A key below the truncated value is below the value. -/
theorem lt_of_lt_trunc {x : ℚ} {key : ℤ} (h : key < trunc x) : (key : ℚ) < x := by
  unfold trunc at h
  split at h
  · exact (Int.cast_lt.mpr h).trans_le (Int.floor_le x)
  · exact Int.lt_ceil.mp h

namespace FanoutTree

variable {M P : Type}

/-- A prefix by one condition that is continued by a weaker one. -/
theorem takeWhile_continued {α : Type} {p q : α → Bool} (hqp : ∀ x, q x = true → p x = true)
    (l : List α) : (l.takeWhile q).length + ((l.drop (l.takeWhile q).length).takeWhile p).length =
      (l.takeWhile p).length := by
  induction l with
  | nil => rfl
  | cons x l ih =>
      cases hq : q x with
      | true =>
          rw [List.takeWhile_cons_of_pos hq, List.takeWhile_cons_of_pos (hqp x hq),
            List.length_cons,
            List.length_cons, List.drop_succ_cons]
          omega
      | false =>
          rw [List.takeWhile_cons_of_neg (by simp [hq])]
          simp

/-- With an increasing model a part ends at its boundary value, in both kinds of search. -/
theorem partEnd_eq (exact : Bool) (values : List (ℤ × P)) {model : LinearModel} (ha : 0 < model.a)
    (fanout i : ℕ) : partEnd exact values model fanout i = if i = fanout - 1 then values.length
      else lowerBoundIn values ((((i + 1 : ℕ) : ℚ) - model.b) / model.a) := by
  unfold partEnd
  simp only
  by_cases hlast : i = fanout - 1
  · rw [if_pos hlast, if_pos hlast, List.drop_length]
    rfl
  · rw [if_neg hlast, if_neg hlast]
    have hpred : (fun v : ℤ × P => decide (model.predict v.1 ≤ i)) =
        fun v => decide ((v.1 : ℚ) < (((i + 1 : ℕ) : ℚ) - model.b) / model.a) := by
      funext v
      have hlt := trunc_lt_iff (x := model.predictDouble v.1) (show (0 : ℤ) < (i : ℤ) + 1 by omega)
      rw [decide_eq_decide, lt_div_iff₀ ha, ← Int.lt_add_one_iff]
      unfold LinearModel.predict
      rw [hlt]
      unfold LinearModel.predictDouble
      push_cast
      constructor <;> intro h <;> linarith
    rw [hpred]
    refine takeWhile_continued (fun v hv => ?_) values
    rw [decide_eq_true_eq] at hv ⊢
    cases exact with
    | true => exact hv
    | false =>
        refine lt_of_lt_trunc ?_
        exact_mod_cast (show (v.1 : ℚ) < ((trunc _ : ℤ) : ℚ) from hv)

/-! ### Cuts of an array -/

/-- The position at a fraction of the key range. -/
def cutIn (values : List (ℤ × P)) (lo hi q : ℚ) : ℕ :=
  if q ≤ 0 then 0 else if 1 ≤ q then values.length else lowerBoundIn values (valueAt lo hi q)

theorem cutIn_zero (values : List (ℤ × P)) (lo hi : ℚ) : cutIn values lo hi 0 = 0 :=
  if_pos (le_refl 0)

theorem cutIn_one (values : List (ℤ × P)) (lo hi : ℚ) : cutIn values lo hi 1 = values.length := by
  unfold cutIn
  rw [if_neg (by norm_num), if_pos (le_refl 1)]

theorem lowerBoundIn_le (values : List (ℤ × P)) (x : ℚ) : lowerBoundIn values x ≤ values.length :=
  (List.takeWhile_sublist _).length_le

theorem cutIn_le (values : List (ℤ × P)) (lo hi q : ℚ) : cutIn values lo hi q ≤ values.length := by
  unfold cutIn
  split
  · exact Nat.zero_le _
  · split
    · exact le_refl _
    · exact lowerBoundIn_le values _

theorem cutIn_mono (values : List (ℤ × P)) {lo hi q q' : ℚ} (h : lo < hi) (hq : q ≤ q') :
    cutIn values lo hi q ≤ cutIn values lo hi q' := by
  unfold cutIn
  by_cases h1 : q ≤ 0
  · rw [if_pos h1]
    exact Nat.zero_le _
  · rw [if_neg h1, if_neg (fun h2 => h1 (hq.trans h2))]
    by_cases h2 : 1 ≤ q'
    · rw [if_pos h2]
      split
      · exact le_refl _
      · exact lowerBoundIn_le values _
    · rw [if_neg h2, if_neg (fun h3 => h2 (h3.trans hq))]
      refine lowerBoundIn_mono values ?_
      unfold valueAt
      nlinarith

/-- The part of the array between two fractions. -/
def partIn (values : List (ℤ × P)) (lo hi q q' : ℚ) : List (ℤ × P) :=
  (values.take (cutIn values lo hi q')).drop (cutIn values lo hi q)

theorem lt_of_mem_take_lowerBoundIn {values : List (ℤ × P)} {x : ℚ} {v : ℤ × P}
    (hv : v ∈ values.take (lowerBoundIn values x)) : (v.1 : ℚ) < x := by
  unfold lowerBoundIn at hv
  rw [← List.prefix_iff_eq_take.mp (List.takeWhile_prefix _)] at hv
  have hlt := List.mem_takeWhile_imp (p := fun w : ℤ × P => decide ((w.1 : ℚ) < x)) hv
  exact of_decide_eq_true hlt

/-- The keys of a part lie between its values, except at the two ends. -/
theorem mem_partIn {values : List (ℤ × P)} (hsorted : values.Pairwise (fun v w => v.1 ≤ w.1))
    {lo hi q q' : ℚ} {v : ℤ × P} (hv : v ∈ partIn values lo hi q q') :
    v ∈ values ∧ (q ≤ 0 ∨ valueAt lo hi q ≤ v.1) ∧ (1 ≤ q' ∨ (v.1 : ℚ) < valueAt lo hi q') := by
  unfold partIn at hv
  have htake := List.mem_of_mem_drop hv
  refine ⟨List.mem_of_mem_take htake, ?_, ?_⟩
  · rcases le_or_gt q 0 with h1 | h1
    · exact Or.inl h1
    · have hdrop : v ∈ values.drop (cutIn values lo hi q) := by
        rw [List.drop_take] at hv
        exact List.mem_of_mem_take hv
      rcases le_or_gt 1 q with h2 | h2
      · have hq : cutIn values lo hi q = values.length := by
          unfold cutIn
          rw [if_neg (not_le.mpr h1), if_pos h2]
        rw [hq, List.drop_length] at hdrop
        cases hdrop
      · unfold cutIn at hdrop
        rw [if_neg (not_le.mpr h1), if_neg (not_le.mpr h2)] at hdrop
        exact Or.inr (le_of_mem_drop_lowerBoundIn hsorted hdrop)
  · rcases le_or_gt 1 q' with h1 | h1
    · exact Or.inl h1
    · rcases le_or_gt q' 0 with h2 | h2
      · have hq : cutIn values lo hi q' = 0 := if_pos h2
        rw [hq, List.take_zero] at htake
        cases htake
      · unfold cutIn at htake
        rw [if_neg (not_le.mpr h2), if_neg (not_le.mpr h1)] at htake
        exact Or.inr (lt_of_mem_take_lowerBoundIn htake)

/-! ### Levels -/

open LearnedIndex.Dyadic

/-- A complete level tiles the slots. -/
theorem LevelOK.tiles {D : ℕ} {nodes : List (FTNode M)} (h : LevelOK D nodes) :
    Tiles D (nodes.map FanoutTree.cell) 0 := by
  have hcells : nodes.map FanoutTree.cell = (List.range (2 ^ D)).map (fun i => (D, i)) := by
    refine List.ext_getElem (by simp [h.length]) (fun i h1 h2 => ?_)
    rw [List.getElem_map, List.getElem_map, List.getElem_range]
    rw [List.length_map] at h1
    exact h.cell i _ (List.getElem?_eq_getElem h1)
  have hslot : ∀ i, slot D (D, i) = i := by
    intro i
    unfold slot size
    rw [Nat.sub_self, pow_zero, Nat.mul_one]
  rw [hcells]
  refine (exactCover_level D).tiles ?_ ?_ (fun c => ?_)
  · exact List.nodup_range.map (fun i j hij => (Prod.mk.inj hij).2)
  · rw [List.pairwise_map]
    refine List.pairwise_lt_range.imp (fun {i j} hij => ?_)
    rw [hslot, hslot]
    exact hij.le
  · rw [List.mem_map]
    constructor
    · rintro ⟨i, hi, rfl⟩
      exact ⟨rfl, List.mem_range.mp hi⟩
    · rintro ⟨hl, hi⟩
      exact ⟨c.2, List.mem_range.mpr hi, Prod.ext hl.symm rfl⟩

variable [NodeModel M] {C : Params M P} {values : List (ℤ × P)} {node : ModelNode} {lo hi : ℚ}

/-- A data node with at most one key costs less than a traversal step.  The cost is computed from
the errors and shifts of an implicit build, and a single key has neither
(`buildNodeImplicit_single`). -/
def CheapSingles (C : Params M P) : Prop :=
  ∀ (values : List (ℤ × P)) (model : M), values.length ≤ 1 →
    (C.loadCost values model).cost < kNodeLookupsWeight

theorem smallParams_cheap : CheapSingles smallParams := by
  intro values model hone
  show (values.length : ℚ) < kNodeLookupsWeight
  have hle : (values.length : ℚ) ≤ 1 := by exact_mod_cast hone
  unfold kNodeLookupsWeight
  linarith

/-- A tree node below the root that has at most one key is cheap. -/
def CheapPart (t : FTNode M) : Prop :=
  t.level ≠ 0 → t.rightBoundary - t.leftBoundary ≤ 1 → t.cost < kNodeLookupsWeight

theorem cheapPart_partNode (hC : CheapSingles C) (exact : Bool) (model : LinearModel)
    {level maxDataNodeKeys i left : ℕ} (hmax : 1 ≤ maxDataNodeKeys) :
    CheapPart (partNode C exact values model level maxDataNodeKeys i left) := by
  intro _ hone
  unfold partNode at hone ⊢
  simp only at hone ⊢
  split
  · unfold kNodeLookupsWeight
    norm_num
  · rw [if_neg (by omega)]
    refine hC _ _ ?_
    rw [List.length_drop, List.length_take]
    omega

/-- The nodes of a level cut the array at the fractions of their slots. -/
theorem partNodes_cuts (hC : CheapSingles C) (h : lo < hi) (exact : Bool) (level : ℕ)
    {maxDataNodeKeys : ℕ} (hmax : 1 ≤ maxDataNodeKeys) {t : FTNode M}
    (ht : t ∈ partNodes C exact values ((LinearModel.cdf lo hi).expand (2 ^ level : ℕ)) level
      maxDataNodeKeys (2 ^ level) 0 0) : Cuts (cutIn values lo hi) t ∧ CheapPart t := by
  have hpos : 0 < 2 ^ level := Nat.two_pow_pos level
  have hposq : (0 : ℚ) < 2 ^ level := by positivity
  have hslope : 0 < ((LinearModel.cdf lo hi).expand ((2 ^ level : ℕ) : ℚ)).a := by
    have := LinearModel.cdf_slope h
    unfold LinearModel.expand
    positivity
  have hend : ∀ i, i < 2 ^ level → partEnd exact values ((LinearModel.cdf lo hi).expand
      (2 ^ level : ℕ)) (2 ^ level) i = cutIn values lo hi (((i : ℚ) + 1) / 2 ^ level) := by
    intro i hi'
    rw [partEnd_eq exact values hslope, LinearModel.cdf_edge h hpos]
    by_cases hlast : i = 2 ^ level - 1
    · have hone : ((i : ℚ) + 1) / 2 ^ level = 1 := by
        have hc : i + 1 = 2 ^ level := by omega
        have hq : (i : ℚ) + 1 = 2 ^ level := by exact_mod_cast hc
        rw [hq, div_self hposq.ne']
      rw [if_pos hlast, hone, cutIn_one]
    · have hlt : ((i : ℚ) + 1) / 2 ^ level < 1 := by
        rw [div_lt_one hposq]
        have hc : i + 1 < 2 ^ level := by omega
        exact_mod_cast hc
      have hgt : 0 < ((i : ℚ) + 1) / 2 ^ level := by positivity
      unfold cutIn
      rw [if_neg hlast, if_neg (not_le.mpr hgt), if_neg (not_le.mpr hlt)]
      push_cast
      rfl
  obtain ⟨i, hget⟩ := List.mem_iff_getElem?.mp ht
  have hi' : i < 2 ^ level := by
    have hlt := (List.getElem?_eq_some_iff.mp hget).1
    rwa [length_partNodes] at hlt
  rw [getElem?_computeLevel C values maxDataNodeKeys exact _ level i hi'] at hget
  rw [← Option.some.inj hget]
  refine ⟨⟨?_, hend i hi'⟩, cheapPart_partNode hC exact _ hmax⟩
  show partStart exact values _ (2 ^ level) i = cutIn values lo hi ((i : ℚ) / 2 ^ level)
  unfold partStart
  cases i with
  | zero => rw [if_pos rfl, Nat.cast_zero, zero_div, cutIn_zero]
  | succ i =>
      rw [if_neg (Nat.succ_ne_zero i), Nat.add_sub_cancel, hend i (by omega)]
      push_cast
      rfl

/-! ### The chosen parts -/

/-- The best fanout: either no level is better than the node, or its parts divide the array. -/
theorem findBestFanoutBottomUp_spec (hC : CheapSingles C) (h : lo < hi)
    (hmodel : node.model = LinearModel.cdf lo hi) (hne : values ≠ [])
    (hsorted : values.Pairwise (fun v w => v.1 ≤ w.1)) {totalKeys : ℤ} (htotal : 0 ≤ totalKeys)
    {maxDataNodeKeys : ℕ} (hmax : 1 ≤ maxDataNodeKeys) :
    ∃ L cost used, findBestFanoutBottomUp C values node totalKeys maxDataNodeKeys =
        some (L, cost, used) ∧ (L ≠ 0 → Parts L (cutIn values lo hi) used 0 ∧
          ∀ t ∈ used, t.level ≠ 0 ∧ CheapPart t) := by
  have hslope : 0 < node.model.a := hmodel ▸ LinearModel.cdf_slope h
  have hlevels : LevelsOK (fun n => Cuts (cutIn values lo hi) n ∧ CheapPart n)
      [[(rootOver values node : FTNode M)]] := by
    have hempty : LevelsOK (fun n => Cuts (cutIn values lo hi) n ∧ CheapPart n)
        ([] : List (List (FTNode M))) :=
      ⟨fun l ns hl => by simp at hl, fun l i n hat => by simp [nodeAt] at hat⟩
    have hroot : LevelOK 0 [(rootOver values node : FTNode M)] := by
      refine ⟨rfl, fun i n hn => ?_⟩
      cases i with
      | zero =>
          rw [← Option.some.inj hn]
          rfl
      | succ i => cases hn
    refine hempty.push hroot (fun n hn => ?_)
    rw [List.mem_singleton.mp hn]
    refine ⟨rfl, ⟨?_, ?_⟩, fun h0 => absurd rfl h0⟩
    · show 0 = cutIn values lo hi (((0 : ℕ) : ℚ) / 2 ^ 0)
      rw [Nat.cast_zero, zero_div, cutIn_zero]
    · show values.length = cutIn values lo hi ((((0 : ℕ) : ℚ) + 1) / 2 ^ 0)
      rw [Nat.cast_zero, zero_add, pow_zero, div_one, cutIn_one]
  have hcompute : ∀ (st : Unit) (l : ℕ), True → ∃ nodes cost st',
      (computeLevel C true values node.model totalKeys l maxDataNodeKeys).map
        (fun r => (r.1, r.2, st)) = some (nodes, cost, st') ∧ True ∧ LevelOK l nodes ∧
      ∀ n ∈ nodes, n.use = false ∧ Cuts (cutIn values lo hi) n ∧ CheapPart n := by
    intro st l _
    refine ⟨loadLevel C values node maxDataNodeKeys l, levelCost C values.length totalKeys (2 ^ l)
      (loadLevel C values node maxDataNodeKeys l), st, ?_, trivial,
      levelOK_partNodes C values maxDataNodeKeys true _ l, fun n hn =>
        ⟨unmarked_partNodes C values maxDataNodeKeys true _ l _ _ _ n hn, ?_⟩⟩
    · unfold computeLevel
      rw [if_neg hslope.ne', Option.map_some]
      rfl
    · unfold loadLevel at hn
      rw [hmodel] at hn
      exact partNodes_cuts hC h true l hmax hn
  obtain ⟨g, st, hgrow, -, hlv, hbest⟩ := grow_spec hcompute (Nat.log2 C.maxFanout)
    ⟨0, some (node.cost + kNodeLookupsWeight), [node.cost + kNodeLookupsWeight],
      [[rootOver values node]]⟩ () trivial hlevels Nat.zero_lt_one
  obtain ⟨cost, used, hchoose, hparts, hcheap⟩ := choose_parts C values.length totalKeys hlv
    (fun _ _ hq => hq) hbest
  have hfind : findBestFanoutBottomUp C values node totalKeys maxDataNodeKeys =
      some (g.bestLevel, cost, used) := by
    unfold findBestFanoutBottomUp
    rw [Option.bind_eq_bind]
    exact Option.bind_eq_some_iff.mpr ⟨(g, st), hgrow, hchoose⟩
  refine ⟨g.bestLevel, cost, used, hfind, fun hL => ⟨hparts, fun t ht => ⟨?_, hcheap t ht⟩⟩⟩
  exact (bottomUp_spec hne htotal (loadLevel_addUp hsorted hslope) hfind (by omega)).2.1 t ht

end FanoutTree

namespace Index

open FanoutTree

variable {M P : Type} [NodeModel M] {C : Params M P} {values : List (ℤ × P)} {node : ModelNode}
  {lo hi : ℚ}

/-- The parts that a model node is made of, whatever the costs are. -/
theorem enoughFanout_spec (hC : CheapSingles C) (h : lo < hi)
    (hmodel : node.model = LinearModel.cdf lo hi) (totalKeys : ℤ) {maxDataNodeKeys : ℕ}
    (hmax : 1 ≤ maxDataNodeKeys) {L : ℕ} {used : List (FTNode M)}
    (hused : L ≠ 0 → Parts L (cutIn values lo hi) used 0 ∧ ∀ t ∈ used, t.level ≠ 0 ∧ CheapPart t) :
    ∃ D parts, enoughFanout C values node totalKeys maxDataNodeKeys L used = some (D, parts) ∧
      Parts D (cutIn values lo hi) parts 0 ∧ ∀ t ∈ parts, t.level ≠ 0 ∧ CheapPart t := by
  unfold enoughFanout
  by_cases hL : L = 0
  · rw [if_pos hL]
    obtain ⟨D, hD⟩ : ∃ D, Nat.log2 (values.length / C.maxDataNodeSlots) + 1 = D := ⟨_, rfl⟩
    have hlevel := levelOK_partNodes C values maxDataNodeKeys false
      ((LinearModel.cdf lo hi).expand (2 ^ D : ℕ)) D
    refine ⟨D, partNodes C false values ((LinearModel.cdf lo hi).expand (2 ^ D : ℕ)) D
      maxDataNodeKeys (2 ^ D) 0 0, ?_, parts_of_tiles hlevel.tiles (fun t ht => ?_),
      fun t ht => ⟨?_, ?_⟩⟩
    · rw [hD, hmodel]
      unfold computeLevel
      simp only [if_neg (LinearModel.cdf_slope h).ne', Option.map_some]
    · exact (partNodes_cuts hC h false D hmax ht).1
    · obtain ⟨i, hi'⟩ := List.mem_iff_getElem?.mp ht
      have hl : t.level = D := congrArg Prod.fst (hlevel.cell i t hi')
      omega
    · exact (partNodes_cuts hC h false D hmax ht).2
  · rw [if_neg hL]
    exact ⟨L, used, rfl, hused hL⟩

end Index

end LearnedIndex.Alexol
