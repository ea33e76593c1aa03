import LearnedIndex.Alexol.FanoutCosts
import LearnedIndex.Alexol.WellFormed

/-! # A chosen split is not merged away (`find_best_fanout_bottom_up`)

The levels over an array and over an existing leaf are computed one by one; their costs are weighted
sums over their nodes.  So the result of merging is accounted for, and the children that
`bulk_load_node` recurses on have smaller key ranges than the node.

In exact arithmetic the key counts of the levels add up: part `i` of a level ends where part
`2 i + 1` of the next level ends. -/

namespace LearnedIndex.Alexol.FanoutTree

variable {M P : Type} [NodeModel M]

/-! ### Levels over an array -/

section
variable (C : Params M P) (values : List (ℤ × P)) (node : ModelNode) (maxDataNodeKeys : ℕ)

/-- The nodes of a level over the array. -/
def loadLevel (l : ℕ) : List (FTNode M) :=
  partNodes C true values (node.model.expand (2 ^ l : ℕ)) l maxDataNodeKeys (2 ^ l) 0 0

/-- The first position of part `i`. -/
def partStart (exact : Bool) (values : List (ℤ × P)) (model : LinearModel) (fanout i : ℕ) : ℕ :=
  if i = 0 then 0 else partEnd exact values model fanout (i - 1)

theorem length_partNodes (exact : Bool) (model : LinearModel) (level remaining : ℕ) :
    ∀ i left, (partNodes C exact values model level maxDataNodeKeys remaining i left).length =
      remaining := by
  induction remaining with
  | zero => exact fun i left => rfl
  | succ remaining ih => exact fun i left => congrArg Nat.succ (ih _ _)

theorem getElem?_partNodes (exact : Bool) (model : LinearModel) (level remaining i left : ℕ)
    (hleft : left = partStart exact values model (2 ^ level) i) (j : ℕ) (hj : j < remaining) :
    (partNodes C exact values model level maxDataNodeKeys remaining i left)[j]? =
      some (partNode C exact values model level maxDataNodeKeys (i + j)
        (partStart exact values model (2 ^ level) (i + j))) := by
  induction remaining generalizing i left j with
  | zero => exact absurd hj (Nat.not_lt_zero j)
  | succ remaining ih =>
      cases j with
      | zero =>
          rw [hleft]
          rfl
      | succ j =>
          unfold partNodes
          rw [List.getElem?_cons_succ, ih (i + 1) _ ?_ j (by omega)]
          · rw [show i + 1 + j = i + (j + 1) by omega]
          · unfold partStart
            rw [if_neg (Nat.succ_ne_zero i)]
            rfl

/-- The nodes of a level of the array. -/
theorem getElem?_computeLevel (exact : Bool) (model : LinearModel) (level i : ℕ)
    (hi : i < 2 ^ level) :
    (partNodes C exact values model level maxDataNodeKeys (2 ^ level) 0 0)[i]? =
      some (partNode C exact values model level maxDataNodeKeys i
        (partStart exact values model (2 ^ level) i)) := by
  have h := getElem?_partNodes C values maxDataNodeKeys exact model level (2 ^ level) 0 0 rfl i hi
  rwa [Nat.zero_add] at h

theorem levelOK_partNodes (exact : Bool) (model : LinearModel) (level : ℕ) :
    LevelOK level (partNodes C exact values model level maxDataNodeKeys (2 ^ level) 0 0) := by
  have hlen := length_partNodes C values maxDataNodeKeys exact model level (2 ^ level) 0 0
  refine ⟨hlen, fun i n hn => ?_⟩
  have hi : i < 2 ^ level := by
    have := (List.getElem?_eq_some_iff.mp hn).1
    omega
  rw [getElem?_computeLevel C values maxDataNodeKeys exact model level i hi] at hn
  rw [← Option.some.inj hn]
  rfl

theorem unmarked_partNodes (exact : Bool) (model : LinearModel) (level remaining : ℕ) :
    ∀ i left, ∀ n ∈ partNodes C exact values model level maxDataNodeKeys remaining i left,
      n.use = false := by
  induction remaining with
  | zero => exact fun i left n hn => by cases hn
  | succ remaining ih =>
      intro i left n hn
      rcases List.mem_cons.mp hn with rfl | hn
      · rfl
      · exact ih _ _ n hn

end

/-! ### Key counts add up -/

section
variable {C : Params M P} {values : List (ℤ × P)} {node : ModelNode} {maxDataNodeKeys : ℕ}

theorem partNode_numKeys (exact : Bool) (model : LinearModel) (level i left : ℕ) :
    (partNode C exact values model level maxDataNodeKeys i left).numKeys =
      partEnd exact values model (2 ^ level) i - left := by
  unfold partNode
  simp only
  split
  · omega
  · rfl

theorem lowerBoundIn_mono (values : List (ℤ × P)) {x y : ℚ} (h : x ≤ y) :
    lowerBoundIn values x ≤ lowerBoundIn values y := by
  unfold lowerBoundIn
  induction values with
  | nil => exact le_refl _
  | cons v vs ih =>
      rw [List.takeWhile_cons, List.takeWhile_cons]
      by_cases hx : (v.1 : ℚ) < x
      · have hy : (v.1 : ℚ) < y := hx.trans_le h
        simp only [hx, hy, decide_true, if_true, List.length_cons]
        omega
      · simp [hx]

/-- Behind the lower bound of sorted keys no key is smaller. -/
theorem le_of_mem_drop_lowerBoundIn {values : List (ℤ × P)}
    (hsorted : values.Pairwise (fun v w => v.1 ≤ w.1)) {x : ℚ} {v : ℤ × P}
    (hv : v ∈ values.drop (lowerBoundIn values x)) : x ≤ v.1 := by
  induction values with
  | nil => simp at hv
  | cons w ws ih =>
      obtain ⟨hhead, htail⟩ := List.pairwise_cons.mp hsorted
      unfold lowerBoundIn at hv
      rw [List.takeWhile_cons] at hv
      by_cases hw : (w.1 : ℚ) < x
      · rw [if_pos (by simpa using hw), List.length_cons, List.drop_succ_cons] at hv
        exact ih htail hv
      · rw [if_neg (by simpa using hw)] at hv
        rcases List.mem_cons.mp hv with rfl | hv
        · exact not_lt.mp hw
        · have hle : (w.1 : ℚ) ≤ v.1 := by exact_mod_cast hhead v hv
          exact (not_lt.mp hw).trans hle

/-- With an increasing model the loop behind the search never moves a boundary. -/
theorem partEnd_exact (hsorted : values.Pairwise (fun v w => v.1 ≤ w.1)) {model : LinearModel}
    (ha : 0 < model.a) (fanout i : ℕ) :
    partEnd true values model fanout i = if i = fanout - 1 then values.length
      else lowerBoundIn values ((((i + 1 : ℕ) : ℚ) - model.b) / model.a) := by
  unfold partEnd
  simp only [if_true]
  by_cases hlast : i = fanout - 1
  · rw [if_pos hlast, List.drop_length]
    rfl
  · rw [if_neg hlast]
    have hnone : ∀ v ∈ values.drop (lowerBoundIn values ((((i + 1 : ℕ) : ℚ) - model.b) / model.a)),
        ¬ model.predict v.1 ≤ i := by
      intro v hv hle
      have hx := (div_le_iff₀ ha).mp (le_of_mem_drop_lowerBoundIn hsorted hv)
      have hpred : ((i : ℤ) + 1) ≤ model.predict v.1 := by
        unfold LinearModel.predict LinearModel.predictDouble
        rw [le_trunc_iff (by omega)]
        push_cast at hx ⊢
        linarith
      omega
    cases hd : values.drop (lowerBoundIn values ((((i + 1 : ℕ) : ℚ) - model.b) / model.a)) with
    | nil => rfl
    | cons v vs =>
        rw [hd] at hnone
        rw [List.takeWhile_cons_of_neg (by simpa using hnone v (List.mem_cons_self ..))]
        rfl

theorem expand_edge (m : LinearModel) (F i : ℕ) (hF : 0 < F) :
    (((2 * i + 1 + 1 : ℕ) : ℚ) - (m.expand ((2 * F : ℕ) : ℚ)).b) / (m.expand ((2 * F : ℕ) : ℚ)).a =
      (((i + 1 : ℕ) : ℚ) - (m.expand (F : ℚ)).b) / (m.expand (F : ℚ)).a := by
  have hF' : (F : ℚ) ≠ 0 := by
    have : F ≠ 0 := by omega
    exact_mod_cast this
  unfold LinearModel.expand
  by_cases ha : m.a = 0
  · simp [ha]
  · push_cast
    field_simp
    ring

/-- The key counts of the levels over sorted keys add up. -/
theorem loadLevel_addUp (hsorted : values.Pairwise (fun v w => v.1 ≤ w.1)) (ha : 0 < node.model.a)
    (l : ℕ) : AddUp (loadLevel C values node maxDataNodeKeys l)
      (loadLevel C values node maxDataNodeKeys (l + 1)) := by
  intro i p a b hp hca hcb
  have hlevel := levelOK_partNodes C values maxDataNodeKeys true (node.model.expand (2 ^ l : ℕ)) l
  have hi : i < 2 ^ l := by
    rw [← hlevel.length]
    exact (List.getElem?_eq_some_iff.mp hp).1
  have hpow : 2 ^ (l + 1) = 2 * 2 ^ l := pow_succ' 2 l
  have hpos : ∀ k : ℕ, 0 < (node.model.expand ((2 ^ k : ℕ) : ℚ)).a := by
    intro k
    unfold LinearModel.expand
    positivity
  unfold loadLevel at hp hca hcb
  rw [getElem?_computeLevel _ _ _ _ _ _ _ (by omega)] at hp hca hcb
  rw [← Option.some.inj hp, ← Option.some.inj hca, ← Option.some.inj hcb, partNode_numKeys,
    partNode_numKeys, partNode_numKeys]
  -- a child on the right ends where its parent ends
  have hend : ∀ k, k < 2 ^ l →
      partEnd true values (node.model.expand (2 ^ (l + 1) : ℕ)) (2 ^ (l + 1)) (2 * k + 1) =
        partEnd true values (node.model.expand (2 ^ l : ℕ)) (2 ^ l) k := by
    intro k hk
    rw [partEnd_exact hsorted (hpos _), partEnd_exact hsorted (hpos _), hpow,
      expand_edge _ _ _ (Nat.two_pow_pos l)]
    by_cases hlast : k = 2 ^ l - 1
    · rw [if_pos hlast, if_pos (by omega)]
    · rw [if_neg hlast, if_neg (by omega)]
  have hmono : ∀ k, k + 1 < 2 ^ (l + 1) →
      partEnd true values (node.model.expand (2 ^ (l + 1) : ℕ)) (2 ^ (l + 1)) k ≤
        partEnd true values (node.model.expand (2 ^ (l + 1) : ℕ)) (2 ^ (l + 1)) (k + 1) := by
    intro k hk
    rw [partEnd_exact hsorted (hpos _), partEnd_exact hsorted (hpos _), if_neg (by omega)]
    split
    · exact (List.takeWhile_sublist _).length_le
    · refine lowerBoundIn_mono values (div_le_div_of_nonneg_right ?_ (hpos _).le)
      push_cast
      linarith
  have hstart : partStart true values (node.model.expand (2 ^ (l + 1) : ℕ)) (2 ^ (l + 1)) (2 * i) =
      partStart true values (node.model.expand (2 ^ l : ℕ)) (2 ^ l) i := by
    unfold partStart
    cases i with
    | zero => rfl
    | succ i =>
        rw [if_neg (by omega), if_neg (by omega), show 2 * (i + 1) - 1 = 2 * i + 1 by omega,
          Nat.add_sub_cancel, hend i (by omega)]
  have hle : partStart true values (node.model.expand (2 ^ (l + 1) : ℕ)) (2 ^ (l + 1)) (2 * i) ≤
      partEnd true values (node.model.expand (2 ^ (l + 1) : ℕ)) (2 ^ (l + 1)) (2 * i) := by
    unfold partStart
    split
    · exact Nat.zero_le _
    · have := hmono (2 * i - 1) (by omega)
      rwa [show 2 * i - 1 + 1 = 2 * i by omega] at this
  have hmid : partStart true values (node.model.expand (2 ^ (l + 1) : ℕ)) (2 ^ (l + 1))
    (2 * i + 1) =
      partEnd true values (node.model.expand (2 ^ (l + 1) : ℕ)) (2 ^ (l + 1)) (2 * i) := by
    unfold partStart
    rw [if_neg (by omega), Nat.add_sub_cancel]
  have hnext := hmono (2 * i) (by omega)
  rw [hmid, hstart] at *
  rw [hend i hi] at *
  omega

end

/-! ### The two searches -/

section
variable {C : Params M P} {values : List (ℤ × P)} {node : ModelNode} {maxDataNodeKeys : ℕ}
  {totalKeys : ℤ}

/-- The tree node of the whole array. -/
def rootOver (values : List (ℤ × P)) (node : ModelNode) : FTNode M where
  level := 0
  nodeId := 0
  cost := node.cost + kNodeLookupsWeight
  leftBoundary := 0
  rightBoundary := values.length
  leftLimit := 0
  rightLimit := 0
  use := false
  expectedAvgSearchIterations := 0
  expectedAvgShifts := 0
  model := NodeModel.zero
  numKeys := values.length

/-- The levels of `find_best_fanout_bottom_up`. -/
def LoadLevels (C : Params M P) (values : List (ℤ × P)) (node : ModelNode) (maxDataNodeKeys l : ℕ)
    (nodes : List (FTNode M)) : Prop :=
  (l = 0 → nodes = [rootOver values node]) ∧
    (1 ≤ l → nodes = loadLevel C values node maxDataNodeKeys l ∧ node.model.a ≠ 0)

theorem loadLevels_addUp (hadd : ∀ l, AddUp (loadLevel C values node maxDataNodeKeys l)
      (loadLevel C values node maxDataNodeKeys (l + 1)))
    (l : ℕ) (nodes nodes' : List (FTNode M)) (h : LoadLevels C values node maxDataNodeKeys l nodes)
    (h' : LoadLevels C values node maxDataNodeKeys (l + 1) nodes') : AddUp nodes nodes' := by
  obtain ⟨rfl, -⟩ := h'.2 (Nat.succ_pos l)
  cases l with
  | succ l =>
      obtain ⟨rfl, -⟩ := h.2 (Nat.succ_pos l)
      exact hadd (l + 1)
  | zero =>
      -- the root has as many keys as the one node of the computed level 0
      intro i p a b hp ha hb
      rw [h.1 rfl] at hp
      obtain ⟨rfl, rfl⟩ : i = 0 ∧ rootOver values node = p := by
        cases i with
        | zero => exact ⟨rfl, Option.some.inj hp⟩
        | succ i => cases hp
      have hcount : (partNode C true values (node.model.expand (2 ^ 0 : ℕ)) 0 maxDataNodeKeys 0
          0).numKeys = values.length := by
        rw [partNode_numKeys]
        unfold partEnd
        simp
      have hzero := getElem?_computeLevel C values maxDataNodeKeys true
        (node.model.expand (2 ^ 0 : ℕ)) 0 0 (by norm_num)
      exact (hadd 0 0 _ a b hzero ha hb).trans hcount

/-- The tree behind a result of `find_best_fanout_bottom_up`. -/
theorem findBestFanoutBottomUp_grown {L : ℕ} {cost : ℚ} {used : List (FTNode M)}
    (h : findBestFanoutBottomUp C values node totalKeys maxDataNodeKeys = some (L, cost, used)) :
    ∃ g, Grown C values.length totalKeys (LoadLevels C values node maxDataNodeKeys)
        (node.cost + kNodeLookupsWeight) g ∧
      choose C values.length totalKeys g = some (L, cost, used) := by
  have hstart : Grown C values.length totalKeys (LoadLevels C values node maxDataNodeKeys)
      (node.cost + kNodeLookupsWeight) ⟨0, some (node.cost + kNodeLookupsWeight),
        [node.cost + kNodeLookupsWeight], [[rootOver values node]]⟩ := by
    have hempty : LevelsOK (fun _ => True) ([] : List (List (FTNode M))) :=
      ⟨fun l ns hl => by simp at hl, fun l i n hat => by simp [nodeAt] at hat⟩
    have hroot : LevelOK 0 [(rootOver values node : FTNode M)] := by
      refine ⟨rfl, fun i n hn => ?_⟩
      cases i with
      | zero =>
          rw [← Option.some.inj hn]
          rfl
      | succ i => cases hn
    refine ⟨hempty.push hroot ?_, ?_, Nat.zero_lt_one, ⟨_, rfl, fun h => ?_⟩, fun c hc => ?_⟩
    · intro n hn
      rw [List.mem_singleton.mp hn]
      exact ⟨rfl, trivial⟩
    · intro l nodes hl
      cases l with
      | zero => exact ⟨fun _ => (Option.some.inj hl).symm, fun h => absurd h (by omega)⟩
      | succ l => cases hl
    · exact absurd h (by simp)
    · rw [← Option.some.inj hc]
  have hcompute : ∀ (st : Unit) (l : ℕ) (nodes : List (FTNode M)) (cost : ℚ) (st' : Unit), True →
      (computeLevel C true values node.model totalKeys l maxDataNodeKeys).map
        (fun r => (r.1, r.2, st)) = some (nodes, cost, st') →
      True ∧ LevelOK l nodes ∧ (∀ n ∈ nodes, n.use = false) ∧
        cost = levelCost C values.length totalKeys (2 ^ l) nodes ∧
        (1 ≤ l → LoadLevels C values node maxDataNodeKeys l nodes) := by
    intro st l nodes cost st' _ hc
    unfold computeLevel at hc
    by_cases ha : node.model.a = 0
    · simp [ha] at hc
    · rw [if_neg ha, Option.map_some] at hc
      obtain ⟨rfl, hr⟩ := Prod.mk.inj (Option.some.inj hc)
      obtain ⟨rfl, -⟩ := Prod.mk.inj hr
      exact ⟨trivial, levelOK_partNodes C values maxDataNodeKeys true _ l,
        unmarked_partNodes C values maxDataNodeKeys true _ l (2 ^ l) 0 0, rfl,
        fun hl => ⟨fun h0 => by omega, fun _ => ⟨rfl, ha⟩⟩⟩
  unfold findBestFanoutBottomUp at h
  simp only [Option.bind_eq_bind] at h
  obtain ⟨⟨g, st⟩, hgrow, hchoose⟩ := Option.bind_eq_some_iff.mp h
  exact ⟨g, (Grown.grow (R := fun _ => True) hcompute _ trivial hstart hgrow).1, hchoose⟩

theorem bottomUp_spec (hkeys : values ≠ []) (htotal : 0 ≤ totalKeys)
    (hadd : ∀ l, AddUp (loadLevel C values node maxDataNodeKeys l)
      (loadLevel C values node maxDataNodeKeys (l + 1)))
    {L : ℕ} {cost : ℚ} {used : List (FTNode M)}
    (h : findBestFanoutBottomUp C values node totalKeys maxDataNodeKeys = some (L, cost, used))
    (hL : 1 ≤ L) : cost = treeCost C values.length totalKeys L used ∧
      (∀ t ∈ used, t.level ≠ 0) ∧ node.model.a ≠ 0 := by
  obtain ⟨g, hg, hchoose⟩ := findBestFanoutBottomUp_grown h
  obtain rfl := choose_level hchoose
  have hlen : 1 ≤ values.length := List.length_pos_iff.mpr hkeys
  have hroot : ∀ n, nodeAt g.fanoutTree 0 0 = some n → node.cost + kNodeLookupsWeight ≤
      nodeCharge C values.length totalKeys n + pointerCost values.length totalKeys 0 := by
    intro n hn
    obtain ⟨nodes, hnodes, h0⟩ := nodeAt_eq_some.mp hn
    rw [(hg.computed 0 nodes hnodes).1 rfl] at h0
    rw [← Option.some.inj h0]
    have hn : (values.length : ℚ) ≠ 0 := by
      have : values.length ≠ 0 := by omega
      exact_mod_cast this
    have ht : (0 : ℚ) ≤ totalKeys := by exact_mod_cast htotal
    have h1 : (node.cost + kNodeLookupsWeight) * (values.length : ℚ) / values.length =
        node.cost + kNodeLookupsWeight := mul_div_cancel_right₀ _ hn
    have h2 : 0 ≤ kModelSizeWeight * C.sizeofDataNode * totalKeys / values.length := by
      unfold kModelSizeWeight
      positivity
    have h3 : 0 ≤ pointerCost values.length totalKeys 0 := by
      unfold pointerCost kModelSizeWeight kNodeLookupsWeight
      positivity
    unfold nodeCharge rootOver
    simp only
    linarith
  obtain ⟨hcost, hlevel⟩ := hg.choose hlen htotal (loadLevels_addUp hadd) hroot hL hchoose
  obtain ⟨_, -, hbest⟩ := hg.cost
  obtain ⟨-, nodes, hnodes, -⟩ := hbest hL
  exact ⟨hcost, hlevel, ((hg.computed _ nodes hnodes).2 hL).2⟩

end

section
variable {C : Params M P} {n : DataNode M P} {totalKeys : ℤ}

theorem lowerBound_counters {x : ℚ} {pos : ℕ} {st : DataNode M P} {a b : ℕ}
    (h : (n.withCounters a b).lowerBound x = some (pos, st)) :
    ∃ a' b', st = n.withCounters a' b' := by
  unfold DataNode.lowerBound DataNode.exponentialSearchLowerBound at h
  simp only [Option.bind_eq_bind] at h
  obtain ⟨r, -, hr⟩ := Option.bind_eq_some_iff.mp h
  obtain ⟨-, rfl⟩ := Prod.mk.inj (Option.some.inj hr)
  exact ⟨a + 1, b + r.2, rfl⟩

/-- The searches change the counters of the leaf only. -/
theorem rangeNodes_levelOK {base : LinearModel} {level : ℕ} (remaining : ℕ) :
    ∀ {i left : ℕ} {leftLimit : ℚ} {a b : ℕ} {ts : List (FTNode M)} {st : DataNode M P},
      rangeNodes C base level remaining i left leftLimit (n.withCounters a b) = some (ts, st) →
      (∃ a' b', st = n.withCounters a' b') ∧ ts.length = remaining ∧
        ∀ j t, ts[j]? = some t → cell t = (level, i + j) ∧ t.use = false := by
  induction remaining with
  | zero =>
      intro i left leftLimit a b ts st h
      obtain ⟨rfl, rfl⟩ := Prod.mk.inj (Option.some.inj h)
      exact ⟨⟨a, b, rfl⟩, rfl, fun j t ht => by simp at ht⟩
  | succ remaining ih =>
      intro i left leftLimit a b ts st h
      unfold rangeNodes at h
      simp only [Option.bind_eq_bind] at h
      obtain ⟨⟨right, st₁⟩, hend, h⟩ := Option.bind_eq_some_iff.mp h
      obtain ⟨t, ht, h⟩ := Option.bind_eq_some_iff.mp h
      obtain ⟨⟨ts', st₂⟩, hrest, h⟩ := Option.bind_eq_some_iff.mp h
      obtain ⟨rfl, rfl⟩ := Prod.mk.inj (Option.some.inj h)
      have hst : ∃ a' b', st₁ = n.withCounters a' b' := by
        unfold rangeEnd at hend
        split at hend
        · obtain ⟨-, rfl⟩ := Prod.mk.inj (Option.some.inj hend)
          exact ⟨a, b, rfl⟩
        · exact lowerBound_counters hend
      obtain ⟨a', b', rfl⟩ := hst
      have hcell : cell t = (level, i) ∧ t.use = false := by
        unfold rangeNode at ht
        simp only at ht
        split at ht
        · rw [← Option.some.inj ht]
          exact ⟨rfl, rfl⟩
        · simp only [Option.bind_eq_bind] at ht
          obtain ⟨keys, -, ht⟩ := Option.bind_eq_some_iff.mp ht
          rw [← Option.some.inj ht]
          exact ⟨rfl, rfl⟩
      obtain ⟨hst, hlen, hall⟩ := ih hrest
      refine ⟨hst, congrArg Nat.succ hlen, fun j t' hj => ?_⟩
      cases j with
      | zero =>
          rw [← Option.some.inj hj]
          exact hcell
      | succ j =>
          have h' := hall j t' hj
          rwa [show i + 1 + j = i + (j + 1) by omega] at h'

/-- The levels of `find_best_fanout_existing_node_without_parent`, from `first` on. -/
def ExistingLevels (C : Params M P) (totalKeys : ℤ) (n : DataNode M P) (first : List (FTNode M))
    (l : ℕ) (nodes : List (FTNode M)) : Prop :=
  (∃ a b cost st, existingLevel C totalKeys (n.withCounters a b) l = some (nodes, cost, st)) ∧
    (l = 0 → nodes = first)

theorem existingLevel_computed {a b l : ℕ} {nodes : List (FTNode M)} {cost : ℚ} {st : DataNode M P}
    (h : existingLevel C totalKeys (n.withCounters a b) l = some (nodes, cost, st)) :
    (∃ a' b', st = n.withCounters a' b') ∧ LevelOK l nodes ∧ (∀ t ∈ nodes, t.use = false) ∧
      cost = levelCost C n.numKeys totalKeys (2 ^ l) nodes := by
  unfold existingLevel at h
  split at h
  · cases h
  · simp only [Option.bind_eq_bind] at h
    obtain ⟨⟨ts, st₁⟩, hnodes, hret⟩ := Option.bind_eq_some_iff.mp h
    obtain ⟨rfl, hret'⟩ := Prod.mk.inj (Option.some.inj hret)
    obtain ⟨rfl, rfl⟩ := Prod.mk.inj hret'
    obtain ⟨⟨a', b', rfl⟩, hlen, hall⟩ := rangeNodes_levelOK _ hnodes
    refine ⟨⟨a', b', rfl⟩, ⟨hlen, fun i t ht => ?_⟩, fun t ht => ?_, rfl⟩
    · rw [(hall i t ht).1, Nat.zero_add]
    · obtain ⟨j, hj⟩ := List.mem_iff_getElem?.mp ht
      exact (hall j t hj).2

/-- The tree behind a result of `find_best_fanout_existing_node_without_parent`; level 0 is always
computed. -/
theorem findBestFanoutExistingNode_grown {maxFanout L : ℕ} {used : List (FTNode M)}
    {n' : DataNode M P}
    (h : findBestFanoutExistingNode C n totalKeys maxFanout = some (L, used, n')) :
    ∃ g first cost, Grown C n.numKeys totalKeys (ExistingLevels C totalKeys n first)
        (levelCost C n.numKeys totalKeys (2 ^ 0) first) g ∧ LevelOK 0 first ∧
      choose C n.numKeys totalKeys g = some (L, cost, used) := by
  unfold findBestFanoutExistingNode at h
  simp only [Option.bind_eq_bind] at h
  obtain ⟨⟨g, st⟩, hgrow, h⟩ := Option.bind_eq_some_iff.mp h
  obtain ⟨⟨depth, cost, used'⟩, hchoose, hret⟩ := Option.bind_eq_some_iff.mp h
  obtain ⟨rfl, hret'⟩ := Prod.mk.inj (Option.some.inj hret)
  obtain ⟨rfl, rfl⟩ := Prod.mk.inj hret'
  rw [grow] at hgrow
  simp only [Option.bind_eq_bind] at hgrow
  obtain ⟨⟨nodes, c, st₁⟩, hlevel, hgrow⟩ := Option.bind_eq_some_iff.mp hgrow
  have hself : n = n.withCounters n.numLookups n.numExpSearchIterations := rfl
  rw [hself] at hlevel
  obtain ⟨hst, hok, huse, rfl⟩ := existingLevel_computed hlevel
  have hfirst : Grown C n.numKeys totalKeys (ExistingLevels C totalKeys n nodes)
      (levelCost C n.numKeys totalKeys (2 ^ 0) nodes)
      ((⟨0, none, [], []⟩ : Growth M).push 0 nodes
        (levelCost C n.numKeys totalKeys (2 ^ 0) nodes)) := by
    have hempty : LevelsOK (fun _ => True) ([] : List (List (FTNode M))) :=
      ⟨fun l ns hl => by simp at hl, fun l i t hat => by simp [nodeAt] at hat⟩
    refine ⟨hempty.push hok (fun t ht => ⟨huse t ht, trivial⟩), fun l ns hl => ?_, Nat.zero_lt_one,
      ⟨_, rfl, fun h => ?_⟩, fun c' hc' => ?_⟩
    · cases l with
      | zero =>
          obtain rfl : nodes = ns := Option.some.inj hl
          exact ⟨⟨_, _, _, _, hlevel⟩, fun _ => rfl⟩
      | succ l => cases hl
    · exact absurd h (by simp [Growth.push])
    · rw [← Option.some.inj hc']
  have hinc : ∀ c : ℚ, costsIncrease [c] = false := fun _ => rfl
  simp only [hinc, Bool.false_eq_true, if_false] at hgrow
  have hcompute : ∀ (st : DataNode M P) (l : ℕ) (ns : List (FTNode M)) (cost : ℚ)
      (st' : DataNode M P), (∃ a b, st = n.withCounters a b) →
      existingLevel C totalKeys st l = some (ns, cost, st') →
      (∃ a b, st' = n.withCounters a b) ∧ LevelOK l ns ∧ (∀ t ∈ ns, t.use = false) ∧
        cost = levelCost C n.numKeys totalKeys (2 ^ l) ns ∧
        (1 ≤ l → ExistingLevels C totalKeys n nodes l ns) := by
    rintro st l ns cost st' ⟨a, b, rfl⟩ h
    obtain ⟨h1, h2, h3, h4⟩ := existingLevel_computed h
    exact ⟨h1, h2, h3, h4, fun hl => ⟨⟨a, b, cost, st', h⟩, fun h0 => absurd h0 (by omega)⟩⟩
  obtain ⟨hg, a, b, rfl⟩ := Grown.grow hcompute _ hst hfirst hgrow
  exact ⟨g, nodes, cost, hg, hok, hchoose⟩

theorem existing_spec (hkeys : 1 ≤ n.numKeys) (htotal : 0 ≤ totalKeys)
    (hadd : ∀ a b a' b' l nodes nodes' cost cost' st st',
      existingLevel C totalKeys (n.withCounters a b) l = some (nodes, cost, st) →
      existingLevel C totalKeys (n.withCounters a' b') (l + 1) = some (nodes', cost', st') →
      AddUp nodes nodes')
    {maxFanout L : ℕ} {used : List (FTNode M)} {n' : DataNode M P}
    (h : findBestFanoutExistingNode C n totalKeys maxFanout = some (L, used, n')) (hL : 1 ≤ L) :
    ∀ t ∈ used, t.level ≠ 0 := by
  obtain ⟨g, first, cost, hg, hfirst, hchoose⟩ := findBestFanoutExistingNode_grown h
  obtain rfl := choose_level hchoose
  have hroot : ∀ t, nodeAt g.fanoutTree 0 0 = some t →
      levelCost C n.numKeys totalKeys (2 ^ 0) first ≤
        nodeCharge C n.numKeys totalKeys t + pointerCost n.numKeys totalKeys 0 := by
    intro t ht
    obtain ⟨nodes, hnodes, h0⟩ := nodeAt_eq_some.mp ht
    rw [(hg.computed 0 nodes hnodes).2 rfl] at h0
    obtain ⟨t', ht'⟩ := List.length_eq_one_iff.mp hfirst.length
    rw [ht'] at h0
    rw [levelCost_eq hfirst, treeCost_eq, ht', ← Option.some.inj h0, List.map_singleton,
      List.sum_singleton]
  have hlevels : ∀ l nodes nodes', ExistingLevels C totalKeys n first l nodes →
      ExistingLevels C totalKeys n first (l + 1) nodes' → AddUp nodes nodes' := by
    rintro l nodes nodes' ⟨⟨a, b, cost, st, h⟩, -⟩ ⟨⟨a', b', cost', st', h'⟩, -⟩
    exact hadd a b a' b' l nodes nodes' cost cost' st st' h h'
  exact (hg.choose hkeys htotal hlevels hroot hL hchoose).2

/-- The key counts of the levels over a leaf add up. -/
theorem existingLevel_addUp {T : KeyType} (h : DataNode.Stores T n) (hlt : n.minLimit < n.maxLimit)
    {a b a' b' l : ℕ} {nodes nodes' : List (FTNode M)} {cost cost' : ℚ} {st st' : DataNode M P}
    (h₁ : existingLevel C totalKeys (n.withCounters a b) l = some (nodes, cost, st))
    (h₂ : existingLevel C totalKeys (n.withCounters a' b') (l + 1) = some (nodes', cost', st')) :
    AddUp nodes nodes' := by
  have hspec : ∀ {a b l : ℕ} {nodes : List (FTNode M)} {cost : ℚ} {st : DataNode M P},
      existingLevel C totalKeys (n.withCounters a b) l = some (nodes, cost, st) →
      ∀ i t, nodes[i]? = some t → cell t = (l, i) ∧ Cuts n.bound t ∧ RangeOf n t := by
    intro a b l nodes cost st he i t ht
    obtain ⟨ns, c, s, hns, -, hok, hall⟩ := existingLevel_spec h hlt C totalKeys
      (n.withCounters a b) l ⟨a, b, rfl⟩
    obtain rfl : ns = nodes := (Prod.mk.inj (Option.some.inj (hns.symm.trans he))).1
    exact ⟨hok.cell i t ht, (hall t (List.mem_of_getElem? ht)).2⟩
  intro i p c d hp hc hd
  obtain ⟨hpc, hpb, hpr⟩ := hspec h₁ i p hp
  obtain ⟨hcc, hcb, hcr⟩ := hspec h₂ (2 * i) c hc
  obtain ⟨hdc, hdb, hdr⟩ := hspec h₂ (2 * i + 1) d hd
  obtain ⟨hpl, hpi⟩ := Prod.mk.inj hpc
  obtain ⟨hcl, hci⟩ := Prod.mk.inj hcc
  obtain ⟨hdl, hdi⟩ := Prod.mk.inj hdc
  have hpos : (0 : ℚ) < 2 ^ (l + 1) := by positivity
  have hleft : c.leftBoundary = p.leftBoundary := by
    rw [hcb.left, hpb.left, hcl, hci, hpl, hpi, pow_succ]
    push_cast
    rw [mul_comm (2 : ℚ), mul_div_mul_right _ _ (by norm_num)]
  have hright : d.rightBoundary = p.rightBoundary := by
    rw [hdb.right, hpb.right, hdl, hdi, hpl, hpi, pow_succ]
    push_cast
    rw [show (2 * (i : ℚ) + 1 + 1) = ((i : ℚ) + 1) * 2 by ring, mul_div_mul_right _ _ (by norm_num)]
  have hmid : d.leftBoundary = c.rightBoundary := by
    rw [hdb.left, hcb.right, hdl, hdi, hcl, hci]
    push_cast
    rfl
  have hle₁ : c.leftBoundary ≤ c.rightBoundary := by
    rw [hcb.left, hcb.right, hcl]
    exact h.bound_mono hlt (div_le_div_of_nonneg_right (by linarith) hpos.le)
  have hle₂ : d.leftBoundary ≤ d.rightBoundary := by
    rw [hdb.left, hdb.right, hdl]
    exact h.bound_mono hlt (div_le_div_of_nonneg_right (by linarith) hpos.le)
  unfold RangeOf at hpr hcr hdr
  rw [hpr, hcr, hdr, ← hleft, ← hright, hmid, ← List.length_append,
    n.pairsBetween_append hle₁ (hmid ▸ hle₂)]

end

/-! ### The children of `bulk_load_node` -/

/-- The key range over which a node outputs values in `[0, 1)`. -/
def keyRange (node : ModelNode) : ℚ × ℚ :=
  ((0 - node.model.b) / node.model.a, (1 - node.model.b) / node.model.a)

omit [NodeModel M] in
/-- The range of a child is a part of that of its node. -/
theorem childNode_range {node : ModelNode} (ha : node.model.a ≠ 0) {depth : ℕ} (hdepth : 1 ≤ depth)
    {t : FTNode M} (ht : t.level ≠ 0) (cur : ℕ) :
    (Index.childNode node depth cur t).2 ≠ keyRange node := by
  intro heq
  obtain ⟨hl, hr⟩ := Prod.mk.inj heq
  have hleft := (div_left_inj' ha).mp hl
  have hright := (div_left_inj' ha).mp hr
  have hpos : (0 : ℚ) < (2 ^ depth : ℕ) := by positivity
  have hzero : (cur : ℚ) = 0 := by
    have h0 : (cur : ℚ) / (2 ^ depth : ℕ) = 0 := by simpa using hleft
    rcases div_eq_zero_iff.mp h0 with h | h
    · exact h
    · exact absurd h hpos.ne'
  have hone : (((cur + 2 ^ (depth - t.level) : ℕ) : ℚ)) / (2 ^ depth : ℕ) = 1 :=
    by simpa using hright
  rw [div_eq_one_iff_eq hpos.ne'] at hone
  have hcur : cur = 0 := by exact_mod_cast hzero
  have hpow : cur + 2 ^ (depth - t.level) = 2 ^ depth := by exact_mod_cast hone
  have hlt : 2 ^ (depth - t.level) < 2 ^ depth := Nat.pow_lt_pow_right (by norm_num) (by omega)
  omega

/-- **Merging accounts costs exactly and never collapses a chosen split**: the cost of the chosen
tree is the sum of the costs of its used nodes with those of its pointers; the root is not used,
over an array as over a leaf; and `bulk_load_node` recurses on smaller ranges only. -/
theorem merged_costs_exact (C : Params M P) {values : List (ℤ × P)} (hkeys : values ≠ [])
    {totalKeys : ℤ} (htotal : 0 ≤ totalKeys) {node : ModelNode} {maxDataNodeKeys : ℕ}
    (hadd : ∀ l, AddUp (loadLevel C values node maxDataNodeKeys l)
      (loadLevel C values node maxDataNodeKeys (l + 1)))
    {n : DataNode M P} (hn : 1 ≤ n.numKeys)
    (hadd' : ∀ a b a' b' l nodes nodes' cost cost' st st',
      existingLevel C totalKeys (n.withCounters a b) l = some (nodes, cost, st) →
      existingLevel C totalKeys (n.withCounters a' b') (l + 1) = some (nodes', cost', st') →
      AddUp nodes nodes') :
    (∀ L cost used,
      findBestFanoutBottomUp C values node totalKeys maxDataNodeKeys = some (L, cost, used) →
        (1 ≤ L → cost = treeCost C values.length totalKeys L used ∧ ∀ t ∈ used, t.level ≠ 0) ∧
        ∀ D used',
          Index.enoughFanout C values node totalKeys maxDataNodeKeys L used = some (D, used') →
          ∀ t ∈ used', ∀ cur, (Index.childNode node D cur t).2 ≠ keyRange node) ∧
    ∀ maxFanout L used n', findBestFanoutExistingNode C n totalKeys maxFanout = some (L, used, n') →
      1 ≤ L → ∀ t ∈ used, t.level ≠ 0 := by
  refine ⟨fun L cost used h => ⟨fun hL => ?_, fun D used' henough t ht cur => ?_⟩,
    fun maxFanout L used n' h hL => existing_spec hn htotal hadd' h hL⟩
  · obtain ⟨hcost, hlevel, -⟩ := bottomUp_spec hkeys htotal hadd h hL
    exact ⟨hcost, hlevel⟩
  · unfold Index.enoughFanout at henough
    by_cases hzero : L = 0
    · -- a node that is too big: a whole level behind level 0 is used
      rw [if_pos hzero] at henough
      obtain ⟨r, hlevel, hr⟩ := Option.map_eq_some_iff.mp henough
      obtain ⟨rfl, rfl⟩ := Prod.mk.inj hr
      unfold computeLevel at hlevel
      by_cases ha : node.model.a = 0
      · simp [ha] at hlevel
      · rw [if_neg ha] at hlevel
        rw [← Option.some.inj hlevel] at ht
        obtain ⟨i, hi⟩ := List.mem_iff_getElem?.mp ht
        have hcell := (levelOK_partNodes C values maxDataNodeKeys false _ _).cell i t hi
        have hlev := (Prod.mk.inj hcell).1
        exact childNode_range ha (by omega) (by omega) cur
    · rw [if_neg hzero] at henough
      obtain ⟨rfl, rfl⟩ := Prod.mk.inj (Option.some.inj henough)
      obtain ⟨-, hlevel, ha⟩ := bottomUp_spec hkeys htotal hadd h (by omega)
      exact childNode_range ha (by omega) (hlevel t ht) cur

/-! ### Three keys -/

/-- The node over `[1, 3)` before it is divided. -/
def threeKeysNode : ModelNode := { ModelNode.new 0 with model := ⟨1 / 2, -1 / 2⟩, cost := 100 }

theorem merged_costs_exact_threeKeys : ∃ n : DataNode LinearModel ℕ, DataNode.threeKeys = some n ∧
    (∀ L cost used,
      findBestFanoutBottomUp smallParams [(1, 10), (2, 20), (3, 30)] threeKeysNode 3 2 =
          some (L, cost, used) →
        (1 ≤ L → cost = treeCost smallParams 3 3 L used ∧ ∀ t ∈ used, t.level ≠ 0) ∧
        ∀ D used', Index.enoughFanout smallParams
        [(1, 10), (2, 20), (3, 30)] threeKeysNode 3 2 L used =
            some (D, used') →
          ∀ t ∈ used', ∀ cur, (Index.childNode threeKeysNode D cur t).2 ≠ keyRange threeKeysNode) ∧
    ∀ maxFanout L used n', findBestFanoutExistingNode smallParams
        { n with minLimit := 1, maxLimit := 3 } 3 maxFanout = some (L, used, n') →
      1 ≤ L → ∀ t ∈ used, t.level ≠ 0 := by
  obtain ⟨n, hn, hwf⟩ := DataNode.threeKeys_wellFormed
  have hread : DataNode.threeKeys.map (fun n => (n.numKeys, n.pairs)) =
      some (3, [(1, 10), (2, 20), (3, 30)]) := by decide +kernel
  rw [hn, Option.map_some] at hread
  obtain ⟨hnum, hpairs⟩ := Prod.mk.inj (Option.some.inj hread)
  have hstores : DataNode.Stores KeyType.uint64 { n with minLimit := 1, maxLimit := 3 } := by
    have hs : DataNode.Stores KeyType.uint64 n :=
      ⟨⟨_, _, hwf.holds⟩, by rw [hpairs]; decide⟩
    exact hs.congr rfl rfl
  have hlt : ({ n with minLimit := 1, maxLimit := 3 } : DataNode LinearModel ℕ).minLimit <
      ({ n with minLimit := 1, maxLimit := 3 } : DataNode LinearModel ℕ).maxLimit := by norm_num
  refine ⟨n, hn, @merged_costs_exact _ _ _ smallParams [(1, 10), (2, 20), (3, 30)] (by simp)
    3 (by norm_num) threeKeysNode 2
      (loadLevel_addUp (by decide) (by unfold threeKeysNode; norm_num))
    { n with minLimit := 1, maxLimit := 3 } (show 1 ≤ n.numKeys by rw [hnum]; omega) ?_⟩
  exact fun a b a' b' l nodes nodes' cost cost' st st' h h' => existingLevel_addUp hstores hlt h h'

end LearnedIndex.Alexol.FanoutTree
