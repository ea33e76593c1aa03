import LearnedIndex.Alexol.DataNodeSpec

/-! # Rebuilding and erasing data nodes

Bulk loading, loading from another node and resizing all lay pairs out in fresh arrays, so for any
model the new node holds exactly these pairs and has room for more (`Room`).  Erasing clears the
slots between two cuts and removes exactly the entries of a key range. -/

namespace LearnedIndex.Alexol

open LearnedIndex.Words LearnedIndex.Search

namespace DataNode

variable {M P : Type} {T : KeyType} {n : DataNode M P} {v : View P} {k : ℕ → ℤ}

/-! ### Rebuilding -/

theorem lt_capacityFor (numKeys : ℕ) (density : ℚ) : numKeys < capacityFor numKeys density := by
  unfold capacityFor
  omega

/-- There is room for another key below the expansion threshold. -/
structure Room (n : DataNode M P) : Prop where
  lt : (n.numKeys : ℚ) < n.expansionThreshold
  pos : 1 ≤ n.expansionThreshold
  le : n.expansionThreshold ≤ n.dataCapacity

theorem Room.lt_capacity (h : Room n) : n.numKeys < n.dataCapacity := by
  have := lt_of_lt_of_le h.lt h.le
  exact_mod_cast this

theorem room_setThresholds (h : n.numKeys < n.dataCapacity) : Room n.setThresholds := by
  have hcap : (n.numKeys : ℚ) + 1 ≤ n.dataCapacity := by exact_mod_cast h
  have hnum : (0 : ℚ) ≤ n.numKeys := Nat.cast_nonneg _
  refine ⟨?_, ?_, min_le_right _ _⟩
  · show (n.numKeys : ℚ) < min (max _ _) _
    rw [lt_min_iff, lt_max_iff]
    exact ⟨Or.inr (lt_add_one _), by linarith⟩
  · show (1 : ℚ) ≤ min (max _ _) _
    rw [le_min_iff, le_max_iff]
    exact ⟨Or.inr (by linarith), by linarith⟩

theorem forall₂_range (values : List (ℤ × P)) :
    List.Forall₂ (fun i y => i < values.length ∧ values[i]? = some y)
      (List.range values.length) values := by
  rw [List.forall₂_iff_get]
  refine ⟨List.length_range, ?_⟩
  intro i h1 h2
  simp only [List.get_eq_getElem, List.getElem_range]
  exact ⟨h2, List.getElem?_eq_getElem h2⟩

/-- The node after `load_empty`: no entries and one free slot. -/
theorem loadEmpty_spec (T : KeyType) (n : DataNode M P) (density : ℚ) :
    ∃ n' v' k', n.loadEmpty T density = some n' ∧ Holds T n' v' k' ∧ v'.entries = [] ∧ Room n' ∧
      SamePlace n' n ∧ n'.lock = n.lock := by
  have hcap := lt_capacityFor 0 density
  obtain ⟨s, v', k', hs, hr, hc, hg, hents⟩ :=
    Reps.layout (T := T) (P := P) (fun _ => 0) (show ∀ i ∈ ([] : List ℕ).head?, 0 ≤ i by simp)
      (forall₂_range []) hcap (Nat.zero_le _) List.Pairwise.nil (by simp)
  have hs' : (Slots.fresh (capacityFor 0 density) : Slots P).fillKeys T.max 0
      (capacityFor 0 density) = some s := hs
  have hdc : s.dataCapacity = capacityFor 0 density := by rw [hr.cap, hc]
  have hcap1 : (1 : ℚ) ≤ capacityFor 0 density := by exact_mod_cast hcap
  unfold loadEmpty
  simp only [hs', Option.bind_eq_bind, Option.bind_some]
  refine ⟨_, v', k', rfl, ⟨hr, hg, by rw [hents]; rfl⟩, hents, ⟨?_, hcap1, ?_⟩,
    ⟨rfl, rfl, rfl, rfl, rfl, rfl, rfl, rfl, rfl⟩, rfl⟩
  · show ((0 : ℕ) : ℚ) < capacityFor 0 density
    rw [Nat.cast_zero]
    linarith
  · show (capacityFor 0 density : ℚ) ≤ s.dataCapacity
    rw [hdc]

/-- `bulk_load` of any non-decreasing array, for any model. -/
theorem bulkLoad_spec [NodeModel M] (n : DataNode M P) {values : List (ℤ × P)}
    (hs : values.Pairwise (fun a b => a.1 ≤ b.1)) (hB : ∀ y ∈ values, y.1 ≤ T.max)
    (pretrained : Option M) (sample : Bool) :
    ∃ n' v' k', n.bulkLoad T values pretrained sample = some n' ∧ Holds T n' v' k' ∧
      v'.entries = values ∧ Room n' ∧ SamePlace n' n ∧ n'.lock = n.lock := by
  unfold DataNode.bulkLoad
  cases values with
  | nil => exact loadEmpty_spec T n kInitDensity
  | cons x rest =>
      obtain ⟨last, hlast⟩ : ∃ last, (x :: rest).getLast? = some last :=
        ⟨_, List.getLast?_eq_getLast_of_ne_nil (by simp)⟩
      simp only [List.head?_cons, hlast]
      generalize (NodeModel.expand _ _ : M) = model
      have hcap := lt_capacityFor (x :: rest).length kInitDensity
      obtain ⟨s, v', k', hlay, hr, hc, hg, hents⟩ :=
        Reps.layout (T := T) (NodeModel.predict model)
          (show ∀ i ∈ ([] : List ℕ).head?, (x :: rest).length ≤ i by simp)
          (forall₂_range (x :: rest)) (by omega) hcap.le hs hB
      rw [List.append_nil] at hlay
      rw [hlay, Option.bind_eq_bind, Option.bind_some]
      refine ⟨_, v', k', rfl, ⟨hr, hg, by rw [hents]; rfl⟩, hents, room_setThresholds ?_,
        ⟨rfl, rfl, rfl, rfl, rfl, rfl, rfl, rfl, rfl⟩, rfl⟩
      show (x :: rest).length < s.dataCapacity
      rw [hr.cap, hc]
      exact hcap

/-! ### Reading another node -/

theorem Holds.pairAt (h : Holds T n v k) {i : ℕ} {x : ℤ × P}
    (hc : v.cell i = some x) : n.pairAt i = some x := by
  obtain ⟨kx, px⟩ := x
  obtain ⟨_, hk, hp⟩ := View.cell_eq_some.mp hc
  unfold DataNode.pairAt
  rw [h.reps.key, h.reps.pay, hk, hp]
  rfl

/-- The filled positions of a list, with the pairs stored there. -/
theorem Holds.forall₂_filled (h : Holds T n v k) {right : ℕ} (hr : right ≤ v.cap) :
    ∀ l : List ℕ, (∀ i ∈ l, i < right) →
      List.Forall₂ (fun i y => i < right ∧ n.pairAt i = some y) (l.filter v.bit)
        (l.filterMap v.cell)
  | [], _ => List.Forall₂.nil
  | i :: l, hl => by
      have ih := h.forall₂_filled hr l (fun j hj => hl j (List.mem_cons_of_mem _ hj))
      have hi := hl i (List.mem_cons_self ..)
      cases hb : v.bit i with
      | false =>
          rw [List.filter_cons_of_neg (by simp [hb]), List.filterMap_cons, View.cell_gap hb]
          exact ih
      | true =>
          obtain ⟨p, _, hcell⟩ := h.gapped.cell (lt_of_lt_of_le hi hr) hb
          rw [List.filter_cons_of_pos hb, List.filterMap_cons, hcell]
          exact List.Forall₂.cons ⟨hi, h.pairAt hcell⟩ ih

/-- What an iterator over `[left, right)` reads: the positions below `right` are those of the
entries, and the first one after them is not below `right`. -/
theorem Holds.positions (h : Holds T n v k) (past : Option Word) {left right : ℕ}
    (hlr : left ≤ right) (hr : right ≤ v.cap) (hpast : left < v.cap ∨ past ≠ none) :
    ∃ front back, n.positionsFrom past left = some (front ++ back) ∧
      (∀ i ∈ back.head?, right ≤ i) ∧
      List.Forall₂ (fun i y => i < right ∧ n.pairAt i = some y) front (v.seg left right) := by
  rcases Nat.lt_or_ge left v.cap with hlt | hge
  · refine ⟨(List.range' left (right - left)).filter v.bit,
      (List.range' right (v.cap - right)).filter v.bit, ?_, ?_, ?_⟩
    · rw [h.reps.positionsFrom_eq past hlt, ← List.filter_append]
      unfold View.filledFrom
      have happ := List.range'_append_1 (s := left) (m := right - left) (n := v.cap - right)
      rw [show left + (right - left) = right by omega,
        show right - left + (v.cap - right) = v.cap - left by omega] at happ
      rw [happ]
    · intro i hi
      have hmem := List.mem_of_mem_head? hi
      rw [List.mem_filter, List.mem_range'_1] at hmem
      exact hmem.1.1
    · refine h.forall₂_filled hr _ (fun i hi => ?_)
      rw [List.mem_range'_1] at hi
      omega
  · obtain rfl : left = v.cap := by omega
    obtain ⟨w, rfl⟩ : ∃ w, past = some w := by
      rcases hpast with hlt | hne
      · omega
      · exact Option.ne_none_iff_exists'.mp hne
    obtain ⟨l, hl, hall⟩ := h.reps.positionsFrom_cap w
    refine ⟨[], l, hl, ?_, ?_⟩
    · intro i hi
      exact hr.trans (hall i (List.mem_of_mem_head? hi))
    · rw [View.seg_empty (by omega)]
      exact List.Forall₂.nil

theorem mapM_of_forall₂ {α β : Type} {f : α → Option β} : ∀ {l : List α} {l' : List β},
    List.Forall₂ (fun a b => f a = some b) l l' → l.mapM f = some l'
  | _, _, List.Forall₂.nil => rfl
  | _, _, List.Forall₂.cons hab hrest => by
      rw [List.mapM_cons, hab, mapM_of_forall₂ hrest]
      rfl

theorem takeWhile_front {right : ℕ} : ∀ {front back : List ℕ}, (∀ i ∈ front, i < right) →
    (∀ i ∈ back.head?, right ≤ i) → (front ++ back).takeWhile (· < right) = front
  | [], [], _, _ => rfl
  | [], j :: back, _, hback => by
      have hj : ¬ j < right := not_lt.mpr (hback j rfl)
      simp [hj]
  | i :: front, back, hfront, hback => by
      have hi : i < right := hfront i (List.mem_cons_self ..)
      rw [List.cons_append, List.takeWhile_cons_of_pos (by simpa using hi),
        takeWhile_front (fun j hj => hfront j (List.mem_cons_of_mem _ hj)) hback]

theorem keysBelow_eq {right : ℕ} {front back : List ℕ} {pairs : List (ℤ × P)}
    (hback : ∀ i ∈ back.head?, right ≤ i)
    (hread : List.Forall₂ (fun i y => i < right ∧ n.pairAt i = some y) front pairs) :
    n.keysBelow right (front ++ back) = some (pairs.map Prod.fst) := by
  have hfront : ∀ i ∈ front, i < right := ((List.forall₂_and_left _ _).mp hread).1
  unfold DataNode.keysBelow
  rw [takeWhile_front hfront hback]
  apply mapM_of_forall₂
  rw [List.forall₂_map_right_iff]
  refine hread.imp (fun i y hy => ?_)
  have hpair := hy.2
  unfold DataNode.pairAt at hpair
  cases hk : n.keyAt i with
  | none => rw [hk] at hpair; cases hpair
  | some key =>
      cases hp : n.payloadAt i with
      | none => rw [hk, hp] at hpair; cases hpair
      | some p =>
          rw [hk, hp] at hpair
          obtain rfl := Option.some.inj hpair
          rfl

theorem Holds.seg_sorted (h : Holds T n v k) {left right : ℕ} (hr : right ≤ v.cap) :
    (v.seg left right).Pairwise (fun a b => a.1 ≤ b.1) := h.gapped.toGappedTo.sorted hr

theorem Holds.seg_le (h : Holds T n v k) {left right : ℕ} (hr : right ≤ v.cap) {x : ℤ × P}
    (hx : x ∈ v.seg left right) : x.1 ≤ T.max := by
  obtain ⟨i, _, h2, hc⟩ := View.mem_seg.mp hx
  rw [(h.gapped.key_of_cell (by omega) hc).2]
  exact h.gapped.le_past i

/-- The keys of a range of another node, laid out for any model. -/
theorem Holds.layout {src : DataNode M P} (h : Holds T src v k) {left right cap : ℕ}
    {front back : List ℕ} (hr : right ≤ v.cap) (hback : ∀ i ∈ back.head?, right ≤ i)
    (hread : List.Forall₂ (fun i y => i < right ∧ src.pairAt i = some y) front (v.seg left right))
    (hcap : (v.seg left right).length < cap) (predict : ℤ → ℤ) :
    ∃ s v' k', Slots.layout T.max cap (v.seg left right).length predict src.pairAt (front ++ back)
        right = some s ∧ Reps s v' ∧ s.dataCapacity = cap ∧ v'.Gapped T k' ∧
      v'.entries = v.seg left right := by
  obtain ⟨s, v', k', hlay, hreps, hc, hg, hents⟩ :=
    Reps.layout (T := T) predict hback hread (by omega) hcap.le (h.seg_sorted hr)
      (fun y hy => h.seg_le hr hy)
  exact ⟨s, v', k', hlay, hreps, by rw [hreps.cap, hc], hg, hents⟩

variable [NodeModel M]

/-- `bulk_load_from_existing`: the entries between two positions of another node. -/
theorem Holds.bulkLoadFromExisting {src : DataNode M P} (h : Holds T src v k) (n : DataNode M P)
    (past : Option Word) {left right : ℕ} (hlr : left ≤ right) (hr : right ≤ v.cap)
    (hpast : left < v.cap ∨ past ≠ none) (keepLeft keepRight : Bool)
    {precomputed : Option (M × ℕ)} (hpre : ∀ m ∈ precomputed, m.2 = (v.seg left right).length) :
    ∃ n' v' k', n.bulkLoadFromExisting T past src left right keepLeft keepRight precomputed =
        some n' ∧ Holds T n' v' k' ∧ v'.entries = v.seg left right ∧ Room n' ∧ SamePlace n' n ∧
      n'.lock = n.lock := by
  obtain ⟨front, back, hpos, hback, hread⟩ := h.positions past hlr hr hpast
  obtain ⟨model, hmodel⟩ : ∃ model, src.modelFor right (front ++ back) precomputed =
      some (model, (v.seg left right).length) := by
    cases precomputed with
    | none =>
        refine ⟨NodeModel.train false ((v.seg left right).map Prod.fst), ?_⟩
        show (src.keysBelow right (front ++ back)).map _ = _
        rw [keysBelow_eq hback hread, Option.map_some, List.length_map]
    | some m =>
        refine ⟨m.1, ?_⟩
        show some m = _
        rw [← hpre m rfl]
  unfold DataNode.bulkLoadFromExisting
  simp only [hpos, hmodel, Option.bind_eq_bind, Option.bind_some]
  by_cases h0 : (v.seg left right).length = 0
  · rw [if_pos h0]
    obtain ⟨n', v', k', he, hh, hents, hroom, hplace, hlock⟩ :=
      loadEmpty_spec T { n with model := model } kMinDensity
    refine ⟨n', v', k', he, hh, ?_, hroom, hplace.trans
      ⟨rfl, rfl, rfl, rfl, rfl, rfl, rfl, rfl, rfl⟩,
      hlock⟩
    rw [hents, List.length_eq_zero_iff.mp h0]
  · rw [if_neg h0]
    generalize expandModelKeeping model _ _ _ _ = model'
    have hcap := lt_capacityFor (v.seg left right).length kMinDensity
    obtain ⟨s, v', k', hlay, hreps, hc, hg, hents⟩ :=
      h.layout hr hback hread hcap (NodeModel.predict model')
    simp only [hlay, Option.bind_some]
    refine ⟨_, v', k', rfl, ⟨hreps, hg, by rw [hents]; rfl⟩, hents, room_setThresholds ?_,
      ⟨rfl, rfl, rfl, rfl, rfl, rfl, rfl, rfl, rfl⟩, rfl⟩
    show (v.seg left right).length < s.dataCapacity
    rw [hc]
    exact hcap

/-- `resize` and `resize_from_existing` on a node with keys: the entries are laid out again. -/
theorem Holds.rebuildFrom {src : DataNode M P} (h : Holds T src v k) {n : DataNode M P}
    (hnum : n.numKeys = src.numKeys) (hcap : n.dataCapacity = src.dataCapacity) (density : ℚ)
    (forceRetrain keepLeft keepRight : Bool) :
    ∃ n' v' k', n.rebuildFrom T src density forceRetrain keepLeft keepRight = some n' ∧
      Holds T n' v' k' ∧ v'.entries = v.entries ∧ Room n' ∧ SamePlace n' n ∧ n'.lock = n.lock := by
  obtain ⟨front, back, hpos, hback, hread⟩ :=
    h.positions none (Nat.zero_le v.cap) (le_refl _) (Or.inl h.reps.pos)
  have hcap' : n.dataCapacity = v.cap := by rw [hcap, h.reps.cap]
  have hlen : n.numKeys = (v.seg 0 v.cap).length := by rw [hnum, h.count]; rfl
  have hkeys := keysBelow_eq hback hread
  unfold DataNode.rebuildFrom
  simp only [hpos, hcap', hkeys, Option.bind_eq_bind, Option.bind_some]
  generalize n.resizedModel _ _ _ _ _ = model
  have hlt := lt_capacityFor (v.seg 0 v.cap).length density
  obtain ⟨s, v', k', hlay, hreps, hc, hg, hents⟩ :=
    h.layout (le_refl _) hback hread hlt (NodeModel.predict model)
  rw [← hlen] at hlay hc hlt
  simp only [hlay, Option.bind_some]
  refine ⟨_, v', k', rfl, ⟨hreps, hg, ?_⟩, hents, room_setThresholds ?_,
    ⟨rfl, rfl, rfl, rfl, rfl, rfl, rfl, rfl, rfl⟩, rfl⟩
  · rw [hents]
    exact hlen
  · show n.numKeys < s.dataCapacity
    rw [hc]
    exact hlt

/-- Resizing keeps the entries; on an empty node it does nothing. -/
theorem Holds.resize (h : Holds T n v k) (density : ℚ) (forceRetrain keepLeft keepRight : Bool) :
    ∃ n' v' k', n.resize T density forceRetrain keepLeft keepRight = some n' ∧ Holds T n' v' k' ∧
      v'.entries = v.entries ∧ (n' = n ∧ n.numKeys = 0 ∨ Room n') ∧ SamePlace n' n ∧
      n'.lock = n.lock := by
  unfold DataNode.resize
  by_cases h0 : n.numKeys = 0
  · rw [if_pos h0]
    exact ⟨n, v, k, rfl, h, rfl, Or.inl ⟨rfl, h0⟩, SamePlace.refl n, rfl⟩
  · rw [if_neg h0]
    obtain ⟨n', v', k', he, hh, hents, hroom, hplace, hlock⟩ :=
      h.rebuildFrom rfl rfl density forceRetrain keepLeft keepRight
    exact ⟨n', v', k', he, hh, hents, Or.inr hroom, hplace, hlock⟩

/-- `New_from_existing` followed by `resize_from_existing`, on a node with keys. -/
theorem Holds.resizeFromExisting (h : Holds T n v k) (h0 : n.numKeys ≠ 0) (density : ℚ)
    (forceRetrain keepLeft keepRight : Bool) :
    ∃ n' v' k', n.newFromExisting.resizeFromExisting T n density forceRetrain keepLeft keepRight =
        some n' ∧ Holds T n' v' k' ∧ v'.entries = v.entries ∧ Room n' ∧
      SamePlace n' n.newFromExisting ∧ n'.lock = n.lock := by
  have h0' : ¬ n.newFromExisting.numKeys = 0 := h0
  unfold DataNode.resizeFromExisting
  rw [if_neg h0']
  exact h.rebuildFrom (n := n.newFromExisting) rfl rfl density forceRetrain keepLeft keepRight

/-! ### Erasing -/

/-- Contraction keeps the entries. -/
theorem Holds.contract (h : Holds T n v k) :
    ∃ n' v' k', n.contract T = some n' ∧ Holds T n' v' k' ∧ v'.entries = v.entries ∧
      (Room n' ∨ (n'.toSlots = n.toSlots ∧ n'.numKeys = n.numKeys ∧
        n'.expansionThreshold = n.expansionThreshold ∧
        n'.contractionThreshold = n.contractionThreshold)) ∧
      SamePlace n' n ∧ n'.lock = n.lock := by
  unfold DataNode.contract
  by_cases hc : (n.numKeys : ℚ) < n.contractionThreshold
  · rw [if_pos hc]
    obtain ⟨n', v', k', he, hh, hents, hroom, hplace, hlock⟩ :=
      h.resize kMaxDensity false false false
    rw [he, Option.bind_eq_bind, Option.bind_some]
    have hcount : SamePlace { n' with numResizes := n'.numResizes + 1 } n' :=
      ⟨rfl, rfl, rfl, rfl, rfl, rfl, rfl, rfl, rfl⟩
    refine ⟨_, v', k', rfl, hh.congr rfl rfl, hents, ?_, hcount.trans hplace, hlock⟩
    rcases hroom with ⟨rfl, _⟩ | hroom
    · exact Or.inr ⟨rfl, rfl, rfl, rfl⟩
    · exact Or.inl ⟨hroom.lt, hroom.pos, hroom.le⟩
  · rw [if_neg hc]
    exact ⟨n, v, k, rfl, h, rfl, Or.inr ⟨rfl, rfl, rfl, rfl⟩, SamePlace.refl n, rfl⟩

omit [NodeModel M] in
theorem Holds.nextKeyAt (h : Holds T n v k) {pos : ℕ} (hp : pos ≤ v.cap) :
    n.nextKeyAt T pos = some (k pos) := by
  unfold DataNode.nextKeyAt
  rw [h.reps.cap]
  by_cases hpc : pos = v.cap
  · rw [if_pos hpc, h.gapped.past pos (by omega)]
  · rw [if_neg hpc, h.reps.key]
    exact h.gapped.init pos (by omega)

omit [NodeModel M] in
/-- The arrays after a range of slots has been cleared. -/
theorem Holds.cleared (h : Holds T n v k) {lo hi : ℕ} (hlo : lo ≤ hi) (hhi : hi ≤ v.cap)
    (hend : lo = 0 ∨ lo = hi ∨ v.bit (lo - 1) = true) (n' : DataNode M P)
    (hreps : Reps n'.toSlots (v.clear (k hi) lo hi))
    (hnum : n'.numKeys = n.numKeys - (v.seg lo hi).length) :
    ∃ k', Holds T n' (v.clear (k hi) lo hi) k' ∧
      (v.clear (k hi) lo hi).entries = v.seg 0 lo ++ v.seg hi v.cap := by
  obtain ⟨hg, hents⟩ := h.gapped.erase hlo hhi hend
  refine ⟨_, ⟨hreps, hg, ?_⟩, hents⟩
  have hlen : v.entries.length = (v.seg 0 lo).length + ((v.seg lo hi).length +
      (v.seg hi v.cap).length) := by
    unfold View.entries
    rw [View.seg_append (Nat.zero_le lo) (by omega : lo ≤ v.cap), View.seg_append hlo hhi,
      List.length_append, List.length_append]
  rw [hnum, h.count, hents, List.length_append, hlen]
  omega

omit [NodeModel M] in
/-- The erasing loop between two cuts removes the entries between them. -/
theorem Holds.eraseBetween (h : Holds T n v k) {belowLo belowHi : ℤ → Prop}
    [DecidablePred belowLo] [DecidablePred belowHi] {lo hi : ℕ} (hlo : v.CutAt k belowLo lo)
    (hhi : v.CutAt k belowHi hi) (test : ℤ → Bool)
    (htest : ∀ x, belowHi x → test x = decide (¬ belowLo x)) :
    ∃ s d v' k', n.toSlots.eraseWhile test (k hi) hi 0 = some (s, d) ∧ v'.cap = v.cap ∧
      d = (v.entries.filter (fun x => decide (¬ belowLo x.1 ∧ belowHi x.1))).length ∧
      v'.entries = v.entries.filter (fun x => decide (belowLo x.1 ∨ ¬ belowHi x.1)) ∧
      (∀ n' : DataNode M P, n'.toSlots = s → n'.numKeys = n.numKeys - d → Holds T n' v' k') ∧
      (d = 0 → s = n.toSlots) := by
  have hlocap := hlo.le
  have hhicap := hhi.le
  generalize hl : min lo hi = l
  have htest' : ∀ i, i < hi → test (k i) = decide (l ≤ i) := by
    intro i hi'
    rw [htest _ (hhi.lt i hi'), decide_eq_decide]
    constructor
    · intro hb
      by_contra hcon
      exact hb (hlo.lt i (by omega))
    · intro hle
      exact hlo.ge i (by omega) (by omega)
  have hend : l = 0 ∨ l = hi ∨ v.bit (l - 1) = true := by
    rcases Nat.eq_zero_or_pos l with h0 | hpos
    · exact Or.inl h0
    · rcases Nat.lt_or_ge l hi with hlt | hge
      · refine Or.inr (Or.inr (h.gapped.toGappedTo.filled_of_lt (by omega) ?_))
        rw [Nat.sub_add_cancel hpos]
        have h1 := hlo.lt (l - 1) (by omega)
        have h2 := hlo.ge l (by omega) (by omega)
        have hle := h.gapped.mono (show l - 1 ≤ l by omega)
        rcases lt_or_eq_of_le hle with hlt' | heq
        · exact hlt'
        · rw [heq] at h1
          exact absurd h1 h2
      · exact Or.inr (Or.inl (by omega))
  obtain ⟨s, hs, hreps⟩ := Reps.eraseWhile (k hi) l hi 0 h.reps (by omega) hhicap
    (fun i hi' => h.gapped.init i (by omega)) htest'
  have hlen := h.gapped.toGappedTo.length_seg l (hi - l) (by omega)
  rw [show l + (hi - l) = hi by omega] at hlen
  rw [Nat.zero_add, ← hlen] at hs
  obtain ⟨hg, hents⟩ := h.gapped.erase (show l ≤ hi by omega) hhicap hend
  -- the three parts of the entries
  have hsplit : v.entries = v.seg 0 l ++ (v.seg l hi ++ v.seg hi v.cap) := by
    unfold View.entries
    rw [View.seg_append (Nat.zero_le l) (by omega : l ≤ v.cap),
      View.seg_append (by omega : l ≤ hi) hhicap]
  have hkey : ∀ {a b : ℕ} {x : ℤ × P}, x ∈ v.seg a b → b ≤ v.cap → ∃ i, a ≤ i ∧ i < b ∧
    x.1 = k i := by
    intro a b x hx hb
    obtain ⟨i, h1, h2, hc⟩ := View.mem_seg.mp hx
    exact ⟨i, h1, h2, (h.gapped.key_of_cell (by omega) hc).2⟩
  have hA : ∀ x ∈ v.seg 0 l, belowLo x.1 := by
    intro x hx
    obtain ⟨i, _, h2, hxk⟩ := hkey hx (by omega)
    rw [hxk]
    exact hlo.lt i (by omega)
  have hB : ∀ x ∈ v.seg l hi, ¬ belowLo x.1 ∧ belowHi x.1 := by
    intro x hx
    obtain ⟨i, h1, h2, hxk⟩ := hkey hx (by omega)
    rw [hxk]
    exact ⟨hlo.ge i (by omega) (by omega), hhi.lt i h2⟩
  have hC : ∀ x ∈ v.seg hi v.cap, ¬ belowHi x.1 := by
    intro x hx
    obtain ⟨i, h1, h2, hxk⟩ := hkey hx (le_refl _)
    rw [hxk]
    exact hhi.ge i h1 h2
  refine ⟨s, _, v.clear (k hi) l hi, fun i => if l ≤ i ∧ i < hi then k hi else k i, hs, rfl,
    ?_, ?_, ?_, ?_⟩
  · rw [hsplit, List.filter_append, List.filter_append,
      List.filter_eq_nil_iff.mpr (fun x hx => by simp [hA x hx]),
      List.filter_eq_self.mpr (fun x hx => by simp [hB x hx]),
      List.filter_eq_nil_iff.mpr (fun x hx => by simp [hC x hx])]
    simp
  · rw [hents, hsplit, List.filter_append, List.filter_append,
      List.filter_eq_self.mpr (fun x hx => by simp [hA x hx]),
      List.filter_eq_nil_iff.mpr (fun x hx => by simp [hB x hx]),
      List.filter_eq_self.mpr (fun x hx => by simp [hC x hx])]
    simp
  · intro n' hslots hnum
    refine ⟨hslots ▸ hreps, hg, ?_⟩
    rw [hnum, h.count, hents, hsplit]
    simp only [List.length_append]
    omega
  · -- without an entry between the cuts there are only gaps to clear
    intro hd
    rw [h.gapped.clear_gaps hhicap (fun i h1 h2 => ?_)] at hreps
    · exact hreps.ext h.reps
    · by_contra hb
      obtain ⟨p, _, hcell⟩ := h.gapped.cell (show i < v.cap by omega) (by simpa using hb)
      have hmem := View.mem_seg.mpr ⟨i, h1, h2, hcell⟩
      rw [List.length_eq_zero_iff.mp hd] at hmem
      cases hmem

theorem erase_locked (hl : isSet n.lock = true) (key : ℤ) : n.erase T key = some (none, n) := by
  unfold DataNode.erase
  rw [tryGetLock_locked hl]

/-- `erase` in a free node removes exactly the entries with the key. -/
theorem Holds.erase (h : Holds T n v k) (hl : isSet n.lock = false) (key : ℤ) :
    ∃ r n' v' k', n.erase T key = some (some r, n') ∧ Holds T n' v' k' ∧ v'.cap = v.cap ∧
      r = (v.entries.filter (fun x => decide (x.1 = key))).length ∧
      v'.entries = v.entries.filter (fun x => decide (x.1 ≠ key)) ∧
      n'.lock = n.lock + 1#32 ∧ SamePlace n' n ∧
      n'.expansionThreshold = n.expansionThreshold ∧
      n'.contractionThreshold = n.contractionThreshold ∧
      (r = 0 → n'.toSlots = n.toSlots) := by
  have ha : Holds T n.acquired v k := h.congr rfl rfl
  obtain ⟨c, hcq⟩ := h.exists_upper key
  have hc := cutAt_intCast.mp hcq
  obtain ⟨a, b, hu⟩ := ha.upperBound hcq
  have hlocal : Holds T (n.acquired.withCounters a b) v k := h.congr rfl rfl
  obtain ⟨stored, heq, hnone⟩ := hlocal.equalBelow_none hc
  unfold DataNode.erase
  simp only [tryGetLock_free hl, hu, Option.bind_eq_bind, Option.bind_some, heq]
  cases stored with
  | true =>
      obtain ⟨lo, hlo⟩ := h.gapped.toGappedTo.exists_cut (· < key)
        (fun _ _ hxy hy => lt_of_le_of_lt hxy hy)
      obtain ⟨s, d, v', k', hs, hcap, hd, hents, hholds, hsame⟩ :=
        hlocal.eraseBetween hlo hc (fun k => decide (k = key))
          (fun x hx => by rw [decide_eq_decide]; omega)
      simp only [if_true, hlocal.nextKeyAt hc.le, hs, Option.bind_some]
      refine ⟨d, _, v', k', rfl, (hholds { n.acquired.withCounters a b with
          toSlots := s, numKeys := n.numKeys - d } rfl rfl).congr rfl rfl, hcap, ?_, ?_,
        release_acquire hl, ⟨rfl, rfl, rfl, rfl, rfl, rfl, rfl, rfl, rfl⟩, rfl, rfl, hsame⟩
      · rw [hd]
        congr 1
        refine List.filter_congr (fun x _ => ?_)
        rw [decide_eq_decide]
        omega
      · rw [hents]
        refine List.filter_congr (fun x _ => ?_)
        rw [decide_eq_decide]
        omega
  | false =>
      have hno := hnone rfl
      simp only [Bool.false_eq_true, if_false]
      refine ⟨0, _, v, k, rfl, h.congr rfl rfl, rfl, ?_, ?_, release_acquire hl,
        ⟨rfl, rfl, rfl, rfl, rfl, rfl, rfl, rfl, rfl⟩, rfl, rfl, fun _ => rfl⟩
      · rw [List.filter_eq_nil_iff.mpr (fun x hx hk => hno x hx (of_decide_eq_true hk))]
        rfl
      · rw [List.filter_eq_self.mpr (fun x hx => decide_eq_true (hno x hx))]

/-- `erase_one_at` on a filled position removes exactly its entry. -/
theorem Holds.eraseOneAt (h : Holds T n v k) {pos : ℕ} (hp : pos < v.cap)
    (hb : v.bit pos = true) :
    ∃ n' v' k' x, n.eraseOneAt T pos = some n' ∧ Holds T n' v' k' ∧ v.cell pos = some x ∧
      v.entries = v.seg 0 pos ++ x :: v.seg (pos + 1) v.cap ∧
      v'.entries = v.seg 0 pos ++ v.seg (pos + 1) v.cap ∧
      (Room n' ∨ (n'.dataCapacity = n.dataCapacity ∧ n'.numKeys + 1 = n.numKeys ∧
        n'.expansionThreshold = n.expansionThreshold)) ∧
      SamePlace n' n ∧ n'.lock = n.lock := by
  obtain ⟨s₁, e₁, h₁⟩ := h.reps.setKey hp (k (pos + 1))
  obtain ⟨s₂, e₂, h₂⟩ := h₁.unsetBit (show pos < (v.setKey pos (k (pos + 1))).cap from hp)
  obtain ⟨j, hj, hgap, hend, s₃, e₃, h₃⟩ := Reps.backFill (k (pos + 1)) pos h₂
    (by rw [View.setBit_cap, View.setKey_cap]; omega)
  have hbit : ∀ i, i ≠ pos → ((v.setKey pos (k (pos + 1))).setBit pos false).bit i = v.bit i := by
    intro i hi
    show Function.update v.bit pos false i = _
    rw [Function.update_of_ne hi]
  have hview : ((v.setKey pos (k (pos + 1))).setBit pos false).fill (k (pos + 1)) j (pos - j) =
      v.clear (k (pos + 1)) j (pos + 1) := by
    unfold View.setKey View.setBit View.fill View.clear
    congr 1
    · funext i
      simp only [Function.update_apply]
      split_ifs <;> first | rfl | omega
    · funext i
      simp only [Function.update_apply]
      by_cases hi : i = pos
      · rw [if_pos hi, if_pos (by omega)]
      · rw [if_neg hi]
        split_ifs with hin
        · have := hgap i hin.1 (by omega)
          rwa [hbit i hi] at this
        · rfl
  rw [hview] at h₃
  have hend' : j = 0 ∨ j = pos + 1 ∨ v.bit (j - 1) = true := by
    rcases hend with h0 | h1
    · exact Or.inl h0
    · rcases Nat.eq_zero_or_pos j with h0 | hpos
      · exact Or.inl h0
      · rw [hbit _ (by omega)] at h1
        exact Or.inr (Or.inr h1)
  obtain ⟨p, _, hcell⟩ := h.gapped.cell hp hb
  obtain ⟨_, _, hold⟩ := h.gapped.entries_at hp hb
  -- between `j` and `pos` there is no other entry
  have hjpos : v.seg j pos = [] := by
    refine View.seg_gaps (fun i h1 h2 => ?_)
    have := hgap i h1 h2
    rwa [hbit i (by omega)] at this
  have hseg : v.seg j (pos + 1) = [(k pos, p)] := by
    rw [View.seg_append hj (Nat.le_succ pos), hjpos, View.seg_single, hcell]
    rfl
  obtain ⟨k', hh, hents⟩ := h.cleared (show j ≤ pos + 1 by omega) hp hend'
    { n with toSlots := s₃, numKeys := n.numKeys - 1 } h₃ (by rw [hseg]; rfl)
  obtain ⟨n', v', k'', hc, hh', hents', hroom, hplace, hlock⟩ := hh.contract
  have hbefore : v.seg 0 pos = v.seg 0 j := by
    rw [View.seg_append (Nat.zero_le j) hj, hjpos, List.append_nil]
  have hsplit : v.entries = v.seg 0 pos ++ (k pos, p) :: v.seg (pos + 1) v.cap := by
    unfold View.entries
    rw [hbefore, View.seg_append (Nat.zero_le j) (by omega : j ≤ v.cap),
      View.seg_append (by omega : j ≤ pos + 1) hp, hseg]
    rfl
  have hpos : 0 < n.numKeys := by
    rw [h.count, hsplit]
    simp
  refine ⟨n', v', k'', (k pos, p), ?_, hh', hcell, hsplit, ?_, ?_,
    hplace.trans ⟨rfl, rfl, rfl, rfl, rfl, rfl, rfl, rfl, rfl⟩, hlock⟩
  · unfold DataNode.eraseOneAt
    simp only [h.nextKeyAt hp, e₁, e₂, e₃, Option.bind_eq_bind, Option.bind_some, hc]
  · rw [hents', hents, hbefore]
  · rcases hroom with hroom | ⟨hslots, hnum, hthr, _⟩
    · exact Or.inl hroom
    · refine Or.inr ⟨?_, ?_, hthr⟩
      · rw [hslots, h₃.cap, h.reps.cap]
        rfl
      · rw [hnum]
        show n.numKeys - 1 + 1 = n.numKeys
        omega

/-- Whether a key lies before the end of an erased range. -/
def beforeEnd (endKey : ℤ) (inclusive : Bool) (x : ℤ) : Prop :=
  if inclusive then x ≤ endKey else x < endKey

instance (endKey : ℤ) (inclusive : Bool) : DecidablePred (beforeEnd endKey inclusive) :=
  fun x => inferInstanceAs (Decidable (if inclusive then x ≤ endKey else x < endKey))

theorem Holds.rangeEnd (h : Holds T n v k) (endKey : ℤ) (inclusive : Bool) :
    ∃ hi a b, n.rangeEnd endKey inclusive = some (hi, n.withCounters a b) ∧
      v.CutAt k (beforeEnd endKey inclusive) hi := by
  cases inclusive with
  | true =>
      obtain ⟨c, hc⟩ := h.exists_upper endKey
      obtain ⟨a, b, hu⟩ := h.upperBound hc
      exact ⟨c, a, b, hu, cutAt_intCast.mp hc⟩
  | false =>
      obtain ⟨c, hc⟩ := h.exists_lower endKey
      obtain ⟨a, b, hu⟩ := h.lowerBound hc
      refine ⟨c, a, b, hu, hc.le, fun i hi => ?_, fun i h1 h2 => ?_⟩
      · exact Int.cast_lt.mp (hc.lt i hi)
      · exact fun hlt => hc.ge i h1 h2 (Int.cast_lt.mpr hlt)

/-- `erase_range` removes exactly the entries of the key range. -/
theorem Holds.eraseRange (h : Holds T n v k) (startKey endKey : ℤ) (inclusive : Bool) :
    ∃ d n' v' k', n.eraseRange T startKey endKey inclusive = some (d, n') ∧ Holds T n' v' k' ∧
      d = (v.entries.filter (fun x =>
        decide (¬ x.1 < startKey ∧ beforeEnd endKey inclusive x.1))).length ∧
      v'.entries = v.entries.filter (fun x =>
        decide (x.1 < startKey ∨ ¬ beforeEnd endKey inclusive x.1)) ∧
      (Room n' ∨ (n'.dataCapacity = n.dataCapacity ∧ n'.numKeys = n.numKeys - d ∧
        n'.expansionThreshold = n.expansionThreshold ∧
        n'.contractionThreshold = n.contractionThreshold)) ∧
      SamePlace n' n ∧ n'.lock = n.lock := by
  obtain ⟨hi, a, b, hu, hhi⟩ := h.rangeEnd endKey inclusive
  have hlocal : Holds T (n.withCounters a b) v k := h.congr rfl rfl
  unfold DataNode.eraseRange
  simp only [hu, Option.bind_eq_bind, Option.bind_some]
  by_cases h0 : hi = 0
  · have hnone : ∀ x ∈ v.entries, ¬ beforeEnd endKey inclusive x.1 := by
      intro x hx
      refine (h.gapped.entries_cut hhi).2.2 x ?_
      rw [h0]
      exact hx
    rw [if_pos h0]
    refine ⟨0, _, v, k, rfl, hlocal, ?_, ?_, Or.inr ⟨rfl, rfl, rfl, rfl⟩,
      ⟨rfl, rfl, rfl, rfl, rfl, rfl, rfl, rfl, rfl⟩, rfl⟩
    · rw [List.filter_eq_nil_iff.mpr (fun x hx => by simp [hnone x hx])]
      rfl
    · rw [List.filter_eq_self.mpr (fun x hx => by simp [hnone x hx])]
  · obtain ⟨lo, hlo⟩ := h.gapped.toGappedTo.exists_cut (· < startKey)
      (fun _ _ hxy hy => lt_of_le_of_lt hxy hy)
    obtain ⟨s, d, v', k', hs, hcap, hd, hents, hholds, _⟩ :=
      hlocal.eraseBetween hlo hhi (fun k => decide (startKey ≤ k))
        (fun x _ => by rw [decide_eq_decide, not_lt])
    have hh := hholds { n.withCounters a b with toSlots := s, numKeys := n.numKeys - d } rfl rfl
    obtain ⟨n', v'', k'', hc, hh', hents', hroom, hplace, hlock⟩ := hh.contract
    rw [if_neg h0]
    simp only [hlocal.nextKeyAt hhi.le, hs, Option.bind_some]
    refine ⟨d, n', v'', k'', ?_, hh', hd, by rw [hents', hents], ?_,
      hplace.trans ⟨rfl, rfl, rfl, rfl, rfl, rfl, rfl, rfl, rfl⟩, hlock⟩
    · have hc' : DataNode.contract T { n.withCounters a b with
          toSlots := s, numKeys := (n.withCounters a b).numKeys - d } = some n' := hc
      rw [hc', Option.bind_some]
    · rcases hroom with hroom | ⟨hslots, hnum, hthr, hcon⟩
      · exact Or.inl hroom
      · refine Or.inr ⟨?_, hnum, hthr, hcon⟩
        have hcap' : s.dataCapacity = v'.cap := hh.reps.cap
        rw [hslots, h.reps.cap]
        show s.dataCapacity = v.cap
        rw [hcap', hcap]

end DataNode

end LearnedIndex.Alexol
