import LearnedIndex.Alexol.LeafParts
import LearnedIndex.Alexol.WellFormed

/-! # Building a data node implicitly (`build_node_implicit`)

The expected cost of a data node comes from a simulation of its model-based inserts, which passes
the actual and the predicted position of every key to an accumulator.  The simulation moves
predictions into the range of the array first, and the real loop does not; the actual positions are
the same (`implicitLoop_cons`). -/

namespace LearnedIndex.Alexol

open LearnedIndex.Words

variable {M P : Type}

/-! ### The simulation -/

/-- `max(0, min(data_capacity - 1, model->predict(key)))`. -/
def predictedPosition (dataCapacity : ℕ) (predict : ℤ → ℤ) (key : ℤ) : ℤ :=
  max 0 (min ((dataCapacity : ℤ) - 1) (predict key))

/-- The rest of the keys, side by side from `actualPosition` on. -/
def accumulateRest (dataCapacity : ℕ) (predict : ℤ → ℤ) : List ℤ → ℤ → List (ℤ × ℤ)
  | [], _ => []
  | key :: keys, actualPosition =>
      (actualPosition, predictedPosition dataCapacity predict key) ::
        accumulateRest dataCapacity predict keys (actualPosition + 1)

/-- The loop of `build_node_implicit`: the arguments of the calls of `accumulate`. -/
def implicitLoop (dataCapacity : ℕ) (predict : ℤ → ℤ) : List ℤ → ℤ → ℤ → List (ℤ × ℤ)
  | [], _, _ => []
  | key :: keys, lastPosition, keysRemaining =>
      let predicted := predictedPosition dataCapacity predict key
      let actual := max predicted (lastPosition + 1)
      if (dataCapacity : ℤ) - actual < keysRemaining then
        accumulateRest dataCapacity predict (key :: keys) ((dataCapacity : ℤ) - keysRemaining)
      else
        (actual, predicted) ::
          implicitLoop dataCapacity predict keys actual (keysRemaining - 1)

/-- `build_node_implicit`. -/
def buildNodeImplicit (values : List (ℤ × P)) (dataCapacity : ℕ) (predict : ℤ → ℤ) :
    List (ℤ × ℤ) :=
  implicitLoop dataCapacity predict (values.map Prod.fst) (-1) values.length

/-- A single key is simulated at its predicted position: there is no error to search for, and
nothing to shift. -/
theorem buildNodeImplicit_single (v : ℤ × P) {dataCapacity : ℕ} (h : 1 ≤ dataCapacity)
    (predict : ℤ → ℤ) : buildNodeImplicit [v] dataCapacity predict =
      [(predictedPosition dataCapacity predict v.1,
      predictedPosition dataCapacity predict v.1)] := by
  have h0 : 0 ≤ predictedPosition dataCapacity predict v.1 := le_max_left _ _
  have h1 : predictedPosition dataCapacity predict v.1 ≤ (dataCapacity : ℤ) - 1 := by
    unfold predictedPosition
    exact max_le (by omega) (min_le_left _ _)
  have hmax : max (predictedPosition dataCapacity predict v.1) (-1 + 1) =
      predictedPosition dataCapacity predict v.1 := max_eq_left (by omega)
  unfold buildNodeImplicit implicitLoop
  simp only [List.map_cons, List.map_nil, List.length_singleton]
  rw [hmax, if_neg (by push_cast; omega)]
  rfl

namespace DataNode

/-- The next `n` keys of an iterator, side by side from `actualPosition` on. -/
def accumulateFilled (node : DataNode M P) (dataCapacity : ℕ) (predict : ℤ → ℤ) :
    ℕ → List ℕ → ℤ → Option (List (ℤ × ℤ))
  | 0, _, _ => some []
  | _ + 1, [], _ => none
  | n + 1, i :: rest, actualPosition => do
      let key ← node.keyAt i
      let calls ← accumulateFilled node dataCapacity predict n rest (actualPosition + 1)
      some ((actualPosition, predictedPosition dataCapacity predict key) :: calls)

/-- The loop of `build_node_implicit_from_existing` over the positions of an iterator. -/
def implicitLoopFromExisting (node : DataNode M P) (right dataCapacity : ℕ) (predict : ℤ → ℤ) :
    List ℕ → ℤ → ℤ → Option (List (ℤ × ℤ))
  | [], _, _ => some []
  | i :: rest, lastPosition, keysRemaining =>
      if i < right then do
        let key ← node.keyAt i
        let predicted := predictedPosition dataCapacity predict key
        let actual := max predicted (lastPosition + 1)
        if (dataCapacity : ℤ) - actual < keysRemaining then
          let actual := (dataCapacity : ℤ) - keysRemaining
          accumulateFilled node dataCapacity predict ((dataCapacity : ℤ) - actual).toNat (i :: rest)
            actual
        else
          let calls ← implicitLoopFromExisting node right dataCapacity predict rest actual
            (keysRemaining - 1)
          some ((actual, predicted) :: calls)
      else some []

/-- `build_node_implicit_from_existing`. -/
def buildNodeImplicitFromExisting (past : Option Word) (node : DataNode M P)
    (left right numActualKeys dataCapacity : ℕ) (predict : ℤ → ℤ) : Option (List (ℤ × ℤ)) := do
  let positions ← node.positionsFrom past left
  implicitLoopFromExisting node right dataCapacity predict positions (-1) numActualKeys

end DataNode

/-! ### Positions of the simulation -/

section
variable {dataCapacity : ℕ} {predict : ℤ → ℤ}

theorem accumulateRest_positions (keys : List ℤ) (pos : ℕ) :
    (accumulateRest dataCapacity predict keys pos).map Prod.fst =
      (List.range' pos keys.length).map (fun i : ℕ => (i : ℤ)) := by
  induction keys generalizing pos with
  | nil => rfl
  | cons key keys ih =>
      have hnext : ((pos : ℤ) + 1) = ((pos + 1 : ℕ) : ℤ) := by push_cast; rfl
      unfold accumulateRest
      rw [List.map_cons, hnext, ih (pos + 1)]
      rfl

/-- The next position, with the prediction as it is. -/
theorem implicitLoop_cons (key : ℤ) (keys : List ℤ) {next : ℕ}
    (hroom : next + (keys.length + 1) ≤ dataCapacity) :
    (implicitLoop dataCapacity predict (key :: keys) ((next : ℤ) - 1)
      ((keys.length + 1 : ℕ) : ℤ)).map Prod.fst =
      if (dataCapacity : ℤ) - (max (predict key).toNat next : ℕ) < ((keys.length + 1 : ℕ) : ℤ) then
        (List.range' (dataCapacity - (keys.length + 1)) (keys.length + 1)).map
        (fun i : ℕ => (i : ℤ))
      else ((max (predict key).toNat next : ℕ) : ℤ) ::
        (implicitLoop dataCapacity predict keys (((max (predict key).toNat next + 1 : ℕ) : ℤ) - 1)
          (keys.length : ℤ)).map Prod.fst := by
  have hpos : (dataCapacity : ℤ) - ((keys.length + 1 : ℕ) : ℤ) =
      ((dataCapacity - (keys.length + 1) : ℕ) : ℤ) := by omega
  have hsub : (((keys.length + 1 : ℕ) : ℤ)) - 1 = (keys.length : ℤ) := by omega
  rw [implicitLoop]
  simp only [hpos, hsub]
  generalize hposition : max (predict key).toNat next = position
  by_cases htail : (dataCapacity : ℤ) - (position : ℕ) < ((keys.length + 1 : ℕ) : ℤ)
  · rw [if_pos htail]
    by_cases hsim : (dataCapacity : ℤ) - max (predictedPosition dataCapacity predict key)
        ((next : ℤ) - 1 + 1) < ((keys.length + 1 : ℕ) : ℤ)
    · rw [if_pos hsim, accumulateRest_positions]
      rfl
    · -- a prediction behind the end, and one key left: it goes to the last slot in both loops
      rw [if_neg hsim]
      have hlast : keys.length = 0 ∧ max (predictedPosition dataCapacity predict key)
          ((next : ℤ) - 1 + 1) = (dataCapacity : ℤ) - 1 := by
        unfold predictedPosition at hsim ⊢
        omega
      rw [hlast.2, List.length_eq_zero_iff.mp hlast.1]
      have hcap : (dataCapacity : ℤ) - 1 = ((dataCapacity - (0 + 1) : ℕ) : ℤ) := by omega
      rw [hcap]
      rfl
  · rw [if_neg htail]
    have hactual : max (predictedPosition dataCapacity predict key) ((next : ℤ) - 1 + 1) =
        ((position : ℕ) : ℤ) := by
      unfold predictedPosition
      omega
    have hnext : (((position + 1 : ℕ) : ℤ)) - 1 = (position : ℤ) := by omega
    rw [hactual, if_neg htail, List.map_cons, hnext]

/-- The positions increase and lie in the free part of the array. -/
theorem implicitLoop_positions (keys : List ℤ) {next : ℕ}
    (hroom : next + keys.length ≤ dataCapacity) :
    ∃ ps : List ℕ,
    (implicitLoop dataCapacity predict keys ((next : ℤ) - 1) keys.length).map Prod.fst =
        ps.map (fun i : ℕ => (i : ℤ)) ∧ ps.Pairwise (· < ·) ∧ ∀ p ∈ ps, next ≤ p ∧
        p < dataCapacity := by
  induction keys generalizing next with
  | nil => exact ⟨[], rfl, List.Pairwise.nil, fun p hp => by cases hp⟩
  | cons key keys ih =>
      rw [List.length_cons] at hroom ⊢
      rw [implicitLoop_cons key keys hroom]
      generalize hposition : max (predict key).toNat next = position
      have hle : next ≤ position := by omega
      split
      · refine ⟨_, rfl, List.pairwise_lt_range', fun p hp => ?_⟩
        rw [List.mem_range'_1] at hp
        omega
      · rename_i hfree
        obtain ⟨ps, hps, hsorted, hbounds⟩ :=
          ih (show position + 1 + keys.length ≤ dataCapacity by omega)
        refine ⟨position :: ps, ?_, List.pairwise_cons.mpr ⟨fun p hp => (hbounds p hp).1, hsorted⟩,
          fun p hp => ?_⟩
        · rw [hps]
          rfl
        · rcases List.mem_cons.mp hp with rfl | hp
          · omega
          · have := hbounds p hp
            omega

end

/-! ### Positions of the real loop -/

namespace Reps

variable {s s' : Slots P} {v : View P} {read : ℕ → Option (ℤ × P)}

theorem bit_putAt (h : Reps s v) {pos : ℕ} (hp : pos < v.cap) {key : ℤ} {p : P}
    (he : s.putAt pos key p = some s') (i : ℕ) :
    bitAt s'.bitmap i = true ↔ i = pos ∨ bitAt s.bitmap i = true := by
  obtain ⟨s₁, e₁, h₁⟩ := h.putAt hp key p
  obtain rfl : s₁ = s' := Option.some.inj (e₁.symm.trans he)
  rw [h₁.bit, h.bit]
  show Function.update v.bit pos true i = true ↔ _
  rw [Function.update_apply]
  by_cases hi : i = pos
  · simp [hi]
  · simp [hi]

theorem bit_fillKeys (h : Reps s v) {key : ℤ} {lo n : ℕ} (hle : lo + n ≤ v.cap)
    (he : s.fillKeys key lo n = some s') (i : ℕ) : bitAt s'.bitmap i = bitAt s.bitmap i := by
  obtain ⟨s₁, e₁, h₁⟩ := Reps.fillKeys key n lo h hle
  obtain rfl : s₁ = s' := Option.some.inj (e₁.symm.trans he)
  rw [h₁.bit, h.bit, View.fill_bit]

/-- The contiguous fill uses the positions from `pos` on. -/
theorem bit_fillRest {back : List ℕ} (pairs : List (ℤ × P)) : ∀ {front : List ℕ} {s : Slots P}
    {v : View P} {pos : ℕ}, List.Forall₂ (fun i y => read i = some y) front pairs → Reps s v →
    pos + pairs.length ≤ v.cap → s.fillRest read (front ++ back) pos pairs.length = some s' →
    (∃ v', Reps s' v' ∧ v'.cap = v.cap) ∧ ∀ i, bitAt s'.bitmap i = true ↔
      i ∈ List.range' pos pairs.length ∨ bitAt s.bitmap i = true := by
  induction pairs with
  | nil =>
      intro front s v pos hread h hle he
      obtain rfl : s = s' := by
        cases hread
        cases back <;> exact Option.some.inj he
      exact ⟨⟨v, h, rfl⟩, fun i => by simp⟩
  | cons x pairs ih =>
      intro front s v pos hread h hle he
      obtain ⟨j, front, hj, hrest, rfl⟩ := List.forall₂_cons_right_iff.mp hread
      rw [List.length_cons] at hle
      obtain ⟨s₁, e₁, h₁⟩ := h.putAt (show pos < v.cap by omega) x.1 x.2
      have hbit := h.bit_putAt (show pos < v.cap by omega) e₁
      rw [List.cons_append, List.length_cons] at he
      unfold Slots.fillRest at he
      simp only [hj, Option.bind_eq_bind, Option.bind_some, e₁] at he
      obtain ⟨hreps, hbits⟩ := ih hrest h₁ (by rw [View.put_cap]; omega) he
      refine ⟨hreps, fun i => ?_⟩
      rw [hbits i, hbit i, List.length_cons, List.range'_succ, List.mem_cons]
      tauto

/-- The model-based inserts use the positions of the simulation. -/
theorem bit_placeKeys {right : ℕ} {back : List ℕ} (predict : ℤ → ℤ)
    (hback : ∀ i ∈ back.head?, right ≤ i) (pairs : List (ℤ × P)) : ∀ {front : List ℕ} {s : Slots P}
    {v : View P} {next n' : ℕ},
    List.Forall₂ (fun i y => i < right ∧ read i = some y) front pairs → Reps s v →
    next + pairs.length ≤ v.cap →
    Slots.placeKeys predict read right (front ++ back) s next pairs.length = some (s', n') →
    n' ≤ v.cap ∧ (∃ v', Reps s' v' ∧ v'.cap = v.cap) ∧ ∀ i : ℕ, bitAt s'.bitmap i = true ↔
      (i : ℤ) ∈ (implicitLoop v.cap predict (pairs.map Prod.fst) ((next : ℤ) - 1)
        pairs.length).map Prod.fst ∨ bitAt s.bitmap i = true := by
  induction pairs with
  | nil =>
      intro front s v next n' hread h hle he
      obtain rfl := List.forall₂_nil_right_iff.mp hread
      have hret : Slots.placeKeys predict read right ([] ++ back) s next
        (([] : List (ℤ × P)).length) =
          some (s, next) := by
        cases back with
        | nil => rfl
        | cons i back =>
            have hi : ¬ i < right := not_lt.mpr (hback i rfl)
            simp [Slots.placeKeys, hi]
      obtain ⟨rfl, rfl⟩ := Prod.mk.inj (Option.some.inj (hret.symm.trans he))
      exact ⟨by simpa using hle, ⟨v, h, rfl⟩, fun i => by simp [implicitLoop]⟩
  | cons x pairs ih =>
      intro front s v next n' hread h hle he
      obtain ⟨j, front, ⟨hjr, hj⟩, hrest, rfl⟩ := List.forall₂_cons_right_iff.mp hread
      rw [List.length_cons] at hle
      have hkeys : (pairs.map Prod.fst).length = pairs.length := List.length_map ..
      have hloop := @implicitLoop_cons v.cap predict x.1 (pairs.map Prod.fst) next
        (by rw [hkeys]; exact hle)
      rw [hkeys] at hloop
      rw [List.map_cons, List.length_cons, hloop]
      rw [List.cons_append, List.length_cons] at he
      unfold Slots.placeKeys at he
      simp only [hjr, if_true, hj, Option.bind_eq_bind, Option.bind_some, h.cap] at he
      generalize hposition : max (predict x.1).toNat next = position at he ⊢
      have hnp : next ≤ position := by omega
      by_cases htail : (v.cap : ℤ) - (position : ℕ) < ((pairs.length + 1 : ℕ) : ℤ)
      · have hpos : ((v.cap : ℤ) - ((pairs.length + 1 : ℕ) : ℤ)).toNat =
            v.cap - (pairs.length + 1) := by omega
        obtain ⟨s₁, e₁, h₁⟩ := Reps.fillKeys x.1 (v.cap - (pairs.length + 1) - next) next h
          (by omega)
        have hbit₁ := h.bit_fillKeys (by omega) e₁
        rw [if_pos htail] at he ⊢
        rw [hpos, e₁] at he
        simp only [Option.bind_some, h₁.cap, View.fill_cap] at he
        rw [show v.cap - (v.cap - (pairs.length + 1)) = (x :: pairs).length by
          rw [List.length_cons]; omega, ← List.cons_append] at he
        obtain ⟨s₂, e₂, hret⟩ := Option.bind_eq_some_iff.mp he
        have hread' : List.Forall₂ (fun i y => read i = some y) (j :: front) (x :: pairs) :=
          hread.imp (fun _ _ h => h.2)
        obtain ⟨⟨v', hr', hc'⟩, hbits⟩ := bit_fillRest (x :: pairs) hread' h₁ (by
          rw [View.fill_cap, List.length_cons]
          omega) e₂
        obtain ⟨rfl, rfl⟩ := Prod.mk.inj (Option.some.inj hret)
        rw [View.fill_cap] at hc'
        refine ⟨by rw [hr'.cap, hc'], ⟨v', hr', hc'⟩, fun i => ?_⟩
        rw [hbits i, hbit₁ i, List.length_cons, List.mem_map_of_injective Nat.cast_injective]
      · obtain ⟨s₁, e₁, h₁⟩ := Reps.fillKeys x.1 (position - next) next h (by omega)
        have hp₁ : position < (v.fill x.1 next (position - next)).cap := by
          rw [View.fill_cap]
          omega
        obtain ⟨s₂, e₂, h₂⟩ := h₁.putAt hp₁ x.1 x.2
        have hlen : (((pairs.length + 1 : ℕ) : ℤ)) - 1 = (pairs.length : ℕ) := by omega
        rw [if_neg htail] at he ⊢
        rw [e₁] at he
        simp only [Option.bind_some, e₂, hlen] at he
        obtain ⟨hn, hreps, hbits⟩ := ih hrest h₂ (by rw [View.put_cap, View.fill_cap]; omega) he
        refine ⟨hn, hreps, fun i => ?_⟩
        rw [hbits i, h₁.bit_putAt hp₁ e₂ i, h.bit_fillKeys (by omega) e₁ i, List.mem_cons,
          View.put_cap, View.fill_cap, Nat.cast_inj]
        tauto

end Reps

/-! ### Where keys are stored -/

/-- An iterator over the arrays visits the positions `ps`, which hold the pairs. -/
def StoredAt (s : Slots P) (ps : List ℕ) (pairs : List (ℤ × P)) : Prop :=
  s.positionsFrom none 0 = some ps ∧
    List.Forall₂ (fun i y => s.keyAt i = some y.1 ∧ s.payloadAt i = some y.2) ps pairs

theorem forall₂_cells {v : View P} (l : List ℕ) (hl : ∀ i ∈ l, v.bit i = true →
    ∃ y, v.cell i = some y) :
    List.Forall₂ (fun i y => v.cell i = some y) (l.filter v.bit) (l.filterMap v.cell) := by
  induction l with
  | nil => exact List.Forall₂.nil
  | cons i l ih =>
      have ih' := ih (fun j hj => hl j (List.mem_cons_of_mem i hj))
      cases hb : v.bit i with
      | false =>
          rw [List.filter_cons_of_neg (by simp [hb]), List.filterMap_cons, View.cell_gap hb]
          exact ih'
      | true =>
          obtain ⟨y, hy⟩ := hl i (List.mem_cons_self ..) hb
          rw [List.filter_cons_of_pos hb, List.filterMap_cons, hy]
          exact List.Forall₂.cons hy ih'

namespace Reps

variable {T : KeyType} {s : Slots P} {v : View P} {k : ℕ → ℤ}

/-- A gapped array stores its entries at its filled positions. -/
theorem storedAt (h : Reps s v) (hg : v.Gapped T k) : StoredAt s (v.filledFrom 0) v.entries := by
  refine ⟨h.positionsFrom_eq none h.pos, ?_⟩
  have hcells := forall₂_cells (v := v) (List.range' 0 (v.cap - 0)) (fun i hi hb => by
    rw [List.mem_range'_1] at hi
    obtain ⟨p, -, hcell⟩ := hg.cell (show i < v.cap by omega) hb
    exact ⟨_, hcell⟩)
  refine hcells.imp (fun i y hy => ?_)
  obtain ⟨-, hk, hp⟩ := View.cell_eq_some.mp hy
  rw [h.key, h.pay]
  exact ⟨hk, hp⟩

/-- The model-based inserts store the keys where the simulation places them. -/
theorem layout_storedAt {read : ℕ → Option (ℤ × P)} {right cap : ℕ} {front back : List ℕ}
    {pairs : List (ℤ × P)} (predict : ℤ → ℤ) (hback : ∀ i ∈ back.head?, right ≤ i)
    (hread : List.Forall₂ (fun i y => i < right ∧ read i = some y) front pairs) (hcap : 0 < cap)
    (hlen : pairs.length ≤ cap) (hs : pairs.Pairwise (fun a b => a.1 ≤ b.1))
    (hB : ∀ y ∈ pairs, y.1 ≤ T.max) :
    ∃ s ps, Slots.layout T.max cap pairs.length predict read (front ++ back) right = some s ∧
      s.dataCapacity = cap ∧ StoredAt s ps pairs ∧
      (implicitLoop cap predict (pairs.map Prod.fst) (-1) pairs.length).map Prod.fst =
        ps.map (fun i : ℕ => (i : ℤ)) := by
  obtain ⟨s, v, k, hlay, hr, hc, hg, hents⟩ :=
    Reps.layout (T := T) predict hback hread hcap hlen hs hB
  have hstored := hr.storedAt hg
  rw [hents] at hstored
  refine ⟨s, v.filledFrom 0, hlay, by rw [hr.cap, hc], hstored, ?_⟩
  have hkeys : (pairs.map Prod.fst).length = pairs.length := List.length_map ..
  obtain ⟨ps, hps, hsorted, hbounds⟩ := @implicitLoop_positions cap predict
    (pairs.map Prod.fst) 0 (by rw [hkeys]; omega)
  rw [hkeys] at hps
  have hps' : (implicitLoop cap predict (pairs.map Prod.fst) (-1) pairs.length).map Prod.fst =
      ps.map (fun i : ℕ => (i : ℤ)) := hps
  -- the bits that are set are the positions of the simulation
  have hbits : ∀ i, v.bit i = true ↔ i ∈ ps := by
    unfold Slots.layout at hlay
    simp only [Option.bind_eq_bind] at hlay
    obtain ⟨⟨s₁, n⟩, hplace, hfill⟩ := Option.bind_eq_some_iff.mp hlay
    obtain ⟨hn, ⟨v₁, hr₁, hc₁⟩, hbits⟩ := bit_placeKeys predict hback pairs hread
      (Reps.fresh (P := P) hcap) (show 0 + pairs.length ≤ cap by simpa using hlen) hplace
    have hn : n ≤ cap := hn
    have hc₁ : v₁.cap = cap := hc₁
    intro i
    rw [← hr.bit, hr₁.bit_fillKeys (by rw [hc₁]; omega) hfill i, hbits i]
    have hfresh : ¬ bitAt (Slots.fresh cap : Slots P).bitmap i = true := by
      rw [(Reps.fresh (P := P) hcap).bit]
      simp
    have hmem : (i : ℤ) ∈ (implicitLoop cap predict (pairs.map Prod.fst) (-1) pairs.length).map
        Prod.fst ↔ i ∈ ps := by
      rw [hps', List.mem_map_of_injective Nat.cast_injective]
    exact ⟨fun h => h.elim hmem.mp (fun h => absurd h hfresh), fun h => Or.inl (hmem.mpr h)⟩
  have heq : v.filledFrom 0 = ps := by
    have hfilled : (v.filledFrom 0).Pairwise (· < ·) :=
      List.Pairwise.filter _ List.pairwise_lt_range'
    refine hfilled.eq_of_mem_iff hsorted (fun i => ?_)
    rw [View.mem_filledFrom, ← hbits i]
    exact ⟨fun h => h.2.2, fun h => ⟨Nat.zero_le i,
      by rw [show v.cap = cap from hc]; exact (hbounds i ((hbits i).mp h)).2, h⟩⟩
  rw [hps', heq]

end Reps

namespace DataNode

variable {T : KeyType} {src : DataNode M P}

theorem accumulateFilled_eq {dataCapacity : ℕ} {predict : ℤ → ℤ} {back : List ℕ} (keys : List ℤ) :
    ∀ {front : List ℕ} (actualPosition : ℤ),
      List.Forall₂ (fun i key => src.keyAt i = some key) front keys →
      src.accumulateFilled dataCapacity predict keys.length (front ++ back) actualPosition =
        some (accumulateRest dataCapacity predict keys actualPosition) := by
  induction keys with
  | nil =>
      intro front actualPosition _
      rfl
  | cons key keys ih =>
      intro front actualPosition hread
      obtain ⟨i, front, hi, hrest, rfl⟩ := List.forall₂_cons_right_iff.mp hread
      rw [List.cons_append, List.length_cons]
      unfold accumulateFilled accumulateRest
      simp only [hi, ih _ hrest, Option.bind_eq_bind, Option.bind_some]

/-- The loop over an iterator places the keys that it reads like the loop over an array. -/
theorem implicitLoopFromExisting_eq {right dataCapacity : ℕ} {predict : ℤ → ℤ} {back : List ℕ}
    (hback : ∀ i ∈ back.head?, right ≤ i) (keys : List ℤ) :
    ∀ {front : List ℕ} (lastPosition : ℤ),
      List.Forall₂ (fun i key => i < right ∧ src.keyAt i = some key) front keys →
      src.implicitLoopFromExisting right dataCapacity predict (front ++ back) lastPosition
          keys.length = some (implicitLoop dataCapacity predict keys lastPosition keys.length) := by
  induction keys with
  | nil =>
      intro front lastPosition hread
      obtain rfl := List.forall₂_nil_right_iff.mp hread
      cases back with
      | nil => rfl
      | cons i back =>
          have hi : ¬ i < right := not_lt.mpr (hback i rfl)
          simp [implicitLoopFromExisting, implicitLoop, hi]
  | cons key keys ih =>
      intro front lastPosition hread
      obtain ⟨i, front, ⟨hir, hi⟩, hrest, rfl⟩ := List.forall₂_cons_right_iff.mp hread
      have hsub : (((key :: keys).length : ℕ) : ℤ) - 1 = (keys.length : ℕ) := by
        rw [List.length_cons]
        omega
      have hcount : ((dataCapacity : ℤ) - ((dataCapacity : ℤ) - ((key :: keys).length : ℕ))).toNat =
          (key :: keys).length := by omega
      have hread' : List.Forall₂ (fun i key => src.keyAt i = some key) (i :: front) (key :: keys) :=
        hread.imp (fun _ _ h => h.2)
      rw [List.cons_append]
      unfold implicitLoopFromExisting implicitLoop
      simp only [hir, if_true, hi, Option.bind_eq_bind, Option.bind_some, hsub, hcount, ih _ hrest]
      split
      · exact accumulateFilled_eq (key :: keys) _ hread'
      · rfl

variable [NodeModel M]

/-- The node that `bulk_load` makes of an array. -/
theorem bulkLoad_storedAt {values : List (ℤ × P)}
    (hs : values.Pairwise (fun a b => a.1 ≤ b.1)) (hB : ∀ y ∈ values, y.1 ≤ T.max)
    (n : DataNode M P) (pretrained : Option M) (sample : Bool) :
    ∃ n' ps, n.bulkLoad T values pretrained sample = some n' ∧ StoredAt n'.toSlots ps values ∧
      (buildNodeImplicit values n'.dataCapacity (NodeModel.predict n'.model)).map Prod.fst =
        ps.map (fun i : ℕ => (i : ℤ)) := by
  cases values with
  | nil =>
      obtain ⟨n', v, k, he, hh, hents, -⟩ := n.bulkLoad_spec (T := T) hs hB pretrained sample
      have hstored := hh.reps.storedAt hh.gapped
      rw [hents] at hstored
      obtain hnil : v.filledFrom 0 = [] := List.forall₂_nil_right_iff.mp hstored.2
      exact ⟨n', v.filledFrom 0, he, hstored, by rw [hnil]; rfl⟩
  | cons x rest =>
      obtain ⟨last, hlast⟩ : ∃ last, (x :: rest).getLast? = some last :=
        ⟨_, List.getLast?_eq_getLast_of_ne_nil (by simp)⟩
      have hcap := lt_capacityFor (x :: rest).length kInitDensity
      unfold DataNode.bulkLoad
      simp only [List.head?_cons, hlast]
      generalize (NodeModel.expand _ _ : M) = model
      obtain ⟨s, ps, hlay, hc, hstored, hpos⟩ := Reps.layout_storedAt (T := T)
        (NodeModel.predict model) (show ∀ i ∈ ([] : List ℕ).head?, (x :: rest).length ≤ i by simp)
        (forall₂_range (x :: rest)) (by omega) hcap.le hs hB
      rw [List.append_nil] at hlay
      rw [hlay, Option.bind_eq_bind, Option.bind_some]
      refine ⟨_, ps, rfl, hstored, ?_⟩
      have hc : s.dataCapacity = capacityFor (x :: rest).length kInitDensity := hc
      show (implicitLoop s.dataCapacity _ _ _ _).map Prod.fst = _
      rw [hc]
      exact hpos

omit [NodeModel M] in
/-- Both loops over the positions of a range of a node. -/
theorem Holds.existing_storedAt {v : View P} {k : ℕ → ℤ} (h : Holds T src v k)
    (past : Word) {left right : ℕ} (hlr : left ≤ right) (hr : right ≤ v.cap) {cap : ℕ}
    (hcap : (v.seg left right).length < cap) (predict : ℤ → ℤ) :
    ∃ positions s ps calls, src.positionsFrom (some past) left = some positions ∧
      Slots.layout T.max cap (v.seg left right).length predict src.pairAt positions right = some s ∧
      s.dataCapacity = cap ∧ StoredAt s ps (v.seg left right) ∧
      src.buildNodeImplicitFromExisting (some past) left right
      (v.seg left right).length cap predict =
        some calls ∧ calls.map Prod.fst = ps.map (fun i : ℕ => (i : ℤ)) := by
  obtain ⟨front, back, hpos, hback, hread⟩ := h.positions (some past) hlr hr (Or.inr (by simp))
  obtain ⟨s, ps, hlay, hc, hstored, hpl⟩ := Reps.layout_storedAt (T := T) predict hback hread
    (by omega) hcap.le (h.seg_sorted hr) (fun y hy => h.seg_le hr hy)
  refine ⟨front ++ back, s, ps, _, hpos, hlay, hc, hstored, ?_, hpl⟩
  have hkeys : List.Forall₂ (fun i key => i < right ∧ src.keyAt i = some key) front
      ((v.seg left right).map Prod.fst) := by
    rw [List.forall₂_map_right_iff]
    refine hread.imp (fun i y hy => ⟨hy.1, ?_⟩)
    have hpair := hy.2
    unfold DataNode.pairAt at hpair
    simp only [Option.bind_eq_bind] at hpair
    obtain ⟨key, hk, hpair⟩ := Option.bind_eq_some_iff.mp hpair
    obtain ⟨p, -, hpair⟩ := Option.bind_eq_some_iff.mp hpair
    rw [hk, ← Option.some.inj hpair]
  have hloop := @implicitLoopFromExisting_eq _ _ src right cap predict back hback _ _ (-1) hkeys
  rw [List.length_map] at hloop
  unfold buildNodeImplicitFromExisting
  rw [hpos, Option.bind_eq_bind, Option.bind_some, hloop]

/-- The node that `bulk_load_from_existing` makes of a range of a node. -/
theorem Holds.bulkLoadFromExisting_storedAt {v : View P} {k : ℕ → ℤ} (h : Holds T src v k)
    (past : Word) {left right : ℕ} (hlr : left ≤ right) (hr : right ≤ v.cap) (n : DataNode M P)
    (keepLeft keepRight : Bool) {precomputed : Option (M × ℕ)}
    (hpre : ∀ m ∈ precomputed, m.2 = (v.seg left right).length) :
    ∃ n' ps calls, n.bulkLoadFromExisting T (some past) src left right keepLeft keepRight
    precomputed =
        some n' ∧ StoredAt n'.toSlots ps (v.seg left right) ∧
      src.buildNodeImplicitFromExisting (some past) left right n'.numKeys n'.dataCapacity
        (NodeModel.predict n'.model) = some calls ∧
        calls.map Prod.fst = ps.map (fun i : ℕ => (i : ℤ)) := by
  obtain ⟨front, back, hpos, hback, hread⟩ := h.positions (some past) hlr hr (Or.inr (by simp))
  obtain ⟨model, hmodel⟩ : ∃ model, src.modelFor right (front ++ back) precomputed =
      some (model, (v.seg left right).length) := by
    cases precomputed with
    | none =>
        refine ⟨NodeModel.train false ((v.seg left right).map Prod.fst), ?_⟩
        show (src.keysBelow right (front ++ back)).map _ = _
        rw [keysBelow_eq hback hread, Option.map_some, List.length_map]
    | some m =>
        refine ⟨m.1, ?_⟩
        show some m = _
        rw [← hpre m rfl]
  have hcap := lt_capacityFor (v.seg left right).length kMinDensity
  by_cases h0 : (v.seg left right).length = 0
  · obtain ⟨n', v', k', he, hh, hents, -⟩ := h.bulkLoadFromExisting n (some past) hlr hr
      (Or.inr (by simp)) keepLeft keepRight hpre
    have hstored := hh.reps.storedAt hh.gapped
    rw [hents] at hstored
    have hnil : v'.filledFrom 0 = [] := by
      have hempty := hstored.2
      rw [List.length_eq_zero_iff.mp h0] at hempty
      exact List.forall₂_nil_right_iff.mp hempty
    refine ⟨n', v'.filledFrom 0, [], he, hstored, ?_, by rw [hnil]; rfl⟩
    obtain rfl : front = [] := by
      rw [List.length_eq_zero_iff.mp h0] at hread
      exact List.forall₂_nil_right_iff.mp hread
    have hloop := @implicitLoopFromExisting_eq _ _ src right n'.dataCapacity
      (NodeModel.predict n'.model) back hback [] [] (-1) List.Forall₂.nil
    have hnum : n'.numKeys = 0 := by
      rw [hh.count, hents, h0]
    unfold buildNodeImplicitFromExisting
    rw [hpos, hnum, Option.bind_eq_bind, Option.bind_some]
    exact hloop
  · unfold DataNode.bulkLoadFromExisting
    simp only [hpos, hmodel, Option.bind_eq_bind, Option.bind_some]
    rw [if_neg h0]
    generalize expandModelKeeping model _ _ _ _ = model'
    obtain ⟨positions, s, ps, calls, hpos', hlay, hc, hstored, hcalls, hps⟩ :=
      h.existing_storedAt past hlr hr hcap (NodeModel.predict model')
    obtain rfl : front ++ back = positions := Option.some.inj (hpos.symm.trans hpos')
    simp only [hlay, Option.bind_some]
    refine ⟨_, ps, calls, rfl, hstored, ?_, hps⟩
    show src.buildNodeImplicitFromExisting (some past) left right (v.seg left right).length
      s.dataCapacity (NodeModel.predict model') = _
    rw [hc]
    exact hcalls

/-- **The cost simulation places keys where the node will**: the actual positions of
`build_node_implicit` are those at which the model-based inserts store the keys, for any capacity
and any predictions, and so are those of `build_node_implicit_from_existing` for a range of a node;
in particular with the capacity and the model of the node that bulk loading makes. -/
theorem implicit_positions_exact {values : List (ℤ × P)}
    (hs : values.Pairwise (fun a b => a.1 ≤ b.1)) (hB : ∀ y ∈ values, y.1 ≤ T.max)
    (hsrc : WellFormed T src) (past : Word) {left right : ℕ} (hlr : left ≤ right)
    (hr : right ≤ src.dataCapacity) (n : DataNode M P) :
    (∀ capacity predict, values.length < capacity →
      ∃ s ps, Slots.layout T.max capacity values.length predict (fun i => values[i]?)
          (List.range values.length) values.length = some s ∧ StoredAt s ps values ∧
        (buildNodeImplicit values capacity predict).map Prod.fst = ps.map (fun i : ℕ => (i : ℤ))) ∧
    (∀ pretrained sample, ∃ n' ps, n.bulkLoad T values pretrained sample = some n' ∧
      StoredAt n'.toSlots ps values ∧
      (buildNodeImplicit values n'.dataCapacity (NodeModel.predict n'.model)).map Prod.fst =
        ps.map (fun i : ℕ => (i : ℤ))) ∧
    (∀ capacity predict, (src.pairsBetween left right).length < capacity →
      ∃ positions s ps calls, src.positionsFrom (some past) left = some positions ∧
        Slots.layout T.max capacity (src.pairsBetween left right).length predict
        src.pairAt positions
          right = some s ∧ StoredAt s ps (src.pairsBetween left right) ∧
        src.buildNodeImplicitFromExisting (some past) left right
          (src.pairsBetween left right).length capacity predict = some calls ∧
        calls.map Prod.fst = ps.map (fun i : ℕ => (i : ℤ))) ∧
    ∀ keepLeft keepRight (precomputed : Option (M × ℕ)),
      (∀ m ∈ precomputed, m.2 = (src.pairsBetween left right).length) →
      ∃ n' ps calls, n.bulkLoadFromExisting T (some past) src left right keepLeft keepRight
          precomputed = some n' ∧ StoredAt n'.toSlots ps (src.pairsBetween left right) ∧
        src.buildNodeImplicitFromExisting (some past) left right n'.numKeys n'.dataCapacity
          (NodeModel.predict n'.model) = some calls ∧
        calls.map Prod.fst = ps.map (fun i : ℕ => (i : ℤ)) := by
  have hholds := hsrc.holds
  have hcap : right ≤ src.view.cap := hr
  have hpairs : src.pairsBetween left right = src.view.seg left right := hholds.pairsBetween_eq hcap
  rw [hpairs]
  refine ⟨fun capacity predict hlt => ?_, bulkLoad_storedAt hs hB n, fun capacity predict hlt => ?_,
    fun keepLeft keepRight precomputed hpre =>
      hholds.bulkLoadFromExisting_storedAt past hlr hcap n keepLeft keepRight hpre⟩
  · obtain ⟨s, ps, hlay, -, hstored, hpos⟩ := Reps.layout_storedAt (T := T) predict
      (show ∀ i ∈ ([] : List ℕ).head?, values.length ≤ i by simp) (forall₂_range values) (by omega)
      hlt.le hs hB
    rw [List.append_nil] at hlay
    exact ⟨s, ps, hlay, hstored, hpos⟩
  · obtain ⟨positions, s, ps, calls, hpos, hlay, -, hstored, hcalls, hps⟩ :=
      hholds.existing_storedAt past hlr hcap hlt predict
    exact ⟨positions, s, ps, calls, hpos, hlay, hstored, hcalls, hps⟩

/-- The first key is predicted behind the end, so all three go to the last slots; the positions of a
part of the node are those of the simulation as well. -/
theorem implicit_positions_threeKeys : ∃ src : DataNode LinearModel ℕ, threeKeys = some src ∧
    (∃ s, Slots.layout KeyType.uint64.max 5 3 (fun key => 9 - 4 * key)
        (fun i => [((1 : ℤ), 10), (2, 20), (3, 30)][i]?) (List.range 3) 3 = some s ∧
      StoredAt s [2, 3, 4] [((1 : ℤ), 10), (2, 20), (3, 30)]) ∧
    ∃ (ps : List ℕ) (calls : List (ℤ × ℤ)), src.buildNodeImplicitFromExisting (some 0#64) 0 2
        (src.pairsBetween 0 2).length 9 (fun key => 9 - 4 * key) = some calls ∧
      calls.map Prod.fst = ps.map (fun i : ℕ => (i : ℤ)) := by
  obtain ⟨src, hsrc, hwf⟩ := threeKeys_wellFormed
  have hread : threeKeys.map (fun n => (n.dataCapacity, (n.pairsBetween 0 2).length)) =
      some (4, 2) := by decide +kernel
  rw [hsrc, Option.map_some] at hread
  obtain ⟨hcap, hlen⟩ := Prod.mk.inj (Option.some.inj hread)
  obtain ⟨harray, -, hexisting, -⟩ := @implicit_positions_exact _ _ KeyType.uint64
    src _ [((1 : ℤ), 10), (2, 20), (3, 30)] (by decide) (by decide) hwf 0#64 0 2
      (by omega) (by omega)
    (DataNode.new KeyType.uint64 0 100)
  obtain ⟨s, ps, hlay, hstored, hps⟩ := harray 5 (fun key => 9 - 4 * key) (by decide)
  obtain ⟨-, -, ps', calls, -, -, -, hcalls, hps'⟩ :=
    hexisting 9 (fun key => 9 - 4 * key) (by omega)
  have hthree : ps = [2, 3, 4] := by
    refine List.map_injective_iff.mpr Nat.cast_injective (hps.symm.trans ?_)
    decide +kernel
  exact ⟨src, hsrc, ⟨s, hlay, hthree ▸ hstored⟩, ps', calls, hcalls, hps'⟩

end DataNode

end LearnedIndex.Alexol
