import LearnedIndex.Alexol.DataNodeRebuild

/-! # The representation invariant along every run

`RepInvariant` states what `validate_structure` checks, directly on the arrays, and `HasRoom` the
relation between `num_keys_`, `expansion_threshold_` and `data_capacity_`.  A node is `Reachable`
when it was loaded by `bulk_load` or `bulk_load_from_existing` and then modified by any sequence of
operations.  Every reachable node satisfies the invariant; `HasRoom` is lost only by an insert that
returns one of the flags 1, 2, 3, 5 and keeps the lock. -/

namespace LearnedIndex.Alexol

open LearnedIndex.Words LearnedIndex.Search

namespace DataNode

variable {M P : Type} {T : KeyType} {n : DataNode M P} {v : View P} {k : ℕ → ℤ}

/-! ### The invariant on the arrays -/

/-- The representation invariant of the arrays. -/
structure RepInvariant (T : KeyType) (n : DataNode M P) : Prop where
  /-- The key slots are non-decreasing. -/
  sorted : ∀ i j, i ≤ j → j < n.dataCapacity →
    ∃ x y, n.keyAt i = some x ∧ n.keyAt j = some y ∧ x ≤ y
  /-- A gap holds the key of the next filled position, or the sentinel if there is none. -/
  gaps : ∀ i, i < n.dataCapacity → bitAt n.bitmap i = false →
    (∃ j, i < j ∧ j < n.dataCapacity ∧ bitAt n.bitmap j = true ∧
      (∀ m, i < m → m < j → bitAt n.bitmap m = false) ∧ n.keyAt i = n.keyAt j) ∨
    ((∀ m, i < m → m < n.dataCapacity → bitAt n.bitmap m = false) ∧ n.keyAt i = some T.max)
  /-- The set bits are counted by `num_keys_`. -/
  count : ones n.bitmap = n.numKeys
  /-- No bit at or beyond the capacity is set. -/
  clear : ∀ i, n.dataCapacity ≤ i → bitAt n.bitmap i = false

/-- `num_keys_ < data_capacity_` and `num_keys_ < expansion_threshold_ <= data_capacity_`. -/
structure HasRoom (n : DataNode M P) : Prop where
  lt_capacity : n.numKeys < n.dataCapacity
  lt_threshold : (n.numKeys : ℚ) < n.expansionThreshold
  threshold_le : n.expansionThreshold ≤ n.dataCapacity

theorem Room.hasRoom (h : Room n) : HasRoom n := ⟨h.lt_capacity, h.lt, h.le⟩

/-- The next filled position after a gap, or none. -/
theorem exists_next_filled (v : View P) (i : ℕ) :
    (∃ j, i < j ∧ j < v.cap ∧ v.bit j = true ∧ ∀ m, i < m → m < j → v.bit m = false) ∨
      ∀ m, i < m → m < v.cap → v.bit m = false := by
  by_cases h : ∃ j, i < j ∧ j < v.cap ∧ v.bit j = true
  · left
    obtain ⟨h1, h2, h3⟩ := Nat.find_spec h
    refine ⟨Nat.find h, h1, h2, h3, ?_⟩
    intro m hm hlt
    have := Nat.find_min h hlt
    cases hb : v.bit m with
    | false => rfl
    | true => exact absurd ⟨hm, by omega, hb⟩ this
  · right
    intro m h1 h2
    cases hb : v.bit m with
    | false => rfl
    | true => exact absurd ⟨m, h1, h2, hb⟩ h

theorem Holds.repInvariant (h : Holds T n v k) : RepInvariant T n := by
  have hcap := h.reps.cap
  have hread : ∀ i, i < v.cap → n.keyAt i = some (k i) := by
    intro i hi
    rw [h.reps.key]
    exact h.gapped.init i hi
  refine ⟨?_, ?_, ?_, ?_⟩
  · intro i j hij hj
    rw [hcap] at hj
    exact ⟨k i, k j, hread i (by omega), hread j hj, h.gapped.mono hij⟩
  · intro i hi hb
    rw [hcap] at hi
    simp only [h.reps.bit, hcap] at hb ⊢
    rcases exists_next_filled v i with ⟨j, h1, h2, h3, h4⟩ | hnone
    · refine Or.inl ⟨j, h1, h2, h3, h4, ?_⟩
      have hk := h.gapped.toGappedTo.gaps (i := i) (j - i) (by omega) (fun m hm1 hm2 => by
        by_cases hmi : m = i
        · rw [hmi]
          exact hb
        · exact h4 m (by omega) (by omega))
      rw [hread i hi, hread j h2, hk, show i + (j - i) = j by omega]
    · refine Or.inr ⟨hnone, ?_⟩
      have hk := h.gapped.toGappedTo.gaps (i := i) (v.cap - i) (by omega) (fun m hm1 hm2 => by
        by_cases hmi : m = i
        · rw [hmi]
          exact hb
        · exact hnone m (by omega) (by omega))
      rw [hread i hi, hk, show i + (v.cap - i) = v.cap by omega, h.gapped.past v.cap (le_refl _)]
  · rw [h.reps.ones, ← h.gapped.length_entries, h.count]
  · intro i hi
    rw [hcap] at hi
    rw [h.reps.bit]
    exact h.reps.clear i hi

/-! ### Runs -/

/-- The operations that modify a loaded node. -/
inductive NodeOp (P : Type) where
  | insert (key : ℤ) (payload : P)
  | update (key : ℤ) (payload : P)
  | erase (key : ℤ)
  | eraseOneAt (pos : ℕ)
  | eraseRange (startKey endKey : ℤ) (endKeyInclusive : Bool)
  | resize (targetDensity : ℚ) (forceRetrain keepLeft keepRight : Bool)
  /-- `New_from_existing`, then `resize_from_existing` of the copy. -/
  | rebuild (targetDensity : ℚ) (forceRetrain keepLeft keepRight : Bool)

/-- What the callers of an operation guarantee. -/
def Admissible (T : KeyType) (n : DataNode M P) : NodeOp P → Prop
  | .insert key _ => key < T.max
  | .eraseOneAt pos => pos < n.dataCapacity ∧ bitAt n.bitmap pos = true
  | .rebuild .. => 1 ≤ n.numKeys
  | _ => True

variable [NodeModel M]

/-- The node after an operation. -/
def apply (T : KeyType) (allowDuplicates : Bool) (n : DataNode M P) :
    NodeOp P → Option (DataNode M P)
  | .insert key payload => (n.insert allowDuplicates key payload).map (fun r => r.1)
  | .update key payload => (n.update key payload).map (fun r => r.2)
  | .erase key => (n.erase T key).map (fun r => r.2)
  | .eraseOneAt pos => n.eraseOneAt T pos
  | .eraseRange startKey endKey inclusive =>
      (n.eraseRange T startKey endKey inclusive).map (fun r => r.2)
  | .resize density forceRetrain keepLeft keepRight =>
      n.resize T density forceRetrain keepLeft keepRight
  | .rebuild density forceRetrain keepLeft keepRight =>
      n.newFromExisting.resizeFromExisting T n density forceRetrain keepLeft keepRight

/-- Nodes that were loaded and then modified by any sequence of operations. -/
inductive Reachable (T : KeyType) (allowDuplicates : Bool) : DataNode M P → Prop where
  | bulkLoad {n n' : DataNode M P} {values : List (ℤ × P)} {pretrained : Option M}
      {sample : Bool} :
      values.Pairwise (fun a b => a.1 ≤ b.1) → (∀ y ∈ values, y.1 < T.max) →
      n.bulkLoad T values pretrained sample = some n' → Reachable T allowDuplicates n'
  | bulkLoadFromExisting {n src n' : DataNode M P} {past : Option Word} {left right : ℕ}
      {keepLeft keepRight : Bool} {precomputed : Option (M × ℕ)} :
      Reachable T allowDuplicates src → left ≤ right → right ≤ src.dataCapacity →
      (left < src.dataCapacity ∨ past ≠ none) →
      (∀ m ∈ precomputed, m.2 = (List.range' left (right - left)).countP (bitAt src.bitmap)) →
      n.bulkLoadFromExisting T past src left right keepLeft keepRight precomputed = some n' →
      Reachable T allowDuplicates n'
  | apply {n n' : DataNode M P} {op : NodeOp P} :
      Reachable T allowDuplicates n → Admissible T n op → n.apply T allowDuplicates op = some n' →
      Reachable T allowDuplicates n'

/-- The lock is held, and key count, capacity and threshold are those of a node that an insert
has returned with one of the flags 1, 2, 3, 5. -/
def PendingInsert (T : KeyType) (allowDuplicates : Bool) (n : DataNode M P) : Prop :=
  isSet n.lock = true ∧ ∃ (n₀ n₁ : DataNode M P) (key : ℤ) (payload : P) (code pos : ℤ),
    Reachable T allowDuplicates n₀ ∧ key < T.max ∧
    n₀.insert allowDuplicates key payload = some (n₁, code, pos) ∧
    (code = 1 ∨ code = 2 ∨ code = 3 ∨ code = 5) ∧ n.numKeys = n₁.numKeys ∧
    n.dataCapacity = n₁.dataCapacity ∧ n.expansionThreshold = n₁.expansionThreshold ∧
    n.lock = n₁.lock

/-- The invariant of the induction: an overfull node is one key over and locked. -/
structure Good (T : KeyType) (allowDuplicates : Bool) (n : DataNode M P) : Prop where
  holds : ∃ v k, Holds T n v k
  pos : 1 ≤ n.expansionThreshold
  le : n.expansionThreshold ≤ n.dataCapacity
  lt : (n.numKeys : ℚ) < n.expansionThreshold + 1
  room : (n.numKeys : ℚ) < n.expansionThreshold ∨ PendingInsert T allowDuplicates n

theorem Good.of_room {allowDuplicates : Bool} (hh : Holds T n v k) (hr : Room n) :
    Good T allowDuplicates n :=
  ⟨⟨v, k, hh⟩, hr.pos, hr.le, by linarith [hr.lt], Or.inl hr.lt⟩

/-- A node with no more keys than before and the same capacity and threshold. -/
theorem Good.of_fewer {allowDuplicates : Bool} {n' : DataNode M P} (hg : Good T allowDuplicates n)
    (hh : Holds T n' v k) (hcap : n'.dataCapacity = n.dataCapacity)
    (hthr : n'.expansionThreshold = n.expansionThreshold) (hle : n'.numKeys ≤ n.numKeys)
    (heq : n'.numKeys = n.numKeys → n'.lock = n.lock) : Good T allowDuplicates n' := by
  have hle' : (n'.numKeys : ℚ) ≤ n.numKeys := by exact_mod_cast hle
  have hlt := hg.lt
  refine ⟨⟨v, k, hh⟩, hthr ▸ hg.pos, by rw [hthr, hcap]; exact hg.le, by rw [hthr]; linarith, ?_⟩
  rcases hg.room with hroom | hpend
  · exact Or.inl (by rw [hthr]; linarith)
  · rcases Nat.lt_or_ge n'.numKeys n.numKeys with hlt' | hge
    · left
      have : (n'.numKeys : ℚ) + 1 ≤ n.numKeys := by exact_mod_cast hlt'
      rw [hthr]
      linarith
    · right
      have hnum : n'.numKeys = n.numKeys := le_antisymm hle hge
      obtain ⟨hset, n₀, n₁, key, payload, code, pos, h₀, hkey, hins, hcode, h1, h2, h3, h4⟩ := hpend
      exact ⟨by rw [heq hnum]; exact hset, n₀, n₁, key, payload, code, pos, h₀, hkey, hins, hcode,
        hnum.trans h1, hcap.trans h2, hthr.trans h3, (heq hnum).trans h4⟩

theorem Good.free_room {allowDuplicates : Bool} (hg : Good T allowDuplicates n)
    (hl : isSet n.lock = false) : Room n := by
  rcases hg.room with hroom | hpend
  · exact ⟨hroom, hg.pos, hg.le⟩
  · rw [hpend.1] at hl
    cases hl

/-- `update` of any key, the sentinel included, keeps the invariant. -/
theorem Holds.update_any (h : Holds T n v k) (hl : isSet n.lock = false) (key : ℤ) (payload : P) :
    ∃ r n' v', n.update key payload = some (r, n') ∧ Holds T n' v' k ∧ v'.cap = v.cap ∧
      n'.numKeys = n.numKeys ∧ n'.expansionThreshold = n.expansionThreshold := by
  have ha : Holds T n.acquired v k := h.congr rfl rfl
  obtain ⟨c, hc⟩ := h.exists_upper key
  obtain ⟨a, b, hu⟩ := ha.upperBound hc
  have hle := hc.le
  have hfind : ∃ r, n.acquired.findKey key = some (r, n.acquired.withCounters a b) ∧
      ∀ i ∈ r, i < v.cap := by
    unfold DataNode.findKey
    rw [hu, Option.bind_eq_bind, Option.bind_some]
    by_cases h0 : c = 0
    · exact ⟨none, if_pos h0, by simp⟩
    · have hread : (n.acquired.withCounters a b).keyAt (c - 1) = some (k (c - 1)) := by
        show n.keyAt (c - 1) = _
        rw [h.reps.key]
        exact h.gapped.init _ (by omega)
      refine ⟨if k (c - 1) = key then some (c - 1) else none, ?_, ?_⟩
      · simp only [h0, if_false, hread, Option.bind_eq_bind, Option.bind_some]
      · intro i hi
        split_ifs at hi
        · obtain rfl := Option.some.inj hi
          omega
        · cases hi
  obtain ⟨r, hr, hlt⟩ := hfind
  unfold DataNode.update
  simp only [tryGetLock_free hl, hr, Option.bind_eq_bind, Option.bind_some]
  cases r with
  | none => exact ⟨_, _, v, rfl, h.congr rfl rfl, rfl, rfl, rfl⟩
  | some i =>
      obtain ⟨s, hs, hreps⟩ := h.reps.setPayload (hlt i rfl) payload
      have hs' : (n.acquired.withCounters a b).toSlots.setPayload i payload = some s := hs
      simp only [hs', Option.bind_some]
      have hpay : ∀ j, (v.setPay i payload).pay j = if j = i then some payload else v.pay j :=
        fun j => Function.update_apply ..
      have hg : (v.setPay i payload).Gapped T k := by
        refine ⟨⟨h.gapped.init, h.gapped.past, h.gapped.step, h.gapped.gap, ?_⟩⟩
        intro j hj hb
        rw [hpay]
        split_ifs
        · exact ⟨payload, rfl⟩
        · exact h.gapped.pay j hj hb
      refine ⟨_, _, _, rfl, ⟨hreps, hg, ?_⟩, rfl, rfl, rfl⟩
      show n.numKeys = _
      rw [h.count, h.gapped.length_entries, hg.length_entries]
      rfl

theorem update_locked (hl : isSet n.lock = true) (key : ℤ) (payload : P) :
    n.update key payload = some (none, n) := by
  unfold DataNode.update
  rw [tryGetLock_locked hl]

/-! One lemma for each operation: it returns, and the invariant holds again. -/

section step
variable {allowDuplicates : Bool}

theorem Good.insert (hg : Good T allowDuplicates n) (hr : Reachable T allowDuplicates n) {key : ℤ}
    (hkey : key < T.max) (payload : P) :
    ∃ r, n.insert allowDuplicates key payload = some r ∧ Good T allowDuplicates r.1 := by
  obtain ⟨v, k, hh⟩ := hg.holds
  cases hl : isSet n.lock with
  | true => exact ⟨_, insert_locked allowDuplicates hl key payload, hg⟩
  | false =>
      have hroom := hg.free_room hl
      rcases hh.insert allowDuplicates hl hroom.lt_capacity hkey payload with
        ⟨_, _, i, b, he⟩ |
        ⟨_, n₁, pos, v', k', A, B, he, hh', hcap, _, _, hnum, hlock, _, hthr, _⟩
      · exact ⟨_, he, Good.of_room (n := { n.withCounters n.numLookups b with
          lock := n.lock + 1#32 }) (hh.congr rfl rfl) ⟨hroom.lt, hroom.pos, hroom.le⟩⟩
      · have hcap' : n₁.dataCapacity = n.dataCapacity := by
          rw [hh'.reps.cap, hcap, hh.reps.cap]
        rcases n₁.insertVerdict_cases pos with ⟨hv, hlt⟩ | ⟨code, hcode, hv⟩
        · refine ⟨_, he, ?_⟩
          rw [hv]
          refine Good.of_room (n := n₁.releaseLock) (hh'.congr rfl rfl) ⟨hlt, ?_, ?_⟩
          · show 1 ≤ n₁.expansionThreshold
            rw [hthr]
            exact hroom.pos
          · show n₁.expansionThreshold ≤ n₁.dataCapacity
            rw [hthr, hcap']
            exact hroom.le
        · refine ⟨_, he, ?_⟩
          rw [hv] at he ⊢
          refine ⟨⟨v', k', hh'⟩, by rw [hthr]; exact hroom.pos,
            by rw [hthr, hcap']; exact hroom.le, ?_, Or.inr ⟨?_, n, n₁, key, payload, code, -1, hr,
              hkey, he, hcode, rfl, rfl, rfl, rfl⟩⟩
          · have := hroom.lt
            rw [hthr, hnum]
            push_cast
            linarith
          · rw [hlock]
            exact isSet_or_lockSet _

theorem Good.update (hg : Good T allowDuplicates n) (key : ℤ) (payload : P) :
    ∃ r, n.update key payload = some r ∧ Good T allowDuplicates r.2 := by
  obtain ⟨v, k, hh⟩ := hg.holds
  cases hl : isSet n.lock with
  | true => exact ⟨_, update_locked hl key payload, hg⟩
  | false =>
      have hroom := hg.free_room hl
      obtain ⟨r, n', v', he, hh', hcap, hnum, hthr⟩ := hh.update_any hl key payload
      refine ⟨_, he, Good.of_room (n := n') hh' ⟨?_, ?_, ?_⟩⟩
      · rw [hnum, hthr]
        exact hroom.lt
      · rw [hthr]
        exact hroom.pos
      · rw [hthr, hh'.reps.cap, hcap, ← hh.reps.cap]
        exact hroom.le

theorem Good.erase (hg : Good T allowDuplicates n) (key : ℤ) :
    ∃ r, n.erase T key = some r ∧ Good T allowDuplicates r.2 := by
  obtain ⟨v, k, hh⟩ := hg.holds
  cases hl : isSet n.lock with
  | true => exact ⟨_, erase_locked hl key, hg⟩
  | false =>
      have hroom := hg.free_room hl
      obtain ⟨r, n', v', k', he, hh', hcap, _, hents, _, _, hthr, _⟩ := hh.erase hl key
      have hle : n'.numKeys ≤ n.numKeys := by
        rw [hh'.count, hh.count, hents]
        exact List.length_filter_le _ _
      have hle' : (n'.numKeys : ℚ) ≤ n.numKeys := by exact_mod_cast hle
      refine ⟨_, he, Good.of_room (n := n') hh' ⟨?_, ?_, ?_⟩⟩
      · rw [hthr]
        exact lt_of_le_of_lt hle' hroom.lt
      · rw [hthr]
        exact hroom.pos
      · rw [hthr, hh'.reps.cap, hcap, ← hh.reps.cap]
        exact hroom.le

theorem Good.eraseOneAt (hg : Good T allowDuplicates n) {pos : ℕ} (hp : pos < n.dataCapacity)
    (hb : bitAt n.bitmap pos = true) :
    ∃ n', n.eraseOneAt T pos = some n' ∧ Good T allowDuplicates n' := by
  obtain ⟨v, k, hh⟩ := hg.holds
  rw [hh.reps.cap] at hp
  rw [hh.reps.bit] at hb
  obtain ⟨n', v', k', x, he, hh', _, _, _, hroom, _, hlock⟩ := hh.eraseOneAt hp hb
  refine ⟨n', he, ?_⟩
  rcases hroom with hroom | ⟨hcap, hnum, hthr⟩
  · exact Good.of_room hh' hroom
  · exact hg.of_fewer hh' hcap hthr (by omega) (fun _ => hlock)

theorem Good.eraseRange (hg : Good T allowDuplicates n) (startKey endKey : ℤ) (inclusive : Bool) :
    ∃ r, n.eraseRange T startKey endKey inclusive = some r ∧ Good T allowDuplicates r.2 := by
  obtain ⟨v, k, hh⟩ := hg.holds
  obtain ⟨d, n', v', k', he, hh', _, _, hroom, _, hlock⟩ := hh.eraseRange startKey endKey inclusive
  refine ⟨_, he, ?_⟩
  rcases hroom with hroom | ⟨hcap, hnum, hthr, _⟩
  · exact Good.of_room (n := n') hh' hroom
  · have hle : n'.numKeys ≤ n.numKeys := by omega
    exact hg.of_fewer hh' hcap hthr hle (fun _ => hlock)

theorem Good.resize (hg : Good T allowDuplicates n) (density : ℚ)
    (forceRetrain keepLeft keepRight : Bool) :
    ∃ n', n.resize T density forceRetrain keepLeft keepRight = some n' ∧
      Good T allowDuplicates n' := by
  obtain ⟨v, k, hh⟩ := hg.holds
  obtain ⟨n', v', k', he, hh', _, hroom, _, _⟩ := hh.resize density forceRetrain keepLeft keepRight
  refine ⟨n', he, ?_⟩
  rcases hroom with ⟨rfl, _⟩ | hroom
  · exact hg
  · exact Good.of_room hh' hroom

theorem Good.rebuild (hg : Good T allowDuplicates n) (hpos : 1 ≤ n.numKeys) (density : ℚ)
    (forceRetrain keepLeft keepRight : Bool) :
    ∃ n', n.newFromExisting.resizeFromExisting T n density forceRetrain keepLeft keepRight =
      some n' ∧ Good T allowDuplicates n' := by
  obtain ⟨v, k, hh⟩ := hg.holds
  obtain ⟨n', v', k', he, hh', _, hroom, _, _⟩ :=
    hh.resizeFromExisting (by omega) density forceRetrain keepLeft keepRight
  exact ⟨n', he, Good.of_room hh' hroom⟩

/-- Every admissible operation returns and keeps the invariant. -/
theorem Good.apply (hg : Good T allowDuplicates n) (hr : Reachable T allowDuplicates n)
    {op : NodeOp P} (ha : Admissible T n op) :
    ∃ n', n.apply T allowDuplicates op = some n' ∧ Good T allowDuplicates n' := by
  cases op with
  | insert key payload =>
      obtain ⟨r, he, hg'⟩ := hg.insert hr ha payload
      exact ⟨r.1, by rw [DataNode.apply, he]; rfl, hg'⟩
  | update key payload =>
      obtain ⟨r, he, hg'⟩ := hg.update key payload
      exact ⟨r.2, by rw [DataNode.apply, he]; rfl, hg'⟩
  | erase key =>
      obtain ⟨r, he, hg'⟩ := hg.erase key
      exact ⟨r.2, by rw [DataNode.apply, he]; rfl, hg'⟩
  | eraseOneAt pos => exact hg.eraseOneAt ha.1 ha.2
  | eraseRange startKey endKey inclusive =>
      obtain ⟨r, he, hg'⟩ := hg.eraseRange startKey endKey inclusive
      exact ⟨r.2, by rw [DataNode.apply, he]; rfl, hg'⟩
  | resize density forceRetrain keepLeft keepRight =>
      exact hg.resize density forceRetrain keepLeft keepRight
  | rebuild density forceRetrain keepLeft keepRight =>
      exact hg.rebuild ha density forceRetrain keepLeft keepRight

/-- Loading a range of a good node. -/
theorem Good.bulkLoadFromExisting {src : DataNode M P} (hg : Good T allowDuplicates src)
    (n : DataNode M P) {past : Option Word} {left right : ℕ} (hlr : left ≤ right)
    (hr : right ≤ src.dataCapacity) (hpast : left < src.dataCapacity ∨ past ≠ none)
    (keepLeft keepRight : Bool) {precomputed : Option (M × ℕ)}
    (hpre : ∀ m ∈ precomputed,
      m.2 = (List.range' left (right - left)).countP (bitAt src.bitmap)) :
    ∃ n', n.bulkLoadFromExisting T past src left right keepLeft keepRight precomputed = some n' ∧
      Good T allowDuplicates n' := by
  obtain ⟨v, k, hh⟩ := hg.holds
  rw [hh.reps.cap] at hr hpast
  have hlen : (List.range' left (right - left)).countP (bitAt src.bitmap) =
      (v.seg left right).length := by
    rw [show bitAt src.bitmap = v.bit from funext hh.reps.bit, List.countP_eq_length_filter]
    refine (hh.forall₂_filled hr _ (fun i hi => ?_)).length_eq
    rw [List.mem_range'_1] at hi
    omega
  obtain ⟨n', v', k', he, hh', _, hroom, _, _⟩ := hh.bulkLoadFromExisting n past hlr hr hpast
    keepLeft keepRight (fun m hm => (hpre m hm).trans hlen)
  exact ⟨n', he, Good.of_room hh' hroom⟩

/-- The invariant along every run. -/
theorem Reachable.good (hr : Reachable T allowDuplicates n) : Good T allowDuplicates n := by
  induction hr with
  | @bulkLoad n n' values pretrained sample hs hB he =>
      obtain ⟨n₁, v, k, he', hh, _, hroom, _⟩ :=
        n.bulkLoad_spec hs (fun y hy => (hB y hy).le) pretrained sample
      rw [he] at he'
      obtain rfl := Option.some.inj he'
      exact Good.of_room hh hroom
  | @bulkLoadFromExisting n src n' past left right keepLeft keepRight precomputed hsrc hlr hle
      hpast hpre he ih =>
      obtain ⟨n₁, he', hg⟩ := ih.bulkLoadFromExisting n hlr hle hpast keepLeft keepRight hpre
      rw [he] at he'
      obtain rfl := Option.some.inj he'
      exact hg
  | @apply n n' op hr ha he ih =>
      obtain ⟨n₁, he', hg⟩ := ih.apply hr ha
      rw [he] at he'
      obtain rfl := Option.some.inj he'
      exact hg

/-- The representation invariant of a data node: loading establishes it, every operation returns
and preserves it, and the room below the threshold is lost only while an insert that returned one
of the flags 1, 2, 3, 5 holds the lock. -/
theorem reachable_repInvariant (T : KeyType) (allowDuplicates : Bool) :
    (∀ (n : DataNode M P) (values : List (ℤ × P)) (pretrained : Option M) (sample : Bool),
      values.Pairwise (fun a b => a.1 ≤ b.1) → (∀ y ∈ values, y.1 < T.max) →
      ∃ n', n.bulkLoad T values pretrained sample = some n' ∧
        Reachable T allowDuplicates n') ∧
    (∀ (n src : DataNode M P) (past : Option Word) (left right : ℕ) (keepLeft keepRight : Bool)
      (precomputed : Option (M × ℕ)), Reachable T allowDuplicates src → left ≤ right →
      right ≤ src.dataCapacity → (left < src.dataCapacity ∨ past ≠ none) →
      (∀ m ∈ precomputed,
        m.2 = (List.range' left (right - left)).countP (bitAt src.bitmap)) →
      ∃ n', n.bulkLoadFromExisting T past src left right keepLeft keepRight precomputed =
        some n' ∧ Reachable T allowDuplicates n') ∧
    (∀ n : DataNode M P, Reachable T allowDuplicates n →
      RepInvariant T n ∧ (HasRoom n ∨ PendingInsert T allowDuplicates n) ∧
      ∀ op : NodeOp P, Admissible T n op →
        ∃ n', n.apply T allowDuplicates op = some n' ∧ Reachable T allowDuplicates n') := by
  refine ⟨?_, ?_, ?_⟩
  · intro n values pretrained sample hs hB
    obtain ⟨n', v, k, he, _⟩ := n.bulkLoad_spec hs (fun y hy => (hB y hy).le) pretrained sample
    exact ⟨n', he, Reachable.bulkLoad hs hB he⟩
  · intro n src past left right keepLeft keepRight precomputed hsrc hlr hr hpast hpre
    obtain ⟨n', he, _⟩ := hsrc.good.bulkLoadFromExisting n hlr hr hpast keepLeft keepRight hpre
    exact ⟨n', he, Reachable.bulkLoadFromExisting hsrc hlr hr hpast hpre he⟩
  · intro n hr
    have hg := hr.good
    obtain ⟨v, k, hh⟩ := hg.holds
    refine ⟨hh.repInvariant, ?_, ?_⟩
    · rcases hg.room with hroom | hpend
      · exact Or.inl (Room.hasRoom ⟨hroom, hg.pos, hg.le⟩)
      · exact Or.inr hpend
    · intro op ha
      obtain ⟨n', he, _⟩ := hg.apply hr ha
      exact ⟨n', he, Reachable.apply hr ha he⟩

end step

end DataNode

end LearnedIndex.Alexol
