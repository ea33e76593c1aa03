import LearnedIndex.Alexol.DataNode
import LearnedIndex.Alexol.GappedUpdate

/-! # What the data-node operations do

`Holds T n v k` is the invariant of a data node: its arrays read as the view `v`, which is a gapped
array with key function `k`, and `num_keys_` counts the entries.  The operations are described on
it here and in the next module: lookups change counters only, and an insert adds one pair. -/

namespace LearnedIndex.Alexol

open LearnedIndex.Words LearnedIndex.Search

namespace View
variable {P : Type} {v : View P} {T : KeyType} {k : ℕ → ℤ}

/-- The number of entries of a segment is its number of filled slots. -/
theorem GappedTo.length_seg {n : ℕ} {e : ℤ} (h : GappedTo v k n e) (lo : ℕ) :
    ∀ d, lo + d ≤ n → (v.seg lo (lo + d)).length = Nat.count (fun i => v.bit (lo + i) = true) d
  | 0, _ => by rw [seg_empty (by omega)]; rfl
  | d + 1, hd => by
      rw [seg_append (by omega : lo ≤ lo + d) (by omega : lo + d ≤ lo + (d + 1)),
        List.length_append,
        h.length_seg lo d (by omega), Nat.count_succ, ← Nat.add_assoc, seg_single]
      congr 1
      cases hb : v.bit (lo + d) with
      | false =>
          rw [cell_gap hb]
          rfl
      | true =>
          obtain ⟨p, _, hc⟩ := h.cell (by omega) hb
          rw [hc]
          rfl

theorem Gapped.length_entries (h : Gapped T v k) :
    v.entries.length = Nat.count (fun i => v.bit i = true) v.cap := by
  have := h.toGappedTo.length_seg 0 v.cap (by omega)
  simpa [entries] using this

/-- Without room for another entry every slot is filled. -/
theorem Gapped.exists_gap (h : Gapped T v k) (hlt : v.entries.length < v.cap) :
    ∃ i, i < v.cap ∧ v.bit i = false := by
  by_contra hcon
  push Not at hcon
  rw [h.length_entries, Nat.count_of_forall (fun i hi => by simpa using hcon i hi)] at hlt
  omega

/-- A downward closed property of the keys cuts the slots. -/
theorem GappedTo.exists_cut {n : ℕ} {e : ℤ} (h : GappedTo v k n e)
    (below : ℤ → Prop) (hdown : ∀ x y, x ≤ y → below y → below x) : ∃ c, CutAt v k below c := by
  classical
  suffices hcut : ∀ m, ∃ c, c ≤ m ∧ (∀ i, i < c → below (k i)) ∧
      ∀ i, c ≤ i → i < m → ¬ below (k i) by
    obtain ⟨c, hc, hlt, hge⟩ := hcut v.cap
    exact ⟨c, hc, hlt, hge⟩
  intro m
  induction m with
  | zero => exact ⟨0, le_refl 0, fun i hi => absurd hi (by omega),
        fun i _ hi => absurd hi (by omega)⟩
  | succ m ih =>
      obtain ⟨c, hc, hlt, hge⟩ := ih
      by_cases hm : below (k m)
      · refine ⟨m + 1, le_refl _, fun i hi => hdown _ _ (h.mono (by omega)) hm,
          fun i h1 h2 => absurd h2 (by omega)⟩
      · refine ⟨c, by omega, hlt, fun i h1 h2 => ?_⟩
        by_cases hi : i = m
        · rw [hi]
          exact hm
        · exact hge i h1 (by omega)

/-- A cut splits the entries by their keys. -/
theorem Gapped.entries_cut (h : Gapped T v k) {below : ℤ → Prop} {c : ℕ} (hc : CutAt v k below c) :
    v.entries = v.seg 0 c ++ v.seg c v.cap ∧ (∀ x ∈ v.seg 0 c, below x.1) ∧
      ∀ x ∈ v.seg c v.cap, ¬ below x.1 := by
  refine ⟨seg_append (Nat.zero_le c) hc.le, ?_, ?_⟩
  · intro x hx
    obtain ⟨i, _, h2, hcell⟩ := mem_seg.mp hx
    rw [(h.key_of_cell (lt_of_lt_of_le h2 hc.le) hcell).2]
    exact hc.lt i h2
  · intro x hx
    obtain ⟨i, h1, h2, hcell⟩ := mem_seg.mp hx
    rw [(h.key_of_cell h2 hcell).2]
    exact hc.ge i h1 h2

theorem Gapped.entries_sorted (h : Gapped T v k) : v.entries.Pairwise (fun x y => x.1 ≤ y.1) :=
  h.toGappedTo.sorted (le_refl _)

end View

namespace DataNode

variable {M P : Type} {T : KeyType} {n : DataNode M P} {v : View P} {k : ℕ → ℤ}

/-- The node holds the entries of the view. -/
structure Holds (T : KeyType) (n : DataNode M P) (v : View P) (k : ℕ → ℤ) : Prop where
  reps : Reps n.toSlots v
  gapped : v.Gapped T k
  count : n.numKeys = v.entries.length

/-- A node that differs in its lookup counters only. -/
def withCounters (n : DataNode M P) (lookups iters : ℕ) : DataNode M P :=
  { n with numLookups := lookups, numExpSearchIterations := iters }

/-! ### Locks -/

theorem tryGetLock_locked (hl : isSet n.lock = true) : n.tryGetLock = (false, n) := if_pos hl

/-- The node while an operation holds its lock. -/
def acquired (n : DataNode M P) : DataNode M P := { n with lock := n.lock ||| lockSet }

theorem tryGetLock_free (hl : isSet n.lock = false) : n.tryGetLock = (true, n.acquired) := by
  unfold tryGetLock
  rw [hl]
  rfl

/-- What a lookup, an insert or an erase leaves alone: the place of the node in the tree and in
the list of leaves, its key range and its thresholds. -/
structure SamePlace (n' n : DataNode M P) : Prop where
  isObsolete : n'.isObsolete = n.isObsolete
  localDepth : n'.localDepth = n.localDepth
  level : n'.level = n.level
  nextLeaf : n'.nextLeaf = n.nextLeaf
  prevLeaf : n'.prevLeaf = n.prevLeaf
  linkLock : n'.linkLock = n.linkLock
  maxSlots : n'.maxSlots = n.maxSlots
  maxLimit : n'.maxLimit = n.maxLimit
  minLimit : n'.minLimit = n.minLimit

theorem SamePlace.refl (n : DataNode M P) : SamePlace n n :=
  ⟨rfl, rfl, rfl, rfl, rfl, rfl, rfl, rfl, rfl⟩

theorem SamePlace.trans {n₁ n₂ n₃ : DataNode M P} (h : SamePlace n₁ n₂) (h' : SamePlace n₂ n₃) :
    SamePlace n₁ n₃ :=
  ⟨h.1.trans h'.1, h.2.trans h'.2, h.3.trans h'.3, h.4.trans h'.4, h.5.trans h'.5, h.6.trans h'.6,
    h.7.trans h'.7, h.8.trans h'.8, h.9.trans h'.9⟩

/-! ### Searches -/

theorem Holds.pos (h : Holds T n v k) : 0 < n.dataCapacity := by
  rw [h.reps.cap]
  exact h.reps.pos

/-- Fields outside the arrays and the key count do not matter for `Holds`. -/
theorem Holds.congr (h : Holds T n v k) {n' : DataNode M P} (hs : n'.toSlots = n.toSlots)
    (hk : n'.numKeys = n.numKeys) : Holds T n' v k :=
  ⟨hs ▸ h.reps, h.gapped, by rw [hk]; exact h.count⟩

theorem Holds.search_cut (h : Holds T n v k) {below : ℤ → Prop} [DecidablePred below] {c : ℕ}
    (hc : v.CutAt k below c) :
    Cut (fun i => (n.keyAt i).map (fun x => decide (below x))) n.dataCapacity c := by
  rw [h.reps.cap]
  refine ⟨hc.le, ?_⟩
  intro i hi
  have hkey : n.keyAt i = some (k i) := by
    rw [h.reps.key]
    exact h.gapped.init i hi
  rw [hkey, Option.map_some]
  congr 1
  rcases Nat.lt_or_ge i c with hlt | hge
  · simp [hlt, hc.lt i hlt]
  · simp [Nat.not_lt.mpr hge, hc.ge i hge hi]

theorem Holds.exists_upper (h : Holds T n v k) (key : ℚ) :
    ∃ c, v.CutAt k (fun x => (x : ℚ) ≤ key) c :=
  h.gapped.toGappedTo.exists_cut _ (fun _ _ hxy hy => le_trans (by exact_mod_cast hxy) hy)

theorem Holds.exists_lower (h : Holds T n v k) (key : ℚ) :
    ∃ c, v.CutAt k (fun x => (x : ℚ) < key) c :=
  h.gapped.toGappedTo.exists_cut _ (fun _ _ hxy hy => lt_of_le_of_lt (by exact_mod_cast hxy) hy)

/-- An upper bound of an integer key. -/
theorem cutAt_intCast {key : ℤ} {c : ℕ} :
    v.CutAt k (fun x => (x : ℚ) ≤ (key : ℚ)) c ↔ v.CutAt k (· ≤ key) c := by
  have he : (fun x : ℤ => (x : ℚ) ≤ (key : ℚ)) = (· ≤ key) := by
    funext x
    exact propext Int.cast_le
  rw [he]

theorem Holds.exponentialSearchUpperBound (h : Holds T n v k) {key : ℚ} {c m : ℕ}
    (hc : v.CutAt k (fun x => (x : ℚ) ≤ key) c) (hm : m < n.dataCapacity) :
    ∃ iters, n.exponentialSearchUpperBound m key = some (c, n.withCounters n.numLookups iters) := by
  obtain ⟨iters, he⟩ := exponentialSearch_eq (h.search_cut hc) hm
  refine ⟨n.numExpSearchIterations + iters, ?_⟩
  unfold DataNode.exponentialSearchUpperBound
  rw [he]
  rfl

theorem Holds.exponentialSearchLowerBound (h : Holds T n v k) {key : ℚ} {c m : ℕ}
    (hc : v.CutAt k (fun x => (x : ℚ) < key) c) (hm : m < n.dataCapacity) :
    ∃ iters, n.exponentialSearchLowerBound m key = some (c, n.withCounters n.numLookups iters) := by
  obtain ⟨iters, he⟩ := exponentialSearch_eq (h.search_cut hc) hm
  refine ⟨n.numExpSearchIterations + iters, ?_⟩
  unfold DataNode.exponentialSearchLowerBound
  rw [he]
  rfl

variable [NodeModel M]

theorem predictPosition_lt (n : DataNode M P) (key : ℚ) (h : 0 < n.dataCapacity) :
    n.predictPosition key < n.dataCapacity := by
  unfold predictPosition
  omega

theorem Holds.upperBound (h : Holds T n v k) {key : ℚ} {c : ℕ}
    (hc : v.CutAt k (fun x => (x : ℚ) ≤ key) c) :
    ∃ a b, n.upperBound key = some (c, n.withCounters a b) := by
  have h' : Holds T n.countLookup v k := h.congr rfl rfl
  obtain ⟨iters, he⟩ := h'.exponentialSearchUpperBound hc (n.predictPosition_lt key h.pos)
  exact ⟨_, iters, he⟩

theorem Holds.lowerBound (h : Holds T n v k) {key : ℚ} {c : ℕ}
    (hc : v.CutAt k (fun x => (x : ℚ) < key) c) :
    ∃ a b, n.lowerBound key = some (c, n.withCounters a b) := by
  have h' : Holds T n.countLookup v k := h.congr rfl rfl
  obtain ⟨iters, he⟩ := h'.exponentialSearchLowerBound hc (n.predictPosition_lt key h.pos)
  exact ⟨_, iters, he⟩

/-- The slot `find_key` and its siblings look for. -/
theorem Holds.findKey (h : Holds T n v k) {key : ℤ} (hkey : key < T.max) :
    ∃ r a b, n.findKey key = some (r, n.withCounters a b) ∧
      ((r = none ∧ ∀ x ∈ v.entries, x.1 ≠ key) ∨
        ∃ i, r = some i ∧ i < v.cap ∧ v.bit i = true ∧ k i = key ∧ key < k (i + 1)) := by
  obtain ⟨c, hc⟩ := h.exists_upper key
  obtain ⟨a, b, hu⟩ := h.upperBound hc
  have hcz := cutAt_intCast.mp hc
  obtain ⟨hsplit, hlow, hhigh⟩ := h.gapped.entries_cut hcz
  unfold DataNode.findKey
  rw [hu, Option.bind_eq_bind, Option.bind_some]
  by_cases h0 : c = 0
  · refine ⟨none, a, b, by simp [h0], Or.inl ⟨rfl, ?_⟩⟩
    intro x hx
    rw [hsplit, h0, View.seg_empty (le_refl 0), List.nil_append] at hx
    rw [h0] at hhigh
    have := hhigh x hx
    omega
  · have hle := hcz.le
    have hread : (n.withCounters a b).keyAt (c - 1) = some (k (c - 1)) := by
      show n.keyAt (c - 1) = _
      rw [h.reps.key]
      exact h.gapped.init _ (by omega)
    have hfilled := h.gapped.filled_pred hkey hcz (by omega)
    simp only [h0, if_false, hread]
    by_cases hk : k (c - 1) = key
    · refine ⟨some (c - 1), a, b, by simp [hk], Or.inr ⟨c - 1, rfl, by omega, hfilled, hk, ?_⟩⟩
      exact h.gapped.cut_key_gt hkey hcz (by omega)
    · refine ⟨none, a, b, by simp [hk], Or.inl ⟨rfl, ?_⟩⟩
      intro x hx hxk
      rw [hsplit, List.mem_append] at hx
      rcases hx with hx | hx
      · obtain ⟨i, _, h2, hcell⟩ := View.mem_seg.mp hx
        rw [(h.gapped.key_of_cell (by omega) hcell).2] at hxk
        have hmono := h.gapped.mono (show i ≤ c - 1 by omega)
        have := hcz.lt (c - 1) (by omega)
        omega
      · have := hhigh x hx
        omega

/-! ### Lookups and updates -/

theorem findPayload_locked (hl : isSet n.lock = true) (key : ℤ) :
    n.findPayload key = some (none, n) := by
  unfold DataNode.findPayload
  rw [if_pos hl]

/-- A lookup in a free node answers from its entries. -/
theorem Holds.findPayload (h : Holds T n v k) (hl : isSet n.lock = false) {key : ℤ}
    (hkey : key < T.max) :
    ∃ r a b, n.findPayload key = some (some r, n.withCounters a b) ∧
      (∀ p, r = some p → (key, p) ∈ v.entries) ∧ (r = none → ∀ x ∈ v.entries, x.1 ≠ key) := by
  obtain ⟨r, a, b, hf, hr⟩ := h.findKey hkey
  unfold DataNode.findPayload
  simp only [hl, Bool.false_eq_true, if_false, hf, Option.bind_eq_bind, Option.bind_some]
  rcases hr with ⟨rfl, hnone⟩ | ⟨i, rfl, hi, hb, hki, _⟩
  · exact ⟨none, a, b, if_pos rfl, by simp, fun _ => hnone⟩
  · obtain ⟨p, hp, hcell⟩ := h.gapped.cell hi hb
    have hread : (n.withCounters a b).payloadAt i = some p := by
      show n.payloadAt i = _
      rw [h.reps.pay]
      exact hp
    refine ⟨some p, a, b, ?_, ?_, by simp⟩
    · simp only [hread, Option.map_some, Option.bind_some]
      exact if_pos rfl
    · rintro p' hp'
      obtain rfl := Option.some.inj hp'
      exact View.mem_seg.mpr ⟨i, Nat.zero_le i, hi, by rw [← hki]; exact hcell⟩

/-- A lookup by `update` in a free node: the entry of the key gets the new payload. -/
theorem Holds.update (h : Holds T n v k) (hl : isSet n.lock = false) {key : ℤ}
    (hkey : key < T.max) (payload : P) :
    ∃ r n' v', n.update key payload = some (some r, n') ∧ Holds T n' v' k ∧ v'.cap = v.cap ∧
      n'.lock = n.lock + 1#32 ∧ SamePlace n' n ∧
      n'.expansionThreshold = n.expansionThreshold ∧
      n'.contractionThreshold = n.contractionThreshold ∧
      ((r = false ∧ v' = v ∧ ∀ x ∈ v.entries, x.1 ≠ key) ∨
        (r = true ∧ ∃ A p B, v.entries = A ++ (key, p) :: B ∧
          v'.entries = A ++ (key, payload) :: B)) := by
  have ha : Holds T n.acquired v k := h.congr rfl rfl
  obtain ⟨r, a, b, hf, hr⟩ := ha.findKey hkey
  unfold DataNode.update
  simp only [tryGetLock_free hl, hf, Option.bind_eq_bind, Option.bind_some]
  rcases hr with ⟨rfl, hnone⟩ | ⟨i, rfl, hi, hb, hki, _⟩
  · refine ⟨false, _, v, rfl, h.congr rfl rfl, rfl, release_acquire hl,
      ⟨rfl, rfl, rfl, rfl, rfl, rfl, rfl, rfl, rfl⟩, rfl, rfl, Or.inl ⟨rfl, rfl, hnone⟩⟩
  · obtain ⟨s, hs, hreps⟩ := h.reps.setPayload hi payload
    have hs' : (n.acquired.withCounters a b).toSlots.setPayload i payload = some s := hs
    obtain ⟨hg, hents⟩ := h.gapped.setPay hi hb payload
    obtain ⟨p, _, hold⟩ := h.gapped.entries_at hi hb
    rw [hki] at hents hold
    simp only [hs', Option.bind_some]
    refine ⟨true, _, _, rfl, ⟨hreps, hg, ?_⟩, rfl, release_acquire hl,
      ⟨rfl, rfl, rfl, rfl, rfl, rfl, rfl, rfl, rfl⟩, rfl, rfl,
      Or.inr ⟨rfl, _, p, _, hold, hents⟩⟩
    show n.numKeys = _
    rw [h.count, hold, hents]
    simp

/-! ### Inserts -/

/-- The insert position: the upper bound itself, or a later slot of the run of gaps there. -/
theorem Holds.findInsertPosition (h : Holds T n v k) {key : ℤ} {c : ℕ}
    (hc : v.CutAt k (· ≤ key) c) :
    ∃ pos b, n.findInsertPosition key = some (pos, c, n.withCounters n.numLookups b) ∧
      c ≤ pos ∧ (pos = c ∨ (pos < v.cap ∧ ∀ i, c ≤ i → i ≤ pos → v.bit i = false)) := by
  obtain ⟨b, he⟩ := h.exponentialSearchUpperBound (cutAt_intCast.mpr hc)
    (n.predictPosition_lt key h.pos)
  have hpred := n.predictPosition_lt key h.pos
  rw [h.reps.cap] at hpred
  unfold DataNode.findInsertPosition
  simp only [he, Option.bind_eq_bind, Option.bind_some]
  by_cases hle : n.predictPosition key ≤ c
  · exact ⟨c, b, if_pos hle, le_refl c, Or.inl rfl⟩
  · have hcheck : (n.withCounters n.numLookups b).checkExists c = some (v.bit c) :=
      h.reps.checkExists (by omega)
    rw [if_neg hle, hcheck, Option.bind_some]
    cases hb : v.bit c with
    | true => exact ⟨c, b, rfl, le_refl c, Or.inl rfl⟩
    | false =>
        obtain ⟨j, hj, hlo, hjcap, _, hgaps⟩ :=
          h.reps.getNextFilledPosition_spec none
            (show (if true then c + 1 else c) < v.cap by simp only [if_true]; omega)
        simp only [if_true] at hlo hgaps
        have hj' : (n.withCounters n.numLookups b).getNextFilledPosition none c true = some j := hj
        refine ⟨min (n.predictPosition key) (j - 1), b, ?_, by omega, Or.inr ⟨by omega, ?_⟩⟩
        · simp only [Bool.false_eq_true, if_false, hj', Option.bind_some]
        · intro i h1 h2
          by_cases hi : i = c
          · rw [hi]
            exact hb
          · exact hgaps i (by omega) (by omega)

omit [NodeModel M] in
/-- Storing a new pair at the position found for it. -/
theorem Holds.insertAtPosition (h : Holds T n v k) {key : ℤ} (hkey : key < T.max) {c pos : ℕ}
    (hc : v.CutAt k (· ≤ key) c) (hcp : c ≤ pos)
    (hpos : pos = c ∨ (pos < v.cap ∧ ∀ i, c ≤ i → i ≤ pos → v.bit i = false))
    (hroom : n.numKeys < n.dataCapacity) (payload : P) :
    ∃ s sh pos' v' k', n.insertAtPosition key payload pos =
        some ({ n with toSlots := s, numShifts := sh }, pos') ∧ Reps s v' ∧ v'.cap = v.cap ∧
      v'.Gapped T k' ∧ v'.entries = v.seg 0 c ++ (key, payload) :: v.seg c v.cap ∧
      pos' < v.cap ∧ v'.cell pos' = some (key, payload) := by
  have hgapOrShift : (pos < v.cap ∧ ∀ i, c ≤ i → i ≤ pos → v.bit i = false) ∨
      (pos = c ∧ (pos < v.cap → v.bit pos = true)) := by
    rcases hpos with rfl | hgaps
    · rcases Nat.lt_or_ge pos v.cap with hlt | hge
      · cases hb : v.bit pos with
        | true => exact Or.inr ⟨rfl, fun _ => rfl⟩
        | false =>
            refine Or.inl ⟨hlt, fun i h1 h2 => ?_⟩
            rw [show i = pos by omega]
            exact hb
      · exact Or.inr ⟨rfl, fun hlt => absurd hlt (by omega)⟩
    · exact Or.inl hgaps
  unfold DataNode.insertAtPosition
  rcases hgapOrShift with ⟨hlt, hgaps⟩ | ⟨rfl, hfull⟩
  · obtain ⟨s, v', k', hs, hreps, hcap, hg, hents, hcell⟩ :=
      h.reps.insertElementAt h.gapped hkey hc hcp hlt hgaps payload
    refine ⟨s, n.numShifts, pos, v', k', ?_, hreps, hcap, hg, hents, hlt, hcell⟩
    have hgap : n.isGapAt pos = some true := by
      unfold isGapAt
      rw [h.reps.cap, if_pos hlt, h.reps.checkExists hlt, hgaps pos hcp (le_refl pos)]
      rfl
    simp only [hgap, Option.bind_eq_bind, Option.bind_some, if_true, hs]
  · have hgap : n.isGapAt pos = some false := by
      unfold isGapAt
      rw [h.reps.cap]
      by_cases hlt : pos < v.cap
      · rw [if_pos hlt, h.reps.checkExists hlt, hfull hlt]
        rfl
      · rw [if_neg hlt]
    have hroom' : v.entries.length < v.cap := by
      rw [← h.count, ← h.reps.cap]
      exact hroom
    obtain ⟨s, pos', sh, v', k', hs, hreps, hcap, hg, hents, hpos', hcell⟩ :=
      h.reps.insertUsingShifts h.gapped hkey hc (h.gapped.exists_gap hroom') payload
    refine ⟨s, n.numShifts + sh, pos', v', k', ?_, hreps, hcap, hg, hents, hpos', hcell⟩
    simp only [hgap, Option.bind_eq_bind, Option.bind_some, Bool.false_eq_true, if_false, hs]

omit [NodeModel M] in
/-- The flags an insert returns after it has stored the key: 0 with the lock released and room
left, or 1, 2, 3 or 5 with the node as it is. -/
theorem insertVerdict_cases (n : DataNode M P) (pos : ℕ) :
    (n.insertVerdict pos = (n.releaseLock, 0, (pos : ℤ)) ∧
        (n.numKeys : ℚ) < n.expansionThreshold) ∨
      ∃ code : ℤ, (code = 1 ∨ code = 2 ∨ code = 3 ∨ code = 5) ∧
        n.insertVerdict pos = (n, code, -1) := by
  unfold insertVerdict
  by_cases h1 : n.numInserts % 64 = 0 ∧ n.catastrophicCost = true
  · rw [if_pos h1]
    exact Or.inr ⟨2, by omega, rfl⟩
  · rw [if_neg h1]
    by_cases h2 : n.expansionThreshold ≤ n.numKeys
    · rw [if_pos h2]
      right
      split_ifs
      · exact ⟨1, by omega, rfl⟩
      · exact ⟨2, by omega, rfl⟩
      · exact ⟨3, by omega, rfl⟩
      · exact ⟨5, by omega, rfl⟩
    · rw [if_neg h2]
      exact Or.inl ⟨rfl, not_le.mp h2⟩

omit [NodeModel M] in
/-- When the slot below the upper bound has another key, the key is not stored. -/
theorem Holds.equalBelow_none (h : Holds T n v k) {key : ℤ} {c : ℕ}
    (hc : v.CutAt k (· ≤ key) c) :
    ∃ b, n.equalBelow c key = some b ∧ (b = false → ∀ x ∈ v.entries, x.1 ≠ key) := by
  obtain ⟨hsplit, hlow, hhigh⟩ := h.gapped.entries_cut hc
  have hle := hc.le
  unfold DataNode.equalBelow
  by_cases h0 : c = 0
  · refine ⟨false, if_pos h0, fun _ x hx hxk => ?_⟩
    rw [hsplit, h0, View.seg_empty (le_refl 0), List.nil_append] at hx
    rw [h0] at hhigh
    have := hhigh x hx
    omega
  · have hread : n.keyAt (c - 1) = some (k (c - 1)) := by
      rw [h.reps.key]
      exact h.gapped.init _ (by omega)
    refine ⟨decide (k (c - 1) = key), by rw [if_neg h0, hread, Option.map_some], ?_⟩
    intro hne x hx hxk
    rw [decide_eq_false_iff_not] at hne
    rw [hsplit, List.mem_append] at hx
    rcases hx with hx | hx
    · obtain ⟨i, _, h2, hcell⟩ := View.mem_seg.mp hx
      rw [(h.gapped.key_of_cell (by omega) hcell).2] at hxk
      have hmono := h.gapped.mono (show i ≤ c - 1 by omega)
      have hlt := hc.lt (c - 1) (by omega)
      omega
    · have := hhigh x hx
      omega

omit [NodeModel M] in
/-- A stored key sits just below its upper bound. -/
theorem Holds.equalBelow (h : Holds T n v k) {key : ℤ} (hkey : key < T.max) {c : ℕ}
    (hc : v.CutAt k (· ≤ key) c) [Decidable (∃ x ∈ v.entries, x.1 = key)] :
    n.equalBelow c key = some (decide (∃ x ∈ v.entries, x.1 = key)) := by
  obtain ⟨b, heq, hnone⟩ := h.equalBelow_none hc
  have hle := hc.le
  rw [heq]
  congr 1
  cases b with
  | false => exact (decide_eq_false (fun ⟨x, hx, hxk⟩ => hnone rfl x hx hxk)).symm
  | true =>
      have hpos : 0 < c := by
        rcases Nat.eq_zero_or_pos c with rfl | hpos
        · cases heq
        · exact hpos
      have hread : n.keyAt (c - 1) = some (k (c - 1)) := by
        rw [h.reps.key]
        exact h.gapped.init _ (by omega)
      unfold DataNode.equalBelow at heq
      rw [if_neg (by omega), hread, Option.map_some] at heq
      obtain ⟨p, _, hcell⟩ :=
        h.gapped.cell (show c - 1 < v.cap by omega) (h.gapped.filled_pred hkey hc hpos)
      exact (decide_eq_true ⟨_, View.mem_seg.mpr ⟨c - 1, Nat.zero_le _, by omega, hcell⟩,
        of_decide_eq_true (Option.some.inj heq)⟩).symm

omit [NodeModel M] in
/-- The slot just below the upper bound of a stored key is filled with it. -/
theorem Holds.stored_below_cut (h : Holds T n v k) {key : ℤ} (hkey : key < T.max) {c : ℕ}
    (hc : v.CutAt k (· ≤ key) c) (hx : ∃ x ∈ v.entries, x.1 = key) :
    1 ≤ c ∧ v.bit (c - 1) = true ∧ k (c - 1) = key := by
  obtain ⟨b, heq, hnone⟩ := h.equalBelow_none hc
  have hle := hc.le
  have hb : b = true := by
    by_contra hb
    obtain ⟨x, hxm, hxk⟩ := hx
    exact hnone (by simpa using hb) x hxm hxk
  subst hb
  have hpos : 0 < c := by
    rcases Nat.eq_zero_or_pos c with rfl | hpos
    · cases heq
    · exact hpos
  have hread : n.keyAt (c - 1) = some (k (c - 1)) := by
    rw [h.reps.key]
    exact h.gapped.init _ (by omega)
  unfold DataNode.equalBelow at heq
  rw [if_neg (by omega), hread, Option.map_some] at heq
  exact ⟨hpos, h.gapped.filled_pred hkey hc hpos, of_decide_eq_true (Option.some.inj heq)⟩

theorem insert_locked (allowDuplicates : Bool) (hl : isSet n.lock = true) (key : ℤ) (payload : P) :
    n.insert allowDuplicates key payload = some (n, 4, -1) := by
  unfold DataNode.insert
  rw [tryGetLock_locked hl]

/-- An insert into a free node with room: a duplicate is reported at its position and changes
nothing but counters, any other key is stored between the smaller and the larger ones. -/
theorem Holds.insert_exact (h : Holds T n v k) (allowDuplicates : Bool)
    (hl : isSet n.lock = false) (hroom : n.numKeys < n.dataCapacity) {key : ℤ}
    (hkey : key < T.max) (payload : P) :
    (allowDuplicates = false ∧ (∃ x ∈ v.entries, x.1 = key) ∧ ∃ i b : ℕ,
      n.insert allowDuplicates key payload =
        some ({ n.withCounters n.numLookups b with lock := n.lock + 1#32 }, -1, (i : ℤ)) ∧
      i < v.cap ∧ v.bit i = true ∧ k i = key) ∨
    ((allowDuplicates = true ∨ ∀ x ∈ v.entries, x.1 ≠ key) ∧ ∃ n' pos v' k' A B,
      n.insert allowDuplicates key payload = some (n'.insertVerdict pos) ∧ Holds T n' v' k' ∧
      v'.cap = v.cap ∧ v.entries = A ++ B ∧ v'.entries = A ++ (key, payload) :: B ∧
      n'.numKeys = n.numKeys + 1 ∧ n'.lock = n.lock ||| lockSet ∧ SamePlace n' n ∧
      n'.expansionThreshold = n.expansionThreshold ∧
      n'.contractionThreshold = n.contractionThreshold ∧ (∀ x ∈ A, x.1 ≤ key) ∧
      (∀ x ∈ B, key < x.1) ∧ pos < v.cap ∧ v'.cell pos = some (key, payload)) := by
  have ha : Holds T n.acquired v k := h.congr rfl rfl
  obtain ⟨c, hcq⟩ := h.exists_upper key
  have hc := cutAt_intCast.mp hcq
  obtain ⟨hsplit, hlow, hhigh⟩ := h.gapped.entries_cut hc
  obtain ⟨pos, b, hf, hcp, hpos⟩ := ha.findInsertPosition hc
  unfold DataNode.insert
  simp only [tryGetLock_free hl, hf, Option.bind_eq_bind, Option.bind_some]
  have hle := hc.le
  have hlocal : Holds T (n.acquired.withCounters n.acquired.numLookups b) v k := h.congr rfl rfl
  have hdup := hlocal.equalBelow hkey hc
  rw [hdup, Option.bind_some]
  by_cases hd : allowDuplicates = false ∧ ∃ x ∈ v.entries, x.1 = key
  · obtain ⟨hpos, hfilled, hkc⟩ := h.stored_below_cut hkey hc hd.2
    refine Or.inl ⟨hd.1, hd.2, c - 1, b, ?_, by omega, hfilled, hkc⟩
    have hcond : ¬ allowDuplicates = true ∧ decide (∃ x ∈ v.entries, x.1 = key) = true :=
      ⟨by simp [hd.1], decide_eq_true hd.2⟩
    rw [if_pos hcond, Nat.cast_sub hpos, Nat.cast_one]
    show some ({ n.acquired.withCounters n.numLookups b with
      lock := (n.lock ||| lockSet) + 1#32 - lockSet }, _) = _
    rw [release_acquire hl]
    rfl
  · right
    obtain ⟨s, sh, pos', v', k', hins, hreps, hcap, hg, hents, hpos', hcell⟩ :=
      hlocal.insertAtPosition hkey hc hcp hpos hroom payload
    have hcond : ¬ (¬ allowDuplicates = true ∧
        decide (∃ x ∈ v.entries, x.1 = key) = true) := by
      rintro ⟨hda, hx⟩
      exact hd ⟨by simpa using hda, of_decide_eq_true hx⟩
    refine ⟨?_, updateStats { n.acquired.withCounters n.acquired.numLookups b with
      toSlots := s, numShifts := sh } key, pos', v', k', _, _, ?_, ⟨hreps, hg, ?_⟩, hcap, hsplit,
      hents, rfl, rfl, ⟨rfl, rfl, rfl, rfl, rfl, rfl, rfl, rfl, rfl⟩, rfl, rfl, hlow,
      fun x hx => not_le.mp (hhigh x hx), hpos', hcell⟩
    · by_cases hda : allowDuplicates = true
      · exact Or.inl hda
      · right
        intro x hx hxk
        exact hd ⟨by simpa using hda, x, hx, hxk⟩
    · rw [if_neg hcond, hins, Option.bind_some]
    · show n.numKeys + 1 = _
      rw [hents, h.count, hsplit]
      simp only [List.length_append, List.length_cons]
      omega

/-- An insert into a free node with room: a duplicate is reported and changes nothing but
counters, any other key is stored in its place. -/
theorem Holds.insert (h : Holds T n v k) (allowDuplicates : Bool) (hl : isSet n.lock = false)
    (hroom : n.numKeys < n.dataCapacity) {key : ℤ} (hkey : key < T.max) (payload : P) :
    (allowDuplicates = false ∧ (∃ x ∈ v.entries, x.1 = key) ∧
      ∃ i b, n.insert allowDuplicates key payload =
        some ({ n.withCounters n.numLookups b with lock := n.lock + 1#32 }, -1, i)) ∨
    ((allowDuplicates = true ∨ ∀ x ∈ v.entries, x.1 ≠ key) ∧ ∃ n' pos v' k' A B,
      n.insert allowDuplicates key payload = some (n'.insertVerdict pos) ∧ Holds T n' v' k' ∧
      v'.cap = v.cap ∧ v.entries = A ++ B ∧ v'.entries = A ++ (key, payload) :: B ∧
      n'.numKeys = n.numKeys + 1 ∧ n'.lock = n.lock ||| lockSet ∧ SamePlace n' n ∧
      n'.expansionThreshold = n.expansionThreshold ∧
      n'.contractionThreshold = n.contractionThreshold) := by
  rcases h.insert_exact allowDuplicates hl hroom hkey payload with
    ⟨hd, hx, i, b, he, _⟩ |
      ⟨hn, n', pos, v', k', A, B, he, hh, hc, hs, hs', h1, h2, h3, h4, h5, _⟩
  · exact Or.inl ⟨hd, hx, i, b, he⟩
  · exact Or.inr ⟨hn, n', pos, v', k', A, B, he, hh, hc, hs, hs', h1, h2, h3, h4, h5⟩

end DataNode

end LearnedIndex.Alexol
