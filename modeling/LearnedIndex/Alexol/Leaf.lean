import LearnedIndex.Alexol.DataNodeRebuild

/-! # Leaves as sets of pairs

A data node seen from the index: the pairs it stores (`pairs`), with strictly increasing keys
(`Stores`).  The operations of a data node are restated on the pairs, so that the modules about the
index never look at slots. -/

namespace LearnedIndex.Alexol

namespace DataNode

variable {M P : Type} {T : KeyType} {n : DataNode M P} {v : View P} {k : ℕ → ℤ}

/-- The pairs stored in the node, from left to right. -/
def pairs (n : DataNode M P) : List (ℤ × P) :=
  (List.range n.dataCapacity).filterMap
    (fun i => if n.checkExists i = some true then n.pairAt i else none)

/-- The node is well formed and no key is stored twice. -/
structure Stores (T : KeyType) (n : DataNode M P) : Prop where
  holds : ∃ v k, Holds T n v k
  sorted : n.pairs.Pairwise (fun x y => x.1 < y.1)

theorem Holds.pairs_eq (h : Holds T n v k) : n.pairs = v.entries := by
  unfold pairs View.entries View.seg
  rw [h.reps.cap, Nat.sub_zero, ← List.range_eq_range']
  refine List.filterMap_congr (fun i hi => ?_)
  have hlt := List.mem_range.mp hi
  rw [h.reps.checkExists hlt]
  cases hb : v.bit i with
  | false =>
      rw [if_neg (by simp), View.cell_gap hb]
  | true =>
      obtain ⟨p, _, hcell⟩ := h.gapped.cell hlt hb
      rw [if_pos rfl, hcell]
      exact h.pairAt hcell

theorem pairs_congr {n' : DataNode M P} (h : n'.toSlots = n.toSlots) : n'.pairs = n.pairs := by
  unfold pairs pairAt
  rw [h]

theorem Stores.congr {n' : DataNode M P} (h : Stores T n) (hs : n'.toSlots = n.toSlots)
    (hn : n'.numKeys = n.numKeys) : Stores T n' := by
  obtain ⟨v, k, hh⟩ := h.holds
  refine ⟨⟨v, k, hh.congr hs hn⟩, ?_⟩
  rw [pairs_congr hs]
  exact h.sorted

theorem Room.congr {n' : DataNode M P} (h : Room n) (hn : n'.numKeys = n.numKeys)
    (ht : n'.expansionThreshold = n.expansionThreshold) (hc : n'.dataCapacity = n.dataCapacity) :
    Room n' :=
  ⟨by rw [hn, ht]; exact h.lt, by rw [ht]; exact h.pos, by rw [ht, hc]; exact h.le⟩

/-- No key occurs twice. -/
theorem Stores.eq_of_key (h : Stores T n) {x y : ℤ × P} (hx : x ∈ n.pairs) (hy : y ∈ n.pairs)
    (hk : x.1 = y.1) : x = y := by
  by_contra hne
  have hp := h.sorted
  rcases List.pairwise_iff_getElem.mp hp with hlt
  obtain ⟨i, hi, rfl⟩ := List.getElem_of_mem hx
  obtain ⟨j, hj, rfl⟩ := List.getElem_of_mem hy
  rcases Nat.lt_trichotomy i j with hij | rfl | hij
  · exact absurd hk (hlt i j hi hj hij).ne
  · exact hne rfl
  · exact absurd hk.symm (hlt j i hj hi hij).ne

theorem Stores.numKeys (h : Stores T n) : n.numKeys = n.pairs.length := by
  obtain ⟨v, k, hh⟩ := h.holds
  rw [hh.pairs_eq]
  exact hh.count

/-- An ordered list stays strictly increasing when a new key is added at its place. -/
theorem sorted_insert {A B : List (ℤ × P)} {x : ℤ × P}
    (h : (A ++ B).Pairwise (fun x y => x.1 < y.1))
    (h' : (A ++ x :: B).Pairwise (fun x y => x.1 ≤ y.1)) (hne : ∀ y ∈ A ++ B, y.1 ≠ x.1) :
    (A ++ x :: B).Pairwise (fun x y => x.1 < y.1) := by
  obtain ⟨hA, hB, hAB⟩ := List.pairwise_append.mp h
  obtain ⟨_, hxB, hAx⟩ := List.pairwise_append.mp h'
  refine List.pairwise_append.mpr
    ⟨hA, List.pairwise_cons.mpr ⟨fun y hy => ?_, hB⟩, fun a ha y hy => ?_⟩
  · exact lt_of_le_of_ne ((List.pairwise_cons.mp hxB).1 y hy) (hne y (by simp [hy])).symm
  · rcases List.mem_cons.mp hy with rfl | hy
    · exact lt_of_le_of_ne (hAx a ha _ (List.mem_cons_self ..)) (hne a (by simp [ha]))
    · exact hAB a ha y hy

/-- The key at the first filled position of some positions. -/
theorem Holds.firstFilledKey (h : Holds T n v k) (limit : ℤ) : ∀ l : List ℕ,
    (∀ i ∈ l, i < v.cap) → n.firstFilledKey limit l =
      some (((l.filterMap v.cell).head?.map Prod.fst).getD limit)
  | [], _ => rfl
  | i :: l, hl => by
      have hi := hl i (List.mem_cons_self ..)
      unfold DataNode.firstFilledKey
      rw [h.reps.checkExists hi, Option.bind_eq_bind, Option.bind_some]
      cases hb : v.bit i with
      | false =>
          rw [if_neg (by simp), h.firstFilledKey limit l
            (fun j hj => hl j (List.mem_cons_of_mem i hj)), List.filterMap_cons_none
            (View.cell_gap hb)]
      | true =>
          obtain ⟨p, _, hcell⟩ := h.gapped.cell hi hb
          obtain ⟨_, hk, _⟩ := View.cell_eq_some.mp hcell
          rw [if_pos rfl, h.reps.key, hk, List.filterMap_cons_some hcell]
          rfl

/-- The smallest key, or the limit. -/
theorem Holds.firstKey (h : Holds T n v k) :
    n.firstKey T = some ((n.pairs.head?.map Prod.fst).getD T.max) := by
  have hrange : List.range n.dataCapacity = List.range' 0 (v.cap - 0) := by
    rw [h.reps.cap, Nat.sub_zero, List.range_eq_range']
  rw [h.pairs_eq]
  unfold DataNode.firstKey
  rw [hrange]
  exact h.firstFilledKey T.max _ (fun i hi => by
    rw [List.mem_range'_1] at hi
    omega)

/-- The largest key, or the limit. -/
theorem Holds.lastKey (h : Holds T n v k) :
    n.lastKey T = some ((n.pairs.getLast?.map Prod.fst).getD T.lowest) := by
  have hrange : List.range n.dataCapacity = List.range' 0 (v.cap - 0) := by
    rw [h.reps.cap, Nat.sub_zero, List.range_eq_range']
  rw [h.pairs_eq]
  unfold DataNode.lastKey
  rw [hrange, h.firstFilledKey T.lowest _ (fun i hi => by
    rw [List.mem_reverse, List.mem_range'_1] at hi
    omega), List.filterMap_reverse, List.head?_reverse]
  rfl

theorem Stores.firstKey (h : Stores T n) :
    n.firstKey T = some ((n.pairs.head?.map Prod.fst).getD T.max) := by
  obtain ⟨v, k, hh⟩ := h.holds
  exact hh.firstKey

theorem Stores.lastKey (h : Stores T n) :
    n.lastKey T = some ((n.pairs.getLast?.map Prod.fst).getD T.lowest) := by
  obtain ⟨v, k, hh⟩ := h.holds
  exact hh.lastKey

/-! ### Lookups -/

variable [NodeModel M]

theorem Stores.findPayload (h : Stores T n) (hl : isSet n.lock = false) {key : ℤ}
    (hkey : key < T.max) :
    ∃ r a b, n.findPayload key = some (some r, n.withCounters a b) ∧
      ∀ p, r = some p ↔ (key, p) ∈ n.pairs := by
  obtain ⟨v, k, hh⟩ := h.holds
  obtain ⟨r, a, b, hf, hsome, hnone⟩ := hh.findPayload hl hkey
  refine ⟨r, a, b, hf, fun p => ?_⟩
  rw [hh.pairs_eq]
  refine ⟨hsome p, fun hp => ?_⟩
  cases r with
  | none => exact absurd rfl (hnone rfl _ hp)
  | some q =>
      have hq := hsome q rfl
      rw [← hh.pairs_eq] at hp hq
      have := h.eq_of_key hp hq rfl
      rw [(Prod.mk.inj this).2]

theorem Stores.update (h : Stores T n) (hr : Room n) (hl : isSet n.lock = false) {key : ℤ}
    (hkey : key < T.max) (payload : P) :
    ∃ r n', n.update key payload = some (some r, n') ∧ Stores T n' ∧ Room n' ∧
      n'.lock = n.lock + 1#32 ∧ SamePlace n' n ∧
      ((r = false ∧ n'.pairs = n.pairs ∧ ∀ x ∈ n.pairs, x.1 ≠ key) ∨
        (r = true ∧ ∃ A p B, n.pairs = A ++ (key, p) :: B ∧
          n'.pairs = A ++ (key, payload) :: B)) := by
  obtain ⟨v, k, hh⟩ := h.holds
  obtain ⟨r, n', v', hu, hh', hcap, hlock, hplace, hthr, _, hcases⟩ := hh.update hl hkey payload
  have hdc : n'.dataCapacity = n.dataCapacity := by rw [hh'.reps.cap, hcap, hh.reps.cap]
  have hsorted := h.sorted
  rw [hh.pairs_eq] at hsorted
  rw [hh.pairs_eq]
  rcases hcases with ⟨hr', rfl, hne⟩ | ⟨hr', A, p, B, hA, hB⟩
  · refine ⟨r, n', hu, ⟨⟨v', k, hh'⟩, ?_⟩, hr.congr ?_ hthr hdc, hlock, hplace,
      Or.inl ⟨hr', hh'.pairs_eq, hne⟩⟩
    · rw [hh'.pairs_eq]
      exact hsorted
    · rw [hh'.count, hh.count]
  · refine ⟨r, n', hu, ⟨⟨v', k, hh'⟩, ?_⟩, hr.congr ?_ hthr hdc, hlock, hplace,
      Or.inr ⟨hr', A, p, B, hA, hh'.pairs_eq.trans hB⟩⟩
    · rw [hh'.pairs_eq, hB]
      rw [hA] at hsorted
      rw [List.pairwise_append, List.pairwise_cons] at hsorted ⊢
      refine ⟨hsorted.1, hsorted.2.1, fun a ha y hy => ?_⟩
      rcases List.mem_cons.mp hy with rfl | hy
      · exact hsorted.2.2 a ha (key, p) (List.mem_cons_self ..)
      · exact hsorted.2.2 a ha y (List.mem_cons_of_mem _ hy)
    · rw [hh'.count, hh.count, hA, hB]
      simp

theorem Stores.erase (h : Stores T n) (hr : Room n) (hl : isSet n.lock = false) (key : ℤ) :
    ∃ d n', n.erase T key = some (some d, n') ∧ Stores T n' ∧ Room n' ∧
      n'.lock = n.lock + 1#32 ∧ SamePlace n' n ∧
      d = (n.pairs.filter (fun x => decide (x.1 = key))).length ∧
      n'.pairs = n.pairs.filter (fun x => decide (x.1 ≠ key)) := by
  obtain ⟨v, k, hh⟩ := h.holds
  obtain ⟨d, n', v', k', he, hh', hcap, hd, hents, hlock, hplace, hthr, _⟩ := hh.erase hl key
  have hdc : n'.dataCapacity = n.dataCapacity := by rw [hh'.reps.cap, hcap, hh.reps.cap]
  have hle : n'.numKeys ≤ n.numKeys := by
    rw [hh'.count, hh.count, hents]
    exact List.length_filter_le _ _
  refine ⟨d, n', he, ⟨⟨v', k', hh'⟩, ?_⟩, ⟨?_, ?_, ?_⟩, hlock, hplace, ?_, ?_⟩
  · rw [hh'.pairs_eq, hents, ← hh.pairs_eq]
    exact h.sorted.filter _
  · have h1 := hr.lt
    have h2 : (n'.numKeys : ℚ) ≤ n.numKeys := by exact_mod_cast hle
    rw [hthr]
    linarith
  · rw [hthr]
    exact hr.pos
  · rw [hthr, hdc]
    exact hr.le
  · rw [hd, hh.pairs_eq]
  · rw [hh'.pairs_eq, hents, hh.pairs_eq]

/-! ### Inserts -/

/-- The flags with which an insert leaves the node locked and over its threshold. -/
def NeedsWork (fail : ℤ) : Prop := fail = 1 ∨ fail = 2 ∨ fail = 3 ∨ fail = 5

theorem Stores.insert (h : Stores T n) (hr : Room n) (hl : isSet n.lock = false) {key : ℤ}
    (hkey : key < T.max) (payload : P) :
    ((∃ x ∈ n.pairs, x.1 = key) ∧ ∃ n' i, n.insert false key payload = some (n', -1, i) ∧
        Stores T n' ∧ Room n' ∧ n'.pairs = n.pairs ∧ SamePlace n' n ∧ n'.lock = n.lock + 1#32) ∨
      ((∀ x ∈ n.pairs, x.1 ≠ key) ∧ ∃ n' fail i A B,
        n.insert false key payload = some (n', fail, i) ∧ Stores T n' ∧ n.pairs = A ++ B ∧
        n'.pairs = A ++ (key, payload) :: B ∧ SamePlace n' n ∧
        ((fail = 0 ∧ Room n' ∧ n'.lock = n.lock + 1#32) ∨
          (NeedsWork fail ∧ n'.lock = n.lock ||| lockSet))) := by
  obtain ⟨v, k, hh⟩ := h.holds
  rcases hh.insert false hl hr.lt_capacity hkey payload with
    ⟨_, hdup, i, b, hins⟩ | ⟨hnew, n', pos, v', k', A, B, hins, hh', hcap, hA, hB, hnum, hlock,
      hplace, hthr, _⟩
  · left
    rw [hh.pairs_eq]
    refine ⟨hdup, _, i, hins, h.congr rfl rfl, hr.congr rfl rfl rfl, ?_,
      ⟨rfl, rfl, rfl, rfl, rfl, rfl, rfl, rfl, rfl⟩, rfl⟩
    rw [← hh.pairs_eq]
    exact pairs_congr rfl
  · right
    have hne : ∀ x ∈ v.entries, x.1 ≠ key := by
      rcases hnew with hnew | hnew
      · exact absurd hnew (by simp)
      · exact hnew
    have hs : Stores T n' := by
      refine ⟨⟨v', k', hh'⟩, ?_⟩
      have hs' := hh'.gapped.entries_sorted
      have hs0 := h.sorted
      rw [hh.pairs_eq, hA] at hs0
      rw [hh'.pairs_eq, hB]
      rw [hB] at hs'
      rw [hA] at hne
      exact sorted_insert hs0 hs' hne
    have hdc : n'.dataCapacity = n.dataCapacity := by rw [hh'.reps.cap, hcap, hh.reps.cap]
    rw [hh.pairs_eq]
    refine ⟨hne, ?_⟩
    rcases insertVerdict_cases n' pos with ⟨hv, hlt⟩ | ⟨code, hcode, hv⟩
    · have hrel : SamePlace n'.releaseLock n' := ⟨rfl, rfl, rfl, rfl, rfl, rfl, rfl, rfl, rfl⟩
      refine ⟨n'.releaseLock, 0, pos, A, B, by rw [hins, hv], hs.congr rfl rfl, hA, ?_,
        hrel.trans hplace, Or.inl ⟨rfl, ⟨hlt, ?_, ?_⟩, ?_⟩⟩
      · rw [← hB, ← hh'.pairs_eq]
        exact pairs_congr rfl
      · show (1 : ℚ) ≤ n'.expansionThreshold
        rw [hthr]
        exact hr.pos
      · show n'.expansionThreshold ≤ n'.dataCapacity
        rw [hthr, hdc]
        exact hr.le
      · show n'.lock + 1#32 - lockSet = _
        rw [hlock, release_acquire hl]
    · exact ⟨n', code, -1, A, B, by rw [hins, hv], hs, hA, by rw [hh'.pairs_eq, hB], hplace,
        Or.inr ⟨hcode, hlock⟩⟩

/-! ### Rebuilding -/

theorem Stores.resizeFromExisting (h : Stores T n) (hne : n.pairs ≠ []) (density : ℚ)
    (forceRetrain keepLeft keepRight : Bool) :
    ∃ n', n.newFromExisting.resizeFromExisting T n density forceRetrain keepLeft keepRight =
        some n' ∧ Stores T n' ∧ n'.pairs = n.pairs ∧ Room n' ∧ SamePlace n' n.newFromExisting ∧
      n'.lock = n.lock := by
  obtain ⟨v, k, hh⟩ := h.holds
  have h0 : n.numKeys ≠ 0 := by
    rw [h.numKeys]
    exact fun h => hne (List.length_eq_zero_iff.mp h)
  obtain ⟨n', v', k', he, hh', hents, hroom, hplace, hlock⟩ :=
    hh.resizeFromExisting h0 density forceRetrain keepLeft keepRight
  have hp : n'.pairs = n.pairs := by rw [hh'.pairs_eq, hents, hh.pairs_eq]
  exact ⟨n', he, ⟨⟨v', k', hh'⟩, hp ▸ h.sorted⟩, hp, hroom, hplace, hlock⟩

end DataNode

end LearnedIndex.Alexol
