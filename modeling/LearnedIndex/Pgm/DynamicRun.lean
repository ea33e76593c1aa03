import LearnedIndex.Pgm.DynamicInsert

/-! # The dynamic PGM index as a map

The most recent event of a key among the calls says what `get` returns (`calls_keep_map`), as long
as every call keeps to `StepOK`.  The insert of an item whose key is in the sorted buffer with
another value returns early and loses the event (`put_keeps_old_value`), although the container
documents that the value is updated. -/

namespace LearnedIndex.Pgm

open LearnedIndex.Runs DynamicPGMIndex

variable {K V PGM : Type} [LinearOrder K] [PgmType K PGM] (tombstone : V)

/-! ### Loading -/

/-- The item of the first pair with a key. -/
def firstPair (values : List (K × V)) (key : K) : Option (Item K V) :=
  (values.find? (fun x => decide (x.1 = key))).map (fun x => ⟨x.1, x.2⟩)

theorem firstPair_cons (x : K × V) (values : List (K × V)) (key : K) :
    firstPair (x :: values) key = if x.1 = key then some ⟨x.1, x.2⟩ else firstPair values key := by
  unfold firstPair
  rw [List.find?_cons]
  by_cases h : x.1 = key
  · rw [if_pos h, decide_eq_true h]
    rfl
  · rw [if_neg h, decide_eq_false h]

/-- The pairs of a sorted array with values that are not reserved. -/
structure Loadable (values : List (K × V)) : Prop where
  sorted : values.Pairwise (fun x y => x.1 ≤ y.1)
  values : ∀ x ∈ values, x.2 ≠ tombstone

variable {tombstone}

theorem Loadable.tail {x : K × V} {values : List (K × V)}
    (h : Loadable tombstone (x :: values)) : Loadable tombstone values :=
  ⟨(List.pairwise_cons.mp h.sorted).2, fun y hy => h.values y (List.mem_cons_of_mem _ hy)⟩

variable [DecidableEq V]

theorem copyFirsts_spec : ∀ (values : List (K × V)) (out : List (Item K V)) (last : Item K V),
    Loadable tombstone values → (∀ x ∈ values, last.first ≤ x.1) → Run Item.first (out ++ [last]) →
    ∃ target, copyFirsts tombstone out last values = some target ∧ Run Item.first target ∧
      target.length ≤ out.length + 1 + values.length ∧
      ∀ key, Runs.lookup Item.first target key =
        (Runs.lookup Item.first (out ++ [last]) key).or (firstPair values key)
  | [], out, last, _, _, hrun => by
      refine ⟨out ++ [last], rfl, hrun, by rw [List.length_append]; simp, fun key => ?_⟩
      rw [firstPair, List.find?_nil, Option.map_none, Option.or_none]
  | x :: values, out, last, hload, hle, hrun => by
      have hx := hle x (List.mem_cons_self ..)
      have hsorted := (List.pairwise_cons.mp hload.sorted).1
      unfold copyFirsts
      rw [if_neg (not_lt.mpr hx)]
      by_cases heq : x.1 = last.first
      · -- a further pair of the last key is skipped
        obtain ⟨target, ht, hr, hlen, hlook⟩ := copyFirsts_spec values out last hload.tail
          (fun y hy => hle y (List.mem_cons_of_mem _ hy)) hrun
        rw [if_pos heq, ht]
        refine ⟨target, rfl, hr, by rw [List.length_cons]; omega, fun key => ?_⟩
        rw [hlook key, firstPair_cons]
        by_cases hk : x.1 = key
        · have hlast : Runs.lookup Item.first (out ++ [last]) key ≠ none := by
            intro hnone
            exact lookup_eq_none.mp hnone last (by simp) (heq.symm.trans hk)
          obtain ⟨y, hy⟩ := Option.ne_none_iff_exists'.mp hlast
          rw [hy, Option.some_or, Option.some_or]
        · rw [if_neg hk]
      · have hlt : last.first < x.1 := lt_of_le_of_ne hx (Ne.symm heq)
        have hrun' : Run Item.first ((out ++ [last]) ++ [(⟨x.1, x.2⟩ : Item K V)]) := by
          refine List.pairwise_append.mpr ⟨hrun, List.pairwise_singleton _ _, fun a ha b hb => ?_⟩
          rw [List.mem_singleton.mp hb]
          rcases List.mem_append.mp ha with ha | ha
          · exact lt_trans ((List.pairwise_append.mp hrun).2.2 a ha last (by simp)) hlt
          · rw [List.mem_singleton.mp ha]
            exact hlt
        obtain ⟨target, ht, hr, hlen, hlook⟩ := copyFirsts_spec values (out ++ [last]) ⟨x.1, x.2⟩
          hload.tail hsorted hrun'
        have hpair : Item.ofPair tombstone x.1 x.2 = some ⟨x.1, x.2⟩ :=
          if_neg (hload.values x (List.mem_cons_self ..))
        rw [if_neg heq, hpair, Option.bind_eq_bind, Option.bind_some, ht]
        refine ⟨target, rfl, hr, ?_, fun key => ?_⟩
        · rw [List.length_append, List.length_singleton] at hlen
          rw [List.length_cons]
          omega
        · rw [hlook key, lookup_append _ [_], firstPair_cons, lookup_cons, lookup_nil,
            Option.or_assoc]
          split <;> simp

omit [DecidableEq V] in
/-- A container of empty levels but one. -/
theorem single_level_inv (levels used q : ℕ) {target : List (Item K V)} {ps : List PGM}
    (hu : minLevel ≤ used) (hq : q < used - minLevel) (hl : used < levels + minLevel)
    (hl2 : 1 < levels) (hp : used ≤ ps.length + minIndexedLevel)
    (hrun : Run Item.first target) (hbuf : q = 0 → target.length ≤ bufferMaxSize)
    (hsize : target.length ≤ 2 ^ (q + minLevel)) (hbuilt : minIndexedLevel ≤ q + minLevel →
      ps[q + minLevel - minIndexedLevel]? = some (PgmType.build (target.map Item.first))) :
    Inv ⟨used, (List.replicate levels []).set q target, ps⟩ ∧
      ∀ key, lookup ⟨used, (List.replicate levels []).set q target, ps⟩ key =
        Runs.lookup Item.first target key := by
  have hcases : ∀ (p : ℕ) (l : List (Item K V)),
      ((List.replicate levels []).set q target)[p]? = some l → (p = q ∧ l = target) ∨ l = [] := by
    intro p l hl
    rw [List.getElem?_set, List.length_replicate] at hl
    split at hl
    · rw [if_pos (by omega)] at hl
      exact Or.inl ⟨Eq.symm (by assumption), (Option.some.inj hl).symm⟩
    · exact Or.inr (List.eq_of_mem_replicate (List.mem_of_getElem? hl))
  have hlen : ((List.replicate levels ([] : List (Item K V))).set q target).length = levels := by
    rw [List.length_set, List.length_replicate]
  refine ⟨⟨hu, ?_, ?_, fun l hl => ?_, fun p l hl hp => ?_, fun l hl => ?_, fun p l hl => ?_,
    hp, fun p l hl hne hp => ?_⟩, fun key => ?_⟩
  · dsimp only
    rw [hlen]
    exact hl
  · dsimp only
    rw [hlen]
    exact hl2
  · obtain ⟨p, hp⟩ := List.mem_iff_getElem?.mp hl
    rcases hcases p l hp with ⟨_, rfl⟩ | rfl
    · exact hrun
    · exact List.Pairwise.nil
  · dsimp only at hp
    rcases hcases p l hl with ⟨rfl, _⟩ | rfl
    · omega
    · rfl
  · rcases hcases 0 l hl with ⟨hq0, rfl⟩ | rfl
    · exact hbuf hq0.symm
    · exact Nat.zero_le _
  · rcases hcases (p + 1) l hl with ⟨rfl, rfl⟩ | rfl
    · exact hsize
    · exact Nat.zero_le _
  · rcases hcases p l hl with ⟨rfl, rfl⟩ | rfl
    · exact hbuilt hp
    · exact absurd rfl hne
  · refine lookupAll_single (i := q) ?_ (fun j l hj hl => ?_) key
    · rw [List.getElem?_set, if_pos rfl, List.length_replicate, if_pos (by omega)]
    · rcases hcases j l hl with ⟨hjq, _⟩ | rfl
      · exact absurd hjq hj
      · rfl

/-- The container over a range holds the first pair of each key. -/
theorem ofRange_spec {values : List (K × V)} (h : Loadable tombstone values) :
    ∃ d : DynamicPGMIndex K V PGM, ofRange tombstone values = some d ∧ Inv d ∧
      ∀ key, d.lookup key = firstPair values key := by
  cases values with
  | nil =>
      refine ⟨_, rfl, ⟨le_refl _, ?_, ?_, fun l hl => ?_, fun p l hl hp => ?_, fun l hl => ?_,
        fun p l hl => ?_, ?_, fun p l hl hne hp => ?_⟩, fun key => ?_⟩
      · dsimp only
        rw [List.length_replicate]
        omega
      · dsimp only
        rw [List.length_replicate]
        have : minLevel = 6 := rfl
        omega
      · rw [List.eq_of_mem_replicate hl]
        exact List.Pairwise.nil
      · exact List.eq_of_mem_replicate (List.mem_of_getElem? hl)
      · rw [List.eq_of_mem_replicate (List.mem_of_getElem? hl)]
        exact Nat.zero_le _
      · rw [List.eq_of_mem_replicate (List.mem_of_getElem? hl)]
        exact Nat.zero_le _
      · exact Nat.le_add_left_of_le (show minLevel ≤ minIndexedLevel by decide)
      · exact absurd (List.eq_of_mem_replicate (List.mem_of_getElem? hl)) hne
      · exact lookupAll_of_empty (fun l hl => List.eq_of_mem_replicate hl) key
  | cons x rest =>
      have hsorted := (List.pairwise_cons.mp h.sorted).1
      have hpair : Item.ofPair tombstone x.1 x.2 = some ⟨x.1, x.2⟩ :=
        if_neg (h.values x (List.mem_cons_self ..))
      obtain ⟨target, ht, hrun, hlen, hlook⟩ := copyFirsts_spec rest [] ⟨x.1, x.2⟩ h.tail hsorted
        (List.pairwise_singleton _ _)
      rw [List.length_nil, Nat.zero_add, Nat.add_comm, ← List.length_cons (a := x)] at hlen
      obtain ⟨q, hq⟩ : ∃ q, max (ceilLog2 (x :: rest).length) minLevel = q + minLevel :=
        ⟨max (ceilLog2 (x :: rest).length) minLevel - minLevel, by omega⟩
      have hpow : (x :: rest).length ≤ 2 ^ (q + minLevel) :=
        (Nat.le_pow_clog (by decide) _).trans (Nat.pow_le_pow_right (by decide) (by
          unfold ceilLog2 at hq
          omega))
      have hset := setLevel_eq (⟨q + minLevel + 1, List.replicate (max (q + minLevel + 1) 32 -
        minLevel + 1) [], List.replicate (q + minLevel + 1 - minIndexedLevel) (PgmType.empty K)⟩ :
          DynamicPGMIndex K V PGM) (j := q) (by
            rw [List.length_replicate]
            omega) target
      obtain ⟨ps, hps, hpslen, hbuilt, _⟩ := setPgm_spec (⟨q + minLevel + 1, (List.replicate
        (max (q + minLevel + 1) 32 - minLevel + 1) []).set q target, List.replicate
        (q + minLevel + 1 - minIndexedLevel) (PgmType.empty K)⟩ : DynamicPGMIndex K V PGM)
        (i := q + minLevel) (by
          dsimp only
          rw [List.length_replicate]
          omega) (PgmType.build (target.map Item.first))
      dsimp only at hpslen
      rw [List.length_replicate] at hpslen
      have hmin : minLevel = 6 := rfl
      obtain ⟨hinv, hall⟩ := single_level_inv (max (q + minLevel + 1) 32 - minLevel + 1)
        (q + minLevel + 1) q (by omega) (by omega) (by omega) (by omega) (by omega) hrun
        (fun hq0 => (hlen.trans hpow).trans (by rw [hq0]; decide)) (hlen.trans hpow) hbuilt
      refine ⟨_, ?_, hinv, fun key => ?_⟩
      · unfold ofRange
        simp only [hq, hpair, ht, Option.bind_eq_bind, Option.bind_some, Nat.add_sub_cancel, hset,
          hps]
      · rw [hall key, hlook key, firstPair_cons, List.nil_append, lookup_cons, lookup_nil]
        split <;> simp

/-! ### The calls -/

/-- The event of a call for a key: a value, or `none` for a remove. -/
def Call.event (key : K) : Call K V → Option (Option V)
  | .bulkLoad keyValue => (firstPair keyValue key).map (fun x => some x.second)
  | .put k value => if k = key then some (some value) else none
  | .remove k => if k = key then some none else none

/-- The most recent event of a key. -/
def mostRecent (cs : List (Call K V)) (key : K) : Option (Option V) :=
  cs.reverse.findSome? (fun c => c.event key)

omit [DecidableEq V] in
theorem mostRecent_cons (c : Call K V) (cs : List (Call K V)) (key : K) :
    mostRecent (c :: cs) key = (mostRecent cs key).or (c.event key) := by
  unfold mostRecent
  rw [List.reverse_cons, List.findSome?_append, List.findSome?_singleton]

variable (tombstone)

/-- The call keeps the map: a load gives sorted pairs and every key that is present, and the item of
a write is accepted; its value is not the reserved one. -/
def StepOK (index : Option (DynamicPGMIndex K V PGM)) : Call K V → Prop
  | .bulkLoad keyValue => Loadable tombstone keyValue ∧
      ∀ key v, get tombstone index key = some (some v) → (firstPair keyValue key).isSome
  | .put key value => value ≠ tombstone ∧ ∃ d, index = some d ∧ d.accepts ⟨key, value⟩ = true
  | .remove key => ∃ d, index = some d ∧ d.accepts ⟨key, tombstone⟩ = true

/-- Every call of a sequence does. -/
def StepsOK (index : Option (DynamicPGMIndex K V PGM)) : List (Call K V) → Prop
  | [] => True
  | c :: cs => StepOK tombstone index c ∧
      ∀ index', c.run tombstone index = some index' → StepsOK index' cs

/-- The value that a key has. -/
def value (index : Option (DynamicPGMIndex K V PGM)) (key : K) : Option V :=
  (index.bind (fun d => d.lookup key)).bind
    (fun x => if x.deleted tombstone then none else some x.second)

theorem get_eq_value (hsearch : SearchContains K PGM) {d : DynamicPGMIndex K V PGM} (h : Inv d)
    (key : K) : get tombstone (some d) key = some (value tombstone (some d) key) :=
  find_spec hsearch h key

/-- An insert gives the key the value of its item. -/
theorem value_of_updated {d d' : DynamicPGMIndex K V PGM} {x : Item K V} (h : Updated d x d')
    (key : K) : value tombstone (some d') key =
      if x.first = key then (if x.deleted tombstone then none else some x.second)
      else value tombstone (some d) key := by
  unfold Pgm.value
  rw [Option.bind_some, Option.bind_some, h.2 key]
  by_cases hk : key = x.first
  · rw [if_pos hk, if_pos hk.symm, Option.bind_some]
  · rw [if_neg hk, if_neg (Ne.symm hk)]

/-- One call. -/
theorem StepOK.run (hsearch : SearchContains K PGM) {index : Option (DynamicPGMIndex K V PGM)}
    (hinv : ∀ d, index = some d → Inv d) {c : Call K V} (h : StepOK tombstone index c) :
    ∃ d, c.run tombstone index = some (some d) ∧ Inv d ∧
      ∀ key, value tombstone (some d) key = (c.event key).getD (value tombstone index key) := by
  cases c with
  | bulkLoad keyValue =>
      obtain ⟨hload, hkeys⟩ := h
      obtain ⟨d, hd, hinv', hlook⟩ : ∃ d : DynamicPGMIndex K V PGM, _ := ofRange_spec hload
      refine ⟨d, ?_, hinv', fun key => ?_⟩
      · unfold Call.run
        dsimp only
        rw [hd, Option.map_some]
      · have hvalue : value tombstone (some d) key = (firstPair keyValue key).bind
            (fun x => if x.deleted tombstone then none else some x.second) := by
          unfold value
          rw [Option.bind_some, hlook key]
        unfold Call.event
        dsimp only
        rw [hvalue]
        cases hf : firstPair keyValue key with
        | some x =>
            have hx : x.second ≠ tombstone := by
              obtain ⟨y, hy, rfl⟩ := Option.map_eq_some_iff.mp hf
              exact hload.values y (List.mem_of_find?_eq_some hy)
            rw [Option.bind_some, Item.deleted, decide_eq_false hx]
            rfl
        | none =>
            -- the key has no value before the load either
            rw [Option.bind_none, Option.map_none, Option.getD_none]
            cases hi : index with
            | none => rfl
            | some d₀ =>
                cases hv : value tombstone (some d₀) key with
                | none => rfl
                | some v =>
                    have := hkeys key v (by
                      rw [hi, get_eq_value tombstone hsearch (hinv d₀ hi), hv])
                    rw [hf] at this
                    cases this
  | put key v =>
      obtain ⟨hv, d, rfl, hok⟩ := h
      obtain ⟨b, d', hd', hup⟩ := insertItem_spec tombstone (hinv d rfl) hok
      refine ⟨d', ?_, hup.1, fun key' => ?_⟩
      · have hpair : Item.ofPair tombstone key v = some ⟨key, v⟩ := if_neg hv
        unfold Call.run DynamicPGMIndex.insert
        simp only [Option.bind_eq_bind, Option.bind_some, hpair, hd']
      · rw [value_of_updated tombstone hup key', Item.deleted, decide_eq_false hv]
        unfold Call.event
        dsimp only
        split <;> rfl
  | remove key =>
      obtain ⟨d, rfl, hok⟩ := h
      obtain ⟨b, d', hd', hup⟩ := insertItem_spec tombstone (hinv d rfl) hok
      refine ⟨d', ?_, hup.1, fun key' => ?_⟩
      · unfold Call.run DynamicPGMIndex.erase
        simp only [Option.bind_eq_bind, Option.bind_some, hd', Option.map_some]
      · rw [value_of_updated tombstone hup key', Item.deleted, decide_eq_true rfl]
        unfold Call.event
        dsimp only
        split <;> rfl

/-- The calls from any container on. -/
theorem StepsOK.run (hsearch : SearchContains K PGM) : ∀ (cs : List (Call K V))
    {index : Option (DynamicPGMIndex K V PGM)}, (∀ d, index = some d → Inv d) →
    StepsOK tombstone index cs → ∃ index', runCalls tombstone index cs = some index' ∧
      (∀ d, index' = some d → Inv d) ∧ (index'.isSome ∨ cs = []) ∧
      ∀ key, value tombstone index' key = (mostRecent cs key).getD (value tombstone index key)
  | [], index, hinv, _ => ⟨index, rfl, hinv, Or.inr rfl, fun _ => rfl⟩
  | c :: cs, index, hinv, ⟨hok, hoks⟩ => by
      obtain ⟨d, hd, hd', hval⟩ := hok.run tombstone hsearch hinv
      obtain ⟨index', hrun, hinv', hsome, hval'⟩ := StepsOK.run hsearch cs
        (fun d' h => Option.some.inj h ▸ hd') (hoks _ hd)
      refine ⟨index', ?_, hinv', ?_, fun key => ?_⟩
      · unfold runCalls
        rw [hd, Option.bind_eq_bind, Option.bind_some, hrun]
      · rcases hsome with hs | rfl
        · exact Or.inl hs
        · obtain rfl := Option.some.inj hrun
          exact Or.inl rfl
      · rw [hval' key, hval key, mostRecent_cons]
        cases mostRecent cs key <;> rfl

/-- **`get` returns the value of the most recent event**, after calls that keep the map. -/
theorem calls_keep_map (hsearch : SearchContains K PGM) (cs : List (Call K V)) (hne : cs ≠ [])
    (hok : StepsOK tombstone (none : Option (DynamicPGMIndex K V PGM)) cs) :
    ∃ index : Option (DynamicPGMIndex K V PGM), runCalls tombstone none cs = some index ∧
      ∀ key, get tombstone index key = some (mostRecent cs key).join := by
  obtain ⟨index, hrun, hinv, hsome, hval⟩ := StepsOK.run tombstone hsearch cs
    (fun d h => (by cases h)) hok
  refine ⟨index, hrun, fun key => ?_⟩
  cases hi : index with
  | none =>
      rw [hi] at hsome
      exact absurd (hsome.resolve_left (by simp)) hne
  | some d =>
      rw [get_eq_value tombstone hsearch (hinv d hi), ← hi, hval key]
      unfold value
      cases mostRecent cs key <;> rfl

/-- A static index that returns all positions. -/
structure WholeRange where
  size : ℕ

instance : PgmType K WholeRange where
  empty := ⟨0⟩
  build keys := ⟨keys.length⟩
  search p _ := (0, p.size)

theorem wholeRange_contains : SearchContains K WholeRange := by
  intro keys key _
  exact ⟨Nat.zero_le _, lowerBound_le keys key, le_refl _⟩

/-- One pair is loaded, a second is put and a third key is removed. -/
def freshCalls : List (Call ℕ ℕ) := [.bulkLoad [(1, 10)], .put 2 20, .remove 3]

theorem calls_keep_map_freshCalls :
    ∃ index : Option (DynamicPGMIndex ℕ ℕ WholeRange), runCalls 255 none freshCalls = some index ∧
      ∀ key, get 255 index key = some (mostRecent freshCalls key).join := by
  refine calls_keep_map 255 wholeRange_contains freshCalls (by decide) ?_
  refine ⟨⟨⟨by decide, by decide⟩, fun key v h => (by cases h)⟩, fun index h => ?_⟩
  obtain rfl := Option.some.inj h
  refine ⟨⟨by decide, _, rfl, by decide +kernel⟩, fun index h => ?_⟩
  obtain rfl := Option.some.inj h
  refine ⟨⟨_, rfl, by decide +kernel⟩, fun index h => ?_⟩
  trivial

/-- The second `put` of a key is lost while the first is in the buffer. -/
theorem put_keeps_old_value : SearchContains ℕ WholeRange ∧
    ∃ index : Option (DynamicPGMIndex ℕ ℕ WholeRange),
      runCalls 255 none [.bulkLoad [], .put 1 10, .put 1 20] = some index ∧
      get 255 index 1 = some (some 10) ∧
      mostRecent [Call.bulkLoad [], .put 1 10, .put 1 20] 1 = some (some 20) :=
  ⟨wholeRange_contains, _, rfl, by decide +kernel, by decide⟩

end LearnedIndex.Pgm
