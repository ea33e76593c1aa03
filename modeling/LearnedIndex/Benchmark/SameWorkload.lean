import LearnedIndex.Benchmark.Freshness

/-! # The same workload for every index

`run_benchmark` prepares the keys and the operations once and then runs every pair of an index type
and a thread count on them.  A run gives its index the bulk-load array, the operations and the keys
of the warm-up loop (`givenOf`), and it leaves everything but the array `keys` as it was.

The dataset statistics sort `keys`, and the warm-up loop of the next run reads its keys from the
sorted array.  So all runs are given the same exactly when no run but the last moves the keys of the
warm-up loop (`Unmoved`). -/

namespace LearnedIndex.Benchmark

open LearnedIndex.Ranges LearnedIndex.Alexol

variable {K : Type} [LinearOrder K]

/-- The keys that the warm-up loop reads. -/
def State.warmUpKeys (s : State K) : List K := slice s.keys s.initTableSize s.insertEnd

/-- What a run in state `s` gives its index. -/
def givenOf (c : Params) (s : State K) : Given K where
  bulkLoad := s.initKeyValues
  operations := s.operations.take s.operationsNum
  puts := if c.workloadShiftTest then s.warmUpKeys else []

/-- The statistics of a run change the keys that the warm-up loop of the next run reads. -/
def MovesWarmUp (c : Params) (s : State K) : Prop :=
  c.workloadShiftTest = true ∧ c.datasetStatistic = true ∧
    ∃ keys, statisticKeys c s = some keys ∧ State.warmUpKeys { s with keys := keys } ≠ s.warmUpKeys

/-- None of the next `n` runs moves the keys of the warm-up loop. -/
def Unmoved (c : Params) : ℕ → State K → Prop
  | 0, _ => True
  | n + 1, s => ¬ MovesWarmUp c s ∧
      ∀ keys, statisticKeys c s = some keys → Unmoved c n { s with keys := keys }

/-! ### One run -/

theorem mem_of_mapM {α β : Type} {f : α → Option β} : ∀ {l : List α} {bs : List β},
    l.mapM f = some bs → ∀ b ∈ bs, ∃ a ∈ l, f a = some b
  | [], _, h, b, hb => by
      obtain rfl : [] = _ := Option.some.inj h
      cases hb
  | a :: l, _, h, b, hb => by
      rw [List.mapM_cons] at h
      obtain ⟨x, hx, h⟩ := Option.bind_eq_some_iff.mp h
      obtain ⟨xs, hxs, h⟩ := Option.bind_eq_some_iff.mp h
      obtain rfl : x :: xs = _ := Option.some.inj h
      rcases List.mem_cons.mp hb with rfl | hb
      · exact ⟨a, List.mem_cons_self .., hx⟩
      · obtain ⟨a', ha', hfa⟩ := mem_of_mapM hxs b hb
        exact ⟨a', List.mem_cons_of_mem a ha', hfa⟩

omit [LinearOrder K] in
theorem warmUpIteration_puts {s : State K} {rejected : Rejected} {i : ℕ} {calls : List (Call K)}
    (h : warmUpIteration s rejected i = some calls) :
    ∃ key, s.keys[i]? = some key ∧ calls.filterMap Call.putKey = [key] := by
  unfold warmUpIteration at h
  obtain ⟨gets, hgets, h⟩ := Option.bind_eq_some_iff.mp h
  obtain ⟨key, hkey, h⟩ := Option.bind_eq_some_iff.mp h
  cases h
  have hnone : ∀ call ∈ gets, call.putKey = none := by
    intro call hcall
    obtain ⟨r, _, hr⟩ := mem_of_mapM hgets call hcall
    obtain ⟨k, _, hk⟩ := Option.bind_eq_some_iff.mp hr
    cases hk
    rfl
  refine ⟨key, hkey, ?_⟩
  rw [List.filterMap_append, List.filterMap_eq_nil_iff.mpr hnone]
  rfl

omit [LinearOrder K] in
theorem warmUpLoop_puts {s : State K} {rejected : Rejected} : ∀ (n i : ℕ)
    {calls : List (List (Call K))},
    (List.range' i n).mapM (warmUpIteration s rejected) = some calls →
    calls.flatten.filterMap Call.putKey = slice s.keys i (i + n)
  | 0, i, calls, h => by
      obtain rfl : [] = calls := Option.some.inj h
      rw [Nat.add_zero, slice_self]
      rfl
  | n + 1, i, calls, h => by
      rw [List.range'_succ, List.mapM_cons] at h
      obtain ⟨first, hfirst, h⟩ := Option.bind_eq_some_iff.mp h
      obtain ⟨rest, hrest, h⟩ := Option.bind_eq_some_iff.mp h
      obtain rfl : first :: rest = calls := Option.some.inj h
      obtain ⟨key, hkey, hput⟩ := warmUpIteration_puts hfirst
      rw [List.flatten_cons, List.filterMap_append, hput, warmUpLoop_puts n (i + 1) hrest,
        slice_cons hkey (by omega), List.singleton_append, Nat.add_assoc, Nat.add_comm 1 n]

omit [LinearOrder K] in
theorem warmUpCalls_puts {c : Params} {s : State K} {rejected : Rejected} {calls : List (Call K)}
    (h : warmUpCalls c s rejected = some calls) :
    calls.filterMap Call.putKey = (givenOf c s).puts := by
  unfold warmUpCalls at h
  unfold givenOf
  split at h
  · rename_i hw
    unfold warmUp at h
    obtain ⟨_, _, h⟩ := Option.bind_eq_some_iff.mp h
    obtain ⟨calls', hcalls, h⟩ := Option.bind_eq_some_iff.mp h
    cases h
    have hend : s.initTableSize + (s.insertEnd - s.initTableSize) = s.insertEnd := by
      unfold State.insertEnd
      omega
    rw [warmUpLoop_puts _ _ hcalls, hend, if_pos hw]
    rfl
  · rename_i hw
    cases h
    rw [if_neg hw]
    rfl

/-- A run gives its index what the state holds, and only the array `keys` changes. -/
theorem run_spec {c : Params} {s s' : State K} {rejected : Rejected} {given : Given K}
    (h : run c s rejected = some (given, s')) :
    given = givenOf c s ∧ ∃ keys, statisticKeys c s = some keys ∧ s' = { s with keys := keys } := by
  unfold run at h
  obtain ⟨calls, hcalls, h⟩ := Option.bind_eq_some_iff.mp h
  obtain ⟨keys, hkeys, h⟩ := Option.bind_eq_some_iff.mp h
  cases h
  refine ⟨?_, keys, hkeys, rfl⟩
  rw [warmUpCalls_puts hcalls]
  rfl

/-- The next run is given the same unless this one moves the keys of the warm-up loop. -/
theorem givenOf_eq_iff {c : Params} {s : State K} {keys : List K}
    (hkeys : statisticKeys c s = some keys) :
    givenOf c s = givenOf c { s with keys := keys } ↔ ¬ MovesWarmUp c s := by
  have hputs : givenOf c s = givenOf c { s with keys := keys } ↔
      (givenOf c s).puts = (givenOf c { s with keys := keys }).puts := by
    refine ⟨fun h => congrArg Given.puts h, fun h => ?_⟩
    unfold givenOf at h ⊢
    simp only at h
    rw [h]
  rw [hputs]
  unfold givenOf MovesWarmUp
  simp only
  cases hw : c.workloadShiftTest with
  | false => simp
  | true =>
      cases hs : c.datasetStatistic with
      | false =>
          obtain rfl : s.keys = keys := by
            unfold statisticKeys at hkeys
            rw [if_neg (by simp [hs])] at hkeys
            exact Option.some.inj hkeys
          simp
      | true =>
          simp only [if_true, true_and, not_exists, not_and, not_not]
          refine ⟨fun h keys' hkeys' => ?_, fun h => (h keys hkeys).symm⟩
          obtain rfl : keys = keys' := Option.some.inj (hkeys.symm.trans hkeys')
          exact h.symm

/-! ### All runs -/

theorem runPairs_head {I : Type} {c : Params} {s : State K} {pair : (I × ℕ) × Rejected}
    {pairs : List ((I × ℕ) × Rejected)} {gs : List (Given K)}
    (h : runPairs c s (pair :: pairs) = some gs) :
    ∃ keys rest, statisticKeys c s = some keys ∧ gs = givenOf c s :: rest ∧
      runPairs c { s with keys := keys } pairs = some rest := by
  unfold runPairs at h
  obtain ⟨⟨given, s'⟩, hrun, h⟩ := Option.bind_eq_some_iff.mp h
  obtain ⟨rest, hrest, h⟩ := Option.bind_eq_some_iff.mp h
  cases h
  obtain ⟨rfl, keys, hkeys, rfl⟩ := run_spec hrun
  exact ⟨keys, rest, hkeys, rfl, hrest⟩

/-- All runs are given the same exactly when no run but the last moves the warm-up keys. -/
theorem runPairs_same_iff {I : Type} {c : Params} : ∀ (pairs : List ((I × ℕ) × Rejected))
    {s : State K} {gs : List (Given K)}, runPairs c s pairs = some gs →
    ((∀ a ∈ gs, ∀ b ∈ gs, a = b) ↔ Unmoved c (pairs.length - 1) s)
  | [], s, gs, h => by
      obtain rfl : [] = gs := Option.some.inj h
      simp [Unmoved]
  | [pair], s, gs, h => by
      obtain ⟨keys, rest, _, rfl, hrest⟩ := runPairs_head h
      obtain rfl : [] = rest := Option.some.inj hrest
      simp [Unmoved]
  | pair :: pair' :: pairs, s, gs, h => by
      obtain ⟨keys, rest, hkeys, rfl, hrest⟩ := runPairs_head h
      have ih := runPairs_same_iff (pair' :: pairs) hrest
      obtain ⟨_, rest', _, rfl, _⟩ := runPairs_head hrest
      have hlen : (pair :: pair' :: pairs).length - 1 = ((pair' :: pairs).length - 1) + 1 := rfl
      rw [hlen, Unmoved, ← givenOf_eq_iff hkeys]
      constructor
      · intro hall
        refine ⟨hall _ (List.mem_cons_self ..) _
          (List.mem_cons_of_mem _ (List.mem_cons_self ..)), fun keys' hkeys' => ?_⟩
        obtain rfl : keys = keys' := Option.some.inj (hkeys.symm.trans hkeys')
        exact ih.mp (fun a ha b hb =>
          hall a (List.mem_cons_of_mem _ ha) b (List.mem_cons_of_mem _ hb))
      · rintro ⟨heq, hun⟩
        have hrest' := ih.mpr (hun keys hkeys)
        have hhead : ∀ a ∈ givenOf c s :: givenOf c { s with keys := keys } :: rest',
            a = givenOf c { s with keys := keys } := by
          intro a ha
          rcases List.mem_cons.mp ha with rfl | ha
          · exact heq
          · exact hrest' a ha _ (List.mem_cons_self ..)
        intro a ha b hb
        rw [hhead a ha, hhead b hb]

/-- The state in which the loop over the pairs begins. -/
def prepared (c : Params) (d : Draws K) (file : List K) : Option (State K) :=
  (loadKeys c d file).bind (generateOperations c d)

/-- In a completed benchmark every pair is given the same bulk-load array, operations and warm-up
keys exactly when no run but the last moves the keys of the warm-up loop. -/
theorem runBenchmark_same_iff {I : Type} {c : Params} {d : Draws K} {file : List K}
    {allIndexType : List I} {allThreadNum : List ℕ} {rejected : ℕ → Rejected}
    {gs : List (Given K)} {s : State K} (hs : prepared c d file = some s)
    (hrun : runBenchmark c d file allIndexType allThreadNum rejected = some gs) :
    (∀ a ∈ gs, ∀ b ∈ gs, a = b) ↔
      Unmoved c (allIndexType.length * allThreadNum.length - 1) s := by
  unfold runBenchmark at hrun
  obtain ⟨s₀, hload, hrun⟩ := Option.bind_eq_some_iff.mp hrun
  obtain ⟨s', hgen, hrun⟩ := Option.bind_eq_some_iff.mp hrun
  obtain rfl : s' = s := by
    unfold prepared at hs
    rw [hload, Option.bind_some, hgen] at hs
    exact Option.some.inj hs
  have hiff := runPairs_same_iff _ hrun
  rw [List.length_zip, List.length_map, List.length_range, Nat.min_self] at hiff
  rw [hiff]
  congr! 2
  rw [List.length_flatMap]
  simp

/-- The keys that are not bulk loaded stand in decreasing order. -/
def reversingDraws : Draws ℕ :=
  { plainDraws with randomShuffle := ⟨List.reverse, List.reverse_perm⟩ }

/-- Two indexes, the dataset statistics and a warm-up loop over one of three keys. -/
theorem exists_runs_differ : ∃ gs, runBenchmark (readInsert (1 / 3) true true) reversingDraws
    [10, 20, 30, 40, 50, 60] [0, 1] [1] (fun _ _ => []) = some gs ∧
      ¬ ∀ a ∈ gs, ∀ b ∈ gs, a = b := by
  have h : (runBenchmark (readInsert (1 / 3) true true) reversingDraws
      [10, 20, 30, 40, 50, 60] [0, 1] [1] (fun _ _ => [])).any
      (fun gs => decide (¬ ∀ a ∈ gs, ∀ b ∈ gs, a = b)) = true := by decide +kernel
  obtain ⟨gs, hgs, hne⟩ := (Option.any_eq_true _ _).mp h
  exact ⟨gs, hgs, of_decide_eq_true hne⟩

/-- Without the statistics the two indexes are given the same. -/
theorem runs_same_without_statistic : ∃ gs, runBenchmark (readInsert (1 / 3) true false)
    reversingDraws [10, 20, 30, 40, 50, 60] [0, 1] [1] (fun _ _ => []) = some gs ∧
      ∀ a ∈ gs, ∀ b ∈ gs, a = b := by
  obtain ⟨gs, hgs⟩ :=
    Option.isSome_iff_exists.mp (show (runBenchmark (readInsert (1 / 3) true false)
    reversingDraws [10, 20, 30, 40, 50, 60] [0, 1] [1] (fun _ _ => [])).isSome = true by
      decide +kernel)
  obtain ⟨s, hs⟩ := Option.isSome_iff_exists.mp (show (prepared (readInsert (1 / 3) true false)
    reversingDraws [10, 20, 30, 40, 50, 60]).isSome = true by decide +kernel)
  refine ⟨gs, hgs, (runBenchmark_same_iff hs hgs).mpr ⟨fun h => ?_, fun _ _ => trivial⟩⟩
  exact absurd h.2.1 (by decide)

end LearnedIndex.Benchmark
