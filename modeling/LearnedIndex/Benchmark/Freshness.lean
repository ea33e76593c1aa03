import LearnedIndex.Benchmark.UniqueData

/-! # Fresh keys in the workload

The keys that a workload inserts are new: those of the `INSERT` operations and those of the warm-up
loop are distinct and not bulk loaded, while the other operations use bulk-loaded keys.

The operations take their keys from one end of the rest of the table and the warm-up loop from the
other, with the same half-way point.  What can go wrong is an `int`: the loops over the bulk-loaded
keys and over the warm-up keys count with one, and the samplers take the number of bulk-loaded keys
as one (`SizesFit`).  With `2^31` keys all of them still work; with one more, `num_keys - 1` is
negative. -/

namespace LearnedIndex.Benchmark

open LearnedIndex.Ranges LearnedIndex.Alexol

variable {K : Type}

/-- The keys of the `INSERT` operations. -/
def insertKeys (ops : List (Operation × K)) : List K :=
  ops.filterMap (fun op => if op.1 = .insert then some op.2 else none)

theorem insertKeys_cons_of_ne {op : Operation × K} (h : op.1 ≠ .insert)
    (ops : List (Operation × K)) : insertKeys (op :: ops) = insertKeys ops := by
  unfold insertKeys
  exact List.filterMap_cons_none (if_neg h)

/-- A generated workload, and the keys put before it, insert new keys only. -/
structure Fresh (s : State K) (puts : List K) : Prop where
  distinct : (insertKeys s.operations ++ puts).Nodup
  fresh : ∀ k ∈ insertKeys s.operations ++ puts, k ∉ s.initKeys
  sampled : ∀ op ∈ s.operations, op.1 ≠ .insert → op.2 ∈ s.initKeys
  count : s.operations.length = s.operationsNum

/-! ### Sampling -/

theorem toInt_of_lt {n : ℕ} (h : n < 2 ^ 31) : toInt n = n := by
  unfold toInt
  exact Int.bmod_eq_of_le (by omega) (by omega)

/-- The largest position: for `2^31` keys the `int` is negative, and one less wraps around. -/
theorem toInt_pred {n : ℕ} (h0 : 0 < n) (h : n ≤ 2 ^ 31) : toInt (toInt n - 1) = n - 1 := by
  unfold toInt
  rw [Int.bmod_sub_bmod]
  exact Int.bmod_eq_of_le (by omega) (by omega)

/-- A sampled position lies in the array. -/
theorem samplePosition_spec (dist : SampleDistribution) {n : ℕ} (h0 : 0 < n) (h : n ≤ 2 ^ 31)
    (draw : ℕ) : ∃ pos, pos < n ∧ samplePosition dist (toInt n) draw = some (pos : ℤ) := by
  cases dist with
  | uniform =>
      refine ⟨draw % n, Nat.mod_lt _ h0, ?_⟩
      simp only [samplePosition, uniformInt, toInt_pred h0 h]
      rw [if_pos (by omega)]
      congr 1
      push_cast
      rw [Int.zero_add]
      congr 1
      ring
  | zipf =>
      have hn : (toInt n % 2 ^ 32).toNat = n := by
        unfold toInt
        rw [show (2 : ℤ) ^ 32 = ((2 ^ 32 : ℕ) : ℤ) by norm_num, Int.bmod_emod]
        omega
      have hlt : (fnv1a (BitVec.ofNat 32 draw)).toNat % n < n := Nat.mod_lt _ h0
      refine ⟨_, hlt, ?_⟩
      simp only [samplePosition, nextValue, hn]
      rw [if_neg (by omega), toInt_of_lt (by omega)]

theorem mapM_some_spec {α β : Type} {f : α → Option β} {p : β → Prop} : ∀ (l : List α),
    (∀ a ∈ l, ∃ b, f a = some b ∧ p b) →
    ∃ bs, l.mapM f = some bs ∧ bs.length = l.length ∧ ∀ b ∈ bs, p b
  | [], _ => ⟨[], rfl, rfl, by simp⟩
  | a :: l, h => by
      obtain ⟨b, hb, hpb⟩ := h a (List.mem_cons_self ..)
      obtain ⟨bs, hbs, hlen, hp⟩ := mapM_some_spec l (fun x hx => h x (List.mem_cons_of_mem a hx))
      refine ⟨b :: bs, ?_, by rw [List.length_cons, List.length_cons, hlen], fun x hx => ?_⟩
      · rw [List.mapM_cons, hb, hbs]
        rfl
      · rcases List.mem_cons.mp hx with rfl | hx
        · exact hpb
        · exact hp x hx

theorem getSearchKeys_spec (dist : SampleDistribution) (array : List K) (h0 : 0 < array.length)
    (h : array.length ≤ 2 ^ 31) (numSearches : ℕ) (draw : ℕ → ℕ) :
    ∃ sample, getSearchKeys dist array (toInt array.length) numSearches draw = some sample ∧
      sample.length = numSearches ∧ ∀ k ∈ sample, k ∈ array := by
  obtain ⟨sample, hs, hlen, hmem⟩ := mapM_some_spec (p := fun k => k ∈ array)
    (f := fun i => do
      let pos ← samplePosition dist (toInt array.length) (draw i)
      readAt array pos) (List.range numSearches) (fun i _ => by
        obtain ⟨pos, hpos, hsome⟩ := samplePosition_spec dist h0 h (draw i)
        refine ⟨array[pos], ?_, List.getElem_mem hpos⟩
        simp only [hsome, Option.bind_eq_bind, Option.bind_some, readAt]
        rw [if_neg (by omega), Int.toNat_natCast, List.getElem?_eq_getElem hpos])
  exact ⟨sample, hs, by rw [hlen, List.length_range], hmem⟩

/-! ### The operations -/

theorem select_ne_delete (r : Ratios) (p : ℚ) : r.select p ≠ .delete := by
  unfold Ratios.select
  split
  · exact nofun
  · split
    · exact nofun
    · split <;> exact nofun

/-- The inserted keys are the next keys of the table, and the others come from the sample. -/
theorem generateLoop_spec (r : Ratios) {sample keys : List K} {tableSize n : ℕ} (prob : ℕ → ℚ)
    (hs : sample.length = n) (hk : tableSize ≤ keys.length) :
    ∀ (rest sampleCounter insertCounter : ℕ), rest ≤ n → sampleCounter + rest ≤ n →
      insertCounter ≤ tableSize →
      ∃ ops m num, generateLoop r sample keys tableSize n prob rest sampleCounter insertCounter =
          some (ops, num) ∧ num = n - rest + ops.length ∧ insertCounter + m ≤ tableSize ∧
        insertKeys ops = slice keys insertCounter (insertCounter + m) ∧
        ∀ op ∈ ops, op.1 ≠ .insert → op.2 ∈ sample
  | 0, sampleCounter, insertCounter, _, _, hi =>
      ⟨[], 0, n, rfl, by simp, hi, by rw [Nat.add_zero, slice_self]; rfl, by simp⟩
  | rest + 1, sampleCounter, insertCounter, hrest, hsc, hi => by
      have hother : ∀ op : Operation, op ≠ .insert → r.select (prob (n - (rest + 1))) = op →
          ∃ ops m num, generateLoop r sample keys tableSize n prob (rest + 1) sampleCounter
              insertCounter = some (ops, num) ∧ num = n - (rest + 1) + ops.length ∧
            insertCounter + m ≤ tableSize ∧
            insertKeys ops = slice keys insertCounter (insertCounter + m) ∧
            ∀ op ∈ ops, op.1 ≠ .insert → op.2 ∈ sample := by
        intro op hop hsel
        obtain ⟨key, hkey⟩ : ∃ k, sample[sampleCounter]? = some k :=
          ⟨_, List.getElem?_eq_getElem (by omega)⟩
        obtain ⟨ops, m, num, hgen, hnum, hm, hins, hmem⟩ :=
          generateLoop_spec r prob hs hk rest (sampleCounter + 1) insertCounter (by omega)
            (by omega) hi
        refine ⟨(op, key) :: ops, m, num, ?_, ?_, hm, ?_, ?_⟩
        · rw [generateLoop]
          cases op with
          | insert => exact absurd rfl hop
          | _ => simp only [hsel, hkey, hgen, Option.bind_eq_bind, Option.bind_some]
        · rw [hnum, List.length_cons]
          omega
        · rw [insertKeys_cons_of_ne (by exact hop), hins]
        · intro x hx hne
          rcases List.mem_cons.mp hx with rfl | hx
          · exact List.mem_of_getElem? hkey
          · exact hmem x hx hne
      cases hsel : r.select (prob (n - (rest + 1))) with
      | insert =>
          rw [generateLoop]
          simp only [hsel]
          split
          · refine ⟨[], 0, _, rfl, by simp, hi, ?_, by simp⟩
            rw [Nat.add_zero, slice_self]
            rfl
          · obtain ⟨key, hkey⟩ : ∃ k, keys[insertCounter]? = some k :=
              ⟨_, List.getElem?_eq_getElem (by omega)⟩
            obtain ⟨ops, m, num, hgen, hnum, hm, hins, hmem⟩ :=
              generateLoop_spec r prob hs hk rest sampleCounter (insertCounter + 1) (by omega)
                (by omega) (by omega)
            refine ⟨(.insert, key) :: ops, m + 1, num, ?_, ?_, by omega, ?_, ?_⟩
            · simp only [hkey, hgen, Option.bind_eq_bind, Option.bind_some]
            · rw [hnum, List.length_cons]
              omega
            · rw [slice_cons hkey (by omega),
                show insertCounter + (m + 1) = insertCounter + 1 + m by omega,
                ← hins]
              rfl
            · intro x hx hne
              rcases List.mem_cons.mp hx with rfl | hx
              · exact absurd rfl hne
              · exact hmem x hx hne
      | read => exact hother .read nofun hsel
      | scan => exact hother .scan nofun hsel
      | update => exact hother .update nofun hsel
      | delete => exact absurd hsel (select_ne_delete r _)

/-! ### The warm-up loop -/

theorem warmUpIteration_spec {s : State K} (rejected : Rejected) (h0 : 0 < s.initTableSize)
    (hinit : s.initKeys.length = s.initTableSize) {i : ℕ} {key : K} (hkey : s.keys[i]? = some key) :
    ∃ calls, warmUpIteration s rejected i = some calls ∧ calls.filterMap Call.putKey = [key] := by
  obtain ⟨gets, hgets, _, hnone⟩ := mapM_some_spec (p := fun call : Call K => call.putKey = none)
    (f := fun randomNum => do
      let pos := (trunc ((i : ℚ) / randomNum)).toNat % s.initTableSize
      let key ← s.initKeys[pos]?
      some (Call.get key)) (rejected i) (fun r _ => by
        have hlt : (trunc ((i : ℚ) / r)).toNat % s.initTableSize < s.initKeys.length := by
          rw [hinit]
          exact Nat.mod_lt _ h0
        refine ⟨Call.get s.initKeys[(trunc ((i : ℚ) / r)).toNat % s.initTableSize], ?_, rfl⟩
        simp only [List.getElem?_eq_getElem hlt, Option.bind_eq_bind, Option.bind_some])
  refine ⟨gets ++ [.put key i], ?_, ?_⟩
  · unfold warmUpIteration
    rw [hgets, hkey]
    rfl
  · rw [List.filterMap_append, List.filterMap_eq_nil_iff.mpr hnone]
    rfl

theorem warmUpLoop_spec {s : State K} (rejected : Rejected) (h0 : 0 < s.initTableSize)
    (hinit : s.initKeys.length = s.initTableSize) : ∀ (n i : ℕ), i + n ≤ s.keys.length →
    ∃ calls, (List.range' i n).mapM (warmUpIteration s rejected) = some calls ∧
      calls.flatten.filterMap Call.putKey = slice s.keys i (i + n)
  | 0, i, _ => ⟨[], rfl, by rw [Nat.add_zero, slice_self]; rfl⟩
  | n + 1, i, hlen => by
      obtain ⟨key, hkey⟩ : ∃ k, s.keys[i]? = some k := ⟨_, List.getElem?_eq_getElem (by omega)⟩
      obtain ⟨calls, hcalls, hput⟩ := warmUpIteration_spec rejected h0 hinit hkey
      obtain ⟨rest, hrest, hputs⟩ := warmUpLoop_spec rejected h0 hinit n (i + 1) (by omega)
      refine ⟨calls :: rest, ?_, ?_⟩
      · rw [List.range'_succ, List.mapM_cons, hcalls, hrest]
        rfl
      · rw [List.flatten_cons, List.filterMap_append, hput, hputs, slice_cons hkey (by omega),
          List.singleton_append, Nat.add_assoc, Nat.add_comm 1 n]

/-- The warm-up loop puts the first half of the rest of the table, unless its counter overflows. -/
theorem warmUp_spec {s : State K} (rejected : Rejected) (h0 : 0 < s.initTableSize)
    (hinit : s.initKeys.length = s.initTableSize) (hle : s.initTableSize ≤ s.tableSize)
    (hlen : s.tableSize ≤ s.keys.length) :
    (s.insertEnd ≤ 2 ^ 31 → ∃ calls, warmUp s rejected = some calls ∧
      calls.filterMap Call.putKey = slice s.keys s.initTableSize s.insertEnd) ∧
    (¬ s.insertEnd ≤ 2 ^ 31 → warmUp s rejected = none) := by
  constructor
  · intro h
    have hend : s.initTableSize + (s.insertEnd - s.initTableSize) = s.insertEnd := by
      unfold State.insertEnd
      omega
    obtain ⟨calls, hcalls, hputs⟩ := warmUpLoop_spec rejected h0 hinit
      (s.insertEnd - s.initTableSize) s.initTableSize (by
        rw [hend]
        unfold State.insertEnd
        omega)
    refine ⟨calls.flatten, ?_, by rw [hputs, hend]⟩
    unfold warmUp intLoop
    rw [if_pos h, hcalls]
    rfl
  · intro h
    unfold warmUp intLoop
    rw [if_neg h]
    rfl

/-! ### Loading and generating -/

/-- The array that `load_keys` prepares, and the numbers of keys it has and bulk loads. -/
structure Table (K : Type) where
  keys : List K
  tableSize : ℕ
  initTableSize : ℕ

variable [LinearOrder K]

def tableOf (c : Params) (d : Draws K) (file : List K) : Table K :=
  let (keys, tableSize) := prepareKeys c d (loadData c.tableSize file)
  ⟨keys, tableSize, Benchmark.initTableSize c tableSize⟩

/-- The number of keys of the table that are neither bulk loaded nor lost. -/
def Table.restKeyNum (t : Table K) : ℕ :=
  Benchmark.restKeyNum t.keys t.initTableSize (t.tableSize - t.initTableSize)

def Table.initKeys (t : Table K) : List K :=
  (t.keys.take t.initTableSize).insertionSort (· ≤ ·)

/-- The state that `load_keys` leaves. -/
def Table.state (t : Table K) (c : Params) : State K where
  keys := t.keys
  tableSize := t.tableSize
  initTableSize := t.initTableSize
  initKeys := t.initKeys
  initKeyValues := t.initKeys.map (fun k => (k, initValue))
  operations := []
  operationsNum := c.operationsNum

/-- No `int` of the driver is counted past its largest value. -/
structure SizesFit (c : Params) (d : Draws K) (file : List K) : Prop where
  text : c.keysFileType = .text → (loadData c.tableSize file).length ≤ 2 ^ 31
  init : (tableOf c d file).initTableSize ≤ 2 ^ 31
  warmUp : c.workloadShiftTest = true →
    (tableOf c d file).initTableSize + (tableOf c d file).restKeyNum / 2 ≤ 2 ^ 31

/-- A table of distinct keys some of which are bulk loaded. -/
structure Table.OK (t : Table K) : Prop where
  pos : 0 < t.initTableSize
  le : t.initTableSize ≤ t.tableSize
  len : t.tableSize ≤ t.keys.length
  distinct : Distinct t.keys t.tableSize

theorem initTableSize_le {c : Params} (h : c.initTableRatio ≤ 1) (n : ℕ) :
    initTableSize c n ≤ n := by
  unfold initTableSize
  have hle : c.initTableRatio * n ≤ n := by
    have : (0 : ℚ) ≤ n := Nat.cast_nonneg n
    nlinarith
  rcases Nat.eq_zero_or_pos n with rfl | hn
  · simp [trunc]
  · have : trunc (c.initTableRatio * n) < n + 1 := by
      rw [show ((n : ℤ) + 1) = ((n + 1 : ℕ) : ℤ) by push_cast; rfl, trunc_lt_iff (by positivity)]
      push_cast
      linarith
    omega

theorem tableOf_ok {c : Params} {d : Draws K} {file : List K} (hshift : c.dataShift = false)
    (hratio : c.initTableRatio ≤ 1) (hinit : 1 ≤ (tableOf c d file).initTableSize) :
    (tableOf c d file).OK := by
  obtain ⟨hlen, hd⟩ := prepareKeys_spec hshift d (loadData c.tableSize file)
  exact ⟨hinit, initTableSize_le hratio _, hlen, hd⟩

theorem Table.OK.length_initKeys {t : Table K}
    (h : t.OK) : t.initKeys.length = t.initTableSize := by
  have h1 := h.le
  have h2 := h.len
  unfold Table.initKeys
  rw [length_sorted, List.length_take]
  omega

/-- `load_keys` leaves its table, or leaves the program. -/
theorem loadKeys_iff {c : Params} {d : Draws K} {file : List K} {s : State K} :
    loadKeys c d file = some s ↔ s = (tableOf c d file).state c ∧ c.keysFileType ≠ .other ∧
      (c.keysFileType = .text → (loadData c.tableSize file).length ≤ 2 ^ 31) ∧
      loadData c.tableSize file ≠ [] ∧
      (tableOf c d file).initTableSize ≤ (tableOf c d file).keys.length ∧
      (tableOf c d file).initKeys.length ≤ 2 ^ 31 := by
  have hrest : ∀ o : Option Unit, (do
      o
      if loadData c.tableSize file = [] then none
      else
        if (tableOf c d file).keys.length < (tableOf c d file).initTableSize then none
        else
          intLoop (tableOf c d file).initKeys.length
          some ((tableOf c d file).state c)) = some s ↔
        o = some () ∧ s = (tableOf c d file).state c ∧ loadData c.tableSize file ≠ [] ∧
          (tableOf c d file).initTableSize ≤ (tableOf c d file).keys.length ∧
          (tableOf c d file).initKeys.length ≤ 2 ^ 31 := by
    intro o
    cases o with
    | none => simp
    | some u =>
        simp only [Option.bind_eq_bind, Option.bind_some, true_and]
        by_cases hdata : loadData c.tableSize file = []
        · simp [hdata]
        · by_cases hlt : (tableOf c d file).keys.length < (tableOf c d file).initTableSize
          · simp [hdata, hlt]
          · simp only [hdata, hlt, if_false, intLoop, not_false_eq_true, not_lt.mp hlt,
              true_and, ne_eq]
            split
            · rename_i hfit
              exact ⟨fun h => ⟨(Option.some.inj h).symm, hfit⟩, fun h => congrArg some h.1.symm⟩
            · rename_i hfit
              exact ⟨nofun, fun h => absurd h.2 hfit⟩
  unfold loadKeys
  cases hfile : c.keysFileType with
  | binary =>
      simp only
      refine (hrest (some ())).trans ?_
      simp
  | text =>
      simp only
      refine (hrest _).trans ?_
      simp only [intLoop, Option.ite_none_right_eq_some, and_true, ne_eq, true_implies]
      tauto
  | other =>
      simp only
      refine (hrest none).trans ?_
      simp

/-- `load_keys` prepares the table unless one of its counters overflows. -/
theorem loadKeys_spec {c : Params} {d : Draws K} {file : List K} (hok : (tableOf c d file).OK)
    (htype : c.keysFileType ≠ .other) (s : State K) :
    loadKeys c d file = some s ↔ s = (tableOf c d file).state c ∧
      (c.keysFileType = .text → (loadData c.tableSize file).length ≤ 2 ^ 31) ∧
      (tableOf c d file).initTableSize ≤ 2 ^ 31 := by
  have hdata : loadData c.tableSize file ≠ [] := by
    intro h
    have hzero : (tableOf c d file).tableSize = 0 := by
      show (prepareKeys c d (loadData c.tableSize file)).2 = 0
      rw [h]
      unfold prepareKeys
      split <;> rfl
    have h1 := hok.pos
    have h2 := hok.le
    omega
  have hread : (tableOf c d file).initTableSize ≤ (tableOf c d file).keys.length :=
    hok.le.trans hok.len
  rw [loadKeys_iff, hok.length_initKeys]
  tauto

/-- What `generate_operations` leaves. -/
structure Generated (c : Params) (t : Table K) (s : State K) : Prop where
  initKeys : s.initKeys = t.initKeys
  initTableSize : s.initTableSize = t.initTableSize
  tableSize : s.tableSize = t.initTableSize + t.restKeyNum
  len : s.tableSize ≤ s.keys.length
  distinct : (slice s.keys t.initTableSize s.tableSize).Nodup
  fresh : ∀ k ∈ slice s.keys t.initTableSize s.tableSize, k ∉ t.initKeys
  inserts : ∃ m, s.insertEnd + m ≤ s.tableSize ∧ c.workloadShiftTest = true ∧
      insertKeys s.operations = slice s.keys s.insertEnd (s.insertEnd + m) ∨
    t.initTableSize + m ≤ s.tableSize ∧ c.workloadShiftTest = false ∧
      insertKeys s.operations = slice s.keys t.initTableSize (t.initTableSize + m)
  sampled : ∀ op ∈ s.operations, op.1 ≠ .insert → op.2 ∈ t.initKeys
  count : s.operations.length = s.operationsNum

theorem generateOperations_spec {c : Params} (d : Draws K) {t : Table K} (hok : t.OK)
    (hfit : t.initTableSize ≤ 2 ^ 31) :
    ∃ s, generateOperations c d (t.state c) = some s ∧ Generated c t s := by
  obtain ⟨hpos, hle, hlen, hd⟩ := hok
  have hinit := Table.OK.length_initKeys ⟨hpos, hle, hlen, hd⟩
  obtain ⟨sample, hsample, hcount, hmem⟩ := getSearchKeys_spec c.sampleDistribution
    t.initKeys (by omega) (by omega) (c.operationsNum : ℕ) d.sample
  have hsum : t.initTableSize + (t.tableSize - t.initTableSize) = t.tableSize := by omega
  obtain ⟨keys, huniq, hlength, hnodup, hsub⟩ := uniqueData_spec d.randomShuffle
    (show Distinct t.keys (t.initTableSize + (t.tableSize - t.initTableSize)) by
      rw [hsum]
      exact hd) (by omega)
  have hrest : t.restKeyNum ≤ t.tableSize - t.initTableSize := by
    unfold Table.restKeyNum restKeyNum
    split <;> omega
  obtain ⟨ops, m, num, hgen, hnum, hm, hins, hops⟩ := generateLoop_spec c.ratios d.prob hcount
    (show t.initTableSize + t.restKeyNum ≤ keys.length by omega) (c.operationsNum : ℕ) 0
    (if c.workloadShiftTest then t.initTableSize + t.restKeyNum / 2 else t.initTableSize)
    le_rfl (by omega) (by split <;> omega)
  refine ⟨{ t.state c with
    keys := keys
    tableSize := t.initTableSize + t.restKeyNum
    operations := ops
    operationsNum := num }, ?_, ?_⟩
  · have hsample' : getSearchKeys c.sampleDistribution (t.state c).initKeys
        (toInt (t.state c).initTableSize) (t.state c).operationsNum d.sample = some sample := by
      rw [← hsample, hinit]
      rfl
    have huniq' : uniqueData d.randomShuffle (t.state c).keys (t.state c).initTableSize
        ((t.state c).tableSize - (t.state c).initTableSize) = some (keys, t.restKeyNum) := huniq
    unfold generateOperations
    simp only [hsample', huniq', Option.bind_eq_bind, Option.bind_some]
    exact Option.bind_eq_some_iff.mpr ⟨(ops, num), hgen, rfl⟩
  · refine ⟨rfl, rfl, rfl, by show t.initTableSize + t.restKeyNum ≤ keys.length; omega, hnodup, ?_,
      ⟨m, ?_⟩, fun op hop hne => hmem _ (hops op hop hne), ?_⟩
    · intro k hk hk'
      have h1 := hsub k hk
      rw [hsum] at h1
      have h2 : k ∈ t.keys.take t.initTableSize := (List.mem_insertionSort (· ≤ ·)).mp hk'
      unfold Distinct at hd
      rw [← hsum, take_eq_append, hsum] at hd
      exact (List.nodup_append.mp hd).2.2 k h2 k h1 rfl
    · have hend : t.initTableSize + (t.initTableSize + t.restKeyNum - t.initTableSize) / 2 =
          t.initTableSize + t.restKeyNum / 2 := by rw [Nat.add_sub_cancel_left]
      unfold State.insertEnd
      cases hw : c.workloadShiftTest with
      | true =>
          rw [hw, if_pos rfl, ← hend] at hm hins
          exact Or.inl ⟨hm, rfl, hins⟩
      | false =>
          rw [hw, if_neg (by simp)] at hm hins
          exact Or.inr ⟨hm, rfl, hins⟩
    · show ops.length = num
      omega

/-- The workload of the benchmark and the keys of its first warm-up loop are fresh. -/
def FreshWorkload (c : Params) (d : Draws K) (file : List K) (rejected : Rejected) : Prop :=
  ∃ s₀ s calls, loadKeys c d file = some s₀ ∧ generateOperations c d s₀ = some s ∧
    warmUpCalls c s rejected = some calls ∧ Fresh s (calls.filterMap Call.putKey)

/-- Two slices of the rest of the table that do not overlap hold distinct fresh keys. -/
theorem Generated.fresh_of_slices {c : Params} {t : Table K} {s : State K} (h : Generated c t s)
    {i j k : ℕ} (hi : t.initTableSize ≤ i) (hij : i ≤ j) (hjk : j ≤ k) (hk : k ≤ s.tableSize)
    (hins : insertKeys s.operations = slice s.keys j k) : Fresh s (slice s.keys i j) := by
  have hlen := h.len
  have hsub : (slice s.keys i k).Sublist (slice s.keys t.initTableSize s.tableSize) := by
    rw [← slice_append hi (hij.trans (hjk.trans hk)) (by omega),
      ← slice_append (hij.trans hjk) hk (by omega)]
    exact ((List.Sublist.refl _).trans (List.sublist_append_left _ _)).trans
      (List.sublist_append_right _ _)
  have hperm : (slice s.keys j k ++ slice s.keys i j).Perm (slice s.keys i k) := by
    rw [← slice_append hij hjk (by omega)]
    exact List.perm_append_comm
  refine ⟨?_, fun x hx => ?_, fun op hop hne => ?_, h.count⟩
  · rw [hins, hperm.nodup_iff]
    exact h.distinct.sublist hsub
  · rw [hins] at hx
    rw [h.initKeys]
    exact h.fresh x (hsub.subset (hperm.subset hx))
  · rw [h.initKeys]
    exact h.sampled op hop hne

theorem Generated.insertEnd {c : Params} {t : Table K} {s : State K} (h : Generated c t s) :
    s.insertEnd = t.initTableSize + t.restKeyNum / 2 := by
  unfold State.insertEnd
  rw [h.initTableSize, h.tableSize, Nat.add_sub_cancel_left]

/-- The warm-up loop on a generated workload. -/
theorem Generated.warmUp {c : Params} {t : Table K} {s : State K} (h : Generated c t s)
    (hok : t.OK) (rejected : Rejected) :
    (s.insertEnd ≤ 2 ^ 31 → ∃ calls, Benchmark.warmUp s rejected = some calls ∧
      calls.filterMap Call.putKey = slice s.keys t.initTableSize s.insertEnd) ∧
    (¬ s.insertEnd ≤ 2 ^ 31 → Benchmark.warmUp s rejected = none) := by
  rw [← h.initTableSize]
  refine warmUp_spec rejected ?_ ?_ ?_ h.len
  · rw [h.initTableSize]
    exact hok.pos
  · rw [h.initKeys, h.initTableSize, hok.length_initKeys]
  · rw [h.initTableSize, h.tableSize]
    omega

theorem freshWorkload_of_ok {c : Params} {d : Draws K} {file : List K} (rejected : Rejected)
    (hok : (tableOf c d file).OK) (htype : c.keysFileType ≠ .other) :
    FreshWorkload c d file rejected ↔ SizesFit c d file := by
  constructor
  · rintro ⟨s₀, s, calls, hload, hgen, hcalls, _⟩
    obtain ⟨rfl, htext, hfit⟩ := (loadKeys_spec hok htype s₀).mp hload
    obtain ⟨s', hgen', hs⟩ := generateOperations_spec (c := c) d hok hfit
    obtain rfl : s' = s := Option.some.inj (hgen'.symm.trans hgen)
    refine ⟨htext, hfit, fun hw => ?_⟩
    rw [← hs.insertEnd]
    by_contra hlt
    unfold warmUpCalls at hcalls
    rw [if_pos hw, (hs.warmUp hok rejected).2 hlt] at hcalls
    cases hcalls
  · intro hfit
    obtain ⟨s, hgen, hs⟩ := generateOperations_spec (c := c) d hok hfit.init
    have hload := (loadKeys_spec hok htype _).mpr ⟨rfl, hfit.text, hfit.init⟩
    obtain ⟨m, ⟨hm, hw, hins⟩ | ⟨hm, hw, hins⟩⟩ := hs.inserts
    · -- the warm-up loop puts the first half, the operations insert from the second
      obtain ⟨calls, hcalls, hputs⟩ := (hs.warmUp hok rejected).1 (by
        rw [hs.insertEnd]
        exact hfit.warmUp hw)
      refine ⟨_, s, calls, hload, hgen, ?_, ?_⟩
      · unfold warmUpCalls
        rw [if_pos hw, hcalls]
      · rw [hputs]
        refine hs.fresh_of_slices le_rfl ?_ (Nat.le_add_right _ m) hm hins
        rw [hs.insertEnd]
        omega
    · refine ⟨_, s, [], hload, hgen, ?_, ?_⟩
      · unfold warmUpCalls
        rw [if_neg (by simp [hw])]
      · have := hs.fresh_of_slices le_rfl le_rfl (Nat.le_add_right _ m) hm hins
        rwa [slice_self] at this

/-- Without `data_shift`, the workload is fresh exactly when no `int` overflows. -/
theorem freshWorkload_iff_sizesFit (c : Params) (d : Draws K) (file : List K)
    (rejected : Rejected) (hshift : c.dataShift = false) (hratio : c.initTableRatio ≤ 1)
    (htype : c.keysFileType ≠ .other) (hinit : 1 ≤ (tableOf c d file).initTableSize) :
    FreshWorkload c d file rejected ↔ SizesFit c d file :=
  freshWorkload_of_ok rejected (tableOf_ok hshift hratio hinit) htype

/-! ### A table that is too large, and one that is not -/

/-- Bulk load the given part of the keys and read and insert in equal parts. -/
def readInsert (ratio : ℚ) (workloadShiftTest datasetStatistic : Bool) : Params where
  readRatio := 1 / 2
  insertRatio := 1 / 2
  updateRatio := 0
  operationsNum := 8
  tableSize := -1
  initTableRatio := ratio
  keysFileType := .binary
  sampleDistribution := .uniform
  datasetStatistic := datasetStatistic
  workloadShiftTest := workloadShiftTest
  writeRatioBegin := 1 / 2
  writeRatioEnd := 1 / 2
  dataShift := false

/-- Keys stay in order, every sample is the first key, and operations alternate. -/
def plainDraws : Draws ℕ where
  shuffle := ⟨id, fun _ => List.Perm.refl _⟩
  randomShuffle := ⟨id, fun _ => List.Perm.refl _⟩
  sample _ := 0
  prob i := if i % 2 = 0 then 0 else 1 / 2

theorem prepareKeys_plain {ratio : ℚ} {w b : Bool} {l : List ℕ} (h : l.Pairwise (· < ·)) :
    prepareKeys (readInsert ratio w b) plainDraws l = (l, l.length) := by
  have hsort : sortRange 0 l.length l = l :=
    (editRange_all _ l).trans ((h.imp le_of_lt).insertionSort_eq)
  have huniq : uniqueRange 0 l.length l = (l, l.length) :=
    uniqueRange_of_nodup (Nat.zero_le _) le_rfl (by
      rw [slice_all]
      exact h.imp ne_of_lt)
  unfold prepareKeys
  rw [hsort, huniq]
  exact congrArg (fun x => (x, l.length)) (editRange_all id l)

/-- A file of `2^31 + 1` keys, all of them bulk loaded. -/
theorem not_freshWorkload_large :
    1 ≤ (tableOf (readInsert 1 false false) plainDraws (List.range (2 ^ 31 + 1))).initTableSize ∧
      ¬ FreshWorkload (readInsert 1 false false) plainDraws (List.range (2 ^ 31 + 1))
      (fun _ => []) := by
  have hload : loadData (readInsert 1 false false).tableSize (List.range (2 ^ 31 + 1)) =
      List.range (2 ^ 31 + 1) := if_pos (Or.inl (by decide))
  have htable : tableOf (readInsert 1 false false) plainDraws (List.range (2 ^ 31 + 1)) =
      ⟨List.range (2 ^ 31 + 1), 2 ^ 31 + 1, initTableSize (readInsert 1 false false)
        (2 ^ 31 + 1)⟩ := by
    unfold tableOf
    rw [hload, prepareKeys_plain List.pairwise_lt_range, List.length_range]
  have hinit : initTableSize (readInsert 1 false false) (2 ^ 31 + 1) = 2 ^ 31 + 1 := by
    unfold initTableSize
    rw [show (readInsert 1 false false).initTableRatio = 1 from rfl, one_mul]
    rw [show (((2 ^ 31 + 1 : ℕ) : ℚ)) = ((2 ^ 31 + 1 : ℤ) : ℚ) by norm_num, trunc_intCast]
    rfl
  have hpos : 1 ≤ (tableOf (readInsert 1 false false) plainDraws
      (List.range (2 ^ 31 + 1))).initTableSize := by
    rw [htable, hinit]
    norm_num
  refine ⟨hpos, fun h => ?_⟩
  have hfit := (freshWorkload_of_ok _ (tableOf_ok rfl le_rfl hpos) (by decide)).mp h
  have hle := hfit.init
  rw [htable, hinit] at hle
  exact absurd hle (by norm_num)

/-- Six keys, a third of them bulk loaded, with a warm-up loop. -/
theorem freshWorkload_small : FreshWorkload (readInsert (1 / 3) true false) plainDraws
    [10, 20, 30, 40, 50, 60] (fun _ => [3 / 4]) :=
  (freshWorkload_iff_sizesFit _ _ _ _ rfl (by decide +kernel) (by decide) (by decide +kernel)).mpr
    ⟨by decide, by decide +kernel, by decide +kernel⟩

end LearnedIndex.Benchmark
