import LearnedIndex.Benchmark.UniqueSets
import LearnedIndex.Benchmark.OperationMix

/-! # The order of the keys with `data_shift`

With `data_shift` the keys are bulk loaded and inserted in the order of the file: `load_keys`
neither sorts nor shuffles them then.  But it does not remove duplicates either, and what is
inserted goes through `unique_data`, which sorts the keys that are not bulk loaded and shuffles them
again.  So the order of the file is kept only where there is none: by at most one `INSERT`
(`dataShift_keeps_order_iff`). -/

namespace LearnedIndex.Benchmark

open LearnedIndex.Ranges LearnedIndex.Alexol

variable {K : Type} [LinearOrder K]

/-! ### The two parts of the file -/

/-- The keys of the file that are bulk loaded. -/
def bulkPart (c : Params) (file : List K) : List K :=
  (loadData c.tableSize file).take (initTableSize c (loadData c.tableSize file).length)

/-- The keys of the file behind them. -/
def laterPart (c : Params) (file : List K) : List K :=
  (loadData c.tableSize file).drop (initTableSize c (loadData c.tableSize file).length)

/-- The keys behind the bulk-loaded ones that are not among these, in the order in which they first
occur. -/
def laterKeys (c : Params) (file : List K) : List K :=
  ((laterPart c file).filter (· ∉ bulkPart c file)).eraseDups

/-- What `data_shift` promises: the bulk-load array is strictly increasing, and the keys are
inserted in the order of the file. -/
structure FileOrder (c : Params) (file : List K) (s : State K) : Prop where
  bulkLoad : (s.initKeyValues.map Prod.fst).Pairwise (· < ·)
  inserts : (insertKeys s.operations).Sublist (laterKeys c file)

/-- The driver gets through: the file can be read, and there are keys to sample if there are
operations. -/
structure Loads (c : Params) (file : List K) : Prop where
  type : c.keysFileType ≠ .other
  text : c.keysFileType = .text → (loadData c.tableSize file).length ≤ 2 ^ 31
  nonempty : loadData c.tableSize file ≠ []
  le : initTableSize c (loadData c.tableSize file).length ≤ (loadData c.tableSize file).length
  fits : initTableSize c (loadData c.tableSize file).length ≤ 2 ^ 31
  sampled : (c.operationsNum : ℕ) = 0 ∨ 0 < initTableSize c (loadData c.tableSize file).length

/-- The number of keys that `INSERT` operations can use: `unique_data` loses one if all bulk-loaded
keys are smaller, and the workload shift test takes half of the others away. -/
def insertable (c : Params) (file : List K) : ℕ :=
  let kept := (laterKeys c file).length -
    if ∀ a ∈ bulkPart c file, ∀ b ∈ laterPart c file, a < b then 1 else 0
  kept - if c.workloadShiftTest then kept / 2 else 0

/-- There is no order to keep: the bulk-loaded keys are distinct, and there is at most one
`INSERT`. -/
structure KeepsOrder (c : Params) (file : List K) : Prop where
  distinct : (bulkPart c file).Nodup
  few : (c.operationsNum : ℕ) ≤ 1 ∨ (∀ p, 0 ≤ p → p < 1 → c.ratios.select p ≠ .insert) ∨
    insertable c file ≤ 1

section parts
variable {c : Params} {file : List K}

omit [LinearOrder K] in
theorem bulkPart_append (c : Params) (file : List K) :
    bulkPart c file ++ laterPart c file ++ [] = loadData c.tableSize file := by
  rw [List.append_nil]
  exact List.take_append_drop ..

omit [LinearOrder K] in
theorem length_laterPart (c : Params) (file : List K) : (laterPart c file).length =
    (loadData c.tableSize file).length - initTableSize c (loadData c.tableSize file).length :=
  List.length_drop ..

omit [LinearOrder K] in
theorem Loads.length_bulkPart (h : Loads c file) :
    (bulkPart c file).length = initTableSize c (loadData c.tableSize file).length := by
  rw [bulkPart, List.length_take, Nat.min_eq_left h.le]

theorem tableOf_shift (hc : c.dataShift = true) (d : Draws K) (file : List K) : tableOf c d file =
    ⟨loadData c.tableSize file, (loadData c.tableSize file).length,
      initTableSize c (loadData c.tableSize file).length⟩ := by
  unfold tableOf prepareKeys
  rw [if_pos hc]

theorem nodup_laterKeys (c : Params) (file : List K) : (laterKeys c file).Nodup := nodup_eraseDups _

theorem mem_laterKeys {k : K} : k ∈ laterKeys c file ↔ k ∈ laterPart c file ∧
    k ∉ bulkPart c file := by
  rw [laterKeys, List.mem_eraseDups, List.mem_filter, decide_eq_true_eq]

end parts

/-! ### What `unique_data` keeps -/

/-- The keys of the second array that are kept if the first one has no duplicates, before they are
shuffled. -/
def keptKeys (key1 key2 : List K) : List K :=
  if ∀ a ∈ key1, ∀ b ∈ key2, a < b then (distinctSorted key2).tail
  else (distinctSorted key2).filter (· ∉ distinctSorted key1)

theorem mem_of_mem_keptKeys {key1 key2 : List K} {k : K} (h : k ∈ keptKeys key1 key2) :
    k ∈ key2 ∧ k ∉ key1 := by
  unfold keptKeys at h
  split at h
  · rename_i hall
    have hk := mem_distinctSorted.mp (List.mem_of_mem_tail h)
    exact ⟨hk, fun hk1 => lt_irrefl k (hall k hk1 k hk)⟩
  · rw [List.mem_filter, mem_distinctSorted, decide_eq_true_eq, mem_distinctSorted] at h
    exact h

theorem length_keptKeys (key1 key2 : List K) : (keptKeys key1 key2).length =
    ((key2.filter (· ∉ key1)).eraseDups).length -
      if ∀ a ∈ key1, ∀ b ∈ key2, a < b then 1 else 0 := by
  have hperm : ((distinctSorted key2).filter (· ∉ distinctSorted key1)).Perm
      ((key2.filter (· ∉ key1)).eraseDups) := by
    refine (List.perm_ext_iff_of_nodup ((nodup_distinctSorted key2).filter _)
      (nodup_eraseDups _)).mpr (fun k => ?_)
    simp only [List.mem_filter, mem_distinctSorted, List.mem_eraseDups]
  unfold keptKeys
  split
  · rename_i hall
    have hself : (distinctSorted key2).filter (· ∉ distinctSorted key1) = distinctSorted key2 := by
      refine List.filter_eq_self.mpr (fun k hk => decide_eq_true (fun hk1 => ?_))
      exact lt_irrefl k (hall k (mem_distinctSorted.mp hk1) k (mem_distinctSorted.mp hk))
    rw [← hperm.length_eq, hself, List.length_tail]
  · rw [hperm.length_eq, Nat.sub_zero]

/-- A first array without duplicates ends where the second one begins. -/
theorem length_distinctSorted_of_nodup {l : List K} (h : l.Nodup) :
    (distinctSorted l).length = l.length := by
  have hnodup : (l.insertionSort (· ≤ ·)).Nodup := (List.perm_insertionSort _ l).nodup_iff.mpr h
  unfold distinctSorted
  rw [List.destutter_of_isChain _ _ hnodup.isChain, List.length_insertionSort]

section unique
variable {s : Shuffle K} {key1 key2 behind : List K}

/-- The key behind the first array is the smallest of the second one. -/
theorem getElem_compactParts (behind : List K) (hd : key1.Nodup) {b : K} {B : List K}
    (hB : distinctSorted key2 = b :: B) :
    (compactParts key1 key2 behind)[(distinctSorted key1).length]? = some b := by
  have hrest := (merging_start key1 key2 behind).rest
  rw [Nat.add_zero, List.drop_zero] at hrest
  have hlen : 0 < (distinctSorted key2).length := by
    rw [hB]
    exact Nat.succ_pos _
  have hget := getElem?_slice (l := compactParts key1 key2 behind)
    (show key1.length + 0 < key1.length + (distinctSorted key2).length by omega)
  rw [hrest, hB, Nat.add_zero] at hget
  rw [length_distinctSorted_of_nodup hd, ← hget]
  rfl

theorem mergeLoop_at_end (size1 start size2 : ℕ) (keys : List K) (ptr2 result : ℕ) : ∀ fuel,
    mergeLoop size1 start size2 fuel keys size1 ptr2 result = some (keys, ptr2, result)
  | 0 => by
      unfold mergeLoop
      rw [if_neg (fun h => lt_irrefl _ h.1)]
  | fuel + 1 => by
      unfold mergeLoop
      rw [if_neg (fun h => lt_irrefl _ h.1)]

/-- If all keys of the first array are smaller, the smallest key of the second one is taken for a
duplicate, and the loop ends. -/
theorem mergeLoop_loses (behind : List K) (hne : key1 ≠ []) (hd : key1.Nodup) {b : K} {B : List K}
    (hB : distinctSorted key2 = b :: B) (hall : ∀ a ∈ key1, ∀ b ∈ key2, a < b) :
    mergeLoop (distinctSorted key1).length key1.length (distinctSorted key2).length
        (distinctSorted key2).length (compactParts key1 key2 behind) 0 0 0 =
      some (compactParts key1 key2 behind, 1, 0) ∧
    Merging (distinctSorted key1) (distinctSorted key2) key1.length (compactParts key1 key2 behind)
      (distinctSorted key1).length 1 0 := by
  have hstart := merging_start key1 key2 behind
  have hpast := getElem_compactParts behind hd hB
  have hlen : (distinctSorted key2).length = B.length + 1 := congrArg List.length hB
  have hkey : (compactParts key1 key2 behind)[key1.length + 0]? = some b := by
    rw [Nat.add_zero, ← hpast, length_distinctSorted_of_nodup hd]
  have hb : b ∈ key2 := mem_distinctSorted.mp (by rw [hB]; exact List.mem_cons_self ..)
  have hbelow : ∀ a ∈ distinctSorted key1, a < b :=
    fun a ha => hall a (mem_distinctSorted.mp ha) b hb
  obtain ⟨a, ha⟩ := List.exists_mem_of_ne_nil key1 hne
  have hpos : 0 < (distinctSorted key1).length := List.length_pos_of_mem (mem_distinctSorted.mpr ha)
  obtain ⟨p, hskip, -, hp, hlt, hstop⟩ := hstart.skip (by omega) hkey
  -- the inner loop runs to the end of the first array
  obtain rfl : p = (distinctSorted key1).length := by
    by_contra hcon
    obtain ⟨a, ha, hle⟩ := (Merging.stops_inside_iff hp hlt hstop).mp (by omega)
    exact absurd (hbelow a ha) (not_lt.mpr hle)
  refine ⟨?_, hstart.pass (pairwise_distinctSorted key2) (by omega) hkey le_rfl hlt⟩
  rw [hlen] at *
  unfold mergeLoop
  rw [if_pos ⟨hpos, Nat.succ_pos _⟩]
  simp only [hkey, hskip, hpast, Option.bind_eq_bind, Option.bind_some, if_true, Nat.zero_add]
  exact mergeLoop_at_end ..

/-- What `unique_data` keeps if the first array has keys and no duplicates. -/
theorem uniqueDataAll_kept (hne : key1 ≠ []) (hd : key1.Nodup) {u : Unique K}
    (hu : uniqueDataAll s (key1 ++ key2 ++ behind) key1.length key2.length = some u) :
    u.size2 = (keptKeys key1 key2).length ∧
      slice u.keys key1.length (key1.length + u.size2) = s.val (keptKeys key1 key2) := by
  have hB := pairwise_distinctSorted key2
  cases hBeq : distinctSorted key2 with
  | nil =>
      have hpast : Merging.PastDiffers (distinctSorted key1) (distinctSorted key2)
          (compactParts key1 key2 behind) 0 := by
        intro b hb
        rw [hBeq] at hb
        cases hb
      obtain ⟨u', out, hu', -, -, -, h2, -, -, -, h7⟩ := uniqueDataAll_spec (s := s) hpast rfl
      obtain rfl := Option.some.inj (hu'.symm.trans hu)
      have hkept : keptKeys key1 key2 = (distinctSorted key2).filter (· ∉ distinctSorted key1) := by
        unfold keptKeys
        rw [hBeq]
        split <;> rfl
      rw [hkept, h2]
      exact ⟨rfl, h7⟩
  | cons b B =>
      have hpast := getElem_compactParts behind hd hBeq
      have hmin : ∀ x ∈ key2, b ≤ x := by
        intro x hx
        have hx' := mem_distinctSorted.mpr hx
        rw [hBeq] at hx' hB
        rcases List.mem_cons.mp hx' with rfl | hx'
        · exact le_rfl
        · exact ((List.pairwise_cons.mp hB).1 x hx').le
      by_cases hall : ∀ a ∈ key1, ∀ b ∈ key2, a < b
      · obtain ⟨hloop, hm⟩ := mergeLoop_loses behind hne hd hBeq hall
        obtain ⟨reads, hreads⟩ := exists_mergeReads hloop
        have hkept : slice (compactParts key1 key2 behind) key1.length (key1.length + 0) ++
            (distinctSorted key2).drop 1 = keptKeys key1 key2 := by
          unfold keptKeys
          rw [if_pos hall, Nat.add_zero, slice_self, List.nil_append, List.drop_one]
        obtain ⟨u', hu', -, h2, -, -, -, -, h7⟩ := uniqueDataAll_of_merge (s := s) hreads hm hkept
        obtain rfl := Option.some.inj (hu'.symm.trans hu)
        rw [h2]
        exact ⟨rfl, h7⟩
      · have hdiffers : Merging.PastDiffers (distinctSorted key1) (distinctSorted key2)
            (compactParts key1 key2 behind) 0 := by
          intro x _ habove hget
          obtain rfl := Option.some.inj (hpast.symm.trans hget)
          exact hall (fun a ha y hy => (habove a (mem_distinctSorted.mpr ha)).trans_le (hmin y hy))
        have hkept : (distinctSorted key2).filter (· ∉ distinctSorted key1) = keptKeys
          key1 key2 := by
          unfold keptKeys
          rw [if_neg hall]
        obtain ⟨u', out, hu', -, -, -, h2, -, -, -, h7⟩ :=
          uniqueDataAll_spec (s := s) hdiffers hkept
        obtain rfl := Option.some.inj (hu'.symm.trans hu)
        rw [h2]
        exact ⟨rfl, h7⟩

end unique

/-! ### Runs -/

/-- The first position that `INSERT` operations use. -/
def insertStart (c : Params) (bulk rest : ℕ) : ℕ :=
  if c.workloadShiftTest then bulk + rest / 2 else bulk

/-- A run of the generator with `data_shift`. -/
structure ShiftRun (c : Params) (d : Draws K) (file : List K) (s : State K)
    (u : Unique K) : Prop where
  prepared : prepared c d file = some s
  unique : uniqueDataAll d.randomShuffle (bulkPart c file ++ laterPart c file ++ [])
    (bulkPart c file).length (laterPart c file).length = some u
  bulkLoad : s.initKeyValues.map Prod.fst = (bulkPart c file).insertionSort (· ≤ ·)
  room : (bulkPart c file).length + u.size2 ≤ u.keys.length
  generated : ∃ sample, generateLoop c.ratios sample u.keys ((bulkPart c file).length + u.size2)
    c.operationsNum d.prob c.operationsNum 0 (insertStart c (bulkPart c file).length u.size2) =
      some (s.operations, s.operationsNum)
  inserts : ∃ m, insertStart c (bulkPart c file).length u.size2 + m ≤
      (bulkPart c file).length + u.size2 ∧
    insertKeys s.operations = slice u.keys (insertStart c (bulkPart c file).length u.size2)
      (insertStart c (bulkPart c file).length u.size2 + m)

omit [LinearOrder K] in
theorem getSearchKeys_zero (dist : SampleDistribution) (array : List K) {n : ℕ} (hn : 0 < n)
    (draw : ℕ → ℕ) : getSearchKeys dist array (toInt (0 : ℕ)) n draw = none := by
  have hpos : samplePosition dist (toInt (0 : ℕ)) (draw 0) = none := by
    cases dist <;> rfl
  obtain ⟨n, rfl⟩ : ∃ m, n = m + 1 := ⟨n - 1, by omega⟩
  unfold getSearchKeys
  rw [List.range_succ_eq_map, List.mapM_cons, hpos]
  rfl

theorem loads_of_prepared {c : Params} (hc : c.dataShift = true) {d : Draws K} {file : List K}
    {s : State K} (h : prepared c d file = some s) : Loads c file := by
  obtain ⟨s₀, hload, hgen⟩ := Option.bind_eq_some_iff.mp h
  obtain ⟨rfl, htype, htext, hdata, hle, hfit⟩ := loadKeys_iff.mp hload
  rw [tableOf_shift hc] at hle hfit hgen
  refine ⟨htype, htext, hdata, hle, ?_, ?_⟩
  · rwa [Table.initKeys, length_sorted, List.length_take, Nat.min_eq_left hle] at hfit
  · by_contra hcon
    rw [not_or] at hcon
    obtain ⟨sample, hsample, -⟩ := Option.bind_eq_some_iff.mp hgen
    have hzero : initTableSize c (loadData c.tableSize file).length = 0 := by omega
    have hnone : getSearchKeys c.sampleDistribution (Table.initKeys ⟨loadData c.tableSize file,
        (loadData c.tableSize file).length, initTableSize c (loadData c.tableSize file).length⟩)
        (toInt (0 : ℕ)) (c.operationsNum : ℕ) d.sample = none :=
      getSearchKeys_zero _ _ (Nat.pos_of_ne_zero hcon.1) _
    rw [← hzero] at hnone
    exact absurd (hnone.symm.trans hsample) nofun

theorem exists_shiftRun {c : Params} (hc : c.dataShift = true) {file : List K} (hl : Loads c file)
    (d : Draws K) : ∃ s u, ShiftRun c d file s u := by
  have hbulk := hl.length_bulkPart
  have hlater := length_laterPart c file
  have hle := hl.le
  have htable := tableOf_shift hc d file
  have hinit : (tableOf c d file).initKeys = (bulkPart c file).insertionSort (· ≤ ·) := by
    rw [htable]
    rfl
  have hinitlen : (tableOf c d file).initKeys.length = (bulkPart c file).length := by
    rw [hinit, length_sorted]
  have hload : loadKeys c d file = some ((tableOf c d file).state c) := by
    refine loadKeys_iff.mpr ⟨rfl, hl.type, hl.text, hl.nonempty, ?_, ?_⟩
    · rw [htable]
      exact hl.le
    · rw [hinitlen, hbulk]
      exact hl.fits
  obtain ⟨sample, hsample, hcount⟩ : ∃ sample, getSearchKeys c.sampleDistribution
      (tableOf c d file).initKeys (toInt (tableOf c d file).initTableSize) (c.operationsNum : ℕ)
      d.sample = some sample ∧ sample.length = c.operationsNum := by
    rcases hl.sampled with hzero | hpos
    · rw [hzero]
      exact ⟨[], rfl, rfl⟩
    · have hsize : (tableOf c d file).initTableSize = (tableOf c d file).initKeys.length := by
        rw [hinitlen, hbulk, htable]
      rw [hsize]
      have hfits := hl.fits
      obtain ⟨sample, hs, hlen, -⟩ := getSearchKeys_spec c.sampleDistribution
        (tableOf c d file).initKeys (by omega) (by omega) (c.operationsNum : ℕ) d.sample
      exact ⟨sample, hs, hlen⟩
  obtain ⟨u, hu, hlen, hsize2⟩ := uniqueDataAll_returns d.randomShuffle (bulkPart c file)
    (laterPart c file) []
  have hroom : (bulkPart c file).length + u.size2 ≤ u.keys.length := by
    rw [hlen, List.append_nil, List.length_append]
    omega
  have hunique : uniqueData d.randomShuffle (tableOf c d file).keys (tableOf c d file).initTableSize
      ((tableOf c d file).tableSize - (tableOf c d file).initTableSize) = some
        (u.keys, u.size2) := by
    have h := uniqueDataAll_map d.randomShuffle (bulkPart c file ++ laterPart c file ++ [])
      (bulkPart c file).length (laterPart c file).length
    rw [hu, Option.map_some, bulkPart_append, hbulk, hlater] at h
    rw [htable]
    exact h.symm
  obtain ⟨ops, m, num, hgen, -, hm, hins, -⟩ := generateLoop_spec c.ratios d.prob hcount hroom
    (c.operationsNum : ℕ) 0 (insertStart c (bulkPart c file).length u.size2) le_rfl (by omega)
    (by unfold insertStart; split <;> omega)
  refine ⟨{ (tableOf c d file).state c with
    keys := u.keys
    tableSize := (bulkPart c file).length + u.size2
    operations := ops
    operationsNum := num }, u, ?_, hu, ?_, hroom, ⟨sample, hgen⟩, m, hm, hins⟩
  · refine Option.bind_eq_some_iff.mpr ⟨_, hload, ?_⟩
    have hsize : (tableOf c d file).initTableSize = (bulkPart c file).length := by
      rw [htable, hbulk]
    rw [← hsize] at hgen ⊢
    refine Option.bind_eq_some_iff.mpr ⟨sample, hsample, ?_⟩
    refine Option.bind_eq_some_iff.mpr ⟨(u.keys, u.size2), hunique, ?_⟩
    exact Option.bind_eq_some_iff.mpr ⟨(ops, num), hgen, rfl⟩
  · show ((tableOf c d file).initKeys.map (fun k => (k, initValue))).map Prod.fst = _
    rw [List.map_map, hinit]
    exact List.map_id _

/-! ### What is inserted -/

omit [LinearOrder K] in
/-- One iteration that inserts. -/
theorem generateLoop_insert {r : Ratios} {sample keys : List K} {tableSize n : ℕ} {prob : ℕ → ℚ}
    {rest sampleCounter insertCounter : ℕ} {g : List (Operation × K) × ℕ} {key : K}
    (hsel : ∀ i, r.select (prob i) = .insert) (hkey : keys[insertCounter]? = some key)
    (hlt : insertCounter < tableSize)
    (h : generateLoop r sample keys tableSize n prob
    (rest + 1) sampleCounter insertCounter = some g) :
    ∃ g' sc, generateLoop r sample keys tableSize n prob rest sc (insertCounter + 1) = some g' ∧
      g.1 = (.insert, key) :: g'.1 := by
  rcases generateLoop_cases h with ⟨-, -, hle⟩ | ⟨key', g', sc, ic, hg', hcons, hins⟩
  · omega
  · obtain ⟨hkey', rfl⟩ := hins (hsel _)
    obtain rfl := Option.some.inj (hkey.symm.trans hkey')
    rw [hsel] at hcons
    exact ⟨g', sc, hg', hcons⟩

namespace ShiftRun
variable {c : Params} {d : Draws K} {file : List K} {s : State K} {u : Unique K}

/-- What `unique_data` leaves for the inserts if the bulk-loaded keys are distinct. -/
theorem kept (h : ShiftRun c d file s u) (hne : bulkPart c file ≠ [])
    (hd : (bulkPart c file).Nodup) :
    u.size2 = (keptKeys (bulkPart c file) (laterPart c file)).length ∧
      slice u.keys (bulkPart c file).length ((bulkPart c file).length + u.size2) =
        d.randomShuffle.val (keptKeys (bulkPart c file) (laterPart c file)) :=
  uniqueDataAll_kept hne hd h.unique

theorem insertable_eq (h : ShiftRun c d file s u) (hne : bulkPart c file ≠ [])
    (hd : (bulkPart c file).Nodup) : insertStart c
    (bulkPart c file).length u.size2 + insertable c file =
      (bulkPart c file).length + u.size2 := by
  have hlen := length_keptKeys (bulkPart c file) (laterPart c file)
  obtain ⟨hsize, -⟩ := h.kept hne hd
  have heq : insertable c file = u.size2 - if c.workloadShiftTest then u.size2 / 2 else 0 := by
    unfold insertable laterKeys
    rw [hsize, hlen]
  rw [heq]
  unfold insertStart
  split <;> omega

theorem bulkPart_ne_nil (h : ShiftRun c d file s u) (hc : c.dataShift = true)
    (hpos : 0 < (c.operationsNum : ℕ)) : bulkPart c file ≠ [] := by
  have hl := loads_of_prepared hc h.prepared
  have hlen := hl.length_bulkPart
  have hinit := hl.sampled.resolve_left (by omega)
  exact List.ne_nil_of_length_pos (by omega)

/-- Only later keys are inserted. -/
theorem mem_insertKeys (h : ShiftRun c d file s u) (hne : bulkPart c file ≠ [])
    (hd : (bulkPart c file).Nodup) {k : K} (hk : k ∈ insertKeys s.operations) :
    k ∈ laterKeys c file := by
  obtain ⟨-, hslice⟩ := h.kept hne hd
  obtain ⟨m, hm, hins⟩ := h.inserts
  rw [hins] at hk
  have hsub := slice_sublist_slice (l := u.keys) (a := (bulkPart c file).length)
    (i := insertStart c (bulkPart c file).length u.size2) (by unfold insertStart; split <;> omega)
    (Nat.le_add_right _ m) hm h.room
  have hk := hsub.subset hk
  rw [hslice, (d.randomShuffle.property _).mem_iff] at hk
  exact mem_laterKeys.mpr (mem_of_mem_keptKeys hk)

/-- A list of at most one key has no order. -/
theorem inserts_few (h : ShiftRun c d file s u) (hne : bulkPart c file ≠ [])
    (hk : KeepsOrder c file) (hprob : ∀ i, 0 ≤ d.prob i ∧ d.prob i < 1) :
    (insertKeys s.operations).length ≤ 1 := by
  have hle : (insertKeys s.operations).length ≤ s.operations.length := List.length_filterMap_le ..
  obtain ⟨sample, hgen⟩ := h.generated
  obtain ⟨hlen, hkinds, -⟩ := generateLoop_kinds _ _ _ _ _ _ _ _ _ _ le_rfl hgen
  have hlen : s.operations.length ≤ c.operationsNum := hlen
  rcases hk.few with hone | hnone | hfew
  · omega
  · have hnil : insertKeys s.operations = [] := by
      unfold insertKeys
      refine List.filterMap_eq_nil_iff.mpr (fun op hop => if_neg (fun hins => ?_))
      obtain ⟨i, hi, rfl⟩ := List.getElem_of_mem hop
      have hkind := hkinds i _ (List.getElem?_eq_getElem hi)
      exact hnone _ (hprob _).1 (hprob _).2 (hkind.symm.trans hins)
    rw [hnil]
    exact Nat.zero_le 1
  · obtain ⟨m, hm, hins⟩ := h.inserts
    have hroom := h.room
    have heq := h.insertable_eq hne hk.distinct
    rw [hins, length_slice (by omega)]
    omega

theorem fileOrder (h : ShiftRun c d file s u) (hc : c.dataShift = true) (hk : KeepsOrder c file)
    (hprob : ∀ i, 0 ≤ d.prob i ∧ d.prob i < 1) : FileOrder c file s := by
  refine ⟨?_, ?_⟩
  · rw [h.bulkLoad]
    have hnodup := (List.perm_insertionSort (· ≤ ·) (bulkPart c file)).nodup_iff.mpr hk.distinct
    exact ((List.pairwise_insertionSort (· ≤ ·) _).and hnodup).imp (fun h => lt_of_le_of_ne h.1 h.2)
  · rcases Nat.eq_zero_or_pos (c.operationsNum : ℕ) with hzero | hpos
    · obtain ⟨sample, hgen⟩ := h.generated
      rw [hzero] at hgen
      obtain ⟨hlen, -⟩ := generateLoop_kinds _ _ _ _ _ _ _ _ _ _ le_rfl hgen
      have hlen : s.operations.length ≤ 0 := hlen
      rw [List.eq_nil_of_length_eq_zero (Nat.le_zero.mp hlen)]
      exact List.nil_sublist _
    · have hne := h.bulkPart_ne_nil hc hpos
      have hone := h.inserts_few hne hk hprob
      have hmem := fun k => h.mem_insertKeys (k := k) hne hk.distinct
      cases hins : insertKeys s.operations with
      | nil => exact List.nil_sublist _
      | cons k ks =>
          rw [hins] at hone hmem
          obtain rfl : ks = [] := List.eq_nil_of_length_eq_zero (by simpa using hone)
          exact List.singleton_sublist.mpr (hmem k (List.mem_cons_self ..))

/-- If every number selects an `INSERT`, the first two keys that can be inserted are. -/
theorem first_two (h : ShiftRun c d file s u) (hne : bulkPart c file ≠ [])
    (hd : (bulkPart c file).Nodup) (hsel : ∀ i, c.ratios.select (d.prob i) = .insert)
    (htwo : 2 ≤ (c.operationsNum : ℕ)) {X Y : List K} {x y : K}
    (hshuffle : d.randomShuffle.val
    (keptKeys (bulkPart c file) (laterPart c file)) = X ++ x :: y :: Y)
    (hX : (bulkPart c file).length + X.length = insertStart c (bulkPart c file).length u.size2) :
    [x, y].Sublist (insertKeys s.operations) := by
  obtain ⟨hsize, hslice⟩ := h.kept hne hd
  rw [hshuffle] at hslice
  have hroom := h.room
  have hlen : u.size2 = X.length + (Y.length + 2) := by
    have hl := congrArg List.length hslice
    rw [length_slice (by omega), List.length_append, List.length_cons, List.length_cons] at hl
    omega
  have hget : ∀ i, i < u.size2 →
    u.keys[(bulkPart c file).length + i]? = (X ++ x :: y :: Y)[i]? := by
    intro i hi
    rw [← hslice, getElem?_slice (by omega)]
  obtain ⟨sample, hgen⟩ := h.generated
  obtain ⟨n, hn⟩ : ∃ n, (c.operationsNum : ℕ) = n + 2 := ⟨c.operationsNum - 2, by omega⟩
  rw [← hX, hn] at hgen
  have hx := hget X.length (by omega)
  have hy := hget (X.length + 1) (by omega)
  rw [List.getElem?_append_right le_rfl, Nat.sub_self] at hx
  rw [List.getElem?_append_right (Nat.le_succ _), Nat.succ_sub (le_refl X.length),
    Nat.sub_self] at hy
  obtain ⟨g, sc, hg, hops⟩ := generateLoop_insert hsel hx (by omega) hgen
  obtain ⟨g', -, -, hops'⟩ := generateLoop_insert hsel hy (by omega) hg
  have hins : insertKeys s.operations = x :: y :: insertKeys g'.1 := by
    rw [show s.operations = _ from hops, hops']
    rfl
  rw [hins]
  exact ((List.nil_sublist _).cons_cons y).cons_cons x

end ShiftRun

/-! ### Every run -/

/-- Exchange two neighbours of one list. -/
def exchange (X Y : List K) (x y : K) : Shuffle K where
  val l := if l = X ++ x :: y :: Y then X ++ y :: x :: Y else l
  property l := by
    show (if l = X ++ x :: y :: Y then X ++ y :: x :: Y else l).Perm l
    split
    · rename_i h
      rw [h]
      exact List.Perm.append_left X (List.Perm.swap x y Y)
    · exact List.Perm.refl l

/-- The same number for every operation, and a shuffle for `unique_data`. -/
def shuffledDraws (p : ℚ) (s : Shuffle K) : Draws K := { constantDraws K p with randomShuffle := s }

/-- Two keys that can be inserted are inserted in both orders. -/
theorem not_fileOrder_of_two {c : Params} {file : List K} (hc : c.dataShift = true)
    (hl : Loads c file) (hd : (bulkPart c file).Nodup) (htwo : 2 ≤ (c.operationsNum : ℕ)) {p : ℚ}
    (hp : 0 ≤ p ∧ p < 1) (hsel : c.ratios.select p = .insert) (hins : 2 ≤ insertable c file) :
    ¬ ∀ (d : Draws K) (s : State K), (∀ i, 0 ≤ d.prob i ∧ d.prob i < 1) →
      prepared c d file = some s → FileOrder c file s := by
  intro hall
  have hdraws : ∀ (s : Shuffle K) (i : ℕ), 0 ≤ (shuffledDraws p s).prob i ∧
      (shuffledDraws p s).prob i < 1 := fun _ _ => hp
  obtain ⟨s, u, hrun⟩ := exists_shiftRun hc hl (shuffledDraws p ⟨id, List.Perm.refl⟩)
  have hne := hrun.bulkPart_ne_nil hc (by omega)
  obtain ⟨hsize, -⟩ := hrun.kept hne hd
  have hroom := hrun.insertable_eq hne hd
  obtain ⟨off, hoff⟩ : ∃ off, (bulkPart c file).length + off =
      insertStart c (bulkPart c file).length u.size2 :=
    ⟨_, Nat.add_sub_cancel' (by unfold insertStart; split <;> omega)⟩
  -- the first two keys that can be inserted
  obtain ⟨X, x, y, Y, hX, hkept⟩ : ∃ X x y Y, X.length = off ∧
      keptKeys (bulkPart c file) (laterPart c file) = X ++ x :: y :: Y :=
    exists_neighbours (by omega)
  rw [← hX] at hoff
  have hxy := (hall _ s (hdraws _) hrun.prepared).inserts
  obtain ⟨s', u', hrun'⟩ := exists_shiftRun hc hl (shuffledDraws p (exchange X Y x y))
  have hyx := (hall _ s' (hdraws _) hrun'.prepared).inserts
  have hsize' : u'.size2 = u.size2 := (hrun'.kept hne hd).1.trans hsize.symm
  have hswap : (exchange X Y x y).val (keptKeys (bulkPart c file) (laterPart c file)) =
      X ++ y :: x :: Y := if_pos hkept
  have hfirst := hrun.first_two hne hd (fun _ => hsel) htwo hkept hoff
  have hsecond := hrun'.first_two hne hd (fun _ => hsel) htwo hswap (by rw [hsize']; exact hoff)
  exact not_sublist_swap (nodup_laterKeys c file) (hfirst.trans hxy) (hsecond.trans hyx)

/-- **`data_shift` keeps the order of the file** in every run exactly if the bulk-loaded keys are
distinct and at most one key is inserted, or the driver does not get through. -/
theorem dataShift_keeps_order_iff (c : Params) (file : List K) (hc : c.dataShift = true) :
    (∀ (d : Draws K) (s : State K), (∀ i, 0 ≤ d.prob i ∧ d.prob i < 1) →
    prepared c d file = some s →
      FileOrder c file s) ↔ (Loads c file → KeepsOrder c file) := by
  constructor
  · intro hall hl
    have hdistinct : (bulkPart c file).Nodup := by
      obtain ⟨s, u, hrun⟩ := exists_shiftRun hc hl (constantDraws K 0)
      have hbulk := (hall _ s (fun _ => ⟨le_rfl, zero_lt_one⟩) hrun.prepared).bulkLoad
      rw [hrun.bulkLoad] at hbulk
      exact (List.perm_insertionSort (· ≤ ·) _).nodup_iff.mp (hbulk.imp (fun h => ne_of_lt h))
    refine ⟨hdistinct, ?_⟩
    by_contra hmany
    simp only [not_or, not_forall, not_not, not_le] at hmany
    obtain ⟨htwo, ⟨p, h0, h1, hsel⟩, hins⟩ := hmany
    exact not_fileOrder_of_two hc hl hdistinct htwo ⟨h0, h1⟩ hsel hins hall
  · intro hkeeps d s hprob hprep
    have hl := loads_of_prepared hc hprep
    obtain ⟨s', u, hrun⟩ := exists_shiftRun hc hl d
    obtain rfl := Option.some.inj (hrun.prepared.symm.trans hprep)
    exact hrun.fileOrder hc (hkeeps hl) hprob

/-- Bulk load half of the keys in the order of the file, and read or insert. -/
def shiftHalf (readRatio insertRatio : ℚ) : Params :=
  { readInsert (1 / 2) false false with
    readRatio := readRatio
    insertRatio := insertRatio
    dataShift := true }

/-- A workload that only reads. -/
theorem dataShift_keeps_order_reads : ∃ s, prepared (shiftHalf 1 0) (constantDraws ℕ 0)
    [8, 3, 9, 7] =
    some s ∧ FileOrder (shiftHalf 1 0) [8, 3, 9, 7] s := by
  obtain ⟨s, hs⟩ : ∃ s, prepared (shiftHalf 1 0) (constantDraws ℕ 0) [8, 3, 9, 7] = some s :=
    Option.isSome_iff_exists.mp (by decide +kernel)
  have hkeeps : KeepsOrder (shiftHalf 1 0) [8, 3, 9, 7] := by
    refine ⟨by decide +kernel, Or.inr (Or.inl (fun p _ h1 => ?_))⟩
    rw [show (shiftHalf 1 0).ratios.select p = .read from if_pos h1]
    exact nofun
  exact ⟨s, hs, (dataShift_keeps_order_iff (shiftHalf 1 0) [8, 3, 9, 7] rfl).mpr
    (fun _ => hkeeps) _ s
    (fun _ => ⟨le_rfl, zero_lt_one⟩) hs⟩

/-- A duplicate is bulk loaded twice, and `unique_data` puts 7 before 9. -/
theorem dataShift_breaks_order : ∃ s, prepared (shiftHalf 0 1) (constantDraws ℕ 0)
    [8, 8, 9, 7] = some s ∧
    s.initKeyValues.map Prod.fst = [8, 8] ∧ s.operations = [(.insert, 7), (.insert, 9)] ∧
      laterKeys (shiftHalf 0 1) [8, 8, 9, 7] = [9, 7] ∧
      ¬ FileOrder (shiftHalf 0 1) [8, 8, 9, 7] s := by
  obtain ⟨s, hs⟩ : ∃ s, prepared (shiftHalf 0 1) (constantDraws ℕ 0) [8, 8, 9, 7] = some s :=
    Option.isSome_iff_exists.mp (by decide +kernel)
  have hread : (prepared (shiftHalf 0 1) (constantDraws ℕ 0) [8, 8, 9, 7]).map (fun s =>
      (s.initKeyValues.map Prod.fst, s.operations)) =
        some ([8, 8], [(.insert, 7), (.insert, 9)]) := by decide +kernel
  rw [hs, Option.map_some] at hread
  obtain ⟨hbulk, hops⟩ := Prod.mk.inj (Option.some.inj hread)
  refine ⟨s, hs, hbulk, hops, by decide +kernel, fun hfile => ?_⟩
  have hlt := hfile.bulkLoad
  rw [hbulk] at hlt
  exact absurd hlt (by decide)

end LearnedIndex.Benchmark
