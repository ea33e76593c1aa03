import LearnedIndex.Lib.Ranges
import LearnedIndex.Alexol.Base

/-! # The benchmark driver (`benchmark.h`, `utils.h`)

`Benchmark` loads a key file, bulk loads some of its keys, builds a list of operations and runs it
on every index type with every thread count.  The member `keys` is one array that `load_keys`,
`unique_data` and `run` rearrange in place; ranges of it are edited with `Ranges`.

Numbers that the source computes in `double` are exact rationals; so 100 keys and a ratio of 0.29
make 29 keys to bulk load, where the product of doubles is truncated to 28.  What is drawn at random
is an input (`Draws`).  A function returns `none` where the source leaves the program, accesses an
array outside its range, or counts an `int` past its largest value.  What is printed is left out. -/

namespace LearnedIndex.Benchmark

open LearnedIndex.Ranges LearnedIndex.Alexol

inductive Operation where
  | read
  | insert
  | delete
  | scan
  | update
deriving DecidableEq

inductive KeysFileType where
  | binary
  | text
  | other
deriving DecidableEq

inductive SampleDistribution where
  | uniform
  | zipf
deriving DecidableEq

/-- The parameters that `parse_args` sets. -/
structure Params where
  readRatio : ℚ
  insertRatio : ℚ
  updateRatio : ℚ
  /-- `stoi` gives an `int`, and `reserve` refuses a negative number. -/
  operationsNum : Fin (2 ^ 31)
  tableSize : ℤ
  initTableRatio : ℚ
  keysFileType : KeysFileType
  sampleDistribution : SampleDistribution
  datasetStatistic : Bool
  workloadShiftTest : Bool
  writeRatioBegin : ℚ
  writeRatioEnd : ℚ
  dataShift : Bool

/-- What is drawn at random. -/
structure Draws (K : Type) where
  /-- `std::shuffle` in `load_keys`. -/
  shuffle : Shuffle K
  /-- `std::random_shuffle` in `unique_data`. -/
  randomShuffle : Shuffle K
  /-- The number behind each sampled position. -/
  sample : ℕ → ℕ
  /-- `ratio_dis(gen)` for each operation. -/
  prob : ℕ → ℚ

/-- The members that the driver computes. -/
structure State (K : Type) where
  keys : List K
  tableSize : ℕ
  initTableSize : ℕ
  initKeys : List K
  initKeyValues : List (K × ℕ)
  operations : List (Operation × K)
  operationsNum : ℕ
deriving DecidableEq

/-- A loop with an `int` counter up to the `size_t` bound `n`.  Behind `2^31` elements the counter
becomes negative, which ends the loop: there must be no further element. -/
def intLoop (n : ℕ) : Option Unit := if n ≤ 2 ^ 31 then some () else none

/-- A `size_t` that is passed as a number of keys of type `int`. -/
def intArgument (n : ℕ) : Option Unit := if n < 2 ^ 31 then some () else none

/-- The conversion of an integer to `int`. -/
def toInt (n : ℤ) : ℤ := n.bmod (2 ^ 32)

/-! ### Sampling -/

/-- `std::uniform_int_distribution<int> dis(a, b)`, defined for `a ≤ b` only. -/
def uniformInt (a b : ℤ) (draw : ℕ) : Option ℤ :=
  if a ≤ b then some (a + (draw : ℤ) % (b - a + 1)) else none

def fnvPrime : BitVec 32 := 0x01000193#32
def fnvSeed : BitVec 32 := 0x811C9DC5#32

/-- `fnv1a` of one byte. -/
def fnv1aByte (oneByte hash : BitVec 32) : BitVec 32 := (oneByte ^^^ hash) * fnvPrime

/-- `fnv1a` of the four bytes of an `int`, from the lowest. -/
def fnv1a (fourBytes : BitVec 32) : BitVec 32 :=
  [0, 8, 16, 24].foldl (fun hash i => fnv1aByte ((fourBytes >>> i) &&& 0xFF#32) hash) fnvSeed

/-- The end of `ScrambledZipfianGenerator::nextValue`, for any number that was drawn before. -/
def nextValue (numKeys : ℤ) (ret : BitVec 32) : Option ℤ :=
  let numKeys := (numKeys % 2 ^ 32).toNat
  if numKeys = 0 then none else some (toInt ((fnv1a ret).toNat % numKeys : ℕ))

section
variable {K : Type} [LinearOrder K]

/-- `array[pos]` for an `int` position. -/
def readAt (array : List K) (pos : ℤ) : Option K := if pos < 0 then none else array[pos.toNat]?

/-- One sampled position. -/
def samplePosition (dist : SampleDistribution) (numKeys : ℤ) (draw : ℕ) : Option ℤ :=
  match dist with
  | .uniform => uniformInt 0 (toInt (numKeys - 1)) draw
  | .zipf => nextValue numKeys (BitVec.ofNat 32 draw)

/-- `get_search_keys` and `get_search_keys_zipf`. -/
def getSearchKeys (dist : SampleDistribution) (array : List K) (numKeys : ℤ) (numSearches : ℕ)
    (draw : ℕ → ℕ) : Option (List K) :=
  (List.range numSearches).mapM (fun i => do
    let pos ← samplePosition dist numKeys (draw i)
    readAt array pos)

/-! ### Loading keys -/

/-- The keys that `load_binary_data` and `load_text_data` read from a file, at most `length` of them
unless it is negative. -/
def loadData (length : ℤ) (file : List K) : List K :=
  if length < 0 ∨ (file.length : ℤ) < length then file else file.take length.toNat

/-- The array `keys` of `load_keys` and the table size. -/
def prepareKeys (c : Params) (d : Draws K) (data : List K) : List K × ℕ :=
  if c.dataShift then (data, data.length)
  else
    let (keys, tableSize) := uniqueRange 0 data.length (sortRange 0 data.length data)
    (shuffleRange d.shuffle 0 tableSize keys, tableSize)

def initTableSize (c : Params) (tableSize : ℕ) : ℕ := (trunc (c.initTableRatio * tableSize)).toNat

def initValue : ℕ := 123456789

def loadKeys (c : Params) (d : Draws K) (file : List K) : Option (State K) := do
  let data := loadData c.tableSize file
  match c.keysFileType with
  | .binary => some ()
  | .text => intLoop data.length
  | .other => none
  if data = [] then none
  else
    let (keys, tableSize) := prepareKeys c d data
    let initTableSize := initTableSize c tableSize
    if keys.length < initTableSize then none
    else
      let initKeys := (keys.take initTableSize).insertionSort (· ≤ ·)
      intLoop initKeys.length
      some {
        keys := keys
        tableSize := tableSize
        initTableSize := initTableSize
        initKeys := initKeys
        initKeyValues := initKeys.map (fun k => (k, initValue))
        operations := []
        operationsNum := c.operationsNum }

/-! ### Generating operations -/

/-- `while (key1[ptr1] < key2[ptr2] && ptr1 < size1) ptr1++`, which may read one key too far. -/
def skipSmaller (keys : List K) (size1 : ℕ) (key : K) : ℕ → ℕ → Option ℕ
  | 0, _ => none
  | fuel + 1, ptr1 => do
      let k ← keys[ptr1]?
      if k < key ∧ ptr1 < size1 then skipSmaller keys size1 key fuel (ptr1 + 1) else some ptr1

/-- Write `keys[pos]`. -/
def store (keys : List K) (pos : ℕ) (key : K) : Option (List K) :=
  if pos < keys.length then some (keys.set pos key) else none

/-- The first loop of `unique_data`: `keys`, `ptr2` and `result` at its end.  The array `key1` is
the front of `keys`, and `key2` begins at `start`. -/
def mergeLoop (size1 start size2 : ℕ) : ℕ → List K → ℕ → ℕ → ℕ → Option (List K × ℕ × ℕ)
  | 0, keys, ptr1, ptr2, result =>
      if ptr1 < size1 ∧ ptr2 < size2 then none else some (keys, ptr2, result)
  | fuel + 1, keys, ptr1, ptr2, result =>
      if ptr1 < size1 ∧ ptr2 < size2 then do
        let key ← keys[start + ptr2]?
        let ptr1 ← skipSmaller keys size1 key (size1 + 1) ptr1
        let k ← keys[ptr1]?
        if k = key then mergeLoop size1 start size2 fuel keys ptr1 (ptr2 + 1) result
        else
          let keys ← store keys (start + result) key
          mergeLoop size1 start size2 fuel keys ptr1 (ptr2 + 1) (result + 1)
      else some (keys, ptr2, result)

/-- `while (ptr2 < size2) key2[result++] = key2[ptr2++]`. -/
def copyRest (start size2 : ℕ) : ℕ → List K → ℕ → ℕ → Option (List K × ℕ)
  | 0, keys, ptr2, result => if ptr2 < size2 then none else some (keys, result)
  | fuel + 1, keys, ptr2, result =>
      if ptr2 < size2 then do
        let key ← keys[start + ptr2]?
        let keys ← store keys (start + result) key
        copyRest start size2 fuel keys (ptr2 + 1) (result + 1)
      else some (keys, result)

/-- `unique_data` for `key1` at the front of `keys` and `key2` behind it: the array, and the number
of keys of `key2` that are kept. -/
def uniqueData (s : Shuffle K) (keys : List K) (size1 size2 : ℕ) : Option (List K × ℕ) := do
  let start := size1
  let keys := sortRange 0 size1 keys
  let (keys, size1) := uniqueRange 0 size1 keys
  let keys := sortRange start (start + size2) keys
  let (keys, size2) := uniqueRange start (start + size2) keys
  let (keys, ptr2, result) ← mergeLoop size1 start size2 size2 keys 0 0 0
  let (keys, result) ← copyRest start size2 size2 keys ptr2 result
  some (shuffleRange s start (start + result) keys, result)

/-- The ratios that `generate_operations` uses. -/
structure Ratios where
  read : ℚ
  insert : ℚ
  update : ℚ

def Params.ratios (c : Params) : Ratios :=
  if c.workloadShiftTest then ⟨1 - c.writeRatioEnd, c.writeRatioEnd, c.updateRatio⟩
  else ⟨c.readRatio, c.insertRatio, c.updateRatio⟩

/-- The operation that a drawn number selects. -/
def Ratios.select (r : Ratios) (prob : ℚ) : Operation :=
  if prob < r.read then .read
  else if prob < r.read + r.insert then .insert
  else if prob < r.read + r.insert + r.update then .update
  else .scan

/-- The loop of `generate_operations` with `rest` iterations to go: the operations and the final
`operations_num`. -/
def generateLoop (r : Ratios) (sample keys : List K) (tableSize operationsNum : ℕ)
    (prob : ℕ → ℚ) : ℕ → ℕ → ℕ → Option (List (Operation × K) × ℕ)
  | 0, _, _ => some ([], operationsNum)
  | rest + 1, sampleCounter, insertCounter => do
      let i := operationsNum - (rest + 1)
      match r.select (prob i) with
      | .insert =>
          if tableSize ≤ insertCounter then some ([], i)
          else
            let key ← keys[insertCounter]?
            let (ops, n) ← generateLoop r sample keys tableSize operationsNum prob rest
              sampleCounter (insertCounter + 1)
            some ((.insert, key) :: ops, n)
      | op =>
          let key ← sample[sampleCounter]?
          let (ops, n) ← generateLoop r sample keys tableSize operationsNum prob rest
            (sampleCounter + 1) insertCounter
          some ((op, key) :: ops, n)

def generateOperations (c : Params) (d : Draws K) (s : State K) : Option (State K) := do
  let sample ← getSearchKeys c.sampleDistribution s.initKeys (toInt s.initTableSize)
    s.operationsNum d.sample
  let (keys, restKeyNum) ← uniqueData d.randomShuffle s.keys s.initTableSize
    (s.tableSize - s.initTableSize)
  let tableSize := s.initTableSize + restKeyNum
  let insertCounter :=
    if c.workloadShiftTest then s.initTableSize + restKeyNum / 2 else s.initTableSize
  let (operations, operationsNum) ← generateLoop c.ratios sample keys tableSize s.operationsNum
    d.prob s.operationsNum 0 insertCounter
  some { s with
    keys := keys
    tableSize := tableSize
    operations := operations
    operationsNum := operationsNum }

/-! ### Running -/

/-- A call of the measured index. -/
inductive Call (K : Type) where
  | get (key : K)
  | put (key : K) (value : ℕ)

/-- The numbers that the iterations of the warm-up loop draw before one that is at most
`write_ratio_begin`. -/
abbrev Rejected := ℕ → List ℚ

/-- One iteration of the warm-up loop. -/
def warmUpIteration (s : State K) (rejected : Rejected) (insertCounter : ℕ) :
    Option (List (Call K)) := do
  let gets ← (rejected insertCounter).mapM (fun randomNum => do
    let pos := (trunc ((insertCounter : ℚ) / randomNum)).toNat % s.initTableSize
    let key ← s.initKeys[pos]?
    some (Call.get key))
  let key ← s.keys[insertCounter]?
  some (gets ++ [.put key insertCounter])

def State.insertEnd (s : State K) : ℕ := s.initTableSize + (s.tableSize - s.initTableSize) / 2

/-- The warm-up loop of `run`: half of the keys that are not bulk loaded. -/
def warmUp (s : State K) (rejected : Rejected) : Option (List (Call K)) := do
  intLoop s.insertEnd
  let calls ← (List.range' s.initTableSize (s.insertEnd - s.initTableSize)).mapM
    (warmUpIteration s rejected)
  some calls.flatten

def Call.putKey : Call K → Option K
  | get _ => none
  | put key _ => some key

/-- What the measured index is given. -/
structure Given (K : Type) where
  bulkLoad : List (K × ℕ)
  operations : List (Operation × K)
  puts : List K
deriving DecidableEq

/-- The calls of the warm-up loop, if there is one. -/
def warmUpCalls (c : Params) (s : State K) (rejected : Rejected) : Option (List (Call K)) :=
  if c.workloadShiftTest then warmUp s rejected else some []

/-- `keys` after the dataset statistics; `PGM_metric` takes the number of keys as an `int` and sorts
them again. -/
def statisticKeys (c : Params) (s : State K) : Option (List K) :=
  if c.datasetStatistic then do
    let keys := sortRange 0 s.tableSize s.keys
    let (keys, keyNum) := uniqueRange 0 s.tableSize keys
    intArgument keyNum
    some (sortRange 0 keyNum keys)
  else some s.keys

/-- `prepare` and `run` for one index. -/
def run (c : Params) (s : State K) (rejected : Rejected) : Option (Given K × State K) := do
  let calls ← warmUpCalls c s rejected
  let given : Given K := {
    bulkLoad := s.initKeyValues
    operations := s.operations.take s.operationsNum
    puts := calls.filterMap Call.putKey }
  let keys ← statisticKeys c s
  some (given, { s with keys := keys })

/-- The loop of `run_benchmark` over the pairs of an index type and a thread count. -/
def runPairs {I : Type} (c : Params) : State K → List ((I × ℕ) × Rejected) → Option (List (Given K))
  | _, [] => some []
  | s, pair :: pairs => do
      let (given, s) ← run c s pair.2
      let rest ← runPairs c s pairs
      some (given :: rest)

def runBenchmark {I : Type} (c : Params) (d : Draws K) (file : List K) (allIndexType : List I)
    (allThreadNum : List ℕ) (rejected : ℕ → Rejected) : Option (List (Given K)) := do
  let s ← loadKeys c d file
  let s ← generateOperations c d s
  let pairs := allIndexType.flatMap (fun i => allThreadNum.map (fun t => (i, t)))
  runPairs c s (pairs.zip ((List.range pairs.length).map rejected))

end

end LearnedIndex.Benchmark
