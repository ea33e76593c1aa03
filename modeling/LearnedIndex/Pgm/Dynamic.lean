import LearnedIndex.Lib.Runs
import Mathlib.Data.Nat.Log

/-! # The dynamic PGM index

`DynamicPGMIndex` of `pgm_index_dynamic.hpp`, as changed for the benchmark, and the calls of
`pgmInterface` that read and write it.

* **Levels.** `levels` holds the sorted buffer and behind it the levels of growing size; level `i`
  is at position `i - min_level`.
* **The static index.** `PGMType` is a parameter: it is built over the keys of a level from
  `MinIndexedLevel` on, and its `search` returns a range of positions.
* **Temporary arrays.** A merge alternates between `tmp_a` and `tmp_b`; a slot that was never
  written is `none`, and reading it or writing behind an array fails.
* **Failure.** `none` is a thrown exception or an access outside an array. -/

namespace LearnedIndex.Pgm

open LearnedIndex.Runs

/-- What the container uses of a static index over sorted keys. -/
class PgmType (K : Type) (PGM : Type) where
  empty : PGM
  build : List K → PGM
  search : PGM → K → ℕ × ℕ

def minLevel : ℕ := 6
def minIndexedLevel : ℕ := 18

/-- `buffer_max_size`. -/
def bufferMaxSize : ℕ := 2 ^ (minLevel + 1) - 1

/-- `ItemA`: a pair, deleted when its value is the tombstone. -/
structure Item (K V : Type) where
  first : K
  second : V
deriving DecidableEq

/-- `DynamicPGMIndex`. -/
structure DynamicPGMIndex (K V PGM : Type) where
  usedLevels : ℕ
  levels : List (List (Item K V))
  pgms : List PGM

variable {K V PGM : Type} [LinearOrder K] [DecidableEq V] [PgmType K PGM] (tombstone : V)

namespace Item

def deleted (x : Item K V) : Bool := decide (x.second = tombstone)

/-- `ItemA(key, value)`, which throws for the reserved value. -/
def ofPair (key : K) (value : V) : Option (Item K V) :=
  if value = tombstone then none else some ⟨key, value⟩

end Item

/-- `ceil_log2`. -/
def ceilLog2 (n : ℕ) : ℕ := Nat.clog 2 n

/-! ### Temporary arrays -/

/-- Write a run at the front of an array. -/
def overwrite {α : Type} (array : List (Option α)) (run : List α) : Option (List (Option α)) :=
  if run.length ≤ array.length then some (run.map some ++ array.drop run.length) else none

/-- Read the first `size` slots of an array. -/
def readRun {α : Type} (array : List (Option α)) (size : ℕ) : Option (List α) :=
  if size ≤ array.length then (array.take size).mapM id else none

namespace DynamicPGMIndex

/-- Level `i`. -/
def level (d : DynamicPGMIndex K V PGM) (i : ℕ) : Option (List (Item K V)) :=
  d.levels[i - minLevel]?

def setLevel (d : DynamicPGMIndex K V PGM) (i : ℕ) (l : List (Item K V)) :
    Option (DynamicPGMIndex K V PGM) :=
  if i - minLevel < d.levels.length then
    some { d with levels := d.levels.set (i - minLevel) l }
  else none

/-- Write `pgm(i)`, for an indexed level only. -/
def setPgm (d : DynamicPGMIndex K V PGM) (i : ℕ) (p : PGM) : Option (DynamicPGMIndex K V PGM) :=
  if i < minIndexedLevel then some d
  else if i - minIndexedLevel < d.pgms.length then
    some { d with pgms := d.pgms.set (i - minIndexedLevel) p }
  else none

/-! ### Inserting -/

/-- `merge<SkipDeleted>`: the items of the first range are newer. -/
def merge (skipDeleted : Bool) : List (Item K V) → List (Item K V) → List (Item K V) :=
  Runs.merge Item.first (fun x => skipDeleted && x.deleted tombstone)

/-- The two temporary arrays and the size of the run that was written last. -/
structure Tmp (K V : Type) where
  a : List (Option (Item K V))
  b : List (Option (Item K V))
  actualSize : ℕ

/-- One round of the loop of `pairwise_merge`: merge level `i` into the run and empty it. -/
def mergeLevel (mod : ℕ) (i : ℕ) (s : DynamicPGMIndex K V PGM × Tmp K V) :
    Option (DynamicPGMIndex K V PGM × Tmp K V) := do
  let (d, t) := s
  let alternate := (i - minLevel) % 2 = mod
  let run ← readRun (if alternate then t.a else t.b) t.actualSize
  let l ← d.level i
  let canDeletePermanently := decide (i = d.usedLevels - 1)
  let out := merge tombstone canDeletePermanently run l
  let array ← overwrite (if alternate then t.b else t.a) out
  let t := if alternate then ⟨t.a, array, out.length⟩ else ⟨array, t.b, out.length⟩
  let d ← d.setLevel i []
  let d ← d.setPgm i (PgmType.empty K)
  some (d, t)

/-- The rounds for `n` levels from `i` on. -/
def mergeLevels (mod : ℕ) : ℕ → ℕ → DynamicPGMIndex K V PGM × Tmp K V →
    Option (DynamicPGMIndex K V PGM × Tmp K V)
  | 0, _, s => some s
  | n + 1, i, s => do
      let s ← mergeLevel tombstone mod i s
      mergeLevels mod n (i + 1) s

/-- `pairwise_merge`: the new item, the buffer and the levels up to `upToLevel`, and the target
level if it is not empty, become one level. -/
def pairwiseMerge (d : DynamicPGMIndex K V PGM) (newItem : Item K V) (upToLevel sizeHint : ℕ)
    (insertionIdx : ℕ) : Option (DynamicPGMIndex K V PGM) := do
  let targetLevel ← d.level (upToLevel + 1)
  let tmpA := List.replicate sizeHint none
  let tmpB := List.replicate (sizeHint + targetLevel.length) none
  let mod := (upToLevel - minLevel) % 2
  -- the new item in sorted order in the first level
  let buffer ← d.levels[0]?
  let run := buffer.take insertionIdx ++ newItem :: buffer.drop insertionIdx
  let array ← overwrite (if mod = 1 then tmpA else tmpB) run
  let t := if mod = 1 then Tmp.mk array tmpB
    (2 ^ (1 + minLevel)) else ⟨tmpA, array, 2 ^ (1 + minLevel)⟩
  let limit := if targetLevel = [] then upToLevel else upToLevel + 1
  let (d, t) ← mergeLevels tombstone mod (limit - minLevel) (1 + minLevel) (d, t)
  -- the result is expected in the second array
  let result ← readRun t.b t.actualSize
  let target := max (ceilLog2 t.actualSize) (minLevel + 1)
  let d ← d.setLevel minLevel []
  let d ← d.setLevel target result
  d.setPgm target (PgmType.build (result.map Item.first))

/-- The first level with room for the buffer and the levels before it, and the slots they need. -/
def chooseLevel (d : DynamicPGMIndex K V PGM) : ℕ → ℕ → ℕ → Option (ℕ × ℕ)
  | 0, i, slotsRequired => some (i, slotsRequired)
  | n + 1, i, slotsRequired => do
      let l ← d.level i
      if slotsRequired ≤ 2 ^ i - l.length then some (i, slotsRequired)
      else chooseLevel d n (i + 1) (slotsRequired + l.length)

/-- The level that a full buffer is merged into. -/
def mergeTarget (d : DynamicPGMIndex K V PGM) : Option (ℕ × ℕ) :=
  d.chooseLevel (d.usedLevels - (minLevel + 1)) (minLevel + 1) (bufferMaxSize + 1)

/-- A new level at the end, with an index if it is large enough. -/
def addLevel (d : DynamicPGMIndex K V PGM) (i : ℕ) : DynamicPGMIndex K V PGM where
  usedLevels := d.usedLevels + 1
  levels := d.levels ++ [[]]
  pgms := if (d.pgms.length : ℤ) ≤ (i : ℤ) - minIndexedLevel then d.pgms ++ [PgmType.empty K]
    else d.pgms

/-- Store an item whose key is not in the buffer. -/
def insertNew (d : DynamicPGMIndex K V PGM) (buffer : List (Item K V)) (newItem : Item K V)
    (insertionIdx : ℕ) : Option (DynamicPGMIndex K V PGM) := do
  if buffer.length < bufferMaxSize then
    let d ← d.setLevel minLevel (buffer.take insertionIdx ++ newItem :: buffer.drop insertionIdx)
    some { d with usedLevels := if d.usedLevels = minLevel then minLevel + 1 else d.usedLevels }
  else
    let (i, slotsRequired) ← d.mergeTarget
    let d := if i = d.usedLevels then d.addLevel i else d
    pairwiseMerge tombstone d newItem (i - 1) slotsRequired insertionIdx

/-- `insert(const Item &)`: an item of the buffer with the same key stays as it is. -/
def insertItem (d : DynamicPGMIndex K V PGM) (newItem : Item K V) :
    Option (Bool × DynamicPGMIndex K V PGM) := do
  let buffer ← d.levels[0]?
  let insertionPoint := lowerBound Item.first buffer newItem.first
  if (buffer[insertionPoint]?).map Item.first = some newItem.first then some (false, d)
  else
    let d ← d.insertNew tombstone buffer newItem insertionPoint
    some (true, d)

/-- `insert(key, value)`. -/
def insert (d : DynamicPGMIndex K V PGM) (key : K) (value : V) :
    Option (Bool × DynamicPGMIndex K V PGM) := do
  let newItem ← Item.ofPair tombstone key value
  d.insertItem tombstone newItem

/-- `erase`: a tombstone is inserted. -/
def erase (d : DynamicPGMIndex K V PGM) (key : K) : Option (DynamicPGMIndex K V PGM) :=
  (d.insertItem tombstone ⟨key, tombstone⟩).map (fun r => r.2)

/-! ### Finding -/

/-- The range of positions of level `i` that is searched for a key. -/
def searchRange (d : DynamicPGMIndex K V PGM) (i : ℕ) (l : List (Item K V)) (key : K) :
    Option (ℕ × ℕ) :=
  if i < minIndexedLevel then some (0, l.length)
  else (d.pgms[i - minIndexedLevel]?).map (fun p => PgmType.search p key)

/-- `std::lower_bound` between two positions of a level. -/
def lowerBoundIn (l : List (Item K V)) (lo hi : ℕ) (key : K) : Option ℕ :=
  if lo ≤ hi ∧ hi ≤ l.length then
    some (lo + lowerBound Item.first ((l.take hi).drop lo) key)
  else none

/-- The loop of `find` over `n` levels from `i` on: the item with the key in the first of them
that has one. -/
def findFrom (d : DynamicPGMIndex K V PGM) (key : K) : ℕ → ℕ → Option (Option (Item K V))
  | 0, _ => some none
  | n + 1, i => do
      let l ← d.level i
      if l = [] then findFrom d key n (i + 1)
      else
        let (lo, hi) ← d.searchRange i l key
        let it ← lowerBoundIn l lo hi key
        match l[it]? with
        | some x => if x.first = key then some (some x) else findFrom d key n (i + 1)
        | none => findFrom d key n (i + 1)

/-- `find`, with the value of the element; `none` inside is `end()`. -/
def find (d : DynamicPGMIndex K V PGM) (key : K) : Option (Option V) := do
  let found ← d.findFrom key (d.usedLevels - minLevel) minLevel
  match found with
  | some x => if x.deleted tombstone then some none else some (some x.second)
  | none => some none

/-! ### Loading -/

/-- Copy the first of each group of pairs with the same key, behind `last`. -/
def copyFirsts : List (Item K V) → Item K V → List (K × V) → Option (List (Item K V))
  | out, last, [] => some (out ++ [last])
  | out, last, x :: values =>
      if x.1 < last.first then none
      else if x.1 = last.first then copyFirsts out last values
      else do
        let item ← Item.ofPair tombstone x.1 x.2
        copyFirsts (out ++ [last]) item values

/-- `DynamicPGMIndex(first, last)`. -/
def ofRange (values : List (K × V)) : Option (DynamicPGMIndex K V PGM) :=
  let n := values.length
  let usedLevels := max (ceilLog2 n) minLevel + 1
  let levels := List.replicate (max usedLevels 32 - minLevel + 1) []
  match values with
  | [] => some ⟨minLevel, levels, []⟩
  | x :: rest => do
      let item ← Item.ofPair tombstone x.1 x.2
      let target ← copyFirsts tombstone [] item rest
      let d ← setLevel ⟨usedLevels, levels,
        List.replicate (usedLevels - minIndexedLevel) (PgmType.empty K)⟩ (usedLevels - 1) target
      d.setPgm (usedLevels - 1) (PgmType.build (target.map Item.first))

end DynamicPGMIndex

/-! ### The interface -/

open DynamicPGMIndex

/-- The calls of `pgmInterface` that write. -/
inductive Call (K V : Type) where
  | bulkLoad (keyValue : List (K × V))
  | put (key : K) (value : V)
  | remove (key : K)

/-- A call on the interface; the container exists from the first `bulk_load` on. -/
def Call.run (index : Option (DynamicPGMIndex K V PGM)) :
    Call K V → Option (Option (DynamicPGMIndex K V PGM))
  | .bulkLoad keyValue => (ofRange tombstone keyValue).map some
  | .put key value => do
      let d ← index
      let r ← d.insert tombstone key value
      some (some r.2)
  | .remove key => do
      let d ← index
      let d ← d.erase tombstone key
      some (some d)

/-- A sequence of calls. -/
def runCalls (index : Option (DynamicPGMIndex K V PGM)) :
    List (Call K V) → Option (Option (DynamicPGMIndex K V PGM))
  | [] => some index
  | c :: cs => do
      let index ← c.run tombstone index
      runCalls index cs

/-- `get`: the value found, if any. -/
def get (index : Option (DynamicPGMIndex K V PGM)) (key : K) : Option (Option V) := do
  let d ← index
  d.find tombstone key

end LearnedIndex.Pgm
