import LearnedIndex.Alexol.Base

/-! # The gapped slot array of a data node

The part of `AlexDataNode` that lives in its arrays: `key_slots_`, `payload_slots_` and the
word-packed `bitmap_`, with the routines that read and write them (`alex_nodes.h`).

Every access goes through `l[i]?`, so a routine returns `none` exactly when the source would
read or write outside an array, or read a slot that was never written (a slot of a fresh array
is `none`).  The loops follow the source: the back-fill loop of `insert_element_at` and the two
shift loops run over positions, the word scan of `get_next_filled_position` and of the iterator
over bitmap words, and `closest_gap` is the `ALEX_USE_LZCNT` version. -/

namespace LearnedIndex.Alexol

open LearnedIndex.Words

/-- The arrays of a data node, with `data_capacity_` and `bitmap_size_`. -/
structure Slots (P : Type) where
  dataCapacity : ℕ
  bitmapSize : ℕ
  keySlots : List (Option ℤ)
  payloadSlots : List (Option P)
  bitmap : Bitmap
deriving DecidableEq

namespace Slots

variable {P : Type}

/-! ### Single slots -/

/-- Read `key_slots_[pos]`. -/
def keyAt (s : Slots P) (pos : ℕ) : Option ℤ := (s.keySlots[pos]?).join

/-- Read `payload_slots_[pos]`. -/
def payloadAt (s : Slots P) (pos : ℕ) : Option P := (s.payloadSlots[pos]?).join

/-- Write `key_slots_[pos]`. -/
def setKey (s : Slots P) (pos : ℕ) (key : ℤ) : Option (Slots P) :=
  if pos < s.keySlots.length then some { s with keySlots := s.keySlots.set pos (some key) }
  else none

/-- Write `payload_slots_[pos]`. -/
def setPayload (s : Slots P) (pos : ℕ) (payload : P) : Option (Slots P) :=
  if pos < s.payloadSlots.length then
    some { s with payloadSlots := s.payloadSlots.set pos (some payload) }
  else none

/-- Copy slot `src` over slot `dst`, in both arrays. -/
def copySlot (s : Slots P) (dst src : ℕ) : Option (Slots P) := do
  let key ← s.keySlots[src]?
  let payload ← s.payloadSlots[src]?
  if dst < s.keySlots.length ∧ dst < s.payloadSlots.length then
    some { s with
      keySlots := s.keySlots.set dst key
      payloadSlots := s.payloadSlots.set dst payload }
  else none

def checkExists (s : Slots P) (pos : ℕ) : Option Bool := do
  let bitmapPos := pos >>> 6
  let bitPos := pos - (bitmapPos <<< 6)
  let word ← s.bitmap[bitmapPos]?
  some ((word &&& (1#64 <<< bitPos)) != 0#64)

def setBit (s : Slots P) (pos : ℕ) : Option (Slots P) := do
  let bitmapPos := pos >>> 6
  let bitPos := pos - (bitmapPos <<< 6)
  let word ← s.bitmap[bitmapPos]?
  some { s with bitmap := s.bitmap.set bitmapPos (word ||| (1#64 <<< bitPos)) }

def unsetBit (s : Slots P) (pos : ℕ) : Option (Slots P) := do
  let bitmapPos := pos >>> 6
  let bitPos := pos - (bitmapPos <<< 6)
  let word ← s.bitmap[bitmapPos]?
  some { s with bitmap := s.bitmap.set bitmapPos (word &&& ~~~(1#64 <<< bitPos)) }

/-! ### Filled positions

Three routines start at a position that may be the capacity itself, and when the capacity is a
multiple of 64 the word they read first is the one just past `bitmap_`.  `past` is what that
read gives: `none` makes it an error, `some w` an arbitrary word of memory. -/

/-- Read `bitmap_[idx]`, at most one word too far. -/
def wordAt (past : Option Word) (s : Slots P) (idx : ℕ) : Option Word :=
  if idx = s.bitmapSize then past else s.bitmap[idx]?

/-- The word scan shared by `get_next_filled_position` and the iterator: skip zero words, then
take the rightmost one.  `none` inside is the end of the bitmap. -/
def scanWords (s : Slots P) : ℕ → ℕ → Word → Option (Option (ℕ × Word))
  | fuel, idx, data =>
      if data = 0#64 then
        if s.bitmapSize ≤ idx + 1 then some none
        else
          match fuel with
          | 0 => none
          | fuel + 1 => do
              let data ← s.bitmap[idx + 1]?
              scanWords s fuel (idx + 1) data
      else some (some (idx, data))

/-- First filled position at or after `pos` (after it if `exclusive`), or the capacity. -/
def getNextFilledPosition (past : Option Word) (s : Slots P) (pos : ℕ) (exclusive : Bool) :
    Option ℕ := do
  let pos := if exclusive then pos + 1 else pos
  if exclusive ∧ pos = s.dataCapacity then some s.dataCapacity
  else
    let curBitmapIdx := pos >>> 6
    let curBitmapData ← s.wordAt past curBitmapIdx
    let bitPos := pos - (curBitmapIdx <<< 6)
    let curBitmapData := curBitmapData &&& ~~~((1#64 <<< bitPos) - 1#64)
    match ← s.scanWords s.bitmapSize curBitmapIdx curBitmapData with
    | none => some s.dataCapacity
    | some (idx, data) => some (getOffset idx (extractRightmostOne data))

/-- `AlexDataNode::Iterator`: `curIdx = none` is the end position `-1`. -/
structure Iter where
  curIdx : Option ℕ
  curBitmapIdx : ℕ
  curBitmapData : Word

/-- `operator++`. -/
def Iter.next (s : Slots P) (it : Iter) : Option Iter := do
  match ← s.scanWords s.bitmapSize it.curBitmapIdx it.curBitmapData with
  | none => some { it with curIdx := none, curBitmapIdx := s.bitmapSize, curBitmapData := 0#64 }
  | some (idx, data) =>
      some ⟨some (getOffset idx (extractRightmostOne data)), idx, removeRightmostOne data⟩

/-- `Iterator(node, idx)`. -/
def Iter.init (past : Option Word) (s : Slots P) (idx : ℕ) : Option Iter := do
  let curBitmapIdx := idx >>> 6
  let data ← s.wordAt past curBitmapIdx
  let bitPos := idx - (curBitmapIdx <<< 6)
  Iter.next s ⟨some idx, curBitmapIdx, data &&& ~~~((1#64 <<< bitPos) - 1#64)⟩

/-- The positions an iterator visits until `is_end`. -/
def Iter.positions (s : Slots P) : ℕ → Iter → Option (List ℕ)
  | fuel, it =>
      match it.curIdx with
      | none => some []
      | some i =>
          match fuel with
          | 0 => none
          | fuel + 1 => do
              let it' ← Iter.next s it
              let rest ← Iter.positions s fuel it'
              some (i :: rest)

/-- All positions visited by an iterator started at `left`. -/
def positionsFrom (past : Option Word) (s : Slots P) (left : ℕ) : Option (List ℕ) := do
  let it ← Iter.init past s left
  Iter.positions s (64 * (s.bitmapSize + 1)) it

/-- Number of keys between positions `left` and `right` (exclusive). -/
def numKeysInRange (past : Option Word) (s : Slots P) (left right : ℕ) : Option ℕ := do
  let leftIdx := left >>> 6
  let rightIdx := right >>> 6
  if leftIdx = rightIdx then
    let data ← s.wordAt past leftIdx
    let data := data &&& ~~~((1#64 <<< (left - (leftIdx <<< 6))) - 1#64)
    let data := data &&& ((1#64 <<< (right - (rightIdx <<< 6))) - 1#64)
    some (countOnes data)
  else
    let leftData ← s.bitmap[leftIdx]?
    let leftData := leftData &&& ~~~((1#64 <<< (left - (leftIdx <<< 6))) - 1#64)
    let inner ← (List.range' (leftIdx + 1) (rightIdx - (leftIdx + 1))).mapM (fun i => s.bitmap[i]?)
    let n := countOnes leftData + (inner.map countOnes).sum
    if rightIdx = s.bitmapSize then some n
    else
      let rightData ← s.bitmap[rightIdx]?
      some (n + countOnes (rightData &&& ((1#64 <<< (right - (rightIdx <<< 6))) - 1#64)))

/-! ### Closest gap -/

/-- Last gap of the word with index `idx`, as `((idx + 1) << 6) - lzcnt(~word) - 1`. -/
def lastGapOf (idx : ℕ) (word : Word) : ℤ := ((idx : ℤ) + 1) * 64 - lzcnt (~~~word) - 1

/-- First gap of the word with index `idx`, as `(idx << 6) + tzcnt(~word)`. -/
def firstGapOf (idx : ℕ) (word : Word) : ℤ := (idx : ℤ) * 64 + tzcnt (~~~word)

/-- The comparison made whenever a gap is known on both sides. -/
def chooseGap (s : Slots P) (pos : ℕ) (leftGap rightGap : ℤ) : ℤ :=
  if (pos : ℤ) - leftGap ≤ rightGap - pos ∨ (s.dataCapacity : ℤ) ≤ rightGap then leftGap
  else rightGap

/-- One round of the two-sided search over whole words: a gap, or go on. -/
def closestGapRound (s : Slots P) (pos bitmapPos bitPos distance : ℕ) : Option (Option ℤ) := do
  let left ← s.bitmap[bitmapPos - distance]?
  let right ← s.bitmap[bitmapPos + distance]?
  if left ≠ BitVec.allOnes 64 ∧ right ≠ BitVec.allOnes 64 then
    some (some (s.chooseGap pos (lastGapOf (bitmapPos - distance) left)
      (firstGapOf (bitmapPos + distance) right)))
  else if left ≠ BitVec.allOnes 64 then
    -- the next block to the right may still be closer
    if 32 < bitPos ∧ bitmapPos + distance + 1 < s.bitmapSize then
      let right ← s.bitmap[bitmapPos + distance + 1]?
      if right ≠ BitVec.allOnes 64 then
        some (some (s.chooseGap pos (lastGapOf (bitmapPos - distance) left)
          (firstGapOf (bitmapPos + distance + 1) right)))
      else some (some (lastGapOf (bitmapPos - distance) left))
    else some (some (lastGapOf (bitmapPos - distance) left))
  else if right ≠ BitVec.allOnes 64 then
    if firstGapOf (bitmapPos + distance) right < s.dataCapacity then
      -- the next block to the left may still be closer
      if bitPos < 32 ∧ 0 < bitmapPos - distance then
        let left ← s.bitmap[bitmapPos - distance - 1]?
        if left ≠ BitVec.allOnes 64 then
          some (some (s.chooseGap pos (lastGapOf (bitmapPos - distance - 1) left)
            (firstGapOf (bitmapPos + distance) right)))
        else some (some (firstGapOf (bitmapPos + distance) right))
      else some (some (firstGapOf (bitmapPos + distance) right))
    else some none
  else some none

/-- The rounds for `distance, distance + 1, …, maxBoth`. -/
def closestGapRounds (s : Slots P) (pos bitmapPos bitPos : ℕ) : ℕ → ℕ → Option (Option ℤ)
  | 0, _ => some none
  | rounds + 1, distance => do
      match ← s.closestGapRound pos bitmapPos bitPos distance with
      | some gap => some (some gap)
      | none => closestGapRounds s pos bitmapPos bitPos rounds (distance + 1)

/-- `for (i = start - 1; i >= 0; i--)`: last gap in the words below `start`. -/
def scanGapLeft (s : Slots P) : ℕ → Option ℤ
  | 0 => some (-1)
  | i + 1 => do
      let word ← s.bitmap[i]?
      if word ≠ BitVec.allOnes 64 then some (lastGapOf i word) else scanGapLeft s i

/-- `for (i = start; i <= last; i++)`: first gap in the words from `start` on. -/
def scanGapRight (s : Slots P) : ℕ → ℕ → Option ℤ
  | 0, _ => some (-1)
  | n + 1, i => do
      let word ← s.bitmap[i]?
      if word ≠ BitVec.allOnes 64 then
        if (s.dataCapacity : ℤ) ≤ firstGapOf i word then some (-1) else some (firstGapOf i word)
      else scanGapRight s n (i + 1)

/-- The search outside the block of `pos`, which has no gap. -/
def closestGapOutside (s : Slots P) (pos bitmapPos bitPos : ℕ) : Option ℤ := do
  let rightBitmapPos := (s.dataCapacity - 1) >>> 6
  let maxLeft := bitmapPos
  let maxRight := rightBitmapPos - bitmapPos
  match ← s.closestGapRounds pos bitmapPos bitPos (min maxLeft maxRight) 1 with
  | some gap => some gap
  | none =>
      let distance := min maxLeft maxRight + 1
      if maxRight < maxLeft then s.scanGapLeft (bitmapPos - distance + 1)
      else s.scanGapRight (rightBitmapPos + 1 - (bitmapPos + distance)) (bitmapPos + distance)

/-- `closest_right_gap_distance`: gaps of the block at or after `bitPos`, else the next block. -/
def closestRightGapDistance (s : Slots P) (bitmapPos bitPos : ℕ) (word : Word) : Option ℤ :=
  let rightGaps := ~~~(word ||| ((1#64 <<< bitPos) - 1#64))
  if rightGaps ≠ 0#64 then some ((tzcnt rightGaps : ℤ) - bitPos)
  else if bitmapPos + 1 < s.bitmapSize then do
    let next ← s.bitmap[bitmapPos + 1]?
    some (64 + (tzcnt (~~~next) : ℤ) - bitPos)
  else some 64

/-- `closest_left_gap_distance`: gaps of the block before `bitPos`, else the block before. -/
def closestLeftGapDistance (s : Slots P) (bitmapPos bitPos : ℕ) (word : Word) : Option ℤ :=
  let leftGaps := ~~~word &&& ((1#64 <<< bitPos) - 1#64)
  if leftGaps ≠ 0#64 then some ((bitPos : ℤ) - (63 - lzcnt leftGaps))
  else if 0 < bitmapPos then do
    let prev ← s.bitmap[bitmapPos - 1]?
    some ((bitPos : ℤ) + lzcnt (~~~prev) + 1)
  else some 64

/-- The search inside the block of `pos`, looking one block further on each side. -/
def closestGapInside (s : Slots P) (pos bitmapPos bitPos : ℕ) (word : Word) : Option ℤ := do
  let rightDistance ← s.closestRightGapDistance bitmapPos bitPos word
  let leftDistance ← s.closestLeftGapDistance bitmapPos bitPos word
  if rightDistance < leftDistance ∧ (pos : ℤ) + rightDistance < s.dataCapacity then
    some (pos + rightDistance)
  else some (pos - leftDistance)

/-- Position of the closest gap to `pos`, `-1` if there is none. -/
def closestGap (s : Slots P) (pos : ℕ) : Option ℤ := do
  let pos := min pos (s.dataCapacity - 1)
  let bitmapPos := pos >>> 6
  let bitPos := pos - (bitmapPos <<< 6)
  let word ← s.bitmap[bitmapPos]?
  if word = BitVec.allOnes 64 ∨ (bitmapPos = s.bitmapSize - 1 ∧
      countOnes word = s.dataCapacity - ((s.bitmapSize - 1) <<< 6)) then
    s.closestGapOutside pos bitmapPos bitPos
  else s.closestGapInside pos bitmapPos bitPos word

/-! ### Inserting and erasing -/

/-- `while (pos >= 0 && !check_exists(pos)) { key_slots_[pos] = key; pos--; }`, from `pos - 1`. -/
def backFill (s : Slots P) (key : ℤ) : ℕ → Option (Slots P)
  | 0 => some s
  | pos + 1 => do
      if ← s.checkExists pos then some s
      else
        let s' ← s.setKey pos key
        backFill s' key pos

/-- Write a pair and its bit. -/
def putAt (s : Slots P) (pos : ℕ) (key : ℤ) (payload : P) : Option (Slots P) := do
  let s ← s.setKey pos key
  let s ← s.setPayload pos payload
  s.setBit pos

/-- Insert into `pos`, which the caller knows to be a gap. -/
def insertElementAt (s : Slots P) (key : ℤ) (payload : P) (pos : ℕ) : Option (Slots P) := do
  let s ← s.putAt pos key payload
  s.backFill key pos

/-- `for (i = pos + n; i > pos; i--)` copy slot `i - 1` to slot `i`. -/
def shiftRight (s : Slots P) (pos : ℕ) : ℕ → Option (Slots P)
  | 0 => some s
  | n + 1 => do
      let s' ← s.copySlot (pos + n + 1) (pos + n)
      shiftRight s' pos n

/-- `for (i = gap; i < gap + n; i++)` copy slot `i + 1` to slot `i`. -/
def shiftLeft (s : Slots P) : ℕ → ℕ → Option (Slots P)
  | _, 0 => some s
  | gap, n + 1 => do
      let s' ← s.copySlot gap (gap + 1)
      shiftLeft s' (gap + 1) n

/-- Insert at `pos` by shifting toward the closest gap; also the position used and the number
of shifts.  A missing gap (`-1`) is an access outside the arrays. -/
def insertUsingShifts (s : Slots P) (key : ℤ) (payload : P) (pos : ℕ) :
    Option (Slots P × ℕ × ℕ) := do
  let gapPos ← s.closestGap pos
  if gapPos < 0 then none
  else
    let gapPos := gapPos.toNat
    let s ← s.setBit gapPos
    if pos ≤ gapPos then
      let s ← s.shiftRight pos (gapPos - pos)
      let s ← s.insertElementAt key payload pos
      some (s, pos, gapPos - pos)
    else
      let s ← s.shiftLeft gapPos (pos - 1 - gapPos)
      let s ← s.insertElementAt key payload (pos - 1)
      some (s, pos - 1, pos - gapPos - 1)

/-- The erasing loop of `erase` and `erase_range`: from `pos - 1` down, while the slot key passes
`test`, write `nextKey` and clear the bit; counts the cleared bits. -/
def eraseWhile (s : Slots P) (test : ℤ → Bool) (nextKey : ℤ) : ℕ → ℕ → Option (Slots P × ℕ)
  | 0, numErased => some (s, numErased)
  | pos + 1, numErased => do
      let key ← s.keyAt pos
      if test key then
        let s' ← s.setKey pos nextKey
        let filled ← s'.checkExists pos
        let s' ← s'.unsetBit pos
        eraseWhile s' test nextKey pos (numErased + filled.toNat)
      else some (s, numErased)

/-! ### Laying keys out in fresh arrays

The model-based insert loop of `bulk_load`, `bulk_load_from_existing`, `resize` and
`resize_from_existing`.  `read` gives the pair at a position of the array or node the keys come
from, and the positions are visited in order while they are below `right`.  `next` is
`last_position + 1`. -/

/-- Freshly allocated arrays: no slot written, every bit clear. -/
def fresh (dataCapacity : ℕ) : Slots P where
  dataCapacity := dataCapacity
  bitmapSize := (dataCapacity + 63) / 64
  keySlots := List.replicate dataCapacity none
  payloadSlots := List.replicate dataCapacity none
  bitmap := List.replicate ((dataCapacity + 63) / 64) 0#64

/-- `for (j = lo; j < lo + n; j++) key_slots_[j] = key`. -/
def fillKeys (s : Slots P) (key : ℤ) : ℕ → ℕ → Option (Slots P)
  | _, 0 => some s
  | lo, n + 1 => do
      let s' ← s.setKey lo key
      fillKeys s' key (lo + 1) n

/-- Fill the last `n` slots, from `pos` on, with the next `n` pairs. -/
def fillRest (s : Slots P) (read : ℕ → Option (ℤ × P)) : List ℕ → ℕ → ℕ → Option (Slots P)
  | _, _, 0 => some s
  | [], _, _ + 1 => none
  | i :: rest, pos, n + 1 => do
      let (key, payload) ← read i
      let s' ← s.putAt pos key payload
      fillRest s' read rest (pos + 1) n

def placeKeys (predict : ℤ → ℤ) (read : ℕ → Option (ℤ × P)) (right : ℕ) :
    List ℕ → Slots P → ℕ → ℤ → Option (Slots P × ℕ)
  | [], s, next, _ => some (s, next)
  | i :: rest, s, next, keysRemaining =>
      if i < right then do
        let (key, payload) ← read i
        let position := max (predict key).toNat next
        if (s.dataCapacity : ℤ) - position < keysRemaining then
          -- fill the rest of the store contiguously
          let pos := ((s.dataCapacity : ℤ) - keysRemaining).toNat
          let s ← s.fillKeys key next (pos - next)
          let s ← s.fillRest read (i :: rest) pos (s.dataCapacity - pos)
          some (s, s.dataCapacity)
        else
          let s ← s.fillKeys key next (position - next)
          let s ← s.putAt position key payload
          placeKeys predict read right rest s (position + 1) (keysRemaining - 1)
      else some (s, next)

/-- Fresh arrays with the keys placed and `endSentinel` after the last one. -/
def layout (endSentinel : ℤ) (dataCapacity numKeys : ℕ) (predict : ℤ → ℤ)
    (read : ℕ → Option (ℤ × P)) (positions : List ℕ) (right : ℕ) : Option (Slots P) := do
  let (s, next) ← placeKeys predict read right positions (fresh dataCapacity) 0 numKeys
  s.fillKeys endSentinel next (dataCapacity - next)

end Slots

end LearnedIndex.Alexol
