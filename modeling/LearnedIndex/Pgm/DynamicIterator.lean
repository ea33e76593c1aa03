import LearnedIndex.Pgm.LoserTree
import LearnedIndex.Pgm.DynamicLowerBound
import LearnedIndex.Pgm.DynamicMerge

/-! # The iterator of the dynamic PGM index

`Iterator` of `DynamicPGMIndex` merges the levels on the fly.  At the first `++` it places a cursor
in every level behind the current key and builds a loser tree over them; from then on each step
takes the least item, skips the older items of its key, and goes on while the item is deleted.

The cursors of an iterator stand for the rests of their levels (`Reading`).  A step takes the least
head of the rests, and `++` leads to the next present key or to the end (`increment_spec`). -/

namespace LearnedIndex.Pgm

open LearnedIndex.Runs

variable {K V PGM : Type} [LinearOrder K] [Inhabited K]
variable (tombstone : V)

/-- `DynamicPGMIndex::Iterator`. -/
structure Iterator (K : Type) where
  current : Cursor
  initialized : Bool
  unconsumedCount : ℕ
  tree : LoserTree K
  iterators : List Cursor

namespace DynamicPGMIndex

/-- An iterator at a cursor. -/
def iteratorAt (c : Cursor) : Iterator K := ⟨c, false, 0, ⟨0, false, []⟩, []⟩

/-- `end`: behind the last array of `levels`. -/
def endIterator (d : DynamicPGMIndex K V PGM) : Iterator K :=
  iteratorAt ⟨d.levels.length - 1, ⟨d.levels.length - 1, (d.levels.getLastD []).length⟩⟩

/-- `std::upper_bound` between two positions of a level. -/
def upperBoundIn (l : List (Item K V)) (lo hi : ℕ) (key : K) : Option ℕ :=
  if lo ≤ hi ∧ hi ≤ l.length then
    some (lo + upperBound Item.first ((l.take hi).drop lo) key)
  else none

/-- The loop of `lazy_initialize` over `n` levels from `i` on. -/
def cursorsFrom [PgmType K PGM] (d : DynamicPGMIndex K V PGM) (key : K) : ℕ → ℕ →
    Option (List Cursor)
  | 0, _ => some []
  | n + 1, i => do
      let l ← d.level i
      if l = [] then cursorsFrom d key n (i + 1)
      else
        let (lo, hi) ← d.searchRange i l key
        let pos ← upperBoundIn l lo hi key
        let rest ← cursorsFrom d key n (i + 1)
        if pos = l.length then some rest else some (⟨i, ⟨i - minLevel, pos⟩⟩ :: rest)

/-- `lazy_initialize`. -/
def lazyInitialize [PgmType K PGM] (wide : ℕ) (d : DynamicPGMIndex K V PGM) (it : Iterator K) :
    Option (Iterator K) :=
  if it.initialized then some it
  else do
    let current ← d.item it.current.iterator
    let iterators ← d.cursorsFrom current.first (d.usedLevels - minLevel) minLevel
    let keys ← iterators.mapM (fun c => (d.item c.iterator).map Item.first)
    let tree ← LoserTree.start wide keys
    some ⟨it.current, true, toSource iterators.length, tree, iterators⟩

/-- `step` of `advance`: the least cursor goes on; where it was is returned. -/
def step (d : DynamicPGMIndex K V PGM) (it : Iterator K) : Option (Cursor × Iterator K) := do
  let source ← it.tree.minSource
  let itMin ← it.iterators[source]?
  let next := { itMin.iterator with position := itMin.iterator.position + 1 }
  let l ← d.level itMin.levelNumber
  let iterators := it.iterators.set source { itMin with iterator := next }
  if next = ⟨itMin.levelNumber - minLevel, l.length⟩ then do
    let tree ← it.tree.deleteMinInsert none
    some (itMin, { it with unconsumedCount := it.unconsumedCount - 1, tree, iterators })
  else do
    let x ← d.item next
    let tree ← it.tree.deleteMinInsert (some x.first)
    some (itMin, { it with tree, iterators })

/-- The inner loop of `advance`: the older items of a key are skipped. -/
def skipKey (d : DynamicPGMIndex K V PGM) (key : K) : ℕ → Iterator K → Option (Iterator K)
  | 0, _ => none
  | n + 1, it =>
      if it.unconsumedCount = 0 then some it
      else do
        let source ← it.tree.minSource
        let c ← it.iterators[source]?
        let x ← d.item c.iterator
        if x.first = key then do
          let (_, it) ← d.step it
          skipKey d key n it
        else some it

/-- The outer loop of `advance`: the next item, until one is not deleted or none is left. -/
def nextItem [DecidableEq V] (d : DynamicPGMIndex K V PGM) : ℕ → Iterator K →
    Option (Cursor × Item K V × Iterator K)
  | 0, _ => none
  | n + 1, it => do
      let (tmp, it) ← d.step it
      let x ← d.item tmp.iterator
      let it ← d.skipKey x.first (n + 1) it
      if it.unconsumedCount ≠ 0 ∧ x.deleted tombstone = true then nextItem d n it
      else some (tmp, x, it)

/-- The items of the levels with a cursor: no loop of `advance` makes more steps. -/
def itemsOf (d : DynamicPGMIndex K V PGM) (it : Iterator K) : ℕ :=
  (it.iterators.map (fun c => ((d.levels[c.iterator.vector]?).elim 0 List.length))).sum

/-- `advance`. -/
def advance [DecidableEq V] (d : DynamicPGMIndex K V PGM) (it : Iterator K) : Option (Iterator K) :=
  if it.unconsumedCount = 0 then some d.endIterator
  else do
    let (tmp, x, it) ← d.nextItem tombstone (d.itemsOf it + 1) it
    if x.deleted tombstone then some d.endIterator else some { it with current := tmp }

/-- `operator++`. -/
def increment [PgmType K PGM] [DecidableEq V] (wide : ℕ) (d : DynamicPGMIndex K V PGM)
    (it : Iterator K) :
    Option (Iterator K) := do
  let it ← d.lazyInitialize wide it
  d.advance tombstone it

variable {d : DynamicPGMIndex K V PGM} {tombstone}

/-! ### Cursors and rests -/

/-- A cursor that stands for the rest of its level. -/
def Rests (d : DynamicPGMIndex K V PGM) (c : Cursor) (rest : List (Item K V)) : Prop :=
  c.levelNumber = c.iterator.vector + minLevel ∧
    ∃ l, d.levels[c.iterator.vector]? = some l ∧ c.iterator.position ≤ l.length ∧
      l.drop c.iterator.position = rest

/-- The current keys of the rests. -/
def heads (rests : List (List (Item K V))) : List (Option K) :=
  rests.map (fun rest => rest.head?.map Item.first)

/-- The iterator reads these rests. -/
structure Reading (d : DynamicPGMIndex K V PGM) (it : Iterator K)
    (rests : List (List (Item K V))) : Prop where
  cursors : List.Forall₂ (Rests d) it.iterators rests
  count : it.unconsumedCount = rests.countP (fun rest => decide (rest ≠ []))
  tree : it.unconsumedCount ≠ 0 → it.tree.Holds (heads rests)

omit [LinearOrder K] [Inhabited K] in
theorem Rests.points {c : Cursor} {x : Item K V} {rest : List (Item K V)}
    (h : Rests d c (x :: rest)) : Points d c x := by
  obtain ⟨hlevel, l, hl, hle, hdrop⟩ := h
  refine ⟨hlevel, ?_⟩
  unfold item
  rw [hl, Option.bind_eq_bind, Option.bind_some, ← Nat.add_zero c.iterator.position,
    ← List.getElem?_drop, hdrop]
  rfl

omit [LinearOrder K] [Inhabited K] in
theorem Rests.next {c : Cursor} {x : Item K V} {rest : List (Item K V)}
    (h : Rests d c (x :: rest)) :
    Rests d { c with iterator := { c.iterator with position := c.iterator.position + 1 } }
    rest := by
  obtain ⟨hlevel, l, hl, hle, hdrop⟩ := h
  have hlen := congrArg List.length hdrop
  rw [List.length_drop, List.length_cons] at hlen
  refine ⟨hlevel, l, hl, by dsimp only; omega, ?_⟩
  dsimp only
  rw [← List.drop_drop, hdrop, List.drop_one, List.tail_cons]

omit [LinearOrder K] [Inhabited K] in
theorem heads_set (rests : List (List (Item K V))) (i : ℕ) (rest : List (Item K V)) :
    heads (rests.set i rest) = (heads rests).set i (rest.head?.map Item.first) := by
  unfold heads
  rw [List.map_set]

omit [Inhabited K] in
/-- The head that the tree names is the least one. -/
theorem least_head {rests : List (List (Item K V))} {i : ℕ} (h : Least (heads rests) i) :
    ∃ x rest, LeastHead Item.first rests i x rest := by
  obtain ⟨key, hi, hleast⟩ := h
  unfold heads at hi hleast
  rw [List.getElem?_map, Option.map_eq_some_iff] at hi
  obtain ⟨l, hl, hkey⟩ := hi
  cases l with
  | nil => cases hkey
  | cons x rest =>
      obtain rfl : x.first = key := Option.some.inj hkey
      refine ⟨x, rest, hl, fun j y l hj => hleast j y.first ?_⟩
      rw [List.getElem?_map, hj]
      rfl

/-- An iterator with an unconsumed cursor has a least head. -/
theorem Reading.least {it : Iterator K} {rests : List (List (Item K V))} (h : Reading d it rests)
    (hcount : it.unconsumedCount ≠ 0) :
    ∃ i c x rest, it.tree.minSource = some i ∧ it.iterators[i]? = some c ∧ Points d c x ∧
      Rests d c (x :: rest) ∧ Least (heads rests) i ∧ LeastHead Item.first rests i x rest := by
  rw [h.count, ← Nat.pos_iff_ne_zero, List.countP_pos_iff] at hcount
  obtain ⟨l, hl, hne⟩ := hcount
  obtain ⟨j, hj⟩ := List.mem_iff_getElem?.mp hl
  obtain ⟨y, l', rfl⟩ := List.exists_cons_of_ne_nil (of_decide_eq_true hne)
  have hlive : (heads rests)[j]? = some (some y.first) := by
    unfold heads
    rw [List.getElem?_map, hj]
    rfl
  have hcount : it.unconsumedCount ≠ 0 := by
    rw [h.count, ← Nat.pos_iff_ne_zero, List.countP_pos_iff]
    exact ⟨_, hl, hne⟩
  obtain ⟨i, hi, hleast⟩ := (h.tree hcount).minSource hlive
  obtain ⟨x, rest, hhead⟩ := least_head hleast
  have hlt := (List.getElem?_eq_some_iff.mp hhead.1).1
  rw [← h.cursors.length_eq] at hlt
  have hrests : Rests d it.iterators[i] (x :: rest) := by
    have := h.cursors.get hlt (h.cursors.length_eq ▸ hlt)
    rw [List.get_eq_getElem, List.get_eq_getElem,
      (List.getElem?_eq_some_iff.mp hhead.1).2] at this
    exact this
  exact ⟨i, _, x, rest, hi, List.getElem?_eq_getElem hlt, hrests.points, hrests, hleast, hhead⟩

/-- One step takes the least head. -/
theorem Reading.step {it : Iterator K} {rests : List (List (Item K V))} (h : Reading d it rests)
    (hcount : it.unconsumedCount ≠ 0) :
    ∃ i c x rest it', d.step it = some (c, it') ∧ Points d c x ∧
      LeastHead Item.first rests i x rest ∧ Reading d it' (rests.set i rest) ∧
      it'.current = it.current ∧ it'.initialized = it.initialized := by
  obtain ⟨i, c, x, rest, hi, hc, hpoints, hrests, hleast, hhead⟩ := h.least hcount
  obtain ⟨hlt, hget⟩ := List.getElem?_eq_some_iff.mp hhead.1
  obtain ⟨tree', htree, hholds⟩ := (h.tree hcount).deleteMinInsert hi hleast
    (rest.head?.map Item.first)
  rw [← heads_set] at hholds
  have hnext := hrests.next
  have hcursors : List.Forall₂ (Rests d) (it.iterators.set i
      { c with iterator := { c.iterator with position := c.iterator.position + 1 } })
      (rests.set i rest) := by
    rw [List.forall₂_iff_get]
    refine ⟨by rw [List.length_set, List.length_set, h.cursors.length_eq], fun j h1 h2 => ?_⟩
    rw [List.get_eq_getElem, List.get_eq_getElem, List.getElem_set, List.getElem_set]
    split
    · exact hnext
    · rw [List.length_set] at h1 h2
      exact h.cursors.get h1 h2
  have hdec : (rests.set i rest).countP (fun rest => decide (rest ≠ [])) =
      rests.countP (fun rest => decide (rest ≠ [])) - 1 + (if rest = [] then 0 else 1) := by
    rw [List.countP_set hlt, hget]
    cases rest <;> simp
  have hpos : 0 < rests.countP (fun rest => decide (rest ≠ [])) :=
    List.countP_pos_iff.mpr ⟨_, List.mem_of_getElem? hhead.1, by simp⟩
  obtain ⟨hlevel, l, hl, hle, hdrop⟩ := hnext
  have hlev : d.level c.levelNumber = some l := by
    unfold level
    rw [hlevel, Nat.add_sub_cancel]
    exact hl
  cases rest with
  | nil =>
      have hend : (⟨c.iterator.vector, c.iterator.position + 1⟩ : LevelIterator) =
          ⟨c.levelNumber - minLevel, l.length⟩ := by
        dsimp only at hlevel hdrop hle
        rw [hlevel, Nat.add_sub_cancel, ← Nat.le_antisymm hle (List.drop_eq_nil_iff.mp hdrop)]
      refine ⟨i, c, x, [], ⟨it.current, it.initialized, it.unconsumedCount - 1, tree', _⟩, ?_,
        hpoints, hhead, ⟨hcursors, ?_, fun _ => hholds⟩, rfl, rfl⟩
      · unfold DynamicPGMIndex.step
        simp only [hi, hc, hlev, Option.bind_eq_bind, Option.bind_some, hend, if_true]
        rw [List.head?_nil, Option.map_none] at htree
        rw [htree, Option.bind_some, ← hend]
      · dsimp only
        rw [hdec, if_pos rfl, Nat.add_zero, h.count]
  | cons y rest' =>
      have hend : (⟨c.iterator.vector, c.iterator.position + 1⟩ : LevelIterator) ≠
          ⟨c.levelNumber - minLevel, l.length⟩ := by
        intro heq
        rw [LevelIterator.mk.injEq] at heq
        dsimp only at hdrop
        rw [heq.2, List.drop_length] at hdrop
        cases hdrop
      have hy : d.item ⟨c.iterator.vector, c.iterator.position + 1⟩ = some y :=
        (Rests.points (d := d) (c := { c with iterator :=
          { c.iterator with position := c.iterator.position + 1 } })
          ⟨hlevel, l, hl, hle, hdrop⟩).2
      refine ⟨i, c, x, y :: rest', ⟨it.current, it.initialized, it.unconsumedCount, tree', _⟩, ?_,
        hpoints, hhead, ⟨hcursors, ?_, fun _ => hholds⟩, rfl, rfl⟩
      · unfold DynamicPGMIndex.step
        rw [List.head?_cons, Option.map_some] at htree
        simp only [hi, hc, hlev, Option.bind_eq_bind, Option.bind_some, if_neg hend, hy, htree]
      · dsimp only
        rw [hdec, if_neg (List.cons_ne_nil _ _), h.count]
        omega

/-! ### Advancing -/

/-- The rests hold the newest items of the keys above a bound. -/
structure Above (d : DynamicPGMIndex K V PGM) (b : K) (rests : List (List (Item K V))) : Prop where
  runs : ∀ l ∈ rests, Run Item.first l
  lookup : ∀ k, lookupAll Item.first rests k = if b < k then d.lookup k else none

omit [LinearOrder K] [Inhabited K] in
theorem items_set_tail {rests : List (List (Item K V))} {i : ℕ} {x : Item K V}
    {rest : List (Item K V)} (h : rests[i]? = some (x :: rest)) :
    items (rests.set i rest) + 1 = items rests := by
  obtain ⟨hlt, hget⟩ := List.getElem?_eq_some_iff.mp h
  have hsplit : rests = rests.take i ++ (x :: rest) :: rests.drop (i + 1) := by
    rw [← hget, ← List.drop_eq_getElem_cons hlt, List.take_append_drop]
  rw [List.set_eq_take_append_cons_drop, if_pos hlt]
  conv_rhs => rw [hsplit]
  unfold items
  simp only [List.map_append, List.map_cons, List.sum_append, List.sum_cons, List.length_cons]
  omega

theorem Reading.items_le {it : Iterator K} {rests : List (List (Item K V))}
    (h : Reading d it rests) : items rests ≤ d.itemsOf it := by
  unfold items itemsOf
  refine List.Forall₂.sum_le_sum ?_
  rw [List.forall₂_map_left_iff, List.forall₂_map_right_iff]
  refine h.cursors.flip.imp (fun rest c hc => ?_)
  obtain ⟨_, l, hl, _, rfl⟩ := hc
  rw [hl, List.length_drop]
  exact Nat.sub_le _ _

/-- A finished iterator has nothing left. -/
theorem Reading.lookup_none {it : Iterator K} {rests : List (List (Item K V))}
    (h : Reading d it rests) (hcount : it.unconsumedCount = 0) (k : K) :
    lookupAll Item.first rests k = none := by
  rw [h.count, List.countP_eq_zero] at hcount
  exact lookupAll_of_empty (fun l hl => by simpa using hcount l hl) k

/-- Skipping a key: the other keys keep their items. -/
theorem skipKey_spec (key : K) : ∀ (n : ℕ) (it : Iterator K) (rests : List (List (Item K V))),
    Reading d it rests → (∀ l ∈ rests, Run Item.first l) →
    (∀ k, k < key → lookupAll Item.first rests k = none) → items rests < n →
    ∃ it' rests', d.skipKey key n it = some it' ∧ Reading d it' rests' ∧
      (∀ l ∈ rests', Run Item.first l) ∧ lookupAll Item.first rests' key = none ∧
      (∀ k, k ≠ key → lookupAll Item.first rests' k = lookupAll Item.first rests k) ∧
      items rests' ≤ items rests ∧ it'.current = it.current ∧ it'.initialized = it.initialized
  | 0, _, _, _, _, _, hn => absurd hn (Nat.not_lt_zero _)
  | n + 1, it, rests, h, hruns, hlow, hn => by
      unfold skipKey
      by_cases hcount : it.unconsumedCount = 0
      · exact ⟨it, rests, if_pos hcount, h, hruns, h.lookup_none hcount key,
          fun _ _ => rfl, le_refl _,
          rfl, rfl⟩
      · obtain ⟨i, c, x, rest, hi, hc, hpoints, _, _, hhead⟩ := h.least hcount
        simp only [if_neg hcount, hi, hc, hpoints.2, Option.bind_eq_bind, Option.bind_some]
        by_cases hx : x.first = key
        · obtain ⟨i', c', x', rest', it', hstep, _, hhead', hread', hcur, hini⟩ := h.step hcount
          -- the step takes an item of the key as well
          have hx' : x'.first = key := by
            have h1 := hhead.lookup_eq hruns
            have h2 := hhead'.lookup_eq hruns
            rcases lt_trichotomy x'.first key with hlt | heq | hgt
            · rw [hlow _ hlt] at h2
              cases h2
            · exact heq
            · rw [hx, hhead'.lookup_lt hruns hgt] at h1
              cases h1
          have hitems := items_set_tail hhead'.1
          obtain ⟨it'', rests'', hrun, hread'', hruns'', hnone, hother, hle, hcur', hini'⟩ :=
            skipKey_spec key n it' (rests.set i' rest') hread' (runs_set_tail hruns hhead'.1)
              (fun k hk => by
                rw [lookupAll_set_tail hhead'.1 (hx' ▸ hk.ne), hlow k hk]) (by omega)
          refine ⟨it'', rests'', ?_, hread'', hruns'', hnone, fun k hk => ?_, by omega,
            hcur'.trans hcur, hini'.trans hini⟩
          · simp only [if_pos hx, hstep, Option.bind_some, hrun]
          · rw [hother k hk, lookupAll_set_tail hhead'.1 (hx' ▸ hk)]
        · refine ⟨it, rests, if_neg hx, h, hruns, ?_, fun _ _ => rfl, le_refl _, rfl, rfl⟩
          have h1 := hhead.lookup_eq hruns
          rcases lt_or_gt_of_ne hx with hlt | hgt
          · rw [hlow _ hlt] at h1
            cases h1
          · exact hhead.lookup_lt hruns hgt

variable (tombstone) in
/-- The next item of the rests, and whether it is the last. -/
theorem nextItem_spec [DecidableEq V] : ∀ (n : ℕ) (it : Iterator K) (b : K)
    (rests : List (List (Item K V))),
    Reading d it rests → Above d b rests → it.unconsumedCount ≠ 0 → items rests < n →
    ∃ c x it' rests', d.nextItem tombstone n it = some (c, x, it') ∧ Points d c x ∧ b < x.first ∧
      d.lookup x.first = some x ∧
      (∀ k y, b < k → k < x.first → d.lookup k = some y → y.deleted tombstone = true) ∧
      (x.deleted tombstone = true → it'.unconsumedCount = 0) ∧ Reading d it' rests' ∧
      Above d x.first rests' ∧ it'.initialized = it.initialized
  | 0, _, _, _, _, _, _, hn => absurd hn (Nat.not_lt_zero _)
  | n + 1, it, b, rests, h, ha, hcount, hn => by
      obtain ⟨i, c, x, rest, it₁, hstep, hpoints, hhead, hread₁, _, hini₁⟩ := h.step hcount
      have hx := hhead.lookup_eq ha.runs
      have hlow : ∀ k, k < x.first → lookupAll Item.first rests k = none :=
        fun k hk => hhead.lookup_lt ha.runs hk
      have hb : b < x.first := by
        by_contra hb
        rw [ha.lookup, if_neg hb] at hx
        cases hx
      have hnew : d.lookup x.first = some x := by
        rwa [ha.lookup, if_pos hb] at hx
      -- nothing lies between the bound and the item
      have hbetween : ∀ k, b < k → k < x.first → d.lookup k = none := by
        intro k hk hkx
        have := hlow k hkx
        rwa [ha.lookup, if_pos hk] at this
      have hitems := items_set_tail hhead.1
      obtain ⟨it₂, rests₂, hskip, hread₂, hruns₂, hnone, hother, hle, _, hini₂⟩ :=
        skipKey_spec x.first (n + 1) it₁ (rests.set i rest) hread₁ (runs_set_tail ha.runs hhead.1)
          (fun k hk => by rw [lookupAll_set_tail hhead.1 hk.ne, hlow k hk]) (by omega)
      have habove : Above d x.first rests₂ := by
        refine ⟨hruns₂, fun k => ?_⟩
        rcases lt_trichotomy x.first k with hlt | heq | hgt
        · rw [hother k hlt.ne', lookupAll_set_tail hhead.1 hlt.ne', ha.lookup, if_pos hlt,
            if_pos (hb.trans hlt)]
        · rw [if_neg heq.not_lt, ← heq, hnone]
        · rw [hother k hgt.ne, lookupAll_set_tail hhead.1 hgt.ne, hlow k hgt,
            if_neg hgt.asymm]
      unfold nextItem
      simp only [hstep, hpoints.2, hskip, Option.bind_eq_bind, Option.bind_some]
      by_cases hmore : it₂.unconsumedCount ≠ 0 ∧ x.deleted tombstone = true
      · rw [if_pos hmore]
        obtain ⟨c', x', it', rests', hrun, hp', hlt, hnew', hbetween', hlast, hread', ha', hini'⟩ :=
          nextItem_spec n it₂ x.first rests₂ hread₂ habove hmore.1 (by omega)
        refine ⟨c', x', it', rests', hrun, hp', hb.trans hlt, hnew', fun k y hk hkx hy => ?_, hlast,
          hread', ha', hini'.trans (hini₂.trans hini₁)⟩
        rcases lt_trichotomy k x.first with hlt' | rfl | hgt
        · rw [hbetween k hk hlt'] at hy
          cases hy
        · obtain rfl := Option.some.inj (hnew.symm.trans hy)
          exact hmore.2
        · exact hbetween' k y hgt hkx hy
      · refine ⟨c, x, it₂, rests₂, if_neg hmore, hpoints, hb, hnew, fun k y hk hkx hy => ?_,
          fun hdel => ?_, hread₂, habove, hini₂.trans hini₁⟩
        · rw [hbetween k hk hkx] at hy
          cases hy
        · by_contra hne
          exact hmore ⟨hne, hdel⟩

/-! ### Placing the cursors -/

variable [PgmType K PGM]

/-- In each level that has the key, the search range goes beyond it. -/
def Covers (d : DynamicPGMIndex K V PGM) (key : K) : Prop :=
  ∀ j l lo hi, d.levels[j]? = some l → d.searchRange (j + minLevel) l key = some (lo, hi) →
    (∃ x ∈ l, x.first = key) → Runs.lowerBound Item.first l key < hi

omit [Inhabited K] in
/-- The search in one level ends at the upper bound. -/
theorem upperBoundIn_searchRange (hsearch : SearchContains K PGM) (h : Inv d) {key : K}
    (hcovers : d.Covers key) {j : ℕ} {l : List (Item K V)} (hl : d.levels[j]? = some l)
    (hne : l ≠ []) : ∃ lo hi, d.searchRange (j + minLevel) l key = some (lo, hi) ∧
      upperBoundIn l lo hi key = some (upperBound Item.first l key) := by
  have hslice : ∀ lo hi, lo ≤ upperBound Item.first l key → upperBound Item.first l key ≤ hi →
      hi ≤ l.length → upperBoundIn l lo hi key = some (upperBound Item.first l key) := by
    intro lo hi h1 h2 h3
    unfold upperBoundIn
    rw [if_pos ⟨h1.trans h2, h3⟩, upperBound_slice h1 h2 h3]
  have hrun := h.runs l (List.mem_of_getElem? hl)
  rcases Nat.lt_or_ge (j + minLevel) minIndexedLevel with hlt | hge
  · exact ⟨0, l.length, if_pos hlt,
      hslice 0 l.length (Nat.zero_le _) (upperBound_le l key) (le_refl _)⟩
  · have hrange : d.searchRange (j + minLevel) l key =
        some (PgmType.search (PgmType.build (l.map Item.first) : PGM) key) := by
      unfold searchRange
      rw [if_neg (by omega), h.indexed j l hl hne hge]
      rfl
    obtain ⟨h1, h2, h3⟩ := hsearch (l.map Item.first) key (run_map hrun)
    rw [lowerBound_map] at h1 h2
    rw [List.length_map] at h3
    obtain ⟨hle, hnear⟩ := hrun.upperBound_near key
    refine ⟨_, _, hrange, hslice _ _ (h1.trans hle) ?_ h3⟩
    rcases hnear with heq | ⟨heq, hstored⟩
    · rwa [heq]
    · rw [heq]
      exact hcovers j l _ _ hl hrange hstored

omit [Inhabited K] in
theorem cursorsFrom_spec (hsearch : SearchContains K PGM) (h : Inv d) {key : K}
    (hcovers : d.Covers key) : ∀ n j, j + minLevel + n = d.usedLevels →
    ∃ cs rests, d.cursorsFrom key n (j + minLevel) = some cs ∧ List.Forall₂ (Rests d) cs rests ∧
      (∀ rest ∈ rests, rest ≠ [] ∧ Run Item.first rest) ∧
      ∀ k, lookupAll Item.first rests k =
        if key < k then lookupAll Item.first ((d.levels.drop j).take n) k else none
  | 0, j, _ => by
      refine ⟨[], [], rfl, List.Forall₂.nil, fun _ h => absurd h List.not_mem_nil, fun k => ?_⟩
      rw [List.take_zero, lookupAll_nil, ite_self]
  | n + 1, j, hj => by
      have hroom := h.room
      have hlt : j < d.levels.length := by omega
      obtain ⟨l, hl⟩ : ∃ l, d.levels[j]? = some l := ⟨_, List.getElem?_eq_getElem hlt⟩
      have hlevel : d.level (j + minLevel) = some l := by
        unfold level
        rw [Nat.add_sub_cancel, hl]
      have hdrop : (d.levels.drop j).take (n + 1) = l :: (d.levels.drop (j + 1)).take n := by
        rw [List.drop_eq_getElem_cons hlt, List.take_succ_cons]
        congr 1
        exact Option.some.inj ((List.getElem?_eq_getElem hlt).symm.trans hl)
      obtain ⟨cs, rests, hcs, hrests, hne', hlook⟩ := cursorsFrom_spec hsearch h hcovers n (j + 1)
        (by omega)
      rw [show j + 1 + minLevel = j + minLevel + 1 by omega] at hcs
      have hrun := h.runs l (List.mem_of_getElem? hl)
      unfold cursorsFrom
      rw [hlevel, hdrop, Option.bind_eq_bind, Option.bind_some]
      by_cases hne : l = []
      · refine ⟨cs, rests, by rw [if_pos hne, hcs], hrests, hne', fun k => ?_⟩
        rw [hlook, hne, lookupAll_cons, lookup_nil, Option.none_or]
      · obtain ⟨lo, hi, hr, hpos⟩ := upperBoundIn_searchRange hsearch h hcovers hl hne
        simp only [if_neg hne, hr, hpos, hcs, Option.bind_eq_bind, Option.bind_some]
        have hlook' : ∀ k, lookupAll Item.first
            (l.drop (upperBound Item.first l key) :: rests) k =
            if key < k then lookupAll Item.first (l :: (d.levels.drop (j + 1)).take n) k
            else none := by
          intro k
          rw [lookupAll_cons, hrun.lookup_above, hlook, lookupAll_cons]
          split <;> rfl
        by_cases hend : upperBound Item.first l key = l.length
        · -- a level without a greater key gets no cursor
          rw [hend, List.drop_length] at hlook'
          refine ⟨cs, rests, if_pos hend, hrests, hne', fun k => ?_⟩
          rw [← hlook' k, lookupAll_cons, lookup_nil, Option.none_or]
        · have hle : upperBound Item.first l key ≤ l.length := upperBound_le l key
          refine ⟨_, _, if_neg hend, List.Forall₂.cons
            ⟨by dsimp only; omega, l, ?_, hle, rfl⟩ hrests,
            fun rest hrest => ?_, hlook'⟩
          · dsimp only
            rw [Nat.add_sub_cancel, hl]
          · rcases List.mem_cons.mp hrest with rfl | hrest
            · exact ⟨fun hnil => hend (Nat.le_antisymm hle (List.drop_eq_nil_iff.mp hnil)),
                hrun.sublist (List.drop_sublist _ _)⟩
            · exact hne' rest hrest

omit [Inhabited K] in
/-- Each level has one cursor at most. -/
theorem length_cursorsFrom_le {key : K} : ∀ {n i : ℕ} {cs : List Cursor},
    d.cursorsFrom key n i = some cs → cs.length ≤ n
  | 0, _, cs, h => by
      obtain rfl := Option.some.inj h
      exact le_refl _
  | n + 1, i, cs, h => by
      unfold cursorsFrom at h
      simp only [Option.bind_eq_bind, Option.bind_eq_some_iff] at h
      obtain ⟨l, _, h⟩ := h
      split at h
      · exact Nat.le_succ_of_le (length_cursorsFrom_le h)
      · simp only [Option.bind_eq_some_iff] at h
        obtain ⟨_, _, _, _, rest, hrest, h⟩ := h
        have hle := length_cursorsFrom_le hrest
        split at h
        · obtain rfl := Option.some.inj h
          exact Nat.le_succ_of_le hle
        · obtain rfl := Option.some.inj h
          exact Nat.succ_le_succ hle

omit [LinearOrder K] [Inhabited K] [PgmType K PGM] in
/-- The keys at the cursors. -/
theorem mapM_item_spec {cs : List Cursor} {rests : List (List (Item K V))}
    (h : List.Forall₂ (Rests d) cs rests) (hne : ∀ rest ∈ rests, rest ≠ []) :
    ∃ keys, cs.mapM (fun c => (d.item c.iterator).map Item.first) = some keys ∧
      heads rests = keys.map some := by
  induction h with
  | nil => exact ⟨[], rfl, rfl⟩
  | @cons c rest cs rests hc _ ih =>
      obtain ⟨keys, hkeys, heq⟩ := ih (fun rest hrest => hne rest (List.mem_cons_of_mem _ hrest))
      obtain ⟨x, rest', rfl⟩ := List.exists_cons_of_ne_nil (hne rest (List.mem_cons_self ..))
      refine ⟨x.first :: keys, ?_, ?_⟩
      · rw [List.mapM_cons, hc.points.2, Option.map_some, Option.bind_eq_bind, Option.bind_some,
          hkeys]
        rfl
      · rw [List.map_cons, ← heq]
        rfl

/-- An iterator has room for the levels, of which a 64-bit word has at most 64 sizes; and what the
processor makes of `1 << 64` is a number of leaves for a tree over no sequence. -/
structure Fits (wide : ℕ) (d : DynamicPGMIndex K V PGM) : Prop where
  levels : d.usedLevels ≤ 64
  pos : 0 < toSource wide
  le : toSource wide ≤ 128

/-- At the first `++` the iterator gets a cursor in each level with a greater key. -/
theorem lazyInitialize_spec (hsearch : SearchContains K PGM) (h : Inv d) {wide : ℕ}
    (hfits : Fits wide d) {it : Iterator K}
    {x : Item K V} (hcovers : d.Covers x.first) (hini : it.initialized = false)
    (hx : d.item it.current.iterator = some x) :
    ∃ it' rests, d.lazyInitialize wide it = some it' ∧ it'.current = it.current ∧
      it'.initialized = true ∧ Reading d it' rests ∧ Above d x.first rests := by
  have hused := h.used
  obtain ⟨cs, rests, hcs, hrests, hne, hlook⟩ := cursorsFrom_spec hsearch h hcovers
    (d.usedLevels - minLevel) 0 (by omega)
  rw [Nat.zero_add] at hcs
  obtain ⟨keys, hkeys, hheads⟩ := mapM_item_spec hrests (fun rest hrest => (hne rest hrest).1)
  have habove : Above d x.first rests := by
    refine ⟨fun l hl => (hne l hl).2, fun k => ?_⟩
    rw [hlook k, List.drop_zero, lookupAll_used h]
  have hlen : keys.length = rests.length := by
    have := congrArg List.length hheads
    unfold heads at this
    rw [List.length_map, List.length_map] at this
    exact this.symm
  have hcount : cs.length = rests.countP (fun rest => decide (rest ≠ [])) := by
    rw [hrests.length_eq, eq_comm, List.countP_eq_length]
    exact fun rest hrest => decide_eq_true (hne rest hrest).1
  have hsmall : cs.length ≤ 64 :=
    (length_cursorsFrom_le hcs).trans ((Nat.sub_le _ _).trans hfits.levels)
  obtain ⟨tree, htree, hholds⟩ : ∃ tree, LoserTree.start wide keys = some tree ∧
      (cs.length ≠ 0 → tree.Holds (heads rests)) := by
    rcases eq_or_ne keys [] with rfl | hk
    · obtain ⟨tree, htree⟩ := LoserTree.start_nil (K := K) hfits.pos hfits.le
      refine ⟨tree, htree, fun hne => absurd ?_ hne⟩
      rw [hrests.length_eq, ← hlen, List.length_nil]
    · obtain ⟨tree, htree, hholds⟩ := LoserTree.start_spec wide hk
        (by rw [hlen, ← hrests.length_eq]; omega)
      exact ⟨tree, htree, fun _ => hheads ▸ hholds⟩
  refine ⟨⟨it.current, true, cs.length, tree, cs⟩, rests, ?_, rfl, rfl,
    ⟨hrests, hcount, hholds⟩, habove⟩
  have hcounter : toSource cs.length = cs.length := toSource_eq (by omega)
  unfold lazyInitialize
  simp only [hini, hx, hcs, hkeys, htree, hcounter, Option.bind_eq_bind, Option.bind_some,
    Bool.false_eq_true,
    if_false]

/-! ### The next present key -/

/-- The iterator is at an item and can go on from it. -/
def At (d : DynamicPGMIndex K V PGM) (it : Iterator K) (x : Item K V) : Prop :=
  Points d it.current x ∧ ((it.initialized = false ∧ d.Covers x.first) ∨
    (it.initialized = true ∧ ∃ rests, Reading d it rests ∧ Above d x.first rests))

omit [LinearOrder K] [Inhabited K] [PgmType K PGM] in
/-- No item is at the end. -/
theorem Points.ne_end {it : Iterator K} {x : Item K V} (h : Points d it.current x) :
    it.current ≠ d.endIterator.current := by
  intro heq
  have hlevel := h.1
  rw [heq] at hlevel
  have hmin : minLevel = 6 := rfl
  simp only [endIterator, iteratorAt] at hlevel
  omega

variable (tombstone : V) in
/-- `++` leads to the next present key, or to the end. -/
theorem increment_spec [DecidableEq V] (hsearch : SearchContains K PGM) (h : Inv d) {wide : ℕ}
    (hfits : Fits wide d) {it : Iterator K} {x : Item K V} (hat : At d it x) :
    ∃ it', d.increment tombstone wide it = some it' ∧
      ((it'.current = d.endIterator.current ∧
          ∀ k y, x.first < k → d.lookup k = some y → y.deleted tombstone = true) ∨
        ∃ y, At d it' y ∧ x.first < y.first ∧ d.lookup y.first = some y ∧
          y.deleted tombstone = false ∧
          ∀ k z, x.first < k → k < y.first → d.lookup k = some z → z.deleted tombstone = true) := by
  obtain ⟨hpoints, hini⟩ := hat
  obtain ⟨it₁, rests, hlazy, hini₁, hread, habove⟩ : ∃ it₁ rests,
      d.lazyInitialize wide it = some it₁ ∧
      it₁.initialized = true ∧ Reading d it₁ rests ∧ Above d x.first rests := by
    rcases hini with ⟨hini, hcovers⟩ | ⟨hini, rests, hread, habove⟩
    · obtain ⟨it', rests, hrun, _, hini', hread, habove⟩ :=
        lazyInitialize_spec hsearch h hfits hcovers hini hpoints.2
      exact ⟨it', rests, hrun, hini', hread, habove⟩
    · refine ⟨it, rests, ?_, hini, hread, habove⟩
      unfold lazyInitialize
      rw [if_pos hini]
  unfold increment advance
  simp only [hlazy, Option.bind_eq_bind, Option.bind_some]
  by_cases hcount : it₁.unconsumedCount = 0
  · refine ⟨_, if_pos hcount, Or.inl ⟨rfl, fun k y hk hy => ?_⟩⟩
    have := hread.lookup_none hcount k
    rw [habove.lookup, if_pos hk, hy] at this
    cases this
  · obtain ⟨c, y, it₂, rests₂, hrun, hp, hlt, hnew, hbetween, hlast, hread₂, habove₂, hini₂⟩ :=
      nextItem_spec tombstone (d.itemsOf it₁ + 1) it₁ x.first rests hread habove
        hcount (Nat.lt_succ_of_le hread.items_le)
    simp only [if_neg hcount, hrun, Option.bind_some]
    cases hdel : y.deleted tombstone with
    | true =>
        refine ⟨_, if_pos rfl, Or.inl ⟨rfl, fun k z hk hz => ?_⟩⟩
        rcases lt_trichotomy k y.first with hky | rfl | hky
        · exact hbetween k z hk hky hz
        · obtain rfl := Option.some.inj (hnew.symm.trans hz)
          exact hdel
        · have := hread₂.lookup_none (hlast hdel) k
          rw [habove₂.lookup, if_pos hky, hz] at this
          cases this
    | false =>
        refine ⟨_, if_neg (by simp), Or.inr
          ⟨y, ⟨hp, Or.inr ⟨hini₂.trans hini₁, rests₂, ?_, habove₂⟩⟩,
          hlt, hnew, hdel, hbetween⟩⟩
        exact ⟨hread₂.cursors, hread₂.count, hread₂.tree⟩

end DynamicPGMIndex

end LearnedIndex.Pgm
