import LearnedIndex.Pgm.DynamicSpec

/-! # Inserting into the dynamic PGM index

A new item goes into the sorted buffer, or, when the buffer is full, becomes one run with the
buffer and the levels up to an empty one.  `Merging` is the invariant of the merge loop: the run
written last holds the newest items of the levels merged so far, and it lies in the array that the
next round reads.  Either way the insert changes the newest item of its own key only
(`insertNew_spec`). -/

namespace LearnedIndex.Pgm

open LearnedIndex.Runs

variable {K V PGM : Type} {tombstone : V}

/-! ### Temporary arrays -/

theorem readRun_eq {α : Type} {array : List (Option α)} {run : List α}
    (h : array.take run.length = run.map some) : readRun array run.length = some run := by
  have hlen : run.length ≤ array.length := by
    have := congrArg List.length h
    rw [List.length_take, List.length_map] at this
    omega
  unfold readRun
  rw [if_pos hlen, h]
  clear h hlen
  induction run with
  | nil => rfl
  | cons x run ih => simp [ih]

theorem overwrite_eq {α : Type} {array : List (Option α)} {run : List α}
    (h : run.length ≤ array.length) : ∃ array', overwrite array run = some array' ∧
      array'.length = array.length ∧ array'.take run.length = run.map some := by
  refine ⟨_, if_pos h, ?_, ?_⟩
  · rw [List.length_append, List.length_map, List.length_drop]
    omega
  · rw [List.take_left' (by rw [List.length_map])]

namespace DynamicPGMIndex

variable {d d₀ : DynamicPGMIndex K V PGM}

/-- Number of items of some levels. -/
def items (ls : List (List (Item K V))) : ℕ := (ls.map List.length).sum

theorem items_drop_take {ls : List (List (Item K V))} {j t : ℕ} {l : List (Item K V)}
    (hl : ls[j]? = some l) (hjt : j < t) :
    items ((ls.take t).drop j) = l.length + items ((ls.take t).drop (j + 1)) := by
  obtain ⟨hlt, hget⟩ := List.getElem?_eq_some_iff.mp hl
  have hlt' : j < (ls.take t).length := by
    rw [List.length_take]
    omega
  have hget' : (ls.take t)[j] = l := by rw [List.getElem_take, hget]
  rw [List.drop_eq_getElem_cons hlt', hget']
  unfold items
  rw [List.map_cons, List.sum_cons]

theorem setLevel_eq (d : DynamicPGMIndex K V PGM) {j : ℕ} (hj : j < d.levels.length)
    (l : List (Item K V)) :
    d.setLevel (j + minLevel) l = some { d with levels := d.levels.set j l } := by
  unfold setLevel
  rw [Nat.add_sub_cancel, if_pos hj]

/-- Writing the index of a level touches no other index. -/
theorem setPgm_spec (d : DynamicPGMIndex K V PGM) {i : ℕ} (hi : i < d.pgms.length + minIndexedLevel)
    (p : PGM) : ∃ pgms, d.setPgm i p = some { d with pgms := pgms } ∧
      pgms.length = d.pgms.length ∧ (minIndexedLevel ≤ i → pgms[i - minIndexedLevel]? = some p) ∧
      ∀ q, q + minIndexedLevel ≠ i → pgms[q]? = d.pgms[q]? := by
  unfold setPgm
  rcases Nat.lt_or_ge i minIndexedLevel with hlt | hge
  · exact ⟨d.pgms, if_pos hlt, rfl, fun hge => absurd hge (by omega), fun _ _ => rfl⟩
  · rw [if_neg (by omega), if_pos (by omega)]
    refine ⟨_, rfl, List.length_set, fun _ => ?_, fun q hq => ?_⟩
    · rw [List.getElem?_set, if_pos rfl, if_pos (by omega)]
    · rw [List.getElem?_set, if_neg (by omega)]

/-! ### The merge loop -/

variable [LinearOrder K]

/-- The state before the round for the level at position `j`, when the levels before position `m`
of `d₀` are merged behind the new item `x`. -/
structure Merging (d₀ : DynamicPGMIndex K V PGM) (x : Item K V) (hint mod m j : ℕ)
    (s : DynamicPGMIndex K V PGM × Tmp K V) (run : List (Item K V)) : Prop where
  used : s.1.usedLevels = d₀.usedLevels
  levelsLen : s.1.levels.length = d₀.levels.length
  cleared : ∀ p, 1 ≤ p → p < j → s.1.levels[p]? = some []
  kept : ∀ p, ¬ (1 ≤ p ∧ p < j) → s.1.levels[p]? = d₀.levels[p]?
  pgmsLen : s.1.pgms.length = d₀.pgms.length
  pgms : ∀ q, j + minLevel ≤ q + minIndexedLevel → s.1.pgms[q]? = d₀.pgms[q]?
  sorted : Run Item.first run
  size : s.2.actualSize = run.length
  aLen : s.2.a.length = hint
  bLen : s.2.b.length = hint
  holding : (if j % 2 = mod then s.2.a else s.2.b).take run.length = run.map some
  fits : run.length + items ((d₀.levels.take m).drop j) ≤ hint
  newest : ∀ key, Runs.lookup Item.first run key =
    if key = x.first then some x else lookupAll Item.first (d₀.levels.take j) key

theorem take_succ_of_getElem? {α : Type} {l : List α} {j : ℕ} {x : α} (h : l[j]? = some x) :
    l.take (j + 1) = l.take j ++ [x] := by
  rw [List.take_add_one, h]
  rfl

variable [DecidableEq V] [PgmType K PGM]

/-- One round of the loop. -/
theorem Merging.step {x : Item K V} {hint mod m j : ℕ} {s : DynamicPGMIndex K V PGM × Tmp K V}
    {run : List (Item K V)} (h : Merging d₀ x hint mod m j s run) (hd : Inv d₀) (hmod : mod < 2)
    (hj : 1 ≤ j) (hjm : j < m) (hm : m + minLevel < d₀.usedLevels) :
    ∃ s' run', mergeLevel tombstone mod (j + minLevel) s = some s' ∧
      Merging d₀ x hint mod m (j + 1) s' run' := by
  have hroom := hd.room
  have hpgm := hd.pgmRoom
  have hjlen : j < d₀.levels.length := by omega
  obtain ⟨l, hl⟩ : ∃ l, d₀.levels[j]? = some l := ⟨_, List.getElem?_eq_getElem hjlen⟩
  have hls : s.1.level (j + minLevel) = some l := by
    unfold level
    rw [Nat.add_sub_cancel, h.kept j (by omega), hl]
  have hsorted := hd.runs l (List.mem_of_getElem? hl)
  have hread : readRun (if j % 2 = mod then s.2.a else s.2.b) s.2.actualSize = some run := by
    rw [h.size]
    exact readRun_eq h.holding
  have hfits := h.fits
  rw [items_drop_take hl hjm] at hfits
  -- nothing is deleted for good before the last level
  have hskip : decide (j + minLevel = s.1.usedLevels - 1) = false := by
    rw [h.used]
    exact decide_eq_false (by omega)
  have hmerge : merge tombstone false run l = Runs.merge Item.first (fun _ => false) run l := by
    unfold merge
    rfl
  have hlen : (Runs.merge Item.first (fun _ => false) run l).length ≤ run.length + l.length :=
    length_merge_le _ run l
  generalize hout : Runs.merge Item.first (fun _ => false) run l = out at hmerge hlen
  have harray : out.length ≤ (if j % 2 = mod then s.2.b else s.2.a).length := by
    have ha := h.aLen
    have hb := h.bLen
    split <;> omega
  obtain ⟨array, ho, halen, hatake⟩ := overwrite_eq harray
  obtain ⟨pgms, hp, hplen, _, hpother⟩ := setPgm_spec
    { s.1 with levels := s.1.levels.set j [] } (i := j + minLevel)
    (by rw [h.pgmsLen]; omega) (PgmType.empty K)
  refine ⟨(⟨s.1.usedLevels, s.1.levels.set j [], pgms⟩,
    if j % 2 = mod then ⟨s.2.a, array, out.length⟩
    else ⟨array, s.2.b, out.length⟩), out, ?_, ?_⟩
  · unfold mergeLevel
    simp only [Nat.add_sub_cancel, hread, hls, hskip, hmerge, ho, Option.bind_eq_bind,
      Option.bind_some]
    rw [setLevel_eq s.1 (by rw [h.levelsLen]; exact hjlen)]
    simp only [Option.bind_some, hp]
  · refine ⟨h.used, by rw [List.length_set]; exact h.levelsLen, fun p hp1 hp2 => ?_,
      fun p hp' => ?_, hplen.trans h.pgmsLen, fun q hq => ?_, ?_, ?_, ?_, ?_, ?_, ?_, fun key => ?_⟩
    · rw [List.getElem?_set]
      by_cases hpj : j = p
      · rw [if_pos hpj, if_pos (by rw [h.levelsLen]; omega)]
      · rw [if_neg hpj]
        exact h.cleared p hp1 (by omega)
    · rw [List.getElem?_set, if_neg (by omega)]
      exact h.kept p (by omega)
    · rw [hpother q (by omega)]
      exact h.pgms q (by omega)
    · rw [← hout]
      exact h.sorted.merge _ hsorted
    · split <;> rfl
    · split
      · exact h.aLen
      · rw [halen, if_neg (by assumption), h.aLen]
    · split
      · rw [halen, if_pos (by assumption), h.bLen]
      · exact h.bLen
    · by_cases hjmod : j % 2 = mod
      · rw [if_neg (show ¬ (j + 1) % 2 = mod by omega), if_pos hjmod]
        exact hatake
      · rw [if_pos (show (j + 1) % 2 = mod by omega), if_neg hjmod]
        exact hatake
    · omega
    · rw [← hout, lookup_merge h.sorted hsorted, h.newest key, take_succ_of_getElem? hl,
        lookupAll_append, lookupAll_cons, lookupAll_nil, Option.or_none]
      split <;> simp

/-- The rounds up to position `m`. -/
theorem Merging.steps {x : Item K V} {hint mod m : ℕ} (hd : Inv d₀) (hmod : mod < 2)
    (hm : m + minLevel < d₀.usedLevels) : ∀ (n j : ℕ) {s : DynamicPGMIndex K V PGM × Tmp K V}
    {run : List (Item K V)}, Merging d₀ x hint mod m j s run → 1 ≤ j → j + n = m →
    ∃ s' run', mergeLevels tombstone mod n (j + minLevel) s = some s' ∧
      Merging d₀ x hint mod m m s' run'
  | 0, j, s, run, h, _, hjm => by
      obtain rfl : j = m := by omega
      exact ⟨s, run, rfl, h⟩
  | n + 1, j, s, run, h, hj, hjm => by
      obtain ⟨s', run', he, h'⟩ : ∃ s' run', mergeLevel tombstone mod (j + minLevel) s = some s' ∧
          Merging d₀ x hint mod m (j + 1) s' run' := h.step hd hmod hj (by omega) hm
      obtain ⟨s'', run'', he', h''⟩ := Merging.steps hd hmod hm n (j + 1) h' (by omega) (by omega)
      refine ⟨s'', run'', ?_, h''⟩
      unfold mergeLevels
      rw [he, Option.bind_eq_bind, Option.bind_some, ← he']
      congr 1

end DynamicPGMIndex

end LearnedIndex.Pgm
