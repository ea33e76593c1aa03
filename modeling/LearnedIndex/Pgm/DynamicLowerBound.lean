import LearnedIndex.Lib.RunCursors
import LearnedIndex.Pgm.DynamicSpec

/-! # The lower bound of the dynamic PGM index

`lower_bound` of `DynamicPGMIndex` looks through the levels from the newest to the oldest.  In each
it skips the tombstones at the front, remembering their keys, and keeps the first item behind them
that improves on the best one so far and whose key was not seen deleted.

The item it returns is the newest one of its key, and no present key lies between the bound and it
(`lowerBound_spec`).  It can itself be a tombstone: only the tombstones at the front of a level are
skipped. -/

namespace LearnedIndex.Pgm

open LearnedIndex.Runs

variable {K V PGM : Type} [LinearOrder K] [DecidableEq V] (tombstone : V)

/-- A position in one of the arrays of `levels`. -/
structure LevelIterator where
  vector : ℕ
  position : ℕ
deriving DecidableEq

/-- `Iterator::Cursor`. -/
structure Cursor where
  levelNumber : ℕ
  iterator : LevelIterator
deriving DecidableEq

namespace DynamicPGMIndex

/-- The item that an iterator points at. -/
def item (d : DynamicPGMIndex K V PGM) (it : LevelIterator) : Option (Item K V) := do
  let l ← d.levels[it.vector]?
  l[it.position]?

/-- An item improves on the best one so far and its key was not seen deleted. -/
def improves (lb : Option (Cursor × Item K V)) (deleted : List K) (x : Item K V) : Bool :=
  lb.all (fun y => decide (x.first < y.2.first)) && !deleted.contains x.first

/-- The loop of `lower_bound` over `n` levels from `i` on. -/
def lowerBoundFrom [PgmType K PGM] (d : DynamicPGMIndex K V PGM) (key : K) : ℕ → ℕ →
    Option (Cursor × Item K V) → List K → Option (Option (Cursor × Item K V))
  | 0, _, lb, _ => some lb
  | n + 1, i, lb, deleted => do
      let l ← d.level i
      if l = [] then lowerBoundFrom d key n (i + 1) lb deleted
      else
        let (lo, hi) ← d.searchRange i l key
        let it ← lowerBoundIn l lo hi key
        let front := (l.drop it).takeWhile (fun x => x.deleted tombstone)
        let it := it + front.length
        let deleted := deleted ++ front.map Item.first
        match (l.drop it).findIdx? (improves lb deleted) with
        | some offset => do
            let x ← l[it + offset]?
            lowerBoundFrom d key n (i + 1)
              (some (⟨i, ⟨i - minLevel, it + offset⟩⟩, x)) deleted
        | none => lowerBoundFrom d key n (i + 1) lb deleted

/-- The loop of `lower_bound` over all levels. -/
def lowerBoundCursor [PgmType K PGM] (d : DynamicPGMIndex K V PGM) (key : K) :
    Option (Option (Cursor × Item K V)) :=
  d.lowerBoundFrom tombstone key (d.usedLevels - minLevel) minLevel none []

variable {d : DynamicPGMIndex K V PGM} {tombstone}

/-! ### One level -/

/-- A cursor on an item of its level. -/
def Points (d : DynamicPGMIndex K V PGM) (c : Cursor) (x : Item K V) : Prop :=
  c.levelNumber = c.iterator.vector + minLevel ∧ d.item c.iterator = some x

variable (tombstone) in
/-- What the loop knows after the levels `ls`. -/
structure Best (d : DynamicPGMIndex K V PGM) (key : K) (ls : List (List (Item K V)))
    (lb : Option (Cursor × Item K V)) (deleted : List K) : Prop where
  points : ∀ c x, lb = some (c, x) → Points d c x
  newest : ∀ c x, lb = some (c, x) → key ≤ x.first ∧ lookupAll Item.first ls x.first = some x
  stored : ∀ k ∈ deleted, lookupAll Item.first ls k ≠ none
  covers : ∀ l ∈ ls, ∀ z ∈ l, key ≤ z.first →
    z.first ∈ deleted ∨ ∃ c x, lb = some (c, x) ∧ x.first ≤ z.first
  present : ∀ k y, key ≤ k → lookupAll Item.first ls k = some y → y.deleted tombstone = false →
    ∃ c x, lb = some (c, x) ∧ x.first ≤ k

theorem best_nil (key : K) : Best tombstone d key [] none [] :=
  ⟨fun _ _ h => (by cases h), fun _ _ h => (by cases h), fun _ h => absurd h List.not_mem_nil,
    fun _ h => absurd h List.not_mem_nil, fun _ _ _ h => (by cases h)⟩

omit [DecidableEq V] in
theorem lookupAll_concat (ls : List (List (Item K V))) (l : List (Item K V)) (k : K) :
    lookupAll Item.first (ls ++ [l]) k =
      (lookupAll Item.first ls k).or (Runs.lookup Item.first l k) := by
  rw [lookupAll_append, lookupAll_cons, lookupAll_nil, Option.or_none]

omit [DecidableEq V] in
theorem improves_iff {lb : Option (Cursor × Item K V)} {deleted : List K} {x : Item K V} :
    improves lb deleted x = true ↔
      (∀ c y, lb = some (c, y) → x.first < y.first) ∧ x.first ∉ deleted := by
  have hseen : (!deleted.contains x.first) = true ↔ x.first ∉ deleted := by simp
  unfold improves
  rw [Bool.and_eq_true, hseen]
  cases lb with
  | none => simp
  | some y =>
      rw [Option.all_some, decide_eq_true_eq]
      exact and_congr_left
        (fun _ => ⟨fun h c z hz => (by cases hz; exact h), fun h => h y.1 y.2 rfl⟩)

omit [DecidableEq V] in
/-- An item that is not taken has a better one or a deleted key. -/
theorem not_improves {lb : Option (Cursor × Item K V)} {deleted : List K} {x : Item K V}
    (h : improves lb deleted x = false) :
    x.first ∈ deleted ∨ ∃ c y, lb = some (c, y) ∧ y.first ≤ x.first := by
  by_contra hn
  rw [not_or] at hn
  have : improves lb deleted x = true := improves_iff.mpr
    ⟨fun c y hy => not_le.mp (fun hle => hn.2 ⟨c, y, hy, hle⟩), hn.1⟩
  rw [h] at this
  cases this

/-- The items of a level from the bound on: tombstones at the front, then the others. -/
structure Cut (tombstone : V) (key : K) (l front rest : List (Item K V)) : Prop where
  run : Run Item.first l
  split : l.drop (Runs.lowerBound Item.first l key) = front ++ rest
  front : ∀ x ∈ front, x.deleted tombstone = true

theorem Cut.mem {key : K} {l front rest : List (Item K V)} (h : Cut tombstone key l front rest)
    {z : Item K V} (hz : z ∈ l) (hk : key ≤ z.first) : z ∈ front ∨ z ∈ rest := by
  have hsplit := List.take_append_drop (Runs.lowerBound Item.first l key) l
  rw [← hsplit] at hz
  rcases List.mem_append.mp hz with hz | hz
  · exact absurd ((h.run.lowerBound_split key).1 z hz) (not_lt.mpr hk)
  · rw [h.split] at hz
    exact List.mem_append.mp hz

theorem Cut.of_front {key : K} {l front rest : List (Item K V)} (h : Cut tombstone key l front rest)
    {z : Item K V} (hz : z ∈ front ++ rest) : z ∈ l ∧ key ≤ z.first := by
  rw [← h.split] at hz
  exact ⟨List.mem_of_mem_drop hz, (h.run.lowerBound_split key).2 z hz⟩

/-- The keys of the front are stored. -/
theorem Cut.stored {key : K} {ls : List (List (Item K V))} {lb : Option (Cursor × Item K V)}
    {deleted : List K} {l front rest : List (Item K V)} (h : Cut tombstone key l front rest)
    (hb : Best tombstone d key ls lb deleted) {k : K} (hk : k ∈ deleted ++ front.map Item.first) :
    lookupAll Item.first (ls ++ [l]) k ≠ none := by
  rw [lookupAll_concat]
  rcases List.mem_append.mp hk with hk | hk
  · obtain ⟨y, hy⟩ := Option.ne_none_iff_exists'.mp (hb.stored k hk)
    rw [hy, Option.some_or]
    exact Option.some_ne_none y
  · obtain ⟨z, hz, rfl⟩ := List.mem_map.mp hk
    rw [h.run.lookup_eq_some (h.of_front (List.mem_append_left _ hz)).1]
    cases lookupAll Item.first ls z.first <;> simp

/-- A present key of the level is not among the deleted ones. -/
theorem Cut.present {key : K} {ls : List (List (Item K V))} {lb : Option (Cursor × Item K V)}
    {deleted : List K} {l front rest : List (Item K V)} (h : Cut tombstone key l front rest)
    (hb : Best tombstone d key ls lb deleted) {k : K} {y : Item K V} (hk : key ≤ k)
    (hnone : lookupAll Item.first ls k = none) (hy : Runs.lookup Item.first l k = some y)
    (hlive : y.deleted tombstone = false) :
    y ∈ rest ∧ y.first = k ∧ k ∉ deleted ++ front.map Item.first := by
  obtain rfl := key_of_lookup hy
  have hmem := mem_of_lookup hy
  refine ⟨?_, rfl, fun hin => ?_⟩
  · rcases h.mem hmem hk with hf | hr
    · rw [h.front y hf] at hlive
      cases hlive
    · exact hr
  · rcases List.mem_append.mp hin with hin | hin
    · exact hb.stored _ hin hnone
    · obtain ⟨z, hz, heq⟩ := List.mem_map.mp hin
      have hz' := h.run.lookup_eq_some (h.of_front (List.mem_append_left rest hz)).1
      rw [heq, hy] at hz'
      obtain rfl := Option.some.inj hz'
      rw [h.front _ hz] at hlive
      cases hlive

/-- A level in which nothing improves. -/
theorem Best.keep {key : K} {ls : List (List (Item K V))} {lb : Option (Cursor × Item K V)}
    {deleted : List K} {l front rest : List (Item K V)} (hb : Best tombstone d key ls lb deleted)
    (h : Cut tombstone key l front rest)
    (hnone : ∀ x ∈ rest, improves lb (deleted ++ front.map Item.first) x = false) :
    Best tombstone d key (ls ++ [l]) lb (deleted ++ front.map Item.first) := by
  refine ⟨hb.points, fun c x hx => ?_, fun k hk => h.stored hb hk, fun l' hl' z hz hk => ?_,
    fun k y hk hy hlive => ?_⟩
  · obtain ⟨hk, hlook⟩ := hb.newest c x hx
    rw [lookupAll_concat, hlook]
    exact ⟨hk, rfl⟩
  · rcases List.mem_append.mp hl' with hl' | hl'
    · exact (hb.covers l' hl' z hz hk).imp_left (List.mem_append_left _)
    · obtain rfl := List.mem_singleton.mp hl'
      rcases h.mem hz hk with hf | hr
      · exact Or.inl (List.mem_append_right _ (List.mem_map_of_mem hf))
      · exact not_improves (hnone z hr)
  · rw [lookupAll_concat] at hy
    cases hls : lookupAll Item.first ls k with
    | some y' =>
        rw [hls, Option.some_or] at hy
        exact hb.present k y hk (hls.trans hy) hlive
    | none =>
        rw [hls, Option.none_or] at hy
        obtain ⟨hr, rfl, hdel⟩ := h.present hb hk hls hy hlive
        exact (not_improves (hnone y hr)).resolve_left hdel

/-- A level whose item `x` improves, and none before it. -/
theorem Best.take {key : K} {ls : List (List (Item K V))} {lb : Option (Cursor × Item K V)}
    {deleted : List K} {l front before after : List (Item K V)} {x : Item K V} {c : Cursor}
    (hb : Best tombstone d key ls lb deleted)
    (h : Cut tombstone key l front (before ++ x :: after))
    (hbefore : ∀ y ∈ before, improves lb (deleted ++ front.map Item.first) y = false)
    (hx : improves lb (deleted ++ front.map Item.first) x = true) (hc : Points d c x) :
    Best tombstone d key (ls ++ [l]) (some (c, x)) (deleted ++ front.map Item.first) := by
  obtain ⟨hlt, hdel⟩ := improves_iff.mp hx
  obtain ⟨hxl, hkx⟩ := h.of_front (z := x) (by simp)
  -- no newer level has the key of `x`
  have hnone : lookupAll Item.first ls x.first = none := by
    by_contra hne
    obtain ⟨y, hy⟩ := Option.ne_none_iff_exists'.mp hne
    obtain ⟨l', hl', hy'⟩ := List.exists_of_findSome?_eq_some hy
    have hfirst := key_of_lookup hy'
    rcases hb.covers l' hl' y (mem_of_lookup hy') (hfirst ▸ hkx) with hin | ⟨c', z, hz, hle⟩
    · exact hdel (List.mem_append_left _ (hfirst ▸ hin))
    · exact absurd (hlt c' z hz) (not_lt.mpr (hfirst ▸ hle))
  -- what improved on the old best one is at or behind `x`
  have hbest : ∀ z ∈ before ++ x :: after, z.first ∈ deleted ++ front.map Item.first ∨
      x.first ≤ z.first := by
    intro z hz
    rcases List.mem_append.mp hz with hz | hz
    · exact (not_improves (hbefore z hz)).imp_right
        (fun ⟨c', y, hy, hle⟩ => ((hlt c' y hy).trans_le hle).le)
    · have hrun : Run Item.first (x :: after) := by
        refine List.Pairwise.sublist ?_ h.run
        refine List.Sublist.trans ?_ (List.drop_sublist (Runs.lowerBound Item.first l key) l)
        rw [h.split]
        exact (List.sublist_append_right before _).trans (List.sublist_append_right front _)
      rcases List.mem_cons.mp hz with rfl | hz
      · exact Or.inr le_rfl
      · exact Or.inr (hrun.head_lt z hz).le
  refine ⟨fun c' x' hx' => ?_, fun c' x' hx' => ?_, fun k hk => h.stored hb hk,
    fun l' hl' z hz hk => ?_, fun k y hk hy hlive => ?_⟩
  · cases hx'
    exact hc
  · cases hx'
    rw [lookupAll_concat, hnone, Option.none_or]
    exact ⟨hkx, h.run.lookup_eq_some hxl⟩
  · rcases List.mem_append.mp hl' with hl' | hl'
    · rcases hb.covers l' hl' z hz hk with hin | ⟨c', y, hy, hle⟩
      · exact Or.inl (List.mem_append_left _ hin)
      · exact Or.inr ⟨c, x, rfl, ((hlt c' y hy).trans_le hle).le⟩
    · obtain rfl := List.mem_singleton.mp hl'
      rcases h.mem hz hk with hf | hr
      · exact Or.inl (List.mem_append_right _ (List.mem_map_of_mem hf))
      · exact (hbest z hr).imp_right (fun hle => ⟨c, x, rfl, hle⟩)
  · rw [lookupAll_concat] at hy
    cases hls : lookupAll Item.first ls k with
    | some y' =>
        rw [hls, Option.some_or] at hy
        obtain ⟨c', z, hz, hle⟩ := hb.present k y hk (hls.trans hy) hlive
        exact ⟨c, x, rfl, ((hlt c' z hz).trans_le hle).le⟩
    | none =>
        rw [hls, Option.none_or] at hy
        obtain ⟨hr, rfl, hdel'⟩ := h.present hb hk hls hy hlive
        exact ⟨c, x, rfl, (hbest y hr).resolve_left hdel'⟩

/-! ### All levels -/

variable (tombstone) in
theorem cut_of_run (key : K) {l : List (Item K V)} (h : Run Item.first l) :
    Cut tombstone key l
      ((l.drop (Runs.lowerBound Item.first l key)).takeWhile (fun x => x.deleted tombstone))
      (l.drop (Runs.lowerBound Item.first l key + ((l.drop (Runs.lowerBound Item.first l
        key)).takeWhile (fun x => x.deleted tombstone)).length)) := by
  refine ⟨h, ?_, fun x hx => List.mem_takeWhile_imp hx⟩
  rw [← List.drop_drop]
  generalize l.drop (Runs.lowerBound Item.first l key) = s
  have hdrop : (s.takeWhile (fun x => x.deleted tombstone) ++ s.dropWhile (fun x =>
      x.deleted tombstone)).drop (s.takeWhile (fun x => x.deleted tombstone)).length =
      s.dropWhile (fun x => x.deleted tombstone) := List.drop_left
  rw [List.takeWhile_append_dropWhile] at hdrop
  rw [hdrop, List.takeWhile_append_dropWhile]

theorem best_of_nil {key : K} {ls : List (List (Item K V))} {lb : Option (Cursor × Item K V)}
    {deleted : List K} (hb : Best tombstone d key ls lb deleted) :
    Best tombstone d key (ls ++ [[]]) lb deleted := by
  have hcut : Cut tombstone key [] [] [] :=
    ⟨List.Pairwise.nil, rfl, fun x hx => absurd hx List.not_mem_nil⟩
  have h := hb.keep hcut (fun x hx => absurd hx List.not_mem_nil)
  rwa [List.map_nil, List.append_nil] at h

variable [PgmType K PGM]

variable (tombstone) in
theorem lowerBoundFrom_spec (hsearch : SearchContains K PGM) (h : Inv d) (key : K) :
    ∀ n j lb deleted, j + minLevel + n = d.usedLevels →
      Best tombstone d key (d.levels.take j) lb deleted →
      ∃ lb' deleted', d.lowerBoundFrom tombstone key n (j + minLevel) lb deleted = some lb' ∧
        Best tombstone d key (d.levels.take (j + n)) lb' deleted'
  | 0, j, lb, deleted, _, hb => ⟨lb, deleted, rfl, hb⟩
  | n + 1, j, lb, deleted, hj, hb => by
      have hroom := h.room
      have hlt : j < d.levels.length := by omega
      obtain ⟨l, hl⟩ : ∃ l, d.levels[j]? = some l := ⟨_, List.getElem?_eq_getElem hlt⟩
      have hlevel : d.level (j + minLevel) = some l := by
        unfold level
        rw [Nat.add_sub_cancel, hl]
      have htake : d.levels.take (j + 1) = d.levels.take j ++ [l] := by
        rw [List.take_add_one, hl]
        rfl
      have next : ∀ lb' deleted', Best tombstone d key (d.levels.take j ++ [l]) lb' deleted' →
          ∃ lb'' deleted'', d.lowerBoundFrom tombstone key n (j + minLevel + 1) lb' deleted' =
            some lb'' ∧ Best tombstone d key (d.levels.take (j + (n + 1))) lb'' deleted'' := by
        intro lb' deleted' hb'
        rw [← htake] at hb'
        have ih := lowerBoundFrom_spec hsearch h key n (j + 1) lb' deleted' (by omega) hb'
        rwa [show j + 1 + minLevel = j + minLevel + 1 by omega,
          show j + 1 + n = j + (n + 1) by omega] at ih
      unfold lowerBoundFrom
      rw [hlevel, Option.bind_eq_bind, Option.bind_some]
      by_cases hne : l = []
      · rw [if_pos hne]
        exact next lb deleted (hne ▸ best_of_nil hb)
      · obtain ⟨lo, hi, hr, hpos⟩ := lowerBoundIn_searchRange hsearch h hl hne key
        rw [if_neg hne]
        simp only [hr, hpos, Option.bind_eq_bind, Option.bind_some]
        have hcut := cut_of_run tombstone key
          (h.runs l (List.mem_of_getElem? hl))
        generalize hfront : (l.drop (Runs.lowerBound Item.first l key)).takeWhile
          (fun x => x.deleted tombstone) = front at hcut ⊢
        generalize hit : Runs.lowerBound Item.first l key + front.length = it at hcut ⊢
        cases hfind : (l.drop it).findIdx? (improves lb (deleted ++ front.map Item.first)) with
        | none =>
            exact next _ _ (hb.keep hcut (List.findIdx?_eq_none_iff.mp hfind))
        | some offset =>
            obtain ⟨hoff, hx, hbefore⟩ := List.findIdx?_eq_some_iff_getElem.mp hfind
            have hget : l[it + offset]? = some (l.drop it)[offset] := by
              rw [← List.getElem?_drop, List.getElem?_eq_getElem hoff]
            generalize (l.drop it)[offset] = x at hx hget
            have hrest : l.drop it = (l.drop it).take offset ++ x :: (l.drop it).drop
              (offset + 1) := by
              have hd := List.drop_eq_getElem_cons hoff
              have hx' : (l.drop it)[offset] = x := by
                have := List.getElem?_eq_getElem hoff
                rw [List.getElem?_drop, hget] at this
                exact (Option.some.inj this).symm
              rw [hx'] at hd
              rw [← hd, List.take_append_drop]
            rw [hrest] at hcut
            dsimp only
            rw [hget, Option.bind_some]
            refine next _ _ (hb.take hcut (fun y hy => ?_) hx ⟨?_, ?_⟩)
            · obtain ⟨i, hi, rfl⟩ := List.getElem_of_mem hy
              rw [List.length_take] at hi
              rw [List.getElem_take]
              exact Bool.eq_false_iff.mpr (hbefore i (by omega))
            · dsimp only
              omega
            · unfold item
              dsimp only
              rw [Nat.add_sub_cancel, hl, Option.bind_eq_bind, Option.bind_some, hget]

omit [DecidableEq V] in
/-- The levels in use say everything. -/
theorem lookupAll_used (h : Inv d) (key : K) :
    lookupAll Item.first (d.levels.take (d.usedLevels - minLevel)) key = d.lookup key := by
  have hused := h.used
  have hnone : lookupAll Item.first (d.levels.drop (d.usedLevels - minLevel)) key = none := by
    refine lookupAll_of_empty (fun l hl => ?_) key
    obtain ⟨i, hi, rfl⟩ := List.getElem_of_mem hl
    rw [List.length_drop] at hi
    rw [List.getElem_drop]
    exact h.unused _ _ (List.getElem?_eq_getElem (by omega)) (by omega)
  unfold lookup
  rw [lookupAll_take_drop d.levels (d.usedLevels - minLevel) key, hnone, Option.or_none]

variable (tombstone) in
/-- `lower_bound` finds the newest item of a key, and no present key lies before it. -/
theorem lowerBoundCursor_spec (hsearch : SearchContains K PGM) (h : Inv d) (key : K) :
    ∃ lb, d.lowerBoundCursor tombstone key = some lb ∧
      (∀ c x, lb = some (c, x) → Points d c x ∧ key ≤ x.first ∧ d.lookup x.first = some x) ∧
      ∀ k y, key ≤ k → d.lookup k = some y → y.deleted tombstone = false →
        ∃ c x, lb = some (c, x) ∧ x.first ≤ k := by
  have hused := h.used
  obtain ⟨lb, deleted, hrun, hb⟩ := lowerBoundFrom_spec tombstone hsearch h key
    (d.usedLevels - minLevel) 0 none [] (by omega) (best_nil key)
  rw [Nat.zero_add] at hrun hb
  refine ⟨lb, hrun, fun c x hx => ⟨hb.points c x hx, ?_⟩, fun k y hk hy => ?_⟩
  · have hn := hb.newest c x hx
    rwa [lookupAll_used h] at hn
  · rw [← lookupAll_used h] at hy
    exact hb.present k y hk hy

end DynamicPGMIndex

end LearnedIndex.Pgm
