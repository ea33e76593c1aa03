import LearnedIndex.Pgm.Dynamic

/-! # The levels of the dynamic PGM index as one map

`Inv` is the invariant of the container: every level is a sorted run that fits its size, the levels
from `used_levels` on are empty, and a non-empty indexed level has the index of its keys.  Under it
the newest item of a key is the one in the first level that has the key (`lookup`), and this is
what `find` returns; `insert` changes it at one key. -/

namespace LearnedIndex.Pgm

open LearnedIndex.Runs

variable {K V PGM : Type} [LinearOrder K] [PgmType K PGM] {tombstone : V}

/-- `search` returns a range of positions around the lower bound of the key. -/
def SearchContains (K PGM : Type) [LinearOrder K] [PgmType K PGM] : Prop :=
  ∀ (keys : List K) (key : K), keys.Pairwise (· < ·) →
    (PgmType.search (PgmType.build keys : PGM) key).1 ≤ lowerBound id keys key ∧
    lowerBound id keys key ≤ (PgmType.search (PgmType.build keys : PGM) key).2 ∧
    (PgmType.search (PgmType.build keys : PGM) key).2 ≤ keys.length

namespace DynamicPGMIndex

variable {d : DynamicPGMIndex K V PGM}

/-- The invariant of the container. -/
structure Inv (d : DynamicPGMIndex K V PGM) : Prop where
  used : minLevel ≤ d.usedLevels
  room : d.usedLevels < d.levels.length + minLevel
  two : 1 < d.levels.length
  runs : ∀ l ∈ d.levels, Run Item.first l
  unused : ∀ j l, d.levels[j]? = some l → d.usedLevels ≤ j + minLevel → l = []
  buffer : ∀ l, d.levels[0]? = some l → l.length ≤ bufferMaxSize
  size : ∀ j l, d.levels[j + 1]? = some l → l.length ≤ 2 ^ (j + 1 + minLevel)
  pgmRoom : d.usedLevels ≤ d.pgms.length + minIndexedLevel
  indexed : ∀ j l, d.levels[j]? = some l → l ≠ [] → minIndexedLevel ≤ j + minLevel →
    d.pgms[j + minLevel - minIndexedLevel]? = some (PgmType.build (l.map Item.first))

/-- The newest item of a key. -/
def lookup (d : DynamicPGMIndex K V PGM) (key : K) : Option (Item K V) :=
  lookupAll Item.first d.levels key

/-! ### Finding -/

theorem lowerBound_map (l : List (Item K V)) (key : K) :
    lowerBound id (l.map Item.first) key = lowerBound Item.first l key := by
  unfold lowerBound
  rw [List.findIdx_map]
  rfl

theorem run_map {l : List (Item K V)} (h : Run Item.first l) :
    (l.map Item.first).Pairwise (· < ·) := List.pairwise_map.mpr h

/-- The search in one level ends at the lower bound. -/
theorem lowerBoundIn_searchRange (hsearch : SearchContains K PGM) (h : Inv d) {j : ℕ}
    {l : List (Item K V)} (hl : d.levels[j]? = some l) (hne : l ≠ []) (key : K) :
    ∃ lo hi, d.searchRange (j + minLevel) l key = some (lo, hi) ∧
      lowerBoundIn l lo hi key = some (lowerBound Item.first l key) := by
  have hslice : ∀ lo hi, lo ≤ lowerBound Item.first l key → lowerBound Item.first l key ≤ hi →
      hi ≤ l.length → lowerBoundIn l lo hi key = some (lowerBound Item.first l key) := by
    intro lo hi h1 h2 h3
    unfold lowerBoundIn
    rw [if_pos ⟨h1.trans h2, h3⟩, lowerBound_slice h1 h2 h3]
  unfold searchRange
  rcases Nat.lt_or_ge (j + minLevel) minIndexedLevel with hlt | hge
  · exact ⟨0, l.length, if_pos hlt, hslice 0 l.length (Nat.zero_le _)
      (lowerBound_le l key) (le_refl _)⟩
  · rw [if_neg (by omega), h.indexed j l hl hne hge]
    obtain ⟨h1, h2, h3⟩ :=
      hsearch (l.map Item.first) key (run_map (h.runs l (List.mem_of_getElem? hl)))
    rw [lowerBound_map] at h1 h2
    rw [List.length_map] at h3
    exact ⟨_, _, rfl, hslice _ _ h1 h2 h3⟩

/-- The item at the lower bound, if it has the key. -/
theorem lookup_at_lowerBound {l : List (Item K V)} (h : Run Item.first l) (key : K) :
    (∃ x, l[lowerBound Item.first l key]? = some x ∧ x.first = key ∧
        Runs.lookup Item.first l key = some x) ∨
      ((∀ x, l[lowerBound Item.first l key]? = some x → x.first ≠ key) ∧
        Runs.lookup Item.first l key = none) := by
  have hget := h.getElem?_lowerBound key
  cases hx : l[lowerBound Item.first l key]? with
  | none =>
      rw [hx] at hget
      exact Or.inr ⟨fun x hx => (by cases hx), hget⟩
  | some x =>
      rw [hx, Option.filter_some] at hget
      by_cases hk : x.first = key
      · rw [if_pos (decide_eq_true hk)] at hget
        exact Or.inl ⟨x, rfl, hk, hget⟩
      · rw [if_neg (by simpa using hk)] at hget
        exact Or.inr ⟨fun y hy => Option.some.inj hy ▸ hk, hget⟩

theorem findFrom_spec (hsearch : SearchContains K PGM) (h : Inv d) (key : K) : ∀ n j,
    j + minLevel + n = d.usedLevels →
    d.findFrom key n (j + minLevel) = some (lookupAll Item.first (d.levels.drop j) key)
  | 0, j, hj => by
      unfold findFrom
      rw [lookupAll_of_empty]
      intro l hl
      obtain ⟨i, hi, rfl⟩ := List.getElem_of_mem hl
      rw [List.length_drop] at hi
      refine h.unused (j + i) _ ?_ (by omega)
      rw [List.getElem_drop]
      exact List.getElem?_eq_getElem (by omega)
  | n + 1, j, hj => by
      have hroom := h.room
      have hlt : j < d.levels.length := by omega
      obtain ⟨l, hl⟩ : ∃ l, d.levels[j]? = some l := ⟨_, List.getElem?_eq_getElem hlt⟩
      have ih := findFrom_spec hsearch h key n (j + 1) (by omega)
      have hlevel : d.level (j + minLevel) = some l := by
        unfold level
        rw [Nat.add_sub_cancel, hl]
      have hdrop : d.levels.drop j = l :: d.levels.drop (j + 1) := by
        rw [List.drop_eq_getElem_cons hlt]
        congr 1
        exact Option.some.inj ((List.getElem?_eq_getElem hlt).symm.trans hl)
      rw [show j + 1 + minLevel = j + minLevel + 1 by omega] at ih
      unfold findFrom
      rw [hlevel, hdrop, lookupAll_cons, Option.bind_eq_bind, Option.bind_some]
      by_cases hne : l = []
      · rw [if_pos hne, ih, hne, lookup_nil, Option.none_or]
      · obtain ⟨lo, hi, hr, hb⟩ := lowerBoundIn_searchRange hsearch h hl hne key
        rw [if_neg hne, hr]
        simp only [Option.bind_eq_bind, Option.bind_some, hb]
        rcases lookup_at_lowerBound (h.runs l (List.mem_of_getElem? hl)) key with
          ⟨x, hx, hk, hlook⟩ | ⟨hx, hlook⟩
        · rw [hx, hlook]
          simp only [hk, if_true, Option.some_or]
        · rw [hlook, Option.none_or]
          cases hy : l[lowerBound Item.first l key]? with
          | none => exact ih
          | some y =>
              simp only [hx y hy, if_false]
              exact ih

/-- `find` returns the value of the newest item, unless it is a tombstone. -/
theorem find_spec [DecidableEq V] (hsearch : SearchContains K PGM) (h : Inv d) (key : K) :
    d.find tombstone key = some ((d.lookup key).bind
      (fun x => if x.deleted tombstone then none else some x.second)) := by
  have hused := h.used
  have hfind := findFrom_spec hsearch h key (d.usedLevels - minLevel) 0 (by omega)
  rw [Nat.zero_add, List.drop_zero] at hfind
  unfold find lookup
  rw [hfind, Option.bind_eq_bind, Option.bind_some]
  cases lookupAll Item.first d.levels key with
  | none => rfl
  | some x =>
      simp only [Option.bind_some]
      split <;> rfl

end DynamicPGMIndex

end LearnedIndex.Pgm
