import LearnedIndex.Pgm.DynamicIterator
import LearnedIndex.Pgm.DynamicRun

/-! # Scans of the dynamic PGM index

`scan` of `pgmInterface` starts at `lower_bound` and goes on with `++`; `size` and `empty` of the
container count from `begin()` to `end()` the same way.  What they meet is the list of the present
pairs in key order (`contents`), at most with one more item in front of it: `lower_bound` may return
the tombstone of a removed key (`ghostAt`). -/

namespace LearnedIndex.Pgm

open LearnedIndex.Runs

variable {K V PGM : Type} [LinearOrder K] [Inhabited K] [DecidableEq V] [PgmType K PGM]
variable (tombstone : V)

/-- What `*it` shows of an item. -/
def Item.pair (x : Item K V) : K × V := (x.first, x.second)

namespace DynamicPGMIndex

/-- `lower_bound`. -/
def lowerBound (d : DynamicPGMIndex K V PGM) (key : K) : Option (Iterator K) :=
  (d.lowerBoundCursor tombstone key).map (fun lb =>
    lb.elim d.endIterator (fun best => iteratorAt best.1))

/-- `begin`; `keyMin` is `numeric_limits<K>::min()`. -/
def begin (keyMin : K) (d : DynamicPGMIndex K V PGM) : Option (Iterator K) :=
  d.lowerBound tombstone keyMin

/-- `empty`. -/
def empty (keyMin : K) (d : DynamicPGMIndex K V PGM) : Option Bool :=
  (d.begin tombstone keyMin).map (fun it => decide (it.current = d.endIterator.current))

/-- `std::distance` to the end. -/
def distance (wide : ℕ) (d : DynamicPGMIndex K V PGM) : ℕ → Iterator K → Option ℕ
  | 0, _ => none
  | n + 1, it =>
      if it.current = d.endIterator.current then some 0
      else do
        let it ← d.increment tombstone wide it
        let rest ← distance wide d n it
        some (rest + 1)

/-- `size`. -/
def size (wide : ℕ) (keyMin : K) (d : DynamicPGMIndex K V PGM) : Option ℕ := do
  let it ← d.begin tombstone keyMin
  d.distance tombstone wide (items d.levels + 2) it

/-- The loop of `scan` for `n` more pairs; `scanSize` is an `int`. -/
def scanLoop (wide : ℕ) (d : DynamicPGMIndex K V PGM) :
    ℕ → ℕ → Iterator K → Option (List (K × V))
  | 0, _, _ => some []
  | n + 1, scanSize, it =>
      if it.current = d.endIterator.current then some []
      else do
        let x ← d.item it.current.iterator
        let it ← d.increment tombstone wide it
        if scanSize + 1 < 2 ^ 31 then
          let rest ← scanLoop wide d n (scanSize + 1) it
          some (x.pair :: rest)
        else none

end DynamicPGMIndex

open DynamicPGMIndex

/-- `scan`, with the pairs that it writes to `result`. -/
def scan (wide : ℕ) (index : Option (DynamicPGMIndex K V PGM)) (keyLowBound : K) (keyNum : ℕ) :
    Option (List (K × V)) := do
  let d ← index
  let it ← d.lowerBound tombstone keyLowBound
  d.scanLoop tombstone wide keyNum 0 it

namespace DynamicPGMIndex

/-- The present items in key order. -/
def contents (d : DynamicPGMIndex K V PGM) : List (Item K V) :=
  (mergeAll Item.first d.levels).filter (fun x => !x.deleted tombstone)

variable {d : DynamicPGMIndex K V PGM} {tombstone}

/-! ### The present items -/

omit [Inhabited K] in
theorem contents_run (h : Inv d) : Run Item.first (d.contents tombstone) :=
  (run_mergeAll h.runs).sublist List.filter_sublist

omit [Inhabited K] in
theorem mem_contents (h : Inv d) {x : Item K V} : x ∈ d.contents tombstone ↔
    d.lookup x.first = some x ∧ x.deleted tombstone = false := by
  unfold contents lookup
  rw [List.mem_filter, (run_mergeAll h.runs).mem_iff_lookup, lookup_mergeAll _ h.runs,
    Bool.not_eq_true']

/-- The present items from a key on. -/
def contentsFrom (tombstone : V) (d : DynamicPGMIndex K V PGM) (key : K) : List (Item K V) :=
  (d.contents tombstone).filter (fun x => decide (key ≤ x.first))

/-- The present items behind a key. -/
def contentsBehind (tombstone : V) (d : DynamicPGMIndex K V PGM) (key : K) : List (Item K V) :=
  (d.contents tombstone).filter (fun x => decide (key < x.first))

variable (tombstone d) in
omit [Inhabited K] [PgmType K PGM] in
theorem length_contentsBehind_le (key : K) :
    (d.contentsBehind tombstone key).length ≤ items d.levels :=
  (List.length_filter_le _ _).trans ((List.length_filter_le _ _).trans (length_mergeAll_le _))

omit [Inhabited K] in
theorem contentsBehind_nil (h : Inv d) {key : K}
    (hnone : ∀ k y, key < k → d.lookup k = some y → y.deleted tombstone = true) :
    d.contentsBehind tombstone key = [] := by
  refine List.filter_eq_nil_iff.mpr (fun x hx hlt => ?_)
  obtain ⟨hnew, hlive⟩ := (mem_contents h).mp hx
  rw [hnone _ x (of_decide_eq_true hlt) hnew] at hlive
  cases hlive

omit [Inhabited K] in
theorem contentsBehind_cons (h : Inv d) {key : K} {y : Item K V} (hlt : key < y.first)
    (hnew : d.lookup y.first = some y) (hlive : y.deleted tombstone = false)
    (hbetween : ∀ k z, key < k → k < y.first → d.lookup k = some z → z.deleted tombstone = true) :
    d.contentsBehind tombstone key = y :: d.contentsBehind tombstone y.first := by
  refine (contents_run h).filter_least ((mem_contents h).mpr ⟨hnew, hlive⟩) (decide_eq_true hlt)
    (fun z hz hkz => ?_) (fun z _ hyz => decide_eq_true (hlt.trans hyz))
  obtain ⟨hz, hzlive⟩ := (mem_contents h).mp hz
  by_contra hzy
  rw [hbetween _ z (of_decide_eq_true hkz) (not_le.mp hzy) hz] at hzlive
  cases hzlive

/-! ### The loops -/

/-- From an item on the loop delivers it and the present items behind it, until its counter
overflows. -/
theorem scanLoop_spec (hsearch : SearchContains K PGM) (h : Inv d) {wide : ℕ}
    (hfits : Fits wide d) : ∀ (n size : ℕ) (it : Iterator K) (x : Item K V), size < 2 ^ 31 →
    At d it x → d.scanLoop tombstone wide n size it =
      if size + min n (x :: d.contentsBehind tombstone x.first).length < 2 ^ 31 then
        some (((x :: d.contentsBehind tombstone x.first).take n).map Item.pair)
      else none
  | 0, _, _, _, hsize, _ => by
      rw [Nat.zero_min, Nat.add_zero, if_pos hsize]
      rfl
  | n + 1, size, it, x, hsize, hat => by
      obtain ⟨it', hinc, hnext⟩ := increment_spec tombstone hsearch h hfits hat
      unfold scanLoop
      simp only [if_neg hat.1.ne_end, hat.1.2, hinc, Option.bind_eq_bind, Option.bind_some]
      rcases hnext with ⟨hend, hnone⟩ | ⟨y, hat', hlt, hnew, hlive, hbetween⟩
      · have hrest : ∀ size, d.scanLoop tombstone wide n size it' = some [] := by
          intro size
          cases n with
          | zero => rfl
          | succ n =>
              unfold scanLoop
              exact if_pos hend
        rw [hrest, contentsBehind_nil h hnone, Option.bind_some, List.take_succ_cons, List.take_nil,
          List.length_singleton, show min (n + 1) 1 = 1 by omega]
        rfl
      · have hcons := contentsBehind_cons h hlt hnew hlive hbetween
        rw [hcons, List.take_succ_cons, List.length_cons, Nat.add_min_add_right]
        by_cases hroom : size + 1 < 2 ^ 31
        · rw [if_pos hroom, scanLoop_spec hsearch h hfits n (size + 1) it' y hroom hat',
            Nat.add_right_comm, Nat.add_assoc]
          split <;> rfl
        · rw [if_neg hroom, if_neg (by omega)]

variable (tombstone) in
theorem distance_spec (hsearch : SearchContains K PGM) (h : Inv d) {wide : ℕ}
    (hfits : Fits wide d) : ∀ (n : ℕ) (it : Iterator K) (x : Item K V), At d it x →
    (d.contentsBehind tombstone x.first).length + 1 < n →
    d.distance tombstone wide n it = some ((d.contentsBehind tombstone x.first).length + 1)
  | 0, _, _, _, hn => absurd hn (Nat.not_lt_zero _)
  | n + 1, it, x, hat, hn => by
      obtain ⟨it', hinc, hnext⟩ := increment_spec tombstone hsearch h hfits hat
      unfold distance
      simp only [if_neg hat.1.ne_end, hinc, Option.bind_eq_bind, Option.bind_some]
      rcases hnext with ⟨hend, hnone⟩ | ⟨y, hat', hlt, hnew, hlive, hbetween⟩
      · have hrest : d.distance tombstone wide n it' = some 0 := by
          cases n with
          | zero => omega
          | succ n =>
              unfold distance
              exact if_pos hend
        rw [hrest, contentsBehind_nil h hnone, Option.bind_some, List.length_nil]
      · have hcons := contentsBehind_cons h hlt hnew hlive hbetween
        rw [hcons, List.length_cons] at hn
        rw [distance_spec hsearch h hfits n it' y hat' (by omega), Option.bind_some, hcons,
          List.length_cons]

/-! ### The start -/

/-- The tombstone that a walk may start with: no present key lies between the bound and it. -/
structure Ghost (tombstone : V) (d : DynamicPGMIndex K V PGM) (key : K) (g : Item K V) : Prop where
  deleted : g.deleted tombstone = true
  newest : d.lookup g.first = some g
  le : key ≤ g.first
  first : ∀ x ∈ d.contentsFrom tombstone key, g.first < x.first

variable (tombstone) in
omit [Inhabited K] in
/-- `lower_bound` is the first present item from the bound on, or a ghost before it. -/
theorem lowerBound_spec (hsearch : SearchContains K PGM) (h : Inv d) (key : K) :
    ∃ it, d.lowerBound tombstone key = some it ∧
      ((it.current = d.endIterator.current ∧ d.contentsFrom tombstone key = []) ∨
        ∃ x, Points d it.current x ∧ it.initialized = false ∧
          ((x.deleted tombstone = false ∧ d.contentsFrom tombstone key =
              x :: d.contentsBehind tombstone x.first) ∨
            (Ghost tombstone d key x ∧ d.contentsFrom tombstone key =
              d.contentsBehind tombstone x.first))) := by
  obtain ⟨lb, hrun, hnewest, hpresent⟩ := lowerBoundCursor_spec tombstone hsearch h key
  unfold lowerBound
  rw [hrun, Option.map_some]
  cases lb with
  | none =>
      refine ⟨_, rfl, Or.inl ⟨rfl, List.filter_eq_nil_iff.mpr (fun x hx hle => ?_)⟩⟩
      obtain ⟨hnew, hlive⟩ := (mem_contents h).mp hx
      obtain ⟨_, _, hnone, _⟩ := hpresent _ x (of_decide_eq_true hle) hnew hlive
      cases hnone
  | some best =>
      obtain ⟨c, x⟩ := best
      obtain ⟨hpoints, hle, hnew⟩ := hnewest c x rfl
      have hfirst : ∀ y ∈ d.contents tombstone, key ≤ y.first → x.first ≤ y.first := by
        intro y hy hky
        obtain ⟨hnewy, hlive⟩ := (mem_contents h).mp hy
        obtain ⟨_, _, heq, hxy⟩ := hpresent _ y hky hnewy hlive
        cases heq
        exact hxy
      refine ⟨_, rfl, Or.inr ⟨x, hpoints, rfl, ?_⟩⟩
      cases hdel : x.deleted tombstone with
      | false =>
          exact Or.inl ⟨rfl, (contents_run h).filter_least ((mem_contents h).mpr ⟨hnew, hdel⟩)
            (decide_eq_true hle) (fun y hy hky => hfirst y hy (of_decide_eq_true hky))
            (fun y _ hxy => decide_eq_true (hle.trans hxy.le))⟩
      | true =>
          have hlt : ∀ y ∈ d.contents tombstone, key ≤ y.first → x.first < y.first := by
            intro y hy hky
            refine lt_of_le_of_ne (hfirst y hy hky) (fun heq => ?_)
            obtain ⟨hnewy, hlive⟩ := (mem_contents h).mp hy
            rw [← heq, hnew] at hnewy
            rw [← Option.some.inj hnewy, hdel] at hlive
            cases hlive
          refine Or.inr ⟨⟨hdel, hnew, hle, fun y hy => ?_⟩, List.filter_congr (fun y hy => ?_)⟩
          · obtain ⟨hmem, hky⟩ := List.mem_filter.mp hy
            exact hlt y hmem (of_decide_eq_true hky)
          · exact decide_eq_decide.mpr ⟨hlt y hy, fun hxy => hle.trans hxy.le⟩

/-- In each level that has the key where a walk starts, the search range goes beyond it. -/
def StartCovered (tombstone : V) (d : DynamicPGMIndex K V PGM) (key : K) : Prop :=
  ∀ it x, d.lowerBound tombstone key = some it → d.item it.current.iterator = some x →
    d.Covers x.first

/-- The ghost that an iterator is at, if it is at one. -/
def ghostAt (tombstone : V) (d : DynamicPGMIndex K V PGM) (it : Iterator K) : Option (Item K V) :=
  (d.item it.current.iterator).filter (Item.deleted tombstone)

omit [LinearOrder K] [Inhabited K] [DecidableEq V] [PgmType K PGM] in
/-- No item is behind the last level. -/
theorem item_end : d.item d.endIterator.current.iterator = none := by
  unfold item endIterator iteratorAt
  dsimp only
  rw [List.getLastD_eq_getLast?, List.getLast?_eq_getElem?]
  cases hl : d.levels[d.levels.length - 1]? with
  | none => rfl
  | some l =>
      rw [Option.bind_eq_bind, Option.bind_some, Option.getD_some]
      exact List.getElem?_eq_none (le_refl _)

variable (tombstone) in
/-- Where a walk starts: at the end with no present item left, or at an item from which it goes
through the present items from the bound on, with a ghost before them if it starts at one. -/
theorem start_spec (hsearch : SearchContains K PGM) (h : Inv d) {key : K}
    (hcovers : StartCovered tombstone d key) :
    ∃ it, d.lowerBound tombstone key = some it ∧
      (∀ g ∈ d.ghostAt tombstone it, Ghost tombstone d key g) ∧
      ((it.current = d.endIterator.current ∧
          (d.ghostAt tombstone it).toList ++ d.contentsFrom tombstone key = []) ∨
        ∃ x, At d it x ∧ (d.ghostAt tombstone it).toList ++ d.contentsFrom tombstone key =
          x :: d.contentsBehind tombstone x.first) := by
  obtain ⟨it, hit, hcases⟩ := lowerBound_spec tombstone hsearch h key
  refine ⟨it, hit, ?_⟩
  rcases hcases with ⟨hend, hnil⟩ | ⟨x, hpoints, hini, hcases⟩
  · have hghost : d.ghostAt tombstone it = none := by
      unfold ghostAt
      rw [hend, item_end, Option.filter_none]
    rw [hghost, hnil]
    exact ⟨fun g hg => (by cases hg), Or.inl ⟨hend, rfl⟩⟩
  · have hat : At d it x := ⟨hpoints, Or.inl ⟨hini, hcovers it x hit hpoints.2⟩⟩
    unfold ghostAt
    rw [hpoints.2, Option.filter_some]
    rcases hcases with ⟨hdel, hfrom⟩ | ⟨hghost, hfrom⟩
    · rw [hdel, if_neg (by simp), hfrom]
      exact ⟨fun g hg => (by cases hg), Or.inr ⟨x, hat, rfl⟩⟩
    · rw [hghost.deleted, if_pos rfl, hfrom]
      exact ⟨fun g hg => Option.mem_some.mp hg ▸ hghost, Or.inr ⟨x, hat, rfl⟩⟩

variable (tombstone) in
/-- A scan delivers the present pairs from the bound on, with the ghost that it starts at before
them. -/
theorem scan_spec (hsearch : SearchContains K PGM) (h : Inv d) {wide : ℕ} (hfits : Fits wide d)
    {key : K} (hcovers : StartCovered tombstone d key) :
    ∃ it, d.lowerBound tombstone key = some it ∧
      (∀ g ∈ d.ghostAt tombstone it, Ghost tombstone d key g) ∧
      ∀ n, scan tombstone wide (some d) key n =
        if min n ((d.ghostAt tombstone it).toList ++ d.contentsFrom tombstone key).length < 2 ^ 31
        then some ((((d.ghostAt tombstone it).toList ++
          d.contentsFrom tombstone key).take n).map Item.pair)
        else none := by
  obtain ⟨it, hit, hghost, hcases⟩ := start_spec tombstone hsearch h hcovers
  refine ⟨it, hit, hghost, fun n => ?_⟩
  unfold scan
  simp only [hit, Option.bind_eq_bind, Option.bind_some]
  rcases hcases with ⟨hend, hnil⟩ | ⟨x, hat, hcons⟩
  · rw [hnil, List.length_nil, Nat.min_zero, if_pos (by decide), List.take_nil]
    cases n with
    | zero => rfl
    | succ n =>
        unfold scanLoop
        exact if_pos hend
  · rw [scanLoop_spec hsearch h hfits n 0 it x (by decide) hat, hcons, Nat.zero_add]

variable (tombstone) in
/-- `size` counts the present keys, and the ghost that `begin` is at. -/
theorem size_spec (hsearch : SearchContains K PGM) (h : Inv d) {wide : ℕ} (hfits : Fits wide d)
    {keyMin : K} (hcovers : StartCovered tombstone d keyMin) :
    ∃ it, d.begin tombstone keyMin = some it ∧
      (∀ g ∈ d.ghostAt tombstone it, Ghost tombstone d keyMin g) ∧
      d.size tombstone wide keyMin =
        some ((d.ghostAt tombstone it).toList ++ d.contentsFrom tombstone keyMin).length ∧
      d.empty tombstone keyMin = some (decide
        ((d.ghostAt tombstone it).toList ++ d.contentsFrom tombstone keyMin = [])) := by
  obtain ⟨it, hit, hghost, hcases⟩ := start_spec tombstone hsearch h hcovers
  have hbegin : d.begin tombstone keyMin = some it := hit
  refine ⟨it, hbegin, hghost, ?_⟩
  unfold size empty
  simp only [hbegin, Option.bind_eq_bind, Option.bind_some, Option.map_some]
  rcases hcases with ⟨hend, hnil⟩ | ⟨x, hat, hcons⟩
  · rw [hnil, decide_eq_true hend]
    refine ⟨?_, rfl⟩
    unfold distance
    exact if_pos hend
  · rw [hcons, decide_eq_false hat.1.ne_end]
    refine ⟨?_, by simp⟩
    rw [distance_spec tombstone hsearch h hfits (items d.levels + 2) it x hat (by
      have := length_contentsBehind_le tombstone d x.first
      omega), List.length_cons]

end DynamicPGMIndex

/-! ### After any calls -/

variable {tombstone}

omit [Inhabited K] in
/-- A key has an item only through an event. -/
theorem StepOK.stored {index : Option (DynamicPGMIndex K V PGM)}
    (hinv : ∀ d, index = some d → Inv d) {c : Call K V} (h : StepOK tombstone index c)
    {d' : DynamicPGMIndex K V PGM} (hrun : c.run tombstone index = some (some d')) {key : K}
    (hkey : d'.lookup key ≠ none) :
    c.event key ≠ none ∨ ∃ d, index = some d ∧ d.lookup key ≠ none := by
  -- an insert changes one key
  have inserted : ∀ (d : DynamicPGMIndex K V PGM) (x : Item K V), index = some d →
      Updated d x d' → (x.first = key → c.event key ≠ none) →
      c.event key ≠ none ∨ ∃ d, index = some d ∧ d.lookup key ≠ none := by
    intro d x hd hup hevent
    by_cases hx : key = x.first
    · exact Or.inl (hevent hx.symm)
    · rw [hup.2 key, if_neg hx] at hkey
      exact Or.inr ⟨d, hd, hkey⟩
  cases c with
  | bulkLoad keyValue =>
      obtain ⟨d, hd, _, hlook⟩ : ∃ d : DynamicPGMIndex K V PGM, _ := ofRange_spec h.1
      unfold Call.run at hrun
      simp only [hd, Option.map_some] at hrun
      obtain rfl := Option.some.inj (Option.some.inj hrun)
      rw [hlook key] at hkey
      obtain ⟨x, hx⟩ := Option.ne_none_iff_exists'.mp hkey
      left
      unfold Call.event
      dsimp only
      rw [hx]
      simp
  | put k v =>
      obtain ⟨hv, d, rfl, hok⟩ := h
      obtain ⟨b, d'', hd'', hup⟩ := insertItem_spec tombstone (hinv d rfl) hok
      have hpair : Item.ofPair tombstone k v = some ⟨k, v⟩ := if_neg hv
      unfold Call.run DynamicPGMIndex.insert at hrun
      simp only [Option.bind_eq_bind, Option.bind_some, hpair, hd''] at hrun
      obtain rfl := Option.some.inj (Option.some.inj hrun)
      refine inserted d _ rfl hup (fun hk => ?_)
      unfold Call.event
      simp only [if_pos hk]
      simp
  | remove k =>
      obtain ⟨d, rfl, hok⟩ := h
      obtain ⟨b, d'', hd'', hup⟩ := insertItem_spec tombstone (hinv d rfl) hok
      unfold Call.run DynamicPGMIndex.erase at hrun
      simp only [Option.bind_eq_bind, Option.bind_some, hd'', Option.map_some] at hrun
      obtain rfl := Option.some.inj (Option.some.inj hrun)
      refine inserted d _ rfl hup (fun hk => ?_)
      unfold Call.event
      simp only [if_pos hk]
      simp

omit [Inhabited K] in
theorem StepsOK.stored (hsearch : SearchContains K PGM) (key : K) : ∀ (cs : List (Call K V))
    {index : Option (DynamicPGMIndex K V PGM)}, (∀ d, index = some d → Inv d) →
    StepsOK tombstone index cs → ∀ {d' : DynamicPGMIndex K V PGM},
    runCalls tombstone index cs = some (some d') → d'.lookup key ≠ none →
    mostRecent cs key ≠ none ∨ ∃ d, index = some d ∧ d.lookup key ≠ none
  | [], index, _, _, d', hrun, hkey => Or.inr ⟨d', Option.some.inj hrun, hkey⟩
  | c :: cs, index, hinv, ⟨hok, hoks⟩, d', hrun, hkey => by
      obtain ⟨d₁, hd₁, hinv₁, _⟩ := hok.run tombstone hsearch hinv
      unfold runCalls at hrun
      rw [hd₁, Option.bind_eq_bind, Option.bind_some] at hrun
      rw [mostRecent_cons]
      rcases StepsOK.stored hsearch key cs (fun d h => Option.some.inj h ▸ hinv₁) (hoks _ hd₁) hrun
        hkey with hrecent | ⟨d, heq, hstored⟩
      · obtain ⟨e, he⟩ := Option.ne_none_iff_exists'.mp hrecent
        rw [he, Option.some_or]
        exact Or.inl (Option.some_ne_none e)
      · obtain rfl := Option.some.inj heq
        rcases hok.stored hinv hd₁ hstored with hevent | hold
        · left
          obtain ⟨e, he⟩ := Option.ne_none_iff_exists'.mp hevent
          rw [he]
          cases mostRecent cs key <;> simp
        · exact Or.inr hold

/-- The pairs of the present keys from a bound on, in key order. -/
structure Pairs (cs : List (Call K V)) (key : K) (pairs : List (K × V)) : Prop where
  sorted : pairs.Pairwise (fun x y => x.1 < y.1)
  mem : ∀ k v, (k, v) ∈ pairs ↔ key ≤ k ∧ mostRecent cs k = some (some v)

/-- What a walk shows before the present pairs: at most one removed key, with the reserved
value. -/
structure Leading (tombstone : V) (cs : List (Call K V)) (key : K) (pairs lead : List (K × V)) :
    Prop where
  length : lead.length ≤ 1
  removed : ∀ g ∈ lead, g.2 = tombstone ∧ key ≤ g.1 ∧ mostRecent cs g.1 = some none
  first : ∀ g ∈ lead, ∀ x ∈ pairs, g.1 < x.1

omit [Inhabited K] in
/-- After calls that keep the map the present items are the pairs of the most recent events. -/
theorem contents_of_calls (hsearch : SearchContains K PGM) {cs : List (Call K V)} (hne : cs ≠ [])
    (hok : StepsOK tombstone (none : Option (DynamicPGMIndex K V PGM)) cs) :
    ∃ d : DynamicPGMIndex K V PGM, runCalls tombstone none cs = some (some d) ∧ Inv d ∧
      ∀ key, Pairs cs key ((d.contentsFrom tombstone key).map Item.pair) ∧
        ∀ ghost : Option (Item K V), (∀ g ∈ ghost, Ghost tombstone d key g) →
          Leading tombstone cs key ((d.contentsFrom tombstone key).map Item.pair)
            (ghost.toList.map Item.pair) := by
  have hnone : ∀ d, (none : Option (DynamicPGMIndex K V PGM)) = some d → Inv d :=
    fun d h => (by cases h)
  obtain ⟨index, hrun, hinv, hsome, hval⟩ := StepsOK.run tombstone hsearch cs hnone hok
  obtain ⟨d, rfl⟩ := Option.isSome_iff_exists.mp (hsome.resolve_right hne)
  have h := hinv d rfl
  have hvalue : ∀ k, value tombstone (some d) k = (mostRecent cs k).join := by
    intro k
    rw [hval k]
    cases mostRecent cs k <;> rfl
  -- the present items are the values
  have hmem : ∀ k v, d.lookup k = some ⟨k, v⟩ ∧ v ≠ tombstone ↔
      mostRecent cs k = some (some v) := by
    intro k v
    rw [← Option.join_eq_some_iff, ← hvalue k]
    unfold value
    rw [Option.bind_some, Option.bind_eq_some_iff]
    constructor
    · rintro ⟨hlook, hv⟩
      exact ⟨_, hlook, if_neg (by simpa [Item.deleted] using hv)⟩
    · rintro ⟨x, hx, hxv⟩
      split at hxv
      · cases hxv
      · rename_i hlive
        obtain rfl := Option.some.inj hxv
        obtain rfl := key_of_lookupAll hx
        exact ⟨hx, by simpa [Item.deleted] using hlive⟩
  refine ⟨d, hrun, h, fun key => ⟨⟨?_, fun k v => ?_⟩, fun ghost hghost => ⟨?_, ?_, ?_⟩⟩⟩
  · rw [List.pairwise_map]
    exact (contents_run h).sublist List.filter_sublist
  · rw [← hmem k v, List.mem_map]
    constructor
    · rintro ⟨x, hx, hpair⟩
      obtain ⟨hx, hle⟩ := List.mem_filter.mp hx
      obtain ⟨hnew, hlive⟩ := (mem_contents h).mp hx
      obtain ⟨rfl, rfl⟩ := Prod.mk.inj hpair
      exact ⟨of_decide_eq_true hle, hnew, of_decide_eq_false hlive⟩
    · rintro ⟨hle, hnew, hlive⟩
      exact ⟨⟨k, v⟩, List.mem_filter.mpr ⟨(mem_contents h).mpr ⟨hnew, decide_eq_false hlive⟩,
        decide_eq_true hle⟩, rfl⟩
  · rw [List.length_map]
    cases ghost <;> simp
  · intro g hg
    obtain ⟨x, hx, rfl⟩ := List.mem_map.mp hg
    have hx := hghost x (Option.mem_toList.mp hx)
    have hdel : x.second = tombstone := of_decide_eq_true hx.deleted
    refine ⟨hdel, hx.le, ?_⟩
    -- its most recent event exists and is not a value
    have hstored := (StepsOK.stored hsearch x.first cs hnone hok hrun (by
      rw [hx.newest]
      exact Option.some_ne_none x)).resolve_right (by rintro ⟨d, hd, _⟩; cases hd)
    obtain ⟨e, he⟩ := Option.ne_none_iff_exists'.mp hstored
    cases e with
    | none => exact he
    | some v =>
        obtain ⟨hlook, hv⟩ := (hmem x.first v).mpr he
        obtain rfl : x.second = v := by rw [Option.some.inj (hx.newest.symm.trans hlook)]
        exact absurd hdel hv
  · intro g hg y hy
    obtain ⟨x, hx, rfl⟩ := List.mem_map.mp hg
    obtain ⟨z, hz, rfl⟩ := List.mem_map.mp hy
    exact (hghost x (Option.mem_toList.mp hx)).first z hz

/-- **A scan delivers the present pairs from the bound on, in key order and each once**, with the
removed key that it starts at before them if it starts at one, until its `int` counter overflows. -/
theorem scan_delivers (hsearch : SearchContains K PGM) (wide : ℕ) (cs : List (Call K V))
    (hne : cs ≠ []) (hok : StepsOK tombstone (none : Option (DynamicPGMIndex K V PGM)) cs) :
    ∃ d : DynamicPGMIndex K V PGM, runCalls tombstone none cs = some (some d) ∧
      ∀ key, Fits wide d → StartCovered tombstone d key →
        ∃ it lead pairs, d.lowerBound tombstone key = some it ∧
          lead = (d.ghostAt tombstone it).toList.map Item.pair ∧ Pairs cs key pairs ∧
          Leading tombstone cs key pairs lead ∧
          ∀ n, scan tombstone wide (some d) key n =
            if min n (lead ++ pairs).length < 2 ^ 31 then some ((lead ++ pairs).take n)
            else none := by
  obtain ⟨d, hrun, h, hcontents⟩ := contents_of_calls hsearch hne hok
  refine ⟨d, hrun, fun key hfits hcovers => ?_⟩
  obtain ⟨it, hit, hghost, hscan⟩ := scan_spec tombstone hsearch h hfits hcovers
  refine ⟨it, _, _, hit, rfl, (hcontents key).1, (hcontents key).2 _ hghost, fun n => ?_⟩
  rw [hscan n, List.map_take, List.map_append, List.length_append, List.length_append,
    List.length_map, List.length_map]

-- the tombstone of 12 is not at the front of its level, and 10 was removed later
example : scan 255 1 (some (⟨8, [[⟨10, 255⟩], [⟨10, 1⟩, ⟨12, 255⟩, ⟨13, 3⟩], []], []⟩ :
    DynamicPGMIndex ℕ ℕ WholeRange)) 10 5 = some [(12, 255), (13, 3)] := by decide +kernel

/-- **`size` counts the present keys from `numeric_limits<K>::min()` on**, and the removed key that
`begin()` stops at if it stops at one; `empty` agrees with it. -/
theorem size_counts (hsearch : SearchContains K PGM) (wide : ℕ) (keyMin : K)
    (cs : List (Call K V)) (hne : cs ≠ [])
    (hok : StepsOK tombstone (none : Option (DynamicPGMIndex K V PGM)) cs) :
    ∃ d : DynamicPGMIndex K V PGM, runCalls tombstone none cs = some (some d) ∧
      (Fits wide d → StartCovered tombstone d keyMin →
        ∃ it lead pairs, d.begin tombstone keyMin = some it ∧
          lead = (d.ghostAt tombstone it).toList.map Item.pair ∧ Pairs cs keyMin pairs ∧
          Leading tombstone cs keyMin pairs lead ∧
          d.size tombstone wide keyMin = some (lead.length + pairs.length) ∧
          d.empty tombstone keyMin = some (decide (lead.length + pairs.length = 0))) := by
  obtain ⟨d, hrun, h, hcontents⟩ := contents_of_calls hsearch hne hok
  refine ⟨d, hrun, fun hfits hcovers => ?_⟩
  obtain ⟨it, hit, hghost, hsize, hempty⟩ := size_spec tombstone hsearch h hfits hcovers
  refine ⟨it, _, _, hit, rfl, (hcontents keyMin).1, (hcontents keyMin).2 _ hghost, ?_, ?_⟩
  · rw [hsize, List.length_append, List.length_map, List.length_map]
  · rw [hempty, List.length_map, List.length_map, ← List.length_append]
    simp only [List.length_eq_zero_iff]

omit [Inhabited K] [DecidableEq V] in
/-- A whole level goes beyond each of its keys. -/
theorem wholeRange_covers {d : DynamicPGMIndex K V WholeRange} (h : Inv d) (key : K) :
    d.Covers key := by
  rintro j l lo hi hl hrange ⟨x, hx, hkey⟩
  have hhi : hi = l.length := by
    have hne : l ≠ [] := List.ne_nil_of_mem hx
    unfold searchRange at hrange
    rcases Nat.lt_or_ge (j + minLevel) minIndexedLevel with hlt | hge
    · rw [if_pos hlt] at hrange
      exact (Prod.mk.inj (Option.some.inj hrange)).2.symm
    · rw [if_neg (by omega), h.indexed j l hl hne hge] at hrange
      have hsize := (Prod.mk.inj (Option.some.inj hrange)).2
      exact hsize.symm.trans (List.length_map ..)
  have hrun := h.runs l (List.mem_of_getElem? hl)
  have hget := hrun.getElem?_lowerBound key
  rw [← hkey, hrun.lookup_eq_some hx] at hget
  rw [hhi, ← hkey]
  by_contra hge
  rw [List.getElem?_eq_none (not_lt.mp hge)] at hget
  cases hget

/-- More pairs than the buffer holds are loaded; one is removed and one is put. -/
def removingCalls : List (Call ℕ ℕ) :=
  [.bulkLoad ((List.range 70).map (fun i => (2 * i, i))), .remove 10, .put 11 111]

theorem removingCalls_ok :
    StepsOK 255 (none : Option (DynamicPGMIndex ℕ ℕ WholeRange)) removingCalls := by
  refine ⟨⟨⟨by decide +kernel, by decide +kernel⟩, fun key v h => (by cases h)⟩, fun index h => ?_⟩
  obtain rfl := Option.some.inj h
  refine ⟨⟨_, rfl, by decide +kernel⟩, fun index h => ?_⟩
  obtain rfl := Option.some.inj h
  refine ⟨⟨by decide, _, rfl, by decide +kernel⟩, fun index h => ?_⟩
  trivial

/-- The calls reach a container whose levels are covered, and few of them. -/
theorem removingCalls_fit {d : DynamicPGMIndex ℕ ℕ WholeRange}
    (hrun : runCalls 255 none removingCalls = some (some d)) :
    Fits 1 d ∧ ∀ key, StartCovered 255 d key := by
  obtain ⟨d', hrun', h, _⟩ := contents_of_calls wholeRange_contains (by decide) removingCalls_ok
  obtain rfl := Option.some.inj (Option.some.inj (hrun.symm.trans hrun'))
  have hused : (runCalls 255 (none : Option (DynamicPGMIndex ℕ ℕ WholeRange)) removingCalls).map
      (fun index => index.map DynamicPGMIndex.usedLevels) = some (some 8) := by decide +kernel
  rw [hrun, Option.map_some, Option.map_some] at hused
  exact ⟨⟨by have := Option.some.inj (Option.some.inj hused); omega, by decide, by decide⟩,
    fun key _ x _ _ => wholeRange_covers h x.first⟩

theorem scan_delivers_removingCalls :
    ∃ d : DynamicPGMIndex ℕ ℕ WholeRange, runCalls 255 none removingCalls = some (some d) ∧
      ∀ key, ∃ it lead pairs, d.lowerBound 255 key = some it ∧
        lead = (d.ghostAt 255 it).toList.map Item.pair ∧ Pairs removingCalls key pairs ∧
        Leading 255 removingCalls key pairs lead ∧
        ∀ n, scan 255 1 (some d) key n =
          if min n (lead ++ pairs).length < 2 ^ 31 then some ((lead ++ pairs).take n)
          else none := by
  obtain ⟨d, hrun, hscan⟩ :=
    scan_delivers wholeRange_contains 1 removingCalls (by decide) removingCalls_ok
  exact ⟨d, hrun, fun key =>
    hscan key (removingCalls_fit hrun).1 ((removingCalls_fit hrun).2 key)⟩

theorem size_counts_removingCalls :
    ∃ d : DynamicPGMIndex ℕ ℕ WholeRange, runCalls 255 none removingCalls = some (some d) ∧
      ∃ it lead pairs, d.begin 255 0 = some it ∧
        lead = (d.ghostAt 255 it).toList.map Item.pair ∧ Pairs removingCalls 0 pairs ∧
        Leading 255 removingCalls 0 pairs lead ∧
        d.size 255 1 0 = some (lead.length + pairs.length) ∧
        d.empty 255 0 = some (decide (lead.length + pairs.length = 0)) := by
  obtain ⟨d, hrun, hsize⟩ :=
    size_counts wholeRange_contains 1 0 removingCalls (by decide) removingCalls_ok
  exact ⟨d, hrun, hsize (removingCalls_fit hrun).1 ((removingCalls_fit hrun).2 0)⟩

end LearnedIndex.Pgm
