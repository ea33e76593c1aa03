import LearnedIndex.Pgm.DynamicMerge

/-! # One insert into the dynamic PGM index

The level that a full buffer goes to is the first with room for all before it (`chooseLevel_spec`).
When that level is empty the merge leaves one run behind the empty levels, and either branch of the
insert changes the newest item of its own key only (`insertNew_spec`). -/

namespace LearnedIndex.Pgm

open LearnedIndex.Runs

variable {K V PGM : Type} [LinearOrder K] [PgmType K PGM] {tombstone : V}

namespace DynamicPGMIndex

variable {d : DynamicPGMIndex K V PGM}

/-! ### The target level -/

/-- The chosen level has room for the slots, which are the first ones and the items of the levels
before it. -/
theorem chooseLevel_spec (h : Inv d) : ∀ n j slots, 1 ≤ j → j + minLevel + n = d.usedLevels →
    slots ≤ 2 ^ (j + minLevel) → ∃ t, j ≤ t ∧ t + minLevel ≤ d.usedLevels ∧
      d.chooseLevel n (j + minLevel) slots =
        some (t + minLevel, slots + items ((d.levels.take t).drop j)) ∧
      slots + items ((d.levels.take t).drop j) ≤ 2 ^ (t + minLevel)
  | 0, j, slots, _, hj, hs => by
      have hnil : (d.levels.take j).drop j = [] :=
        List.drop_eq_nil_of_le (by rw [List.length_take]; omega)
      refine ⟨j, le_refl j, by omega, ?_, ?_⟩
      · rw [hnil]
        rfl
      · rw [hnil]
        exact hs
  | n + 1, j, slots, hj1, hj, hs => by
      have hroom := h.room
      obtain ⟨l, hl⟩ : ∃ l, d.levels[j]? = some l := ⟨_, List.getElem?_eq_getElem (by omega)⟩
      have hlevel : d.level (j + minLevel) = some l := by
        unfold level
        rw [Nat.add_sub_cancel, hl]
      have hsize : l.length ≤ 2 ^ (j + minLevel) := by
        have := h.size (j - 1) l (by rw [show j - 1 + 1 = j by omega]; exact hl)
        rwa [show j - 1 + 1 = j by omega] at this
      unfold chooseLevel
      rw [hlevel, Option.bind_eq_bind, Option.bind_some]
      by_cases hfree : slots ≤ 2 ^ (j + minLevel) - l.length
      · have hnil : (d.levels.take j).drop j = [] :=
          List.drop_eq_nil_of_le (by rw [List.length_take]; omega)
        refine ⟨j, le_refl j, by omega, ?_, ?_⟩
        · rw [if_pos hfree, hnil]
          rfl
        · rw [hnil]
          exact hs
      · rw [if_neg hfree]
        have hpow : 2 ^ (j + 1 + minLevel) = 2 * 2 ^ (j + minLevel) := by
          rw [show j + 1 + minLevel = j + minLevel + 1 by omega, Nat.pow_succ]
          omega
        obtain ⟨t, hjt, htu, hc, hfit⟩ := chooseLevel_spec h n (j + 1) (slots + l.length)
          (by omega) (by omega) (by omega)
        rw [show j + 1 + minLevel = j + minLevel + 1 by omega] at hc
        refine ⟨t, by omega, htu, ?_, ?_⟩
        · rw [hc, items_drop_take hl (by omega), Nat.add_assoc]
        · rw [items_drop_take hl (by omega)]
          omega

/-! ### Storing the merged run -/

/-- The last steps of `pairwise_merge`. -/
def store (d : DynamicPGMIndex K V PGM) (result : List (Item K V)) :
    Option (DynamicPGMIndex K V PGM) := do
  let target := max (ceilLog2 result.length) (minLevel + 1)
  let d ← d.setLevel minLevel []
  let d ← d.setLevel target result
  d.setPgm target (PgmType.build (result.map Item.first))

/-- A run that is stored at position `q` with all levels up to `t` empty but for it. -/
structure Stored (d₀ : DynamicPGMIndex K V PGM) (t q : ℕ) (run : List (Item K V))
    (d : DynamicPGMIndex K V PGM) : Prop where
  used : d.usedLevels = d₀.usedLevels
  levelsLen : d.levels.length = d₀.levels.length
  levels : ∀ p, d.levels[p]? = if p = q then some run else if p ≤ t then some [] else d₀.levels[p]?
  pgmsLen : d.pgms.length = d₀.pgms.length
  built : minIndexedLevel ≤ q + minLevel →
    d.pgms[q + minLevel - minIndexedLevel]? = some (PgmType.build (run.map Item.first))
  pgms : ∀ r, t + minLevel < r + minIndexedLevel → d.pgms[r]? = d₀.pgms[r]?

theorem Merging.stored {d₀ : DynamicPGMIndex K V PGM} {x : Item K V} {hint mod t : ℕ}
    {s : DynamicPGMIndex K V PGM × Tmp K V} {run : List (Item K V)}
    (h : Merging d₀ x hint mod t t s run) (hd : Inv d₀) (ht : 1 ≤ t)
    (htu : t + minLevel < d₀.usedLevels) (hempty : d₀.levels[t]? = some [])
    (hfit : hint ≤ 2 ^ (t + minLevel)) :
    ∃ q d, 1 ≤ q ∧ q ≤ t ∧ run.length ≤ 2 ^ (q + minLevel) ∧ s.1.store run = some d ∧
      Stored d₀ t q run d := by
  have hroom := hd.room
  have hpgm := hd.pgmRoom
  have hfits := h.fits
  have hlog : ceilLog2 run.length ≤ t + minLevel := Nat.clog_le_of_le_pow (by omega)
  obtain ⟨q, hq⟩ : ∃ q, max (ceilLog2 run.length) (minLevel + 1) = q + minLevel :=
    ⟨max (ceilLog2 run.length) (minLevel + 1) - minLevel, by omega⟩
  have hq1 : 1 ≤ q := by omega
  have hqt : q ≤ t := by omega
  have hsize : run.length ≤ 2 ^ (q + minLevel) :=
    (Nat.le_pow_clog (by decide) _).trans (Nat.pow_le_pow_right (by decide) (by
      unfold ceilLog2 at hq
      omega))
  obtain ⟨pgms, hp, hplen, hbuilt, hpother⟩ := setPgm_spec
    { s.1 with levels := (s.1.levels.set 0 []).set q run } (i := q + minLevel)
    (by rw [h.pgmsLen]; omega) (PgmType.build (run.map Item.first))
  refine ⟨q, ⟨s.1.usedLevels, (s.1.levels.set 0 []).set q run, pgms⟩, hq1, hqt, hsize, ?_, ?_⟩
  · have h0 := setLevel_eq s.1 (j := 0) (by rw [h.levelsLen]; omega) []
    rw [Nat.zero_add] at h0
    unfold store
    rw [hq, h0, Option.bind_eq_bind, Option.bind_some,
      setLevel_eq _ (by rw [List.length_set, h.levelsLen]; omega)]
    simp only [Option.bind_some, hp]
  · refine ⟨h.used, by rw [List.length_set, List.length_set]; exact h.levelsLen, fun p => ?_,
      hplen.trans h.pgmsLen, hbuilt, fun r hr => ?_⟩
    · rw [List.getElem?_set, List.getElem?_set, List.length_set, h.levelsLen]
      by_cases hpq : p = q
      · rw [if_pos hpq.symm, if_pos (by omega), if_pos hpq]
      rw [if_neg (Ne.symm hpq), if_neg hpq]
      by_cases hp0 : p = 0
      · rw [if_pos hp0.symm, if_pos (by omega), if_pos (by omega)]
      rw [if_neg (Ne.symm hp0)]
      by_cases hpt : p ≤ t
      · rw [if_pos hpt]
        rcases Nat.lt_or_ge p t with hlt | hge
        · exact h.cleared p (by omega) hlt
        · rw [h.kept p (by omega), show p = t by omega, hempty]
      · rw [if_neg hpt, h.kept p (by omega)]
    · rw [hpother r (by omega)]
      exact h.pgms r (by omega)

/-- The invariant after the run was stored. -/
theorem Stored.inv {d₀ d : DynamicPGMIndex K V PGM} {t q : ℕ} {run : List (Item K V)}
    (h : Stored d₀ t q run d) (hd : Inv d₀) (hq1 : 1 ≤ q) (hqt : q ≤ t)
    (htu : t + minLevel < d₀.usedLevels) (hrun : Run Item.first run)
    (hsize : run.length ≤ 2 ^ (q + minLevel)) : Inv d := by
  -- a level is the run, empty, or one from behind position `t`
  have hcases : ∀ p l, d.levels[p]? = some l →
      (p = q ∧ l = run) ∨ l = [] ∨ (t < p ∧ d₀.levels[p]? = some l) := by
    intro p l hl
    rw [h.levels p] at hl
    split at hl
    · exact Or.inl ⟨by assumption, (Option.some.inj hl).symm⟩
    · split at hl
      · exact Or.inr (Or.inl (Option.some.inj hl).symm)
      · exact Or.inr (Or.inr ⟨by omega, hl⟩)
  refine ⟨by rw [h.used]; exact hd.used, by rw [h.used, h.levelsLen]; exact hd.room,
    by rw [h.levelsLen]; exact hd.two, fun l hl => ?_, fun p l hl hp => ?_, fun l hl => ?_,
      fun p l hl => ?_,
    by rw [h.used, h.pgmsLen]; exact hd.pgmRoom, fun p l hl hne hp => ?_⟩
  · obtain ⟨p, hp⟩ := List.mem_iff_getElem?.mp hl
    rcases hcases p l hp with ⟨_, rfl⟩ | rfl | ⟨_, hp⟩
    · exact hrun
    · exact List.Pairwise.nil
    · exact hd.runs l (List.mem_of_getElem? hp)
  · rw [h.used] at hp
    rcases hcases p l hl with ⟨rfl, _⟩ | rfl | ⟨_, hl⟩
    · omega
    · rfl
    · exact hd.unused p l hl hp
  · rcases hcases 0 l hl with ⟨h0, _⟩ | rfl | ⟨h0, _⟩
    · omega
    · exact Nat.zero_le _
    · omega
  · rcases hcases (p + 1) l hl with ⟨rfl, rfl⟩ | rfl | ⟨_, hl⟩
    · exact hsize
    · exact Nat.zero_le _
    · exact hd.size p l hl
  · rcases hcases p l hl with ⟨rfl, rfl⟩ | rfl | ⟨htp, hl⟩
    · exact h.built hp
    · exact absurd rfl hne
    · rw [h.pgms _ (by omega)]
      exact hd.indexed p l hl hne hp

/-- The newest items after the run was stored. -/
theorem Stored.lookup {d₀ d : DynamicPGMIndex K V PGM} {t q : ℕ} {run : List (Item K V)}
    (h : Stored d₀ t q run d) (hqt : q ≤ t) (key : K) :
    d.lookup key =
      (Runs.lookup Item.first run key).or (lookupAll Item.first (d₀.levels.drop (t + 1)) key) := by
  have hget := h.levels
  have hdrop : d.levels.drop (t + 1) = d₀.levels.drop (t + 1) := by
    refine List.ext_getElem? (fun i => ?_)
    rw [List.getElem?_drop, List.getElem?_drop, hget, if_neg (by omega), if_neg (by omega)]
  have hlt : q < t + 1 := by omega
  have hat : (d.levels.take (t + 1))[q]? = some run := by
    rw [List.getElem?_take_of_lt hlt, hget, if_pos rfl]
  have hfirst : lookupAll Item.first (d.levels.take (t + 1)) key =
      Runs.lookup Item.first run key := by
    refine lookupAll_single hat (fun j l hj hl => ?_) key
    have hjt : j < t + 1 := by
      by_contra hjt
      rw [List.getElem?_take_eq_none (by omega)] at hl
      cases hl
    rw [List.getElem?_take_of_lt hjt, hget, if_neg hj, if_pos (by omega)] at hl
    exact (Option.some.inj hl).symm
  unfold DynamicPGMIndex.lookup
  rw [lookupAll_take_drop d.levels (t + 1), hfirst, hdrop]

/-! ### Merging a full buffer -/

/-- What an insert of an item has to do with the newest items. -/
def Updated (d : DynamicPGMIndex K V PGM) (x : Item K V) (d' : DynamicPGMIndex K V PGM) : Prop :=
  Inv d' ∧ ∀ key, d'.lookup key = if key = x.first then some x else d.lookup key

theorem cons_of_getElem? {α : Type} {ls : List α} {l : α} (h : ls[0]? = some l) :
    ∃ ls', ls = l :: ls' := by
  cases ls with
  | nil => cases h
  | cons l' ls =>
      obtain rfl := Option.some.inj h
      exact ⟨ls, rfl⟩

/-- The buffer with the new item, before the first round. -/
theorem Merging.start (h : Inv d) {x : Item K V} {buffer : List (Item K V)} {t : ℕ}
    (hb : d.levels[0]? = some buffer) (hx : Runs.lookup Item.first buffer x.first = none)
    {mod hint : ℕ} (hmod : mod < 2)
    (hhint : buffer.length + 1 + items ((d.levels.take t).drop 1) = hint) :
    ∃ tmpA tmpB, overwrite (List.replicate hint none) (buffer.take
        (lowerBound Item.first buffer x.first) ++ x :: buffer.drop
        (lowerBound Item.first buffer x.first)) = some (if mod = 1 then tmpA else tmpB) ∧
      (if mod = 1 then tmpB else tmpA) = List.replicate hint none ∧
      Merging d x hint mod t 1 (d, ⟨tmpA, tmpB, buffer.length + 1⟩)
        (buffer.take (lowerBound Item.first buffer x.first) ++ x :: buffer.drop
          (lowerBound Item.first buffer x.first)) := by
  have hlen : (buffer.take (lowerBound Item.first buffer x.first) ++ x :: buffer.drop
      (lowerBound Item.first buffer x.first)).length = buffer.length + 1 := by
    have hle : lowerBound Item.first buffer x.first ≤ buffer.length := lowerBound_le _ _
    rw [List.length_append, List.length_cons, List.length_take, List.length_drop]
    omega
  have hsorted := (h.runs buffer (List.mem_of_getElem? hb)).insert hx
  have hnew := lookup_insert (lowerBound Item.first buffer x.first) hx
  generalize hr : buffer.take (lowerBound Item.first buffer x.first) ++ x :: buffer.drop
    (lowerBound Item.first buffer x.first) = run at hlen hsorted hnew
  obtain ⟨array, ho, halen, hatake⟩ :=
    overwrite_eq (show run.length ≤ (List.replicate hint none).length by
    rw [List.length_replicate]
    omega)
  rw [List.length_replicate] at halen
  have hfirst : d.levels.take 1 = [buffer] := by
    obtain ⟨ls, hls⟩ := cons_of_getElem? hb
    rw [hls]
    rfl
  refine ⟨if mod = 1 then array else List.replicate hint none,
    if mod = 1 then List.replicate hint none else array, ?_, ?_, ?_⟩
  · rw [ho]
    split <;> rfl
  · split <;> rfl
  · refine ⟨rfl, rfl, fun p h1 h2 => absurd h1 (by omega), fun p _ => rfl, rfl, fun q _ => rfl,
      hsorted, hlen.symm, ?_, ?_, ?_, ?_, fun key => ?_⟩
    · split
      · exact halen
      · exact List.length_replicate
    · split
      · exact List.length_replicate
      · exact halen
    · obtain rfl | rfl : mod = 0 ∨ mod = 1 := by omega
      · exact hatake
      · exact hatake
    · omega
    · rw [hnew key, hfirst, lookupAll_cons, lookupAll_nil, Option.or_none]

variable [DecidableEq V]

variable (tombstone) in
/-- `pairwise_merge` into an empty level. -/
theorem pairwiseMerge_spec (h : Inv d) {x : Item K V} {buffer : List (Item K V)} {t : ℕ}
    (ht : 1 ≤ t) (htu : t + minLevel < d.usedLevels) (hempty : d.levels[t]? = some [])
    (hb : d.levels[0]? = some buffer) (hfull : buffer.length = bufferMaxSize)
    (hx : Runs.lookup Item.first buffer x.first = none)
    (hfit : bufferMaxSize + 1 + items ((d.levels.take t).drop 1) ≤ 2 ^ (t + minLevel)) :
    ∃ d', d.pairwiseMerge tombstone x (t + minLevel - 1)
        (bufferMaxSize + 1 + items ((d.levels.take t).drop 1))
        (lowerBound Item.first buffer x.first) = some d' ∧ Updated d x d' := by
  obtain ⟨hint, hhint⟩ : ∃ hint, bufferMaxSize + 1 + items ((d.levels.take t).drop 1) = hint :=
    ⟨_, rfl⟩
  have hmod : (t + minLevel - 1 - minLevel) % 2 < 2 := Nat.mod_lt _ (by decide)
  have hhint' : buffer.length + 1 + items ((d.levels.take t).drop 1) = hint := by
    rw [hfull, hhint]
  obtain ⟨tmpA, tmpB, ho, hother, h1⟩ := Merging.start h hb hx hmod hhint'
  obtain ⟨s', run, hloop, hend⟩ : ∃ s' run, mergeLevels tombstone _ (t - 1) (1 + minLevel) _ =
      some s' ∧ Merging d x hint _ t t s' run :=
    Merging.steps h hmod htu (t - 1) 1 h1 (le_refl 1) (by omega)
  obtain ⟨q, d', hq1, hqt, hsize, hstore, hstored⟩ :=
    hend.stored h ht htu hempty (hhint ▸ hfit)
  have hbuf : s'.2.b.take run.length = run.map some := by
    have := hend.holding
    rwa [if_neg (by omega)] at this
  have hread : readRun s'.2.b s'.2.actualSize = some run := by
    rw [hend.size]
    exact readRun_eq hbuf
  refine ⟨d', ?_, hstored.inv h hq1 hqt htu hend.sorted hsize, fun key => ?_⟩
  · have hlevel : d.level (t + minLevel - 1 + 1) = some [] := by
      unfold level
      rw [show t + minLevel - 1 + 1 - minLevel = t by omega, hempty]
    unfold pairwiseMerge
    rw [hhint, hlevel, hb]
    simp only [Option.bind_eq_bind, Option.bind_some, List.length_nil, Nat.add_zero, ite_self, ho,
      if_true]
    have htmp : (if (t + minLevel - 1 - minLevel) % 2 = 1 then
        Tmp.mk (if (t + minLevel - 1 - minLevel) % 2 = 1 then tmpA else tmpB)
          (List.replicate hint none) (2 ^ (1 + minLevel))
        else ⟨List.replicate hint none,
          if (t + minLevel - 1 - minLevel) % 2 = 1 then tmpA else tmpB, 2 ^ (1 + minLevel)⟩) =
        ⟨tmpA, tmpB, buffer.length + 1⟩ := by
      have hlen : 2 ^ (1 + minLevel) = buffer.length + 1 := by
        rw [hfull]
        rfl
      rw [← hother, hlen]
      split <;> rfl
    rw [htmp, show t + minLevel - 1 - minLevel = t - 1 by omega]
    rw [show t + minLevel - 1 - minLevel = t - 1 by omega] at hloop
    rw [hloop, Option.bind_some, hread, Option.bind_some, hend.size]
    exact hstore
  · have hsplit : d.lookup key = (lookupAll Item.first (d.levels.take t) key).or
        (lookupAll Item.first (d.levels.drop (t + 1)) key) := by
      obtain ⟨hlt, hget⟩ := List.getElem?_eq_some_iff.mp hempty
      unfold lookup
      rw [lookupAll_take_drop d.levels t, List.drop_eq_getElem_cons hlt, hget, lookupAll_cons,
        lookup_nil, Option.none_or]
    rw [hstored.lookup hqt key, hend.newest key, hsplit]
    split <;> simp

/-! ### One insert -/

/-- The level that a full buffer is merged into is a new one, or an empty one. -/
def mergesIntoEmptyLevel (d : DynamicPGMIndex K V PGM) : Bool :=
  match d.levels[0]?, d.mergeTarget with
  | some buffer, some (i, _) => decide (buffer.length < bufferMaxSize) ||
      decide (i = d.usedLevels) || (d.level i).any List.isEmpty
  | _, _ => false

omit [DecidableEq V] in
/-- A level at the end changes no lookup. -/
theorem addLevel_spec (h : Inv d) : Inv (d.addLevel d.usedLevels) ∧
    ∀ key, (d.addLevel d.usedLevels).lookup key = d.lookup key := by
  have hroom := h.room
  have htwo := h.two
  have hpgm := h.pgmRoom
  -- a level is an old one or the new one
  have hcases : ∀ (p : ℕ) (l : List (Item K V)), (d.levels ++ [[]])[p]? = some l →
      d.levels[p]? = some l ∨ l = [] := by
    intro p l hl
    rw [List.getElem?_append] at hl
    split at hl
    · exact Or.inl hl
    · exact Or.inr (List.mem_singleton.mp (List.mem_of_getElem? hl))
  refine ⟨⟨Nat.le_succ_of_le h.used, ?_, ?_, fun l hl => ?_, fun p l hl hp => ?_, fun l hl => ?_,
    fun p l hl => ?_, ?_, fun p l hl hne hp => ?_⟩, fun key => ?_⟩
  · simp only [addLevel, List.length_append, List.length_singleton]
    omega
  · simp only [addLevel, List.length_append, List.length_singleton]
    omega
  · rcases List.mem_append.mp hl with hl | hl
    · exact h.runs l hl
    · rw [List.mem_singleton.mp hl]
      exact List.Pairwise.nil
  · rcases hcases p l hl with hl | rfl
    · exact h.unused p l hl (by
        simp only [addLevel] at hp
        omega)
    · rfl
  · rcases hcases 0 l hl with hl | rfl
    · exact h.buffer l hl
    · exact Nat.zero_le _
  · rcases hcases (p + 1) l hl with hl | rfl
    · exact h.size p l hl
    · exact Nat.zero_le _
  · simp only [addLevel]
    split
    · rw [List.length_append, List.length_singleton]
      omega
    · omega
  · rcases hcases p l hl with hl | rfl
    · have hget := h.indexed p l hl hne hp
      simp only [addLevel]
      split
      · obtain ⟨hlt, _⟩ := List.getElem?_eq_some_iff.mp hget
        rw [List.getElem?_append_left hlt, hget]
      · exact hget
    · exact absurd rfl hne
  · unfold lookup addLevel
    rw [lookupAll_append, lookupAll_cons, lookup_nil, lookupAll_nil, Option.or_none, Option.or_none]

variable (tombstone) in
/-- A new item in a buffer that has room. -/
theorem insertBuffer_spec (h : Inv d) {x : Item K V} {buffer : List (Item K V)}
    (hb : d.levels[0]? = some buffer) (hroom : buffer.length < bufferMaxSize)
    (hx : Runs.lookup Item.first buffer x.first = none) :
    ∃ d', d.insertNew tombstone buffer x (lowerBound Item.first buffer x.first) = some d' ∧
      Updated d x d' := by
  have htwo := h.two
  have hlen : (buffer.take (lowerBound Item.first buffer x.first) ++ x :: buffer.drop
      (lowerBound Item.first buffer x.first)).length = buffer.length + 1 := by
    have hle : lowerBound Item.first buffer x.first ≤ buffer.length := lowerBound_le _ _
    rw [List.length_append, List.length_cons, List.length_take, List.length_drop]
    omega
  have hsorted := (h.runs buffer (List.mem_of_getElem? hb)).insert hx
  have hnew := lookup_insert (lowerBound Item.first buffer x.first) hx
  generalize hr : buffer.take (lowerBound Item.first buffer x.first) ++ x :: buffer.drop
    (lowerBound Item.first buffer x.first) = run at hlen hsorted hnew
  have h0 := setLevel_eq d (j := 0) (by omega) run
  rw [Nat.zero_add] at h0
  -- a level is the new run or an old one behind it
  have hcases : ∀ p l, (d.levels.set 0 run)[p]? = some l →
      (p = 0 ∧ l = run) ∨ (p ≠ 0 ∧ d.levels[p]? = some l) := by
    intro p l hl
    rw [List.getElem?_set] at hl
    split at hl
    · rename_i hp
      rw [if_pos (by omega)] at hl
      exact Or.inl ⟨hp.symm, (Option.some.inj hl).symm⟩
    · rename_i hp
      exact Or.inr ⟨Ne.symm hp, hl⟩
  refine ⟨⟨if d.usedLevels = minLevel then minLevel + 1 else d.usedLevels, d.levels.set 0 run,
    d.pgms⟩, ?_, ⟨?_, ?_, ?_, fun l hl => ?_, fun p l hl hp => ?_, fun l hl => ?_, fun p l hl => ?_,
    ?_, fun p l hl hne hp => ?_⟩, fun key => ?_⟩
  · unfold insertNew
    rw [if_pos hroom, hr, h0, Option.bind_eq_bind, Option.bind_some]
  · have := h.used
    dsimp only
    split <;> omega
  · have := h.room
    dsimp only
    rw [List.length_set]
    split <;> omega
  · dsimp only
    rw [List.length_set]
    exact htwo
  · obtain ⟨p, hp⟩ := List.mem_iff_getElem?.mp hl
    rcases hcases p l hp with ⟨_, rfl⟩ | ⟨_, hp⟩
    · exact hsorted
    · exact h.runs l (List.mem_of_getElem? hp)
  · rcases hcases p l hl with ⟨rfl, _⟩ | ⟨_, hl⟩
    · have := h.used
      dsimp only at hp
      split at hp <;> omega
    · refine h.unused p l hl ?_
      dsimp only at hp
      split at hp <;> omega
  · rcases hcases 0 l hl with ⟨_, rfl⟩ | ⟨h0, _⟩
    · omega
    · exact absurd rfl h0
  · rcases hcases (p + 1) l hl with ⟨hp, _⟩ | ⟨_, hl⟩
    · omega
    · exact h.size p l hl
  · have := h.pgmRoom
    dsimp only
    split
    · exact Nat.le_add_left_of_le (by decide)
    · exact this
  · rcases hcases p l hl with ⟨rfl, _⟩ | ⟨_, hl⟩
    · exact absurd hp (by decide)
    · exact h.indexed p l hl hne hp
  · unfold lookup
    obtain ⟨ls, hls⟩ := cons_of_getElem? hb
    rw [hls, List.set_cons_zero, lookupAll_cons, lookupAll_cons, hnew key]
    split <;> simp

variable (tombstone) in
/-- A new item in a full buffer. -/
theorem insertFull_spec (h : Inv d) {x : Item K V} {buffer : List (Item K V)}
    (hb : d.levels[0]? = some buffer) (hfull : ¬ buffer.length < bufferMaxSize)
    (hx : Runs.lookup Item.first buffer x.first = none) (hok : d.mergesIntoEmptyLevel = true) :
    ∃ d', d.insertNew tombstone buffer x (lowerBound Item.first buffer x.first) = some d' ∧
      Updated d x d' := by
  have hlen : buffer.length = bufferMaxSize := le_antisymm (h.buffer buffer hb) (by omega)
  have hused : minLevel < d.usedLevels := by
    by_contra hused
    have hnil := h.unused 0 buffer hb (by omega)
    rw [hnil, List.length_nil] at hlen
    exact absurd hlen (by decide)
  obtain ⟨t, ht, htu, hchoose, hfit⟩ := chooseLevel_spec h (d.usedLevels - (minLevel + 1)) 1
    (bufferMaxSize + 1) (le_refl 1) (by omega) (by decide)
  rw [Nat.add_comm 1 minLevel] at hchoose
  have htarget : d.mergeTarget =
      some (t + minLevel, bufferMaxSize + 1 + items ((d.levels.take t).drop 1)) := hchoose
  have hroom := h.room
  unfold insertNew
  rw [if_neg hfull, htarget, Option.bind_eq_bind, Option.bind_some]
  dsimp only
  by_cases hnew : t + minLevel = d.usedLevels
  · -- the target is a new level behind all others
    obtain ⟨hadd, hlook⟩ := addLevel_spec h
    have htake : (d.addLevel d.usedLevels).levels.take t = d.levels.take t :=
      List.take_append_of_le_length (by omega)
    have hat : ∀ p, p < d.levels.length →
        (d.addLevel d.usedLevels).levels[p]? = d.levels[p]? := fun p hp =>
      List.getElem?_append_left hp
    obtain ⟨l, hl⟩ : ∃ l, d.levels[t]? = some l := ⟨_, List.getElem?_eq_getElem (by omega)⟩
    have hempty : (d.addLevel d.usedLevels).levels[t]? = some [] := by
      rw [hat t (by omega), hl, h.unused t l hl (by omega)]
    obtain ⟨d', hd', hinv, hup⟩ := pairwiseMerge_spec tombstone hadd ht
      (show t + minLevel < d.usedLevels + 1 by omega) hempty (by rw [hat 0 (by omega), hb]) hlen hx
      (by rw [htake]; exact hfit)
    rw [if_pos hnew, hnew]
    rw [htake, hnew] at hd'
    exact ⟨d', hd', hinv, fun key => by rw [hup key, hlook key]⟩
  · have hempty : d.levels[t]? = some [] := by
      unfold mergesIntoEmptyLevel at hok
      rw [hb, htarget] at hok
      simp only [hfull, hnew, decide_false, Bool.false_or, level, Nat.add_sub_cancel] at hok
      cases hl : d.levels[t]? with
      | none =>
          rw [hl] at hok
          cases hok
      | some l =>
          rw [hl] at hok
          rw [List.isEmpty_iff.mp hok]
    rw [if_neg hnew]
    exact pairwiseMerge_spec tombstone h ht (by omega) hempty hb hlen hx hfit

/-- The item goes in: the buffer has it already, or no item of its key and the merge finds an
empty level. -/
def accepts (d : DynamicPGMIndex K V PGM) (x : Item K V) : Bool :=
  match d.levels[0]? with
  | some buffer =>
      match Runs.lookup Item.first buffer x.first with
      | some y => decide (y = x)
      | none => d.mergesIntoEmptyLevel
  | none => false

variable (tombstone) in
/-- `insert` of an accepted item. -/
theorem insertItem_spec (h : Inv d) {x : Item K V} (hok : d.accepts x = true) :
    ∃ b d', d.insertItem tombstone x = some (b, d') ∧ Updated d x d' := by
  unfold accepts at hok
  unfold insertItem
  cases hb : d.levels[0]? with
  | none =>
      rw [hb] at hok
      cases hok
  | some buffer =>
      have hrun := h.runs buffer (List.mem_of_getElem? hb)
      rw [hb] at hok
      rw [Option.bind_eq_bind, Option.bind_some]
      dsimp only at hok ⊢
      rcases lookup_at_lowerBound hrun x.first with ⟨y, hy, hk, hlook⟩ | ⟨hy, hlook⟩
      · -- the same item is in the buffer already
        rw [hlook] at hok
        obtain rfl : y = x := of_decide_eq_true hok
        rw [hy, Option.map_some, if_pos rfl]
        refine ⟨false, d, rfl, h, fun key => ?_⟩
        by_cases hkey : key = y.first
        · obtain ⟨ls, hls⟩ := cons_of_getElem? hb
          rw [if_pos hkey, hkey]
          unfold lookup
          rw [hls, lookupAll_cons, hlook, Option.some_or]
        · rw [if_neg hkey]
      · rw [hlook] at hok
        rw [if_neg (fun hf => (by
          obtain ⟨y, hget, hk⟩ := Option.map_eq_some_iff.mp hf
          exact hy y hget hk))]
        by_cases hroom : buffer.length < bufferMaxSize
        · obtain ⟨d', hd', hup⟩ := insertBuffer_spec tombstone h hb hroom hlook
          exact ⟨true, d', by rw [hd']; rfl, hup⟩
        · obtain ⟨d', hd', hup⟩ := insertFull_spec tombstone h hb hroom hlook hok
          exact ⟨true, d', by rw [hd']; rfl, hup⟩

end DynamicPGMIndex

end LearnedIndex.Pgm
