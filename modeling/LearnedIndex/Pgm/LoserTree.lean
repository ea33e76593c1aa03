import LearnedIndex.Lib.Tournament

/-! # The loser tree of the dynamic PGM index

`LoserTree` of `pgm_index_dynamic.hpp` finds among several sorted sequences the one with the least
current key, the sequence of lowest index among equals.

* A sequence that is finished has a supremum sentinel, and so has every leaf without a sequence.
* The number of leaves, the index of a sequence and the positions of the recursion are of the eight
  bits of `Source`, so that there is room for 128 sequences.
* `Holds` ties the slots to the current keys of the sequences: they are the losers of a tournament
  between them.
* Whatever keys come up, the tree names the sequence that a linear search would
  (`loserTree_selects`). -/

namespace LearnedIndex.Pgm

open LearnedIndex.Tournament

/-- `LoserTree::Loser`. -/
structure Loser (K : Type) where
  key : K
  sup : Bool
  source : ℕ

/-- `LoserTree`. -/
structure LoserTree (K : Type) where
  k : ℕ
  firstInsert : Bool
  losers : List (Loser K)

/-- `next_pow2`.  For `0` the source shifts by the width of the word, which the language leaves
undefined: `wide` is what the processor makes of `1 << 64`. -/
def nextPow2 (wide x : ℕ) : ℕ :=
  if x = 1 then 1 else if x = 0 then wide else 2 ^ Nat.size (x - 1)

/-- Conversion to `Source`, which is `uint8_t`. -/
def toSource (n : ℕ) : ℕ := n % 2 ^ 8

/-- `numeric_limits<Source>::max()`. -/
def maxSource : ℕ := 255

theorem toSource_eq {n : ℕ} (h : n < 2 ^ 8) : toSource n = n := Nat.mod_eq_of_lt h

variable {K : Type} [LinearOrder K] [Inhabited K]

namespace LoserTree

/-- `LoserTree(ik)`: the leaves from the last sequence on get a sentinel. -/
def new (wide ik : ℕ) : LoserTree K :=
  let k := toSource (nextPow2 wide ik)
  { k
    firstInsert := true
    losers := (List.range (2 * k)).map (fun pos =>
      if 1 ≤ ik ∧ k + (ik - 1) ≤ pos then ⟨default, true, maxSource⟩ else ⟨default, false, 0⟩) }

/-- `min_source`. -/
def minSource (t : LoserTree K) : Option ℕ := (t.losers[0]?).map Loser.source

/-- `insert_start`; no key is a supremum. -/
def insertStart (t : LoserTree K) (key : Option K) (source : ℕ) : Option (LoserTree K) := do
  let pos := toSource (t.k + source)
  let x ← t.losers[pos]?
  let losers := t.losers.set pos { x with sup := key.isNone, source }
  if t.firstInsert then
    some { t with firstInsert := false, losers := losers.map ({ · with key := key.getD default }) }
  else
    some { t with losers := losers.set pos ⟨key.getD default, key.isNone, source⟩ }

/-- The test of `init_winner`: the left side wins a match. -/
def better (l r : Loser K) : Bool := r.sup || (!l.sup && decide (l.key ≤ r.key))

/-- `init_winner`: the leaf that wins the matches below `root`; the losers are stored.  Where the
recursion goes on for more than `k` levels it does not end. -/
def initWinner (k : ℕ) : ℕ → ℕ → List (Loser K) → Option (ℕ × List (Loser K))
  | 0, _, _ => none
  | n + 1, root, losers =>
      if k ≤ root then some (root, losers)
      else do
        let (left, losers) ← initWinner k n (toSource (2 * root)) losers
        let (right, losers) ← initWinner k n (toSource (2 * root + 1)) losers
        let l ← losers[left]?
        let r ← losers[right]?
        if better l r then some (left, losers.set root r)
        else some (right, losers.set root l)

/-- `init`. -/
def init (t : LoserTree K) : Option (LoserTree K) := do
  let (winner, losers) ← initWinner t.k t.k 1 t.losers
  let x ← losers[winner]?
  some { t with losers := losers.set 0 x }

/-- The test of `delete_min_insert`: the loser `l` of a match wins against the new player. -/
def beats (l x : Loser K) : Bool :=
  (x.sup && (!l.sup || decide (l.source < x.source))) ||
    (!x.sup && !l.sup && (decide (l.key < x.key) ||
      (decide (l.key ≤ x.key) && decide (l.source < x.source))))

/-- The loop of `delete_min_insert` from `pos` upwards. -/
def replay : ℕ → ℕ → Loser K → List (Loser K) → Option (Loser K × List (Loser K))
  | 0, _, _, _ => none
  | n + 1, pos, x, losers =>
      if pos = 0 then some (x, losers)
      else do
        let l ← losers[pos]?
        if beats l x then replay n (pos / 2) l (losers.set pos x)
        else replay n (pos / 2) x losers

/-- `delete_min_insert`. -/
def deleteMinInsert (t : LoserTree K) (key : Option K) : Option (LoserTree K) := do
  let source ← t.minSource
  let pos := (t.k + source) / 2
  let (x, losers) ← replay (pos + 1) pos ⟨key.getD default, key.isNone, source⟩ t.losers
  some { t with losers := losers.set 0 x }

/-- The initial keys of the sequences from `source` on. -/
def insertAll : List K → ℕ → LoserTree K → Option (LoserTree K)
  | [], _, t => some t
  | key :: keys, source, t => do
      let t ← t.insertStart (some key) (toSource source)
      insertAll keys (source + 1) t

/-- A tree over sequences with these initial keys. -/
def start (wide : ℕ) (keys : List K) : Option (LoserTree K) := do
  let t ← insertAll keys 0 (new wide (toSource keys.length))
  t.init

end LoserTree

/-! ### The order of the players -/

section order
omit [Inhabited K]

/-- A sentinel comes last; among keys the least comes first, from the lowest source. -/
def Loser.le (a b : Loser K) : Prop :=
  b.sup = true ∨ (a.sup = false ∧ (a.key < b.key ∨ (a.key = b.key ∧ a.source ≤ b.source)))

theorem Loser.le_refl (a : Loser K) : a.le a := by
  unfold Loser.le
  cases a.sup <;> simp

theorem Loser.le_trans (a b c : Loser K) (h : a.le b) (h' : b.le c) : a.le c := by
  unfold Loser.le at *
  rcases h' with hc | ⟨hb, h'⟩
  · exact Or.inl hc
  · rcases h with hb' | ⟨ha, h⟩
    · rw [hb] at hb'
      cases hb'
    · refine Or.inr ⟨ha, ?_⟩
      rcases h with h | ⟨h, hs⟩ <;> rcases h' with h' | ⟨h', hs'⟩
      · exact Or.inl (h.trans h')
      · exact Or.inl (h' ▸ h)
      · exact Or.inl (h ▸ h')
      · exact Or.inr ⟨h.trans h', hs.trans hs'⟩

theorem Loser.le_of_beats {l x : Loser K} (h : LoserTree.beats l x = true) : l.le x := by
  unfold LoserTree.beats at h
  unfold Loser.le
  cases hx : x.sup with
  | true => exact Or.inl rfl
  | false =>
      refine Or.inr ?_
      simp only [hx, Bool.false_and, Bool.not_false, Bool.true_and, Bool.false_or, Bool.and_eq_true,
        Bool.not_eq_true', Bool.or_eq_true, decide_eq_true_eq] at h
      refine ⟨h.1, ?_⟩
      rcases h.2 with hlt | ⟨hle, hs⟩
      · exact Or.inl hlt
      · rcases hle.lt_or_eq with hlt | heq
        · exact Or.inl hlt
        · exact Or.inr ⟨heq, hs.le⟩

/-- A player that is not beaten is as good. -/
theorem Loser.le_of_not_beats {l x : Loser K} (h : LoserTree.beats l x = false) : x.le l := by
  unfold LoserTree.beats at h
  unfold Loser.le
  cases hl : l.sup with
  | true => exact Or.inl rfl
  | false =>
      refine Or.inr ?_
      cases hx : x.sup with
      | true => simp [hl, hx] at h
      | false =>
          refine ⟨rfl, ?_⟩
          simp only [hl, hx, Bool.false_and, Bool.not_false, Bool.true_and, Bool.false_or,
            Bool.or_eq_false_iff, Bool.and_eq_false_iff, decide_eq_false_iff_not] at h
          rcases lt_or_eq_of_le (not_lt.mp h.1) with hlt | heq
          · exact Or.inl hlt
          · exact Or.inr ⟨heq, not_lt.mp (h.2.resolve_left (fun hn => hn heq.ge))⟩

end order

/-! ### Slots -/

section slots
omit [LinearOrder K]

/-- The content of a slot. -/
def slot (losers : List (Loser K)) (pos : ℕ) : Loser K := losers.getD pos ⟨default, false, 0⟩

theorem getElem?_eq_slot (losers : List (Loser K)) (pos : ℕ) (h : pos < losers.length) :
    losers[pos]? = some (slot losers pos) := by
  unfold slot
  rw [List.getD_eq_getElem?_getD, List.getElem?_eq_getElem h, Option.getD_some]

theorem slot_of_getElem? {losers : List (Loser K)} {pos : ℕ} {x : Loser K}
    (h : losers[pos]? = some x) : slot losers pos = x := by
  unfold slot
  rw [List.getD_eq_getElem?_getD, h, Option.getD_some]

theorem slot_set {losers : List (Loser K)} {pos : ℕ} (h : pos < losers.length) (x : Loser K) :
    slot (losers.set pos x) = Function.update (slot losers) pos x := by
  funext q
  unfold slot
  rcases eq_or_ne q pos with rfl | hq
  · rw [Function.update_self, List.getD_eq_getElem?_getD, List.getElem?_set_self h,
      Option.getD_some]
  · rw [Function.update_of_ne hq, List.getD_eq_getElem?_getD, List.getElem?_set_ne (Ne.symm hq),
      List.getD_eq_getElem?_getD]

end slots

/-- The players that stand for the current keys of the sequences. -/
structure Entered (heads : List (Option K)) (k : ℕ) (player : ℕ → Loser K) : Prop where
  source : ∀ i, i < heads.length → (player (k + i)).source = i
  sup : ∀ i head, heads[i]? = some head → (player (k + i)).sup = head.isNone
  key : ∀ i key, heads[i]? = some (some key) → (player (k + i)).key = key
  pad : ∀ i, heads.length ≤ i → i < k → (player (k + i)).sup = true

/-- The tree holds the current keys of the sequences. -/
structure LoserTree.Holds (t : LoserTree K) (heads : List (Option K)) : Prop where
  pos : 1 ≤ t.k
  fits : heads.length ≤ t.k
  size : t.losers.length = 2 * t.k
  played : ∃ player winner, Entered heads t.k player ∧
    Played Loser.le t.k player winner (slot t.losers)

/-- The sequence with the least key, the first among equals. -/
def Least (heads : List (Option K)) (i : ℕ) : Prop :=
  ∃ key, heads[i]? = some (some key) ∧
    ∀ j key', heads[j]? = some (some key') → key < key' ∨ (key = key' ∧ i ≤ j)

variable {heads : List (Option K)} {k : ℕ} {player winner : ℕ → Loser K}

omit [LinearOrder K] [Inhabited K] in
/-- A player with a key is the current key of a sequence. -/
theorem Entered.head_of_key (h : Entered heads k player) {i : ℕ} (hi : i < k)
    (hsup : (player (k + i)).sup = false) : ∃ key, heads[i]? = some (some key) := by
  rcases Nat.lt_or_ge i heads.length with hlt | hge
  · have hget := List.getElem?_eq_getElem hlt
    cases hh : heads[i] with
    | none =>
        have := h.sup i _ hget
        rw [hh, hsup] at this
        cases this
    | some key => exact ⟨key, hh ▸ hget⟩
  · have := h.pad i hge hi
    rw [hsup] at this
    cases this

/-- The champion stands for the least current key. -/
theorem Entered.champion (h : Entered heads k player) {losers : List (Loser K)}
    (hp : Played Loser.le k player winner (slot losers)) (hk : 1 ≤ k) (hfits : heads.length ≤ k)
    {j : ℕ} {key : K} (hlive : heads[j]? = some (some key)) :
    Least heads (slot losers 0).source ∧ slot losers 0 = player (k + (slot losers 0).source) := by
  have hbest : ∀ j key, heads[j]? = some (some key) → j < k ∧ (slot losers 0).sup = false ∧
      ((slot losers 0).key < key ∨ ((slot losers 0).key = key ∧ (slot losers 0).source ≤ j)) := by
    intro j key hj
    have hlt : j < heads.length := (List.getElem?_eq_some_iff.mp hj).1
    have hle := hp.champion_le Loser.le_refl Loser.le_trans (q := k + j) (by omega) (by omega)
    unfold Loser.le at hle
    rw [h.sup j _ hj, h.key j key hj, h.source j hlt] at hle
    rcases hle with hle | ⟨hsup, hle⟩
    · cases hle
    · exact ⟨by omega, hsup, hle⟩
  obtain ⟨q, hq, hqk, hchampion⟩ := hp.champion_player hk
  obtain ⟨i, rfl⟩ := Nat.exists_eq_add_of_le hq
  have hsup := (hbest j key hlive).2.1
  rw [hchampion] at hsup
  obtain ⟨key', hi⟩ := h.head_of_key (by omega) hsup
  have hsource : (slot losers 0).source = i := by
    rw [hchampion]
    exact h.source i (List.getElem?_eq_some_iff.mp hi).1
  rw [hsource]
  refine ⟨⟨key', hi, fun j' key'' hj' => ?_⟩, hchampion⟩
  have := (hbest j' key'' hj').2.2
  rwa [hsource, hchampion, h.key i key' hi] at this

omit [LinearOrder K] [Inhabited K] in
/-- A player with a key is at one leaf only. -/
theorem Entered.unique (h : Entered heads k player) {i : ℕ} {key : K}
    (hi : heads[i]? = some (some key)) {q : ℕ} (hq : k ≤ q) (hk : q < 2 * k)
    (heq : player q = player (k + i)) : q = k + i := by
  obtain ⟨j, rfl⟩ := Nat.exists_eq_add_of_le hq
  have hsup : (player (k + j)).sup = false := by
    rw [heq, h.sup i _ hi]
    rfl
  obtain ⟨key', hj⟩ := h.head_of_key (by omega) hsup
  have h1 := h.source j (List.getElem?_eq_some_iff.mp hj).1
  have h2 := h.source i (List.getElem?_eq_some_iff.mp hi).1
  rw [heq, h2] at h1
  rw [h1]

omit [LinearOrder K] in
/-- The current key of one sequence changes. -/
theorem Entered.update (h : Entered heads k player) {i : ℕ} (hi : i < heads.length)
    (head : Option K) : Entered (heads.set i head) k
      (Function.update player (k + i) ⟨head.getD default, head.isNone, i⟩) := by
  have hcases : ∀ j (head' : Option K), (heads.set i head)[j]? = some head' →
      (j = i ∧ head' = head) ∨ (k + j ≠ k + i ∧ heads[j]? = some head') := by
    intro j head' hj
    rw [List.getElem?_set] at hj
    split at hj
    · rename_i hij
      exact Or.inl ⟨hij.symm, (Option.some.inj hj).symm⟩
    · exact Or.inr ⟨by omega, hj⟩
  refine ⟨fun j hj => ?_, fun j head' hj => ?_, fun j key hj => ?_, fun j hj hjk => ?_⟩
  · rw [List.length_set] at hj
    rcases eq_or_ne j i with rfl | hne
    · rw [Function.update_self]
    · rw [Function.update_of_ne (by omega)]
      exact h.source j hj
  · rcases hcases j head' hj with ⟨rfl, rfl⟩ | ⟨hne, hj⟩
    · rw [Function.update_self]
    · rw [Function.update_of_ne hne]
      exact h.sup j head' hj
  · rcases hcases j (some key) hj with ⟨rfl, rfl⟩ | ⟨hne, hj⟩
    · rw [Function.update_self]
      rfl
    · rw [Function.update_of_ne hne]
      exact h.key j key hj
  · rw [List.length_set] at hj
    rw [Function.update_of_ne (by omega)]
    exact h.pad j hj hjk

/-! ### The next sequence -/

namespace LoserTree

variable {t : LoserTree K}

theorem Holds.minSource (h : t.Holds heads) {j : ℕ} {key : K}
    (hlive : heads[j]? = some (some key)) : ∃ i, t.minSource = some i ∧ Least heads i := by
  obtain ⟨player, winner, he, hp⟩ := h.played
  have hpos := h.pos
  have hsize := h.size
  refine ⟨_, ?_, (he.champion hp h.pos h.fits hlive).1⟩
  unfold LoserTree.minSource
  rw [getElem?_eq_slot _ _ (by omega), Option.map_some]

/-- The matches above `c` are played again. -/
theorem replay_spec : ∀ (n c : ℕ) (x : Loser K) (losers : List (Loser K)) (winner : ℕ → Loser K),
    1 ≤ k → losers.length = 2 * k → 1 ≤ c → c < 2 * k → c / 2 < n → winner c = x →
    Climbing Loser.le k player winner (slot losers) c →
    ∃ y losers' winner', replay n (c / 2) x losers = some (y, losers') ∧
      losers'.length = 2 * k ∧ Played Loser.le k player winner' (slot (losers'.set 0 y))
  | 0, _, _, _, _, _, _, _, _, hn, _, _ => absurd hn (by omega)
  | n + 1, c, x, losers, winner, hk, hlen, hc, hck, hn, hx, h => by
      unfold replay
      rcases Nat.eq_or_lt_of_le hc with rfl | hc
      · refine ⟨x, losers, winner, rfl, hlen, ?_⟩
        rw [slot_set (by omega), ← hx]
        exact h.finish
      · rw [if_neg (by omega), getElem?_eq_slot _ _ (by omega), Option.bind_eq_bind,
          Option.bind_some]
        cases hb : beats (slot losers (c / 2)) x with
        | true =>
            have hstep := h.step hc hck (w := slot losers (c / 2)) (l := x)
              ⟨Loser.le_of_beats hb, Or.inr ⟨rfl, hx.symm⟩⟩
            rw [if_pos rfl]
            rw [← slot_set (by omega)] at hstep
            exact replay_spec n (c / 2) _ _ _ hk (by rw [List.length_set, hlen]) (by omega)
              (by omega) (by omega) (Function.update_self ..) hstep
        | false =>
            have hstep := h.step hc hck (w := x) (l := slot losers (c / 2))
              ⟨Loser.le_of_not_beats hb, Or.inl ⟨hx.symm, rfl⟩⟩
            rw [if_neg (by simp)]
            rw [Function.update_eq_self] at hstep
            exact replay_spec n (c / 2) _ _ _ hk hlen (by omega) (by omega) (by omega)
              (Function.update_self ..) hstep

/-- The sequence with the least key goes on. -/
theorem Holds.deleteMinInsert (h : t.Holds heads) {i : ℕ} (hi : t.minSource = some i)
    (hleast : Least heads i) (head : Option K) :
    ∃ t', t.deleteMinInsert head = some t' ∧ t'.Holds (heads.set i head) := by
  obtain ⟨player, winner, he, hp⟩ := h.played
  have hpos := h.pos
  have hsize := h.size
  have hfits := h.fits
  obtain ⟨key, hlive, _⟩ := hleast
  have hlt : i < heads.length := (List.getElem?_eq_some_iff.mp hlive).1
  have hsource : (slot t.losers 0).source = i := by
    unfold LoserTree.minSource at hi
    rw [getElem?_eq_slot _ _ (by omega), Option.map_some] at hi
    exact Option.some.inj hi
  have hchampion := (he.champion hp h.pos h.fits hlive).2
  rw [hsource] at hchampion
  have hclimb := hp.replace (f := t.k + i) (by omega) (by omega) hchampion
    (fun q h1 h2 heq => he.unique hlive h1 h2 heq) ⟨head.getD default, head.isNone, i⟩
  obtain ⟨y, losers', winner', hrun, hlen, hplayed⟩ := replay_spec ((t.k + i) / 2 + 1) (t.k + i) _
    t.losers _ hpos hsize (by omega) (by omega) (by omega) (Function.update_self ..) hclimb
  refine ⟨{ t with losers := losers'.set 0 y }, ?_, hpos, ?_, ?_, _, winner', he.update hlt head,
    hplayed⟩
  · unfold LoserTree.deleteMinInsert
    simp only [hi, hrun, Option.bind_eq_bind, Option.bind_some]
  · rw [List.length_set]
    exact hfits
  · rw [List.length_set]
    exact hlen

/-! ### The first round -/

omit [Inhabited K] in
theorem le_of_not_better {l r : Loser K} (h : better l r = false) : r.le l := by
  unfold better at h
  unfold Loser.le
  simp only [Bool.or_eq_false_iff, Bool.and_eq_false_iff, Bool.not_eq_false',
    decide_eq_false_iff_not, not_le] at h
  rcases h.2 with hl | hlt
  · exact Or.inl hl
  · exact Or.inr ⟨h.1, Or.inl hlt⟩

/-- A slot is below a node. -/
def Below (root p : ℕ) : Prop := ∃ n, p / 2 ^ n = root

theorem below_iff {root p : ℕ} :
    Below root p ↔ p = root ∨ Below (2 * root) p ∨ Below (2 * root + 1) p := by
  constructor
  · rintro ⟨n, hn⟩
    cases n with
    | zero => exact Or.inl (by rwa [pow_zero, Nat.div_one] at hn)
    | succ n =>
        rw [← div_pow_half] at hn
        rcases Nat.even_or_odd' (p / 2 ^ n) with ⟨c, hc | hc⟩
        · exact Or.inr (Or.inl ⟨n, by omega⟩)
        · exact Or.inr (Or.inr ⟨n, by omega⟩)
  · rintro (rfl | ⟨n, hn⟩ | ⟨n, hn⟩)
    · exact ⟨0, by rw [pow_zero, Nat.div_one]⟩
    · exact ⟨n + 1, by rw [← div_pow_half, hn]; omega⟩
    · exact ⟨n + 1, by rw [← div_pow_half, hn]; omega⟩

theorem Below.le {root p : ℕ} (h : Below root p) : root ≤ p := by
  obtain ⟨n, rfl⟩ := h
  exact Nat.div_le_self _ _

theorem Below.not_right {root p : ℕ} (h1 : 1 ≤ root) (h : Below (2 * root) p) :
    ¬ Below (2 * root + 1) p := by
  obtain ⟨n, hn⟩ := h
  rintro ⟨m, hm⟩
  refine not_below_opponent (f := p) (m := m) (by omega) hn ?_
  rw [hm]
  unfold opponent
  rw [if_pos (by omega)]

variable (player) in
/-- The losers below a node after `init_winner` there. -/
theorem initWinner_spec (hk : k ≤ 128) : ∀ (n root : ℕ) (losers : List (Loser K)),
    losers.length = 2 * k → 1 ≤ root → root < 2 * k → k - root < n →
    (∀ q, k ≤ q → q < 2 * k → slot losers q = player q) →
    ∃ losers', initWinner k n root losers = some (champion better k player root, losers') ∧
      losers'.length = 2 * k ∧
      (∀ p, 1 ≤ p → p < k → Below root p → slot losers' p = player (runnerUp better k player p)) ∧
      ∀ p, (p < k → ¬ Below root p) → slot losers' p = slot losers p
  | 0, _, _, _, _, _, hn, _ => absurd hn (by omega)
  | n + 1, root, losers, hlen, h1, h2, hn, hleaf => by
      unfold initWinner
      rcases Nat.lt_or_ge root k with hlt | hge
      · obtain ⟨left, hl, hlen1, hin1, hout1⟩ := initWinner_spec hk n (2 * root) losers hlen
          (by omega) (by omega) (by omega) hleaf
        have hleaf1 : ∀ q, k ≤ q → q < 2 * k → slot left q = player q := fun q hq hqk => by
          rw [hout1 q (fun h => absurd h (by omega)), hleaf q hq hqk]
        obtain ⟨right, hr, hlen2, hin2, hout2⟩ := initWinner_spec hk n (2 * root + 1) left hlen1
          (by omega) (by omega) (by omega) hleaf1
        have hleaf2 : ∀ q, k ≤ q → q < 2 * k → slot right q = player q := fun q hq hqk => by
          rw [hout2 q (fun h => absurd h (by omega)), hleaf1 q hq hqk]
        have hrl := champion_range k player better (p := 2 * root) (by omega) (by omega)
        have hrr := champion_range k player better (p := 2 * root + 1) (by omega) (by omega)
        -- the match at the root
        have hrun : initWinner k (n + 1) root losers =
            some (champion better k player root,
              right.set root (player (runnerUp better k player root))) := by
          unfold initWinner
          have hgl := getElem?_eq_slot right (champion better k player (2 * root)) (by omega)
          have hgr := getElem?_eq_slot right (champion better k player (2 * root + 1)) (by omega)
          rw [hleaf2 _ hrl.1 hrl.2] at hgl
          rw [hleaf2 _ hrr.1 hrr.2] at hgr
          have hleft : toSource (2 * root) = 2 * root := toSource_eq (by omega)
          have hright : toSource (2 * root + 1) = 2 * root + 1 := toSource_eq (by omega)
          simp only [if_neg (not_le.mpr hlt), hleft, hright, hl, hr, hgl, hgr, Option.bind_eq_bind,
            Option.bind_some]
          rw [champion_node h1 hlt]
          unfold runnerUp
          split <;> rfl
        unfold initWinner at hrun
        refine ⟨_, hrun, by rw [List.length_set, hlen2], fun p hp hpk hb => ?_, fun p hp => ?_⟩
        · rw [slot_set (by omega)]
          rcases below_iff.mp hb with rfl | hb | hb
          · rw [Function.update_self]
          · have := hb.le
            rw [Function.update_of_ne (by omega), hout2 p (fun _ => hb.not_right h1),
              hin1 p hp hpk hb]
          · have := hb.le
            rw [Function.update_of_ne (by omega), hin2 p hp hpk hb]
        · rw [slot_set (by omega), Function.update_of_ne, hout2 p (fun h hb => hp h
            (below_iff.mpr (Or.inr (Or.inr hb)))), hout1 p (fun h hb => hp h
            (below_iff.mpr (Or.inr (Or.inl hb))))]
          rintro rfl
          exact hp hlt (below_iff.mpr (Or.inl rfl))
      · rw [if_pos hge, champion_leaf hge]
        exact ⟨losers, rfl, hlen, fun p _ hpk hb => absurd hb.le (by omega), fun p _ => rfl⟩

/-- For a number of sequences that `Source` has room for. -/
theorem nextPow2_spec (wide : ℕ) {x : ℕ} (h0 : x ≠ 0) (h : x ≤ 128) :
    (∃ m, nextPow2 wide x = 2 ^ m) ∧ x ≤ nextPow2 wide x ∧ nextPow2 wide x ≤ 128 := by
  unfold nextPow2
  split
  · exact ⟨⟨0, rfl⟩, by omega, by omega⟩
  · have hlt := Nat.lt_size_self (x - 1)
    have hsize : Nat.size (x - 1) ≤ 7 := Nat.size_le.mpr (by omega)
    exact ⟨⟨_, rfl⟩, by omega, Nat.pow_le_pow_right (by omega) hsize⟩

/-- The tree while the initial keys are entered, the first `m` of them so far. -/
structure Started (keys : List K) (m : ℕ) (t : LoserTree K) : Prop where
  pow : ∃ n, t.k = 2 ^ n
  fits : keys.length ≤ t.k
  le : t.k ≤ 128
  size : t.losers.length = 2 * t.k
  first : t.firstInsert = true → m = 0
  entered : ∀ i key, i < m → keys[i]? = some key → slot t.losers (t.k + i) = ⟨key, false, i⟩
  pad : ∀ i, keys.length ≤ i → i < t.k → (slot t.losers (t.k + i)).sup = true

omit [LinearOrder K] in
theorem started_new (wide : ℕ) {keys : List K} (hne : keys ≠ []) (hlen : keys.length ≤ 128) :
    Started keys 0 (new wide (toSource keys.length)) := by
  have hpos := List.length_pos_iff.mpr hne
  obtain ⟨hpow, hfits, hle⟩ := nextPow2_spec wide (x := keys.length) (by omega) hlen
  have hk : (new wide (toSource keys.length) : LoserTree K).k = nextPow2 wide keys.length := by
    dsimp only [LoserTree.new]
    rw [toSource_eq (n := keys.length) (by omega), toSource_eq (by omega)]
  refine ⟨hk ▸ hpow, hk ▸ hfits, hk ▸ hle, ?_, fun _ => rfl, fun i key hi => absurd hi (by omega),
    fun i h1 h2 => ?_⟩
  · dsimp only [LoserTree.new]
    rw [List.length_map, List.length_range]
  · dsimp only [LoserTree.new] at h2 ⊢
    unfold slot
    rw [List.getD_eq_getElem?_getD, List.getElem?_map, List.getElem?_range (by omega),
      Option.map_some, Option.getD_some, toSource_eq (n := keys.length) (by omega),
      if_pos ⟨hpos, by omega⟩]

omit [LinearOrder K] in
/-- One more key is entered. -/
theorem Started.insertStart {keys : List K} {m : ℕ} (h : Started keys m t) {key : K}
    (hkey : keys[m]? = some key) :
    ∃ t', t.insertStart (some key) m = some t' ∧ Started keys (m + 1) t' := by
  have hm : m < keys.length := (List.getElem?_eq_some_iff.mp hkey).1
  have hk := h.fits
  have hle := h.le
  have hsize := h.size
  have hget := getElem?_eq_slot t.losers (t.k + m) (by omega)
  have hpos : toSource (t.k + m) = t.k + m := toSource_eq (by omega)
  unfold LoserTree.insertStart
  simp only [hpos, hget, Option.bind_eq_bind, Option.bind_some]
  cases hf : t.firstInsert with
  | true =>
      obtain rfl := h.first hf
      refine ⟨_, if_pos rfl, h.pow, hk, hle, by rw [List.length_map, List.length_set, hsize],
        fun hf => (by cases hf), fun i key' hi hi' => ?_, fun i h1 h2 => ?_⟩
      · obtain rfl : i = 0 := by omega
        obtain rfl := Option.some.inj (hkey.symm.trans hi')
        refine slot_of_getElem? ?_
        rw [List.getElem?_map, List.getElem?_set_self (by omega)]
        rfl
      · dsimp only at h2 ⊢
        have hp := h.pad i h1 h2
        have hat := getElem?_eq_slot t.losers (t.k + i) (by omega)
        rw [slot_of_getElem? (x := { slot t.losers (t.k + i) with key := key }) ?_]
        · exact hp
        · rw [List.getElem?_map, List.getElem?_set_ne (by omega), hat]
          rfl
  | false =>
      refine ⟨_, if_neg (by simp), h.pow, hk, hle, by rw [List.length_set, List.length_set, hsize],
        fun hf' => (by cases hf'), fun i key' hi hi' => ?_, fun i h1 h2 => ?_⟩
      · dsimp only
        rw [slot_set (by rw [List.length_set]; omega)]
        rcases Nat.eq_or_lt_of_le (Nat.le_of_lt_succ hi) with rfl | hi
        · obtain rfl := Option.some.inj (hkey.symm.trans hi')
          rw [Function.update_self]
          rfl
        · rw [Function.update_of_ne (by omega), slot_set (by omega),
            Function.update_of_ne (by omega), h.entered i key' hi hi']
      · dsimp only at h2 ⊢
        rw [slot_set (by rw [List.length_set]; omega), Function.update_of_ne (by omega),
          slot_set (by omega), Function.update_of_ne (by omega), h.pad i h1 h2]

omit [LinearOrder K] in
theorem Started.insertAll {keys : List K} : ∀ {m : ℕ} {t : LoserTree K}, Started keys m t →
    m ≤ keys.length →
    ∃ t', LoserTree.insertAll (keys.drop m) m t = some t' ∧ Started keys keys.length t' := by
  intro m t h hm
  induction hd : keys.length - m generalizing m t with
  | zero =>
      obtain rfl : m = keys.length := by omega
      exact ⟨t, by rw [List.drop_length]; rfl, h⟩
  | succ d ih =>
      have hlt : m < keys.length := by omega
      obtain ⟨t', ht', h'⟩ := h.insertStart (List.getElem?_eq_getElem hlt)
      obtain ⟨t'', ht'', h''⟩ := ih h' (by omega) (by omega)
      refine ⟨t'', ?_, h''⟩
      rw [List.drop_eq_getElem_cons hlt]
      unfold LoserTree.insertAll
      have hle := h.le
      have hfits := h.fits
      rw [toSource_eq (by omega), ht', Option.bind_eq_bind, Option.bind_some, ht'']

/-- A tree over no sequence: its leaves are as many as the processor makes of `1 << 64`. -/
theorem start_nil {wide : ℕ} (hpos : 0 < toSource wide) (hle : toSource wide ≤ 128) :
    ∃ t : LoserTree K, start wide [] = some t := by
  obtain ⟨t, hnew, hk⟩ : ∃ t : LoserTree K, new wide (toSource 0) = t ∧ t.k = toSource wide :=
    ⟨_, rfl, rfl⟩
  have hsize : t.losers.length = 2 * t.k := by
    rw [← hnew]
    dsimp only [LoserTree.new]
    rw [List.length_map, List.length_range]
  obtain ⟨losers', hrun, hsize', _, _⟩ := initWinner_spec (slot t.losers) (k := t.k) (by omega) t.k
    1 t.losers hsize (le_refl 1) (by omega) (by omega) (fun _ _ _ => rfl)
  have hrange := champion_range t.k (slot t.losers) better (p := 1) (le_refl 1) (by omega)
  obtain ⟨x, hx⟩ : ∃ x, losers'[champion better t.k (slot t.losers) 1]? = some x :=
    ⟨_, List.getElem?_eq_getElem (by omega)⟩
  refine ⟨{ t with losers := losers'.set 0 x }, ?_⟩
  unfold start LoserTree.insertAll LoserTree.init
  simp only [List.length_nil, hnew, hrun, hx, Option.bind_eq_bind, Option.bind_some]

/-- The tree over the initial keys holds them. -/
theorem start_spec (wide : ℕ) {keys : List K} (hne : keys ≠ []) (hle : keys.length ≤ 128) :
    ∃ t, start wide keys = some t ∧ t.Holds (keys.map some) := by
  obtain ⟨t, ht, h⟩ := (started_new wide hne hle).insertAll (Nat.zero_le _)
  rw [List.drop_zero] at ht
  have hlen := List.length_pos_iff.mpr hne
  have hfits := h.fits
  have hsize := h.size
  obtain ⟨m, hm⟩ := h.pow
  have hentered : Entered (keys.map some) t.k (slot t.losers) := by
    refine ⟨fun i hi => ?_, fun i head hi => ?_, fun i key hi => ?_, fun i h1 h2 => ?_⟩
    · rw [List.length_map] at hi
      rw [h.entered i _ hi (List.getElem?_eq_getElem hi)]
    · rw [List.getElem?_map, Option.map_eq_some_iff] at hi
      obtain ⟨key, hkey, rfl⟩ := hi
      rw [h.entered i key (List.getElem?_eq_some_iff.mp hkey).1 hkey]
      rfl
    · rw [List.getElem?_map, Option.map_eq_some_iff] at hi
      obtain ⟨key', hkey, heq⟩ := hi
      obtain rfl := Option.some.inj heq
      rw [h.entered i key' (List.getElem?_eq_some_iff.mp hkey).1 hkey]
    · rw [List.length_map] at h1
      exact h.pad i h1 h2
  obtain ⟨losers', hrun, hlen', hin, hout⟩ := initWinner_spec (slot t.losers) h.le t.k 1
    t.losers hsize (le_refl 1) (by omega) (by omega) (fun q _ _ => rfl)
  have htop := champion_range t.k (slot t.losers) better (p := 1) (le_refl 1) (by omega)
  have hget := getElem?_eq_slot losers' (champion better t.k (slot t.losers) 1) (by omega)
  rw [hout _ (fun hlt => absurd hlt (by omega))] at hget
  refine ⟨⟨t.k, t.firstInsert,
      losers'.set 0 (slot t.losers (champion better t.k (slot t.losers) 1))⟩,
    ?_, by dsimp only; omega, by rw [List.length_map]; exact hfits,
    by rw [List.length_set]; exact hlen', slot t.losers, _, hentered, played_first ?_
      (fun a b => le_of_not_better) (fun p h1 h2 => ?_) ?_⟩
  · unfold start LoserTree.init
    simp only [ht, hrun, hget, Option.bind_eq_bind, Option.bind_some]
  · -- on equal keys the left side has the lower source
    intro p h1 h2 hb
    change p < t.k at h2
    have hlt := champion_lt (slot t.losers) better hm h1 h2
    have hl := champion_range t.k (slot t.losers) better (p := 2 * p) (by omega) (by omega)
    have hr := champion_range t.k (slot t.losers) better (p := 2 * p + 1) (by omega) (by omega)
    obtain ⟨i, hi⟩ := Nat.exists_eq_add_of_le hl.1
    obtain ⟨j, hj⟩ := Nat.exists_eq_add_of_le hr.1
    rw [hi, hj] at hb ⊢
    rw [hi, hj] at hlt
    rw [hj] at hr
    unfold Loser.le
    unfold better at hb
    cases hrs : (slot t.losers (t.k + j)).sup with
    | true => exact Or.inl rfl
    | false =>
        simp only [hrs, Bool.false_or, Bool.and_eq_true, Bool.not_eq_true', decide_eq_true_eq] at hb
        refine Or.inr ⟨hb.1, (lt_or_eq_of_le hb.2).imp_right (fun heq => ⟨heq, ?_⟩)⟩
        obtain ⟨_, hl'⟩ := hentered.head_of_key (by omega) hb.1
        obtain ⟨_, hr'⟩ := hentered.head_of_key (by omega) hrs
        rw [hentered.source i (List.getElem?_eq_some_iff.mp hl').1,
          hentered.source j (List.getElem?_eq_some_iff.mp hr').1]
        omega
  · dsimp only at h2 ⊢
    rw [slot_set (by omega), Function.update_of_ne (by omega)]
    obtain ⟨n, hn⟩ := exists_div_pow h1
    exact hin p h1 h2 ⟨n, hn⟩
  · rw [slot_set (by omega), Function.update_self]

/-! ### Any run -/

/-- The sequences that the tree names while they go on with these keys one after the other. -/
def selectAll (t : LoserTree K) : List (Option K) → Option (List ℕ)
  | [] => some []
  | head :: news => do
      let source ← t.minSource
      let t ← t.deleteMinInsert head
      let sources ← selectAll t news
      some (source :: sources)

end LoserTree

/-- Each sequence is the first with the least key at its time. -/
def Selects : List (Option K) → List (Option K) → List ℕ → Prop
  | _, [], [] => True
  | heads, head :: news, i :: sources => Least heads i ∧ Selects (heads.set i head) news sources
  | _, _, _ => False

omit [LinearOrder K] [Inhabited K] in
/-- A sequence that goes on or ends. -/
theorem countP_set_isSome {i : ℕ} {key : K} (hi : heads[i]? = some (some key))
    (head : Option K) : heads.countP Option.isSome ≤
      (heads.set i head).countP Option.isSome + (if head.isNone then 1 else 0) := by
  obtain ⟨hlt, hget⟩ := List.getElem?_eq_some_iff.mp hi
  have h := List.countP_set (p := Option.isSome) (l := heads) (a := head) hlt
  rw [hget, Option.isSome_some, if_pos rfl] at h
  cases head <;> simp_all <;> omega

theorem LoserTree.Holds.selectAll : ∀ (news : List (Option K)) {heads : List (Option K)}
    {t : LoserTree K}, t.Holds heads →
    (news ≠ [] → news.dropLast.countP Option.isNone < heads.countP Option.isSome) →
    ∃ sources, t.selectAll news = some sources ∧ Selects heads news sources
  | [], _, _, _, _ => ⟨[], rfl, trivial⟩
  | head :: news, heads, t, h, hlive => by
      have hlive := hlive (List.cons_ne_nil _ _)
      obtain ⟨_, hmem, hsome⟩ := List.countP_pos_iff.mp (by omega : 0 < heads.countP Option.isSome)
      obtain ⟨key, rfl⟩ := Option.isSome_iff_exists.mp hsome
      obtain ⟨j, hj⟩ := List.mem_iff_getElem?.mp hmem
      obtain ⟨i, hi, hleast⟩ := h.minSource hj
      obtain ⟨t', ht', h'⟩ := h.deleteMinInsert hi hleast head
      obtain ⟨sources, hrun, hsel⟩ := selectAll news h' (fun hne => by
        obtain ⟨_, hget, _⟩ := hleast
        have hcount := countP_set_isSome hget head
        rw [List.dropLast_cons_of_ne_nil hne, List.countP_cons] at hlive
        omega)
      refine ⟨i :: sources, ?_, hleast, hsel⟩
      unfold LoserTree.selectAll
      simp only [hi, ht', hrun, Option.bind_eq_bind, Option.bind_some]

/-- **The tree names the sequence with the least key, the first among equals**, whatever keys come
up, as long as a sequence is left. -/
theorem loserTree_selects (wide : ℕ) (keys : List K) (hne : keys ≠ []) (hlen : keys.length ≤ 128)
    (news : List (Option K)) (hlive : news.dropLast.countP Option.isNone < keys.length) :
    ∃ t sources, LoserTree.start wide keys = some t ∧ t.selectAll news = some sources ∧
      Selects (keys.map some) news sources := by
  obtain ⟨t, ht, h⟩ := LoserTree.start_spec wide hne hlen
  obtain ⟨sources, hrun, hsel⟩ := h.selectAll news (fun _ => by
    have hcount : (keys.map some).countP Option.isSome = keys.length := by
      rw [List.countP_map]
      exact List.countP_eq_length.mpr (fun _ _ => rfl)
    omega)
  exact ⟨t, sources, ht, hrun, hsel⟩

/-- Three sequences; the first two start with the same key and the second one ends. -/
theorem loserTree_selects_threeSequences : ∃ (t : LoserTree ℕ) (sources : List ℕ),
    LoserTree.start 1 [4, 4, 7] = some t ∧
      t.selectAll [some 9, none, some 8, none] = some sources ∧
      Selects [some 4, some 4, some 7] [some 9, none, some 8, none] sources :=
  loserTree_selects 1 [4, 4, 7] (by decide) (by decide) [some 9, none, some 8, none] (by decide)

example : (LoserTree.start 1 [4, 4, 7]).bind (fun t => t.selectAll [some 9, none, some 8, none]) =
    some [0, 1, 2, 2] := by decide +kernel

end LearnedIndex.Pgm
