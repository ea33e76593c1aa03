import Mathlib

/-! # Tournaments of losers

The players of a tournament stand at the leaves `k, …, 2 * k - 1` of an implicit binary tree, and
the node `p` below `k` is the match between the winners of `2 * p` and `2 * p + 1`.  A tree of
losers keeps for every match only its loser, and the champion in slot `0`.

* `Played` ties the slots of such a tree to its players.  The champion is one of the players and is
  at least as good as each of them.
* `Climbing` is the state while a player is replaced and its matches are played again from its leaf
  upwards: on the way to the top the slots hold the opponents. -/

namespace LearnedIndex.Tournament

variable {α : Type} {le : α → α → Prop} {k : ℕ} {player winner loser : ℕ → α}

/-- A match of `a` and `b` that `w` wins and `l` loses. -/
structure Match (le : α → α → Prop) (a b w l : α) : Prop where
  le : le w l
  sides : (w = a ∧ l = b) ∨ (w = b ∧ l = a)

/-- The node that plays against `q`. -/
def opponent (q : ℕ) : ℕ := if q % 2 = 0 then q + 1 else q - 1

/-- The slots of the losers of a tournament between the players. -/
structure Played (le : α → α → Prop) (k : ℕ) (player winner loser : ℕ → α) : Prop where
  leaf : ∀ q, k ≤ q → q < 2 * k → winner q = player q
  node : ∀ p, 1 ≤ p → p < k → Match le (winner (2 * p)) (winner (2 * p + 1)) (winner p) (loser p)
  top : loser 0 = winner 1

/-- The slots while the matches above the node `c` are played again. -/
structure Climbing (le : α → α → Prop) (k : ℕ) (player winner loser : ℕ → α) (c : ℕ) : Prop where
  leaf : ∀ q, k ≤ q → q < 2 * k → winner q = player q
  node : ∀ p, 1 ≤ p → p < k → (∀ n, 1 ≤ n → c / 2 ^ n ≠ p) →
    Match le (winner (2 * p)) (winner (2 * p + 1)) (winner p) (loser p)
  path : ∀ n, 2 ≤ c / 2 ^ n → loser (c / 2 ^ n / 2) = winner (opponent (c / 2 ^ n))

/-! ### Nodes -/

theorem Match.symm {a b w l : α} (h : Match le a b w l) : Match le b a w l :=
  ⟨h.le, h.sides.symm⟩

/-- A node and its opponent are the two sides of the match above. -/
theorem sides_of_opponent {q : ℕ} (h : 2 ≤ q) :
    (q = 2 * (q / 2) ∧ opponent q = 2 * (q / 2) + 1) ∨
      (q = 2 * (q / 2) + 1 ∧ opponent q = 2 * (q / 2)) := by
  unfold opponent
  split <;> omega

/-- The match above a node is the one with its opponent. -/
theorem match_above {q : ℕ} (h : 2 ≤ q) {w l : α} :
    Match le (winner (2 * (q / 2))) (winner (2 * (q / 2) + 1)) w l ↔
      Match le (winner q) (winner (opponent q)) w l := by
  rcases sides_of_opponent h with ⟨h1, h2⟩ | ⟨h1, h2⟩
  · rw [h2, congrArg winner h1.symm]
  · rw [h2, congrArg winner h1.symm]
    exact ⟨Match.symm, Match.symm⟩

theorem half_div_pow (c n : ℕ) : c / 2 / 2 ^ n = c / 2 ^ (n + 1) := by
  rw [Nat.div_div_eq_div_mul, pow_succ']

theorem div_pow_half (c n : ℕ) : c / 2 ^ n / 2 = c / 2 ^ (n + 1) := by
  rw [Nat.div_div_eq_div_mul, pow_succ]

/-- Every leaf is below the top. -/
theorem exists_div_pow {q : ℕ} (h : 1 ≤ q) : ∃ n, q / 2 ^ n = 1 := by
  induction q using Nat.strong_induction_on with
  | _ q ih =>
      rcases Nat.lt_or_ge q 2 with hq | hq
      · exact ⟨0, by omega⟩
      · obtain ⟨n, hn⟩ := ih (q / 2) (by omega) (by omega)
        exact ⟨n + 1, by rw [← half_div_pow, hn]⟩

/-- No leaf is below a node and below its opponent. -/
theorem not_below_opponent {f q n m : ℕ} (hq : 2 ≤ q) (hn : f / 2 ^ n = q) :
    f / 2 ^ m ≠ opponent q := by
  intro hm
  have hne : opponent q ≠ q := by
    unfold opponent
    split <;> omega
  rcases Nat.lt_trichotomy n m with hlt | rfl | hlt
  · obtain ⟨i, rfl⟩ := Nat.exists_eq_add_of_lt hlt
    have hle : f / 2 ^ (n + i + 1) ≤ q / 2 := by
      rw [← hn, Nat.div_div_eq_div_mul, ← pow_succ]
      exact Nat.div_le_div_left (Nat.pow_le_pow_right (by omega) (by omega)) (by positivity)
    rw [hm] at hle
    unfold opponent at hle
    split at hle <;> omega
  · exact hne (hm.symm.trans hn)
  · obtain ⟨i, rfl⟩ := Nat.exists_eq_add_of_lt hlt
    have hle : f / 2 ^ (m + i + 1) ≤ opponent q / 2 := by
      rw [← hm, Nat.div_div_eq_div_mul, ← pow_succ]
      exact Nat.div_le_div_left (Nat.pow_le_pow_right (by omega) (by omega)) (by positivity)
    rw [hn] at hle
    unfold opponent at hle
    split at hle <;> omega

/-! ### The champion -/

/-- The winner of a node is a player below it. -/
theorem Played.exists_player (h : Played le k player winner loser) {p : ℕ} (hp : 1 ≤ p)
    (hk : p < 2 * k) :
    ∃ q n, k ≤ q ∧ q < 2 * k ∧ q / 2 ^ n = p ∧ winner p = player q := by
  -- downwards on the node
  induction hd : 2 * k - p using Nat.strong_induction_on generalizing p with
  | _ d ih =>
      rcases Nat.lt_or_ge p k with hlt | hge
      · have below : ∀ c, c / 2 = p → c < 2 * k → winner p = winner c →
            ∃ q n, k ≤ q ∧ q < 2 * k ∧ q / 2 ^ n = p ∧ winner p = player q := by
          intro c hc hck hw
          obtain ⟨q, n, h1, h2, h3, h4⟩ := ih (2 * k - c) (by omega) (p := c) (by omega) hck rfl
          exact ⟨q, n + 1, h1, h2, by rw [← div_pow_half, h3, hc], hw.trans h4⟩
        rcases (h.node p hp hlt).sides with ⟨hw, _⟩ | ⟨hw, _⟩
        · exact below (2 * p) (by omega) (by omega) hw
        · exact below (2 * p + 1) (by omega) (by omega) hw
      · exact ⟨p, 0, hge, hk, Nat.div_one p, h.leaf p hge hk⟩

/-- The winner of a node is as good as every player below it. -/
theorem Played.winner_le (h : Played le k player winner loser) (hrefl : ∀ a, le a a)
    (htrans : ∀ a b c, le a b → le b c → le a c) {q : ℕ} (hq : k ≤ q) (hk : q < 2 * k) :
    ∀ n, 1 ≤ q / 2 ^ n → le (winner (q / 2 ^ n)) (player q)
  | 0, _ => by
      rw [pow_zero, Nat.div_one, h.leaf q hq hk]
      exact hrefl _
  | n + 1, hn => by
      rw [← div_pow_half] at hn ⊢
      have ih := h.winner_le hrefl htrans hq hk n (by omega)
      have hlt : q / 2 ^ n / 2 < k := by
        have := Nat.div_le_self q (2 ^ n)
        omega
      refine htrans _ _ _ ?_ ih
      have hm := h.node _ hn hlt
      have hchild : winner (q / 2 ^ n) = winner (2 * (q / 2 ^ n / 2)) ∨
          winner (q / 2 ^ n) = winner (2 * (q / 2 ^ n / 2) + 1) := by
        rcases sides_of_opponent (q := q / 2 ^ n) (by omega) with ⟨hc, _⟩ | ⟨hc, _⟩
        · exact Or.inl (congrArg winner hc)
        · exact Or.inr (congrArg winner hc)
      rcases hm.sides with ⟨h1, h2⟩ | ⟨h1, h2⟩ <;> rcases hchild with hc | hc <;> rw [hc]
      · exact h1 ▸ hrefl _
      · exact h2 ▸ hm.le
      · exact h2 ▸ hm.le
      · exact h1 ▸ hrefl _

theorem Played.champion_le (h : Played le k player winner loser) (hrefl : ∀ a, le a a)
    (htrans : ∀ a b c, le a b → le b c → le a c) {q : ℕ} (hq : k ≤ q) (hk : q < 2 * k) :
    le (loser 0) (player q) := by
  obtain ⟨n, hn⟩ := exists_div_pow (q := q) (by omega)
  have := h.winner_le hrefl htrans hq hk n hn.ge
  rwa [hn, ← h.top] at this

theorem Played.champion_player (h : Played le k player winner loser) (hk : 1 ≤ k) :
    ∃ q, k ≤ q ∧ q < 2 * k ∧ loser 0 = player q := by
  obtain ⟨q, _, h1, h2, _, h4⟩ := h.exists_player (p := 1) (le_refl 1) (by omega)
  exact ⟨q, h1, h2, h.top.trans h4⟩

/-! ### Playing again -/

/-- A champion that no other player equals met every opponent on its way to the top. -/
theorem Played.path (h : Played le k player winner loser) {f : ℕ} (hf : k ≤ f) (hk : f < 2 * k)
    (hchampion : loser 0 = player f)
    (hunique : ∀ q, k ≤ q → q < 2 * k → player q = player f → q = f) :
    ∀ n, 2 ≤ f / 2 ^ n → winner (f / 2 ^ n) = player f ∧
      loser (f / 2 ^ n / 2) = winner (opponent (f / 2 ^ n)) := by
  have hbelow : ∀ n, f / 2 ^ n < 2 * k := fun n => (Nat.div_le_self f (2 ^ n)).trans_lt hk
  -- one match on the way, from the winner above it
  have step : ∀ n, 2 ≤ f / 2 ^ n → winner (f / 2 ^ n / 2) = player f →
      winner (f / 2 ^ n) = player f ∧ loser (f / 2 ^ n / 2) = winner (opponent (f / 2 ^ n)) := by
    intro n hn hw
    have hb := hbelow n
    have hm : Match le (winner (f / 2 ^ n)) (winner (opponent (f / 2 ^ n)))
        (winner (f / 2 ^ n / 2)) (loser (f / 2 ^ n / 2)) :=
      (match_above hn).mp (h.node (f / 2 ^ n / 2) (by omega) (by omega))
    rcases hm.sides with ⟨h1, h2⟩ | ⟨h1, _⟩
    · exact ⟨h1.symm.trans hw, h2⟩
    · -- the opponent's winner would be another leaf with the same player
      obtain ⟨q, m, h3, h4, h5, h6⟩ := h.exists_player (p := opponent (f / 2 ^ n))
        (by unfold opponent; split <;> omega) (by unfold opponent; split <;> omega)
      have hq := hunique q h3 h4 (h6.symm.trans (h1.symm.trans hw))
      exact absurd (hq ▸ h5) (not_below_opponent hn rfl)
  obtain ⟨top, htop⟩ := exists_div_pow (q := f) (by omega)
  -- downwards from the top
  have down : ∀ i n, n + i = top → winner (f / 2 ^ n) = player f := by
    intro i
    induction i with
    | zero =>
        intro n hn
        rw [Nat.add_zero] at hn
        rw [hn, htop, ← h.top, hchampion]
    | succ i ih =>
        intro n hn
        have hup := ih (n + 1) (by omega)
        have h2 : 2 ≤ f / 2 ^ n := by
          have : f / 2 ^ n / 2 = f / 2 ^ (n + 1) := div_pow_half f n
          have hge : 1 ≤ f / 2 ^ (n + 1) := by
            rw [← htop]
            exact Nat.div_le_div_left (Nat.pow_le_pow_right (by omega) (by omega)) (by positivity)
          omega
        rw [← div_pow_half] at hup
        exact (step n h2 hup).1
  intro n hn
  have hlt : n < top := by
    by_contra hge
    have : f / 2 ^ n ≤ f / 2 ^ top :=
      Nat.div_le_div_left (Nat.pow_le_pow_right (by omega) (by omega)) (by positivity)
    omega
  refine step n hn ?_
  rw [div_pow_half]
  exact down (top - (n + 1)) (n + 1) (by omega)

/-- The champion's leaf gets a new player. -/
theorem Played.replace (h : Played le k player winner loser) {f : ℕ} (hf : k ≤ f)
    (hk : f < 2 * k) (hchampion : loser 0 = player f)
    (hunique : ∀ q, k ≤ q → q < 2 * k → player q = player f → q = f) (x : α) :
    Climbing le k (Function.update player f x) (Function.update winner f x) loser f := by
  refine ⟨fun q h1 h2 => ?_, fun p h1 h2 hp => ?_, fun n hn => ?_⟩
  · rcases eq_or_ne q f with rfl | hq
    · rw [Function.update_self, Function.update_self]
    · rw [Function.update_of_ne hq, Function.update_of_ne hq, h.leaf q h1 h2]
  · have hne : f / 2 ^ 1 ≠ p := hp 1 (le_refl 1)
    rw [pow_one] at hne
    rw [Function.update_of_ne (by omega), Function.update_of_ne (by omega),
      Function.update_of_ne (by omega)]
    exact h.node p h1 h2
  · rw [Function.update_of_ne (fun h' => not_below_opponent (f := f) (m := 0) hn rfl (by
      rw [pow_zero, Nat.div_one, h']))]
    exact (h.path hf hk hchampion hunique n hn).2

/-- One match is played again. -/
theorem Climbing.step {c : ℕ} (h : Climbing le k player winner loser c) (hc : 2 ≤ c)
    (hk : c < 2 * k) {w l : α} (hm : Match le (winner c) (loser (c / 2)) w l) :
    Climbing le k player (Function.update winner (c / 2) w) (Function.update loser (c / 2) l)
      (c / 2) := by
  have hopp : loser (c / 2) = winner (opponent c) := by
    have := h.path 0 (by rwa [pow_zero, Nat.div_one])
    rwa [pow_zero, Nat.div_one] at this
  rw [hopp] at hm
  refine ⟨fun q h1 h2 => ?_, fun p h1 h2 hp => ?_, fun n hn => ?_⟩
  · rw [Function.update_of_ne (by omega)]
    exact h.leaf q h1 h2
  · rcases eq_or_ne p (c / 2) with rfl | hne
    · rw [Function.update_self, Function.update_self, Function.update_of_ne (by omega),
        Function.update_of_ne (by omega)]
      exact (match_above hc).mpr hm
    · have hup : c / 2 / 2 ≠ p := by
        have := hp 1 (le_refl 1)
        rwa [pow_one] at this
      rw [Function.update_of_ne (by omega), Function.update_of_ne (by omega),
        Function.update_of_ne hne, Function.update_of_ne hne]
      refine h.node p h1 h2 (fun n hn => ?_)
      rcases Nat.eq_or_lt_of_le hn with rfl | hn
      · rw [pow_one]
        exact Ne.symm hne
      · obtain ⟨i, rfl⟩ := Nat.exists_eq_add_of_lt hn
        rw [show 1 + i + 1 = (i + 1) + 1 by omega, ← half_div_pow]
        exact hp (i + 1) (by omega)
  · have hpath := h.path (n + 1) (by rwa [← half_div_pow])
    rw [← half_div_pow] at hpath
    have hle : c / 2 / 2 ^ n ≤ c / 2 := Nat.div_le_self _ _
    rw [Function.update_of_ne (by omega), hpath, Function.update_of_ne]
    intro h'
    exact not_below_opponent (f := c / 2) (m := 0) hn rfl (by rw [pow_zero, Nat.div_one, h'])

/-- The new champion is known. -/
theorem Climbing.finish (h : Climbing le k player winner loser 1) :
    Played le k player winner (Function.update loser 0 (winner 1)) := by
  refine ⟨h.leaf, fun p h1 h2 => ?_, Function.update_self ..⟩
  rw [Function.update_of_ne (by omega)]
  refine h.node p h1 h2 (fun n hn => ?_)
  have : 1 / 2 ^ n = 0 := Nat.div_eq_of_lt (Nat.one_lt_two_pow (by omega))
  omega

/-! ### The first round -/

/-- The leaf that wins node `p` when `better` decides every match. -/
def champion (better : α → α → Bool) (k : ℕ) (player : ℕ → α) (p : ℕ) : ℕ :=
  if p = 0 ∨ k ≤ p then p
  else if better (player (champion better k player (2 * p)))
      (player (champion better k player (2 * p + 1)))
    then champion better k player (2 * p)
    else champion better k player (2 * p + 1)
termination_by k - p

/-- The leaf that loses the match at `p`. -/
def runnerUp (better : α → α → Bool) (k : ℕ) (player : ℕ → α) (p : ℕ) : ℕ :=
  if better (player (champion better k player (2 * p)))
      (player (champion better k player (2 * p + 1)))
    then champion better k player (2 * p + 1)
    else champion better k player (2 * p)

variable {better : α → α → Bool}

theorem champion_leaf {p : ℕ} (h : k ≤ p) : champion better k player p = p := by
  unfold champion
  exact if_pos (Or.inr h)

theorem champion_node {p : ℕ} (h1 : 1 ≤ p) (h2 : p < k) : champion better k player p =
    if better (player (champion better k player (2 * p)))
        (player (champion better k player (2 * p + 1)))
      then champion better k player (2 * p)
      else champion better k player (2 * p + 1) := by
  conv_lhs => unfold champion
  exact if_neg (by omega)

variable (better k player) in
theorem champion_range {p : ℕ} (hp : 1 ≤ p) (hk : p < 2 * k) :
    k ≤ champion better k player p ∧ champion better k player p < 2 * k := by
  induction hd : 2 * k - p using Nat.strong_induction_on generalizing p with
  | _ d ih =>
      rcases Nat.lt_or_ge p k with hlt | hge
      · rw [champion_node hp hlt]
        split
        · exact ih (2 * k - 2 * p) (by omega) (by omega) (by omega) rfl
        · exact ih (2 * k - (2 * p + 1)) (by omega) (by omega) (by omega) rfl
      · rw [champion_leaf hge]
        exact ⟨hge, hk⟩

variable (better k player) in
/-- The winner of a node is a leaf below it. -/
theorem champion_below {p : ℕ} (hp : 1 ≤ p) : ∃ n, champion better k player p / 2 ^ n = p := by
  induction hd : k - p using Nat.strong_induction_on generalizing p with
  | _ d ih =>
      rcases Nat.lt_or_ge p k with hlt | hge
      · have child : ∀ c, c / 2 = p → ∃ n, champion better k player c / 2 ^ n = p := by
          intro c hc
          obtain ⟨n, hn⟩ := ih (k - c) (by omega) (p := c) (by omega) rfl
          exact ⟨n + 1, by rw [← div_pow_half, hn, hc]⟩
        rw [champion_node hp hlt]
        split
        · exact child (2 * p) (by omega)
        · exact child (2 * p + 1) (by omega)
      · exact ⟨0, by rw [champion_leaf hge, pow_zero, Nat.div_one]⟩

variable (better player) in
/-- In a full tree the leaves of the left side come first. -/
theorem champion_lt {m p : ℕ} (hk : k = 2 ^ m) (h1 : 1 ≤ p) (h2 : p < k) :
    champion better k player (2 * p) < champion better k player (2 * p + 1) := by
  obtain ⟨i, hi⟩ := champion_below k player better (p := 2 * p) (by omega)
  obtain ⟨j, hj⟩ := champion_below k player better (p := 2 * p + 1) (by omega)
  have hl := champion_range k player better (p := 2 * p) (by omega) (by omega)
  have hr := champion_range k player better (p := 2 * p + 1) (by omega) (by omega)
  -- both leaves are equally far from the root
  have depth : ∀ f n q, k ≤ f → f < 2 * k → f / 2 ^ n = q → 1 ≤ q → Nat.log 2 q + n = m := by
    intro f n q hf hfk hq hq1
    have hlog : Nat.log 2 f = m := by
      refine Nat.log_eq_of_pow_le_of_lt_pow (hk ▸ hf) ?_
      rw [pow_succ]
      omega
    have hle : 2 ^ n ≤ f := by
      by_contra hlt
      rw [Nat.div_eq_of_lt (by omega)] at hq
      omega
    have hn : n ≤ Nat.log 2 f := (Nat.le_log_iff_pow_le (by omega) (by omega)).mpr hle
    rw [← hq, Nat.log_div_base_pow]
    omega
  have hlog : Nat.log 2 (2 * p) = Nat.log 2 (2 * p + 1) := by
    rw [Nat.log_of_one_lt_of_le (by omega) (by omega : 2 ≤ 2 * p),
      Nat.log_of_one_lt_of_le (by omega) (by omega : 2 ≤ 2 * p + 1)]
    congr 2
    omega
  have hd1 := depth _ i _ hl.1 hl.2 hi (by omega)
  have hd2 := depth _ j _ hr.1 hr.2 hj (by omega)
  obtain rfl : i = j := by omega
  by_contra hge
  have hdiv := Nat.div_le_div_right (c := 2 ^ i) (not_lt.mp hge)
  omega

/-- The losers of the first round. -/
theorem played_first
    (hle : ∀ p, 1 ≤ p → p < k → better (player (champion better k player (2 * p)))
      (player (champion better k player (2 * p + 1))) = true →
      le (player (champion better k player (2 * p)))
      (player (champion better k player (2 * p + 1))))
    (hge : ∀ a b, better a b = false → le b a)
    (hloser : ∀ p, 1 ≤ p → p < k → loser p = player (runnerUp better k player p))
    (htop : loser 0 = player (champion better k player 1)) :
    Played le k player (fun p => player (champion better k player p)) loser := by
  refine ⟨fun q h1 _ => by rw [champion_leaf h1], fun p h1 h2 => ?_, htop⟩
  rw [hloser p h1 h2, champion_node h1 h2]
  unfold runnerUp
  split
  · rename_i h
    exact ⟨hle p h1 h2 h, Or.inl ⟨rfl, rfl⟩⟩
  · rename_i h
    exact ⟨hge _ _ (Bool.not_eq_true _ ▸ h), Or.inr ⟨rfl, rfl⟩⟩

end LearnedIndex.Tournament
