import LearnedIndex.Lib.Runs

/-! # Several runs read from their fronts

Runs in a row, the newest first, are read by taking the element with the least key among their
heads, from the first run among equals.  That element is the one `lookupAll` gives for its key, no
smaller key is left, and behind it only its own key can have changed.  `mergeAll` is the one run
with the same lookups. -/

namespace LearnedIndex.Runs

variable {α K : Type} [LinearOrder K] (key : α → K)

/-- The first position whose key is greater than `k`. -/
def upperBound (l : List α) (k : K) : ℕ := l.findIdx (fun x => decide (k < key x))

/-- One run for all of them. -/
def mergeAll (ls : List (List α)) : List α := ls.foldr (merge key (fun _ => false)) []

/-- The head of run `i` has the least key, and the runs before it have greater ones. -/
def LeastHead (ls : List (List α)) (i : ℕ) (x : α) (rest : List α) : Prop :=
  ls[i]? = some (x :: rest) ∧
    ∀ j y l, ls[j]? = some (y :: l) → key x < key y ∨ (key x = key y ∧ i ≤ j)

variable {key}

/-! ### Upper bounds -/

theorem upperBound_eq_lowerBound (l : List α) (k : K) :
    upperBound key l k = lowerBound (fun x => decide (k < key x)) l true := by
  unfold upperBound lowerBound
  congr 1
  funext x
  rw [decide_eq_decide, Bool.le_iff_imp]
  simp

theorem upperBound_le (l : List α) (k : K) : upperBound key l k ≤ l.length :=
  List.findIdx_le_length

/-- The upper bound splits a run. -/
theorem Run.upperBound_split {l : List α} (h : Run key l) (k : K) :
    (∀ x ∈ l.take (upperBound key l k), key x ≤ k) ∧
      ∀ x ∈ l.drop (upperBound key l k), k < key x := by
  induction l with
  | nil => exact ⟨by simp, by simp⟩
  | cons y l ih =>
      unfold upperBound at ih ⊢
      rw [List.findIdx_cons]
      by_cases hy : k < key y
      · rw [decide_eq_true hy]
        refine ⟨by simp, fun x hx => ?_⟩
        rcases List.mem_cons.mp hx with rfl | hx
        · exact hy
        · exact hy.trans (h.head_lt x hx)
      · rw [decide_eq_false hy]
        obtain ⟨h1, h2⟩ := ih h.tail
        refine ⟨fun x hx => ?_, fun x hx => h2 x hx⟩
        rcases List.mem_cons.mp hx with rfl | hx
        · exact not_lt.mp hy
        · exact h1 x hx

/-- The upper bound is the lower bound, or behind it when the key is there. -/
theorem Run.upperBound_near {l : List α} (h : Run key l) (k : K) :
    lowerBound key l k ≤ upperBound key l k ∧ (upperBound key l k = lowerBound key l k ∨
      (upperBound key l k = lowerBound key l k + 1 ∧ ∃ x ∈ l, key x = k)) := by
  induction l with
  | nil => exact ⟨le_refl _, Or.inl rfl⟩
  | cons y l ih =>
      unfold lowerBound upperBound at ih ⊢
      rw [List.findIdx_cons, List.findIdx_cons]
      rcases lt_trichotomy k (key y) with hlt | heq | hgt
      · rw [decide_eq_true hlt, decide_eq_true hlt.le]
        exact ⟨le_refl _, Or.inl rfl⟩
      · rw [decide_eq_true heq.le, decide_eq_false (not_lt.mpr heq.ge)]
        have hzero : l.findIdx (fun x => decide (k < key x)) = 0 := by
          cases l with
          | nil => rfl
          | cons z l => rw [List.findIdx_cons, decide_eq_true (heq ▸ h.head_lt z (by simp))]; rfl
        rw [hzero]
        exact ⟨Nat.zero_le _, Or.inr ⟨rfl, y, by simp, heq.symm⟩⟩
      · rw [decide_eq_false (not_le.mpr hgt), decide_eq_false (not_lt.mpr hgt.le)]
        obtain ⟨h1, h2⟩ := ih h.tail
        refine ⟨Nat.succ_le_succ h1, h2.imp (congrArg Nat.succ) ?_⟩
        rintro ⟨h2, x, hx, hk⟩
        exact ⟨congrArg Nat.succ h2, x, List.mem_cons_of_mem _ hx, hk⟩

/-- The upper bound between two positions around it is the upper bound of the whole list. -/
theorem upperBound_slice {l : List α} {k : K} {lo hi : ℕ} (hlo : lo ≤ upperBound key l k)
    (hhi : upperBound key l k ≤ hi) (hlen : hi ≤ l.length) :
    lo + upperBound key ((l.take hi).drop lo) k = upperBound key l k := by
  rw [upperBound_eq_lowerBound] at hlo hhi ⊢
  rw [upperBound_eq_lowerBound]
  exact lowerBound_slice hlo hhi hlen

/-- Behind the upper bound are the greater keys. -/
theorem Run.lookup_above {l : List α} (h : Run key l) (b k : K) :
    lookup key (l.drop (upperBound key l b)) k = if b < k then lookup key l k else none := by
  obtain ⟨hlow, habove⟩ := h.upperBound_split b
  by_cases hk : b < k
  · have hnone : lookup key (l.take (upperBound key l b)) k = none :=
      lookup_eq_none.mpr (fun x hx => ((hlow x hx).trans_lt hk).ne)
    conv_rhs => rw [← List.take_append_drop (upperBound key l b) l]
    rw [if_pos hk, lookup_append, hnone, Option.none_or]
  · rw [if_neg hk]
    exact lookup_eq_none.mpr (fun x hx heq => hk (heq ▸ habove x hx))

/-! ### All elements of a run -/

theorem Run.mem_iff_lookup {l : List α} (h : Run key l) {x : α} :
    x ∈ l ↔ lookup key l (key x) = some x := ⟨h.lookup_eq_some, mem_of_lookup⟩

theorem run_mergeAll : ∀ {ls : List (List α)}, (∀ l ∈ ls, Run key l) → Run key (mergeAll key ls)
  | [], _ => List.Pairwise.nil
  | l :: ls, h => (h l (by simp)).merge _ (run_mergeAll (fun l' hl' => h l' (by simp [hl'])))

theorem lookup_mergeAll (k : K) : ∀ {ls : List (List α)}, (∀ l ∈ ls, Run key l) →
    lookup key (mergeAll key ls) k = lookupAll key ls k
  | [], _ => rfl
  | l :: ls, h => by
      have htail : ∀ l' ∈ ls, Run key l' := fun l' hl' => h l' (by simp [hl'])
      rw [lookupAll_cons, ← lookup_mergeAll k htail]
      exact lookup_merge (h l (by simp)) (run_mergeAll htail) k

theorem length_mergeAll_le : ∀ ls : List (List α),
    (mergeAll key ls).length ≤ (ls.map List.length).sum
  | [] => le_refl _
  | l :: ls => by
      rw [List.map_cons, List.sum_cons]
      exact (length_merge_le _ l (mergeAll key ls)).trans
        (Nat.add_le_add_left (length_mergeAll_le ls) _)

/-- The least element of a selection that contains all greater ones comes first in it. -/
theorem Run.filter_least {l : List α} (h : Run key l) {p : α → Bool} {x : α} (hx : x ∈ l)
    (hp : p x = true) (hleast : ∀ y ∈ l, p y = true → key x ≤ key y)
    (hup : ∀ y ∈ l, key x < key y → p y = true) :
    l.filter p = x :: l.filter (fun y => decide (key x < key y)) := by
  induction l with
  | nil => cases hx
  | cons y l ih =>
      rcases List.mem_cons.mp hx with rfl | hx'
      · rw [List.filter_cons_of_pos hp, List.filter_cons_of_neg (by simp)]
        congr 1
        refine List.filter_congr (fun z hz => ?_)
        rw [decide_eq_true (h.head_lt z hz), hup z (List.mem_cons_of_mem _ hz) (h.head_lt z hz)]
      · have hlt := h.head_lt x hx'
        have hy : ¬ p y = true := fun hy => absurd (hleast y (by simp) hy) (not_le.mpr hlt)
        rw [List.filter_cons_of_neg hy, List.filter_cons_of_neg (by simpa using hlt.le)]
        exact ih h.tail hx' (fun z hz => hleast z (by simp [hz])) (fun z hz => hup z (by simp [hz]))

/-! ### The least head -/

theorem lookupAll_eq_none {ls : List (List α)} {k : K} :
    lookupAll key ls k = none ↔ ∀ l ∈ ls, lookup key l k = none := by
  unfold lookupAll
  exact List.findSome?_eq_none_iff

theorem key_of_lookupAll {ls : List (List α)} {k : K} {x : α} (h : lookupAll key ls k = some x) :
    key x = k := by
  obtain ⟨l, _, hx⟩ := List.exists_of_findSome?_eq_some h
  exact key_of_lookup hx

/-- What a run that starts above a key says about it. -/
theorem Run.lookup_none_of_head {l : List α} {k : K} (h : Run key l)
    (hhead : ∀ y rest, l = y :: rest → k < key y) : lookup key l k = none := by
  cases l with
  | nil => rfl
  | cons y rest =>
      have hy := hhead y rest rfl
      refine lookup_none_of_lt (fun z hz => ?_)
      rcases List.mem_cons.mp hz with rfl | hz
      · exact hy
      · exact hy.trans (h.head_lt z hz)

theorem LeastHead.lookup_lt {ls : List (List α)} {i : ℕ} {x : α} {rest : List α}
    (h : LeastHead key ls i x rest) (hruns : ∀ l ∈ ls, Run key l) {k : K} (hk : k < key x) :
    lookupAll key ls k = none := by
  refine lookupAll_eq_none.mpr (fun l hl => (hruns l hl).lookup_none_of_head ?_)
  rintro y rest' rfl
  obtain ⟨j, hj⟩ := List.mem_iff_getElem?.mp hl
  rcases h.2 j y rest' hj with hlt | ⟨heq, _⟩
  · exact hk.trans hlt
  · exact heq ▸ hk

/-- The least head is the element of its key. -/
theorem LeastHead.lookup_eq {ls : List (List α)} {i : ℕ} {x : α} {rest : List α}
    (h : LeastHead key ls i x rest) (hruns : ∀ l ∈ ls, Run key l) :
    lookupAll key ls (key x) = some x := by
  obtain ⟨hlt, hget⟩ := List.getElem?_eq_some_iff.mp h.1
  rw [lookupAll_take_drop ls i, List.drop_eq_getElem_cons hlt, hget, lookupAll_cons, lookup_cons,
    if_pos rfl, Option.some_or]
  have hnone : lookupAll key (ls.take i) (key x) = none := by
    refine lookupAll_eq_none.mpr
      (fun l hl => (hruns l (List.mem_of_mem_take hl)).lookup_none_of_head ?_)
    rintro y rest' rfl
    obtain ⟨j, hj⟩ := List.mem_iff_getElem?.mp hl
    have hji : j < i := by
      have := (List.getElem?_eq_some_iff.mp hj).1
      rw [List.length_take] at this
      omega
    rw [List.getElem?_take_of_lt hji] at hj
    rcases h.2 j y rest' hj with hlt | ⟨_, hle⟩
    · exact hlt
    · omega
  rw [hnone, Option.none_or]

/-- Behind its head a run says the same about the other keys. -/
theorem lookupAll_set_tail : ∀ {ls : List (List α)} {i : ℕ} {x : α} {rest : List α},
    ls[i]? = some (x :: rest) → ∀ {k : K}, k ≠ key x →
    lookupAll key (ls.set i rest) k = lookupAll key ls k
  | [], _, _, _, h, _, _ => by cases h
  | l :: ls, 0, x, rest, h, k, hk => by
      obtain rfl := Option.some.inj h
      rw [List.set_cons_zero, lookupAll_cons, lookupAll_cons, lookup_cons, if_neg (Ne.symm hk)]
  | l :: ls, i + 1, x, rest, h, k, hk => by
      rw [List.set_cons_succ, lookupAll_cons, lookupAll_cons,
        @lookupAll_set_tail ls i x rest h k hk]

theorem runs_set_tail {ls : List (List α)} (hruns : ∀ l ∈ ls, Run key l) {i : ℕ} {x : α}
    {rest : List α} (hi : ls[i]? = some (x :: rest)) : ∀ l ∈ ls.set i rest, Run key l := by
  intro l hl
  rcases List.mem_or_eq_of_mem_set hl with hl | rfl
  · exact hruns l hl
  · exact (hruns _ (List.mem_of_getElem? hi)).tail

end LearnedIndex.Runs
