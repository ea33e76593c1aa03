import Mathlib

/-! # Sorted runs and their merge

A run is a list whose elements have strictly increasing keys.  `lookup` finds the element of a key,
`lowerBound` the position where it is or would be, and `merge` joins a newer and an older run: on
equal keys the newer element stands for both, or neither is kept when `drop` says so.  Several runs
in a row are read with `lookupAll`, the first run that has the key answering. -/

namespace LearnedIndex.Runs

variable {α K : Type} [LinearOrder K] (key : α → K)

/-- The keys increase strictly. -/
def Run (l : List α) : Prop := l.Pairwise (fun x y => key x < key y)

/-- The element with a key. -/
def lookup (l : List α) (k : K) : Option α := l.find? (fun x => decide (key x = k))

/-- The first position whose key is no less than `k`. -/
def lowerBound (l : List α) (k : K) : ℕ := l.findIdx (fun x => decide (k ≤ key x))

/-- The first run that has the key answers. -/
def lookupAll (ls : List (List α)) (k : K) : Option α := ls.findSome? (fun l => lookup key l k)

/-- Merge a newer run with an older one. -/
def merge (drop : α → Bool) : List α → List α → List α
  | [], older => older
  | newer, [] => newer
  | x :: newer, y :: older =>
      if key y < key x then y :: merge drop (x :: newer) older
      else if key x < key y then x :: merge drop newer (y :: older)
      else if drop x then merge drop newer older
      else x :: merge drop newer older
termination_by newer older => newer.length + older.length

variable {key}

/-! ### Lookups -/

@[simp] theorem lookup_nil (k : K) : lookup key [] k = none := rfl

theorem lookup_cons (x : α) (l : List α) (k : K) :
    lookup key (x :: l) k = if key x = k then some x else lookup key l k := by
  unfold lookup
  rw [List.find?_cons]
  by_cases h : key x = k
  · rw [if_pos h, decide_eq_true h]
  · rw [if_neg h, decide_eq_false h]

theorem lookup_append (l l' : List α) (k : K) :
    lookup key (l ++ l') k = (lookup key l k).or (lookup key l' k) := List.find?_append

theorem lookup_eq_none {l : List α} {k : K} : lookup key l k = none ↔ ∀ x ∈ l, key x ≠ k := by
  unfold lookup
  rw [List.find?_eq_none]
  simp only [decide_eq_true_eq, ne_eq]

theorem key_of_lookup {l : List α} {k : K} {x : α} (h : lookup key l k = some x) : key x = k := by
  simpa using List.find?_some h

theorem mem_of_lookup {l : List α} {k : K} {x : α} (h : lookup key l k = some x) : x ∈ l :=
  List.mem_of_find?_eq_some h

/-- A key at or below every key of a run that has it is the first. -/
theorem lookup_none_of_lt {l : List α} {k : K} (h : ∀ x ∈ l, k < key x) : lookup key l k = none :=
  lookup_eq_none.mpr (fun x hx => (h x hx).ne')

theorem Run.tail {x : α} {l : List α} (h : Run key (x :: l)) : Run key l :=
  (List.pairwise_cons.mp h).2

theorem Run.head_lt {x : α} {l : List α} (h : Run key (x :: l)) : ∀ y ∈ l, key x < key y :=
  (List.pairwise_cons.mp h).1

/-- An element of a run is found by its key. -/
theorem Run.lookup_eq_some {x : α} : ∀ {l : List α}, Run key l → x ∈ l →
    lookup key l (key x) = some x
  | y :: l, h, hx => by
      rw [lookup_cons]
      rcases List.mem_cons.mp hx with rfl | hx
      · exact if_pos rfl
      · rw [if_neg (h.head_lt x hx).ne]
        exact h.tail.lookup_eq_some hx

/-- The lower bound splits a run. -/
theorem Run.lowerBound_split {l : List α} (h : Run key l) (k : K) :
    (∀ x ∈ l.take (lowerBound key l k), key x < k) ∧
      ∀ x ∈ l.drop (lowerBound key l k), k ≤ key x := by
  induction l with
  | nil => exact ⟨by simp, by simp⟩
  | cons y l ih =>
      unfold lowerBound at ih ⊢
      rw [List.findIdx_cons]
      by_cases hy : k ≤ key y
      · rw [decide_eq_true hy]
        refine ⟨by simp, fun x hx => ?_⟩
        rcases List.mem_cons.mp hx with rfl | hx
        · exact hy
        · exact hy.trans (h.head_lt x hx).le
      · rw [decide_eq_false hy]
        obtain ⟨h1, h2⟩ := ih h.tail
        refine ⟨fun x hx => ?_, fun x hx => h2 x hx⟩
        rcases List.mem_cons.mp hx with rfl | hx
        · exact not_le.mp hy
        · exact h1 x hx

theorem lowerBound_le (l : List α) (k : K) : lowerBound key l k ≤ l.length :=
  List.findIdx_le_length

/-- The element at the lower bound is the only one that can have the key. -/
theorem Run.getElem?_lowerBound {l : List α} (h : Run key l) (k : K) :
    lookup key l k = (l[lowerBound key l k]?).filter (fun x => decide (key x = k)) := by
  obtain ⟨hlow, _⟩ := h.lowerBound_split k
  have hsplit := List.take_append_drop (lowerBound key l k) l
  have hnone : lookup key (l.take (lowerBound key l k)) k = none :=
    lookup_eq_none.mpr (fun x hx => (hlow x hx).ne)
  have hdrop : lookup key l k = lookup key (l.drop (lowerBound key l k)) k := by
    conv_lhs => rw [← hsplit]
    rw [lookup_append, hnone, Option.none_or]
  rw [hdrop, ← List.head?_drop]
  have hrun : Run key (l.drop (lowerBound key l k)) := h.sublist (List.drop_sublist _ _)
  have hge := (h.lowerBound_split k).2
  cases hd : l.drop (lowerBound key l k) with
  | nil => rfl
  | cons y rest =>
      rw [hd] at hrun hge
      rw [lookup_cons, List.head?_cons, Option.filter_some]
      by_cases hy : key y = k
      · rw [if_pos hy, if_pos (decide_eq_true hy)]
      · rw [if_neg hy, if_neg (by simpa using hy)]
        exact lookup_none_of_lt (fun x hx =>
          (lt_of_le_of_ne (hge y (List.mem_cons_self ..)) (Ne.symm hy)).trans (hrun.head_lt x hx))

/-- The lower bound between two positions around it is the lower bound of the whole list. -/
theorem lowerBound_slice {l : List α} {k : K} {lo hi : ℕ} (hlo : lo ≤ lowerBound key l k)
    (hhi : lowerBound key l k ≤ hi) (hlen : hi ≤ l.length) :
    lo + lowerBound key ((l.take hi).drop lo) k = lowerBound key l k := by
  have hslice : ((l.take hi).drop lo).length = hi - lo := by
    rw [List.length_drop, List.length_take]
    omega
  have hget : ∀ i, (h : i < ((l.take hi).drop lo).length) →
      ((l.take hi).drop lo)[i] = l.get ⟨lo + i, by omega⟩ := by
    intro i h
    rw [List.getElem_drop, List.getElem_take, List.get_eq_getElem]
  have hbefore : ∀ j, (h : j < l.length) → j < lowerBound key l k → ¬ k ≤ key l[j] := by
    intro j h hj
    have := List.not_of_lt_findIdx hj
    simpa using this
  suffices h : lowerBound key ((l.take hi).drop lo) k = lowerBound key l k - lo by omega
  rcases Nat.lt_or_ge (lowerBound key l k) hi with hlt | hge
  · have hin : lowerBound key l k - lo < ((l.take hi).drop lo).length := by omega
    refine (List.findIdx_eq hin).mpr ⟨?_, fun j hj => ?_⟩
    · rw [hget _ (by omega)]
      have hat : l.get ⟨lo + (lowerBound key l k - lo), by omega⟩ =
          l.get ⟨lowerBound key l k, by omega⟩ := by
        congr 2
        omega
      have hw : l.findIdx (fun x => decide (k ≤ key x)) < l.length := by
        unfold lowerBound at hlt
        omega
      rw [hat]
      exact List.findIdx_getElem (w := hw)
    · rw [hget _ (by omega)]
      simpa using hbefore (lo + j) (by omega) (by omega)
  · have hall : lowerBound key ((l.take hi).drop lo) k = ((l.take hi).drop lo).length := by
      refine List.findIdx_eq_length.mpr (fun x hx => ?_)
      obtain ⟨j, hj, rfl⟩ := List.getElem_of_mem hx
      rw [hget j (by omega)]
      simpa using hbefore (lo + j) (by omega) (by omega)
    omega

/-! ### Inserting -/

/-- A new element at the lower bound of its key. -/
theorem Run.insert {l : List α} (h : Run key l) {x : α} (hx : lookup key l (key x) = none) :
    Run key (l.take (lowerBound key l (key x)) ++ x :: l.drop (lowerBound key l (key x))) := by
  obtain ⟨hlow, hge⟩ := h.lowerBound_split (key x)
  have hgt : ∀ y ∈ l.drop (lowerBound key l (key x)), key x < key y := fun y hy =>
    lt_of_le_of_ne (hge y hy) (Ne.symm (lookup_eq_none.mp hx y (List.mem_of_mem_drop hy)))
  have hl := h
  unfold Run at hl
  rw [← List.take_append_drop (lowerBound key l (key x)) l] at hl
  obtain ⟨h1, h2, h3⟩ := List.pairwise_append.mp hl
  refine List.pairwise_append.mpr ⟨h1, List.pairwise_cons.mpr ⟨hgt, h2⟩, fun a ha b hb => ?_⟩
  rcases List.mem_cons.mp hb with rfl | hb
  · exact hlow a ha
  · exact h3 a ha b hb

theorem lookup_insert {l : List α} {x : α} (p : ℕ) (hx : lookup key l (key x) = none) (k : K) :
    lookup key (l.take p ++ x :: l.drop p) k = if k = key x then some x else lookup key l k := by
  have hl : lookup key l k = (lookup key (l.take p) k).or (lookup key (l.drop p) k) := by
    rw [← lookup_append, List.take_append_drop]
  rw [lookup_append, lookup_cons]
  by_cases hk : k = key x
  · rw [if_pos hk, if_pos hk.symm]
    have hnone : lookup key (l.take p) k = none :=
      lookup_eq_none.mpr (fun y hy => hk ▸ lookup_eq_none.mp hx y (List.mem_of_mem_take hy))
    rw [hnone, Option.none_or]
  · rw [if_neg hk, if_neg (Ne.symm hk), hl]

/-! ### Merging -/

theorem mem_of_mem_merge (drop : α → Bool) (newer older : List α) {z : α}
    (hz : z ∈ merge key drop newer older) : z ∈ newer ∨ z ∈ older := by
  fun_induction merge key drop newer older with
  | case1 older => exact Or.inr hz
  | case2 newer => exact Or.inl hz
  | case3 x newer y older hlt ih => grind
  | case4 x newer y older hlt hgt ih => grind
  | case5 x newer y older hlt hgt hd ih => grind
  | case6 x newer y older hlt hgt hd ih => grind

theorem length_merge_le (drop : α → Bool) (newer older : List α) :
    (merge key drop newer older).length ≤ newer.length + older.length := by
  fun_induction merge key drop newer older with
  | case1 older => simp
  | case2 newer => simp
  | case3 x newer y older hlt ih => simp only [List.length_cons] at ih ⊢; omega
  | case4 x newer y older hlt hgt ih => simp only [List.length_cons] at ih ⊢; omega
  | case5 x newer y older hlt hgt hd ih => simp only [List.length_cons] at ih ⊢; omega
  | case6 x newer y older hlt hgt hd ih => simp only [List.length_cons] at ih ⊢; omega

theorem Run.merge (drop : α → Bool) {newer older : List α} (hn : Run key newer)
    (ho : Run key older) : Run key (merge key drop newer older) := by
  fun_induction Runs.merge key drop newer older with
  | case1 older => exact ho
  | case2 newer => exact hn
  | case3 x newer y older hlt ih =>
      refine List.pairwise_cons.mpr ⟨fun z hz => ?_, ih hn ho.tail⟩
      rcases mem_of_mem_merge drop _ _ hz with hz | hz
      · rcases List.mem_cons.mp hz with rfl | hz
        · exact hlt
        · exact hlt.trans (hn.head_lt z hz)
      · exact ho.head_lt z hz
  | case4 x newer y older hlt hgt ih =>
      refine List.pairwise_cons.mpr ⟨fun z hz => ?_, ih hn.tail ho⟩
      rcases mem_of_mem_merge drop _ _ hz with hz | hz
      · exact hn.head_lt z hz
      · rcases List.mem_cons.mp hz with rfl | hz
        · exact hgt
        · exact hgt.trans (ho.head_lt z hz)
  | case5 x newer y older hlt hgt hd ih => exact ih hn.tail ho.tail
  | case6 x newer y older hlt hgt hd ih =>
      have hxy : key x = key y := le_antisymm (not_lt.mp hlt) (not_lt.mp hgt)
      refine List.pairwise_cons.mpr ⟨fun z hz => ?_, ih hn.tail ho.tail⟩
      rcases mem_of_mem_merge drop _ _ hz with hz | hz
      · exact hn.head_lt z hz
      · exact hxy ▸ ho.head_lt z hz

/-- When nothing is dropped the newer run hides the older one key by key. -/
theorem lookup_merge {newer older : List α} (hn : Run key newer) (ho : Run key older) (k : K) :
    lookup key (merge key (fun _ => false) newer older) k =
      (lookup key newer k).or (lookup key older k) := by
  fun_induction merge key (fun _ => false) newer older with
  | case1 older => rfl
  | case2 newer => rw [lookup_nil, Option.or_none]
  | case3 x newer y older hlt ih =>
      rw [lookup_cons, ih hn ho.tail, lookup_cons y older]
      by_cases hk : key y = k
      · have hnone : lookup key (x :: newer) k = none := by
          refine lookup_none_of_lt (fun z hz => ?_)
          rcases List.mem_cons.mp hz with rfl | hz
          · exact hk ▸ hlt
          · exact hk ▸ hlt.trans (hn.head_lt z hz)
        rw [if_pos hk, if_pos hk, hnone, Option.none_or]
      · rw [if_neg hk, if_neg hk]
  | case4 x newer y older hlt hgt ih =>
      rw [lookup_cons, ih hn.tail ho, lookup_cons x newer]
      by_cases hk : key x = k
      · rw [if_pos hk, if_pos hk, Option.some_or]
      · rw [if_neg hk, if_neg hk]
  | case5 x newer y older hlt hgt hd ih => cases hd
  | case6 x newer y older hlt hgt hd ih =>
      have hxy : key x = key y := le_antisymm (not_lt.mp hlt) (not_lt.mp hgt)
      rw [lookup_cons, ih hn.tail ho.tail, lookup_cons x newer, lookup_cons y older]
      by_cases hk : key x = k
      · rw [if_pos hk, if_pos hk, Option.some_or]
      · rw [if_neg hk, if_neg hk, if_neg (hxy ▸ hk)]

/-! ### Several runs -/

@[simp] theorem lookupAll_nil (k : K) : lookupAll key [] k = none := rfl

theorem lookupAll_cons (l : List α) (ls : List (List α)) (k : K) :
    lookupAll key (l :: ls) k = (lookup key l k).or (lookupAll key ls k) := by
  unfold lookupAll
  rw [List.findSome?_cons]
  cases lookup key l k <;> rfl

theorem lookupAll_append (ls ls' : List (List α)) (k : K) :
    lookupAll key (ls ++ ls') k = (lookupAll key ls k).or (lookupAll key ls' k) := by
  induction ls with
  | nil => rfl
  | cons l ls ih => rw [List.cons_append, lookupAll_cons, lookupAll_cons, ih, Option.or_assoc]

theorem lookupAll_take_drop (ls : List (List α)) (n : ℕ) (k : K) :
    lookupAll key ls k = (lookupAll key (ls.take n) k).or (lookupAll key (ls.drop n) k) := by
  rw [← lookupAll_append, List.take_append_drop]

/-- Empty runs answer nothing. -/
theorem lookupAll_of_empty {ls : List (List α)} (h : ∀ l ∈ ls, l = []) (k : K) :
    lookupAll key ls k = none := by
  unfold lookupAll
  rw [List.findSome?_eq_none_iff]
  intro l hl
  rw [h l hl]
  rfl

/-- Among empty runs the only other one answers. -/
theorem lookupAll_single {ls : List (List α)} {i : ℕ} {l : List α} (hi : ls[i]? = some l)
    (h : ∀ j l', j ≠ i → ls[j]? = some l' → l' = []) (k : K) :
    lookupAll key ls k = lookup key l k := by
  obtain ⟨hlt, hget⟩ := List.getElem?_eq_some_iff.mp hi
  have hsplit : ls = ls.take i ++ l :: ls.drop (i + 1) := by
    rw [← hget, ← List.drop_eq_getElem_cons hlt, List.take_append_drop]
  have h1 : lookupAll key (ls.take i) k = none := by
    refine lookupAll_of_empty (fun l' hl' => ?_) k
    obtain ⟨j, hj, rfl⟩ := List.getElem_of_mem hl'
    rw [List.length_take] at hj
    exact h j _ (by omega) (by rw [List.getElem_take]; exact List.getElem?_eq_getElem (by omega))
  have h2 : lookupAll key (ls.drop (i + 1)) k = none := by
    refine lookupAll_of_empty (fun l' hl' => ?_) k
    obtain ⟨j, hj, rfl⟩ := List.getElem_of_mem hl'
    rw [List.length_drop] at hj
    refine h (i + 1 + j) _ (by omega) ?_
    rw [List.getElem_drop]
    exact List.getElem?_eq_getElem (by omega)
  rw [hsplit, lookupAll_append, h1, Option.none_or, lookupAll_cons, h2, Option.or_none]

end LearnedIndex.Runs
