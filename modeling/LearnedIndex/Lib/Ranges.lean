import Mathlib.Data.List.Destutter
import Mathlib.Data.List.Sort

/-! # Operations on a range of an array

An array is a list, and `editRange f a b` applies `f` to the elements at the positions from `a` up
to `b` and leaves the others alone.  `sortRange`, `uniqueRange` and `shuffleRange` are the usual
algorithms on ranges; `uniqueRange` keeps the first of equal neighbours and leaves what was behind
the last element it kept. -/

namespace LearnedIndex.Ranges

variable {α : Type}

/-- The elements at the positions from `a` up to `b`. -/
def slice (l : List α) (a b : ℕ) : List α := (l.take b).drop a

def editRange (f : List α → List α) (a b : ℕ) (l : List α) : List α :=
  l.take a ++ f (slice l a b) ++ l.drop b

/-- The elements of a list without repeated neighbours, at its front. -/
def compact [DecidableEq α] (l : List α) : List α :=
  let kept := l.destutter (· ≠ ·)
  kept ++ l.drop kept.length

def sortRange [LinearOrder α] : ℕ → ℕ → List α → List α :=
  editRange (List.insertionSort (· ≤ ·))

/-- The array and the number of elements kept. -/
def uniqueRange [DecidableEq α] (a b : ℕ) (l : List α) : List α × ℕ :=
  (editRange compact a b l, ((slice l a b).destutter (· ≠ ·)).length)

/-- A rearrangement of lists. -/
def Shuffle (α : Type) : Type := { f : List α → List α // ∀ l, (f l).Perm l }

def shuffleRange (s : Shuffle α) : ℕ → ℕ → List α → List α := editRange s.val

/-! ### What a range operation leaves alone -/

theorem length_slice {l : List α} {a b : ℕ} (hb : b ≤ l.length) :
    (slice l a b).length = b - a := by
  unfold slice
  rw [List.length_drop, List.length_take, Nat.min_eq_left hb]

theorem take_append_slice {l : List α} {a b : ℕ} (hab : a ≤ b) :
    l.take a ++ slice l a b = l.take b := by
  unfold slice
  rw [← Nat.min_eq_left hab, ← List.take_take, Nat.min_eq_left hab, List.take_append_drop]

theorem slice_all (l : List α) : slice l 0 l.length = l := by
  rw [slice, List.take_length, List.drop_zero]

theorem slice_self (l : List α) (a : ℕ) : slice l a a = [] := by
  rw [slice, List.drop_eq_nil_iff, List.length_take]
  omega

/-- An element of the slice. -/
theorem getElem?_slice {l : List α} {a b i : ℕ} (hi : a + i < b) :
    (slice l a b)[i]? = l[a + i]? := by
  unfold slice
  rw [List.getElem?_drop, List.getElem?_take_of_lt hi]

theorem slice_append {l : List α} {a b c : ℕ} (hab : a ≤ b) (hbc : b ≤ c) (hb : b ≤ l.length) :
    slice l a b ++ slice l b c = slice l a c := by
  have hlen : a ≤ (l.take b).length := by
    rw [List.length_take]
    omega
  unfold slice
  rw [← List.drop_append_of_le_length hlen, ← slice, take_append_slice hbc]

theorem slice_sublist_slice {l : List α} {a b i j : ℕ} (ha : a ≤ i) (hij : i ≤ j) (hj : j ≤ b)
    (hb : b ≤ l.length) : (slice l i j).Sublist (slice l a b) := by
  rw [← slice_append ha (hij.trans hj) (by omega), ← slice_append hij hj (by omega)]
  exact (List.sublist_append_left _ _).trans (List.sublist_append_right _ _)

theorem slice_cons {l : List α} {a b : ℕ} {x : α} (hx : l[a]? = some x) (hab : a < b) :
    slice l a b = x :: slice l (a + 1) b := by
  have hx' : (l.take b)[a]? = some x := by rw [List.getElem?_take_of_lt hab, hx]
  obtain ⟨hlt, rfl⟩ := List.getElem?_eq_some_iff.mp hx'
  exact List.drop_eq_getElem_cons hlt

theorem slice_concat {l : List α} {a b : ℕ} {x : α} (hx : l[b]? = some x) (hab : a ≤ b) :
    slice l a (b + 1) = slice l a b ++ [x] := by
  obtain ⟨hlt, _⟩ := List.getElem?_eq_some_iff.mp hx
  rw [← slice_append hab (Nat.le_succ b) (by omega), slice_cons hx (Nat.lt_succ_self b), slice_self]

theorem slice_set_of_lt {l : List α} {a b i : ℕ} {x : α} (hi : i < a) :
    slice (l.set i x) a b = slice l a b := by
  unfold slice
  rw [List.take_set, List.drop_set_of_lt hi]

theorem slice_set_of_le {l : List α} {a b i : ℕ} {x : α} (hi : b ≤ i) :
    slice (l.set i x) a b = slice l a b := by
  unfold slice
  rw [List.take_set_of_le hi]

section edit
variable {f : List α → List α} {l : List α} {a b : ℕ}

theorem editRange_all (f : List α → List α) (l : List α) : editRange f 0 l.length l = f l := by
  rw [editRange, slice_all, List.take_zero, List.drop_length, List.nil_append, List.append_nil]

theorem length_editRange (hf : ∀ l, (f l).length = l.length) (hab : a ≤ b) (hb : b ≤ l.length) :
    (editRange f a b l).length = l.length := by
  unfold editRange
  rw [List.length_append, List.length_append, hf, length_slice hb, List.length_take,
    List.length_drop]
  omega

theorem take_editRange (hab : a ≤ b) (hb : b ≤ l.length) :
    (editRange f a b l).take a = l.take a := by
  unfold editRange
  rw [List.append_assoc, List.take_left' (by rw [List.length_take]; omega)]

theorem slice_editRange (hf : ∀ l, (f l).length = l.length) (hab : a ≤ b) (hb : b ≤ l.length) :
    slice (editRange f a b l) a b = f (slice l a b) := by
  have hlen : (l.take a ++ f (slice l a b)).length = b := by
    rw [List.length_append, hf, length_slice hb, List.length_take]
    omega
  rw [slice, editRange, List.take_left' hlen, List.drop_left' (by rw [List.length_take]; omega)]

theorem take_right_editRange (hf : ∀ l, (f l).length = l.length) (hab : a ≤ b)
    (hb : b ≤ l.length) : (editRange f a b l).take b = l.take a ++ f (slice l a b) := by
  have hlen : (l.take a ++ f (slice l a b)).length = b := by
    rw [List.length_append, hf, length_slice hb, List.length_take]
    omega
  rw [editRange, List.take_left' hlen]

/-- The middle of three parts. -/
theorem slice_middle (a b c : List α) : slice (a ++ b ++ c) a.length (a.length + b.length) = b := by
  rw [slice, List.take_left' (List.length_append ..), List.drop_left]

theorem editRange_middle (f : List α → List α) (a b c : List α) :
    editRange f a.length (a.length + b.length) (a ++ b ++ c) = a ++ f b ++ c := by
  have hfront : (a ++ b ++ c).take a.length = a := by
    rw [List.append_assoc]
    exact List.take_left
  rw [editRange, slice_middle, hfront, List.drop_left' (List.length_append ..)]

/-- A slice behind the range stays. -/
theorem slice_editRange_of_ge (hf : ∀ l, (f l).length = l.length) {c d : ℕ} (hc : b ≤ c)
    (hab : a ≤ b) (hb : b ≤ l.length) : slice (editRange f a b l) c d = slice l c d := by
  have hlen : (l.take a ++ f (slice l a b)).length = b := by
    rw [List.length_append, hf, length_slice hb, List.length_take]
    omega
  have hdrop : (editRange f a b l).drop c = l.drop c := by
    rw [editRange, List.drop_append, List.drop_eq_nil_of_le (by omega), List.nil_append, hlen,
      List.drop_drop]
    congr 1
    omega
  unfold slice
  rw [List.drop_take, hdrop, List.drop_take]

end edit

theorem length_compact [DecidableEq α] (l : List α) : (compact l).length = l.length := by
  have h := (List.destutter_sublist (R := (· ≠ ·)) l).length_le
  simp only [compact, List.length_append, List.length_drop]
  omega

/-- A list without repeated neighbours stays as it is. -/
theorem compact_eq_self [DecidableEq α] {l : List α} (h : l.Nodup) : compact l = l := by
  have hd : l.destutter (· ≠ ·) = l := List.destutter_of_isChain _ _ h.isChain
  simp only [compact, hd, List.drop_length, List.append_nil]

theorem editRange_of_eq {f : List α → List α} {l : List α} {a b : ℕ} (hab : a ≤ b)
    (h : f (slice l a b) = slice l a b) : editRange f a b l = l := by
  rw [editRange, h, take_append_slice hab, List.take_append_drop]

/-- A range of distinct elements stays as it is. -/
theorem uniqueRange_of_nodup [DecidableEq α] {l : List α} {a b : ℕ} (hab : a ≤ b)
    (hb : b ≤ l.length) (h : (slice l a b).Nodup) : uniqueRange a b l = (l, b - a) := by
  have hd : (slice l a b).destutter (· ≠ ·) = slice l a b :=
    List.destutter_of_isChain _ _ h.isChain
  rw [uniqueRange, editRange_of_eq hab (compact_eq_self h), hd, length_slice hb]

/-- A sorted list without repeated neighbours is strictly increasing. -/
theorem pairwise_destutter [LinearOrder α] {l : List α} (h : l.Pairwise (· ≤ ·)) :
    (l.destutter (· ≠ ·)).Pairwise (· < ·) := by
  have hle : (l.destutter (· ≠ ·)).IsChain (· ≤ ·) :=
    (h.sublist (List.destutter_sublist _ l)).isChain
  have hne := List.isChain_destutter (R := (· ≠ ·)) l
  rw [List.isChain_iff_getElem] at hle hne
  have hlt : (l.destutter (· ≠ ·)).IsChain (· < ·) :=
    List.isChain_iff_getElem.mpr (fun i hi => lt_of_le_of_ne (hle i hi) (hne i hi))
  exact hlt.pairwise

theorem mem_destutter' [DecidableEq α] {x : α} : ∀ {l : List α} {a : α},
    x ∈ l.destutter' (· ≠ ·) a ↔ x = a ∨ x ∈ l
  | [], a => by rw [List.destutter'_nil, List.mem_singleton, or_iff_left List.not_mem_nil]
  | b :: l, a => by
      by_cases hab : a = b
      · subst hab
        rw [List.destutter'_cons_neg (R := (· ≠ ·)) l (not_not.mpr rfl), mem_destutter',
          List.mem_cons,
          ← or_assoc, or_self]
      · rw [List.destutter'_cons_pos (R := (· ≠ ·)) l hab, List.mem_cons, mem_destutter',
          List.mem_cons]

/-- Dropping repeated neighbours loses no element. -/
theorem mem_destutter [DecidableEq α] {x : α} {l : List α} : x ∈ l.destutter (· ≠ ·) ↔ x ∈ l := by
  cases l with
  | nil => rw [List.destutter_nil]
  | cons a l => rw [List.destutter_cons', mem_destutter', List.mem_cons]

/-- The distinct elements of a list in increasing order. -/
def distinctSorted [LinearOrder α] (l : List α) : List α :=
  (l.insertionSort (· ≤ ·)).destutter (· ≠ ·)

section distinctSorted
variable [LinearOrder α]

theorem mem_distinctSorted {x : α} {l : List α} : x ∈ distinctSorted l ↔ x ∈ l :=
  mem_destutter.trans (List.mem_insertionSort (· ≤ ·))

theorem pairwise_distinctSorted (l : List α) : (distinctSorted l).Pairwise (· < ·) :=
  pairwise_destutter (List.pairwise_insertionSort _ _)

theorem nodup_distinctSorted (l : List α) : (distinctSorted l).Nodup :=
  (pairwise_distinctSorted l).imp (fun h => ne_of_lt h)

theorem length_distinctSorted_le (l : List α) : (distinctSorted l).length ≤ l.length := by
  have h := (List.destutter_sublist (· ≠ ·) (l.insertionSort (· ≤ ·))).length_le
  rwa [List.length_insertionSort] at h

end distinctSorted

theorem exists_neighbours {l : List α} {n : ℕ} (h : n + 2 ≤ l.length) :
    ∃ X x y Y, X.length = n ∧ l = X ++ x :: y :: Y := by
  refine ⟨l.take n, l[n], l[n + 1], l.drop (n + 2), List.length_take_of_le (by omega), ?_⟩
  rw [← List.drop_eq_getElem_cons, ← List.drop_eq_getElem_cons, List.take_append_drop]

theorem nodup_eraseDups [DecidableEq α] : ∀ l : List α, l.eraseDups.Nodup
  | [] => List.nodup_nil
  | a :: l => by
      rw [List.eraseDups_cons, List.nodup_cons, List.mem_eraseDups]
      exact ⟨by simp, nodup_eraseDups _⟩
termination_by l => l.length
decreasing_by exact Nat.lt_succ_of_le (List.length_filter_le ..)

/-- Two elements stand in one order only. -/
theorem not_sublist_swap {a b : α} : ∀ {l : List α}, l.Nodup → [a, b].Sublist l → ¬ [b, a].Sublist l
  | [], _, h, _ => by cases h
  | x :: l, hd, h, h' => by
      obtain ⟨hx, hd⟩ := List.nodup_cons.mp hd
      cases h with
      | cons _ h =>
          cases h' with
          | cons _ h' => exact not_sublist_swap hd h h'
          | cons_cons _ _ => exact hx (h.subset (by simp))
      | cons_cons _ h =>
          cases h' with
          | cons _ h' => exact hx (h'.subset (by simp))
          | cons_cons _ h' => exact hx (h.subset (by simp))

/-- The elements that are kept stand at the front of the range. -/
theorem slice_compact [DecidableEq α] (l : List α) :
    slice (compact l) 0 (l.destutter (· ≠ ·)).length = l.destutter (· ≠ ·) := by
  unfold slice
  rw [List.drop_zero, compact, List.take_left' rfl]

theorem length_sorted [LinearOrder α] (l : List α) :
    (l.insertionSort (· ≤ ·)).length = l.length := List.length_insertionSort ..

theorem length_shuffle (s : Shuffle α) (l : List α) : (s.val l).length = l.length :=
  (s.property l).length_eq

end LearnedIndex.Ranges
