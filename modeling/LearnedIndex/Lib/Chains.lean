import Mathlib.Algebra.Order.Ring.Rat
import Mathlib.Data.List.Basic
import Mathlib.Tactic.Linarith

/-! # Linked lists and consecutive ranges

Two facts about a list of cells that are stored elsewhere: the cells are linked in both directions
in the order of the list (`Linked`), and their ranges follow each other without a gap (`Spans`).
Both split over an append, so that a cell in the middle can be replaced by several.

`Inside` is membership in a range when the two ends of the whole line of ranges are open: a value
lies inside exactly one of consecutive ranges (`Spans.unique`). -/

namespace LearnedIndex.Chains

/-! ### Links -/

section
variable {α : Type}

/-- The cells of the list are linked to their neighbours, the first one back to `p` and the last
one on to `q`. -/
def Linked (prv nxt : α → Option α) : Option α → List α → Option α → Prop
  | _, [], _ => True
  | p, x :: l, q => prv x = p ∧ nxt x = l.head?.or q ∧ Linked prv nxt (some x) l q

variable {prv nxt prv' nxt' : α → Option α}

theorem linked_cons {p q : Option α} {x : α} {l : List α} : Linked prv nxt p (x :: l) q ↔
    prv x = p ∧ nxt x = l.head?.or q ∧ Linked prv nxt (some x) l q := Iff.rfl

theorem linked_append {B : List α} {q : Option α} : ∀ {A : List α} {p : Option α},
    Linked prv nxt p (A ++ B) q ↔
      Linked prv nxt p A (B.head?.or q) ∧ Linked prv nxt (A.getLast?.or p) B q
  | [], p => by simp [Linked]
  | x :: A, p => by
      rw [List.cons_append, linked_cons, linked_cons, linked_append (A := A)]
      have hhead : (A ++ B).head?.or q = A.head?.or (B.head?.or q) := by
        cases A <;> simp
      have hlast : A.getLast?.or (some x) = (x :: A).getLast?.or p := by
        rw [List.getLast?_cons]
        cases A.getLast? <;> rfl
      rw [hhead, hlast]
      simp only [and_assoc]

/-- The links of a list of distinct cells towards its right end. -/
theorem Linked.setNext {q q' : Option α} : ∀ {A : List α} {p : Option α}, A.Nodup →
    Linked prv nxt p A q → (∀ a ∈ A, prv' a = prv a) →
    (∀ a ∈ A, A.getLast? ≠ some a → nxt' a = nxt a) →
    (∀ a, A.getLast? = some a → nxt' a = q') → Linked prv' nxt' p A q'
  | [], _, _, _, _, _, _ => trivial
  | [x], p, _, h, hprv, _, hlast => by
      refine ⟨(hprv x (List.mem_cons_self ..)).trans h.1, ?_, trivial⟩
      exact hlast x rfl
  | x :: y :: A, p, hnd, h, hprv, hnxt, hlast => by
      obtain ⟨h1, h2, h3⟩ := h
      have hx : (x :: y :: A).getLast? ≠ some x := by
        rw [List.getLast?_cons_cons]
        intro hc
        exact (List.nodup_cons.mp hnd).1 (List.mem_of_getLast? hc)
      refine ⟨(hprv x (List.mem_cons_self ..)).trans h1, ?_, ?_⟩
      · rw [hnxt x (List.mem_cons_self ..) hx, h2]
        rfl
      · refine h3.setNext (List.nodup_cons.mp hnd).2
          (fun a ha => hprv a (List.mem_cons_of_mem x ha))
          (fun a ha hne => hnxt a (List.mem_cons_of_mem x ha) ?_) (fun a ha => hlast a ?_)
        · rwa [List.getLast?_cons_cons]
        · rwa [List.getLast?_cons_cons]

/-- The links of a list of distinct cells towards its left end. -/
theorem Linked.setPrev {p p' q : Option α} {B : List α} (hnd : B.Nodup)
    (h : Linked prv nxt p B q) (hnxt : ∀ b ∈ B, nxt' b = nxt b)
    (hprv : ∀ b ∈ B, B.head? ≠ some b → prv' b = prv b)
    (hhead : ∀ b, B.head? = some b → prv' b = p') : Linked prv' nxt' p' B q := by
  cases B with
  | nil => trivial
  | cons x B =>
      obtain ⟨_, h2, h3⟩ := h
      refine ⟨hhead x rfl, (hnxt x (List.mem_cons_self ..)).trans h2, ?_⟩
      have hx := (List.nodup_cons.mp hnd).1
      refine h3.setNext (List.nodup_cons.mp hnd).2
        (fun b hb => hprv b (List.mem_cons_of_mem x hb) ?_)
        (fun b hb _ => hnxt b (List.mem_cons_of_mem x hb)) (fun b hb => ?_)
      · rintro hc
        obtain rfl : x = b := by simpa using hc
        exact hx hb
      · have hmem := List.mem_of_getLast? hb
        rw [hnxt b (List.mem_cons_of_mem x hmem)]
        obtain ⟨C, rfl⟩ : ∃ C, B = C ++ [b] := by
          obtain ⟨C, hC⟩ := List.getLast?_eq_some_iff.mp hb
          exact ⟨C, hC⟩
        have := (linked_append.mp h3).2.2.1
        simpa using this

/-- One cell of a linked list is replaced by several. -/
theorem Linked.replace {A B N : List α} {x : α} (hnd : (A ++ x :: B).Nodup)
    (h : Linked prv nxt none (A ++ x :: B) none) (hne : N ≠ [])
    (hN : Linked prv' nxt' A.getLast? N B.head?)
    (hprvA : ∀ a ∈ A, prv' a = prv a)
    (hnxtA : ∀ a ∈ A, A.getLast? ≠ some a → nxt' a = nxt a)
    (hlastA : ∀ a, A.getLast? = some a → nxt' a = N.head?)
    (hnxtB : ∀ b ∈ B, nxt' b = nxt b)
    (hprvB : ∀ b ∈ B, B.head? ≠ some b → prv' b = prv b)
    (hheadB : ∀ b, B.head? = some b → prv' b = N.getLast?) :
    Linked prv' nxt' none (A ++ N ++ B) none := by
  obtain ⟨hA, hB⟩ := linked_append.mp h
  have hndA : A.Nodup := (List.nodup_append.mp hnd).1
  have hndB : B.Nodup := (List.nodup_cons.mp (List.nodup_append.mp hnd).2.1).2
  have hhead : ∀ o : Option α, N.head?.or o = N.head? := by
    intro o
    cases N with
    | nil => exact absurd rfl hne
    | cons y N => rfl
  have hlast : ∀ o : Option α, N.getLast?.or o = N.getLast? := by
    intro o
    obtain ⟨y, hy⟩ := Option.isSome_iff_exists.mp (List.getLast?_isSome.mpr hne)
    rw [hy]
    rfl
  rw [List.append_assoc, linked_append, linked_append]
  refine ⟨?_, ?_, ?_⟩
  · have : (N ++ B).head?.or none = N.head? := by
      rw [Option.or_none]
      cases N with
      | nil => exact absurd rfl hne
      | cons y N => rfl
    rw [this]
    exact hA.setNext hndA hprvA hnxtA hlastA
  · rw [Option.or_none, Option.or_none]
    exact hN
  · rw [Option.or_none, hlast]
    exact hB.2.2.setPrev hndB hnxtB hprvB hheadB

/-- The link back from a cell leads to the cell before it. -/
theorem Linked.prev_mem {x y : α} {l : List α} {q : Option α} (h : Linked prv nxt none l q)
    (hx : x ∈ l) (hy : prv x = some y) : ∃ A B, l = A ++ y :: x :: B := by
  obtain ⟨A, B, rfl⟩ := List.append_of_mem hx
  have hp := (linked_append.mp h).2.1
  rw [hy, Option.or_none] at hp
  obtain ⟨C, rfl⟩ := List.getLast?_eq_some_iff.mp hp.symm
  exact ⟨C, B, by simp⟩

/-- The link on from a cell leads to the cell behind it. -/
theorem Linked.next_mem {x y : α} {l : List α} {p : Option α} (h : Linked prv nxt p l none)
    (hx : x ∈ l) (hy : nxt x = some y) : ∃ A B, l = A ++ x :: y :: B := by
  obtain ⟨A, B, rfl⟩ := List.append_of_mem hx
  have hp := (linked_append.mp h).2.2.1
  rw [hy, Option.or_none] at hp
  cases B with
  | nil => exact absurd hp.symm (by simp)
  | cons z B =>
      obtain rfl : y = z := by simpa using hp
      exact ⟨A, B, rfl⟩

theorem Linked.congr {p q : Option α} {A : List α} (h : Linked prv nxt p A q)
    (hprv : ∀ a ∈ A, prv' a = prv a) (hnxt : ∀ a ∈ A, nxt' a = nxt a) : Linked prv' nxt' p A q := by
  induction A generalizing p with
  | nil => trivial
  | cons x A ih =>
      obtain ⟨h1, h2, h3⟩ := h
      exact ⟨(hprv x (List.mem_cons_self ..)).trans h1, (hnxt x (List.mem_cons_self ..)).trans h2,
        ih h3 (fun a ha => hprv a (List.mem_cons_of_mem x ha))
          (fun a ha => hnxt a (List.mem_cons_of_mem x ha))⟩

/-! ### Neighbours -/

/-- The cell `y` comes directly behind `x`. -/
def Follows (l : List α) (x y : α) : Prop := ∃ A B, l = A ++ x :: y :: B

theorem not_follows_nil {x y : α} : ¬ Follows [] x y := by
  rintro ⟨A, B, h⟩
  simp at h

theorem follows_cons {l : List α} {x y z : α} :
    Follows (z :: l) x y ↔ (x = z ∧ l.head? = some y) ∨ Follows l x y := by
  constructor
  · rintro ⟨A, B, h⟩
    cases A with
    | nil =>
        obtain ⟨rfl, rfl⟩ := List.cons.inj h
        exact Or.inl ⟨rfl, rfl⟩
    | cons a A =>
        obtain ⟨rfl, rfl⟩ := List.cons.inj h
        exact Or.inr ⟨A, B, rfl⟩
  · rintro (⟨rfl, h⟩ | ⟨A, B, rfl⟩)
    · obtain ⟨B, rfl⟩ := List.head?_eq_some_iff.mp h
      exact ⟨[], B, rfl⟩
    · exact ⟨z :: A, B, rfl⟩

theorem follows_append {A B : List α} {x y : α} : Follows (A ++ B) x y ↔
    Follows A x y ∨ (A.getLast? = some x ∧ B.head? = some y) ∨ Follows B x y := by
  induction A with
  | nil => simp [not_follows_nil]
  | cons a A ih =>
      rw [List.cons_append, follows_cons, follows_cons, ih]
      cases A with
      | nil => simp [not_follows_nil, eq_comm]
      | cons b A =>
          rw [List.getLast?_cons_cons, List.cons_append, List.head?_cons, List.head?_cons]
          tauto

theorem Follows.left_mem {l : List α} {x y : α} (h : Follows l x y) : x ∈ l := by
  obtain ⟨A, B, rfl⟩ := h
  simp

theorem Follows.right_mem {l : List α} {x y : α} (h : Follows l x y) : y ∈ l := by
  obtain ⟨A, B, rfl⟩ := h
  simp

theorem Follows.ne {l : List α} (hnd : l.Nodup) {x y : α} (h : Follows l x y) : x ≠ y := by
  obtain ⟨A, B, rfl⟩ := h
  rintro rfl
  exact (List.nodup_cons.mp (List.nodup_append.mp hnd).2.1).1 (List.mem_cons_self ..)

/-- In a list of distinct cells the neighbours are unique. -/
theorem Follows.right_unique {l : List α} (hnd : l.Nodup) {x y y' : α} (h : Follows l x y)
    (h' : Follows l x y') : y = y' := by
  induction l with
  | nil => exact absurd h not_follows_nil
  | cons z l ih =>
      have hz := (List.nodup_cons.mp hnd).1
      rcases follows_cons.mp h with ⟨hx, hy⟩ | hl
      · rcases follows_cons.mp h' with ⟨_, hy'⟩ | hl'
        · exact Option.some.inj (hy.symm.trans hy')
        · exact absurd (hx ▸ hl'.left_mem) hz
      · rcases follows_cons.mp h' with ⟨hx, _⟩ | hl'
        · exact absurd (hx ▸ hl.left_mem) hz
        · exact ih (List.nodup_cons.mp hnd).2 hl hl'

theorem Follows.left_unique {l : List α} (hnd : l.Nodup) {x x' y : α} (h : Follows l x y)
    (h' : Follows l x' y) : x = x' := by
  obtain ⟨A, B, rfl⟩ := h
  have hy : y ∉ A ++ [x] ∧ y ∉ B := by
    rw [show A ++ x :: y :: B = (A ++ [x]) ++ y :: B by simp] at hnd
    obtain ⟨_, h2, h3⟩ := List.nodup_append.mp hnd
    exact ⟨fun hm => h3 y hm y (List.mem_cons_self ..) rfl, (List.nodup_cons.mp h2).1⟩
  rw [show A ++ x :: y :: B = (A ++ [x]) ++ y :: B by simp] at h'
  rcases follows_append.mp h' with h' | ⟨h', _⟩ | h'
  · exact absurd h'.right_mem hy.1
  · rw [List.getLast?_concat] at h'
    exact Option.some.inj h'
  · rcases follows_cons.mp h' with ⟨_, hb⟩ | h'
    · exact absurd (List.mem_of_mem_head? hb) hy.2
    · exact absurd h'.right_mem hy.2

/-- Neighbours apart from a cell stay neighbours when that cell is replaced. -/
theorem Follows.replace {A B N : List α} {x y z : α} (h : Follows (A ++ z :: B) x y) (hx : x ≠ z)
    (hy : y ≠ z) : Follows (A ++ N ++ B) x y := by
  rcases follows_append.mp h with hA | ⟨_, hz⟩ | hB
  · exact follows_append.mpr (Or.inl (follows_append.mpr (Or.inl hA)))
  · exact absurd (Option.some.inj hz).symm hy
  · rcases follows_cons.mp hB with ⟨hxz, _⟩ | hB
    · exact absurd hxz hx
    · exact follows_append.mpr (Or.inr (Or.inr hB))

/-- What comes before a cell comes before the first one of those that replace it. -/
theorem Follows.replace_right {A B N : List α} {x y z : α} (hnd : (A ++ z :: B).Nodup)
    (h : Follows (A ++ z :: B) x z) : Follows (A ++ y :: N ++ B) x y := by
  have hlast : A.getLast? = some x := by
    obtain ⟨_, hzB, hA⟩ := List.nodup_append.mp hnd
    rcases follows_append.mp h with hf | ⟨hx, _⟩ | hf
    · exact absurd rfl (hA z hf.right_mem z (List.mem_cons_self ..))
    · exact hx
    · rcases follows_cons.mp hf with ⟨_, hB⟩ | hf
      · exact absurd (List.mem_of_mem_head? hB) (List.nodup_cons.mp hzB).1
      · exact absurd hf.right_mem (List.nodup_cons.mp hzB).1
  rw [List.append_assoc, List.cons_append]
  exact follows_append.mpr (Or.inr (Or.inl ⟨hlast, rfl⟩))

/-- The first cell comes behind no other. -/
theorem Follows.ne_head {l : List α} (hnd : l.Nodup) {x y : α} (h : Follows l x y) :
    l.head? ≠ some y := by
  intro hy
  obtain ⟨A, B, rfl⟩ := h
  cases A with
  | nil =>
      obtain rfl : x = y := by simpa using hy
      exact (List.nodup_cons.mp hnd).1 (List.mem_cons_self ..)
  | cons a A =>
      obtain rfl : a = y := by simpa using hy
      exact (List.nodup_cons.mp hnd).1 (by simp)

/-- No cell comes behind the last one. -/
theorem Follows.ne_last {l : List α} (hnd : l.Nodup) {x y : α} (h : Follows l x y) :
    l.getLast? ≠ some x := by
  intro hx
  obtain ⟨A, B, rfl⟩ := h
  have hmem : x ∈ y :: B := by
    rw [show A ++ x :: y :: B = (A ++ [x]) ++ y :: B by simp] at hx
    rw [List.getLast?_append_of_ne_nil _ (by simp)] at hx
    exact List.mem_of_getLast? hx
  exact (List.nodup_cons.mp (List.nodup_append.mp hnd).2.1).1 hmem

/-- A cell that is not the first one comes behind another. -/
theorem exists_follows_of_mem {l : List α} {y : α} (hy : y ∈ l) :
    l.head? = some y ∨ ∃ x, Follows l x y := by
  obtain ⟨A, B, rfl⟩ := List.append_of_mem hy
  rcases List.eq_nil_or_concat A with rfl | ⟨A, x, rfl⟩
  · exact Or.inl rfl
  · exact Or.inr ⟨x, A, B, by simp⟩

/-- A cell that is not the last one comes before another. -/
theorem exists_follows_of_mem' {l : List α} {x : α} (hx : x ∈ l) :
    l.getLast? = some x ∨ ∃ y, Follows l x y := by
  obtain ⟨A, B, rfl⟩ := List.append_of_mem hx
  cases B with
  | nil => exact Or.inl (by simp)
  | cons y B => exact Or.inr ⟨y, A, B, rfl⟩

/-- A linked list in terms of neighbours. -/
theorem linked_iff_follows {l : List α} : Linked prv nxt none l none ↔
    (∀ x y, Follows l x y → nxt x = some y ∧ prv y = some x) ∧
      (∀ x, l.head? = some x → prv x = none) ∧ ∀ x, l.getLast? = some x → nxt x = none := by
  suffices h : ∀ p, Linked prv nxt p l none ↔
      (∀ x y, Follows l x y → nxt x = some y ∧ prv y = some x) ∧
        (∀ x, l.head? = some x → prv x = p) ∧ ∀ x, l.getLast? = some x → nxt x = none from h none
  induction l with
  | nil => intro p; simp [Linked, not_follows_nil]
  | cons z l ih =>
      intro p
      rw [linked_cons, ih (some z)]
      cases l with
      | nil => simp [not_follows_nil, follows_cons]
      | cons w l =>
          simp only [follows_cons (z := z), List.head?_cons, Option.some.injEq, Option.some_or,
            List.getLast?_cons_cons, forall_eq']
          constructor
          · rintro ⟨h1, h2, h3, h4, h5⟩
            refine ⟨fun x y h => ?_, h1, h5⟩
            rcases h with ⟨rfl, rfl⟩ | h
            · exact ⟨h2, h4⟩
            · exact h3 x y h
          · rintro ⟨h1, h2, h3⟩
            exact ⟨h2, (h1 z w (Or.inl ⟨rfl, rfl⟩)).1, fun x y h => h1 x y (Or.inr h),
              (h1 z w (Or.inl ⟨rfl, rfl⟩)).2, h3⟩

end

/-! ### Ranges -/

/-- The key lies in the range from `lo` to `hi`; the ends of the whole line are open. -/
def Inside (LO HI lo hi : ℚ) (key : ℤ) : Prop :=
  (lo ≤ key ∨ lo = LO) ∧ ((key : ℚ) < hi ∨ hi = HI)

theorem inside_self (LO HI : ℚ) (key : ℤ) : Inside LO HI LO HI key := ⟨Or.inr rfl, Or.inr rfl⟩

section
variable {α : Type} {lo hi : α → ℚ}

/-- The ranges of the cells follow each other from `a` to `b`. -/
def Spans (lo hi : α → ℚ) : ℚ → List α → ℚ → Prop
  | a, [], b => a = b
  | a, x :: l, b => lo x = a ∧ Spans lo hi (hi x) l b

instance decidableSpans (lo hi : α → ℚ) : ∀ (a : ℚ) (l : List α) (b : ℚ),
    Decidable (Spans lo hi a l b)
  | a, [], b => inferInstanceAs (Decidable (a = b))
  | a, x :: l, b =>
      have := decidableSpans lo hi (hi x) l b
      inferInstanceAs (Decidable (lo x = a ∧ Spans lo hi (hi x) l b))

theorem spans_cons {a b : ℚ} {x : α} {l : List α} :
    Spans lo hi a (x :: l) b ↔ lo x = a ∧ Spans lo hi (hi x) l b := Iff.rfl

theorem spans_append {B : List α} {c : ℚ} : ∀ {A : List α} {a : ℚ},
    Spans lo hi a (A ++ B) c ↔ ∃ b, Spans lo hi a A b ∧ Spans lo hi b B c
  | [], a => by simp [Spans]
  | x :: A, a => by
      rw [List.cons_append, spans_cons, spans_append (A := A)]
      constructor
      · rintro ⟨h1, b, h2, h3⟩
        exact ⟨b, ⟨h1, h2⟩, h3⟩
      · rintro ⟨b, ⟨h1, h2⟩, h3⟩
        exact ⟨h1, b, h2, h3⟩

/-- Every cell is replaced by cells that share its range. -/
theorem Spans.flatMap {f : α → List α} : ∀ {l : List α} {a b : ℚ}, Spans lo hi a l b →
    (∀ x ∈ l, Spans lo hi (lo x) (f x) (hi x)) → Spans lo hi a (l.flatMap f) b
  | [], _, _, h, _ => h
  | x :: l, _, _, h, hf => by
      obtain ⟨rfl, h⟩ := h
      rw [List.flatMap_cons]
      exact spans_append.mpr ⟨hi x, hf x (List.mem_cons_self ..),
        h.flatMap (fun y hy => hf y (List.mem_cons_of_mem x hy))⟩

theorem Spans.congr {lo' hi' : α → ℚ} {a b : ℚ} {A : List α} (h : Spans lo hi a A b)
    (hlo : ∀ x ∈ A, lo' x = lo x) (hhi : ∀ x ∈ A, hi' x = hi x) : Spans lo' hi' a A b := by
  induction A generalizing a with
  | nil => exact h
  | cons x A ih =>
      refine ⟨(hlo x (List.mem_cons_self ..)).trans h.1, ?_⟩
      rw [hhi x (List.mem_cons_self ..)]
      exact ih h.2 (fun y hy => hlo y (List.mem_cons_of_mem x hy))
        (fun y hy => hhi y (List.mem_cons_of_mem x hy))

/-- With non-empty ranges all of them lie between the two ends. -/
theorem Spans.bounds {a b : ℚ} {A : List α} (h : Spans lo hi a A b) (hs : ∀ x ∈ A, lo x < hi x) :
    a ≤ b ∧ ∀ x ∈ A, a ≤ lo x ∧ hi x ≤ b := by
  induction A generalizing a with
  | nil => exact ⟨h.le, by simp⟩
  | cons x A ih =>
      obtain ⟨h1, h2⟩ := h
      obtain ⟨h3, h4⟩ := ih h2 (fun y hy => hs y (List.mem_cons_of_mem x hy))
      have hx := hs x (List.mem_cons_self ..)
      refine ⟨by linarith, fun y hy => ?_⟩
      rcases List.mem_cons.mp hy with rfl | hy
      · exact ⟨h1.ge, h3⟩
      · obtain ⟨h5, h6⟩ := h4 y hy
        exact ⟨by linarith, h6⟩

/-- Ranges that are not empty belong to different cells. -/
theorem Spans.nodup {a b : ℚ} {A : List α} (h : Spans lo hi a A b) (hs : ∀ x ∈ A, lo x < hi x) :
    A.Nodup := by
  induction A generalizing a with
  | nil => exact List.nodup_nil
  | cons x A ih =>
      have hA : ∀ y ∈ A, lo y < hi y := fun y hy => hs y (List.mem_cons_of_mem x hy)
      refine List.nodup_cons.mpr ⟨fun hx => ?_, ih h.2 hA⟩
      have hle := ((h.2.bounds hA).2 x hx).1
      exact absurd (hs x (List.mem_cons_self ..)) (not_lt.mpr hle)

/-- Among cells whose ranges are not empty there is one chain between two ends. -/
theorem Spans.eq_of_subset {b : ℚ} : ∀ {A A' : List α} {a : ℚ}, Spans lo hi a A b →
    Spans lo hi a A' b → (∀ x ∈ A, lo x < hi x) → A' ⊆ A → A' = A
  | [], A', _, _, _, _, hsub => List.eq_nil_of_subset_nil hsub
  | x :: A, [], a, h, h', hs, _ => by
      have hle := (h.2.bounds (fun y hy => hs y (List.mem_cons_of_mem x hy))).1
      have hx := hs x (List.mem_cons_self ..)
      rw [h.1, show a = b from h'] at hx
      exact absurd hx (not_lt.mpr hle)
  | x :: A, x' :: A', a, h, h', hs, hsub => by
      have hA : ∀ y ∈ A, lo y < hi y := fun y hy => hs y (List.mem_cons_of_mem x hy)
      have hx := hs x (List.mem_cons_self ..)
      have hbehind : ∀ y ∈ A, lo x < lo y := fun y hy => hx.trans_le ((h.2.bounds hA).2 y hy).1
      obtain rfl : x' = x := by
        rcases List.mem_cons.mp (hsub (List.mem_cons_self ..)) with heq | hmem
        · exact heq
        · exact absurd (h.1.trans h'.1.symm) (hbehind x' hmem).ne
      have hA' : ∀ y ∈ A', lo y < hi y :=
        fun y hy => hs y (hsub (List.mem_cons_of_mem x' hy))
      have hsub' : A' ⊆ A := by
        intro y hy
        rcases List.mem_cons.mp (hsub (List.mem_cons_of_mem x' hy)) with rfl | hmem
        · exact absurd hx (not_lt.mpr ((h'.2.bounds hA').2 y hy).1)
        · exact hmem
      rw [h.2.eq_of_subset h'.2 hA hsub']

/-- Neighbouring ranges meet. -/
theorem Spans.adjacent {a b : ℚ} {A B : List α} {x y : α} (h : Spans lo hi a (A ++ x :: y :: B) b) :
    hi x = lo y := by
  obtain ⟨c, _, _, h2⟩ := spans_append.mp h
  exact h2.1.symm

/-- A key inside a range lies below every key inside a range behind it. -/
theorem Spans.lt_of_inside {LO HI : ℚ} {A B : List α} {x y : α} {key key' : ℤ}
    (h : Spans lo hi LO (A ++ x :: B) HI) (hs : ∀ z ∈ A ++ x :: B, lo z < hi z) (hy : y ∈ B)
    (hx : Inside LO HI (lo x) (hi x) key) (hy' : Inside LO HI (lo y) (hi y) key') : key < key' := by
  have hxs := hs x (by simp)
  have hys := hs y (by simp [hy])
  have hB : ∀ z ∈ B, lo z < hi z := fun z hz => hs z (by simp [hz])
  obtain ⟨b, _, h1, h2⟩ := spans_append.mp h
  obtain ⟨h3, h4⟩ := h2.bounds hB
  obtain ⟨h5, h6⟩ := h4 y hy
  obtain ⟨h7, _⟩ := (h.bounds hs).2 x (by simp)
  have hlt : (key : ℚ) < key' := by
    rcases hx.2 with hk | hk
    · rcases hy'.1 with hk' | hk' <;> linarith
    · linarith
  exact_mod_cast hlt

/-- A key is inside at most one of two ranges of which one lies behind the other. -/
theorem Spans.not_both {LO HI : ℚ} {A B : List α} {x y : α} {key : ℤ}
    (h : Spans lo hi LO (A ++ x :: B) HI) (hs : ∀ z ∈ A ++ x :: B, lo z < hi z) (hy : y ∈ B)
    (hx : Inside LO HI (lo x) (hi x) key) : ¬ Inside LO HI (lo y) (hi y) key := fun hin =>
  lt_irrefl _ (h.lt_of_inside hs hy hx hin)

/-- A key is inside at most one of consecutive ranges. -/
theorem Spans.unique {LO HI : ℚ} {l : List α} {x y : α} {key : ℤ} (h : Spans lo hi LO l HI)
    (hs : ∀ z ∈ l, lo z < hi z) (hx : x ∈ l) (hy : y ∈ l)
    (hix : Inside LO HI (lo x) (hi x) key) (hiy : Inside LO HI (lo y) (hi y) key) : x = y := by
  obtain ⟨A, B, rfl⟩ := List.append_of_mem hx
  rcases List.mem_append.mp hy with hA | hxB
  · obtain ⟨A₁, A₂, rfl⟩ := List.append_of_mem hA
    rw [List.append_assoc, List.cons_append] at h hs
    exact absurd hix (h.not_both hs (by simp) hiy)
  · rcases List.mem_cons.mp hxB with rfl | hB
    · rfl
    · exact absurd hiy (h.not_both hs hB hix)

end

end LearnedIndex.Chains
