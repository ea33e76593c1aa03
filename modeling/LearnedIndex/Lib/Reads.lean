import LearnedIndex.Lib.Search

/-! # Computations that read memory one cell at a time

A value of `Reads V R` is a computation that reads cells, each with its own type of values, and
ends with a result of type `R`; other threads may write the memory between two reads.  On a memory
that does not change it is the function `eval`, and one read of a cell leaves `eval` alone
(`eval_read`).

The searches of `Search` are given as such computations, with the same result on a fixed memory
(`eval_exponentialSearch`). -/

namespace LearnedIndex

/-- A computation that reads cells of the types `V` and returns a value of type `R`. -/
inductive Reads {C : Type} (V : C → Type) (R : Type) where
  | ret (r : R)
  | stuck
  | read (c : C) (next : V c → Reads V R)

namespace Reads

variable {C : Type} {V : C → Type} {R S : Type}

/-- The result on a memory that does not change. -/
def eval (mem : ∀ c, Option (V c)) : Reads V R → Option R
  | ret r => some r
  | stuck => none
  | read c next => (mem c).bind (fun x => (next x).eval mem)

def bind : Reads V R → (R → Reads V S) → Reads V S
  | ret r, f => f r
  | stuck, _ => stuck
  | read c next, f => read c (fun x => (next x).bind f)

/-- Read one cell. -/
def cell (c : C) : Reads V (V c) := read c ret

variable {mem : ∀ c, Option (V c)}

@[simp] theorem eval_ret (r : R) : (ret r : Reads V R).eval mem = some r := rfl

@[simp] theorem eval_stuck : (stuck : Reads V R).eval mem = none := rfl

/-- A read of a cell whose value is known. -/
theorem eval_read {c : C} {x : V c} (next : V c → Reads V R) (h : mem c = some x) :
    (read c next).eval mem = (next x).eval mem :=
  (congrArg (fun o => o.bind (fun x => (next x).eval mem)) h).trans (Option.bind_some ..)

@[simp] theorem eval_cell (c : C) : (cell c : Reads V (V c)).eval mem = mem c := by
  unfold cell eval
  cases h : mem c with
  | none => rfl
  | some x => rfl

@[simp] theorem eval_bind (x : Reads V R) (f : R → Reads V S) :
    (x.bind f).eval mem = (x.eval mem).bind (fun r => (f r).eval mem) := by
  induction x with
  | ret r => rfl
  | stuck => rfl
  | read c next ih =>
      show (mem c).bind (fun x => ((next x).bind f).eval mem) =
        ((mem c).bind (fun x => (next x).eval mem)).bind (fun r => (f r).eval mem)
      rw [Option.bind_assoc]
      exact congrArg _ (funext ih)

/-! ### Searches -/

def binarySearch (below : ℕ → Reads V Bool) : ℕ → ℕ → ℕ → Reads V ℕ
  | 0, l, r => if l < r then stuck else ret l
  | fuel + 1, l, r =>
      if l < r then
        let mid := l + (r - l) / 2
        (below mid).bind (fun b =>
          if b then binarySearch below fuel (mid + 1) r else binarySearch below fuel l mid)
      else ret l

def doubleBound (size : ℕ) (test : ℕ → Reads V Bool) : ℕ → ℕ → Reads V ℕ
  | 0, bound => if bound < size then stuck else ret bound
  | fuel + 1, bound =>
      if bound < size then
        (test bound).bind (fun b => if b then doubleBound size test fuel (bound * 2) else ret bound)
      else ret bound

def exponentialSearch (below : ℕ → Reads V Bool) (cap m : ℕ) : Reads V ℕ :=
  (below m).bind (fun b =>
    if b then
      (doubleBound (cap - m) (fun b => below (m + b)) (cap - m) 1).bind (fun bound =>
        binarySearch below cap (m + bound / 2) (m + min bound (cap - m)))
    else
      (doubleBound m (fun b => (below (m - b)).bind (fun x => ret (!x))) m 1).bind (fun bound =>
        binarySearch below cap (m - min bound m) (m - bound / 2)))

theorem eval_binarySearch (below : ℕ → Reads V Bool) (fuel l r : ℕ) :
    (binarySearch below fuel l r).eval mem =
      Search.binarySearch (fun i => (below i).eval mem) fuel l r := by
  induction fuel generalizing l r with
  | zero =>
      unfold binarySearch Search.binarySearch
      split <;> rfl
  | succ fuel ih =>
      unfold binarySearch Search.binarySearch
      split
      · rw [eval_bind]
        refine congrArg _ (funext fun b => ?_)
        cases b with
        | false => exact ih _ _
        | true => exact ih _ _
      · rfl

theorem eval_doubleBound (size : ℕ) (test : ℕ → Reads V Bool) (fuel bound iters : ℕ) :
    (doubleBound size test fuel bound).eval mem =
      (Search.doubleBound size (fun i => (test i).eval mem) fuel bound iters).map Prod.fst := by
  induction fuel generalizing bound iters with
  | zero =>
      unfold doubleBound Search.doubleBound
      split <;> rfl
  | succ fuel ih =>
      unfold doubleBound Search.doubleBound
      split
      · rw [eval_bind, Option.bind_eq_bind, Option.map_bind]
        refine congrArg _ (funext fun b => ?_)
        cases b with
        | false => rfl
        | true => exact ih _ _
      · rfl

/-- On a fixed memory the stepwise search is the search. -/
theorem eval_exponentialSearch (below : ℕ → Reads V Bool) (cap m : ℕ) :
    (exponentialSearch below cap m).eval mem =
      (Search.exponentialSearch (fun i => (below i).eval mem) cap m).map Prod.fst := by
  unfold exponentialSearch Search.exponentialSearch
  rw [eval_bind, Option.bind_eq_bind, Option.map_bind]
  refine congrArg _ (funext fun b => ?_)
  cases b with
  | false =>
      have htest : (fun i => ((below (m - i)).eval mem).bind
          (fun x => (ret (!x) : Reads V Bool).eval mem)) =
          fun i => ((below (m - i)).eval mem).map not := by
        funext i
        rw [Option.map_eq_bind]
        rfl
      simp only [Bool.false_eq_true, if_false, Function.comp_apply, eval_bind, eval_binarySearch,
        eval_doubleBound _ _ _ _ 0, Option.bind_eq_bind, Option.map_bind, Option.bind_map]
      rw [htest]
      refine congrArg _ (funext fun x => ?_)
      simp
  | true =>
      simp only [if_true, Function.comp_apply, eval_bind, eval_binarySearch,
        eval_doubleBound _ _ _ _ 0, Option.bind_eq_bind, Option.map_bind, Option.bind_map]
      refine congrArg _ (funext fun x => ?_)
      simp

end Reads

end LearnedIndex
