import Mathlib.Data.Fintype.Card
import Mathlib.Data.List.Basic

/-! # Machines that take one action at a time

A machine is a partial step function `step : σ → α → Option σ`; an action that is not enabled in a
state has no successor there.  `Run step ok s t` says that `t` is reached from `s` by enabled
actions each of which satisfies `ok` in the state before it, and `exec` runs a given list of
actions.

An invariant is proved by showing that one step preserves it (`Run.invariant`).  For machines whose
state is a position for each of finitely many threads, `count` is the number of threads at positions
of a kind, and a step of one thread changes it by at most one (`count_update`). -/

namespace LearnedIndex.Machine

variable {σ α : Type}

/-- The state `t` is reached from `s` by actions that satisfy `ok`. -/
inductive Run (step : σ → α → Option σ) (ok : σ → α → Prop) (s : σ) : σ → Prop
  | refl : Run step ok s s
  | tail {t u : σ} {a : α} : Run step ok s t → ok t a → step t a = some u → Run step ok s u

/-- Any enabled action. -/
def Any : σ → α → Prop := fun _ _ => True

instance (s : σ) (a : α) : Decidable (Any s a) := isTrue trivial

variable {step : σ → α → Option σ} {ok ok' : σ → α → Prop} {s t u : σ}

/-- What every allowed step preserves holds in every state that is reached. -/
theorem Run.invariant {I : σ → Prop} (h : Run step ok s t) (h0 : I s)
    (hstep : ∀ t a u, I t → ok t a → step t a = some u → I u) : I t := by
  induction h with
  | refl => exact h0
  | tail _ ha hu ih => exact hstep _ _ _ ih ha hu

theorem Run.mono (h : Run step ok s t) (hok : ∀ t a, ok t a → ok' t a) : Run step ok' s t := by
  induction h with
  | refl => exact .refl
  | tail _ ha hu ih => exact .tail ih (hok _ _ ha) hu

theorem Run.trans (h : Run step ok s t) (h' : Run step ok t u) : Run step ok s u := by
  induction h' with
  | refl => exact h
  | tail _ ha hu ih => exact .tail ih ha hu

theorem Run.head {a : α} (ha : ok s a) (ht : step s a = some t) (h : Run step ok t u) :
    Run step ok s u := (Run.tail .refl ha ht).trans h

/-- If some allowed step leaves less to do whenever the goal is not reached, then a run of such
steps reaches it. -/
theorem Run.completes {μ : Type} [Preorder μ] [WellFoundedLT μ] {I goal : σ → Prop}
    (left : σ → μ) (hstep : ∀ s, I s → ¬ goal s →
      ∃ a t, ok s a ∧ step s a = some t ∧ I t ∧ left t < left s) (s : σ) (hs : I s) :
    ∃ t, Run step ok s t ∧ I t ∧ goal t := by
  induction hm : left s using WellFoundedLT.induction generalizing s with
  | ind m ih =>
      by_cases hgoal : goal s
      · exact ⟨s, .refl, hs, hgoal⟩
      · obtain ⟨a, t, ha, ht, hI, hlt⟩ := hstep s hs hgoal
        obtain ⟨u, hu, hIu, hgu⟩ := ih (left t) (hm ▸ hlt) t hI rfl
        exact ⟨u, hu.head ha ht, hIu, hgu⟩

/-- Run a list of actions. -/
def exec (step : σ → α → Option σ) (s : σ) (l : List α) : Option σ := l.foldlM step s

theorem exec_cons (step : σ → α → Option σ) (s : σ) (a : α) (l : List α) :
    exec step s (a :: l) = (step s a).bind (fun t => exec step t l) := rfl

/-- A list of actions that all satisfy a condition on actions is a run. -/
theorem run_of_exec {p : α → Prop} : ∀ {l : List α} {s t : σ}, exec step s l = some t →
    (∀ a ∈ l, p a) → Run step (fun _ a => p a) s t
  | [], s, t, h, _ => by
      obtain rfl : s = t := Option.some.inj h
      exact .refl
  | a :: l, s, t, h, hp => by
      rw [exec_cons] at h
      obtain ⟨s', hs', hrest⟩ := Option.bind_eq_some_iff.mp h
      have hfirst : Run step (fun _ a => p a) s s' :=
        .tail .refl (hp a (List.mem_cons_self ..)) hs'
      exact hfirst.trans (run_of_exec hrest (fun b hb => hp b (List.mem_cons_of_mem a hb)))

/-- A list of actions that are all allowed in their states is a run. -/
theorem run_of_exec_allowed [∀ s a, Decidable (ok s a)] {l : List α}
    (h : exec (fun s a => if ok s a then step s a else none) s l = some t) : Run step ok s t := by
  have hrun := run_of_exec (p := fun _ => True) h (fun _ _ => trivial)
  clear h
  induction hrun with
  | refl => exact .refl
  | tail _ _ hu ih =>
      split at hu
      · rename_i hok
        exact .tail ih hok hu
      · cases hu

/-! ### Counting threads -/

section
variable {ι β : Type} [Fintype ι]

/-- The number of threads at positions with the property `p`. -/
def count (p : β → Bool) (f : ι → β) : ℕ := (Finset.univ.filter (fun i => p (f i) = true)).card

theorem count_le (p : β → Bool) (f : ι → β) : count p f ≤ Fintype.card ι :=
  Finset.card_le_univ _

/-- One thread moves. -/
theorem count_update [DecidableEq ι] (p : β → Bool) (f : ι → β) (i : ι) (x : β) :
    count p (Function.update f i x) + (p (f i)).toNat = count p f + (p x).toNat := by
  have hsplit : ∀ g : ι → β, (∀ j, j ≠ i → g j = f j) → count p g =
      ((Finset.univ.erase i).filter (fun j => p (f j) = true)).card + (p (g i)).toNat := by
    intro g hg
    unfold count
    rw [← Finset.insert_erase (Finset.mem_univ i), Finset.filter_insert]
    have hrest : (Finset.univ.erase i).filter (fun j => p (g j) = true) =
        (Finset.univ.erase i).filter (fun j => p (f j) = true) := by
      refine Finset.filter_congr (fun j hj => ?_)
      rw [hg j (Finset.ne_of_mem_erase hj)]
    rw [Finset.erase_insert (Finset.notMem_erase i _)]
    cases hp : p (g i) with
    | false => rw [if_neg (by simp), hrest]; rfl
    | true =>
        rw [if_pos rfl, hrest, Finset.card_insert_of_notMem (by simp)]
        rfl
  rw [hsplit _ (fun j hj => Function.update_of_ne hj ..), hsplit f (fun _ _ => rfl),
    Function.update_self]
  omega

theorem count_pos {p : β → Bool} {f : ι → β} {i : ι} (h : p (f i) = true) : 0 < count p f :=
  Finset.card_pos.mpr ⟨i, by simpa using h⟩

/-- A thread that is not counted leaves room for one more. -/
theorem count_lt {p : β → Bool} {f : ι → β} {i : ι} (h : p (f i) = false) :
    count p f < Fintype.card ι := by
  refine Finset.card_lt_univ_of_notMem (x := i) ?_
  simp [h]

theorem count_eq_zero {p : β → Bool} {f : ι → β} : count p f = 0 ↔ ∀ i, p (f i) = false := by
  unfold count
  simp [Finset.filter_eq_empty_iff]

end

end LearnedIndex.Machine
