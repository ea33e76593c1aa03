import LearnedIndex.Alexol.DoublesDescent
import LearnedIndex.Alexol.PointOps

/-! # Calls with doubles

`get_payload` and `insert` where the doubles choose the leaf and compute a new root.  Where they
lead the key to the leaf that exact arithmetic leads it to, both calls are the exact ones
(`getPayloadOn_eq`, `insertOn_eq`). -/

namespace LearnedIndex.Alexol.Index

variable {M P : Type} [NodeModel M]

/-- `get_payload`; the doubles choose the leaf. -/
def getPayloadOn (D : Doubles) (s : Index M P) (key : ℤ) : Option (Option P × Index M P) := do
  let leaf ← s.getLeafOn D key
  let n ← s.heap.dataAt leaf
  match ← n.findPayload key with
  | (some found, n) => some (found, { s with heap := s.heap.setData leaf n })
  | (none, _) => none

/-- One round of `insert`; the doubles choose the leaf.  The models and boundaries of a split are
exact. -/
def insertRoundOn (D : Doubles) (C : Params M P) (s : Index M P) (key : ℤ) (payload : P) :
    Option (Index M P × Option Bool) := do
  let s ← expandDomain D C s key
  let leaf ← s.getLeafOn D key
  let n ← s.heap.dataAt leaf
  let (n, fail, _) ← n.insert false key payload
  afterInsert C { s with heap := s.heap.setData leaf n } leaf key fail

/-- `insert`, with a bound on the number of retries. -/
def insertOn (D : Doubles) (C : Params M P) : ℕ → Index M P → ℤ → P → Option (Bool × Index M P)
  | 0, _, _, _ => none
  | fuel + 1, s, key, payload => do
      match ← insertRoundOn D C s key payload with
      | (s, some inserted) => some (inserted, s)
      | (s, none) => insertOn D C fuel s key payload

/-- The doubles lead the key to the leaf that exact arithmetic leads it to. -/
def leads (D : Doubles) (s : Index M P) (key : ℤ) : Bool :=
  decide (s.getLeafOn D key = s.getLeaf key)

variable {D : Doubles} {C : Params M P} {s : Index M P} {key : ℤ}

omit [NodeModel M] in
theorem getLeafOn_congr {s' : Index M P} (hheap : s'.heap = s.heap)
    (hroot : s'.rootNode = s.rootNode) : s'.getLeafOn D key = s.getLeafOn D key := by
  unfold getLeafOn
  rw [hheap, hroot]

theorem getPayloadOn_eq (h : s.leads D key = true) : s.getPayloadOn D key = s.getPayload key := by
  unfold getPayloadOn
  rw [of_decide_eq_true h]
  rfl

theorem insertRoundOn_eq (h : s.leads D key = true) (hdomain : s.keepsDomain key = true)
    (payload : P) : insertRoundOn D C s key payload = insertRound C s key payload := by
  obtain ⟨s₁, hexp, hheap, hroot, -⟩ := expandDomain_keeps (C := C) hdomain
  have hleaf : s₁.getLeafOn D key = s₁.getLeaf key := by
    rw [← getLeafOn_exact, getLeafOn_congr hheap hroot, getLeafOn_congr hheap hroot,
      getLeafOn_exact]
    exact of_decide_eq_true h
  unfold insertRoundOn insertRound
  simp only [hexp, hleaf, Option.bind_eq_bind, Option.bind_some]

/-- An insert that is done after one round. -/
theorem insertOn_eq {payload : P} {r : Bool × Index M P} (h : s.leads D key = true)
    (hdomain : s.keepsDomain key = true) (hone : insert C 1 s key payload = some r)
    (retries : ℕ) : insertOn D C (retries + 1) s key payload = some r := by
  unfold insert at hone
  obtain ⟨⟨s₁, answer⟩, hround, hone⟩ := Option.bind_eq_some_iff.mp hone
  rw [insertOn, insertRoundOn_eq h hdomain, hround, Option.bind_eq_bind, Option.bind_some]
  cases answer with
  | none => cases hone
  | some inserted => exact hone

end LearnedIndex.Alexol.Index
