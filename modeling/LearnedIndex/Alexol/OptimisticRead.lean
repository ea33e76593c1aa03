import LearnedIndex.Lib.Machine
import LearnedIndex.Lib.Reads
import LearnedIndex.Alexol.Leaf

/-! # Optimistic reads of a data node (`alex_nodes.h`)

One `find_payload` and any number of threads that `insert`, `update` and `erase` on one data node.
Every operation on `lock_` and every read or write of a slot is one action.

* The reader loads the version, reads slots one at a time (`Reads`), and compares the version at
  the end.
* A writer loads the lock word, swaps it, and then owns the node.  While it does, it may write any
  slot, bitmap word or counter, in any order; it comes to its release only with the contents that
  its operation computes from those it found, and an insert that ends with a flag to resize or split
  never releases.
* The counters of lookups and search steps are not protected: they may take any values.

A version never comes back (`Moved`): a release counts it up, and the release of the largest version
leaves a word whose lock bit is set for ever. -/

namespace LearnedIndex.Alexol.OptimisticRead

open LearnedIndex.Machine LearnedIndex.Words

/-! ### The reads of `find_payload` -/

/-- The cells that a lookup reads. -/
inductive Cell where
  | key (pos : ℕ)
  | payload (pos : ℕ)

def Cell.Val (P : Type) : Cell → Type
  | key _ => ℤ
  | payload _ => P

variable {M P : Type}

/-- The cells of a slot array. -/
def cells (s : Slots P) : ∀ c : Cell, Option (c.Val P)
  | .key pos => s.keyAt pos
  | .payload pos => s.payloadAt pos

def keyCell (pos : ℕ) : Reads (Cell.Val P) ℤ := Reads.cell (Cell.key pos)

def payloadCell (pos : ℕ) : Reads (Cell.Val P) P := Reads.cell (Cell.payload pos)

/-- The slot reads of `find_payload` between its two loads of the version, for a key of the
node.  The model and the capacity do not change in critical sections. -/
def search [NodeModel M] (n : DataNode M P) (key : ℤ) : Reads (Cell.Val P) (Option P) :=
  (Reads.exponentialSearch
    (fun i => (keyCell i).bind (fun x => .ret (decide ((x : ℚ) ≤ (key : ℚ)))))
    n.dataCapacity (n.predictPosition key)).bind (fun c =>
      if c = 0 then .ret none
      else (keyCell (c - 1)).bind (fun k =>
        if k = key then (payloadCell (c - 1)).bind (fun p => .ret (some p)) else .ret none))

theorem eval_keyCell (s : Slots P) (pos : ℕ) : (keyCell pos).eval (cells s) = s.keyAt pos :=
  Reads.eval_cell (Cell.key pos)

theorem eval_payloadCell (s : Slots P) (pos : ℕ) :
    (payloadCell pos).eval (cells s) = s.payloadAt pos :=
  Reads.eval_cell (Cell.payload pos)

theorem eval_below (s : Slots P) (key : ℤ) :
    (fun i => ((keyCell i).bind (fun x => (Reads.ret (decide ((x : ℚ) ≤ (key : ℚ))) :
      Reads (Cell.Val P) Bool))).eval (cells s)) =
      fun i => (s.keyAt i).map (fun x : ℤ => decide ((x : ℚ) ≤ (key : ℚ))) := by
  funext i
  rw [Reads.eval_bind, eval_keyCell, Option.map_eq_bind]
  rfl

/-- On slots that do not change, the reads find what `find_payload` finds. -/
theorem eval_search [NodeModel M] {n m : DataNode M P} {key : ℤ} {r : Option P}
    (h : n.findPayload key = some (some r, m)) :
    (search n key).eval (cells n.toSlots) = some r := by
  cases hset : isSet n.lock with
  | true =>
      unfold DataNode.findPayload at h
      rw [if_pos hset] at h
      cases h
  | false =>
      unfold DataNode.findPayload DataNode.findKey DataNode.upperBound
        DataNode.exponentialSearchUpperBound at h
      rw [if_neg (by simp [hset])] at h
      obtain ⟨⟨pos, n'⟩, hpos, h⟩ := Option.bind_eq_some_iff.mp h
      obtain ⟨⟨c, n''⟩, hc, hpos⟩ := Option.bind_eq_some_iff.mp hpos
      obtain ⟨⟨c', iters⟩, hc', hce⟩ := Option.bind_eq_some_iff.mp hc
      cases hce
      have hsearch : (Search.exponentialSearch
          (fun i => (n.keyAt i).map (fun x : ℤ => decide ((x : ℚ) ≤ (key : ℚ))))
          n.dataCapacity (n.predictPosition key)).map Prod.fst = some c :=
        congrArg (Option.map Prod.fst) hc'
      unfold search
      rw [Reads.eval_bind, Reads.eval_exponentialSearch, eval_below, hsearch, Option.bind_some]
      simp only at hpos h
      split at hpos
      · rename_i hzero
        cases hpos
        rw [if_pos hzero]
        have h' : some (some none, _) = some (some r, m) := (if_pos rfl).symm.trans h
        cases h'
        rfl
      · rename_i hzero
        obtain ⟨k, hk, hpos⟩ := Option.bind_eq_some_iff.mp hpos
        rw [if_neg hzero, Reads.eval_bind, eval_keyCell, show n.keyAt (c - 1) = some k from hk,
          Option.bind_some]
        cases hpos
        split at h
        · rename_i hpos
          have hne : k ≠ key := by
            intro he
            rw [if_pos he] at hpos
            cases hpos
          have h' : some (some none, _) = some (some r, m) := (if_pos rfl).symm.trans h
          cases h'
          rw [if_neg hne]
          rfl
        · rename_i pos hpos
          obtain ⟨payload, hp, h⟩ := Option.bind_eq_some_iff.mp h
          obtain ⟨p, hpay, rfl⟩ := Option.map_eq_some_iff.mp hp
          have h' : some (some (some p), _) = some (some r, m) := (if_pos rfl).symm.trans h
          cases h'
          obtain ⟨he, hpos⟩ : k = key ∧ c - 1 = pos := by
            simpa [ite_eq_iff] using hpos
          rw [if_pos he, Reads.eval_bind, eval_payloadCell, hpos,
            show n.payloadAt pos = some p from hpay]
          rfl

/-! ### Writers -/

/-- The keys that may be stored: the largest value of the type is the sentinel. -/
def Key (T : KeyType) : Type := { key : ℤ // key < T.max }

/-- The operations with a critical section. -/
inductive Op (T : KeyType) (P : Type) where
  | insert (key : Key T) (payload : P)
  | update (key : Key T) (payload : P)
  | erase (key : Key T)

/-- The node after the operation ran alone, and whether it released the lock. -/
def Op.apply [NodeModel M] {T : KeyType} (n : DataNode M P) :
    Op T P → Option (DataNode M P × Bool)
  | insert key payload =>
      (n.insert false key.val payload).map (fun r => (r.1, decide (r.2.1 ≤ 0)))
  | update key payload => (n.update key.val payload).map (fun r => (r.2, true))
  | erase key => (n.erase T key.val).map (fun r => (r.2, true))

/-- The fields that `insert` and `erase` write beside the slots. -/
inductive Field where
  | numKeys
  | numShifts
  | numInserts
  | maxKey
  | minKey
  | numRightOutOfBoundsInserts
  | numLeftOutOfBoundsInserts
deriving DecidableEq

/-- One write of a critical section. -/
inductive Write (P : Type) where
  | key (pos : ℕ) (key : ℤ)
  | payload (pos : ℕ) (payload : P)
  | word (idx : ℕ) (word : Word)
  | field (f : Field) (value : ℤ)

def setField (n : DataNode M P) (value : ℤ) : Field → DataNode M P
  | .numKeys => { n with numKeys := value.toNat }
  | .numShifts => { n with numShifts := value.toNat }
  | .numInserts => { n with numInserts := value.toNat }
  | .maxKey => { n with maxKey := value }
  | .minKey => { n with minKey := value }
  | .numRightOutOfBoundsInserts => { n with numRightOutOfBoundsInserts := value.toNat }
  | .numLeftOutOfBoundsInserts => { n with numLeftOutOfBoundsInserts := value.toNat }

def Write.apply (n : DataNode M P) : Write P → Option (DataNode M P)
  | key pos k => (n.toSlots.setKey pos k).map (fun s => { n with toSlots := s })
  | payload pos p => (n.toSlots.setPayload pos p).map (fun s => { n with toSlots := s })
  | word idx w =>
      if idx < n.bitmap.length then some { n with bitmap := n.bitmap.set idx w } else none
  | field f value => some (setField n value f)

/-- Where a writing thread is. -/
inductive Writer (T : KeyType) (M P : Type) where
  | idle
  /-- `try_get_lock` has loaded a word without the lock bit. -/
  | loaded (op : Op T P) (v : LockWord)
  /-- Inside the critical section that found the node `begun`. -/
  | holding (op : Op T P) (begun : DataNode M P)
  /-- `release_lock` has loaded the lock word. -/
  | releasing (v : LockWord)

/-- The thread has set the lock bit. -/
def Writer.owns {T : KeyType} : Writer T M P → Bool
  | holding _ _ | releasing _ => true
  | _ => false

/-- Where the reading thread is. -/
inductive Reader (T : KeyType) (P : Type) where
  | idle
  | searching (key : Key T) (version : LockWord) (rest : Reads (Cell.Val P) (Option P))
  /-- `find_payload` has returned: its answer, and the payload if it found one. -/
  | returned (key : Key T) (answer : Bool) (found : Option P)

structure State (T : KeyType) (n : ℕ) (M P : Type) where
  node : DataNode M P
  writer : Fin n → Writer T M P
  reader : Reader T P

/-- Two nodes that agree but for the lock word and the unprotected counters. -/
def Agree (n m : DataNode M P) : Prop :=
  n = { m with
    lock := n.lock
    numLookups := n.numLookups
    numExpSearchIterations := n.numExpSearchIterations }

instance [DecidableEq M] [DecidableEq P] (n m : DataNode M P) : Decidable (Agree n m) :=
  inferInstanceAs (Decidable (_ = _))

/-- The atomic steps. -/
inductive Action (T : KeyType) (n : ℕ) (P : Type) where
  | tryGetLock (i : Fin n) (op : Op T P)
  | swap (i : Fin n)
  | write (i : Fin n) (w : Write P)
  /-- `release_lock` loads the word; the verdict of an insert saw the given counters. -/
  | loadToRelease (i : Fin n) (lookups iters : ℕ)
  | storeReleased (i : Fin n)
  | count (lookups iters : ℕ)
  | testLockSet (key : Key T)
  | read
  | testLockVersionChange

section machine
variable {T : KeyType} {n : ℕ}

def State.move (s : State T n M P) (i : Fin n) (w : Writer T M P) : State T n M P :=
  { s with writer := Function.update s.writer i w }

def State.setNode (s : State T n M P) (m : DataNode M P) : State T n M P := { s with node := m }

def State.setReader (s : State T n M P) (r : Reader T P) : State T n M P := { s with reader := r }

variable [NodeModel M] [DecidableEq M] [DecidableEq P]

def step (s : State T n M P) : Action T n P → Option (State T n M P)
  | .tryGetLock i op =>
      match s.writer i with
      | .idle =>
          if isSet s.node.lock then some s else some (s.move i (.loaded op s.node.lock))
      | _ => none
  | .swap i =>
      match s.writer i with
      | .loaded op v =>
          if s.node.lock = v &&& lockMask then
            some ((s.move i (.holding op s.node)).setNode { s.node with lock := v ||| lockSet })
          else some (s.move i .idle)
      | _ => none
  | .write i w =>
      match s.writer i with
      | .holding _ _ => (w.apply s.node).map s.setNode
      | _ => none
  | .loadToRelease i lookups iters =>
      match s.writer i with
      | .holding op begun => do
          let (result, released) ← op.apply (begun.withCounters lookups iters)
          if released ∧ Agree s.node result then some (s.move i (.releasing s.node.lock)) else none
      | _ => none
  | .storeReleased i =>
      match s.writer i with
      | .releasing v =>
          some ((s.move i .idle).setNode { s.node with lock := v + 1#32 - lockSet })
      | _ => none
  | .count lookups iters => some (s.setNode (s.node.withCounters lookups iters))
  | .testLockSet key =>
      match s.reader with
      | .idle =>
          if isSet s.node.lock then some (s.setReader (.returned key false none))
          else some (s.setReader (.searching key s.node.lock (search s.node key.val)))
      | _ => none
  | .read =>
      match s.reader with
      | .searching key version (.read c next) =>
          (cells s.node.toSlots c).map (fun x => s.setReader (.searching key version (next x)))
      | _ => none
  | .testLockVersionChange =>
      match s.reader with
      | .searching key version (.ret found) =>
          some (s.setReader (.returned key (decide (version = s.node.lock)) found))
      | _ => none

end machine

section invariant
variable {T : KeyType} {n : ℕ}

/-! ### The invariant -/

/-- The contents are those of a data node with room. -/
def WellFormed (T : KeyType) (m : DataNode M P) : Prop := m.Stores T ∧ m.Room

theorem WellFormed.congr {m m' : DataNode M P} (h : WellFormed T m) (hs : m'.toSlots = m.toSlots)
    (hn : m'.numKeys = m.numKeys) (ht : m'.expansionThreshold = m.expansionThreshold) :
    WellFormed T m' :=
  ⟨h.1.congr hs hn, h.2.congr hn ht (congrArg Slots.dataCapacity hs)⟩

/-- An operation that releases the lock leaves a well-formed node. -/
theorem Op.apply_wellFormed [NodeModel M] {op : Op T P} {m m' : DataNode M P} (h : WellFormed T m)
    (hl : isSet m.lock = false) (ha : op.apply m = some (m', true)) : WellFormed T m' := by
  cases op with
  | insert key payload =>
      obtain ⟨⟨r, fail, i⟩, hi, hr⟩ := Option.map_eq_some_iff.mp ha
      obtain ⟨rfl, hfail⟩ := Prod.mk.inj hr
      rcases h.1.insert h.2 hl key.property payload with
        ⟨_, r', i', hi', hs, hroom, _⟩ | ⟨_, r', fail', i', A, B, hi', hs, _, _, _, hend⟩
      · rw [hi'] at hi
        cases hi
        exact ⟨hs, hroom⟩
      · rw [hi'] at hi
        cases hi
        rcases hend with ⟨_, hroom, _⟩ | ⟨hwork, _⟩
        · exact ⟨hs, hroom⟩
        · have hle : fail ≤ 0 := of_decide_eq_true hfail
          unfold DataNode.NeedsWork at hwork
          omega
  | update key payload =>
      obtain ⟨⟨r, m''⟩, hu, hr⟩ := Option.map_eq_some_iff.mp ha
      cases hr
      obtain ⟨r', n', hu', hs, hroom, _⟩ := h.1.update h.2 hl key.property payload
      rw [hu'] at hu
      cases hu
      exact ⟨hs, hroom⟩
  | erase key =>
      obtain ⟨⟨r, m''⟩, he, hr⟩ := Option.map_eq_some_iff.mp ha
      cases hr
      obtain ⟨d, n', he', hs, hroom, _⟩ := h.1.erase h.2 hl key.val
      rw [he'] at he
      cases he
      exact ⟨hs, hroom⟩

theorem and_lockMask {v : LockWord} (h : isSet v = false) : v &&& lockMask = v := by
  apply BitVec.eq_of_toNat_eq
  have hlt : ¬ 2 ^ 31 ≤ v.toNat := by
    rw [← isSet_iff_toNat, h]
    simp
  rw [toNat_and_lockMask]
  omega

/-- What is known about a writer. -/
def Writer.OK (m : DataNode M P) : Writer T M P → Prop
  | idle => True
  | loaded _ v => isSet v = false
  | holding _ begun => isSet begun.lock = false ∧ WellFormed T begun ∧
      m.lock = begun.lock ||| lockSet
  | releasing v => isSet v = true ∧ m.lock = v ∧ WellFormed T m

structure Inv (s : State T n M P) : Prop where
  free : isSet s.node.lock = false → WellFormed T s.node
  unique : ∀ i j, (s.writer i).owns = true → (s.writer j).owns = true → i = j
  ok : ∀ i, (s.writer i).OK s.node

/-- A well-formed node that nobody uses. -/
structure Initial (s : State T n M P) : Prop where
  node : WellFormed T s.node
  writer : ∀ i, s.writer i = .idle
  reader : s.reader = .idle

theorem Initial.inv {s : State T n M P} (h : Initial s) : Inv s := by
  refine ⟨fun _ => h.node, fun i j hi _ => ?_, fun i => ?_⟩
  · rw [h.writer i] at hi
    cases hi
  · rw [h.writer i]
    trivial

theorem Writer.OK.of_not_owns {m m' : DataNode M P} {w : Writer T M P} (h : w.OK m)
    (ho : w.owns = false) : w.OK m' := by
  cases w with
  | idle => trivial
  | loaded op v => exact h
  | holding op begun => cases ho
  | releasing v => cases ho

/-- The owner of the lock bit finds it set. -/
theorem Writer.OK.isSet {m : DataNode M P} {w : Writer T M P} (h : w.OK m) (ho : w.owns = true) :
    isSet m.lock = true := by
  cases w with
  | idle => cases ho
  | loaded op v => cases ho
  | holding op begun =>
      rw [h.2.2]
      exact isSet_or_lockSet _
  | releasing v =>
      rw [h.2.1]
      exact h.1

namespace Inv

variable {s t : State T n M P} {i : Fin n} {w : Writer T M P}

theorem not_owns (h : Inv s) (hl : isSet s.node.lock = false) (i : Fin n) :
    (s.writer i).owns = false := by
  cases ho : (s.writer i).owns with
  | false => rfl
  | true =>
      rw [(h.ok i).isSet ho] at hl
      cases hl

theorem others_not_own (h : Inv s) (ho : (s.writer i).owns = true) {j : Fin n} (hj : j ≠ i) :
    (s.writer j).owns = false := by
  cases hown : (s.writer j).owns with
  | false => rfl
  | true => exact absurd (h.unique j i hown ho) hj

/-- A step of one writer that leaves the node alone, or while no other writer owns it. -/
theorem moved (h : Inv s) (hw : t.writer = Function.update s.writer i w)
    (hfree : isSet t.node.lock = false → WellFormed T t.node) (hok : w.OK t.node)
    (hothers : t.node = s.node ∧ (w.owns = true → (s.writer i).owns = true) ∨
      ∀ j, j ≠ i → (s.writer j).owns = false) : Inv t := by
  have hself : t.writer i = w := by rw [hw, Function.update_self]
  have hother : ∀ j, j ≠ i → t.writer j = s.writer j := fun j hj => by
    rw [hw, Function.update_of_ne hj]
  have halone : w.owns = true → ∀ j, j ≠ i → (s.writer j).owns = false := by
    intro ho j hj
    rcases hothers with ⟨_, hi⟩ | hothers
    · exact h.others_not_own (hi ho) hj
    · exact hothers j hj
  refine ⟨hfree, fun j k hj hk => ?_, fun j => ?_⟩
  · rcases eq_or_ne j i with rfl | hji
    · rcases eq_or_ne k j with rfl | hki
      · rfl
      · rw [hself] at hj
        rw [hother k hki, halone hj k hki] at hk
        cases hk
    · rw [hother j hji] at hj
      rcases eq_or_ne k i with rfl | hki
      · rw [hself] at hk
        rw [halone hk j hji] at hj
        cases hj
      · rw [hother k hki] at hk
        exact h.unique j k hj hk
  · rcases eq_or_ne j i with rfl | hji
    · rw [hself]
      exact hok
    · rw [hother j hji]
      rcases hothers with ⟨hnode, _⟩ | hothers
      · rw [hnode]
        exact h.ok j
      · exact (h.ok j).of_not_owns (hothers j hji)

end Inv

/-- The invariant only sees the writers and the node up to the unprotected counters. -/
theorem Inv.congr {s t : State T n M P} (h : Inv s) (hw : t.writer = s.writer)
    (hl : t.node.lock = s.node.lock) (hs : t.node.toSlots = s.node.toSlots)
    (hn : t.node.numKeys = s.node.numKeys)
    (ht : t.node.expansionThreshold = s.node.expansionThreshold) : Inv t := by
  refine ⟨fun hfree => ?_, fun i j => ?_, fun i => ?_⟩
  · rw [hl] at hfree
    exact (h.free hfree).congr hs hn ht
  · rw [hw]
    exact h.unique i j
  · have hok := h.ok i
    rw [hw]
    cases hi : s.writer i with
    | idle => trivial
    | loaded op v =>
        rw [hi] at hok
        exact hok
    | holding op begun =>
        rw [hi] at hok
        exact ⟨hok.1, hok.2.1, hl.trans hok.2.2⟩
    | releasing v =>
        rw [hi] at hok
        exact ⟨hok.1, hl.trans hok.2.1, hok.2.2.congr hs hn ht⟩

theorem Write.apply_lock {m m' : DataNode M P} {w : Write P} (h : w.apply m = some m') :
    m'.lock = m.lock := by
  cases w with
  | key pos k =>
      obtain ⟨s, _, rfl⟩ := Option.map_eq_some_iff.mp h
      rfl
  | payload pos p =>
      obtain ⟨s, _, rfl⟩ := Option.map_eq_some_iff.mp h
      rfl
  | word idx w =>
      obtain ⟨_, h⟩ := Option.ite_none_right_eq_some.mp h
      cases h
      rfl
  | field f value =>
      cases h
      cases f <;> rfl

variable [NodeModel M]

/-- What a step of the reader does. -/
inductive ReaderEffect (s : State T n M P) : Reader T P → Prop
  | refused (key : Key T) (hr : s.reader = .idle) (hl : isSet s.node.lock = true) :
      ReaderEffect s (.returned key false none)
  | called (key : Key T) (hr : s.reader = .idle) (hl : isSet s.node.lock = false) :
      ReaderEffect s (.searching key s.node.lock (search s.node key.val))
  | read {key : Key T} {version : LockWord} {c : Cell} {x : c.Val P}
      {next : c.Val P → Reads (Cell.Val P) (Option P)}
      (hr : s.reader = .searching key version (.read c next))
      (hx : cells s.node.toSlots c = some x) : ReaderEffect s (.searching key version (next x))
  | checked {key : Key T} {version : LockWord} {found : Option P}
      (hr : s.reader = .searching key version (.ret found)) :
      ReaderEffect s (.returned key (decide (version = s.node.lock)) found)

/-- What a step does. -/
inductive Effect (s : State T n M P) : State T n M P → Prop
  | wait : Effect s s
  | load {i : Fin n} {op : Op T P} (hi : (s.writer i).owns = false)
      (hl : isSet s.node.lock = false) : Effect s (s.move i (.loaded op s.node.lock))
  | giveUp {i : Fin n} (hi : (s.writer i).owns = false) : Effect s (s.move i .idle)
  | acquire {i : Fin n} {op : Op T P} {v : LockWord} (hi : s.writer i = .loaded op v)
      (hl : s.node.lock = v &&& lockMask) :
      Effect s ((s.move i (.holding op s.node)).setNode { s.node with lock := v ||| lockSet })
  | write {i : Fin n} {op : Op T P} {begun m : DataNode M P} {w : Write P}
      (hi : s.writer i = .holding op begun) (hm : w.apply s.node = some m) :
      Effect s (s.setNode m)
  | finish {i : Fin n} {op : Op T P} {begun m : DataNode M P} {lookups iters : ℕ}
      (hi : s.writer i = .holding op begun)
      (hm : op.apply (begun.withCounters lookups iters) = some (m, true))
      (ha : Agree s.node m) : Effect s (s.move i (.releasing s.node.lock))
  | release {i : Fin n} {v : LockWord} (hi : s.writer i = .releasing v) :
      Effect s ((s.move i .idle).setNode { s.node with lock := v + 1#32 - lockSet })
  | count (lookups iters : ℕ) : Effect s (s.setNode (s.node.withCounters lookups iters))
  | reader {r : Reader T P} (hr : ReaderEffect s r) : Effect s (s.setReader r)

theorem step_effect [DecidableEq P] [DecidableEq M] {s t : State T n M P} {a : Action T n P}
    (ht : step s a = some t) :
    Effect s t := by
  cases a with
  | tryGetLock i op =>
      simp only [step] at ht
      split at ht
      · rename_i hi
        split at ht
        · cases ht
          exact .wait
        · rename_i hl
          cases ht
          exact .load (by rw [hi]; rfl) (by simpa using hl)
      · cases ht
  | swap i =>
      simp only [step] at ht
      split at ht
      · rename_i op v hi
        split at ht
        · rename_i hl
          cases ht
          exact .acquire hi hl
        · cases ht
          exact .giveUp (by rw [hi]; rfl)
      · cases ht
  | write i w =>
      simp only [step] at ht
      split at ht
      · rename_i op begun hi
        obtain ⟨m, hm, rfl⟩ := Option.map_eq_some_iff.mp ht
        exact .write hi hm
      · cases ht
  | loadToRelease i lookups iters =>
      simp only [step] at ht
      split at ht
      · rename_i op begun hi
        obtain ⟨⟨m, released⟩, hm, ht⟩ := Option.bind_eq_some_iff.mp ht
        obtain ⟨⟨hrel, hagree⟩, ht⟩ := Option.ite_none_right_eq_some.mp ht
        cases ht
        obtain rfl : released = true := hrel
        exact .finish hi hm hagree
      · cases ht
  | storeReleased i =>
      simp only [step] at ht
      split at ht
      · rename_i v hi
        cases ht
        exact .release hi
      · cases ht
  | count lookups iters =>
      cases ht
      exact .count lookups iters
  | testLockSet key =>
      simp only [step] at ht
      split at ht
      · rename_i hr
        split at ht
        · rename_i hl
          cases ht
          exact .reader (.refused key hr hl)
        · rename_i hl
          cases ht
          exact .reader (.called key hr (by simpa using hl))
      · cases ht
  | read =>
      simp only [step] at ht
      split at ht
      · rename_i hr
        obtain ⟨x, hx, rfl⟩ := Option.map_eq_some_iff.mp ht
        exact .reader (.read hr hx)
      · cases ht
  | testLockVersionChange =>
      simp only [step] at ht
      split at ht
      · rename_i hr
        cases ht
        exact .reader (.checked hr)
      · cases ht

/-- One step preserves the invariant. -/
theorem Inv.effect {s t : State T n M P} (h : Inv s) (ht : Effect s t) : Inv t := by
  cases ht with
  | wait => exact h
  | load hi hl => exact h.moved rfl h.free hl (Or.inl ⟨rfl, fun ho => nomatch ho⟩)
  | giveUp hi => exact h.moved rfl h.free trivial (Or.inl ⟨rfl, fun ho => nomatch ho⟩)
  | @acquire i op v hi hl =>
      have hv := h.ok i
      rw [hi] at hv
      rw [and_lockMask hv] at hl
      subst hl
      refine h.moved rfl (fun hset => ?_) ⟨hv, h.free hv, rfl⟩ (Or.inr fun j _ => h.not_owns hv j)
      have hset' : isSet (s.node.lock ||| lockSet) = false := hset
      rw [isSet_or_lockSet] at hset'
      cases hset'
  | @write i op begun m w hi hm =>
      have ho : (s.writer i).owns = true := by rw [hi]; rfl
      have hlock := Write.apply_lock hm
      have hset : isSet m.lock = true := by
        rw [hlock]
        exact (h.ok i).isSet ho
      have hok := h.ok i
      refine h.moved (i := i) (Function.update_eq_self i s.writer).symm (fun hfree => ?_) ?_
        (Or.inr fun j hj => h.others_not_own ho hj)
      · rw [show isSet m.lock = false from hfree] at hset
        cases hset
      · rw [hi] at hok ⊢
        exact ⟨hok.1, hok.2.1, hlock.trans hok.2.2⟩
  | @finish i op begun m lookups iters hi hm ha =>
      have ho : (s.writer i).owns = true := by rw [hi]; rfl
      have hset := (h.ok i).isSet ho
      have hok := h.ok i
      rw [hi] at hok
      have hbegun : WellFormed T (begun.withCounters lookups iters) :=
        hok.2.1.congr rfl rfl rfl
      have hwf : WellFormed T s.node := by
        rw [ha]
        exact (Op.apply_wellFormed hbegun hok.1 hm).congr rfl rfl rfl
      exact h.moved rfl (fun _ => hwf) ⟨hset, rfl, hwf⟩ (Or.inl ⟨rfl, fun _ => ho⟩)
  | @release i v hi =>
      have ho : (s.writer i).owns = true := by rw [hi]; rfl
      have hok := h.ok i
      rw [hi] at hok
      exact h.moved rfl (fun _ => hok.2.2.congr rfl rfl rfl) trivial
        (Or.inr fun j hj => h.others_not_own ho hj)
  | count lookups iters => exact h.congr rfl rfl rfl rfl rfl
  | reader hr => exact h.congr rfl rfl rfl rfl rfl

/-! ### Versions never come back -/

/-- What a step does to the lock word: it leaves the word alone, and the slots too unless the lock
bit is set; or it sets the lock bit; or its owner counts the version up. -/
inductive LockEffect (s t : State T n M P) : Prop
  | quiet (lock : t.node.lock = s.node.lock)
      (owns : ∀ i, (t.writer i).owns = (s.writer i).owns)
      (slots : isSet s.node.lock = false → t.node.toSlots = s.node.toSlots)
  | acquire (free : isSet s.node.lock = false) (lock : t.node.lock = s.node.lock ||| lockSet)
  | release (i : Fin n) (owns : (s.writer i).owns = true)
      (lock : t.node.lock = s.node.lock + 1#32 - lockSet) (free : ∀ j, (t.writer j).owns = false)

omit [NodeModel M] in
theorem move_writer_self (s : State T n M P) (i : Fin n) (w : Writer T M P) :
    (s.move i w).writer i = w := by
  simp [State.move]

omit [NodeModel M] in
theorem move_writer_of_ne (s : State T n M P) {i j : Fin n} (hj : j ≠ i) (w : Writer T M P) :
    (s.move i w).writer j = s.writer j := by
  simp [State.move, hj]

omit [NodeModel M] in
theorem owns_move {s : State T n M P} {i : Fin n} {w : Writer T M P}
    (h : w.owns = (s.writer i).owns) (j : Fin n) :
    ((s.move i w).writer j).owns = (s.writer j).owns := by
  rcases eq_or_ne j i with rfl | hj
  · rw [move_writer_self, h]
  · rw [move_writer_of_ne s hj]

theorem Inv.lockEffect {s t : State T n M P} (h : Inv s) (ht : Effect s t) : LockEffect s t := by
  cases ht with
  | wait => exact .quiet rfl (fun _ => rfl) (fun _ => rfl)
  | load hi hl => exact .quiet rfl (owns_move hi.symm) (fun _ => rfl)
  | giveUp hi => exact .quiet rfl (owns_move hi.symm) (fun _ => rfl)
  | @acquire i op v hi hl =>
      have hv := h.ok i
      rw [hi] at hv
      rw [and_lockMask hv] at hl
      subst hl
      exact .acquire hv rfl
  | @write i op begun m w hi hm =>
      refine .quiet (Write.apply_lock hm) (fun _ => rfl) (fun hl => ?_)
      have ho := h.not_owns hl i
      rw [hi] at ho
      cases ho
  | @finish i op begun m lookups iters hi hm ha =>
      exact .quiet rfl (owns_move (by rw [hi]; rfl)) (fun _ => rfl)
  | @release i v hi =>
      have ho : (s.writer i).owns = true := by rw [hi]; rfl
      have hok := h.ok i
      rw [hi] at hok
      refine .release i ho (by rw [hok.2.1]; rfl) (fun j => ?_)
      rcases eq_or_ne j i with rfl | hj
      · exact congrArg Writer.owns (move_writer_self s j .idle)
      · exact (congrArg Writer.owns (move_writer_of_ne s hj .idle)).trans (h.others_not_own ho hj)
  | count lookups iters => exact .quiet rfl (fun _ => rfl) (fun _ => rfl)
  | reader hr => exact .quiet rfl (fun _ => rfl) (fun _ => rfl)

/-- The lock word has left the version `v` for good: a later version, or the lock bit, with an owner
at `v` or later or with no owner at all. -/
inductive Moved (v : LockWord) (s : State T n M P) : Prop
  | later (h : v.toNat < s.node.lock.toNat) (free : isSet s.node.lock = false)
  | owned (i : Fin n) (owns : (s.writer i).owns = true)
      (h : v.toNat + 2 ^ 31 ≤ s.node.lock.toNat)
  | stuck (set : isSet s.node.lock = true) (h : ∀ i, (s.writer i).owns = false)

theorem toNat_lt_of_free {v : LockWord} (h : isSet v = false) : v.toNat < 2 ^ 31 := by
  have : ¬ 2 ^ 31 ≤ v.toNat := by
    rw [← isSet_iff_toNat, h]
    simp
  omega

omit [NodeModel M] in
theorem Moved.lock_ne {v : LockWord} {s : State T n M P} (h : Moved v s) (hv : isSet v = false) :
    s.node.lock ≠ v := by
  rintro rfl
  cases h with
  | later h _ => omega
  | owned i _ h => omega
  | stuck hset _ =>
      rw [hv] at hset
      cases hset

omit [NodeModel M] in
/-- Setting the lock bit leaves the version. -/
theorem Moved.of_acquire {v : LockWord} {s t : State T n M P} (hv : v.toNat ≤ s.node.lock.toNat)
    (free : isSet s.node.lock = false) (lock : t.node.lock = s.node.lock ||| lockSet) :
    Moved v t := by
  have hlt := toNat_lt_of_free free
  have hset : isSet t.node.lock = true := by
    rw [lock]
    exact isSet_or_lockSet _
  have hword : t.node.lock.toNat = s.node.lock.toNat + 2 ^ 31 := by
    rw [lock, toNat_or_lockSet hlt]
  rcases Classical.em (∃ i, (t.writer i).owns = true) with ⟨i, hi⟩ | hnone
  · exact .owned i hi (by omega)
  · exact .stuck hset (fun i => by simpa using not_exists.mp hnone i)

theorem Moved.effect {v : LockWord} {s t : State T n M P} (hm : Moved v s) (h : Inv s)
    (ht : Effect s t) : Moved v t := by
  cases h.lockEffect ht with
  | quiet lock owns _ =>
      cases hm with
      | later hlt free => exact .later (by rw [lock]; exact hlt) (by rw [lock]; exact free)
      | owned i hi hle => exact .owned i (by rw [owns]; exact hi) (by rw [lock]; exact hle)
      | stuck hset hnone =>
          exact .stuck (by rw [lock]; exact hset) (fun i => by rw [owns]; exact hnone i)
  | acquire free lock =>
      cases hm with
      | later hlt _ => exact .of_acquire hlt.le free lock
      | owned i hi _ =>
          rw [h.not_owns free i] at hi
          cases hi
      | stuck hset _ =>
          rw [free] at hset
          cases hset
  | release i hi lock hnone =>
      cases hm with
      | later _ free =>
          rw [h.not_owns free i] at hi
          cases hi
      | stuck _ hnone' =>
          rw [hnone' i] at hi
          cases hi
      | owned j _ hle =>
          have hword : t.node.lock.toNat = s.node.lock.toNat + 1 - 2 ^ 31 := by
            have := s.node.lock.isLt
            have h1 : (1#32).toNat = 1 := rfl
            rw [lock, BitVec.toNat_sub, BitVec.toNat_add, toNat_lockSet, h1]
            omega
          -- the largest version has no successor: its release leaves the lock bit alone
          cases hset : isSet t.node.lock with
          | true => exact .stuck hset hnone
          | false => exact .later (by omega) hset

/-! ### Validated reads -/

/-- A state during or after the call that loaded its version in state `s`. -/
structure Call (s : State T n M P) (key : Key T) (t : State T n M P) : Prop where
  inv : Inv t
  reader : (∃ rest, t.reader = .searching key s.node.lock rest) ∨
    ∃ answer found, t.reader = .returned key answer found
  /-- The lock has left the version, or nothing has changed since it was loaded. -/
  same : Moved s.node.lock t ∨ t.node.lock = s.node.lock ∧ t.node.toSlots = s.node.toSlots ∧
    ∀ rest, t.reader = .searching key s.node.lock rest →
      rest.eval (cells s.node.toSlots) = (search s.node key.val).eval (cells s.node.toSlots)

/-- A step of the reader inside its call. -/
theorem Call.readerEffect {s t : State T n M P} {key : Key T} {r : Reader T P}
    (h : Call s key t) (hr : ReaderEffect t r) :
    ((∃ rest, r = .searching key s.node.lock rest) ∨
    ∃ answer found, r = .returned key answer found) ∧
      (t.node.toSlots = s.node.toSlots →
        ∀ rest, r = .searching key s.node.lock rest → ∃ rest',
          t.reader = .searching key s.node.lock rest' ∧
            rest.eval (cells s.node.toSlots) = rest'.eval (cells s.node.toSlots)) := by
  have hreader := h.reader
  cases hr with
  | refused _ hidle _ =>
      rw [hidle] at hreader
      rcases hreader with ⟨_, hr⟩ | ⟨_, _, hr⟩ <;> cases hr
  | called _ hidle _ =>
      rw [hidle] at hreader
      rcases hreader with ⟨_, hr⟩ | ⟨_, _, hr⟩ <;> cases hr
  | @read key' version c x next hr hx =>
      rw [hr] at hreader
      rcases hreader with ⟨_, hreader⟩ | ⟨_, _, hreader⟩
      · cases hreader
        refine ⟨Or.inl ⟨_, rfl⟩, fun hslots rest hrest => ⟨_, hr, ?_⟩⟩
        cases hrest
        rw [hslots] at hx
        exact (Reads.eval_read next hx).symm
      · cases hreader
  | @checked key' version found hr =>
      rw [hr] at hreader
      rcases hreader with ⟨_, hreader⟩ | ⟨_, _, hreader⟩
      · cases hreader
        exact ⟨Or.inr ⟨_, _, rfl⟩, fun _ rest hrest => nomatch hrest⟩
      · cases hreader

theorem Effect.reader_cases {s t : State T n M P} (ht : Effect s t) :
    t.reader = s.reader ∨ t.node = s.node ∧ ReaderEffect s t.reader := by
  cases ht with
  | reader hr => exact Or.inr ⟨rfl, hr⟩
  | _ => exact Or.inl rfl

theorem Call.effect {s t u : State T n M P} {key : Key T} (h : Call s key t)
    (hv : isSet s.node.lock = false) (hu : Effect t u) : Call s key u := by
  have hinv := h.inv.effect hu
  rcases h.same with hmoved | ⟨hlock, hslots, hrest⟩
  · refine ⟨hinv, ?_, Or.inl (hmoved.effect h.inv hu)⟩
    rcases hu.reader_cases with hr | ⟨_, hr⟩
    · rw [hr]
      exact h.reader
    · exact (h.readerEffect hr).1
  · have hfree : isSet t.node.lock = false := by rw [hlock]; exact hv
    have hreader : ((∃ rest, u.reader = .searching key s.node.lock rest) ∨
        ∃ answer found, u.reader = .returned key answer found) ∧
        ∀ rest, u.reader = .searching key s.node.lock rest →
          rest.eval (cells s.node.toSlots) =
            (search s.node key.val).eval (cells s.node.toSlots) := by
      rcases hu.reader_cases with hr | ⟨_, hr⟩
      · rw [hr]
        exact ⟨h.reader, hrest⟩
      · obtain ⟨hform, hback⟩ := h.readerEffect hr
        refine ⟨hform, fun rest hsearch => ?_⟩
        obtain ⟨rest', hr', heval⟩ := hback hslots rest hsearch
        exact heval.trans (hrest rest' hr')
    refine ⟨hinv, hreader.1, ?_⟩
    cases h.inv.lockEffect hu with
    | quiet lock _ slots =>
        exact Or.inr ⟨lock.trans hlock, (slots hfree).trans hslots, hreader.2⟩
    | acquire free lock => exact Or.inl (.of_acquire (by rw [hlock]) free lock)
    | release i hi _ _ =>
        rw [h.inv.not_owns hfree i] at hi
        cases hi

variable [DecidableEq M] [DecidableEq P]

theorem Inv.run {s t : State T n M P} (h : Inv s) (ht : Run step Any s t) : Inv t :=
  ht.invariant h (fun _ _ _ hi _ hu => hi.effect (step_effect hu))

theorem Moved.run {v : LockWord} {s t : State T n M P} (hm : Moved v s) (h : Inv s)
    (ht : Run step Any s t) : Moved v t :=
  (ht.invariant (I := fun t => Inv t ∧ Moved v t) ⟨h, hm⟩ (fun _ _ _ hi _ hu =>
    ⟨hi.1.effect (step_effect hu), hi.2.effect hi.1 (step_effect hu)⟩)).2

theorem Call.run {s t u : State T n M P} {key : Key T} (h : Call s key t)
    (hv : isSet s.node.lock = false) (hu : Run step Any t u) : Call s key u :=
  hu.invariant h (fun _ _ _ hi _ hu => hi.effect hv (step_effect hu))

/-- A call that has returned makes no more steps. -/
theorem returned_run {s t : State T n M P} {r : Reader T P} (ht : Run step Any s t)
    (hs : s.reader = r) (hr : ∃ key answer found, r = .returned key answer found) :
    t.reader = r := by
  refine ht.invariant (I := fun t => t.reader = r) hs (fun t a u hi _ hu => ?_)
  obtain ⟨key, answer, found, rfl⟩ := hr
  rcases (step_effect hu).reader_cases with hsame | ⟨_, heff⟩
  · exact hsame.trans hi
  · generalize u.reader = r at heff
    cases heff with
    | refused _ h _ => cases h.symm.trans hi
    | called _ h _ => cases h.symm.trans hi
    | read h _ => cases h.symm.trans hi
    | checked h => cases h.symm.trans hi

/-- The call that loads a version without the lock bit begins. -/
theorem Call.begin {s t : State T n M P} {key : Key T} (h : Inv s)
    (ht : step s (.testLockSet key) = some t) :
    t.reader = .returned key false none ∨ isSet s.node.lock = false ∧ Call s key t := by
  have hinv := h.effect (step_effect ht)
  simp only [step] at ht
  split at ht
  · split at ht
    · cases ht
      exact Or.inl rfl
    · rename_i hl
      cases ht
      refine Or.inr ⟨by simpa using hl, hinv, Or.inl ⟨_, rfl⟩, Or.inr ⟨rfl, rfl, ?_⟩⟩
      intro rest hrest
      cases hrest
      rfl
  · cases ht

omit [DecidableEq P] in
theorem lookup_eq_some_iff : ∀ {l : List (ℤ × P)} (_ : l.Pairwise (fun x y => x.1 < y.1))
    {key : ℤ} {p : P}, l.lookup key = some p ↔ (key, p) ∈ l
  | [], _, key, p => by simp
  | (k, q) :: l, h, key, p => by
      obtain ⟨hk, hl⟩ := List.pairwise_cons.mp h
      rcases eq_or_ne key k with rfl | hne
      · rw [List.lookup_cons_self]
        refine ⟨fun hq => ?_, fun hmem => ?_⟩
        · cases hq
          exact List.mem_cons_self ..
        · rcases List.mem_cons.mp hmem with he | hmem
          · cases he
            rfl
          · exact absurd (hk _ hmem) (lt_irrefl _)
      · rw [List.lookup_cons, beq_false_of_ne hne]
        simp only [lookup_eq_some_iff hl, List.mem_cons, Prod.mk.injEq, hne, false_and, false_or]

/-- A successful call of `find_payload` saw one state of the node: from the load of its version to
the comparison at its end the slots did not change, and its result is the lookup of the key in
them. -/
theorem validated_read_consistent {s₀ s t w u u' : State T n M P} {key : Key T}
    {found : Option P} (h₀ : Initial s₀) (hs : Run step Any s₀ s)
    (hload : step s (.testLockSet key) = some t) (htw : Run step Any t w) (hwu : Run step Any w u)
    (hcheck : step u .testLockVersionChange = some u')
    (hreturned : u'.reader = .returned key true found) :
    w.node.toSlots = s.node.toSlots ∧ found = s.node.pairs.lookup key.val := by
  have hinv := h₀.inv.run hs
  obtain ⟨version, hr, hversion⟩ : ∃ version, u.reader = .searching key version (.ret found) ∧
      version = u.node.lock := by
    simp only [step] at hcheck
    split at hcheck
    · rename_i key' version found' hr
      cases hcheck
      obtain ⟨rfl, hans, rfl⟩ := Reader.returned.inj hreturned
      exact ⟨version, hr, of_decide_eq_true hans⟩
    · cases hcheck
  rcases Call.begin hinv hload with hrefused | ⟨hv, hcall⟩
  · have := returned_run (htw.trans hwu) hrefused ⟨_, _, _, rfl⟩
    cases this.symm.trans hr
  · have hw := hcall.run hv htw
    have hu := hw.run hv hwu
    have hlock : u.node.lock = s.node.lock := by
      rcases hu.reader with ⟨rest, hr'⟩ | ⟨_, _, hr'⟩
      · cases hr.symm.trans hr'
        exact hversion.symm
      · cases hr.symm.trans hr'
    have hsame : ∀ {x}, Call s key x → Run step Any x u → ¬ Moved s.node.lock x := fun hx hrun hm =>
      (hm.run hx.inv hrun).lock_ne hv hlock
    refine ⟨((hw.same.resolve_left (hsame hw hwu))).2.1, ?_⟩
    have heval := (hu.same.resolve_left (hsame hu .refl)).2.2 (.ret found) (by
      rw [hr, hversion, hlock])
    obtain ⟨r, a, b, hf, hiff⟩ := (hinv.free hv).1.findPayload hv key.property
    rw [Reads.eval_ret, eval_search hf] at heval
    cases heval
    refine Option.ext fun p => ?_
    rw [hiff, lookup_eq_some_iff (hinv.free hv).1.sorted]

end invariant

/-! An update, and a read that begins after it. -/

/-- The key 5 with payload 50, bulk loaded. -/
def oneKey : Option (DataNode LinearModel ℕ) :=
  (DataNode.new .uint64 0 16).bulkLoad .uint64 [(5, 50)] none false

def five : Key .uint64 := ⟨5, by decide⟩

/-- One writer replaces the payload of the key 5 by 51. -/
def updateFive : List (Action .uint64 1 ℕ) :=
  [.tryGetLock 0 (.update five 51), .swap 0, .write 0 (.payload 0 51), .loadToRelease 0 0 0,
    .storeReleased 0]

def answer : Reader .uint64 ℕ → Option (ℤ × Bool × Option ℕ)
  | .returned key answer found => some (key.val, answer, found)
  | _ => none

/-- The answer of the read. -/
def readFive : Option (ℤ × Bool × Option ℕ) := do
  let node ← oneKey
  let s ← exec step ⟨node, fun _ => .idle, .idle⟩ updateFive
  let t ← step s (.testLockSet five)
  let u ← exec step t (List.replicate 5 .read)
  let u' ← step u .testLockVersionChange
  answer u'.reader

theorem validated_read_after_update : ∃ s₀ s t u u' : State .uint64 1 LinearModel ℕ,
    Initial s₀ ∧ Run step Any s₀ s ∧ step s (.testLockSet five) = some t ∧ Run step Any t u ∧
      step u .testLockVersionChange = some u' ∧ u'.reader = .returned five true (some 51) ∧
      u.node.toSlots = s.node.toSlots ∧ s.node.pairs.lookup 5 = some 51 := by
  have hrun : readFive = some (5, true, some 51) := by decide +kernel
  obtain ⟨node, hnode, hrun⟩ := Option.bind_eq_some_iff.mp hrun
  obtain ⟨s, hs, hrun⟩ := Option.bind_eq_some_iff.mp hrun
  obtain ⟨t, ht, hrun⟩ := Option.bind_eq_some_iff.mp hrun
  obtain ⟨u, hu, hrun⟩ := Option.bind_eq_some_iff.mp hrun
  obtain ⟨u', hu', hrun⟩ := Option.bind_eq_some_iff.mp hrun
  have hwf : WellFormed .uint64 node := by
    obtain ⟨n', v', k', hload, hholds, hents, hroom, _⟩ := DataNode.bulkLoad_spec
      (T := .uint64) (DataNode.new .uint64 0 16 : DataNode LinearModel ℕ)
      (List.pairwise_singleton _ (5, 50)) (by decide) none false
    obtain rfl : n' = node := Option.some.inj (hload.symm.trans hnode)
    refine ⟨⟨⟨v', k', hholds⟩, ?_⟩, hroom⟩
    rw [hholds.pairs_eq, hents]
    simp
  have hany : ∀ {s t : State .uint64 1 LinearModel ℕ} {l}, exec step s l = some t →
      Run step Any s t := fun h => run_of_exec (p := fun _ => True) h (fun _ _ => trivial)
  have hinit : Initial (⟨node, fun _ => .idle, .idle⟩ : State .uint64 1 LinearModel ℕ) :=
    ⟨hwf, fun _ => rfl, rfl⟩
  have hret : u'.reader = .returned five true (some 51) := by
    unfold answer at hrun
    split at hrun
    · rename_i key _ _ hr
      obtain ⟨hkey, rfl, rfl⟩ : key.val = 5 ∧ _ = true ∧ _ = some 51 := by
        simpa only [Option.some.injEq, Prod.mk.injEq] using hrun
      rw [hr, show key = five from Subtype.ext hkey]
    · cases hrun
  obtain ⟨hslots, hfound⟩ := validated_read_consistent hinit (hany hs) ht (hany hu) .refl hu' hret
  exact ⟨_, s, t, u, u', hinit, hany hs, ht, hany hu, hu', hret, hslots, hfound.symm⟩

end LearnedIndex.Alexol.OptimisticRead
