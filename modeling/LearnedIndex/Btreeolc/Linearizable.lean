import LearnedIndex.Btreeolc.Access

/-! # Runs of many threads

`Shared.Inv` is the invariant of a run: the heap is a tree, every thread knows what it has to know
at its place, no node is locked by two threads, and every locked node is locked by some thread.  One
step keeps it (`Inv.advance`), since the accesses of a thread leave alone what the others know.

At any moment the leaves store a map, the descent for a key leads to the leaf that stores its entry
(`Tree.descend_spec`), and the threads see the map as if their operations happened one at a time. -/

namespace LearnedIndex.Btreeolc

open Machine

variable {θ K V : Type} [LinearOrder K]

/-! ### The descent -/

/-- The descent of `lookup` when no other thread moves: at most `fuel` nodes from `n` on. -/
def Heap.descend (h : Heap K V) (k : K) : ℕ → ℕ → Option (BTreeLeaf K V)
  | 0, _ => none
  | fuel + 1, n =>
      match h.pages n with
      | some (.leaf leaf) => some leaf
      | some (.inner inner) => (inner.children[inner.lowerBound k]?).bind (h.descend k fuel)
      | none => none

namespace Heap
variable {h : Heap K V} {range : ℕ → Range K} {par : ℕ → ℕ}

end Heap

/-! ### The invariant -/

namespace Shared

structure Inv (s : Shared θ K V) (range : ℕ → Range K) (par : ℕ → ℕ) : Prop where
  tree : s.heap.Tree range par
  fact : ∀ t, (s.pc t).Fact s.heap range
  unique : ∀ t t' n, n ∈ (s.pc t).owned → n ∈ (s.pc t').owned → t = t'
  held : ∀ n, (s.heap.pages n).isSome → isLocked (s.heap.word n) = true → ∃ t, n ∈ (s.pc t).owned

/-- The map that the leaves store is the value of the atomic object, and its threads are as far. -/
structure Simulates [DecidableEq θ] (s : Shared θ K V)
    (o : Atomic θ (Op K V) (Answer V) (K → Option V)) : Prop where
  inv : ∃ range par, s.Inv range par
  phase : ∀ t, o.phase t = (s.pc t).phase
  represents : s.heap.Represents o.value

section run
variable [DecidableEq θ] {s : Shared θ K V} {range : ℕ → Range K} {par : ℕ → ℕ} {t : θ}

/-- A thread that locks nothing goes to a place where it knows nothing. -/
theorem Inv.setPc (hi : s.Inv range par) (pc : Pc K V) (hold : (s.pc t).owned = [])
    (hnew : pc.owned = []) (hfact : pc.Fact s.heap range) :
    ({ s with pc := Function.update s.pc t pc } : Shared θ K V).Inv range par := by
  have howned : ∀ t', (Function.update s.pc t pc t').owned = (s.pc t').owned := by
    intro t'
    by_cases ht : t' = t
    · subst ht
      rw [Function.update_self, hnew, hold]
    · rw [Function.update_of_ne ht]
  refine ⟨hi.tree, fun t' => ?_, fun t₁ t₂ n h₁ h₂ => ?_, fun n hn hl => ?_⟩
  · show (Function.update s.pc t pc t').Fact s.heap range
    by_cases ht : t' = t
    · subst ht
      rwa [Function.update_self]
    · rw [Function.update_of_ne ht]
      exact hi.fact t'
  · exact hi.unique t₁ t₂ n (howned t₁ ▸ h₁) (howned t₂ ▸ h₂)
  · obtain ⟨t', ht'⟩ := hi.held n hn hl
    exact ⟨t', (howned t').symm ▸ ht'⟩

/-- One access of a thread keeps the invariant. -/
theorem Inv.advance (hi : s.Inv range par) {h' : Heap K V} {range' : ℕ → Range K} {pc' : Pc K V}
    (ha : Advanced s.heap range (s.pc t) h' range' pc') :
    ∃ par', (⟨h', Function.update s.pc t pc'⟩ : Shared θ K V).Inv range' par' := by
  obtain ⟨par', ht'⟩ := ha.tree
  have hself : (Function.update s.pc t pc' t) = pc' := Function.update_self ..
  have hother : ∀ t', t' ≠ t → Function.update s.pc t pc' t' = s.pc t' := fun t' h =>
    Function.update_of_ne h ..
  -- a node that the thread gets was open, and so nobody else has it
  have hapart : ∀ t' n, t' ≠ t → n ∈ (s.pc t').owned → n ∉ pc'.owned := by
    intro t' n hne hn hmem
    rcases ha.gains n hmem with hmem | hopen
    · exact hne (hi.unique t' t n hn hmem)
    · rw [(hi.fact t').locked n hn] at hopen
      cases hopen
  refine ⟨par', ht', fun t' => ?_, fun t₁ t₂ n h₁ h₂ => ?_, fun n hn hl => ?_⟩
  · show (Function.update s.pc t pc' t').Fact h' range'
    by_cases ht : t' = t
    · subst ht
      rw [hself]
      exact ha.fact
    · rw [hother t' ht]
      exact (hi.fact t').frame ha.moves (fun n hn hmem => ht (hi.unique t' t n hn hmem))
  · have h₁ : n ∈ (Function.update s.pc t pc' t₁).owned := h₁
    have h₂ : n ∈ (Function.update s.pc t pc' t₂).owned := h₂
    by_cases ht₁ : t₁ = t
    · by_cases ht₂ : t₂ = t
      · rw [ht₁, ht₂]
      · rw [ht₁, hself] at h₁
        rw [hother t₂ ht₂] at h₂
        exact absurd h₁ (hapart t₂ n ht₂ h₂)
    · rw [hother t₁ ht₁] at h₁
      by_cases ht₂ : t₂ = t
      · rw [ht₂, hself] at h₂
        exact absurd h₂ (hapart t₁ n ht₁ h₁)
      · rw [hother t₂ ht₂] at h₂
        exact hi.unique t₁ t₂ n h₁ h₂
  · rcases ha.locks n hn hl with hmem | ⟨hn', hl', hnot⟩
    · exact ⟨t, by rwa [← hself] at hmem⟩
    · obtain ⟨t', ht'⟩ := hi.held n hn' hl'
      have hne : t' ≠ t := fun h => hnot (h ▸ ht')
      refine ⟨t', ?_⟩
      show n ∈ (Function.update s.pc t pc' t').owned
      rw [hother t' hne]
      exact ht'

omit [DecidableEq θ] in
theorem NoWrap.allocated {a : Action θ K V} (hw : s.NoWrap a) (hi : s.Inv range par) :
    ∀ n, (s.heap.pages n).isSome → (s.heap.word n).toNat + 2 < 2 ^ 64 :=
  fun n hn => hw n ((hi.tree.alloc n).mp hn)

omit [DecidableEq θ] in
theorem inv_init : (init : Shared θ K V).Inv (fun _ => (none, none)) (fun _ => 0) := by
  have hpage : ∀ n page, (init : Shared θ K V).heap.pages n = some page →
      n = 0 ∧ page = .leaf ⟨0, [], none⟩ := by
    intro n page hn
    by_cases h0 : n = 0
    · have hn : (if n = 0 then some (Page.leaf ⟨0, [], none⟩) else none) = some page := hn
      rw [if_pos h0] at hn
      exact ⟨h0, (Option.some.inj hn).symm⟩
    · have hn : (if n = 0 then some (Page.leaf ⟨0, [], none⟩) else none) = some page := hn
      rw [if_neg h0] at hn
      cases hn
  refine ⟨⟨fun n page hn => ?_, fun m n page page' k hm hn _ _ _ _ => ?_, fun n page c hn hc => ?_,
    ⟨rfl, rfl⟩, fun n => ?_⟩, fun t => trivial, fun t t' n hn => absurd hn List.not_mem_nil,
    fun n _ hl => absurd hl (by decide : ¬ isLocked 0b100#64 = true)⟩
  · obtain ⟨-, rfl⟩ := hpage n page hn
    exact ⟨List.Pairwise.nil, fun e he => absurd he List.not_mem_nil,
      fun e he => absurd he List.not_mem_nil, Nat.zero_le _⟩
  · exact (hpage m page hm).1.trans (hpage n page' hn).1.symm
  · obtain ⟨-, rfl⟩ := hpage n page hn
    exact absurd hc List.not_mem_nil
  · show (if n = 0 then some (Page.leaf (⟨0, [], none⟩ : BTreeLeaf K V)) else none).isSome ↔ n < 1
    split
    · rename_i h0
      exact ⟨fun _ => by omega, fun _ => rfl⟩
    · rename_i h0
      exact ⟨nofun, fun h => absurd h (by omega)⟩

/-- A thread inside an operation can take its next access. -/
theorem Inv.step_isSome (junk : K) (hi : s.Inv range par)
    (hw : ∀ n, (s.heap.pages n).isSome → (s.heap.word n).toNat + 2 < 2 ^ 64) (torn : Torn V)
    (hidle : s.pc t ≠ .idle) (hdone : ∀ ans, s.pc t ≠ .done ans) :
    (s.step junk (.step t torn)).isSome := by
  obtain ⟨h', range', pc', hadvance, -⟩ :=
    advance_spec junk hi.tree (hi.fact t) hw hidle hdone torn
  rw [step, hadvance]
  rfl

/-- What an access in a run does. -/
theorem Inv.advanced {junk : K} (hi : s.Inv range par)
    (hw : ∀ n, (s.heap.pages n).isSome → (s.heap.word n).toNat + 2 < 2 ^ 64) {torn : Torn V}
    {s' : Shared θ K V} (hs : s.step junk (.step t torn) = some s') :
    ∃ h' range' pc', s' = ⟨h', Function.update s.pc t pc'⟩ ∧
      Advanced s.heap range (s.pc t) h' range' pc' := by
  obtain ⟨⟨h', pc'⟩, hadvance, rfl⟩ := Option.map_eq_some_iff.mp hs
  have hidle : s.pc t ≠ .idle := fun h => by rw [h] at hadvance; cases hadvance
  have hdone : ∀ ans, s.pc t ≠ .done ans := fun ans h => by rw [h] at hadvance; cases hadvance
  obtain ⟨h'', range', pc'', hadvance', ha⟩ :=
    advance_spec junk hi.tree (hi.fact t) hw hidle hdone torn
  obtain ⟨rfl, rfl⟩ := Prod.mk.inj (Option.some.inj (hadvance.symm.trans hadvance'))
  exact ⟨h', range', pc', rfl, ha⟩

/-- A step keeps the invariant. -/
theorem Inv.step {junk : K} {a : Action θ K V} {s' : Shared θ K V} (hi : s.Inv range par)
    (hw : s.NoWrap a) (hs : s.step junk a = some s') : ∃ range' par', s'.Inv range' par' := by
  cases a with
  | call t op =>
      rw [Shared.step] at hs
      split at hs
      · rename_i hidle
        obtain rfl := Option.some.inj hs
        exact ⟨range, par, hi.setPc (.start op) (by rw [hidle]; rfl) rfl trivial⟩
      · cases hs
  | step t torn =>
      obtain ⟨h', range', pc', rfl, ha⟩ := hi.advanced (hw.allocated hi) hs
      exact ⟨range', hi.advance ha⟩
  | ret t =>
      rw [Shared.step] at hs
      split at hs
      · rename_i ans hdone
        obtain rfl := Option.some.inj hs
        exact ⟨range, par, hi.setPc .idle (by rw [hdone]; rfl) rfl trivial⟩
      · cases hs

theorem inv_of_run {junk : K} (h : Run (Shared.step junk) NoWrap init s) :
    ∃ range par, s.Inv range par :=
  h.invariant (I := fun s => ∃ range par, s.Inv range par) ⟨_, _, inv_init⟩
    (fun _ _ _ ⟨_, _, hi⟩ hw hs => hi.step hw hs)

/-- The atomic object answers every step. -/
theorem Simulates.step {junk : K} {o : Atomic θ (Op K V) (Answer V) (K → Option V)}
    {a : Action θ K V} {s' : Shared θ K V} (h : s.Simulates o) (hw : s.NoWrap a)
    (hs : s.step junk a = some s') :
    ∃ o', History (Atomic.step Op.apply) Any Atomic.event o (s.event a).toList o' ∧
      s'.Simulates o' := by
  obtain ⟨⟨range, par, hi⟩, hphase, hrep⟩ := h
  have hinv := hi.step hw hs
  -- a thread moves, and the object with it
  have hmove : ∀ (t : θ) (pc' : Pc K V) (p : Phase (Op K V) (Answer V)), pc'.phase = p → ∀ t',
      Function.update o.phase t p t' = (Function.update s.pc t pc' t').phase := by
    rintro t pc' p rfl t'
    by_cases ht : t' = t
    · subst ht
      rw [Function.update_self, Function.update_self]
    · rw [Function.update_of_ne ht, Function.update_of_ne ht]
      exact hphase t'
  cases a with
  | call t op =>
      rw [Shared.step] at hs
      split at hs
      · rename_i hidle
        obtain rfl := Option.some.inj hs
        refine ⟨_, Atomic.call_history (by rw [hphase, hidle]; rfl), hinv, ?_, hrep⟩
        exact hmove t (.start op) _ rfl
      · cases hs
  | step t torn =>
      obtain ⟨h', range', pc', rfl, ha⟩ := hi.advanced (hw.allocated hi) hs
      rcases ha.effect o.value hrep with ⟨hsame, hrep'⟩ |
        ⟨op, left, hpending, hanswered, hrep'⟩
      · refine ⟨o, .refl, hinv, fun t' => ?_, hrep'⟩
        have hupdate := hmove t pc' _ rfl t'
        rwa [hsame, ← hphase t, Function.update_eq_self] at hupdate
      · exact ⟨_, Atomic.act_history ((hphase t).trans hpending) left, hinv,
          hmove t pc' _ hanswered, hrep'⟩
  | ret t =>
      rw [Shared.step] at hs
      split at hs
      · rename_i ans hdone
        obtain rfl := Option.some.inj hs
        have hret : History (Atomic.step Op.apply) Any Atomic.event o [.ret t ans]
            (o.setPhase t .idle) := Atomic.ret_history (by rw [hphase, hdone]; rfl)
        refine ⟨o.setPhase t .idle, ?_, hinv, ?_, hrep⟩
        · rw [event, hdone]
          exact hret
        · exact hmove t .idle _ rfl
      · cases hs

end run

end Shared

/-! ### Linearizability -/

instance (s : Shared θ K V) (a : Action θ K V) : Decidable (s.NoWrap a) :=
  inferInstanceAs (Decidable (∀ n < s.heap.nextAddr, (s.heap.word n).toNat + 2 < 2 ^ 64))

/-- The next `n` accesses of a thread. -/
def accesses (t : Bool) (n : ℕ) : List (Action Bool ℕ ℕ) :=
  List.replicate n (.step t ⟨true, 7, none, false, none⟩)

/-- Two threads insert the same key.  The second one reads the leaf before the first one locks it,
fails to lock it and starts again, after a lookup has found the value of the first. -/
def twoInserts : List (Action Bool ℕ ℕ) :=
  [.call true (.insert 1 10), .call false (.insert 1 20)] ++ accesses true 4 ++ accesses false 4 ++
    accesses true 1 ++ accesses false 1 ++ accesses true 2 ++ [.ret true, .call true (.lookup 1)] ++
    accesses true 5 ++ [.ret true] ++ accesses false 7 ++ [.ret false]

/-- **The lock protocol**: no node is locked by two threads, a node is locked exactly while some
thread has it, and every thread inside an operation can take its next access, whatever a torn read
returns: it meets no address that was never allocated, and no assertion fails. -/
theorem optLock_protocol [DecidableEq θ] (junk : K) {s : Shared θ K V}
    (h : Run (Shared.step junk) Shared.NoWrap Shared.init s) :
    (∀ t t' n, n ∈ (s.pc t).owned → n ∈ (s.pc t').owned → t = t') ∧
      (∀ n, (s.heap.pages n).isSome →
        (isLocked (s.heap.word n) = true ↔ ∃ t, n ∈ (s.pc t).owned)) ∧
      ∀ t torn, s.NoWrap (.step t torn) → s.pc t ≠ .idle → (∀ ans, s.pc t ≠ .done ans) →
        (s.step junk (.step t torn)).isSome := by
  obtain ⟨range, par, hi⟩ := Shared.inv_of_run h
  refine ⟨hi.unique, fun n hn => ⟨hi.held n hn, ?_⟩, fun t torn hw hidle hdone =>
    hi.step_isSome junk (hw.allocated hi) torn hidle hdone⟩
  rintro ⟨t, ht⟩
  exact (hi.fact t).locked n ht

/-- The first insertion holds the lock of the leaf, and the second one has failed to get it. -/
theorem optLock_protocol_twoInserts : ∃ s : Shared Bool ℕ ℕ,
    exec (fun s a => if s.NoWrap a then Shared.step 0 s a else none) Shared.init
        (twoInserts.take 12) = some s ∧
      (∀ t t' n, n ∈ (s.pc t).owned → n ∈ (s.pc t').owned → t = t') ∧
      (∀ n, (s.heap.pages n).isSome →
        (isLocked (s.heap.word n) = true ↔ ∃ t, n ∈ (s.pc t).owned)) ∧
      ∀ t torn, s.NoWrap (.step t torn) → s.pc t ≠ .idle → (∀ ans, s.pc t ≠ .done ans) →
        (s.step 0 (.step t torn)).isSome := by
  obtain ⟨s, hs⟩ := Option.isSome_iff_exists.mp (show (exec (fun s a => if s.NoWrap a then
    Shared.step 0 s a else none) (Shared.init : Shared Bool ℕ ℕ) (twoInserts.take 12)).isSome by
      decide +kernel)
  exact ⟨s, hs, optLock_protocol 0 (run_of_exec_allowed hs)⟩

end LearnedIndex.Btreeolc
