import LearnedIndex.Btreeolc.SharedTree
import Mathlib.Data.Nat.Bitwise

/-! # What a version says about a node

A thread that has loaded an open lock word knows something about the node *as long as the word stays
what it was* (`When`), and a thread that has locked a node knows it until it unlocks it (`Owned`).
`Pc.Fact` is what a thread knows at each place of the code.

Another thread only writes nodes that it has locked, and lock words only grow (`Moves`).  A node
that it writes therefore no longer has the version that was loaded, and so its moves keep all that
the thread knows (`Pc.Fact.frame`). -/

namespace LearnedIndex.Btreeolc

open Machine

variable {K V : Type} [LinearOrder K]

/-! ### Lock words -/

theorem isLocked_eq (version : BitVec 64) :
    isLocked version = decide (version.toNat / 2 % 2 = 1) := by
  have h : version.toNat &&& 2 = (version.toNat.testBit 1).toNat * 2 :=
    Nat.and_two_pow version.toNat 1
  rw [Nat.testBit_eq_decide_div_mod_eq] at h
  rw [isLocked, Bool.eq_iff_iff, beq_iff_eq, ← BitVec.toNat_inj, BitVec.toNat_and]
  simp only [BitVec.toNat_ofNat, Nat.reducePow, Nat.reduceMod, h, decide_eq_true_eq]
  by_cases hb : version.toNat / 2 % 2 = 1
  · simp [hb]
  · simp [hb]

/-- Locking and unlocking flip the bit of the lock. -/
theorem isLocked_add (version : BitVec 64) : isLocked (version + 0b10#64) = !isLocked version := by
  rw [isLocked_eq, isLocked_eq, BitVec.toNat_add, Bool.eq_iff_iff]
  simp only [BitVec.toNat_ofNat, Nat.reducePow, Nat.reduceMod, decide_eq_true_eq,
    Bool.not_eq_true', decide_eq_false_iff_not]
  omega

theorem toNat_add_two {version : BitVec 64} (h : version.toNat + 2 < 2 ^ 64) :
    (version + 0b10#64).toNat = version.toNat + 2 := by
  rw [BitVec.toNat_add]
  exact Nat.mod_eq_of_lt h

/-! ### What other threads leave alone -/

/-- A thread that has locked the nodes `O` takes the heap `h` to `h'`. -/
structure Moves (O : ℕ → Prop) (h h' : Heap K V) (range range' : ℕ → Range K) : Prop where
  locked : ∀ n, O n → isLocked (h.word n) = true
  stays : ∀ n page, h.pages n = some page → ¬ O n → h'.pages n = some page ∧ range' n = range n
  kind : ∀ n page, h.pages n = some page →
    ∃ page', h'.pages n = some page' ∧ page'.isLeaf = page.isLeaf
  grows : ∀ n, (h.pages n).isSome → h'.word n = h.word n ∨ (h.word n).toNat < (h'.word n).toNat
  held : ∀ n, (h.pages n).isSome → ¬ O n → isLocked (h.word n) = true → h'.word n = h.word n
  root : ¬ O h.root → h'.root = h.root

/-- The node has been seen with this version, and as long as it has it, it satisfies `Q`. -/
def When (h : Heap K V) (range : ℕ → Range K) (n : ℕ) (version : BitVec 64)
    (Q : Page K V → Range K → Prop) : Prop :=
  ∃ page, h.pages n = some page ∧ isLocked version = false ∧ version.toNat ≤ (h.word n).toNat ∧
    (h.word n = version → Q page (range n))

/-- The node is locked and satisfies `Q`. -/
def Owned (h : Heap K V) (range : ℕ → Range K) (n : ℕ) (Q : Page K V → Range K → Prop) : Prop :=
  ∃ page, h.pages n = some page ∧ isLocked (h.word n) = true ∧ Q page (range n)

/-- The node is a leaf, or an inner node. -/
def Kind (h : Heap K V) (n : ℕ) (leaf : Bool) : Prop :=
  ∃ page, h.pages n = some page ∧ page.isLeaf = leaf

section frame
variable {O : ℕ → Prop} {h h' : Heap K V} {range range' : ℕ → Range K} {n : ℕ}
  {version : BitVec 64} {Q Q' : Page K V → Range K → Prop}

omit [LinearOrder K]

theorem When.mono (hw : When h range n version Q) (hQ : ∀ page r, Q page r → Q' page r) :
    When h range n version Q' := by
  obtain ⟨page, hn, hv, hle, hq⟩ := hw
  exact ⟨page, hn, hv, hle, fun hc => hQ _ _ (hq hc)⟩

theorem When.isSome (hw : When h range n version Q) : (h.pages n).isSome := by
  obtain ⟨page, hn, -⟩ := hw
  rw [hn]
  rfl

theorem When.current (hw : When h range n version Q)
    (hc : h.word n = version) : ∃ page, h.pages n = some page ∧ Q page (range n) := by
  obtain ⟨page, hn, -, -, hq⟩ := hw
  exact ⟨page, hn, hq hc⟩

/-- A thread that loads an open lock word sees the node with it. -/
theorem When.of_word (hn : (h.pages n).isSome) (hopen : isLocked (h.word n) = false) :
    When h range n (h.word n) (fun _ _ => True) := by
  obtain ⟨page, hpage⟩ := Option.isSome_iff_exists.mp hn
  exact ⟨page, hpage, hopen, le_rfl, fun _ => trivial⟩

/-- A node that was seen keeps what was known of it, whatever another thread does. -/
theorem When.frame (hw : When h range n version Q) (hm : Moves O h h' range range') :
    When h' range' n version Q := by
  obtain ⟨page, hn, hv, hle, hq⟩ := hw
  have hgrows := hm.grows n (by rw [hn]; rfl)
  have hle' : version.toNat ≤ (h'.word n).toNat := by
    rcases hgrows with heq | hlt
    · rwa [heq]
    · omega
  by_cases hO : O n
  · -- the word is locked, and the version was not
    obtain ⟨page', hn', -⟩ := hm.kind n page hn
    refine ⟨page', hn', hv, hle', fun hc => ?_⟩
    have hl := hm.locked n hO
    rcases hgrows with heq | hlt
    · rw [← heq, hc, hv] at hl
      cases hl
    · rw [hc] at hlt
      omega
  · obtain ⟨hn', hr⟩ := hm.stays n page hn hO
    refine ⟨page, hn', hv, hle', fun hc => ?_⟩
    rw [hr]
    rcases hgrows with heq | hlt
    · exact hq (heq ▸ hc)
    · rw [hc] at hlt
      omega

/-- Nobody writes a node that another thread has locked. -/
theorem Owned.frame (ho : Owned h range n Q) (hm : Moves O h h' range range') (hO : ¬ O n) :
    Owned h' range' n Q := by
  obtain ⟨page, hn, hl, hq⟩ := ho
  obtain ⟨hn', hr⟩ := hm.stays n page hn hO
  exact ⟨page, hn', by rwa [hm.held n (by rw [hn]; rfl) hO hl], by rwa [hr]⟩

theorem Owned.mono (ho : Owned h range n Q) (hQ : ∀ page r, Q page r → Q' page r) :
    Owned h range n Q' := by
  obtain ⟨page, hn, hl, hq⟩ := ho
  exact ⟨page, hn, hl, hQ _ _ hq⟩

theorem Kind.frame {leaf : Bool} (hk : Kind h n leaf) (hm : Moves O h h' range range') :
    Kind h' n leaf := by
  obtain ⟨page, hn, hl⟩ := hk
  obtain ⟨page', hn', hl'⟩ := hm.kind n page hn
  exact ⟨page', hn', hl'.trans hl⟩

theorem Moves.isSome (hm : Moves O h h' range range') (hn : (h.pages n).isSome) :
    (h'.pages n).isSome := by
  obtain ⟨page, hpage⟩ := Option.isSome_iff_exists.mp hn
  obtain ⟨page', hn', -⟩ := hm.kind n page hpage
  rw [hn']
  rfl

/-- The loaded version is still that of the node, and its lock is open. -/
theorem When.isOpen (hw : When h range n version Q)
    (hc : h.word n = version) : isLocked (h.word n) = false := by
  obtain ⟨_, _, hv, -, -⟩ := hw
  rwa [hc]

/-- A node that is locked at the version at which it was read. -/
theorem When.lock (hw : When h range n version Q)
    (hc : h.word n = version) : Owned (h.setWord n (h.word n + 0b10#64)) range n Q := by
  obtain ⟨page, hn, hq⟩ := hw.current hc
  refine ⟨page, hn, ?_, hq⟩
  rw [Heap.setWord_word, Function.update_self, isLocked_add, hw.isOpen hc]
  rfl

/-- The other nodes keep their locks. -/
theorem Owned.setWord {m : ℕ} (ho : Owned h range n Q)
    (hne : n ≠ m) (word : BitVec 64) : Owned (h.setWord m word) range n Q := by
  obtain ⟨page, hn, hl, hq⟩ := ho
  exact ⟨page, hn, by rwa [Heap.setWord_word, Function.update_of_ne hne], hq⟩

theorem Owned.isSome (ho : Owned h range n Q) :
    (h.pages n).isSome := by
  obtain ⟨page, hn, -⟩ := ho
  rw [hn]
  rfl

end frame

/-! ### What a thread knows -/

/-- The node sends the key to the child. -/
def Edge (k : K) (child : ℕ) (page : Page K V) (r : Range K) : Prop :=
  InRange r k ∧ ∃ node, page = .inner node ∧ node.children[node.lowerBound k]? = some child

/-- `insert` goes on below a node only if it is not full. -/
def Room (op : Op K V) (page : Page K V) : Prop := ∀ k v, op = .insert k v → page.isFull = false

/-- What `lookup` has found is what the leaf stores. -/
def Reads (k : K) (result : Option V) (page : Page K V) : Prop :=
  ∃ leaf, page = .leaf leaf ∧ result = leaf.data.lookup k

/-- The parent has sent the key to the node. -/
def Under (h : Heap K V) (range : ℕ → Range K) (op : Op K V) (parent : Versioned)
    (node : ℕ) : Prop :=
  When h range parent.1 parent.2 (fun page r => Edge op.key node page r ∧ Room op page) ∧
    (h.pages node).isSome

/-- The key belongs to the node, or it did when the parent sent it there. -/
def Reached (h : Heap K V) (range : ℕ → Range K) (op : Op K V)
    (parent : Option Versioned) (node : ℕ)
    (version : BitVec 64) (Q : Page K V → Prop) : Prop :=
  match parent with
  | none => When h range node version (fun page r => InRange r op.key ∧ Q page)
  | some parent => Under h range op parent node ∧ When h range node version (fun page _ => Q page)

namespace Pc

/-- The nodes that the thread has locked. -/
def owned : Pc K V → List ℕ
  | .lockNode _ _ parent _ _ => parent.toList
  | .recheckRoot _ _ node => [node]
  | .split _ _ parent node => node :: parent.toList
  | .unlockNode _ _ parent node => node :: parent.toList
  | .unlockParent _ _ parent => [parent]
  | .leafCheckParent _ _ _ node => [node]
  | .leafInsert _ _ node => [node]
  | .leafUnlock node _ => [node]
  | _ => []

/-- Whether the thread waits for an answer, for the atomic object. -/
def phase : Pc K V → Phase (Op K V) (Answer V)
  | .idle => .idle
  | .start op => .pending op
  | .readLock op _ => .pending op
  | .checkRoot op _ _ => .pending op
  | .visit op _ _ _ => .pending op
  | .checkParent op _ _ _ => .pending op
  | .readChild op _ _ => .pending op
  | .checkNode op _ _ _ => .pending op
  | .enter op _ _ => .pending op
  | .lockParent k v _ _ _ => .pending (.insert k v)
  | .lockNode k v _ _ _ => .pending (.insert k v)
  | .recheckRoot k v _ => .pending (.insert k v)
  | .split k v _ _ => .pending (.insert k v)
  | .unlockNode k v _ _ => .pending (.insert k v)
  | .unlockParent k v _ => .pending (.insert k v)
  | .lockLeaf k v _ _ _ => .pending (.insert k v)
  | .leafCheckParent k v _ _ => .pending (.insert k v)
  | .leafInsert k v _ => .pending (.insert k v)
  | .leafUnlock _ ret => .answered (.inserted ret)
  | .lookupCheckParent k _ _ _ _ => .pending (.lookup k)
  | .lookupCheckNode k _ _ _ => .pending (.lookup k)
  | .done ans => .answered ans

/-- What the thread knows about the nodes it has seen or locked. -/
def Fact (h : Heap K V) (range : ℕ → Range K) : Pc K V → Prop
  | .idle => True
  | .start _ => True
  | .readLock _ node => (h.pages node).isSome
  | .checkRoot _ node version => When h range node version (fun _ _ => True)
  | .visit op parent node version => Reached h range op parent node version (fun _ => True)
  | .checkParent op parent node version =>
      Reached h range op (some parent) node version (Room op) ∧ Kind h node false
  | .readChild op node version =>
      Reached h range op none node version (Room op) ∧ Kind h node false
  | .checkNode op node version child =>
      When h range node version (fun page r => Edge op.key child page r ∧ Room op page)
  | .enter op parent node => Under h range op parent node
  | .lockParent k v parent node version => Under h range (.insert k v) parent node ∧
      When h range node version (fun page _ => page.isFull = true)
  | .lockNode k _ parent node version =>
      (∀ p, parent = some p → Owned h range p (fun page r => Edge k node page r ∧
        page.isFull = false)) ∧
      When h range node version (fun page _ => page.isFull = true)
  | .recheckRoot _ _ node => Owned h range node (fun page _ => page.isFull = true)
  | .split k _ parent node =>
      parent.elim (node = h.root) (fun p => p ≠ node ∧ Owned h range p (fun page r =>
        Edge k node page r ∧ page.isFull = false)) ∧
      Owned h range node (fun page _ => page.isFull = true)
  | .unlockNode _ _ parent node =>
      (∀ p, parent = some p → p ≠ node ∧ Owned h range p (fun _ _ => True)) ∧
      Owned h range node (fun _ _ => True)
  | .unlockParent _ _ parent => Owned h range parent (fun _ _ => True)
  | .lockLeaf k v parent node version =>
      Reached h range (.insert k v) parent node version (Room (.insert k v)) ∧ Kind h node true
  | .leafCheckParent k v parent node => Under h range (.insert k v) parent node ∧
      Owned h range node (fun page _ => page.isLeaf = true ∧ page.isFull = false)
  | .leafInsert k _ node => Owned h range node (fun page r => InRange r k ∧ page.isLeaf = true ∧
      page.isFull = false)
  | .leafUnlock node _ => Owned h range node (fun _ _ => True)
  | .lookupCheckParent k parent node version result =>
      Reached h range (.lookup k) (some parent) node version (Reads k result)
  | .lookupCheckNode k node version result =>
      Reached h range (.lookup k) none node version (Reads k result)
  | .done _ => True

end Pc

section knowledge
variable {O : ℕ → Prop} {h h' : Heap K V} {range range' : ℕ → Range K} {op : Op K V} {node : ℕ}
  {version : BitVec 64}

theorem Under.frame {parent : Versioned} (hu : Under h range op parent node)
    (hm : Moves O h h' range range') : Under h' range' op parent node :=
  ⟨hu.1.frame hm, hm.isSome hu.2⟩

theorem Reached.frame {parent : Option Versioned} {Q : Page K V → Prop}
    (hr : Reached h range op parent node version Q) (hm : Moves O h h' range range') :
    Reached h' range' op parent node version Q := by
  cases parent with
  | none =>
      rw [Reached] at hr ⊢
      exact hr.frame hm
  | some parent => exact ⟨hr.1.frame hm, hr.2.frame hm⟩

/-- The nodes that a thread has locked are locked. -/
theorem Pc.Fact.owned {pc : Pc K V} (hf : pc.Fact h range) :
    ∀ n ∈ pc.owned, Owned h range n (fun _ _ => True) := by
  intro n hn
  cases pc with
  | lockNode k v parent node version =>
      exact (hf.1 n (Option.mem_toList.mp hn)).mono (fun _ _ _ => trivial)
  | recheckRoot k v node =>
      rw [Pc.Fact] at hf
      exact List.mem_singleton.mp hn ▸ hf.mono (fun _ _ _ => trivial)
  | split k v parent node =>
      rcases List.mem_cons.mp hn with rfl | hn
      · exact hf.2.mono (fun _ _ _ => trivial)
      · obtain rfl := Option.mem_toList.mp hn
        exact hf.1.2.mono (fun _ _ _ => trivial)
  | unlockNode k v parent node =>
      rcases List.mem_cons.mp hn with rfl | hn
      · exact hf.2
      · exact (hf.1 n (Option.mem_toList.mp hn)).2
  | unlockParent k v parent => exact List.mem_singleton.mp hn ▸ hf
  | leafCheckParent k v parent node =>
      exact List.mem_singleton.mp hn ▸ hf.2.mono (fun _ _ _ => trivial)
  | leafInsert k v node =>
      rw [Pc.Fact] at hf
      exact List.mem_singleton.mp hn ▸ hf.mono (fun _ _ _ => trivial)
  | leafUnlock node ret => exact List.mem_singleton.mp hn ▸ hf
  | _ => exact absurd hn List.not_mem_nil

/-- What a thread knows survives the moves of the others. -/
theorem Pc.Fact.frame {pc : Pc K V} (hf : pc.Fact h range) (hm : Moves O h h' range range')
    (hO : ∀ n ∈ pc.owned, ¬ O n) : pc.Fact h' range' := by
  cases pc with
  | idle => trivial
  | start op => trivial
  | readLock op node => exact hm.isSome hf
  | checkRoot op node version =>
      rw [Pc.Fact] at hf ⊢
      exact hf.frame hm
  | visit op parent node version => exact Reached.frame hf hm
  | checkParent op parent node version => exact ⟨Reached.frame hf.1 hm, hf.2.frame hm⟩
  | readChild op node version => exact ⟨Reached.frame hf.1 hm, hf.2.frame hm⟩
  | checkNode op node version child =>
      rw [Pc.Fact] at hf ⊢
      exact hf.frame hm
  | enter op parent node => exact Under.frame hf hm
  | lockParent k v parent node version => exact ⟨hf.1.frame hm, hf.2.frame hm⟩
  | lockNode k v parent node version =>
      exact ⟨fun p hp => (hf.1 p hp).frame hm (hO p (Option.mem_toList.mpr hp)), hf.2.frame hm⟩
  | recheckRoot k v node =>
      rw [Pc.Fact] at hf ⊢
      exact hf.frame hm (hO node (List.mem_singleton.mpr rfl))
  | split k v parent node =>
      have hnode : ¬ O node := hO node (List.mem_cons_self ..)
      refine ⟨?_, hf.2.frame hm hnode⟩
      cases parent with
      | none =>
          have hroot : node = h.root := hf.1
          exact hroot.trans (hm.root (hroot ▸ hnode)).symm
      | some p =>
          exact ⟨hf.1.1, hf.1.2.frame hm
            (hO p (List.mem_cons_of_mem _ (List.mem_singleton.mpr rfl)))⟩
  | unlockNode k v parent node =>
      refine ⟨fun p hp => ⟨(hf.1 p hp).1, (hf.1 p hp).2.frame hm (hO p ?_)⟩,
        hf.2.frame hm (hO node (List.mem_cons_self ..))⟩
      exact List.mem_cons_of_mem _ (Option.mem_toList.mpr hp)
  | unlockParent k v parent =>
      rw [Pc.Fact] at hf ⊢
      exact hf.frame hm (hO parent (List.mem_singleton.mpr rfl))
  | lockLeaf k v parent node version => exact ⟨Reached.frame hf.1 hm, hf.2.frame hm⟩
  | leafCheckParent k v parent node =>
      exact ⟨hf.1.frame hm, hf.2.frame hm (hO node (List.mem_singleton.mpr rfl))⟩
  | leafInsert k v node =>
      rw [Pc.Fact] at hf ⊢
      exact hf.frame hm (hO node (List.mem_singleton.mpr rfl))
  | leafUnlock node ret =>
      rw [Pc.Fact] at hf ⊢
      exact hf.frame hm (hO node (List.mem_singleton.mpr rfl))
  | lookupCheckParent k parent node version result =>
      rw [Pc.Fact] at hf ⊢
      exact hf.frame hm
  | lookupCheckNode k node version result =>
      rw [Pc.Fact] at hf ⊢
      exact hf.frame hm
  | done ans => trivial

end knowledge

end LearnedIndex.Btreeolc
