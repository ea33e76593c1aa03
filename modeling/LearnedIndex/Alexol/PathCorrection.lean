import LearnedIndex.Alexol.Parent

/-! # Correcting a traversal path

`lock_and_correct_traversal_path` turns the path to a leaf into a path to one of its neighbours and
locks the node that points at the neighbour.

* **The reference `tn`.**  It denotes the last entry of the path.  After `pop_back` it denotes the
  popped slot, so `tn = traversal_path.back()` copies an entry into that slot and
  `tn.bucketID = correct_bucketID` writes there too: the entry of the common ancestor keeps the
  slot of the old path (`climb`).
* **One level.**  Next to the leaf, in the parent of the leaf, the path is not extended down to a
  leaf.

The trees here are only well blocked: nothing is asked of the models or of the key ranges. -/

namespace LearnedIndex.Alexol

/-! ### Well-blocked trees -/

section
variable {M P : Type}

/-- Every child of a model node takes exactly one aligned block of its slots. -/
structure Blocks (h : Heap M P) (live : Set NodeId) (m : ModelNode) : Prop where
  size : ∃ g, m.numChildren = 2 ^ g
  length : m.children.length = m.numChildren
  child : ∀ i, i < m.numChildren → ∃ c node, m.childAt i = some c ∧ c ∈ live ∧
    h[c]? = some node ∧ node.localDepth ≤ log2RoundDown m.numChildren ∧
    ∀ j, m.childAt j = some c ↔ m.blockStart i node.localDepth ≤ j ∧
      j < m.blockStart i node.localDepth + m.repeats node.localDepth

/-- Following the first (last) slots leads from `c` to the leaf `x`. -/
def EdgeLeaf (h : Heap M P) (slot : ModelNode → ℕ) (c x : NodeId) : Prop :=
  ∃ fuel, Index.outermostDataNode h slot fuel c = some x

/-- The leaf `y` follows the leaf `x`: two slots next to each other lead to them. -/
def Adjacent (h : Heap M P) (live : Set NodeId) (x y : NodeId) : Prop :=
  ∃ q ∈ live, ∃ m i c d, h.modelAt q = some m ∧ m.childAt i = some c ∧
    m.childAt (i + 1) = some d ∧ c ≠ d ∧ EdgeLeaf h (fun m => m.numChildren - 1) c x ∧
    EdgeLeaf h (fun _ => 0) d y

/-- The live nodes form a well-blocked tree below the superroot, with its leaves linked from left
to right and its locks free; `par` and `depth` are the parents and the depths of the nodes. -/
structure BlockedTree (s : Index M P) (live : Set NodeId) (par : NodeId → NodeId)
    (depth : NodeId → ℕ) : Prop where
  super : ∃ m, s.heap.modelAt s.superroot = some m ∧ m.numChildren = 1 ∧
    m.childAt 0 = some s.rootNode
  super_mem : s.superroot ∈ live
  blocks : ∀ x ∈ live, ∀ m, s.heap.modelAt x = some m → Blocks s.heap live m
  parent : ∀ x ∈ live, ∀ m i c, s.heap.modelAt x = some m → m.childAt i = some c →
    par c = x ∧ depth c = depth x + 1
  prev : ∀ x ∈ live, ∀ n y, s.heap.dataAt x = some n → n.prevLeaf = some y →
    Adjacent s.heap live y x
  next : ∀ x ∈ live, ∀ n y, s.heap.dataAt x = some n → n.nextLeaf = some y →
    Adjacent s.heap live x y
  free : ∀ x ∈ live, ∀ m, s.heap.modelAt x = some m → m.lock = 0#32 ∧ m.isObsolete = false

/-- The slots of a path lead from the superroot to `c`; its last entry comes first. -/
def ValidPath (s : Index M P) : List (NodeId × ℕ) → NodeId → Prop
  | [], c => c = s.superroot
  | (id, bucketID) :: path, c =>
      (∃ m, s.heap.modelAt id = some m ∧ m.childAt bucketID = some c) ∧ ValidPath s path id

/-- The child that a slot points at, with the block it takes. -/
theorem Blocks.childAt {h : Heap M P} {live : Set NodeId} {m : ModelNode} (hb : Blocks h live m)
    {i : ℕ} {c : NodeId} (hc : m.childAt i = some c) : c ∈ live ∧ ∃ node, h[c]? = some node ∧
      node.localDepth ≤ log2RoundDown m.numChildren ∧
      ∀ j, m.childAt j = some c ↔ m.blockStart i node.localDepth ≤ j ∧
        j < m.blockStart i node.localDepth + m.repeats node.localDepth := by
  obtain ⟨c', node, hc', hl, hnode, hd, hslots⟩ := hb.child i (hb.length ▸ childAt_lt hc)
  obtain rfl : c' = c := Option.some.inj (hc'.symm.trans hc)
  exact ⟨hl, node, hnode, hd, hslots⟩

theorem Blocks.slot_iff {h : Heap M P} {live : Set NodeId} {m : ModelNode} (hb : Blocks h live m)
    {i : ℕ} {c : NodeId} (hc : m.childAt i = some c) {node : Node M P} (hn : h[c]? = some node)
    (j : ℕ) : m.childAt j = some c ↔ m.blockStart i node.localDepth ≤ j ∧
      j < m.blockStart i node.localDepth + m.repeats node.localDepth := by
  obtain ⟨_, node', hn', _, hslots⟩ := hb.childAt hc
  obtain rfl : node' = node := Option.some.inj (hn'.symm.trans hn)
  exact hslots j

end

namespace Index

variable {M P : Type}

/-! ### The correction with the lock -/

/-- The entries of a path up to the last one whose slot points at `child`; none if there is no such
entry. -/
def dropTo (h : Heap M P) (child : NodeId) :
    List (NodeId × ℕ) → Option (List (NodeId × ℕ))
  | [] => some []
  | (id, bucketID) :: path => do
      let m ← h.modelAt id
      let c ← m.childAt bucketID
      if c = child then some ((id, bucketID) :: path) else dropTo h child path

/-- `get_write_lock` or `get_read_lock`: whether it succeeds, and the node after it. -/
def lockNode (m : ModelNode) (writeLock : Bool) : Option (Bool × ModelNode) :=
  if writeLock then m.tryGetWriteLock
  else some (m.getReadLock.isSome, m.getReadLock.getD m)

/-- What `lock_and_correct_traversal_path` returns and leaves behind. -/
structure Correction (M P : Type) where
  result : Bool
  lockedNode : Option NodeId
  path : List (NodeId × ℕ)
  heap : Heap M P
deriving DecidableEq

/-- `lock_and_correct_traversal_path`.  The slot is read again once the lock is held; a single
thread reads the same child. -/
def lockAndCorrectTraversalPath (h : Heap M P) (leaf : DataNode M P) (path : List (NodeId × ℕ))
    (left : Bool) (child : NodeId) (writeLock : Bool) : Option (Correction M P) := do
  let path ← correctTraversalPath h leaf left path
  let found ← dropTo h child path
  match found with
  | [] => some ⟨false, none, path, h⟩
  | (id, _) :: _ =>
      let m ← h.modelAt id
      let (locked, m) ← lockNode m writeLock
      if locked then some ⟨true, some id, found, h.setModel id m⟩
      else some ⟨false, none, path, h⟩

end Index

/-- The neighbour of a leaf on one side. -/
def DataNode.neighbour {M P : Type} (n : DataNode M P) (left : Bool) : Option NodeId :=
  if left then n.prevLeaf else n.nextLeaf

/-- The correction returns true with a path to `x` whose last node, and no other, is read locked. -/
def Index.Reaches {M P : Type} (s : Index M P) (x : NodeId)
    (result : Option (Index.Correction M P)) : Prop :=
  ∃ id bucketID path m, s.heap.modelAt id = some m ∧
    result = some ⟨true, some id, (id, bucketID) :: path, s.heap.setModel id m.reading⟩ ∧
    ValidPath s ((id, bucketID) :: path) x

/-! ### Valid paths -/

section
variable {M P : Type} {s : Index M P} {live : Set NodeId} {par : NodeId → NodeId}
  {depth : NodeId → ℕ}

theorem ValidPath.mem_live (ht : BlockedTree s live par depth) {path : List (NodeId × ℕ)} :
    ∀ {c : NodeId}, ValidPath s path c → c ∈ live := by
  induction path with
  | nil =>
      intro c hc
      obtain rfl : c = s.superroot := hc
      exact ht.super_mem
  | cons entry path ih =>
      intro c hc
      obtain ⟨⟨m, hm, hchild⟩, hrest⟩ := hc
      exact ((ht.blocks _ (ih hrest) m hm).childAt hchild).1

/-- Behind an entry the path is valid up to the node of the entry. -/
theorem ValidPath.suffix {A B : List (NodeId × ℕ)} {id bucketID : ℕ} :
    ∀ {c : NodeId}, ValidPath s (A ++ (id, bucketID) :: B) c → ValidPath s B id := by
  induction A with
  | nil => exact fun h => h.2
  | cons entry A ih => exact fun h => ih h.2

/-- The slots of a path lead to one node. -/
theorem ValidPath.unique {path : List (NodeId × ℕ)} {c d : NodeId} (hc : ValidPath s path c)
    (hd : ValidPath s path d) : c = d := by
  cases path with
  | nil => exact Eq.trans hc hd.symm
  | cons entry path =>
      obtain ⟨⟨m, hm, hchild⟩, _⟩ := hc
      obtain ⟨⟨m', hm', hchild'⟩, _⟩ := hd
      obtain rfl : m = m' := Option.some.inj (hm.symm.trans hm')
      exact Option.some.inj (hchild.symm.trans hchild')

/-- The children of the entries of a path to a model node are model nodes. -/
theorem ValidPath.dropTo_eq_nil {path found : List (NodeId × ℕ)} {x : NodeId} {n : DataNode M P}
    (hx : s.heap.dataAt x = some n) : ∀ {y : NodeId} {my : ModelNode}, ValidPath s path y →
      s.heap.modelAt y = some my → Index.dropTo s.heap x path = some found → found = [] := by
  induction path with
  | nil =>
      intro y my _ _ hfound
      exact (Option.some.inj hfound).symm
  | cons entry path ih =>
      intro y my hy hmy hfound
      obtain ⟨⟨m, hm, hchild⟩, hrest⟩ := hy
      have hne : ¬ y = x := by
        rintro rfl
        rw [Heap.modelAt_eq_some] at hmy
        rw [Heap.dataAt_eq_some, hmy] at hx
        cases hx
      unfold Index.dropTo at hfound
      simp only [hm, hchild, Option.bind_eq_bind, Option.bind_some, if_neg hne] at hfound
      exact ih hrest hm hfound

end

namespace Index

variable {M P : Type}

/-- What is found in a path reaches down to an entry of it, or is found behind that entry. -/
theorem dropTo_append {h : Heap M P} {x : NodeId} {A B found : List (NodeId × ℕ)}
    {entry : NodeId × ℕ} (hf : dropTo h x (A ++ entry :: B) = some found) :
    (∃ D, found = D ++ entry :: B) ∨ dropTo h x B = some found := by
  induction A with
  | nil =>
      rw [List.nil_append, dropTo] at hf
      obtain ⟨m, _, hf⟩ := Option.bind_eq_some_iff.mp hf
      obtain ⟨c, _, hf⟩ := Option.bind_eq_some_iff.mp hf
      split at hf
      · exact Or.inl ⟨[], (Option.some.inj hf).symm⟩
      · exact Or.inr hf
  | cons first A ih =>
      rw [List.cons_append, dropTo] at hf
      obtain ⟨m, _, hf⟩ := Option.bind_eq_some_iff.mp hf
      obtain ⟨c, _, hf⟩ := Option.bind_eq_some_iff.mp hf
      split at hf
      · exact Or.inl ⟨first :: A, (Option.some.inj hf).symm⟩
      · exact ih hf

/-! ### The climb and the descent -/

/-- The nodes that are pushed start with the node below the common ancestor. -/
theorem pushEdge_spec {h : Heap M P} {left : Bool} : ∀ {fuel : ℕ} {cur : NodeId}
    {path path' : List (NodeId × ℕ)}, pushEdge h left fuel cur path = some path' →
    path' = path ∨ ∃ A bucketID, path' = A ++ (cur, bucketID) :: path := by
  intro fuel
  induction fuel with
  | zero =>
      intro cur path path' hp
      cases hp
  | succ fuel ih =>
      intro cur path path' hp
      rw [pushEdge] at hp
      split at hp
      · exact Or.inl (Option.some.inj hp).symm
      · rename_i m _
        obtain ⟨c, _, hp⟩ := Option.bind_eq_some_iff.mp hp
        refine Or.inr ?_
        rcases ih hp with rfl | ⟨A, bucketID, rfl⟩
        · exact ⟨[], _, rfl⟩
        · exact ⟨A ++ [(c, bucketID)], _, by rw [List.append_assoc]; rfl⟩
      · cases hp

/-- The slot next to a block does not point at the child of the block. -/
theorem ne_of_next {h : Heap M P} {live : Set NodeId} {m : ModelNode} (hb : Blocks h live m)
    {b : ℕ} {c : NodeId} (hc : m.childAt b = some c) {node : Node M P} (hn : h[c]? = some node)
    {left : Bool} (hend : ¬ (left = true ∧ m.blockStart b node.localDepth = 0 ∨ ¬ left = true ∧
      m.blockStart b node.localDepth + m.repeats node.localDepth = m.numChildren)) :
    m.childAt (if left then m.blockStart b node.localDepth - 1
      else m.blockStart b node.localDepth + m.repeats node.localDepth) ≠ some c := by
  rw [Ne, hb.slot_iff hc hn]
  cases left with
  | true =>
      simp only [true_and, not_true, false_and, or_false, if_true] at hend ⊢
      omega
  | false =>
      simp only [Bool.false_eq_true, if_false]
      omega

/-- The climb stops at an ancestor with a slot beside the block of the child on the path, and leaves
the slot of the ancestor's own entry as it was. -/
theorem climb_spec {s : Index M P} {live : Set NodeId} {par : NodeId → NodeId} {depth : NodeId → ℕ}
    (ht : BlockedTree s live par depth) {left : Bool} {path path' : List (NodeId × ℕ)}
    {m' : ModelNode} {slot : ℕ} : ∀ {y : NodeId} {my : ModelNode}, ValidPath s path y →
    s.heap.modelAt y = some my → climb s.heap left path my.localDepth = some (path', m', slot) →
    ∃ id bucketID rest z mz, path' = (id, bucketID) :: rest ∧ ValidPath s path' z ∧
      s.heap.modelAt z = some mz ∧ s.heap.modelAt id = some m' ∧ m'.childAt slot ≠ some z := by
  induction path with
  | nil =>
      intro y my _ _ hc
      cases hc
  | cons entry path ih =>
      intro y my hy hmy hc
      obtain ⟨id, bucketID⟩ := entry
      obtain ⟨⟨m, hm, hchild⟩, hrest⟩ := hy
      rw [climb, hm, Option.bind_eq_bind, Option.bind_some] at hc
      dsimp only at hc
      split at hc
      · exact ih hrest hm hc
      · rename_i hend
        obtain ⟨rfl, rfl, rfl⟩ := Option.some.inj hc
        have hb := ht.blocks id (hrest.mem_live ht) _ hm
        exact ⟨id, bucketID, path, y, my, rfl, ⟨⟨_, hm, hchild⟩, hrest⟩, hmy, hm,
          ne_of_next hb hchild (Heap.modelAt_eq_some.mp hmy) hend⟩

end Index

/-! ### Siblings -/

section
variable {M P : Type} {s : Index M P} {live : Set NodeId} {par : NodeId → NodeId}
  {depth : NodeId → ℕ}

/-- The first node of an edge is an ancestor of the leaf at its end. -/
theorem EdgeLeaf.iterate (ht : BlockedTree s live par depth) {slot : ModelNode → ℕ} {x : NodeId} :
    ∀ {c : NodeId}, c ∈ live → EdgeLeaf s.heap slot c x →
      ∃ k, par^[k] x = c ∧ depth x = depth c + k := by
  rintro c hc ⟨fuel, hf⟩
  induction fuel generalizing c with
  | zero => cases hf
  | succ fuel ih =>
      rw [Index.outermostDataNode] at hf
      split at hf
      · obtain rfl := Option.some.inj hf
        exact ⟨0, rfl, rfl⟩
      · rename_i m hm
        obtain ⟨d, hd, hf⟩ := Option.bind_eq_some_iff.mp hf
        rw [← Heap.modelAt_eq_some] at hm
        obtain ⟨hpar, hdepth⟩ := ht.parent c hc m _ d hm hd
        obtain ⟨k, hk, hdk⟩ := ih ((ht.blocks c hc m hm).childAt hd).1 hf
        refine ⟨k + 1, ?_, by omega⟩
        rw [Function.iterate_succ_apply', hk, hpar]
      · cases hf

/-- Leaves that follow each other and have one parent take blocks that follow each other. -/
theorem Adjacent.slots (ht : BlockedTree s live par depth) {x y p : NodeId} {m : ModelNode}
    (hadj : Adjacent s.heap live x y) (hp : p ∈ live) (hm : s.heap.modelAt p = some m)
    {i j : ℕ} (hi : m.childAt i = some x) (hj : m.childAt j = some y) :
    x ≠ y ∧ ∃ k, m.childAt k = some x ∧ m.childAt (k + 1) = some y := by
  obtain ⟨q, hq, mq, k, c, d, hmq, hc, hd, hne, hx, hy⟩ := hadj
  have hb := ht.blocks q hq mq hmq
  obtain ⟨hparc, hdc⟩ := ht.parent q hq mq k c hmq hc
  obtain ⟨_, hdd⟩ := ht.parent q hq mq (k + 1) d hmq hd
  obtain ⟨hparx, hdx⟩ := ht.parent p hp m i x hm hi
  obtain ⟨hpary, hdy⟩ := ht.parent p hp m j y hm hj
  obtain ⟨a, hax, hda⟩ := hx.iterate ht (hb.childAt hc).1
  obtain ⟨a', hay, hda'⟩ := hy.iterate ht (hb.childAt hd).1
  obtain rfl : a = a' := by omega
  cases a with
  | zero =>
      obtain rfl : x = c := hax
      obtain rfl : y = d := hay
      obtain rfl : p = q := hparx.symm.trans hparc
      obtain rfl : m = mq := Option.some.inj (hm.symm.trans hmq)
      exact ⟨hne, k, hc, hd⟩
  | succ a =>
      -- both leaves have the same ancestors, so the slots would lead to one child
      refine absurd ?_ hne
      rw [← hax, ← hay, Function.iterate_succ_apply, Function.iterate_succ_apply, hparx, hpary]

theorem BlockedTree.lockNode_free (ht : BlockedTree s live par depth) {x : NodeId} {m : ModelNode}
    (hx : x ∈ live) (hm : s.heap.modelAt x = some m) :
    Index.lockNode m false = some (true, m.reading) := by
  obtain ⟨hl, ho⟩ := ht.free x hx m hm
  unfold Index.lockNode
  rw [m.getReadLock_free hl ho]
  rfl

/-- Beside the leaf, in its own parent, the corrected slot points at the neighbour. -/
theorem BlockedTree.correct_sibling (ht : BlockedTree s live par depth) {leaf x p b : ℕ}
    {n : DataNode M P} {rest : List (NodeId × ℕ)} {m : ModelNode} {left : Bool} {j : ℕ}
    (hn : s.heap.dataAt leaf = some n) (hpath : ValidPath s ((p, b) :: rest) leaf)
    (hx : n.neighbour left = some x) (hm : s.heap.modelAt p = some m)
    (hj : m.childAt j = some x) :
    ∃ b', Index.correctTraversalPath s.heap n left ((p, b) :: rest) = some ((p, b') :: rest) ∧
      m.childAt b' = some x := by
  have hlive := hpath.mem_live ht
  obtain ⟨⟨m', hm', hchild⟩, hrest⟩ := hpath
  obtain rfl : m' = m := Option.some.inj (hm'.symm.trans hm)
  have hp := hrest.mem_live ht
  have hb := ht.blocks p hp m' hm
  have hslot : ∀ k, m'.childAt k = some leaf ↔ m'.blockStart b n.localDepth ≤ k ∧
      k < m'.blockStart b n.localDepth + m'.repeats n.localDepth := fun k =>
    hb.slot_iff hchild (Heap.dataAt_eq_some.mp hn) k
  unfold Index.correctTraversalPath
  simp only [hm, Option.bind_eq_bind, Option.bind_some]
  cases left with
  | true =>
      obtain ⟨hne, k, hk, hk'⟩ := (ht.prev leaf hlive n x hn hx).slots ht hp hm hj hchild
      have hin := (hslot (k + 1)).mp hk'
      have hout : ¬ _ := fun h => hne (Option.some.inj (hk.symm.trans ((hslot k).mpr h)))
      have hstart : m'.blockStart b n.localDepth = k + 1 := by omega
      refine ⟨k, ?_, hk⟩
      simp [hstart]
  | false =>
      obtain ⟨hne, k, hk, hk'⟩ := (ht.next leaf hlive n x hn hx).slots ht hp hm hchild hj
      have hin := (hslot k).mp hk
      have hout : ¬ _ := fun h =>
        hne (Option.some.inj (((hslot (k + 1)).mpr h).symm.trans hk'))
      have hstop : m'.blockStart b n.localDepth + m'.repeats n.localDepth = k + 1 := by omega
      have hlt : k + 1 < m'.numChildren := hb.length ▸ childAt_lt hk'
      refine ⟨k + 1, ?_, hk'⟩
      simp [hstop, hlt.ne]

theorem EdgeLeaf.data {h : Heap M P} {slot : ModelNode → ℕ} {x : NodeId} :
    ∀ {c : NodeId}, EdgeLeaf h slot c x → ∃ n, h.dataAt x = some n := by
  rintro c ⟨fuel, hf⟩
  induction fuel generalizing c with
  | zero => cases hf
  | succ fuel ih =>
      rw [Index.outermostDataNode] at hf
      split at hf
      · rename_i n hn
        obtain rfl := Option.some.inj hf
        exact ⟨n, Heap.dataAt_eq_some.mpr hn⟩
      · obtain ⟨d, _, hf⟩ := Option.bind_eq_some_iff.mp hf
        exact ih hf
      · cases hf

theorem BlockedTree.neighbour_data (ht : BlockedTree s live par depth) {leaf x : NodeId}
    {n : DataNode M P} {left : Bool} (hl : leaf ∈ live) (hn : s.heap.dataAt leaf = some n)
    (hx : n.neighbour left = some x) : ∃ n', s.heap.dataAt x = some n' := by
  cases left with
  | true =>
      obtain ⟨_, _, _, _, _, _, _, _, _, _, hedge, _⟩ := ht.prev leaf hl n x hn hx
      exact hedge.data
  | false =>
      obtain ⟨_, _, _, _, _, _, _, _, _, _, _, hedge⟩ := ht.next leaf hl n x hn hx
      exact hedge.data

/-! ### Where the correction leads -/

/-- Either only the slot in the leaf's own parent changes, or the path is kept up to a common
ancestor, whose slot does not change, and goes on from another child of the ancestor. -/
theorem BlockedTree.correct_cases (ht : BlockedTree s live par depth) {leaf p b : ℕ}
    {n : DataNode M P} {rest path' : List (NodeId × ℕ)} {m : ModelNode} {left : Bool}
    (hpath : ValidPath s ((p, b) :: rest) leaf) (hm : s.heap.modelAt p = some m)
    (hc : Index.correctTraversalPath s.heap n left ((p, b) :: rest) = some path') :
    (∃ b', path' = (p, b') :: rest) ∨
    ∃ top z mz c, ValidPath s top z ∧ s.heap.modelAt z = some mz ∧ c ≠ z ∧
      (path' = top ∨ ∃ A bucketID, path' = A ++ (c, bucketID) :: top) := by
  obtain ⟨_, hrest⟩ := hpath
  unfold Index.correctTraversalPath at hc
  simp only [hm, Option.bind_eq_bind, Option.bind_some] at hc
  split at hc
  · obtain ⟨⟨top, m', slot⟩, hclimb, hc⟩ := Option.bind_eq_some_iff.mp hc
    obtain ⟨c, hchild, hpush⟩ := Option.bind_eq_some_iff.mp hc
    obtain ⟨_, _, _, z, mz, _, hz, hmz, _, hne⟩ := Index.climb_spec ht hrest hm hclimb
    refine Or.inr ⟨top, z, mz, c, hz, hmz, ?_, Index.pushEdge_spec hpush⟩
    rintro rfl
    exact hne hchild
  · exact Or.inl ⟨_, (Option.some.inj hc).symm⟩

/-- A valid path to the neighbour is found only in the leaf's own parent. -/
theorem BlockedTree.sibling_of_found (ht : BlockedTree s live par depth) {leaf x p b : ℕ}
    {n n' : DataNode M P} {rest path' found : List (NodeId × ℕ)} {m : ModelNode} {left : Bool}
    (hpath : ValidPath s ((p, b) :: rest) leaf) (hm : s.heap.modelAt p = some m)
    (hx : s.heap.dataAt x = some n')
    (hc : Index.correctTraversalPath s.heap n left ((p, b) :: rest) = some path')
    (hf : Index.dropTo s.heap x path' = some found) (hne : found ≠ [])
    (hvalid : ValidPath s found x) : ∃ j, m.childAt j = some x := by
  rcases ht.correct_cases hpath hm hc with ⟨b', rfl⟩ | ⟨top, z, mz, c, hz, hmz, hcz, rfl | hA⟩
  · rw [Index.dropTo, hm, Option.bind_eq_bind, Option.bind_some] at hf
    obtain ⟨c, hc, hf⟩ := Option.bind_eq_some_iff.mp hf
    split at hf
    · rename_i heq
      exact ⟨b', heq ▸ hc⟩
    · exact absurd (hpath.2.dropTo_eq_nil hx hm hf) hne
  · exact absurd (hz.dropTo_eq_nil hx hmz hf) hne
  · obtain ⟨A, bucketID, rfl⟩ := hA
    rcases Index.dropTo_append hf with ⟨D, rfl⟩ | hf
    · -- the entry of the ancestor still points towards the old leaf
      exact absurd (hvalid.suffix.unique hz) hcz
    · exact absurd (hz.dropTo_eq_nil hx hmz hf) hne

end

/-- Some slot of the last node of a path points at `x`. -/
def Index.Below {M P : Type} (s : Index M P) (path : List (NodeId × ℕ)) (x : NodeId) : Prop :=
  ∃ p bucketID rest m j, path = (p, bucketID) :: rest ∧ s.heap.modelAt p = some m ∧
    m.childAt j = some x

namespace Index

variable {M P : Type}

/-- The correction ends with a valid path to the neighbour, and its lock, exactly when the neighbour
hangs below the parent of the leaf. -/
theorem lockAndCorrectTraversalPath_reaches_iff {s : Index M P} {live : Set NodeId}
    {par : NodeId → NodeId} {depth : NodeId → ℕ} (ht : BlockedTree s live par depth)
    {leaf x : NodeId} {n : DataNode M P} {path : List (NodeId × ℕ)} {left : Bool}
    (hn : s.heap.dataAt leaf = some n) (hpath : ValidPath s path leaf)
    (hx : n.neighbour left = some x) :
    s.Reaches x (lockAndCorrectTraversalPath s.heap n path left x false) ↔ s.Below path x := by
  have hlive := hpath.mem_live ht
  constructor
  · rintro ⟨id, bucketID, found, m, _, hr, hvalid⟩
    obtain ⟨path', hc, hr⟩ := Option.bind_eq_some_iff.mp hr
    obtain ⟨found', hf, hr⟩ := Option.bind_eq_some_iff.mp hr
    cases path with
    | nil => cases hc
    | cons entry rest =>
        obtain ⟨p, b⟩ := entry
        obtain ⟨mp, hmp, _⟩ := hpath.1
        have hfound : found' = (id, bucketID) :: found := by
          cases found' with
          | nil => cases hr
          | cons entry found' =>
              obtain ⟨mid, _, hr⟩ := Option.bind_eq_some_iff.mp hr
              obtain ⟨⟨locked, m'⟩, _, hr⟩ := Option.bind_eq_some_iff.mp hr
              cases locked with
              | true => exact congrArg Correction.path (Option.some.inj hr)
              | false => cases hr
        subst hfound
        obtain ⟨n', hn'⟩ := ht.neighbour_data hlive hn hx
        obtain ⟨j, hj⟩ := ht.sibling_of_found hpath hmp hn' hc hf (by simp) hvalid
        exact ⟨p, b, rest, mp, j, rfl, hmp, hj⟩
  · rintro ⟨p, b, rest, m, j, rfl, hm, hj⟩
    obtain ⟨b', hc, hb'⟩ := ht.correct_sibling hn hpath hx hm hj
    have hp := hpath.2.mem_live ht
    refine ⟨p, b', rest, m, hm, ?_, ⟨m, hm, hb'⟩, hpath.2⟩
    unfold lockAndCorrectTraversalPath
    simp only [hc, dropTo, hm, hb', ht.lockNode_free hp hm, Option.bind_eq_bind, Option.bind_some,
      if_true]

end Index

/-! ### A tree with two levels of pairs -/

/-- A model node with two slots. -/
def pairNode (localDepth : ℕ) (model : LinearModel) (c d : NodeId) : ModelNode :=
  { ModelNode.new 0 with
    localDepth := localDepth
    model := model
    numChildren := 2
    children := [some c, some d] }

/-- The node above the root. -/
def superNode (root : NodeId) : ModelNode :=
  { ModelNode.new 0 with
    numChildren := 1
    children := [some root] }

/-- An empty leaf below a pair, with its key range and its neighbours. -/
def leafNode (lo hi : ℚ) (prev next : Option NodeId) : DataNode LinearModel ℕ :=
  { DataNode.new KeyType.uint64 0 1024 with
    localDepth := 1
    minLimit := lo
    maxLimit := hi
    prevLeaf := prev
    nextLeaf := next }

theorem pairNode_childAt {e : ℕ} {model : LinearModel} {c d i x : ℕ} :
    (pairNode e model c d).childAt i = some x ↔ i = 0 ∧ x = c ∨ i = 1 ∧ x = d := by
  unfold pairNode ModelNode.childAt
  rcases i with _ | _ | i
  · simp [eq_comm]
  · simp [eq_comm]
  · simp

theorem superNode_childAt {root i x : ℕ} :
    (superNode root).childAt i = some x ↔ i = 0 ∧ x = root := by
  unfold superNode ModelNode.childAt
  rcases i with _ | i
  · simp [eq_comm]
  · simp

theorem blocks_pairNode {M P : Type} {h : Heap M P} {live : Set NodeId} {e : ℕ}
    {model : LinearModel} {c d : ℕ} (hcd : c ≠ d) (hc : c ∈ live) (hd : d ∈ live)
    {node node' : Node M P} (hn : h[c]? = some node) (hn' : h[d]? = some node')
    (h1 : node.localDepth = 1) (h1' : node'.localDepth = 1) :
    Blocks h live (pairNode e model c d) := by
  have hrep : (pairNode e model c d).repeats 1 = 1 := ModelNode.repeats_eq (g := 1) rfl
  have hblock : ∀ i, (pairNode e model c d).blockStart i 1 = i := by
    intro i
    rw [ModelNode.blockStart, hrep, Nat.mod_one, Nat.sub_zero]
  have hlog : log2RoundDown (pairNode e model c d).numChildren = 1 := log2RoundDown_two_pow 1
  refine ⟨⟨1, rfl⟩, rfl, fun i hi => ?_⟩
  have hi2 : i < 2 := hi
  obtain rfl | rfl : i = 0 ∨ i = 1 := by omega
  · refine ⟨c, node, rfl, hc, hn, by rw [h1, hlog], fun j => ?_⟩
    rw [h1, hblock, hrep, pairNode_childAt]
    omega
  · refine ⟨d, node', rfl, hd, hn', by rw [h1', hlog], fun j => ?_⟩
    rw [h1', hblock, hrep, pairNode_childAt]
    omega

theorem blocks_superNode {M P : Type} {h : Heap M P} {live : Set NodeId} {root : NodeId}
    (hr : root ∈ live) {node : Node M P} (hn : h[root]? = some node) (h0 : node.localDepth = 0) :
    Blocks h live (superNode root) := by
  refine ⟨⟨0, rfl⟩, rfl, fun i hi => ?_⟩
  obtain rfl : i = 0 := Nat.lt_one_iff.mp hi
  refine ⟨root, node, rfl, hr, hn, by rw [h0]; exact Nat.zero_le _, fun j => ?_⟩
  have hblock : (superNode root).blockStart 0 0 = 0 := rfl
  have hrep : (superNode root).repeats 0 = 1 := rfl
  rw [h0, hblock, hrep, superNode_childAt]
  omega

/-- A root with two model nodes below it and two leaves below each of them. -/
def twoPairs : Index LinearModel ℕ where
  heap :=
    [.model (superNode 1), .model (pairNode 0 ⟨1 / 20, 0⟩ 2 3),
      .model (pairNode 1 ⟨1 / 10, 0⟩ 4 5), .model (pairNode 1 ⟨1 / 10, -2⟩ 6 7),
      .data (leafNode 0 10 none (some 5)), .data (leafNode 10 20 (some 4) (some 6)),
      .data (leafNode 20 30 (some 5) (some 7)), .data (leafNode 30 40 (some 6) none)]
  rootNode := 1
  superroot := 0
  numKeys := 0
  insertCounter := 0
  eraseCounter := 0
  keyDomainMin := 0
  keyDomainMax := 39
  numKeysAboveKeyDomain := 0
  numKeysBelowKeyDomain := 0
  numKeysAtLastRightDomainResize := 0
  numKeysAtLastLeftDomainResize := 0
  retired := []

namespace TwoPairs

def par (x : NodeId) : NodeId := [0, 0, 1, 1, 2, 2, 3, 3].getD x 0

def depth (x : NodeId) : ℕ := [0, 1, 2, 2, 3, 3, 3, 3].getD x 0

/-- The model nodes of the tree. -/
theorem modelAt_cases {x : NodeId} {m : ModelNode} (hm : twoPairs.heap.modelAt x = some m) :
    x = 0 ∧ m = superNode 1 ∨ x = 1 ∧ m = pairNode 0 ⟨1 / 20, 0⟩ 2 3 ∨
      x = 2 ∧ m = pairNode 1 ⟨1 / 10, 0⟩ 4 5 ∨ x = 3 ∧ m = pairNode 1 ⟨1 / 10, -2⟩ 6 7 := by
  have hx : x < 8 := (List.getElem?_eq_some_iff.mp (Heap.modelAt_eq_some.mp hm)).1
  interval_cases x
  · exact Or.inl ⟨rfl, (Option.some.inj hm).symm⟩
  · exact Or.inr (Or.inl ⟨rfl, (Option.some.inj hm).symm⟩)
  · exact Or.inr (Or.inr (Or.inl ⟨rfl, (Option.some.inj hm).symm⟩))
  · exact Or.inr (Or.inr (Or.inr ⟨rfl, (Option.some.inj hm).symm⟩))
  all_goals cases hm

/-- The slots next to each other that lead to leaves next to each other. -/
theorem adjacent {x : ℕ} (h1 : 4 ≤ x) (h2 : x < 7) :
    Adjacent twoPairs.heap {x | x < 8} x (x + 1) := by
  obtain rfl | rfl | rfl : x = 4 ∨ x = 5 ∨ x = 6 := by omega
  · exact ⟨2, by decide, _, 0, 4, 5, rfl, rfl, rfl, by decide, ⟨1, rfl⟩, ⟨1, rfl⟩⟩
  · exact ⟨1, by decide, _, 0, 2, 3, rfl, rfl, rfl, by decide, ⟨2, rfl⟩, ⟨2, rfl⟩⟩
  · exact ⟨3, by decide, _, 0, 6, 7, rfl, rfl, rfl, by decide, ⟨1, rfl⟩, ⟨1, rfl⟩⟩

/-- The links between the leaves. -/
theorem links {x y : ℕ} {n : DataNode LinearModel ℕ}
    (hn : twoPairs.heap.dataAt x = some n) :
    (n.prevLeaf = some y → 4 ≤ y ∧ y < 7 ∧ x = y + 1) ∧
      (n.nextLeaf = some y → 4 ≤ x ∧ x < 7 ∧ y = x + 1) := by
  have hx : x < 8 := (List.getElem?_eq_some_iff.mp (Heap.dataAt_eq_some.mp hn)).1
  interval_cases x
  iterate 4 cases hn
  all_goals
    obtain rfl := Option.some.inj hn
    refine ⟨fun h => ?_, fun h => ?_⟩ <;> cases h <;> decide

theorem blockedTree : BlockedTree twoPairs {x | x < 8} par depth where
  super := ⟨superNode 1, rfl, rfl, rfl⟩
  super_mem := by decide
  blocks := by
    intro x _ m hm
    rcases modelAt_cases hm with ⟨rfl, rfl⟩ | ⟨rfl, rfl⟩ | ⟨rfl, rfl⟩ | ⟨rfl, rfl⟩
    · exact blocks_superNode (by decide) rfl rfl
    all_goals exact blocks_pairNode (by decide) (by decide) (by decide) rfl rfl rfl rfl
  parent := by
    intro x _ m i c hm hc
    rcases modelAt_cases hm with ⟨rfl, rfl⟩ | ⟨rfl, rfl⟩ | ⟨rfl, rfl⟩ | ⟨rfl, rfl⟩
    · obtain ⟨rfl, rfl⟩ := superNode_childAt.mp hc
      exact ⟨rfl, rfl⟩
    all_goals
      obtain ⟨rfl, rfl⟩ | ⟨rfl, rfl⟩ := pairNode_childAt.mp hc <;> exact ⟨rfl, rfl⟩
  prev := by
    intro x _ n y hn hy
    obtain ⟨h1, h2, rfl⟩ := (links hn).1 hy
    exact adjacent h1 h2
  next := by
    intro x _ n y hn hy
    obtain ⟨h1, h2, rfl⟩ := (links hn).2 hy
    exact adjacent h1 h2
  free := by
    intro x _ m hm
    rcases modelAt_cases hm with ⟨rfl, rfl⟩ | ⟨rfl, rfl⟩ | ⟨rfl, rfl⟩ | ⟨rfl, rfl⟩
    all_goals exact ⟨rfl, rfl⟩

end TwoPairs

namespace Index

/-- From the first leaf the second one is reached in their common parent. -/
theorem lockAndCorrectTraversalPath_reaches_iff_sibling :
    twoPairs.Reaches 5 (lockAndCorrectTraversalPath twoPairs.heap (leafNode 0 10 none (some 5))
      [(2, 0), (1, 0), (0, 0)] false 5 false) := by
  have hpath : ValidPath twoPairs [(2, 0), (1, 0), (0, 0)] 4 :=
    ⟨⟨_, rfl, rfl⟩, ⟨_, rfl, rfl⟩, ⟨_, rfl, rfl⟩, rfl⟩
  refine (lockAndCorrectTraversalPath_reaches_iff TwoPairs.blockedTree ?_ hpath rfl).mpr ?_
  · rfl
  · exact ⟨2, 0, [(1, 0), (0, 0)], pairNode 1 ⟨1 / 10, 0⟩ 4 5, 1, rfl, rfl, rfl⟩

/-- From the third leaf the second one lies below the other model node: the correction returns true
with the last node locked, but the entry of the root still has the slot of the third leaf's side. -/
theorem lockAndCorrectTraversalPath_cousin :
    ∃ h, lockAndCorrectTraversalPath twoPairs.heap (leafNode 20 30 (some 5) (some 7))
      [(3, 0), (1, 1), (0, 0)] true 5 false =
        some ⟨true, some 2, [(2, 1), (1, 1), (0, 0)], h⟩ :=
  ⟨_, rfl⟩

/-- The correction does not reach every neighbour. -/
theorem not_lockAndCorrectTraversalPath_reaches : ¬ ∀ (s : Index LinearModel ℕ) (live : Set NodeId)
    (par : NodeId → NodeId) (depth : NodeId → ℕ) (leaf x : NodeId) (n : DataNode LinearModel ℕ)
    (path : List (NodeId × ℕ)) (left : Bool), BlockedTree s live par depth →
    s.heap.dataAt leaf = some n → ValidPath s path leaf → n.neighbour left = some x →
    s.Reaches x (lockAndCorrectTraversalPath s.heap n path left x false) := by
  intro hall
  have hpath : ValidPath twoPairs [(3, 0), (1, 1), (0, 0)] 6 :=
    ⟨⟨_, rfl, rfl⟩, ⟨_, rfl, rfl⟩, ⟨_, rfl, rfl⟩, rfl⟩
  obtain ⟨id, bucketID, path, m, _, hr, hvalid⟩ := hall twoPairs _ _ _ 6 5
    (leafNode 20 30 (some 5) (some 7)) _ true TwoPairs.blockedTree rfl hpath rfl
  obtain ⟨h, hc⟩ := lockAndCorrectTraversalPath_cousin
  have heq : [(2, 1), (1, 1), (0, 0)] = (id, bucketID) :: path :=
    congrArg Correction.path (Option.some.inj (hc.symm.trans hr))
  rw [← heq] at hvalid
  obtain ⟨m', hm', hchild⟩ := hvalid.2.1
  obtain rfl : pairNode 0 ⟨1 / 20, 0⟩ 2 3 = m' := Option.some.inj hm'
  obtain ⟨h0, _⟩ | ⟨_, h3⟩ := pairNode_childAt.mp hchild
  · cases h0
  · cases h3

end Index

end LearnedIndex.Alexol
