import LearnedIndex.Alexol.Restructure
import LearnedIndex.Alexol.ModelNodeSpec
import LearnedIndex.Lib.Chains

/-! # The tree of an index

What the descents read of a node is its `Frame`: the place and the key range of a leaf, or the whole
model node.  `Tree F root live par` says that the live nodes form a well-blocked tree below `root`:
every slot of a live model node is set, its child takes exactly the aligned block of slots that its
local depth asks for, and its key range is the one between the two edges of the block.

A key that lies in the range of a node (`Inside`, where the ends of the whole tree are open) lies in
the range of the child that its slot points at, so every descent ends in the leaf whose range has
the key (`Tree.exists_trail`). -/

namespace LearnedIndex.Alexol

open LearnedIndex.Chains

/-! ### Frames -/

/-- The part of a node that decides about descents. -/
inductive Frame where
  | leaf (level : ℤ) (localDepth : ℕ) (lo hi : ℚ)
  | node (m : ModelNode)

namespace Frame

def level : Frame → ℤ
  | leaf level _ _ _ => level
  | node m => m.level

def localDepth : Frame → ℕ
  | leaf _ localDepth _ _ => localDepth
  | node m => m.localDepth

/-- The lower end of the key range. -/
def lo : Frame → ℚ
  | leaf _ _ lo _ => lo
  | node m => m.edge 0

/-- The upper end of the key range. -/
def hi : Frame → ℚ
  | leaf _ _ _ hi => hi
  | node m => m.edge m.numChildren

end Frame

section
variable {M P : Type}

def Node.frame : Node M P → Frame
  | .data n => .leaf n.level n.localDepth n.minLimit n.maxLimit
  | .model m => .node m

def Heap.frame (h : Heap M P) (x : NodeId) : Option Frame := (h[x]?).map Node.frame

theorem Heap.frame_node {h : Heap M P} {x : NodeId} {m : ModelNode} :
    h.frame x = some (.node m) ↔ h[x]? = some (.model m) := by
  unfold Heap.frame
  cases hx : h[x]? with
  | none => simp
  | some n =>
      cases n with
      | data n => simp [Node.frame]
      | model m' => simp [Node.frame]

theorem Heap.frame_leaf {h : Heap M P} {x : NodeId} {level : ℤ} {d : ℕ} {lo hi : ℚ} :
    h.frame x = some (.leaf level d lo hi) ↔ ∃ n : DataNode M P, h[x]? = some (.data n) ∧
      n.level = level ∧ n.localDepth = d ∧ n.minLimit = lo ∧ n.maxLimit = hi := by
  unfold Heap.frame
  cases hx : h[x]? with
  | none => simp
  | some n =>
      cases n with
      | data n => simp [Node.frame]
      | model m' => simp [Node.frame]

theorem Heap.lt_of_frame {h : Heap M P} {x : NodeId} {f : Frame} (hx : h.frame x = some f) :
    x < h.length := by
  unfold Heap.frame at hx
  obtain ⟨n, hn, _⟩ := Option.map_eq_some_iff.mp hx
  exact (List.getElem?_eq_some_iff.mp hn).1

theorem Heap.modelAt_eq_some {h : Heap M P} {x : NodeId} {m : ModelNode} :
    h.modelAt x = some m ↔ h[x]? = some (.model m) := by
  unfold Heap.modelAt
  cases hx : h[x]? with
  | none => simp
  | some n => cases n <;> simp

theorem Heap.dataAt_eq_some {h : Heap M P} {x : NodeId} {n : DataNode M P} :
    h.dataAt x = some n ↔ h[x]? = some (.data n) := by
  unfold Heap.dataAt
  cases hx : h[x]? with
  | none => simp
  | some n => cases n <;> simp

end

/-! ### Trees -/

/-- Slot `i` of a model node points at `c`, which takes a block of slots and their key range. -/
structure ChildAt (F : NodeId → Option Frame) (m : ModelNode) (i : ℕ) (c : NodeId) (f : Frame) :
    Prop where
  get : F c = some f
  level : f.level = m.level + 1
  depth : f.localDepth ≤ log2RoundDown m.numChildren
  slots : ∀ j, m.blockStart i f.localDepth ≤ j →
    j < m.blockStart i f.localDepth + m.repeats f.localDepth → m.childAt j = some c
  lo : f.lo = m.edge (m.blockStart i f.localDepth)
  hi : f.hi = m.edge (m.blockStart i f.localDepth + m.repeats f.localDepth)

/-- A model node whose children are live and well placed. -/
structure ModelOK (F : NodeId → Option Frame) (live : Set NodeId) (m : ModelNode) : Prop where
  size : ∃ g, m.numChildren = 2 ^ g
  length : m.children.length = m.numChildren
  slope : 0 < m.model.a
  child : ∀ i, i < m.numChildren → ∃ c f, c ∈ live ∧ ChildAt F m i c f

/-- The live nodes form a tree below the root; `par` names the parents. -/
structure Tree (F : NodeId → Option Frame) (root : NodeId) (live : Set NodeId)
    (par : NodeId → NodeId) : Prop where
  root_mem : root ∈ live
  get : ∀ x ∈ live, ∃ f, F x = some f
  model : ∀ x ∈ live, ∀ m, F x = some (.node m) → ModelOK F live m
  parent : ∀ x ∈ live, ∀ m i c, F x = some (.node m) → m.childAt i = some c → par c = x
  root_free : ∀ x ∈ live, ∀ m i, F x = some (.node m) → m.childAt i ≠ some root

theorem ChildAt.child {F : NodeId → Option Frame} {m : ModelNode} {i : ℕ} {c : NodeId} {f : Frame}
    (h : ChildAt F m i c f) : m.childAt i = some c :=
  h.slots i (m.blockStart_le i _) (m.lt_blockStart_add i _)

theorem childAt_lt {m : ModelNode} {i : ℕ} {c : NodeId} (h : m.childAt i = some c) :
    i < m.children.length := by
  unfold ModelNode.childAt at h
  by_contra hcon
  rw [List.getElem?_eq_none (by omega)] at h
  simp at h

namespace ModelOK

variable {F : NodeId → Option Frame} {live : Set NodeId} {m : ModelNode}

theorem pos (h : ModelOK F live m) : 0 < m.numChildren := by
  obtain ⟨g, hg⟩ := h.size
  rw [hg]
  exact Nat.two_pow_pos g

/-- The child of a slot, with its block. -/
theorem childAt (h : ModelOK F live m) {i : ℕ} {c : NodeId} (hc : m.childAt i = some c) :
    c ∈ live ∧ ∃ f, ChildAt F m i c f := by
  obtain ⟨c', f, hl, hca⟩ := h.child i (h.length ▸ childAt_lt hc)
  obtain rfl : c' = c := Option.some.inj (hca.child.symm.trans hc)
  exact ⟨hl, f, hca⟩

/-- Only the slots of its block point at a child. -/
theorem slot_iff (h : ModelOK F live m) {i : ℕ} {c : NodeId} {f : Frame}
    (hc : ChildAt F m i c f) (j : ℕ) : m.childAt j = some c ↔
      m.blockStart i f.localDepth ≤ j ∧
        j < m.blockStart i f.localDepth + m.repeats f.localDepth := by
  refine ⟨fun hj => ?_, fun hj => hc.slots j hj.1 hj.2⟩
  obtain ⟨_, f', hc'⟩ := h.childAt hj
  obtain rfl : f = f' := Option.some.inj (hc.get.symm.trans hc'.get)
  have hs : m.blockStart i f.localDepth = m.blockStart j f.localDepth :=
    m.edge_inj h.slope (hc.lo.symm.trans hc'.lo)
  rw [hs]
  exact ⟨m.blockStart_le j _, m.lt_blockStart_add j _⟩

theorem getChildNode (h : ModelOK F live m) (key : ℤ) :
    ∃ c f, m.getChildNode key = some c ∧ c ∈ live ∧ ChildAt F m (m.bucketOf key) c f := by
  obtain ⟨c, f, hl, hc⟩ := h.child _ (m.bucketOf_lt h.pos key)
  exact ⟨c, f, hc.child, hl, hc⟩

end ModelOK

/-! ### Key ranges -/

/-- The range of a block of slots that has the slot of the key. -/
theorem inside_block {LO HI : ℚ} {m : ModelNode} {key : ℤ} (ha : 0 < m.model.a)
    (h : Inside LO HI (m.edge 0) (m.edge m.numChildren) key) {s e : ℕ} (hs : s ≤ m.bucketOf key)
    (he : m.bucketOf key < e) (hle : e ≤ m.numChildren) : Inside LO HI (m.edge s)
    (m.edge e) key := by
  obtain ⟨h1, h2⟩ := (m.bucketOf_mem_iff ha (by omega) hle).mp ⟨hs, he⟩
  refine ⟨?_, ?_⟩
  · rcases h1 with rfl | h1
    · exact h.1
    · exact Or.inl h1
  · rcases h2 with rfl | h2
    · exact h.2
    · exact Or.inl h2

/-- A key inside the range of a block has its slot there, unless the block ends the whole range. -/
theorem bucketOf_of_inside {LO HI : ℚ} {m : ModelNode} {key : ℤ} (ha : 0 < m.model.a)
    {s e : ℕ} (hse : s < e) (hle : e ≤ m.numChildren)
    (hLO : m.edge s = LO → s = 0) (hHI : m.edge e = HI → e = m.numChildren)
    (h : Inside LO HI (m.edge s) (m.edge e) key) : s ≤ m.bucketOf key ∧ m.bucketOf key < e := by
  refine (m.bucketOf_mem_iff ha hse hle).mpr ⟨?_, ?_⟩
  · rcases h.1 with h1 | h1
    · exact Or.inr h1
    · exact Or.inl (hLO h1)
  · rcases h.2 with h2 | h2
    · exact Or.inr h2
    · exact Or.inl (hHI h2)

/-- The range of the child that a key is led to. -/
theorem ChildAt.inside {F : NodeId → Option Frame} {live : Set NodeId} {m : ModelNode}
    (hm : ModelOK F live m) {c : NodeId} {f : Frame} {key : ℤ} {LO HI : ℚ}
    (hc : ChildAt F m (m.bucketOf key) c f)
    (h : Inside LO HI (m.edge 0) (m.edge m.numChildren) key) : Inside LO HI f.lo f.hi key := by
  obtain ⟨g, hg⟩ := hm.size
  rw [hc.lo, hc.hi]
  exact inside_block hm.slope h (m.blockStart_le _ _) (m.lt_blockStart_add _ _)
    (m.blockStart_add_le hg (m.bucketOf_lt hm.pos key))

/-! ### Trails -/

/-- The nodes that a descent with the key visits, down to a leaf. -/
def Trail (F : NodeId → Option Frame) (key : ℤ) : List NodeId → Prop
  | [] => False
  | [x] => ∃ level d lo hi, F x = some (.leaf level d lo hi)
  | x :: y :: rest =>
      (∃ m, F x = some (.node m) ∧ m.getChildNode key = some y) ∧ Trail F key (y :: rest)

namespace Trail

variable {F F' : NodeId → Option Frame} {key : ℤ}

/-- A trail is determined by its first node. -/
theorem unique : ∀ {l l' : List NodeId} {x : NodeId}, Trail F key (x :: l) → Trail F key (x :: l') →
    l = l'
  | [], [], _, _, _ => rfl
  | [], y :: l', x, h, h' => by
      obtain ⟨level, d, lo, hi, hf⟩ := h
      obtain ⟨m, hm, _⟩ := h'.1
      rw [hf] at hm
      cases hm
  | y :: l, [], x, h, h' => by
      obtain ⟨level, d, lo, hi, hf⟩ := h'
      obtain ⟨m, hm, _⟩ := h.1
      rw [hf] at hm
      cases hm
  | y :: l, y' :: l', x, h, h' => by
      obtain ⟨⟨m, hm, hy⟩, hrest⟩ := h
      obtain ⟨⟨m', hm', hy'⟩, hrest'⟩ := h'
      rw [hm] at hm'
      cases hm'
      obtain rfl := Option.some.inj (hy.symm.trans hy')
      rw [unique hrest hrest']

/-- A trail goes on behind each of its nodes. -/
theorem suffix : ∀ {A : List NodeId} {x : NodeId} {B : List NodeId}, Trail F key (A ++ x :: B) →
    Trail F key (x :: B)
  | [], _, _, h => h
  | [_], _, _, h => h.2
  | _ :: y :: A, _, _, h => suffix (A := y :: A) h.2

/-- A trail visits no node twice: it would never end. -/
theorem nodup {l : List NodeId} (h : Trail F key l) : l.Nodup := by
  induction l with
  | nil => exact List.nodup_nil
  | cons x l ih =>
      have hrest : l.Nodup := by
        cases l with
        | nil => exact List.nodup_nil
        | cons y l => exact ih h.2
      refine List.nodup_cons.mpr ⟨fun hmem => ?_, hrest⟩
      obtain ⟨A, B, rfl⟩ := List.append_of_mem hmem
      have hsuf : Trail F key (x :: B) := suffix (A := x :: A) h
      have hlen := congrArg List.length (unique h hsuf)
      simp only [List.length_append, List.length_cons] at hlen
      omega

/-- The nodes of a trail may change as long as they lead the key the same way. -/
theorem congr : ∀ {l : List NodeId}, Trail F key l →
    (∀ x ∈ l, ∀ m, F x = some (.node m) →
      ∃ m', F' x = some (.node m') ∧ m'.getChildNode key = m.getChildNode key) →
    (∀ x ∈ l, ∀ level d lo hi, F x = some (.leaf level d lo hi) →
      ∃ level' d' lo' hi', F' x = some (.leaf level' d' lo' hi')) → Trail F' key l
  | [x], ⟨level, d, lo, hi, hf⟩, _, hleaf => hleaf x (List.mem_cons_self ..) level d lo hi hf
  | x :: y :: l, ⟨⟨m, hm, hy⟩, hrest⟩, hnode, hleaf => by
      obtain ⟨m', hm', hc⟩ := hnode x (List.mem_cons_self ..) m hm
      exact ⟨⟨m', hm', hc.trans hy⟩, congr hrest (fun z hz => hnode z (List.mem_cons_of_mem x hz))
        (fun z hz => hleaf z (List.mem_cons_of_mem x hz))⟩

/-- The nodes before the last one are model nodes. -/
theorem node_of_next : ∀ {A : List NodeId} {x y : NodeId} {B : List NodeId},
    Trail F key (A ++ x :: y :: B) → ∃ m, F x = some (.node m) ∧ m.getChildNode key = some y :=
  fun h => (suffix h).1

end Trail

/-- The number of live nodes at or below a level. -/
noncomputable def rankFrom (F : NodeId → Option Frame) (live : Set NodeId) (len : ℕ) (level : ℤ) :
    ℕ :=
  open Classical in
  ((List.range len).filter (fun y => y ∈ live ∧ ∃ f, F y = some f ∧ level ≤ f.level)).length

theorem rankFrom_le (F : NodeId → Option Frame) (live : Set NodeId) (len : ℕ) (level : ℤ) :
    rankFrom F live len level ≤ len := by
  unfold rankFrom
  exact (List.length_filter_le _ _).trans List.length_range.le

theorem rankFrom_lt {F : NodeId → Option Frame} {live : Set NodeId} {len : ℕ} {x : NodeId}
    {f : Frame} (hx : x ∈ live) (hf : F x = some f) (hlen : x < len) :
    rankFrom F live len (f.level + 1) < rankFrom F live len f.level := by
  classical
  unfold rankFrom
  rw [← List.countP_eq_length_filter, ← List.countP_eq_length_filter]
  obtain ⟨A, B, hAB⟩ := List.append_of_mem (List.mem_range.mpr hlen)
  rw [hAB, List.countP_append, List.countP_append, List.countP_cons, List.countP_cons]
  have hmono : ∀ l : List ℕ,
      l.countP (fun y => decide (y ∈ live ∧ ∃ f', F y = some f' ∧ f.level + 1 ≤ f'.level)) ≤
        l.countP (fun y => decide (y ∈ live ∧ ∃ f', F y = some f' ∧ f.level ≤ f'.level)) := by
    intro l
    refine List.countP_mono_left (fun y _ hy => ?_)
    obtain ⟨h1, f', h2, h3⟩ := of_decide_eq_true hy
    exact decide_eq_true ⟨h1, f', h2, by omega⟩
  have h1 := hmono A
  have h2 := hmono B
  rw [if_neg (by
    rw [decide_eq_true_eq]
    rintro ⟨_, f', hf', hle⟩
    obtain rfl := Option.some.inj (hf.symm.trans hf')
    omega), if_pos (decide_eq_true ⟨hx, f, hf, le_refl _⟩)]
  omega

namespace Tree

variable {F : NodeId → Option Frame} {root : NodeId} {live : Set NodeId} {par : NodeId → NodeId}

/-- Every descent of a key inside the range ends in a leaf; the nodes on the way are live, have the
key inside their range and lie on increasing levels. -/
theorem exists_trail (ht : Tree F root live par) {len : ℕ} (hlen : ∀ x ∈ live, x < len)
    {LO HI : ℚ} (key : ℤ) : ∀ (n : ℕ) (x : NodeId) (f : Frame), x ∈ live → F x = some f →
      Inside LO HI f.lo f.hi key → rankFrom F live len f.level ≤ n →
      ∃ l, Trail F key (x :: l) ∧ l.length < n ∧
        ∀ y ∈ l, y ∈ live ∧ ∃ f', F y = some f' ∧ f.level < f'.level ∧ Inside LO HI f'.lo f'.hi key
  | 0, x, f, hx, hf, _, hn => absurd (rankFrom_lt hx hf (hlen x hx)) (by omega)
  | n + 1, x, f, hx, hf, hin, hn => by
      cases f with
      | leaf level d lo hi =>
          exact ⟨[], ⟨level, d, lo, hi, hf⟩, Nat.succ_pos n, by simp⟩
      | node m =>
          have hm := ht.model x hx m hf
          obtain ⟨c, f, hget, hl, hc⟩ := hm.getChildNode key
          have hinc := hc.inside hm hin
          have hlt := rankFrom_lt hx hf (hlen x hx)
          have hlevel : f.level = (Frame.node m).level + 1 := hc.level
          rw [← hlevel] at hlt
          obtain ⟨l, htr, hlength, hall⟩ := ht.exists_trail hlen key n c f hl hc.get hinc (by omega)
          refine ⟨c :: l, ⟨⟨m, hf, hget⟩, htr⟩, by simp; omega, ?_⟩
          intro y hy
          rcases List.mem_cons.mp hy with rfl | hy
          · exact ⟨hl, f, hc.get, by omega, hinc⟩
          · obtain ⟨hyl, f', hf', hlv, hin'⟩ := hall y hy
            exact ⟨hyl, f', hf', by omega, hin'⟩

end Tree

/-! ### Descents along a trail -/

namespace Index

variable {M P : Type} {h : Heap M P} {key : ℤ}

theorem descend_trail : ∀ (l : List NodeId) (x : NodeId) (fuel : ℕ), Trail h.frame key (x :: l) →
    l ≠ [] → l.length ≤ fuel →
    ∃ leaf X, descend h key fuel x = some (leaf, X) ∧ leaf ∈ l ∧
      ∃ n, h[leaf]? = some (.data n)
  | [], _, _, _, hne, _ => absurd rfl hne
  | y :: l, x, 0, _, _, hfuel => absurd hfuel (by simp)
  | y :: l, x, fuel + 1, htr, _, hfuel => by
      obtain ⟨⟨m, hm, hget⟩, htr⟩ := htr
      unfold descend
      rw [Heap.modelAt_eq_some.mpr (Heap.frame_node.mp hm), Option.bind_eq_bind, Option.bind_some,
        hget, Option.bind_eq_bind, Option.bind_some]
      cases l with
      | nil =>
          obtain ⟨level, d, lo, hi, hf⟩ := htr
          obtain ⟨n, hn, _⟩ := Heap.frame_leaf.mp hf
          simp only [hn]
          exact ⟨y, _, rfl, List.mem_cons_self .., n, hn⟩
      | cons z l =>
          obtain ⟨m', hm', _⟩ := htr.1
          simp only [Heap.frame_node.mp hm']
          obtain ⟨leaf, X, hd, hmem, hn⟩ := descend_trail (z :: l) y fuel htr (by simp)
            (by simpa using hfuel)
          exact ⟨leaf, X, hd, List.mem_cons_of_mem y hmem, hn⟩

/-- The path to a node on the trail ends with its parent. -/
theorem pathTo_trail {c : NodeId} {rest : List NodeId} : ∀ (mid : List NodeId) (x : NodeId)
    (fuel : ℕ) (path : List (NodeId × ℕ)), Trail h.frame key (x :: (mid ++ c :: rest)) → c ∉ mid →
      mid.length < fuel →
    ∃ p m path', pathTo h key c fuel x path = some ((p, m.bucketOf key) :: path', none) ∧
      (x :: mid).getLast? = some p ∧ h[p]? = some (.model m) ∧ m.getChildNode key = some c
  | _, _, 0, _, _, _, hfuel => absurd hfuel (Nat.not_lt_zero _)
  | [], x, fuel + 1, path, htr, _, _ => by
      obtain ⟨⟨m, hm, hget⟩, _⟩ := htr
      have hx := Heap.frame_node.mp hm
      unfold pathTo
      simp only [Heap.modelAt_eq_some.mpr hx, hget, Option.bind_eq_bind, Option.bind_some, if_pos]
      exact ⟨x, m, path, rfl, rfl, hx, hget⟩
  | y :: mid, x, fuel + 1, path, htr, hc, hfuel => by
      obtain ⟨⟨m, hm, hget⟩, htr⟩ := htr
      have hyc : ¬ y = c := fun h => hc (h ▸ List.mem_cons_self ..)
      obtain ⟨my, hmy⟩ : ∃ my, h[y]? = some (.model my) := by
        cases mid with
        | nil => exact ⟨_, Heap.frame_node.mp htr.1.choose_spec.1⟩
        | cons z mid => exact ⟨_, Heap.frame_node.mp htr.1.choose_spec.1⟩
      unfold pathTo
      simp only [Heap.modelAt_eq_some.mpr (Heap.frame_node.mp hm), hget, Option.bind_eq_bind,
        Option.bind_some, if_neg hyc, hmy]
      obtain ⟨p, mp, path', hp, hmem, hx, hg⟩ := pathTo_trail mid y fuel
        ((x, m.bucketOf key) :: path) htr (fun h => hc (List.mem_cons_of_mem y h))
        (by simpa using hfuel)
      exact ⟨p, mp, path', hp, by rw [List.getLast?_cons_cons]; exact hmem, hx, hg⟩

end Index

end LearnedIndex.Alexol
