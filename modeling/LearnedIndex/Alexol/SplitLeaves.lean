import LearnedIndex.Alexol.Resize
import LearnedIndex.Alexol.SplitPlace

/-! # The new leaves at their place

A split ends by relinking the list of leaves around the new ones and by releasing all locks
(`linkParts_spec`, `finishSplit_spec`).  Then the new leaves have taken over the block of the old
one (`NewLeaves`): they are children of the model node, their key ranges follow each other, and
together they store its pairs. -/

namespace LearnedIndex.Alexol

open LearnedIndex.Chains LearnedIndex.Dyadic

variable {M P : Type}

/-! ### Relinking -/

/-- The arena `h` before relinking: besides the nodes of the index it has the new leaves, linked
among themselves. -/
structure Unlinked (s : Index M P) (h : Heap M P) (L : NodeId) (n : DataNode M P)
    (ids : List NodeId) : Prop where
  ne : ids ≠ []
  nodup : ids.Nodup
  fresh : ∀ x ∈ ids, s.heap.length ≤ x
  leaf : ∃ o, h.dataAt L = some o ∧ o.links = n.links ∧ o.lock = n.lock
  others : ∀ x, x ≠ L → x ∉ ids → h.dataAt x = s.heap.dataAt x
  new : ∀ x ∈ ids, ∃ k, h.dataAt x = some k ∧ k.linkLock = 0#32
  linked : Linked h.prev h.next none ids none

theorem Unlinked.congr {s : Index M P} {h h' : Heap M P} {L : NodeId} {n : DataNode M P}
    {ids : List NodeId} (hu : Unlinked s h L n ids) (hd : h'.dataAt = h.dataAt) :
    Unlinked s h' L n ids := by
  refine ⟨hu.ne, hu.nodup, hu.fresh, by rw [hd]; exact hu.leaf, by rw [hd]; exact hu.others,
    by rw [hd]; exact hu.new, hu.linked.congr (fun x _ => ?_) (fun x _ => ?_)⟩
  · unfold Heap.prev
    rw [hd]
  · unfold Heap.next
    rw [hd]

/-- Relinking and the release of the link locks leave no lock on a new leaf. -/
theorem linkLock_free (o : Links) (L left right x : NodeId) (l : Links) (hl : l.lock = 0#32)
    (hx : x ≠ L) (hp : o.prev ≠ some x) :
    isSet (unlinking o.prev right x (linking o L left right x l)).lock = false := by
  unfold unlinking linking
  simp only [hp, hx, false_or, or_false]
  split
  · exact isSet_and_lockMask _
  · rw [hl]
    decide

namespace Index

variable {s : Index M P} {key : ℤ} {mid : List NodeId} {L p : NodeId} {n : DataNode M P}
  {m : ModelNode} {h : Heap M P} {parts : List (NodeId × ℕ)} {left right : NodeId × ℕ}

theorem head_last (hl : parts.head? = some left) (hr : parts.getLast? = some right) :
    (parts.map Prod.fst).head? = some left.1 ∧ (parts.map Prod.fst).getLast? = some right.1 := by
  rw [List.head?_map, hl, List.getLast?_map, hr]
  exact ⟨rfl, rfl⟩

theorem linkParts_spec (hr : Replaceable s key mid L p n m)
    (hu : Unlinked s h L n (parts.map Prod.fst)) (hleft : parts.head? = some left)
    (hright : parts.getLast? = some right) :
    ∃ h', linkParts h L parts = some h' ∧
      Heap.LinkStep h h' (linking n.links L left.1 right.1) := by
  obtain ⟨hl, hrr⟩ := head_last hleft hright
  have hmeml := List.mem_of_mem_head? hl
  have hmemr := List.mem_of_getLast? hrr
  obtain ⟨o, ho, hlinks, _⟩ := hu.leaf
  obtain ⟨kl, hkl, _⟩ := hu.new left.1 hmeml
  obtain ⟨kr, hkr, hkr0⟩ := hu.new right.1 hmemr
  have hL : L < s.heap.length := Heap.dataAt_lt hr.get
  have hne : ∀ x ∈ parts.map Prod.fst, ∀ y, y < s.heap.length → y ≠ x := by
    rintro x hx y hy rfl
    exact absurd hy (Nat.not_lt.mpr (hu.fresh _ hx))
  have hold : ∀ x y, s.heap.dataAt x = some y → x ≠ L → h.dataAt x = some y := by
    intro x y hy hxL
    rw [hu.others x hxL (fun hx => hne x hx x (Heap.dataAt_lt hy) rfl)]
    exact hy
  have hprev : o.prevLeaf = n.prevLeaf := congrArg Links.prev hlinks
  have hnext : o.nextLeaf = n.nextLeaf := congrArg Links.next hlinks
  have hlock : o.linkLock = n.linkLock := congrArg Links.lock hlinks
  have hn : Neighbours h L left.1 right.1 o := by
    refine ⟨ho, by rw [hlock]; exact hr.free, hne _ hmeml L hL, hne _ hmemr L hL, fun x hx => ?_,
      fun x hx => ?_⟩
    · obtain ⟨hxL, y, hy, hfree⟩ := hr.prev x (hprev ▸ hx)
      have hlt := Heap.dataAt_lt hy
      exact ⟨hxL, hne _ hmeml x hlt, hne _ hmemr x hlt, y, hold x y hy hxL, hfree⟩
    · obtain ⟨hxL, y, hy⟩ := hr.next x (hnext ▸ hx)
      have hlt := Heap.dataAt_lt hy
      exact ⟨hxL, hne _ hmeml x hlt, hne _ hmemr x hlt, y, hold x y hy hxL⟩
  obtain ⟨h', hlink, hs⟩ := linkDataNodes_step hn hkl hkr (by rw [hkr0]; decide)
  rw [hlinks] at hs
  refine ⟨h', ?_, hs⟩
  unfold linkParts
  simp only [hleft, hright, Option.bind_eq_bind, Option.bind_some]
  exact hlink

/-- The locks of the new leaves are released one by one. -/
theorem releaseLocks_step : ∀ (parts : List (NodeId × ℕ)) (h : Heap M P),
    (∀ p ∈ parts, ∃ k, h.dataAt p.1 = some k) → (parts.map Prod.fst).Nodup →
      ∃ h', parts.foldlM (fun h part => h.modifyData part.1 DataNode.releaseLock) h = some h' ∧
        Heap.DataStep h h' (fun x k => if x ∈ parts.map Prod.fst then k.releaseLock else k)
  | [], h, _, _ => ⟨h, rfl, (Heap.DataStep.refl h).congr (fun x k _ => by simp)⟩
  | p :: parts, h, hdata, hnd => by
      obtain ⟨k, hk⟩ := hdata p (List.mem_cons_self ..)
      obtain ⟨hid, hnd'⟩ := List.nodup_cons.mp hnd
      obtain ⟨h₁, hmod, hs₁⟩ := Heap.modifyData_step hk DataNode.releaseLock
      obtain ⟨h₂, hfold, hs₂⟩ := releaseLocks_step parts h₁ (fun q hq => by
        obtain ⟨k', hk'⟩ := hdata q (List.mem_cons_of_mem p hq)
        rw [hs₁.dataAt, hk']
        exact ⟨_, rfl⟩) hnd'
      refine ⟨h₂, ?_, (hs₁.trans hs₂).congr (fun x k' _ => ?_)⟩
      · rw [List.foldlM_cons, hmod]
        exact hfold
      · by_cases hx : x = p.1
        · subst hx
          simp [hid]
        · simp only [hx, if_false, List.map_cons, List.mem_cons, false_or]

/-- The end of a split, when the data nodes are those of `h` after relinking. -/
theorem finishSplit_spec (hr : Replaceable s key mid L p n m)
    (hu : Unlinked s h L n (parts.map Prod.fst)) (hleft : parts.head? = some left)
    (hright : parts.getLast? = some right) {t : Index M P}
    (hdata : ∀ x, t.heap.dataAt x =
      (h.dataAt x).map (fun y => y.withLinks (linking n.links L left.1 right.1 x y.links)))
    {q : NodeId} {mq : ModelNode} (hq : t.heap.modelAt q = some mq)
    (release : ModelNode → ModelNode) :
    ∃ h', finishSplit t L q parts release = some { t with heap := h', retired := L :: t.retired } ∧
      h'.length = t.heap.length ∧
      h'.modelAt = Function.update t.heap.modelAt q (some (release mq)) ∧
      LeafSwap s.heap h' L n (parts.map Prod.fst) ∧
      ∀ x, h'.dataAt x =
        (h.dataAt x).map (relinkedNode n L left.1 right.1 (parts.map Prod.fst) x) := by
  obtain ⟨hl, hrr⟩ := head_last hleft hright
  have hmeml := List.mem_of_mem_head? hl
  have hmemr := List.mem_of_getLast? hrr
  obtain ⟨kl, hkl, _⟩ := hu.new left.1 hmeml
  obtain ⟨kr, hkr, _⟩ := hu.new right.1 hmemr
  have hne : ∀ x ∈ parts.map Prod.fst, ∀ y, y < s.heap.length → y ≠ x := by
    rintro x hx y hy rfl
    exact absurd hy (Nat.not_lt.mpr (hu.fresh _ hx))
  have hprevlt : ∀ x, n.prevLeaf = some x → x < s.heap.length := by
    intro x hx
    obtain ⟨_, y, hy, _⟩ := hr.prev x hx
    exact Heap.dataAt_lt hy
  have hnextlt : ∀ x, n.nextLeaf = some x → x < s.heap.length := by
    intro x hx
    obtain ⟨_, y, hy⟩ := hr.next x hx
    exact Heap.dataAt_lt hy
  have hd₁ : ∀ x, (t.heap.setModel q (release mq)).dataAt x =
      (h.dataAt x).map (fun y => y.withLinks (linking n.links L left.1 right.1 x y.links)) := by
    intro x
    rw [Heap.dataAt_setModel hq, hdata]
  have hkl₁ := hd₁ left.1
  have hkr₁ := hd₁ right.1
  rw [hkl, Option.map_some] at hkl₁
  rw [hkr, Option.map_some] at hkr₁
  -- the first new leaf is linked back to the left neighbour
  have hklprev : (kl.withLinks (linking n.links L left.1 right.1 left.1 kl.links)).prevLeaf =
      n.prevLeaf := by
    show (if left.1 = left.1 ∧ n.prevLeaf ≠ none then n.prevLeaf
      else if n.nextLeaf = some left.1 then some right.1 else kl.prevLeaf) = n.prevLeaf
    have hkp : kl.prevLeaf = none := by
      have hlk := hu.linked
      cases hids : parts.map Prod.fst with
      | nil => exact absurd hids hu.ne
      | cons x l =>
          rw [hids] at hl hlk
          obtain rfl : x = left.1 := by simpa using hl
          have := hlk.1
          unfold Heap.prev at this
          rwa [hkl] at this
    by_cases hnone : n.prevLeaf = none
    · rw [if_neg (fun hc => hc.2 hnone), if_neg (fun hq => hne _ hmeml _ (hnextlt _ hq) rfl), hkp,
        hnone]
    · rw [if_pos ⟨rfl, hnone⟩]
  obtain ⟨h₂, hunlink, hs₂⟩ := releaseLinkLocks_step hkl₁ hkr₁ (fun x hx => by
    rw [hklprev] at hx
    obtain ⟨hxL, y, hy, _⟩ := hr.prev x hx
    have hlt := Heap.dataAt_lt hy
    refine ⟨hne _ hmemr x hlt, ?_⟩
    rw [hd₁, hu.others x hxL (fun hx => hne x hx x hlt rfl), hy]
    exact ⟨_, rfl⟩)
  rw [hklprev] at hs₂
  obtain ⟨h₃, hfold, hs₃⟩ := releaseLocks_step parts h₂ (fun q' hq' => by
    obtain ⟨k, hk, _⟩ := hu.new q'.1 (List.mem_map_of_mem hq')
    rw [Heap.DataStep.dataAt hs₂, hd₁, hk]
    exact ⟨_, rfl⟩) hu.nodup
  have hd₃ : ∀ x, h₃.dataAt x =
      (h.dataAt x).map (relinkedNode n L left.1 right.1 (parts.map Prod.fst) x) := by
    intro x
    rw [hs₃.dataAt, Heap.DataStep.dataAt hs₂, hd₁, Option.map_map, Option.map_map]
    congr 1
    funext y
    unfold relinkedNode
    simp only [Function.comp]
    split <;> rfl
  refine ⟨h₃, ?_, ?_, ?_, ?_, hd₃⟩
  · unfold finishSplit
    simp only [hleft, hright, Heap.modifyModel_eq hq, hunlink, hfold, Option.bind_eq_bind,
      Option.bind_some]
  · rw [hs₃.length, Heap.DataStep.length hs₂, Heap.length_setModel]
  · rw [hs₃.modelAt, Heap.DataStep.modelAt hs₂, Heap.modelAt_setModel hq]
  · exact LeafSwap.of_links h (relinkedNode n L left.1 right.1 (parts.map Prod.fst)) hr.get hu.fresh
      hu.nodup hl hrr hprevlt hnextlt hu.others (fun x hx => by
        obtain ⟨k, hk, _⟩ := hu.new x hx
        exact ⟨k, hk⟩) hu.linked (Or.inl rfl) (Or.inl rfl) hd₃ (fun x y => rfl)
      (fun x y hx => relinkedNode_old _ _ _ _ y hx)

end Index

/-! ### New leaves below a model node -/

/-- The leaf `k` of the cell `b`, in the block of `n` below the model node `m`. -/
structure PartAt (T : KeyType) (m : ModelNode) (n : DataNode M P) (g d D start : ℕ)
    (b : NodeId × ℕ × ℕ) (k : DataNode M P) : Prop where
  level : k.level = m.level + 1
  localDepth : k.localDepth = d + b.2.1
  lo : k.minLimit = m.edge (start + b.2.2 * Block.unit g d D)
  hi : k.maxLimit = m.edge (start + (b.2.2 + 2 ^ (D - b.2.1)) * Block.unit g d D)
  pairs : k.pairs = n.cellPairs D b.2.1 b.2.2
  ready : k.Ready T
  linkFree : isSet k.linkLock = false

/-- The leaves `parts` have taken over the block of `n`. -/
structure NewLeaves (T : KeyType) (h : Heap M P) (m : ModelNode) (n : DataNode M P)
    (g d D start : ℕ) (parts : List (NodeId × ℕ)) : Prop where
  steps : Steps D (parts.map Prod.snd) 0
  leaf : ∀ b ∈ starts (fun l => 2 ^ (D - l)) parts 0,
    ∃ k, h.dataAt b.1 = some k ∧ PartAt T m n g d D start b k

namespace NewLeaves

variable {T : KeyType} {h : Heap M P} {m m' : ModelNode} {n : DataNode M P} {g d D start : ℕ}
  {parts : List (NodeId × ℕ)}

/-- Every new leaf belongs to a cell. -/
theorem exists_cell (hw : NewLeaves T h m n g d D start parts) {x : NodeId}
    (hx : x ∈ parts.map Prod.fst) : ∃ b ∈ starts (fun l => 2 ^ (D - l)) parts 0, b.1 = x ∧
      ∃ k, h.dataAt x = some k ∧ PartAt T m n g d D start b k := by
  obtain ⟨p, hp, rfl⟩ := List.mem_map.mp hx
  obtain ⟨y, hy⟩ := exists_starts (w := fun l => 2 ^ (D - l)) hp
  exact ⟨_, hy, rfl, hw.leaf _ hy⟩

theorem mem_ids {b : NodeId × ℕ × ℕ} (hb : b ∈ starts (fun l => 2 ^ (D - l)) parts 0) :
    b.1 ∈ parts.map Prod.fst :=
  List.mem_map.mpr ⟨_, label_mem_of_starts hb, rfl⟩

theorem ready (hw : NewLeaves T h m n g d D start parts) {x : NodeId}
    (hx : x ∈ parts.map Prod.fst) {k : DataNode M P} (hk : h.dataAt x = some k) : k.Ready T := by
  obtain ⟨b, _, _, k', hk', hp⟩ := hw.exists_cell hx
  obtain rfl := Option.some.inj (hk'.symm.trans hk)
  exact hp.ready

/-- Every new leaf has keys of its own range only. -/
theorem leafOK (hw : NewLeaves T h m n g d D start parts) (hb : Block m n g d D start)
    (hs : n.Stores T) {LO HI : ℚ} (hin : ∀ e ∈ n.pairs, Inside LO HI n.minLimit n.maxLimit e.1) :
    ∀ x ∈ parts.map Prod.fst, ∃ k, h.dataAt x = some k ∧ k.minLimit < k.maxLimit ∧
      LeafOK LO HI k := by
  intro x hx
  obtain ⟨b, hbs, _, k, hk, hp⟩ := hw.exists_cell hx
  obtain ⟨_, _, _, hle⟩ := hw.steps.mem_starts hbs
  refine ⟨k, hk, ?_, hp.linkFree, fun e he => ?_⟩
  · rw [hp.lo, hp.hi, ModelNode.edge_lt_edge hb.slope]
    refine Nat.add_lt_add_left (Nat.mul_lt_mul_of_pos_right ?_ (Block.unit_pos g d D)) start
    exact Nat.lt_add_of_pos_right (Nat.two_pow_pos _)
  · rw [hp.pairs] at he
    rw [hp.lo, hp.hi]
    exact hb.inside hs hin hle he

/-- The ranges of cells that follow each other. -/
theorem spans_cells (hb : Block m n g d D start) : ∀ {parts : List (NodeId × ℕ)} {cur : ℕ},
    Steps D (parts.map Prod.snd) cur →
    (∀ b ∈ starts (fun l => 2 ^ (D - l)) parts cur, ∃ k, h.dataAt b.1 = some k ∧
      PartAt T m n g d D start b k) →
    Spans h.lo h.hi (m.edge (start + cur * Block.unit g d D)) (parts.map Prod.fst) n.maxLimit
  | [], cur, hs, _ => by
      obtain rfl : cur = 2 ^ D := hs
      rw [hb.hi, hb.size_eq]
      rfl
  | (id, l) :: parts, cur, hs, hleaf => by
      obtain ⟨k, hk, hp⟩ := hleaf (id, l, cur) (List.mem_cons_self ..)
      have hlo : h.lo id = k.minLimit := Heap.lo_data hk
      have hhi : h.hi id = k.maxLimit := Heap.hi_data hk
      refine ⟨hlo.trans hp.lo, ?_⟩
      show Spans _ _ (h.hi id) _ _
      rw [hhi, hp.hi]
      exact spans_cells hb hs.2.2 (fun b hbs => hleaf b (List.mem_cons_of_mem _ hbs))

theorem spans (hw : NewLeaves T h m n g d D start parts) (hb : Block m n g d D start) :
    Spans h.lo h.hi n.minLimit (parts.map Prod.fst) n.maxLimit := by
  have := spans_cells hb hw.steps hw.leaf
  rwa [Nat.zero_mul, Nat.add_zero, ← hb.lo] at this

/-- Every slot of the block points at a new leaf that takes the block of its cell. -/
theorem childAt (hw : NewLeaves T h m n g d D start parts) (hb : Block m n g d D start)
    (hshape : SameShape m m')
    (hslots : ∀ b ∈ starts (fun l => 2 ^ (D - l)) parts 0, ∀ j,
      start + b.2.2 * Block.unit g d D ≤ j →
      j < start + (b.2.2 + 2 ^ (D - b.2.1)) * Block.unit g d D → m'.childAt j = some b.1) {j : ℕ}
    (h1 : start ≤ j) (h2 : j < start + 2 ^ (g - d)) :
    ∃ c f, c ∈ parts.map Prod.fst ∧ ChildAt h.frame m' j c f := by
  have hu := Block.unit_pos g d D
  obtain ⟨y, hy, hyD⟩ : ∃ y, y = (j - start) / Block.unit g d D ∧ y < 2 ^ D := by
    refine ⟨_, rfl, ?_⟩
    rw [Nat.div_lt_iff_lt_mul hu, ← hb.size_eq]
    omega
  obtain ⟨b, hbs, hy1, hy2⟩ := hw.steps.exists_cell (Nat.zero_le y) hyD
  obtain ⟨hl, hdvd, _, _⟩ := hw.steps.mem_starts hbs
  obtain ⟨k, hk, hp⟩ := hw.leaf b hbs
  -- the slot lies in the block of the cell
  have hj1 : start + b.2.2 * Block.unit g d D ≤ j := by
    rw [hy, Nat.le_div_iff_mul_le hu] at hy1
    omega
  have hj2 : j < start + (b.2.2 + 2 ^ (D - b.2.1)) * Block.unit g d D := by
    rw [hy, Nat.div_lt_iff_lt_mul hu] at hy2
    omega
  have hsize : m'.numChildren = 2 ^ g := hshape.numChildren.trans hb.size
  have hrep : m'.repeats (d + b.2.1) = 2 ^ (D - b.2.1) * Block.unit g d D := by
    rw [ModelNode.repeats_eq hsize]
    exact hb.partSlots_eq hl
  have hstart : m'.blockStart j (d + b.2.1) = start + b.2.2 * Block.unit g d D := by
    refine ModelNode.blockStart_of_mem ?_ hj1 ?_
    · rw [hrep]
      refine dvd_add (dvd_trans ?_ hb.aligned) (Nat.mul_dvd_mul_right hdvd _)
      rw [hb.size_eq]
      exact Nat.mul_dvd_mul_right (pow_dvd_pow 2 (Nat.sub_le _ _)) _
    · rw [hrep, Nat.add_assoc, ← Nat.add_mul]
      exact hj2
  have hstop : start + b.2.2 * Block.unit g d D + 2 ^ (D - b.2.1) * Block.unit g d D =
      start + (b.2.2 + 2 ^ (D - b.2.1)) * Block.unit g d D := by
    rw [Nat.add_mul, Nat.add_assoc]
  refine ⟨b.1, _, mem_ids hbs, Heap.frame_data hk, ?_, ?_, ?_, ?_, ?_⟩
  · show k.level = m'.level + 1
    rw [hp.level, hshape.level]
  · show k.localDepth ≤ log2RoundDown m'.numChildren
    have hdep := hb.depth
    rw [hp.localDepth, hsize, log2RoundDown_two_pow]
    omega
  all_goals
    simp only [Frame.localDepth, Frame.lo, Frame.hi, hp.localDepth, hstart, hrep, hstop,
      hshape.edge]
  · exact hslots b hbs
  · exact hp.lo
  · exact hp.hi

/-- Together the new leaves store the pairs of the old one. -/
theorem pairs_iff (hw : NewLeaves T h m n g d D start parts) (hb : Block m n g d D start)
    (hs : n.Stores T) (e : ℤ × P) :
    (∃ x ∈ parts.map Prod.fst, ∃ k, h.dataAt x = some k ∧ e ∈ k.pairs) ↔ e ∈ n.pairs := by
  rw [← hs.flatMap_parts hb.lt hw.steps, List.mem_flatMap]
  constructor
  · rintro ⟨x, hx, k, hk, he⟩
    obtain ⟨b, hbs, _, k', hk', hp⟩ := hw.exists_cell hx
    obtain rfl := Option.some.inj (hk'.symm.trans hk)
    exact ⟨b, hbs, by rwa [← hp.pairs]⟩
  · rintro ⟨b, hbs, he⟩
    obtain ⟨k, hk, hp⟩ := hw.leaf b hbs
    exact ⟨b.1, mem_ids hbs, k, hk, by rwa [hp.pairs]⟩

end NewLeaves

/-! ### From the created leaves to their places -/

/-- A new leaf with its block, before the list of leaves is relinked. -/
def PlacedAt (T : KeyType) (h : Heap M P) (m : ModelNode) (n : DataNode M P) (g d D start : ℕ)
    (b : NodeId × ℕ × ℕ) : Prop :=
  ∃ k : DataNode M P, k.lock = lockSet ∧ k.Fresh T (n.cellPairs D b.2.1 b.2.2) ∧ h.dataAt b.1 =
    some (k.placed m (d + b.2.1) (start + b.2.2 * Block.unit g d D)
      (2 ^ (D - b.2.1) * Block.unit g d D))

theorem PlacedAt.congr {T : KeyType} {h h' : Heap M P} {m : ModelNode} {n : DataNode M P}
    {g d D start : ℕ} {b : NodeId × ℕ × ℕ} (hp : PlacedAt T h m n g d D start b)
    (hd : h'.dataAt = h.dataAt) : PlacedAt T h' m n g d D start b := by
  obtain ⟨k, h1, h2, h3⟩ := hp
  exact ⟨k, h1, h2, by rw [hd]; exact h3⟩

namespace Created

variable {T : KeyType} {s : Index M P} {h₁ h₂ h₃ : Heap M P} {L : NodeId} {m : ModelNode}
  {n : DataNode M P} {g d D start : ℕ} {parts : List (NodeId × ℕ)}

theorem ids_nodup (hc : Created T s.heap h₁ L n D parts) : (parts.map Prod.fst).Nodup := by
  rw [hc.ids]
  exact List.nodup_range'

theorem fresh (hc : Created T s.heap h₁ L n D parts) {x : NodeId} (hx : x ∈ parts.map Prod.fst) :
    s.heap.length ≤ x ∧ x < h₁.length := by
  rw [hc.ids, List.mem_range'_1] at hx
  rw [hc.length]
  exact hx

theorem ne_nil (hc : Created T s.heap h₁ L n D parts) : parts ≠ [] := by
  rintro rfl
  exact hc.steps.ne_nil (Nat.two_pow_pos D) rfl

/-- The arena after the new leaves have got their places. -/
theorem unlinked (hc : Created T s.heap h₁ L n D parts) (hL : L < s.heap.length)
    (hothers : ∀ x, x ∉ parts.map Prod.fst → h₃.dataAt x = h₁.dataAt x)
    (hparts : ∀ b ∈ starts (fun l => 2 ^ (D - l)) parts 0, ∀ k, h₁.dataAt b.1 = some k →
      ∃ d x c, h₃.dataAt b.1 = some (k.placed m d x c)) :
    Unlinked s h₃ L n (parts.map Prod.fst) := by
  have hLids : L ∉ parts.map Prod.fst := fun h =>
    absurd hL (Nat.not_lt.mpr (hc.fresh h).1)
  have hcell : ∀ x ∈ parts.map Prod.fst, ∃ k d y c, h₁.dataAt x = some k ∧ k.linkLock = 0#32 ∧
      h₃.dataAt x = some (k.placed m d y c) := by
    intro x hx
    obtain ⟨p, hp, rfl⟩ := List.mem_map.mp hx
    obtain ⟨y, hy⟩ := exists_starts (w := fun l => 2 ^ (D - l)) hp
    obtain ⟨k, hk, _, hfresh⟩ := hc.part _ hy
    obtain ⟨d, x, c, hk'⟩ := hparts _ hy k hk
    exact ⟨k, d, x, c, hk, hfresh.linkLock, hk'⟩
  refine ⟨by simpa using hc.ne_nil, hc.ids_nodup, fun x hx => (hc.fresh hx).1, ?_,
    fun x hxL hx => ?_, fun x hx => ?_, hc.linked.congr (fun x hx => ?_) (fun x hx => ?_)⟩
  · obtain ⟨a, b, ha⟩ := hc.leaf
    exact ⟨n.retiring a b, (hothers L hLids).trans ha, rfl, rfl⟩
  · rw [hothers x hx]
    rcases Nat.lt_or_ge x s.heap.length with hlt | hge
    · exact hc.others x hxL hlt
    · have h1 : h₁.length ≤ x := by
        by_contra hcon
        refine hx ?_
        rw [hc.ids, List.mem_range'_1, ← hc.length]
        exact ⟨hge, Nat.not_le.mp hcon⟩
      unfold Heap.dataAt
      rw [List.getElem?_eq_none h1, List.getElem?_eq_none hge]
  · obtain ⟨k, d, y, c, _, hlock, hk'⟩ := hcell x hx
    exact ⟨_, hk', hlock⟩
  · obtain ⟨k, d, y, c, hk, _, hk'⟩ := hcell x hx
    unfold Heap.prev
    rw [hk, hk']
    rfl
  · obtain ⟨k, d, y, c, hk, _, hk'⟩ := hcell x hx
    unfold Heap.next
    rw [hk, hk']
    rfl

/-- The new leaves get their places below the model node `m`. -/
theorem place (hc : Created T s.heap h₁ L n D parts) (hL : L < s.heap.length)
    (hb : Block m n g d D start) (hdata : h₂.dataAt = h₁.dataAt)
    {children : List (Option NodeId)} (hlen : start + 2 ^ (g - d) ≤ children.length) :
    ∃ h₃ children', Index.placeParts m d g parts start h₂ children = some (h₃, children') ∧
      h₃.length = h₂.length ∧ h₃.modelAt = h₂.modelAt ∧ children'.length = children.length ∧
      (∀ j, ¬ (start ≤ j ∧ j < start + 2 ^ (g - d)) → children'[j]? = children[j]?) ∧
      (∀ b ∈ starts (fun l => 2 ^ (D - l)) parts 0, ∀ j, start + b.2.2 * Block.unit g d D ≤ j →
        j < start + (b.2.2 + 2 ^ (D - b.2.1)) * Block.unit g d D →
        children'[j]? = some (some b.1)) ∧
      Unlinked s h₃ L n (parts.map Prod.fst) ∧
      ∀ b ∈ starts (fun l => 2 ^ (D - l)) parts 0, PlacedAt T h₃ m n g d D start b := by
  have hstop := hb.stop_eq hc.steps
  obtain ⟨h₃, children', hplace, hlen₃, hmodel, hothers, hlen', hkeep, hparts⟩ :=
    Index.placeParts_spec (m := m) (d := d) (g := g) parts start h₂ children (fun p hp => by
      obtain ⟨y, hy⟩ := exists_starts (w := fun l => 2 ^ (D - l)) hp
      obtain ⟨k, hk, _⟩ := hc.part _ hy
      exact ⟨k, by rw [hdata]; exact hk⟩) hc.ids_nodup (by rw [hstop]; exact hlen)
  rw [hb.starts_eq hc.steps] at hparts
  rw [hstop] at hkeep
  rw [hdata] at hothers hparts
  have hcells : ∀ b ∈ starts (fun l => 2 ^ (D - l)) parts 0,
      (∀ k, h₁.dataAt b.1 = some k → h₃.dataAt b.1 = some (k.placed m (d + b.2.1)
        (start + b.2.2 * Block.unit g d D) (2 ^ (D - b.2.1) * Block.unit g d D))) ∧
      ∀ j, start + b.2.2 * Block.unit g d D ≤ j →
        j < start + (b.2.2 + 2 ^ (D - b.2.1)) * Block.unit g d D →
        children'[j]? = some (some b.1) := by
    intro b hbs
    have h := hparts _ (List.mem_map_of_mem hbs)
    simp only [hb.partSlots_eq (hc.steps.mem_starts hbs).1] at h
    rw [Nat.add_assoc, ← Nat.add_mul] at h
    exact h
  refine ⟨h₃, children', hplace, hlen₃, hmodel, hlen', fun j hj => hkeep j (by omega),
    fun b hbs => (hcells b hbs).2,
    hc.unlinked hL hothers (fun b hbs k hk => ⟨_, _, _, (hcells b hbs).1 k hk⟩), fun b hbs => ?_⟩
  obtain ⟨k, hk, hlock, hfresh⟩ := hc.part b hbs
  exact ⟨k, hlock, hfresh, (hcells b hbs).1 k hk⟩

end Created

/-- The new leaves after relinking. -/
theorem NewLeaves.of_placed {T : KeyType} {s : Index M P} {h₃ h' : Heap M P} {L : NodeId}
    {m : ModelNode} {n : DataNode M P} {g d D start : ℕ} {parts : List (NodeId × ℕ)}
    {left right : NodeId × ℕ} (hs : Steps D (parts.map Prod.snd) 0)
    (hu : Unlinked s h₃ L n (parts.map Prod.fst)) (hL : L < s.heap.length)
    (hprev : ∀ x, n.prevLeaf = some x → x < s.heap.length)
    (hparts : ∀ b ∈ starts (fun l => 2 ^ (D - l)) parts 0, PlacedAt T h₃ m n g d D start b)
    (hdata : ∀ x, h'.dataAt x =
      (h₃.dataAt x).map (Index.relinkedNode n L left.1 right.1 (parts.map Prod.fst) x)) :
    NewLeaves T h' m n g d D start parts := by
  refine ⟨hs, fun b hbs => ?_⟩
  obtain ⟨k, hlock, hfresh, hk⟩ := hparts b hbs
  have hmem := NewLeaves.mem_ids hbs
  have hge := hu.fresh _ hmem
  have hk' := hdata b.1
  rw [hk, Option.map_some, Index.relinkedNode_new _ _ _ _ _ hmem] at hk'
  have hne : b.1 ≠ L := fun h => absurd hL (Nat.not_lt.mpr (h ▸ hge))
  refine ⟨_, hk', rfl, rfl, rfl, ?_, (DataNode.pairs_congr rfl).trans hfresh.pairs_eq,
    ⟨hfresh.stores.congr rfl rfl, hfresh.room.congr rfl rfl rfl, ?_⟩, ?_⟩
  · show m.edge _ = _
    rw [Nat.add_assoc, ← Nat.add_mul]
  · show isSet (k.lock + 1#32 - lockSet) = false
    rw [hlock]
    decide
  · exact linkLock_free n.links L left.1 right.1 b.1 _ hfresh.linkLock hne
      (fun h => absurd (hprev _ h) (Nat.not_lt.mpr hge))

end LearnedIndex.Alexol
