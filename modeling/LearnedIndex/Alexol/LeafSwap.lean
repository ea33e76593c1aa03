import LearnedIndex.Alexol.Parent

/-! # Putting new leaves at the place of a leaf

A resize puts one new leaf at the place of a leaf and a split puts several there.  `LeafSwap` says
what both do to the data nodes, and `Good.swap` that the invariant survives it, once the new tree
is known. -/

namespace LearnedIndex.Alexol

open LearnedIndex.Chains

variable {M P : Type}

/-- The links of the node `x` after the leaves `N` have replaced a leaf with the links `o`. -/
def relinked (o : Links) (N : List NodeId) (x : NodeId) (l : Links) : Links where
  prev := if o.next = some x then N.getLast? else l.prev
  next := if o.prev = some x then N.head? else l.next
  lock := if o.prev = some x then taken l.lock &&& lockMask else l.lock

/-- The leaves `N` have replaced the leaf `L`. -/
structure LeafSwap (h h' : Heap M P) (L : NodeId) (o : DataNode M P) (N : List NodeId) : Prop where
  get : h.dataAt L = some o
  fresh : ∀ x ∈ N, h.length ≤ x
  nodup : N.Nodup
  ne : N ≠ []
  others : ∀ x, x ≠ L → x ∉ N →
    h'.dataAt x = (h.dataAt x).map (fun n => n.withLinks (relinked o.links N x n.links))
  linked : Linked h'.prev h'.next o.prevLeaf N o.nextLeaf

namespace LeafSwap

variable {h h' : Heap M P} {L : NodeId} {o : DataNode M P} {N : List NodeId}

theorem old (hs : LeafSwap h h' L o N) {x : NodeId} {n : DataNode M P} (hx : x ≠ L)
    (hn : h.dataAt x = some n) : x ∉ N ∧
      h'.dataAt x = some (n.withLinks (relinked o.links N x n.links)) := by
  have hxN : x ∉ N := fun hmem =>
    absurd (Heap.dataAt_lt hn) (Nat.not_lt.mpr (hs.fresh x hmem))
  refine ⟨hxN, ?_⟩
  rw [hs.others x hx hxN, hn]
  rfl

theorem lo_old (hs : LeafSwap h h' L o N) {x : NodeId} {n : DataNode M P} (hx : x ≠ L)
    (hn : h.dataAt x = some n) : h'.lo x = h.lo x ∧ h'.hi x = h.hi x := by
  have hn' := (hs.old hx hn).2
  rw [Heap.lo_data hn', Heap.hi_data hn', Heap.lo_data hn, Heap.hi_data hn]
  exact ⟨rfl, rfl⟩

/-- Relinking does not move a node. -/
theorem frame_old (hs : LeafSwap h h' L o N) {x : NodeId} (hx : x ≠ L) (hxN : x ∉ N)
    (hm : h'.modelAt x = h.modelAt x) : h'.frame x = h.frame x := by
  cases hn : h.dataAt x with
  | some n =>
      rw [Heap.frame_data (hs.old hx hn).2, Heap.frame_data hn]
      rfl
  | none =>
      refine Heap.frame_congr ?_ hm
      rw [hs.others x hx hxN, hn]
      rfl

theorem prev_old (hs : LeafSwap h h' L o N) {x : NodeId} {n : DataNode M P} (hx : x ≠ L)
    (hn : h.dataAt x = some n) :
    h'.prev x = if o.nextLeaf = some x then N.getLast? else h.prev x := by
  unfold Heap.prev
  rw [(hs.old hx hn).2, hn]
  rfl

theorem next_old (hs : LeafSwap h h' L o N) {x : NodeId} {n : DataNode M P} (hx : x ≠ L)
    (hn : h.dataAt x = some n) :
    h'.next x = if o.prevLeaf = some x then N.head? else h.next x := by
  unfold Heap.next
  rw [(hs.old hx hn).2, hn]
  rfl

/-- The two steps of relinking together, on a node that is not new. -/
theorem unlinking_linking {o : Links} {L left right x : NodeId} {N : List NodeId} {l : Links}
    (hleft : N.head? = some left) (hright : N.getLast? = some right) (hx : x ≠ L) (hxN : x ∉ N) :
    unlinking o.prev right x (linking o L left right x l) = relinked o N x l := by
  have hxl : x ≠ left := fun h => hxN (h ▸ List.mem_of_mem_head? hleft)
  have hxr : x ≠ right := fun h => hxN (h ▸ List.mem_of_getLast? hright)
  unfold unlinking linking relinked
  rw [hleft, hright]
  simp only [hxl, hxr, hx, false_and, if_false, or_false]
  congr 1
  split <;> rfl

/-- New leaves that are linked among themselves are linked to the neighbours by the two steps. -/
theorem of_links (h₁ : Heap M P) (f : NodeId → DataNode M P → DataNode M P) {left right : NodeId}
    {p₀ q₀ : Option NodeId} (hget : h.dataAt L = some o)
    (hfresh : ∀ x ∈ N, h.length ≤ x) (hnd : N.Nodup) (hleft : N.head? = some left)
    (hright : N.getLast? = some right)
    (hprev : ∀ x, o.prevLeaf = some x → x < h.length)
    (hnext : ∀ x, o.nextLeaf = some x → x < h.length)
    (hsame : ∀ x, x ≠ L → x ∉ N → h₁.dataAt x = h.dataAt x)
    (hdata : ∀ x ∈ N, ∃ n, h₁.dataAt x = some n)
    (hlinked : Linked h₁.prev h₁.next p₀ N q₀) (hp₀ : p₀ = none ∨ p₀ = o.prevLeaf)
    (hq₀ : q₀ = none ∨ q₀ = o.nextLeaf) (hstep : ∀ x, h'.dataAt x = (h₁.dataAt x).map (f x))
    (hlinks : ∀ x n, (f x n).links =
      unlinking o.prevLeaf right x (linking o.links L left right x n.links))
    (hold : ∀ x n, x ∉ N → f x n = n.withLinks (f x n).links) : LeafSwap h h' L o N := by
  have hne : N ≠ [] := by
    rintro rfl
    cases hleft
  have hltN : ∀ x ∈ N, ∀ y, y < h.length → x ≠ y := by
    rintro x hx y hy rfl
    exact absurd hy (Nat.not_lt.mpr (hfresh x hx))
  have hnewp : ∀ x ∈ N, o.prevLeaf ≠ some x := fun x hx hp => hltN x hx x (hprev x hp) rfl
  have hnewq : ∀ x ∈ N, o.nextLeaf ≠ some x := fun x hx hq => hltN x hx x (hnext x hq) rfl
  -- the links of the new leaves
  have hprev' : ∀ x ∈ N, h'.prev x =
      if x = left ∧ o.prevLeaf ≠ none then o.prevLeaf else h₁.prev x := by
    intro x hx
    obtain ⟨n, hn⟩ := hdata x hx
    unfold Heap.prev
    rw [hstep, hn]
    show ((f x n).links).prev = _
    rw [hlinks]
    show (if x = left ∧ o.prevLeaf ≠ none then o.prevLeaf
      else if o.nextLeaf = some x then some right else n.prevLeaf) = _
    rw [if_neg (hnewq x hx)]
    rfl
  have hnext' : ∀ x ∈ N, h'.next x =
      if x = right ∧ o.nextLeaf ≠ none then o.nextLeaf else h₁.next x := by
    intro x hx
    obtain ⟨n, hn⟩ := hdata x hx
    unfold Heap.next
    rw [hstep, hn]
    show ((f x n).links).next = _
    rw [hlinks]
    show (if o.prevLeaf = some x then some left
      else if x = right ∧ o.nextLeaf ≠ none then o.nextLeaf else n.nextLeaf) = _
    rw [if_neg (hnewp x hx)]
    rfl
  refine ⟨hget, hfresh, hnd, hne, fun x hxL hxN => ?_, ?_⟩
  · rw [hstep, hsame x hxL hxN]
    congr 1
    funext n
    rw [hold x n hxN, hlinks]
    congr 1
    exact unlinking_linking hleft hright hxL hxN
  · have hq : Linked h₁.prev h'.next p₀ N o.nextLeaf := by
      by_cases hnone : o.nextLeaf = none
      · have hq₀' : q₀ = o.nextLeaf := by
          rcases hq₀ with h0 | h0
          · rw [h0, hnone]
          · exact h0
        rw [← hq₀']
        refine hlinked.congr (fun _ _ => rfl) (fun a ha => ?_)
        rw [hnext' a ha, if_neg (fun hc => hc.2 hnone)]
      · refine hlinked.setNext hnd (fun _ _ => rfl) (fun a ha hlast => ?_) (fun a ha => ?_)
        · rw [hnext' a ha, if_neg]
          rintro ⟨rfl, _⟩
          exact hlast hright
        · obtain rfl := Option.some.inj (hright.symm.trans ha)
          rw [hnext' right (List.mem_of_getLast? hright), if_pos ⟨rfl, hnone⟩]
    by_cases hnone : o.prevLeaf = none
    · have hp₀' : p₀ = o.prevLeaf := by
        rcases hp₀ with h0 | h0
        · rw [h0, hnone]
        · exact h0
      rw [← hp₀']
      refine hq.congr (fun a ha => ?_) (fun _ _ => rfl)
      rw [hprev' a ha, if_neg (fun hc => hc.2 hnone)]
    · refine hq.setPrev hnd (fun _ _ => rfl) (fun b hb hhead => ?_) (fun b hb => ?_)
      · rw [hprev' b hb, if_neg]
        rintro ⟨rfl, _⟩
        exact hhead hleft
      · obtain rfl := Option.some.inj (hleft.symm.trans hb)
        rw [hprev' left (List.mem_of_mem_head? hleft), if_pos ⟨rfl, hnone⟩]

end LeafSwap

variable {s s' : Index M P} {live live' : Set NodeId}
  {par par' : NodeId → NodeId} {leaves : List NodeId}

/-- The pairs that the index stores. -/
def Index.Stored (s : Index M P) (leaves : List NodeId) (e : ℤ × P) : Prop :=
  ∃ x ∈ leaves, ∃ n, s.heap.dataAt x = some n ∧ e ∈ n.pairs

/-- Every leaf has the property `Q`. -/
def Index.Each (s : Index M P) (leaves : List NodeId) (Q : DataNode M P → Prop) : Prop :=
  ∀ x ∈ leaves, ∀ n, s.heap.dataAt x = some n → Q n

/-- A leaf that is ready for the next operation. -/
structure DataNode.Ready (T : KeyType) (n : DataNode M P) : Prop where
  stores : n.Stores T
  room : n.Room
  free : isSet n.lock = false

theorem DataNode.Ready.withLinks {T : KeyType} {n : DataNode M P} (h : n.Ready T) (l : Links) :
    (n.withLinks l).Ready T :=
  ⟨h.stores.congr rfl rfl, h.room.congr rfl rfl rfl, h.free⟩

theorem DataNode.pairs_withLinks (n : DataNode M P) (l : Links) : (n.withLinks l).pairs = n.pairs :=
  pairs_congr rfl

theorem LeafOK.withLinks {LO HI : ℚ} {n : DataNode M P} (h : LeafOK LO HI n)
    {l : Links} (hl : isSet l.lock = false) : LeafOK LO HI (n.withLinks l) :=
  ⟨hl, by
    rw [DataNode.pairs_withLinks]
    exact h.inside⟩

/-- The neighbours of a leaf of the list. -/
theorem LeafList.neighbours {h : Heap M P} {root L : NodeId} {A B : List NodeId}
    {o : DataNode M P} (hl : LeafList h root (A ++ L :: B)) (ho : h.dataAt L = some o) :
    o.prevLeaf = A.getLast? ∧ o.nextLeaf = B.head? := by
  have hlink := (linked_append.mp hl.linked).2
  have h1 : h.prev L = A.getLast?.or none := hlink.1
  have h2 : h.next L = B.head?.or none := hlink.2.1
  rw [Option.or_none] at h1 h2
  unfold Heap.prev at h1
  unfold Heap.next at h2
  rw [ho] at h1 h2
  exact ⟨h1, h2⟩

/-- The list of leaves after a swap. -/
theorem LeafList.swap {h h' : Heap M P} {root root' L : NodeId} {A B N : List NodeId}
    {o : DataNode M P} (hl : LeafList h root (A ++ L :: B)) (hs : LeafSwap h h' L o N)
    (hlo : h'.lo root' = h.lo root) (hhi : h'.hi root' = h.hi root)
    (hroot : ∃ m, h'.modelAt root' = some m)
    (hspans : Spans h'.lo h'.hi o.minLimit N o.maxLimit)
    (hnew : ∀ x ∈ N, ∃ n, h'.dataAt x = some n ∧ n.minLimit < n.maxLimit ∧
      LeafOK (h.lo root) (h.hi root) n) :
    LeafList h' root' (A ++ N ++ B) := by
  obtain ⟨hprev, hnext⟩ := hl.neighbours hs.get
  have hnd := hl.nodup
  have hLA : L ∉ A := fun hmem => (List.nodup_append.mp hnd).2.2 L hmem L
    (List.mem_cons_self ..) rfl
  have hLB : L ∉ B := (List.nodup_cons.mp (List.nodup_append.mp hnd).2.1).1
  have hne : ∀ x ∈ A ++ B, x ≠ L := by
    intro x hx heq
    subst heq
    rcases List.mem_append.mp hx with hA | hB
    · exact hLA hA
    · exact hLB hB
  have hmem : ∀ x ∈ A ++ B, x ∈ A ++ L :: B := by
    intro x hx
    simp only [List.mem_append, List.mem_cons] at hx ⊢
    tauto
  have hdata : ∀ x ∈ A ++ B, ∃ n, h.dataAt x = some n ∧ LeafOK (h.lo root) (h.hi root) n :=
    fun x hx => hl.leaf x (hmem x hx)
  have hcases : ∀ x ∈ A ++ N ++ B, x ∈ A ++ B ∨ x ∈ N := by
    intro x hx
    simp only [List.mem_append] at hx ⊢
    tauto
  have hfresh : ∀ x ∈ A ++ B, x ∉ N := by
    intro x hx
    obtain ⟨n, hn, _⟩ := hdata x hx
    exact (hs.old (hne x hx) hn).1
  have hlohi : ∀ x ∈ A ++ B, h'.lo x = h.lo x ∧ h'.hi x = h.hi x := by
    intro x hx
    obtain ⟨n, hn, _⟩ := hdata x hx
    exact hs.lo_old (hne x hx) hn
  have hA : ∀ x ∈ A, x ∈ A ++ B := fun x hx => List.mem_append.mpr (Or.inl hx)
  have hB : ∀ x ∈ B, x ∈ A ++ B := fun x hx => List.mem_append.mpr (Or.inr hx)
  have hprevOld : ∀ x ∈ A ++ B, h'.prev x = if B.head? = some x then N.getLast? else h.prev x := by
    intro x hx
    obtain ⟨n, hn, _⟩ := hdata x hx
    rw [hs.prev_old (hne x hx) hn, hnext]
  have hnextOld : ∀ x ∈ A ++ B, h'.next x = if A.getLast? = some x then N.head? else h.next x := by
    intro x hx
    obtain ⟨n, hn, _⟩ := hdata x hx
    rw [hs.next_old (hne x hx) hn, hprev]
  have hAB : ∀ x ∈ A, x ∉ B := fun x hxA hxB =>
    (List.nodup_append.mp hnd).2.2 x hxA x (List.mem_cons_of_mem L hxB) rfl
  refine ⟨?_, ?_, ?_, ?_, ?_, ?_⟩
  · rw [List.append_assoc]
    have hndA := (List.nodup_append.mp hnd).1
    have hndB := (List.nodup_cons.mp (List.nodup_append.mp hnd).2.1).2
    refine List.nodup_append.mpr ⟨hndA, List.nodup_append.mpr ⟨hs.nodup, hndB, ?_⟩, ?_⟩
    · rintro x hxN y hyB rfl
      exact hfresh x (hB x hyB) hxN
    · rintro x hxA y hy rfl
      rcases List.mem_append.mp hy with hyN | hyB
      · exact hfresh x (hA x hxA) hyN
      · exact hAB x hxA hyB
  · obtain ⟨a, hsA, hLs, hsB⟩ := spans_append.mp hl.spans
    rw [hlo, hhi, List.append_assoc, spans_append]
    refine ⟨a, hsA.congr (fun x hx => (hlohi x (hA x hx)).1)
      (fun x hx => (hlohi x (hA x hx)).2), ?_⟩
    rw [spans_append]
    refine ⟨o.maxLimit, ?_, ?_⟩
    · rw [← hLs, Heap.lo_data hs.get]
      exact hspans
    · rw [Heap.hi_data hs.get] at hsB
      exact hsB.congr (fun x hx => (hlohi x (hB x hx)).1) (fun x hx => (hlohi x (hB x hx)).2)
  · intro x hx
    right
    rcases hcases x hx with hx | hx
    · rw [(hlohi x hx).1, (hlohi x hx).2]
      exact hl.lt (hmem x hx) (by simp : L ∈ A ++ L :: B) (hne x hx) x (hmem x hx)
    · obtain ⟨n, hn, hlt, _⟩ := hnew x hx
      rw [Heap.lo_data hn, Heap.hi_data hn]
      exact hlt
  · intro hmem'
    exfalso
    obtain ⟨m, hm⟩ := hroot
    rcases hcases root' hmem' with hx | hx
    · obtain ⟨n, hn, _⟩ := hdata root' hx
      have hn' := (hs.old (hne root' hx) hn).2
      rw [Heap.dataAt_of_model hm] at hn'
      cases hn'
    · obtain ⟨n, hn, _⟩ := hnew root' hx
      rw [Heap.dataAt_of_model hm] at hn
      cases hn
  · have hN := hs.linked
    rw [hprev, hnext] at hN
    refine hl.linked.replace hnd hs.ne hN ?_ ?_ ?_ ?_ ?_ ?_
    · intro a ha
      rw [hprevOld a (hA a ha), if_neg]
      exact fun hc => hAB a ha (List.mem_of_mem_head? hc)
    · intro a ha hlast
      rw [hnextOld a (hA a ha), if_neg hlast]
    · intro a ha
      rw [hnextOld a (hA a (List.mem_of_getLast? ha)), if_pos ha]
    · intro b hb
      rw [hnextOld b (hB b hb), if_neg]
      exact fun hc => hAB b (List.mem_of_getLast? hc) hb
    · intro b hb hhead
      rw [hprevOld b (hB b hb), if_neg hhead]
    · intro b hb
      rw [hprevOld b (hB b (List.mem_of_mem_head? hb)), if_pos hb]
  · intro x hx
    rw [hlo, hhi]
    rcases hcases x hx with hx | hx
    · obtain ⟨n, hn, hok⟩ := hdata x hx
      refine ⟨_, (hs.old (hne x hx) hn).2, hok.withLinks ?_⟩
      show isSet (if _ then _ else n.linkLock) = false
      split
      · exact isSet_and_lockMask _
      · exact hok.linkFree
    · obtain ⟨n, hn, _, hok⟩ := hnew x hx
      exact ⟨n, hn, hok⟩

section
variable {L : NodeId} {A B N : List NodeId} {o : DataNode M P}

/-- What a swap of a leaf leaves behind satisfies the invariant. -/
theorem Good.swap (hg : Good s live par (A ++ L :: B)) (hs : LeafSwap s.heap s'.heap L o N)
    (htree : Tree s'.heap.frame s'.rootNode live' par')
    (hlo : s'.heap.lo s'.rootNode = s.heap.lo s.rootNode)
    (hhi : s'.heap.hi s'.rootNode = s.heap.hi s.rootNode)
    (hroot : ∃ m, s'.heap.modelAt s'.rootNode = some m)
    (hspans : Spans s'.heap.lo s'.heap.hi o.minLimit N o.maxLimit)
    (hnew : ∀ x ∈ N, ∃ n, s'.heap.dataAt x = some n ∧ n.minLimit < n.maxLimit ∧
      LeafOK (s.heap.lo s.rootNode) (s.heap.hi s.rootNode) n)
    (hlive : ∀ x n, s'.heap.dataAt x = some n → (x ∈ live' ↔ (x ∈ live ∧ x ≠ L) ∨ x ∈ N))
    (hfree : ∀ x ∈ live', ∀ m, s'.heap.modelAt x = some m → m.lock = 0#32 ∧ m.isObsolete = false)
    (hsuper : ∃ m, SuperrootOK s' m) (hsuper_ne : s'.superroot ∉ live') :
    Good s' live' par' (A ++ N ++ B) := by
  refine ⟨htree, hg.list.swap hs hlo hhi hroot hspans hnew, fun x => ?_, hfree, hsuper, hsuper_ne⟩
  have hLm : L ∉ A ∧ L ∉ B := by
    have hnd := hg.list.nodup
    exact ⟨fun hmem => (List.nodup_append.mp hnd).2.2 L hmem L (List.mem_cons_self ..) rfl,
      (List.nodup_cons.mp (List.nodup_append.mp hnd).2.1).1⟩
  have hAB : x ∈ A ∨ x ∈ B ↔ x ∈ A ++ L :: B ∧ x ≠ L := by
    simp only [List.mem_append, List.mem_cons]
    constructor
    · rintro (hA | hB)
      · exact ⟨Or.inl hA, fun h => hLm.1 (h ▸ hA)⟩
      · exact ⟨Or.inr (Or.inr hB), fun h => hLm.2 (h ▸ hB)⟩
    · rintro ⟨hA | rfl | hB, hne⟩
      · exact Or.inl hA
      · exact absurd rfl hne
      · exact Or.inr hB
  have hmem : x ∈ A ++ N ++ B ↔ (x ∈ A ∨ x ∈ B) ∨ x ∈ N := by
    simp only [List.mem_append]
    tauto
  rw [hmem, hAB, hg.mem]
  constructor
  · rintro (⟨⟨hxl, n, hn⟩, hne⟩ | hxN)
    · have hn' := (hs.old hne hn).2
      exact ⟨(hlive x _ hn').mpr (Or.inl ⟨hxl, hne⟩), _, hn'⟩
    · obtain ⟨n, hn, _⟩ := hnew x hxN
      exact ⟨(hlive x n hn).mpr (Or.inr hxN), n, hn⟩
  · rintro ⟨hxl, n', hn'⟩
    rcases (hlive x n' hn').mp hxl with ⟨hx, hne⟩ | hxN
    · by_cases hxN : x ∈ N
      · exact Or.inr hxN
      · rw [hs.others x hne hxN] at hn'
        obtain ⟨n, hn, _⟩ := Option.map_eq_some_iff.mp hn'
        exact Or.inl ⟨⟨hx, n, hn⟩, hne⟩
    · exact Or.inr hxN

/-- The pairs after a swap. -/
theorem LeafSwap.stored (hg : Good s live par (A ++ L :: B))
    (hs : LeafSwap s.heap s'.heap L o N)
    (hcontent : ∀ e, (∃ x ∈ N, ∃ n, s'.heap.dataAt x = some n ∧ e ∈ n.pairs) ↔ e ∈ o.pairs)
    (e : ℤ × P) : s'.Stored (A ++ N ++ B) e ↔ s.Stored (A ++ L :: B) e := by
  have hne : ∀ x, x ∈ A ∨ x ∈ B → x ≠ L ∧ ∃ n, s.heap.dataAt x = some n := by
    intro x hx
    have hnd := hg.list.nodup
    refine ⟨?_, ?_⟩
    · rintro rfl
      rcases hx with hA | hB
      · exact (List.nodup_append.mp hnd).2.2 x hA x (List.mem_cons_self ..) rfl
      · exact (List.nodup_cons.mp (List.nodup_append.mp hnd).2.1).1 hB
    · obtain ⟨n, hn, _⟩ := hg.list.leaf x (by
        simp only [List.mem_append, List.mem_cons]
        tauto)
      exact ⟨n, hn⟩
  have hold : ∀ x, x ∈ A ∨ x ∈ B → ((∃ n, s'.heap.dataAt x = some n ∧ e ∈ n.pairs) ↔
      ∃ n, s.heap.dataAt x = some n ∧ e ∈ n.pairs) := by
    intro x hx
    obtain ⟨hxL, n, hn⟩ := hne x hx
    rw [(hs.old hxL hn).2, hn]
    simp only [Option.some.injEq, exists_eq_left']
    rw [DataNode.pairs_withLinks]
  unfold Index.Stored
  constructor
  · rintro ⟨x, hx, hp⟩
    simp only [List.mem_append] at hx
    rcases hx with (hA | hN) | hB
    · exact ⟨x, by simp [hA], (hold x (Or.inl hA)).mp hp⟩
    · exact ⟨L, by simp, o, hs.get, (hcontent e).mp ⟨x, hN, hp⟩⟩
    · exact ⟨x, by simp [hB], (hold x (Or.inr hB)).mp hp⟩
  · rintro ⟨x, hx, hp⟩
    simp only [List.mem_append, List.mem_cons] at hx
    rcases hx with hA | rfl | hB
    · exact ⟨x, by simp [hA], (hold x (Or.inl hA)).mpr hp⟩
    · obtain ⟨n, hn, he⟩ := hp
      obtain rfl := Option.some.inj (hs.get.symm.trans hn)
      obtain ⟨y, hy, hpy⟩ := (hcontent e).mpr he
      exact ⟨y, by simp [hy], hpy⟩
    · exact ⟨x, by simp [hB], (hold x (Or.inr hB)).mpr hp⟩

/-- A property of all other leaves and of the new ones holds after a swap. -/
theorem LeafSwap.each (hg : Good s live par (A ++ L :: B)) (hs : LeafSwap s.heap s'.heap L o N)
    {Q : DataNode M P → Prop} (hQ : ∀ n l, Q n → Q (n.withLinks l))
    (hold : ∀ x ∈ A ++ L :: B, x ≠ L → ∀ n, s.heap.dataAt x = some n → Q n)
    (hnew : ∀ x ∈ N, ∀ n, s'.heap.dataAt x = some n → Q n) : s'.Each (A ++ N ++ B) Q := by
  intro x hx n hn
  simp only [List.mem_append] at hx
  have hcase : x ∈ N ∨ (x ∈ A ++ L :: B ∧ x ≠ L) := by
    have hnd := hg.list.nodup
    rcases hx with (hA | hN) | hB
    · refine Or.inr ⟨by simp [hA], ?_⟩
      rintro rfl
      exact (List.nodup_append.mp hnd).2.2 x hA x (List.mem_cons_self ..) rfl
    · exact Or.inl hN
    · refine Or.inr ⟨by simp [hB], ?_⟩
      rintro rfl
      exact (List.nodup_cons.mp (List.nodup_append.mp hnd).2.1).1 hB
  rcases hcase with hN | ⟨hmem, hne⟩
  · exact hnew x hN n hn
  · obtain ⟨k, hk, _⟩ := hg.list.leaf x hmem
    have hk' := (hs.old hne hk).2
    obtain rfl := Option.some.inj (hk'.symm.trans hn)
    exact hQ k _ (hold x hmem hne k hk)

end

end LearnedIndex.Alexol
