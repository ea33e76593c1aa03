import LearnedIndex.Alexol.SplitTree
import LearnedIndex.Alexol.Insert

/-! # Lookups, updates, inserts and erases

`Content s f` says that an index satisfies the invariant, that no leaf is locked, and that it stores
the finite map `f`.  Every point operation takes it to the content of the changed map, as long as
the leaf it touches can be released once more (`releasable`).  An insert also must not expand the
root (`inDomain`), and a leaf that is the root must not be replaced by a single leaf (`rootStays`).
-/

namespace LearnedIndex.Alexol

open LearnedIndex.Chains

variable {M P : Type}

/-- The index stores the finite map `f`. -/
def Index.Content (T : KeyType) (s : Index M P) (f : ℤ → Option P) : Prop :=
  ∃ live par leaves, Good s live par leaves ∧ s.Each leaves (DataNode.Ready T) ∧
    ∀ k p, s.Stored leaves (k, p) ↔ f k = some p

/-- The pairs of `n'` are those of `n`, except that the key is now bound to `v`. -/
def Rebinds (key : ℤ) (v : Option P) (n n' : DataNode M P) : Prop :=
  ∀ k p, (k, p) ∈ n'.pairs ↔ if k = key then v = some p else (k, p) ∈ n.pairs

variable {T : KeyType} {s : Index M P} {live : Set NodeId} {par : NodeId → NodeId}
  {leaves : List NodeId} {key : ℤ} {L : NodeId} {n n' : DataNode M P} {f : ℤ → Option P}

/-- Only the nodes and the two root pointers matter. -/
theorem Good.congr {s' : Index M P} (hg : Good s live par leaves) (hh : s'.heap = s.heap)
    (hr : s'.rootNode = s.rootNode) (hs : s'.superroot = s.superroot) :
    Good s' live par leaves := by
  obtain ⟨sm, hsm⟩ := hg.super
  refine ⟨by rw [hh, hr]; exact hg.tree, by rw [hh, hr]; exact hg.list, by rw [hh]; exact hg.mem,
    by rw [hh]; exact hg.free, ⟨sm, by rw [hh, hs]; exact hsm.get, hsm.numChildren,
      by rw [hr]; exact hsm.children, hsm.lock, hsm.current⟩, by rw [hs]; exact hg.super_ne⟩

theorem Index.Content.congr {s' : Index M P} (h : s.Content T f) (hh : s'.heap = s.heap)
    (hr : s'.rootNode = s.rootNode) (hs : s'.superroot = s.superroot) : s'.Content T f := by
  obtain ⟨live, par, leaves, hg, hready, hst⟩ := h
  refine ⟨live, par, leaves, hg.congr hh hr hs, ?_, ?_⟩
  · unfold Index.Each
    rw [hh]
    exact hready
  · unfold Index.Stored
    rw [hh]
    exact hst

/-- What a restructuring leaves behind has the same content. -/
theorem Index.Renewed.content {s' : Index M P} (h : s.Renewed T leaves s')
    (hst : ∀ k p, s.Stored leaves (k, p) ↔ f k = some p) : s'.Content T f := by
  obtain ⟨live', par', leaves', hg, hready, hst'⟩ := h
  exact ⟨live', par', leaves', hg, hready, fun k p => (hst' (k, p)).trans (hst k p)⟩

/-! ### Changing the leaf of a key -/

namespace Good

/-- The stored pairs after the leaf of the key has changed. -/
theorem stored_setLeaf (hg : Good s live par leaves) (hL : LeafOf s leaves key L n)
    {v : Option P} (hb : Rebinds key v n n') (k : ℤ) (p : P) :
    ({ s with heap := s.heap.setData L n' } : Index M P).Stored leaves (k, p) ↔
      if k = key then v = some p else s.Stored leaves (k, p) := by
  obtain ⟨hmem, hn, hin⟩ := hL
  have hset : ∀ x, (s.heap.setData L n').dataAt x =
      Function.update s.heap.dataAt L (some n') x := fun x => by
    rw [Heap.dataAt_setData hn]
  have hstored : ({ s with heap := s.heap.setData L n' } : Index M P).Stored leaves (k, p) ↔
      (k, p) ∈ n'.pairs ∨ ∃ x ∈ leaves, x ≠ L ∧ ∃ y, s.heap.dataAt x = some y ∧
        (k, p) ∈ y.pairs := by
    unfold Index.Stored
    constructor
    · rintro ⟨x, hx, y, hy, hp⟩
      have hy' : (s.heap.setData L n').dataAt x = some y := hy
      rw [hset] at hy'
      by_cases hxL : x = L
      · rw [hxL, Function.update_self] at hy'
        obtain rfl := Option.some.inj hy'
        exact Or.inl hp
      · rw [Function.update_of_ne hxL] at hy'
        exact Or.inr ⟨x, hx, hxL, y, hy', hp⟩
    · rintro (hp | ⟨x, hx, hxL, y, hy, hp⟩)
      · exact ⟨L, hmem, n', by rw [hset, Function.update_self], hp⟩
      · exact ⟨x, hx, y, by rw [hset, Function.update_of_ne hxL]; exact hy, hp⟩
  rw [hstored, hb]
  by_cases hk : k = key
  · rw [if_pos hk, if_pos hk]
    refine ⟨fun h => h.resolve_right ?_, Or.inl⟩
    rintro ⟨x, hx, hxL, y, hy, hp⟩
    obtain ⟨y', hy', hok⟩ := hg.list.leaf x hx
    obtain rfl := Option.some.inj (hy.symm.trans hy')
    exact hxL (hg.list.unique hx hmem hy hn (hk ▸ hok.inside _ hp) hin)
  · rw [if_neg hk, if_neg hk]
    constructor
    · rintro (hp | ⟨x, hx, _, y, hy, hp⟩)
      · exact ⟨L, hmem, n, hn, hp⟩
      · exact ⟨x, hx, y, hy, hp⟩
    · rintro ⟨x, hx, y, hy, hp⟩
      by_cases hxL : x = L
      · subst hxL
        obtain rfl := Option.some.inj (hn.symm.trans hy)
        exact Or.inl hp
      · exact Or.inr ⟨x, hx, hxL, y, hy, hp⟩

/-- The leaf of the key is changed in place. -/
theorem rebind (hg : Good s live par leaves) (hL : LeafOf s leaves key L n) {v : Option P}
    (hp : n'.SamePlace n) (hb : Rebinds key v n n') :
    Good { s with heap := s.heap.setData L n' } live par leaves := by
  obtain ⟨hmem, hn, hin⟩ := hL
  obtain ⟨o, ho, hok⟩ := hg.list.leaf L hmem
  obtain rfl := Option.some.inj (hn.symm.trans ho)
  refine hg.setLeaf hn hp ⟨by rw [hp.linkLock]; exact hok.linkFree, fun e he => ?_⟩
  rw [hp.minLimit, hp.maxLimit]
  have hmem' := (hb e.1 e.2).mp he
  by_cases hk : e.1 = key
  · rw [hk]
    exact hin
  · rw [if_neg hk] at hmem'
    exact hok.inside e hmem'

/-- The changed leaf is still the leaf of the key. -/
theorem LeafOf.setLeaf (hL : LeafOf s leaves key L n) (hp : n'.SamePlace n) :
    LeafOf { s with heap := s.heap.setData L n' } leaves key L n' := by
  obtain ⟨hmem, hn, hin⟩ := hL
  have hframe := Heap.frame_setData hn hp
  refine ⟨hmem, ?_, ?_⟩
  · show (s.heap.setData L n').dataAt L = some n'
    rw [Heap.dataAt_setData hn, Function.update_self]
  · show Inside ((s.heap.setData L n').lo s.rootNode) ((s.heap.setData L n').hi s.rootNode) _ _ key
    unfold Heap.lo Heap.hi
    rw [hframe, hp.minLimit, hp.maxLimit]
    exact hin

/-- The other leaves stay ready. -/
theorem others_setLeaf (hL : LeafOf s leaves key L n) (hready : s.Each leaves (DataNode.Ready T)) :
    OthersReady T { s with heap := s.heap.setData L n' } leaves L := by
  intro x hx hxL k hk
  have hk' : (s.heap.setData L n').dataAt x = some k := hk
  rw [Heap.dataAt_setData hL.2.1, Function.update_of_ne hxL] at hk'
  exact hready x hx k hk'

/-- A leaf that is ready again leaves the whole index ready. -/
theorem each_setLeaf (hL : LeafOf s leaves key L n) (hready : s.Each leaves (DataNode.Ready T))
    (hn' : n'.Ready T) :
    Index.Each { s with heap := s.heap.setData L n' } leaves (DataNode.Ready T) := by
  intro x hx k hk
  by_cases hxL : x = L
  · have hk' : (s.heap.setData L n').dataAt x = some k := hk
    rw [hxL, Heap.dataAt_setData hL.2.1, Function.update_self] at hk'
    obtain rfl := Option.some.inj hk'
    exact hn'
  · exact others_setLeaf hL hready x hx hxL k hk

end Good

/-! ### Bindings of one leaf -/

namespace Rebinds

/-- The same pairs. -/
theorem of_eq {v : Option P} (hp : n'.pairs = n.pairs)
    (hv : ∀ p, v = some p ↔ (key, p) ∈ n.pairs) : Rebinds key v n n' := by
  intro k p
  rw [hp]
  by_cases hk : k = key
  · rw [if_pos hk, hk]
    exact (hv p).symm
  · rw [if_neg hk]

/-- The key is bound at its place; the pairs `C` had the key before. -/
theorem of_bound (hs : n'.Stores T) {payload : P} {A B C : List (ℤ × P)}
    (hC : ∀ e ∈ C, e.1 = key) (hn : n.pairs = A ++ (C ++ B))
    (hn' : n'.pairs = A ++ (key, payload) :: B) : Rebinds key (some payload) n n' := by
  intro k p
  have hmem : (key, payload) ∈ n'.pairs := by rw [hn']; simp
  by_cases hk : k = key
  · rw [if_pos hk, hk]
    constructor
    · intro hp
      have := hs.eq_of_key hmem hp rfl
      rw [(Prod.mk.inj this).2]
    · intro hp
      rw [← Option.some.inj hp]
      exact hmem
  · have hne : (k, p) ≠ (key, payload) := fun h => hk (Prod.mk.inj h).1
    have hnC : (k, p) ∉ C := fun h => hk (hC _ h)
    rw [if_neg hk, hn, hn']
    simp only [List.mem_append, List.mem_cons, hne, hnC, false_or]

/-- The pairs with the key are removed. -/
theorem of_filter (hp : n'.pairs = n.pairs.filter (fun x => decide (x.1 ≠ key))) :
    Rebinds key none n n' := by
  intro k p
  rw [hp, List.mem_filter, decide_eq_true_iff]
  by_cases hk : k = key
  · rw [if_pos hk]
    exact ⟨fun h => absurd hk h.2, fun h => by cases h⟩
  · rw [if_neg hk]
    exact ⟨fun h => h.1, fun h => ⟨h, hk⟩⟩

end Rebinds

/-- A leaf stores at most one pair with a key. -/
theorem DataNode.Stores.count_key (h : n.Stores T) {v : Option P}
    (hv : ∀ p, v = some p ↔ (key, p) ∈ n.pairs) :
    (n.pairs.filter (fun x => decide (x.1 = key))).length = if v.isSome then 1 else 0 := by
  cases v with
  | none =>
      rw [List.filter_eq_nil_iff.mpr]
      · rfl
      · intro x hx hk
        have hx' : (key, x.2) ∈ n.pairs := by
          rw [← of_decide_eq_true hk]
          exact hx
        have := (hv x.2).mpr hx'
        cases this
  | some p =>
      obtain ⟨A, B, hAB⟩ := List.append_of_mem ((hv p).mp rfl)
      have hsort := h.sorted
      rw [hAB, List.pairwise_append, List.pairwise_cons] at hsort
      rw [hAB, List.filter_append, List.filter_cons_of_pos (by simp), List.filter_eq_nil_iff.mpr,
        List.filter_eq_nil_iff.mpr]
      · rfl
      · exact fun x hx hk => absurd (of_decide_eq_true hk) (hsort.2.1.1 x hx).ne'
      · exact fun x hx hk => absurd (of_decide_eq_true hk)
          (hsort.2.2 x hx _ (List.mem_cons_self ..)).ne

/-! ### Operations -/

/-- The leaf of the key can be released: its version does not reach the lock bit. -/
def Index.releasable (s : Index M P) (key : ℤ) : Bool :=
  match s.getLeaf key with
  | some leaf =>
      match s.heap.dataAt leaf with
      | some n => !isSet (n.lock + 1#32)
      | none => true
  | none => true

theorem Index.releasable_leaf (h : s.releasable key = true) {x : NodeId}
    (hx : s.getLeaf key = some x)
    (hn : s.heap.dataAt x = some n) : isSet (n.lock + 1#32) = false := by
  unfold Index.releasable at h
  simp only [hx, hn] at h
  simpa using h

namespace Index.Content

/-- The leaf that a lookup of the key reaches, and what it stores for it. -/
theorem leaf (h : s.Content T f) (key : ℤ) : ∃ live par leaves x n, Good s live par leaves ∧
    s.Each leaves (DataNode.Ready T) ∧ s.getLeaf key = some x ∧ Good.LeafOf s leaves key x n ∧
    n.Ready T ∧ (∀ p, f key = some p ↔ (key, p) ∈ n.pairs) ∧
    ∀ k p, s.Stored leaves (k, p) ↔ f k = some p := by
  obtain ⟨live, par, leaves, hg, hready, hst⟩ := h
  obtain ⟨x, n, hget, hL⟩ := hg.getLeaf key
  refine ⟨live, par, leaves, x, n, hg, hready, hget, hL, hready x hL.1 n hL.2.1, fun p => ?_, hst⟩
  rw [← hst, ← hg.stored_iff hL]
  rfl

/-- The content after the leaf of the key has been changed in place. -/
theorem rebind (hg : Good s live par leaves) (hready : s.Each leaves (DataNode.Ready T))
    (hst : ∀ k p, s.Stored leaves (k, p) ↔ f k = some p) (hL : Good.LeafOf s leaves key L n)
    {v : Option P} (hp : n'.SamePlace n) (hn' : n'.Ready T) (hb : Rebinds key v n n') :
    Index.Content T { s with heap := s.heap.setData L n' } (Function.update f key v) := by
  refine ⟨live, par, leaves, hg.rebind hL hp hb, Good.each_setLeaf hL hready hn', fun k p => ?_⟩
  rw [hg.stored_setLeaf hL hb]
  by_cases hk : k = key
  · rw [if_pos hk, hk, Function.update_self]
  · rw [if_neg hk, Function.update_of_ne hk]
    exact hst k p

variable [NodeModel M]

theorem getPayload (h : s.Content T f) (hkey : key < T.max) :
    ∃ s', s.getPayload key = some (f key, s') ∧ s'.Content T f := by
  obtain ⟨live, par, leaves, x, n, hg, hready, hget, hL, hn, hf, hst⟩ := h.leaf key
  obtain ⟨r, a, b, hfind, hr⟩ := hn.stores.findPayload hn.free hkey
  obtain rfl : r = f key := by
    refine Option.ext (fun p => ?_)
    rw [hr, hf]
  refine ⟨{ s with heap := s.heap.setData x (n.withCounters a b) }, ?_, ?_⟩
  · unfold Index.getPayload
    simp only [hget, hL.2.1, hfind, Option.bind_eq_bind, Option.bind_some]
  · have hc := Index.Content.rebind hg hready hst hL
      (show (n.withCounters a b).SamePlace n from ⟨rfl, rfl, rfl, rfl, rfl, rfl, rfl, rfl, rfl⟩)
      ⟨hn.stores.congr rfl rfl, hn.room.congr rfl rfl rfl, hn.free⟩
      (Rebinds.of_eq (DataNode.pairs_congr rfl) hf)
    rwa [Function.update_eq_self] at hc

theorem update (h : s.Content T f) (hkey : key < T.max) (hrel : s.releasable key = true)
    (payload : P) : ∃ s', s.update key payload = some ((f key).isSome, s') ∧
      s'.Content T (if (f key).isSome then Function.update f key (some payload) else f) := by
  obtain ⟨live, par, leaves, x, n, hg, hready, hget, hL, hn, hf, hst⟩ := h.leaf key
  obtain ⟨r, n', hup, hs', hroom, hlock, hplace, hcases⟩ :=
    hn.stores.update hn.room hn.free hkey payload
  have hready' : n'.Ready T :=
    ⟨hs', hroom, by rw [hlock]; exact Index.releasable_leaf hrel hget hL.2.1⟩
  have hrun : s.update key payload = some (r, { s with heap := s.heap.setData x n' }) := by
    unfold Index.update
    simp only [hget, hL.2.1, hup, Option.bind_eq_bind, Option.bind_some]
  rcases hcases with ⟨rfl, hpairs, hno⟩ | ⟨rfl, A, p, B, hA, hB⟩
  · have hnone : f key = none := by
      cases hfk : f key with
      | none => rfl
      | some p => exact absurd rfl (hno _ ((hf p).mp hfk))
    rw [hnone] at hf ⊢
    refine ⟨_, hrun, ?_⟩
    have hc := Index.Content.rebind hg hready hst hL hplace hready' (Rebinds.of_eq hpairs hf)
    rwa [← hnone, Function.update_eq_self] at hc
  · have hsome : f key = some p := (hf p).mpr (by rw [hA]; simp)
    rw [hsome]
    refine ⟨_, hrun, ?_⟩
    exact Index.Content.rebind hg hready hst hL hplace hready'
      (Rebinds.of_bound hs' (C := [(key, p)]) (by simp) hA hB)

theorem erase (h : s.Content T f) (hrel : s.releasable key = true) :
    ∃ s', s.erase T key = some (if (f key).isSome then 1 else 0, s') ∧
      s'.Content T (Function.update f key none) := by
  obtain ⟨live, par, leaves, x, n, hg, hready, hget, hL, hn, hf, hst⟩ := h.leaf key
  obtain ⟨d, n', herase, hs', hroom, hlock, hplace, hd, hpairs⟩ :=
    hn.stores.erase hn.room hn.free key
  rw [hn.stores.count_key hf] at hd
  have hready' : n'.Ready T :=
    ⟨hs', hroom, by rw [hlock]; exact Index.releasable_leaf hrel hget hL.2.1⟩
  refine ⟨Index.countErased { s with heap := s.heap.setData x n' } key d, ?_, ?_⟩
  · unfold Index.erase
    simp only [hget, hL.2.1, herase, Option.bind_eq_bind, Option.bind_some]
    rw [hd]
  · exact (Index.Content.rebind hg hready hst hL hplace hready' (Rebinds.of_filter hpairs)).congr
      rfl rfl rfl

end Index.Content

variable [NodeModel M]

/-! ### Inserts -/

namespace Index

/-- An insert of the key neither expands the root nor fails to decide whether to. -/
def keepsDomain (s : Index M P) (key : ℤ) : Bool :=
  if s.keyDomainMax < key then
    decide (shouldExpandRight { s with numKeysAboveKeyDomain := s.numKeysAboveKeyDomain + 1 } =
      some false)
  else if key < s.keyDomainMin then
    decide (shouldExpandLeft { s with numKeysBelowKeyDomain := s.numKeysBelowKeyDomain + 1 } =
      some false)
  else true

/-- If the root is a leaf, an insert leaves it in place or splits its nonempty key range; it is
neither resized nor retrained. -/
def rootSplits (C : Params M P) (s : Index M P) (key : ℤ) (payload : P) : Bool :=
  match s.heap.dataAt s.rootNode with
  | none => true
  | some n =>
      match n.insert false key payload with
      | none => true
      | some (n', fail, _) =>
          decide (fail = 0 ∨ fail = -1) ||
            (decide (fail ≠ 5) && decide (n.minLimit < n.maxLimit) &&
              match chooseFanout C s n' fail with
              | none => true
              | some (depth, _) => decide (depth ≠ 0))

theorem expandDomain_keeps {C : Params M P} (h : s.keepsDomain key = true) :
    ∃ s₁, (∀ D, expandDomain D C s key = some s₁) ∧ s₁.heap = s.heap ∧
      s₁.rootNode = s.rootNode ∧ s₁.superroot = s.superroot ∧ s₁.numKeys = s.numKeys := by
  unfold keepsDomain at h
  unfold expandDomain
  split at h
  · rename_i habove
    simp only [if_pos habove, of_decide_eq_true h, Option.bind_eq_bind, Option.bind_some]
    exact ⟨_, fun _ => rfl, rfl, rfl, rfl, rfl⟩
  · rename_i habove
    split at h
    · rename_i hbelow
      simp only [if_neg habove, if_pos hbelow, of_decide_eq_true h, Option.bind_eq_bind,
        Option.bind_some]
      exact ⟨_, fun _ => rfl, rfl, rfl, rfl, rfl⟩
    · rename_i hbelow
      simp only [if_neg habove, if_neg hbelow]
      exact ⟨s, fun _ => rfl, rfl, rfl, rfl, rfl⟩

theorem chooseFanout_congr {C : Params M P} {s' : Index M P} (h : s'.numKeys = s.numKeys)
    (n : DataNode M P) (fail : ℤ) : chooseFanout C s' n fail = chooseFanout C s n fail := by
  unfold chooseFanout
  rw [h]

/-- What `rootSplits` says about the leaf of the key, if that is the root. -/
theorem rootSplits_spec {C : Params M P} {payload : P} (h : s.rootSplits C key payload = true)
    (hn : s.heap.dataAt s.rootNode = some n) {fail i : ℤ}
    (hins : n.insert false key payload = some (n', fail, i)) (hwork : DataNode.NeedsWork fail) :
    fail ≠ 5 ∧ n.minLimit < n.maxLimit ∧
      ∀ depth r, chooseFanout C s n' fail = some (depth, r) → depth ≠ 0 := by
  have h01 : ¬ (fail = 0 ∨ fail = -1) := by
    rcases hwork with rfl | rfl | rfl | rfl <;> decide
  unfold rootSplits at h
  simp only [hn, hins, decide_eq_false h01, Bool.false_or, Bool.and_eq_true, decide_eq_true_eq] at h
  refine ⟨h.1.1, h.1.2, fun depth r hr => ?_⟩
  have h2 := h.2
  simp only [hr, decide_eq_true_eq] at h2
  exact h2

end Index

/-- A leaf below a model node is resized or retrained. -/
theorem Good.resized {C : Params M P} (hg : Good s live par leaves)
    (hL : Good.LeafOf s leaves key L n) (hLr : L ≠ s.rootNode) (hs : n.Stores C.T)
    (hne : n.pairs ≠ []) (hlock : isSet (n.lock + 1#32 - lockSet) = false)
    (hready : OthersReady C.T s leaves L) (t : Option (FTNode M)) :
    ∃ s', Index.resizeLeaf C s key L t = some s' ∧ s.Renewed C.T leaves s' := by
  obtain ⟨h, live', par', leaves', hres, hg', hready', hst'⟩ :=
    hg.resizeLeaf hL hLr hs hne hlock hready t
  exact ⟨_, hres, live', par', leaves', hg', hready', hst'⟩

/-- A leaf whose insert asks for work is retrained or split. -/
theorem Good.restructure {C : Params M P} (hg : Good s live par leaves)
    (hL : Good.LeafOf s leaves key L n) (hs : n.Stores C.T) (hne : n.pairs ≠ [])
    (hlt : n.minLimit < n.maxLimit) (hready : OthersReady C.T s leaves L)
    (hlock : isSet (n.lock + 1#32 - lockSet) = false) {fail : ℤ}
    (hroot : L = s.rootNode →
      ∀ depth r, Index.chooseFanout C s n fail = some (depth, r) → depth ≠ 0)
    (hst : ∀ k p, s.Stored leaves (k, p) ↔ f k = some p) :
    ∃ s', Index.restructure C s L key fail = some s' ∧ s'.Content C.T f := by
  obtain ⟨D, used, a, b, hchoose, hd⟩ := Index.chooseFanout_spec hs hlt s fail
  have hf : ∀ p, f key = some p ↔ (key, p) ∈ n.pairs := fun p => by
    rw [← hst, ← hg.stored_iff hL]
    rfl
  -- the counters of the leaf are stored first
  have hplace : (n.withCounters a b).SamePlace n :=
    ⟨rfl, rfl, rfl, rfl, rfl, rfl, rfl, rfl, rfl⟩
  have hb : Rebinds key (f key) n (n.withCounters a b) :=
    Rebinds.of_eq (DataNode.pairs_congr rfl) hf
  have hL₁ := hL.setLeaf hplace
  have hg₁ := hg.rebind hL hplace hb
  have hs₁ : (n.withCounters a b).Stores C.T := hs.congr rfl rfl
  have hpairs : (n.withCounters a b).pairs = n.pairs := DataNode.pairs_congr rfl
  have hne₁ : (n.withCounters a b).pairs ≠ [] := by rwa [hpairs]
  have hready₁ : OthersReady C.T { s with heap := s.heap.setData L (n.withCounters a b) } leaves
      L := fun x hx hxL k hk => by
    have hk' : (s.heap.setData L (n.withCounters a b)).dataAt x = some k := hk
    rw [Heap.dataAt_setData hL.2.1, Function.update_of_ne hxL] at hk'
    exact hready x hx hxL k hk'
  have hst₁ : ∀ k p, Index.Stored { s with heap := s.heap.setData L (n.withCounters a b) } leaves
      (k, p) ↔ f k = some p := fun k p => by
    rw [hg.stored_setLeaf hL hb]
    by_cases hk : k = key
    · rw [if_pos hk, hk]
    · rw [if_neg hk]
      exact hst k p
  unfold Index.restructure
  simp only [hL.2.1, hchoose, Option.bind_eq_bind, Option.bind_some]
  by_cases hD : D = 0
  · have hLr : L ≠ s.rootNode := fun h => hroot h D _ hchoose hD
    obtain ⟨t, ts, rfl⟩ : ∃ t ts, used = t :: ts := by
      rcases hd with ⟨_, h1⟩ | ⟨hparts, _⟩
      · omega
      · exact List.exists_cons_of_ne_nil (Index.Parts.ne_nil hparts)
    obtain ⟨s', hres, hren⟩ := hg₁.resized hL₁ hLr hs₁ hne₁ hlock hready₁ (some t)
    refine ⟨s', ?_, hren.content hst₁⟩
    rw [if_pos hD]
    exact hres
  · obtain ⟨s', hsplit, hren⟩ := hg₁.split hL₁ hs₁ hlt (hd.withCounters a b) hready₁
      (decide (fail = 3))
    refine ⟨s', ?_, hren.content hst₁⟩
    rw [if_neg hD]
    exact hsplit

/-- A leaf whose insert asks for work is resized, retrained or split. -/
theorem Good.afterInsert {C : Params M P} (hg : Good s live par leaves)
    (hL : Good.LeafOf s leaves key L n) (hs : n.Stores C.T) (hne : n.pairs ≠ [])
    (hready : OthersReady C.T s leaves L) (hlock : isSet (n.lock + 1#32 - lockSet) = false)
    {fail : ℤ} (hwork : DataNode.NeedsWork fail)
    (hroot : L = s.rootNode → fail ≠ 5 ∧ n.minLimit < n.maxLimit ∧
      ∀ depth r, Index.chooseFanout C s n fail = some (depth, r) → depth ≠ 0)
    (hst : ∀ k p, s.Stored leaves (k, p) ↔ f k = some p) :
    ∃ s', Index.afterInsert C s L key fail = some (s', some true) ∧ s'.Content C.T f := by
  unfold Index.afterInsert
  by_cases h5 : fail = 5
  · subst h5
    obtain ⟨s', hres, hren⟩ := hg.resized hL (fun h => (hroot h).1 rfl) hs hne hlock hready none
    refine ⟨s', ?_, hren.content hst⟩
    rw [if_neg (by decide), if_neg (by decide), if_neg (by decide), if_pos rfl, hres]
    rfl
  · have h0 : fail ≠ 0 ∧ fail ≠ -1 ∧ fail ≠ 4 := by
      rcases hwork with rfl | rfl | rfl | rfl <;> decide
    have hlt : n.minLimit < n.maxLimit := by
      by_cases hLr : L = s.rootNode
      · exact (hroot hLr).2.1
      · have := (hg.list.strict L hL.1).resolve_left hLr
        rwa [Heap.lo_data hL.2.1, Heap.hi_data hL.2.1] at this
    obtain ⟨s', hres, hc⟩ := hg.restructure hL hs hne hlt hready hlock
      (fun h => (hroot h).2.2) hst
    refine ⟨s'.countInserted, ?_, hc.congr rfl rfl rfl⟩
    rw [if_neg h0.1, if_neg h0.2.1, if_neg h0.2.2, if_neg h5, hres]
    rfl

/-- The conditions under which an insert of a single thread works. -/
def Index.insertable (C : Params M P) (s : Index M P) (key : ℤ) (payload : P) : Bool :=
  s.keepsDomain key && s.releasable key && s.rootSplits C key payload

theorem Index.Content.insert {C : Params M P} (h : s.Content C.T f) (hkey : key < C.T.max)
    {payload : P} (hok : s.insertable C key payload = true) (fuel : ℕ) :
    ∃ s', Index.insert C (fuel + 1) s key payload = some ((f key).isNone, s') ∧
      s'.Content C.T (if (f key).isNone then Function.update f key (some payload) else f) := by
  unfold Index.insertable at hok
  rw [Bool.and_eq_true, Bool.and_eq_true] at hok
  obtain ⟨⟨hdomain, hrel⟩, hsplits⟩ := hok
  obtain ⟨s₁, hexp, hheap, hrn, hsr, hnum⟩ := Index.expandDomain_keeps (C := C) hdomain
  have h₁ : s₁.Content C.T f := h.congr hheap hrn hsr
  obtain ⟨live, par, leaves, x, n, hg, hready, hget, hL, hn, hf, hst⟩ := h₁.leaf key
  have hrel' : isSet (n.lock + 1#32) = false := by
    refine Index.releasable_leaf hrel (x := x) ?_ (by rw [← hheap]; exact hL.2.1)
    rw [← hget]
    unfold Index.getLeaf
    rw [hheap, hrn]
  unfold Index.insert Index.insertRound
  simp only [hexp, hget, hL.2.1, Option.bind_eq_bind, Option.bind_some]
  rcases hn.stores.insert hn.room hn.free hkey payload with
    ⟨⟨e, he, hek⟩, n', i, hins, hs', hroom, hpairs, hplace, hlock⟩ |
      ⟨hno, n', fail, i, A, B, hins, hs', hA, hB, hplace, hcases⟩
  · -- the key is present
    obtain ⟨p, hp⟩ : ∃ p, f key = some p := ⟨e.2, (hf e.2).mpr (by rw [← hek]; exact he)⟩
    have hready' : n'.Ready C.T := ⟨hs', hroom, by rw [hlock]; exact hrel'⟩
    have hc := Index.Content.rebind hg hready hst hL hplace hready' (Rebinds.of_eq hpairs hf)
    rw [Function.update_eq_self] at hc
    refine ⟨{ s₁ with heap := s₁.heap.setData x n' }, ?_, ?_⟩
    · simp only [hins, Option.bind_some]
      unfold Index.afterInsert
      rw [if_neg (by decide), if_pos rfl, hp]
      rfl
    · rw [hp]
      exact hc
  · have hnone : f key = none := by
      cases hfk : f key with
      | none => rfl
      | some p => exact absurd rfl (hno _ ((hf p).mp hfk))
    have hb : Rebinds key (some payload) n n' :=
      Rebinds.of_bound hs' (C := []) (by simp) hA hB
    rw [hnone]
    rcases hcases with ⟨rfl, hroom, hlock⟩ | ⟨hwork, hlock⟩
    · have hready' : n'.Ready C.T := ⟨hs', hroom, by rw [hlock]; exact hrel'⟩
      refine ⟨Index.countInserted { s₁ with heap := s₁.heap.setData x n' }, ?_, ?_⟩
      · simp only [hins, Option.bind_some]
        rfl
      · exact (Index.Content.rebind hg hready hst hL hplace hready' hb).congr rfl rfl rfl
    · have hst₁ : ∀ k p, Index.Stored { s₁ with heap := s₁.heap.setData x n' } leaves (k, p) ↔
          Function.update f key (some payload) k = some p := fun k p => by
        rw [hg.stored_setLeaf hL hb]
        by_cases hk : k = key
        · rw [if_pos hk, hk, Function.update_self]
        · rw [if_neg hk, Function.update_of_ne hk]
          exact hst k p
      have hroot : x = s₁.rootNode → fail ≠ 5 ∧ n'.minLimit < n'.maxLimit ∧
          ∀ depth r, Index.chooseFanout C s₁ n' fail = some (depth, r) → depth ≠ 0 := by
        intro hxr
        have hroot : s.heap.dataAt s.rootNode = some n := by
          rw [← hheap, ← hrn, ← hxr]
          exact hL.2.1
        obtain ⟨h5, hlt, hdepth⟩ := Index.rootSplits_spec hsplits hroot hins hwork
        refine ⟨h5, ?_, fun depth r hr => hdepth depth r ?_⟩
        · rw [hplace.minLimit, hplace.maxLimit]
          exact hlt
        · rw [← hr]
          exact (Index.chooseFanout_congr hnum n' fail).symm
      obtain ⟨s', hafter, hc⟩ := (hg.rebind hL hplace hb).afterInsert (hL.setLeaf hplace) hs'
        (by rw [hB]; simp) (Good.others_setLeaf hL hready)
        (by rw [hlock, release_acquire hn.free]; exact hrel') hwork hroot hst₁
      refine ⟨s', ?_, hc⟩
      simp only [hins, Option.bind_some, hafter]
      rfl

end LearnedIndex.Alexol
