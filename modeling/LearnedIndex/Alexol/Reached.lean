import LearnedIndex.Alexol.FiniteMap
import LearnedIndex.Alexol.KeyBounds
import LearnedIndex.Alexol.KeyCount
import LearnedIndex.Alexol.TreeOrder

/-! # Reached indexes

`Reached C s f` says that one thread has brought an index to the state `s` and that its map is `f`:
by the default constructor, bulk loads of an index without keys, point operations (each of them
allowed where it is made), `erase_one` and `clear`.  A reached index satisfies the invariant and
stores its map (`Reached.content`), so that iteration enumerates the map in key order from both ends
and `NodeIterator` visits each node of the tree once (`Reached.iterates_map`). -/

namespace LearnedIndex.Alexol

open LearnedIndex.Runs LearnedIndex.Forests FanoutTree

variable {M P : Type} [NodeModel M]

/-! ### Removing all elements -/

namespace Index

/-- `clear`: every node below the root is deleted, and an empty data node is the new root.  The
first result lists the deleted nodes in their order; the key domain stays as it is. -/
def clear (C : Params M P) (fuel : ℕ) (s : Index M P) : Option (List NodeId × Index M P) := do
  let deleted ← nodesFrom s.heap fuel [s.rootNode]
  let leaf ← (DataNode.new C.T 0 C.defaultMaxSlots : DataNode M P).bulkLoad C.T [] none false
  let s ← createSuperroot { s with heap := s.heap ++ [.data leaf], rootNode := s.heap.length }
  some (deleted, { s with numKeys := 0 })

/-- An empty data node below a new superroot is an index without pairs. -/
theorem emptyRoot (C : Params M P) (s : Index M P) : ∃ leaf s',
    (DataNode.new C.T 0 C.defaultMaxSlots : DataNode M P).bulkLoad C.T [] none false = some leaf ∧
      createSuperroot { s with heap := s.heap ++ [.data leaf], rootNode :=
      s.heap.length } = some s' ∧
      LoadedIndex C.T s' [s.heap.length] [] := by
  obtain ⟨leaf, hload, hleaf, hpairs, hplace⟩ : ∃ leaf,
      (DataNode.new C.T 0 C.defaultMaxSlots : DataNode M P).bulkLoad C.T [] none false = some leaf ∧
        LoadedLeaf C.T 0 0 leaf ∧ leaf.pairs = [] ∧
        leaf.SamePlace (DataNode.new C.T 0 C.defaultMaxSlots) :=
    LoadedLeaf.of_bulkLoad _ rfl rfl rfl rfl List.Pairwise.nil
      (fun v hv => absurd hv List.not_mem_nil) (fun v hv => absurd hv List.not_mem_nil) none false
  have hlo : leaf.minLimit = 0 := hplace.minLimit
  have hhi : leaf.maxLimit = 0 := hplace.maxLimit
  have hl := Loaded.single (h := s.heap) hleaf
  rw [hlo, hhi, hpairs] at hl
  obtain ⟨t, ht⟩ : ∃ t : Index M P, t =
      { s with heap := s.heap ++ [.data leaf], rootNode := s.heap.length } := ⟨_, rfl⟩
  have hlast : (s.heap ++ [.data leaf])[s.heap.length]? = some (.data leaf) := by
    rw [List.getElem?_append_right (le_refl _), Nat.sub_self]
    rfl
  have hroot : t.heap[t.rootNode]? = some (.data leaf) := by rw [ht]; exact hlast
  have hlen : t.heap.length = s.heap.length + 1 := by rw [ht]; simp
  obtain ⟨s', sm, hcreate, hsuper, hrn, hsr, -, hsame⟩ := createSuperroot_spec hroot
  have hrn : s'.rootNode = s.heap.length := by rw [hrn, ht]
  have hx : s'.heap.dataAt s.heap.length = some leaf := by
    rw [Heap.dataAt_eq_some, hsame _ (by omega), ht]
    exact hlast
  have hl' : Loaded C.T 0 0 s'.heap s.heap.length (s.heap.length + 1) [s'.rootNode]
      [s.heap.length] 0 0 [] := by
    rw [hrn]
    refine hl.congr (fun x _ hx => ?_)
    rw [hsame x (by omega), ht]
  refine ⟨leaf, s', hload, by rw [← ht]; exact hcreate,
    hl'.loadedIndex (by rw [hrn, Heap.lo_data hx, hlo]) (by rw [hrn, Heap.hi_data hx, hhi]) hsuper
      ?_ (Heap.Relinked.refl _ _) ?_⟩
  · rw [hsr, hlen, List.mem_singleton]
    exact Nat.succ_ne_self _
  · rw [Heap.leavesOf_single hx]
    refine ⟨?_, ?_, trivial⟩
    · unfold Heap.prev
      rw [hx]
      exact hleaf.prev
    · unfold Heap.next
      rw [hx]
      exact hleaf.next

end Index

/-! ### Erasing one key -/

namespace DataNode

variable {T : KeyType} {n : DataNode M P} {v : View P} {k : ℕ → ℤ}

/-- A leaf stays ready when the pair in a slot is erased. -/
theorem Ready.eraseOneAt (hn : n.Ready T) (hh : Holds T n v k) {pos : ℕ} (hp : pos < v.cap)
    (hb : v.bit pos = true) : ∃ n', n.eraseOneAt T pos = some n' ∧ n'.Ready T ∧ n'.SamePlace n ∧
      n'.pairs = n.pairs.filter (fun x => decide (x.1 ≠ k pos)) := by
  obtain ⟨n', v', k', x, he, hh', hcell, hents, hents', hroom, hplace, hlock⟩ := hh.eraseOneAt hp hb
  have hx : x.1 = k pos := (hh.gapped.toGappedTo.key_of_cell hp hcell).2
  have hsorted := hn.stores.sorted
  rw [hh.pairs_eq, hents] at hsorted
  obtain ⟨-, hright, hleft⟩ := List.pairwise_append.mp hsorted
  have hpairs : n'.pairs = n.pairs.filter (fun x => decide (x.1 ≠ k pos)) := by
    rw [hh'.pairs_eq, hents', hh.pairs_eq, hents, List.filter_append, List.filter_cons_of_neg
      (by simp [hx]), List.filter_eq_self.mpr, List.filter_eq_self.mpr]
    · intro e he
      rw [decide_eq_true_iff, ← hx]
      exact ((List.pairwise_cons.mp hright).1 e he).ne'
    · intro e he
      rw [decide_eq_true_iff, ← hx]
      exact (hleft e he x (List.mem_cons_self ..)).ne
  refine ⟨n', he, ⟨⟨⟨v', k', hh'⟩, ?_⟩, ?_, by rw [hlock]; exact hn.free⟩, hplace, hpairs⟩
  · rw [hpairs]
    exact hn.stores.sorted.filter _
  · rcases hroom with hroom | ⟨hcap, hnum, hthr⟩
    · exact hroom
    · have hlt := hn.room.lt
      refine ⟨?_, by rw [hthr]; exact hn.room.pos, by rw [hthr, hcap]; exact hn.room.le⟩
      rw [hthr]
      refine lt_of_le_of_lt ?_ hlt
      exact_mod_cast Nat.le_of_lt (Nat.lt_of_succ_le hnum.le)

/-- `erase_one` of a leaf, when it returns: it erases the pair with the key, if there is one. -/
theorem Ready.eraseOne (hn : n.Ready T) {key : ℤ} {w : Words.Word} {d : ℕ} {n' : DataNode M P}
    (h : n.eraseOne T (some w) key = some (d, n')) : n'.Ready T ∧ n'.SamePlace n ∧
      n'.pairs = n.pairs.filter (fun x => decide (x.1 ≠ key)) ∧
      d = (n.pairs.filter (fun x => decide (x.1 = key))).length := by
  have hh := (wellFormed_iff.mpr hn.stores.holds).holds
  obtain ⟨pos, a, b, hfind, hbegins⟩ := hh.findLower_past key w
  have hh' : Holds T (n.withCounters a b) n.view (n.keyFrom T) := hh.congr rfl rfl
  have hn' : (n.withCounters a b).Ready T :=
    ⟨hn.stores.congr rfl rfl, hn.room.congr rfl rfl rfl, hn.free⟩
  have hpairs : (n.withCounters a b).pairs = n.pairs := pairs_congr rfl
  have hplace : (n.withCounters a b).SamePlace n := ⟨rfl, rfl, rfl, rfl, rfl, rfl, rfl, rfl, rfl⟩
  have hseg := hbegins.seg
  rw [← hh.pairs_eq] at hseg
  -- no pair with the key: nothing is erased
  have habsent : (∀ e ∈ n.view.seg pos n.view.cap, e.1 ≠ key) →
      n.pairs.filter (fun x => decide (x.1 ≠ key)) = n.pairs ∧
        n.pairs.filter (fun x => decide (x.1 = key)) = [] := by
    intro hno
    have hno' : ∀ e ∈ n.pairs, e.1 ≠ key := by
      intro e he hek
      refine hno e ?_ hek
      rw [hseg, List.mem_filter]
      exact ⟨he, decide_eq_true hek.ge⟩
    exact ⟨List.filter_eq_self.mpr (fun e he => decide_eq_true (hno' e he)),
      List.filter_eq_nil_iff.mpr (fun e he hek => hno' e he (of_decide_eq_true hek))⟩
  unfold DataNode.eraseOne at h
  simp only [hfind, Option.bind_eq_bind, Option.bind_some] at h
  by_cases hcap : pos = (n.withCounters a b).dataCapacity
  · rw [if_pos hcap] at h
    obtain ⟨rfl, rfl⟩ := Prod.mk.inj (Option.some.inj h)
    have hnil : n.view.seg pos n.view.cap = [] := View.seg_empty hcap.ge
    obtain ⟨h1, h2⟩ := habsent (fun e he => by rw [hnil] at he; cases he)
    exact ⟨hn', hplace, hpairs.trans h1.symm, by rw [h2]; rfl⟩
  · rw [if_neg hcap] at h
    obtain ⟨x, hx, h⟩ := Option.bind_eq_some_iff.mp h
    have hlt : pos < n.view.cap := by
      by_contra hge
      have hnone : (n.withCounters a b).keyAt pos = none := by
        have hlen : (n.withCounters a b).keySlots.length ≤ pos := by
          rw [hh'.reps.keyLen]
          exact not_lt.mp hge
        unfold Slots.keyAt
        rw [List.getElem?_eq_none hlen]
        rfl
      rw [hnone] at hx
      cases hx
    have hbit := hbegins.filled hlt
    obtain rfl : n.keyFrom T pos = x := Option.some.inj ((hh'.keyAt hlt).symm.trans hx)
    obtain ⟨p, -, hcell⟩ := hh.gapped.cell hlt hbit
    have hcons : n.view.seg pos n.view.cap =
        (n.keyFrom T pos, p) :: n.view.seg (pos + 1) n.view.cap := by
      rw [View.seg_append (Nat.le_succ pos) hlt, View.seg_single, hcell]
      rfl
    by_cases hk : n.keyFrom T pos = key
    · rw [if_pos hk] at h
      obtain ⟨n₂, herase, h⟩ := Option.bind_eq_some_iff.mp h
      obtain ⟨rfl, rfl⟩ := Prod.mk.inj (Option.some.inj h)
      obtain ⟨n₃, herase', hready, hplace', hpairs'⟩ := hn'.eraseOneAt hh' hlt hbit
      obtain rfl := Option.some.inj (herase.symm.trans herase')
      rw [hk, hpairs] at hpairs'
      refine ⟨hready, hplace'.trans hplace, hpairs', ?_⟩
      have hv : ∀ q, some p = some q ↔ (key, q) ∈ n.pairs := by
        intro q
        have hmem : (key, p) ∈ n.pairs := by
          have hin : (n.keyFrom T pos, p) ∈ n.view.seg pos n.view.cap := by rw [hcons]; simp
          rw [hseg, hk] at hin
          exact (List.mem_filter.mp hin).1
        constructor
        · intro hq
          rw [← Option.some.inj hq]
          exact hmem
        · intro hq
          rw [(Prod.mk.inj (hn.stores.eq_of_key hmem hq rfl)).2]
      rw [hn.stores.count_key hv]
      rfl
    · rw [if_neg hk] at h
      obtain ⟨rfl, rfl⟩ := Prod.mk.inj (Option.some.inj h)
      -- the first pair from the key on has a larger key
      have hgt : ∀ e ∈ n.view.seg pos n.view.cap, e.1 ≠ key := by
        have hsorted : (n.view.seg pos n.view.cap).Pairwise (fun a b => a.1 < b.1) := by
          rw [hseg]
          exact hn.stores.sorted.filter _
        have hfirst : key ≤ n.keyFrom T pos := by
          have hin : (n.keyFrom T pos, p) ∈ n.view.seg pos n.view.cap := by rw [hcons]; simp
          rw [hseg] at hin
          exact of_decide_eq_true (List.mem_filter.mp hin).2
        rw [hcons] at hsorted ⊢
        intro e he
        rcases List.mem_cons.mp he with rfl | he
        · exact hk
        · exact ((lt_of_le_of_ne hfirst (Ne.symm hk)).trans
            ((List.pairwise_cons.mp hsorted).1 e he)).ne'
      obtain ⟨h1, h2⟩ := habsent hgt
      exact ⟨hn', hplace, hpairs.trans h1.symm, by rw [h2]; rfl⟩

end DataNode

/-- `erase_one`, when it returns. -/
theorem Index.Content.eraseOne {C : Params M P} {s s' : Index M P} {f : ℤ → Option P} {key : ℤ}
    {d : ℕ} (h : s.Content C.T f) (hrun : Index.eraseOne C s key = some (d, s')) :
    d = (if (f key).isSome then 1 else 0) ∧ s'.Content C.T (Function.update f key none) := by
  obtain ⟨live, par, leaves, L, n, hg, hready, hget, hL, hn, hf, hst⟩ := h.leaf key
  unfold Index.eraseOne at hrun
  simp only [hget, hL.2.1, Option.bind_eq_bind, Option.bind_some] at hrun
  obtain ⟨⟨e, n'⟩, herase, hrun⟩ := Option.bind_eq_some_iff.mp hrun
  obtain ⟨rfl, rfl⟩ := Prod.mk.inj (Option.some.inj hrun)
  obtain ⟨hready', hplace, hpairs, hd⟩ := hn.eraseOne herase
  refine ⟨hd.trans (hn.stores.count_key hf), ?_⟩
  exact (Index.Content.rebind hg hready hst hL hplace hready' (Rebinds.of_filter hpairs)).congr
    rfl rfl rfl

/-! ### Runs of one thread -/

/-- The index `s` can be reached, and its map is `f`. -/
inductive Reached (C : Params M P) : Index M P → (ℤ → Option P) → Prop
  | new {s : Index M P} (h : Index.new C = some s) : Reached C s (fun _ => none)
  | bulkLoad {s s' : Index M P} {f : ℤ → Option P} {fuel : ℕ} {values : List (ℤ × P)}
      (hr : Reached C s f) (hnum : s.numKeys ≤ 0) (hne : values ≠ [])
      (hs : values.Pairwise (fun v w => v.1 < w.1)) (hmax : ∀ v ∈ values, v.1 ≤ C.T.max)
      (h : s.bulkLoad C fuel values = some s') : Reached C s' (mapOf values)
  | call {s s' : Index M P} {f : ℤ → Option P} {c : MapCall P} {retries : ℕ} {answer : MapAnswer P}
      (hr : Reached C s f) (hkey : c.key < C.T.max) (hok : s.allows C c = true)
      (h : s.call C (retries + 1) c = some (answer, s')) : Reached C s' (c.onMap f).2
  | eraseOne {s s' : Index M P} {f : ℤ → Option P} {key : ℤ} {numErased : ℕ} (hr : Reached C s f)
      (h : Index.eraseOne C s key = some (numErased, s')) : Reached C s'
        (Function.update f key none)
  | lowerBound {s s' : Index M P} {f : ℤ → Option P} {key : ℤ} {it : Index.Iterator}
      (hr : Reached C s f) (h : s.lowerBound C key = some (it, s')) : Reached C s' f
  | upperBound {s s' : Index M P} {f : ℤ → Option P} {key : ℤ} {it : Index.Iterator}
      (hr : Reached C s f) (h : s.upperBound C key = some (it, s')) : Reached C s' f
  | find {s s' : Index M P} {f : ℤ → Option P} {key : ℤ} {it : Index.Iterator}
      (hr : Reached C s f) (hkey : key < C.T.max) (h : s.find key = some (it, s')) : Reached C s' f
  | clear {s s' : Index M P} {f : ℤ → Option P} {fuel : ℕ} {deleted : List NodeId}
      (hr : Reached C s f) (h : s.clear C fuel = some (deleted, s')) : Reached C s' (fun _ => none)

variable {C : Params M P} {s : Index M P} {f : ℤ → Option P}

omit [NodeModel M] in
/-- An index without pairs. -/
theorem LoadedIndex.content_nil {T : KeyType} {order : List NodeId}
    (hl : LoadedIndex T s order ([] : List (ℤ × P))) : s.Content T (fun _ => none) :=
  hl.content List.Pairwise.nil

/-- **A reached index stores its map.** -/
theorem Reached.content (hC : CheapSingles C) (hslots : 2 ≤ C.maxDataNodeSlots)
    (h : Reached C s f) : s.Content C.T f := by
  induction h with
  | new h =>
      obtain ⟨s', h', -, hl⟩ := Index.new_spec C
      obtain rfl := Option.some.inj (h.symm.trans h')
      exact hl.content_nil
  | @bulkLoad s s' f fuel values hr hnum hne hs hmax h _ =>
      obtain ⟨s'', order, N, hall, hl⟩ := Index.bulkLoad_spec hC hslots hs hmax hne hnum
      have h' := Index.bulkLoad_le h (le_max_left fuel N)
      rw [hall _ (le_max_right fuel N)] at h'
      obtain rfl := Option.some.inj h'
      exact hl.content hs
  | @call s s' f c retries answer hr hkey hok h ih =>
      obtain ⟨s'', hrun, hc⟩ := ih.call hkey hok retries
      obtain ⟨-, rfl⟩ := Prod.mk.inj (Option.some.inj (h.symm.trans hrun))
      exact hc
  | eraseOne hr h ih => exact (ih.eraseOne h).2
  | @lowerBound s s' f key it hr h ih =>
      obtain ⟨it', s'', pairs, hrun, hc, -⟩ := ih.lowerBound C key
      obtain ⟨-, rfl⟩ := Prod.mk.inj (Option.some.inj (h.symm.trans hrun))
      exact hc
  | @upperBound s s' f key it hr h ih =>
      obtain ⟨it', s'', pairs, hrun, hc, -⟩ := ih.upperBound C key
      obtain ⟨-, rfl⟩ := Prod.mk.inj (Option.some.inj (h.symm.trans hrun))
      exact hc
  | find hr hkey h ih =>
      obtain ⟨it', s'', hrun, hc, -⟩ := ih.find hkey
      obtain ⟨-, rfl⟩ := Prod.mk.inj (Option.some.inj (h.symm.trans hrun))
      exact hc
  | @clear s s' f fuel deleted hr h _ =>
      obtain ⟨leaf, s'', hload, hcreate, hl⟩ := Index.emptyRoot C s
      unfold Index.clear at h
      obtain ⟨nodes, hnodes, h⟩ := Option.bind_eq_some_iff.mp h
      simp only [hload, hcreate, Option.bind_eq_bind, Option.bind_some] at h
      obtain ⟨-, rfl⟩ := Prod.mk.inj (Option.some.inj h)
      exact hl.content_nil.congr rfl rfl rfl

omit [NodeModel M] in
/-- A reached index as a loaded one, with the pairs of its map. -/
theorem Index.Content.loadedIndex {T : KeyType} (h : s.Content T f) : ∃ order pairs,
    LoadedIndex T s order pairs ∧ Lists f (fun _ => true) pairs := by
  obtain ⟨live, par, leaves, hg, hready, hst⟩ := h
  obtain ⟨order, hleaves, hl⟩ := hg.loadedIndex hready
  refine ⟨order, _, hl, (hg.chained hready).sorted, fun k p => ?_⟩
  rw [← hst, Heap.mem_pairsOf]
  exact ⟨fun h => ⟨rfl, h⟩, fun h => h.2⟩

/-- The map after a sequence of calls. -/
def mapAfter : (ℤ → Option P) → List (MapCall P) → ℤ → Option P
  | f, [] => f
  | f, c :: calls => mapAfter (c.onMap f).2 calls

/-- Allowed calls one after another. -/
theorem Reached.runCalls {retries : ℕ} : ∀ (calls : List (MapCall P)) {s s' : Index M P}
    {f : ℤ → Option P} {answers : List (MapAnswer P)}, Reached C s f →
    (∀ c ∈ calls, c.key < C.T.max) → s.allowsAll C (retries + 1) calls = true →
    s.runCalls C (retries + 1) calls = some (answers, s') → Reached C s' (mapAfter f calls)
  | [], s, s', f, answers, hr, _, _, h => by
      obtain ⟨-, rfl⟩ := Prod.mk.inj (Option.some.inj h)
      exact hr
  | c :: calls, s, s', f, answers, hr, hkeys, hok, h => by
      obtain ⟨hc, hrest⟩ := Bool.and_eq_true_iff.mp hok
      unfold Index.runCalls at h
      obtain ⟨⟨answer, s₁⟩, hcall, h⟩ := Option.bind_eq_some_iff.mp h
      obtain ⟨⟨answers', s₂⟩, hcalls, h⟩ := Option.bind_eq_some_iff.mp h
      obtain ⟨-, rfl⟩ := Prod.mk.inj (Option.some.inj h)
      rw [hcall, Option.all_some] at hrest
      exact runCalls calls (hr.call (hkeys c (List.mem_cons_self ..)) hc hcall)
        (fun c hc => hkeys c (List.mem_cons_of_mem _ hc)) hrest hcalls

/-- Three pairs are loaded, and calls of all kinds split leaves on both sides. -/
theorem mixedCalls_reached : ∃ s, Reached smallParams s
    (mapAfter (mapOf Index.threePairs) Index.mixedCalls) := by
  have h : ((Index.new smallParams).bind
    (fun s₀ => (s₀.bulkLoad smallParams 9 Index.threePairs).bind
      (fun s => (s.runCalls smallParams 1 Index.mixedCalls).map (fun r => (s₀.numKeys,
        s.allowsAll smallParams 1 Index.mixedCalls))))) = some (0, true) := by decide +kernel
  obtain ⟨s₀, hnew, h⟩ := Option.bind_eq_some_iff.mp h
  obtain ⟨s, hload, h⟩ := Option.bind_eq_some_iff.mp h
  obtain ⟨⟨answers, s'⟩, hrun, h⟩ := Option.map_eq_some_iff.mp h
  obtain ⟨hnum, hok⟩ := Prod.mk.inj h
  have hloaded : Reached smallParams s (mapOf Index.threePairs) :=
    (Reached.new hnew).bulkLoad hnum.le (by decide) Index.threePairs_sorted
      Index.threePairs_le hload
  exact ⟨s', hloaded.runCalls Index.mixedCalls (by decide) hok hrun⟩

/-! ### What holds of every reached index -/

namespace Reached

variable (hC : CheapSingles C) (hslots : 2 ≤ C.maxDataNodeSlots)
include hC hslots

/-- **Iteration enumerates the map of a reached index** in key order, from both ends; `NodeIterator`
visits every node of the tree once, and the data nodes among them are linked in its order. -/
theorem iterates_map (h : Reached C s f) : ∃ pairs, Lists f (fun _ => true) pairs ∧
    (∃ it, s.begin = some it ∧ ∀ fuel, pairs.length ≤ fuel →
      it.collect s.heap fuel = some pairs) ∧
    (∃ it, s.rbegin = some it ∧ ∀ fuel, pairs.length ≤ fuel →
      it.collect s.heap fuel = some pairs.reverse) ∧
    ∃ nodes, (∀ fuel, nodes.length ≤ fuel → Index.nodesFrom s.heap fuel [s.rootNode] = some nodes) ∧
      nodes.Nodup ∧ (∀ x, x ∈ nodes ↔ s.InTree x) ∧
      Chains.Linked s.heap.prev s.heap.next none (s.heap.leavesOf nodes) none := by
  obtain ⟨order, pairs, hl, hlists⟩ := (h.content hC hslots).loadedIndex
  exact ⟨pairs, hlists, hl.begin_collect, hl.rbegin_collect, order,
    fun fuel hfuel => hl.nodesFrom_root hfuel, hl.nodup, fun x => hl.inTree_iff.symm,
    hl.chained.linked⟩

/-- **The bounds are right at every key**, also where the search of the leaf reads the word behind
its bitmap: from `lower_bound` on an iterator reads the pairs with the keys no less than the given
one, and from `upper_bound` on those with greater keys. -/
theorem key_bounds (h : Reached C s f) (key : ℤ) :
    (∃ it s' pairs, s.lowerBound C key = some (it, s') ∧
      Lists f (fun x => decide (key ≤ x)) pairs ∧
      ∀ fuel, pairs.length ≤ fuel → it.collect s'.heap fuel = some pairs) ∧
    ∃ it s' pairs, s.upperBound C key = some (it, s') ∧
      Lists f (fun x => decide (key < x)) pairs ∧
      ∀ fuel, pairs.length ≤ fuel → it.collect s'.heap fuel = some pairs := by
  have hc := h.content hC hslots
  obtain ⟨it, s₁, pairs, hrun, -, hreads, hlists⟩ := hc.lowerBound C key
  obtain ⟨it', s₂, pairs', hrun', -, hreads', hlists'⟩ := hc.upperBound C key
  exact ⟨⟨it, s₁, pairs, hrun, hlists, fun _ hfuel => hreads.collect hfuel⟩,
    it', s₂, pairs', hrun', hlists', fun _ hfuel => hreads'.collect hfuel⟩

/-- **`find` and `count` are exact.**  `find` stands at the pair with the key, from where an
iterator reads the pairs from the key on, or it returns the end; `count` is one for the stored keys.
-/
theorem find_count (h : Reached C s f) {key : ℤ} (hkey : key < C.T.max) :
    (∃ it s', s.find key = some (it, s') ∧ (f key = none → it.curLeaf = none) ∧
      ∀ p, f key = some p → it.read s'.heap = some (key, p) ∧ ∃ pairs,
        Lists f (fun x => decide (key ≤ x)) pairs ∧
        ∀ fuel, pairs.length ≤ fuel → it.collect s'.heap fuel = some pairs) ∧
    ∃ s' N, ∀ fuel, N ≤ fuel →
      s.count C fuel key = some (if (f key).isSome then 1 else 0, s') := by
  have hc := h.content hC hslots
  obtain ⟨it, s', hrun, -, hnone, hsome⟩ := hc.find hkey
  obtain ⟨s₂, N, -, hcount⟩ := hc.count C key
  refine ⟨⟨it, s', hrun, hnone, fun p hp => ?_⟩, s₂, N, hcount⟩
  obtain ⟨rest, hreads, hlists⟩ := hsome p hp
  obtain ⟨-, -, -, hread, -⟩ := hreads.cons
  exact ⟨hread, _, hlists, fun _ hfuel => hreads.collect hfuel⟩

/-- **`clear` deletes every node of the tree once**, and nothing else; none of them belongs to the
tree that is left, which has no pair. -/
theorem clear_deletes (h : Reached C s f) : ∃ deleted s',
    (∀ fuel, deleted.length ≤ fuel → s.clear C fuel = some (deleted, s')) ∧
      deleted.Nodup ∧ (∀ x, x ∈ deleted ↔ s.InTree x) ∧ (∀ x ∈ deleted, ¬ s'.InTree x) ∧
      s'.numKeys = 0 ∧ ∀ x e, ¬ s'.StoredIn x e := by
  obtain ⟨order, pairs, hl, -⟩ := (h.content hC hslots).loadedIndex
  obtain ⟨leaf, s', hload, hcreate, hl'⟩ := Index.emptyRoot C s
  refine ⟨order, { s' with numKeys := 0 }, fun fuel hfuel => ?_, hl.nodup,
    fun x => hl.inTree_iff.symm, fun x hx hin => ?_, rfl, fun x e hin => ?_⟩
  · unfold Index.clear
    simp only [hl.nodesFrom_root hfuel, hload, hcreate, Option.bind_eq_bind, Option.bind_some]
  · have hlt : x < s.heap.length := Index.lt_of_pushedChildren (hl.forest.isSome hx)
    have hmem : x ∈ [s.heap.length] := hl'.inTree_iff.mp hin
    rw [List.mem_singleton.mp hmem] at hlt
    exact lt_irrefl _ hlt
  · exact List.not_mem_nil (hl'.mem_values.mpr ⟨x, hin⟩)

end Reached

theorem iterates_mixedCalls : ∃ (s : Index LinearModel ℕ) (pairs : List (ℤ × ℕ)),
    Lists (mapAfter (mapOf Index.threePairs) Index.mixedCalls) (fun _ => true) pairs ∧
      (∃ it, s.begin = some it ∧ ∀ fuel, pairs.length ≤ fuel →
        it.collect s.heap fuel = some pairs) := by
  obtain ⟨s, h⟩ := mixedCalls_reached
  obtain ⟨pairs, hlists, hbegin, -⟩ := h.iterates_map smallParams_cheap (by decide)
  exact ⟨s, pairs, hlists, hbegin⟩

theorem key_bounds_mixedCalls : ∃ (s s' : Index LinearModel ℕ) (it : Index.Iterator)
    (pairs : List (ℤ × ℕ)), s.lowerBound smallParams 4 = some (it, s') ∧
      Lists (mapAfter (mapOf Index.threePairs) Index.mixedCalls) (fun x => decide (4 ≤ x)) pairs ∧
      ∀ fuel, pairs.length ≤ fuel → it.collect s'.heap fuel = some pairs := by
  obtain ⟨s, h⟩ := mixedCalls_reached
  obtain ⟨⟨it, s', pairs, hrun⟩, -⟩ := h.key_bounds smallParams_cheap (by decide) 4
  exact ⟨s, s', it, pairs, hrun⟩

theorem find_count_mixedCalls : ∃ (s s' : Index LinearModel ℕ) (it : Index.Iterator),
    s.find 8 = some (it, s') ∧ it.read s'.heap = some (8, 80) := by
  obtain ⟨s, h⟩ := mixedCalls_reached
  obtain ⟨⟨it, s', hrun, -, hread⟩, -⟩ :=
    h.find_count smallParams_cheap (by decide) (show (8 : ℤ) < smallParams.T.max by decide)
  exact ⟨s, s', it, hrun, (hread 80 (by decide)).1⟩

theorem clear_deletes_mixedCalls : ∃ (s s' : Index LinearModel ℕ) (deleted : List NodeId),
    (∀ fuel, deleted.length ≤ fuel → s.clear smallParams fuel = some (deleted, s')) ∧
      deleted.Nodup ∧ ∀ x, x ∈ deleted ↔ s.InTree x := by
  obtain ⟨s, h⟩ := mixedCalls_reached
  obtain ⟨deleted, s', hrun, hnd, hmem, -⟩ := h.clear_deletes smallParams_cheap (by decide)
  exact ⟨s, s', deleted, hrun, hnd, hmem⟩

end LearnedIndex.Alexol
