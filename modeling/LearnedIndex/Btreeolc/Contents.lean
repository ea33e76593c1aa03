import LearnedIndex.Btreeolc.Scan

/-! # The tree as a search tree

A sequence of insertions stores the first value of every key, which is what `List.lookup` finds in
the sequence itself (`lookup_stored`).  `SearchTree` says of a tree that its leaves hold these
entries in order, that the descent finds them, and that no node is too full; every sequence of
insertions ends in such a tree, after returning which keys were new (`insert_keeps_searchTree`).
The counts are bounded in every tree that an insertion passes through, also between its restarts
(`Visited`).

`lookup` answers from such a tree, but only sets its flag when it finds the key
(`lookup_exact_iff`). -/

namespace LearnedIndex.Btreeolc

variable {K V : Type} [LinearOrder K]

/-! ### What is stored -/

section entries
variable {k : K} {v : V} {l : List (K × V)}

theorem lookup_cons_eq (e : K × V) (l : List (K × V)) (k : K) :
    (e :: l).lookup k = if k = e.1 then some e.2 else l.lookup k := by
  rw [List.lookup_cons]
  by_cases hk : k = e.1
  · rw [if_pos hk, hk, beq_self_eq_true]
  · rw [if_neg hk, beq_eq_false_iff_ne.mpr hk]

theorem mem_keys_iff_lookup (l : List (K × V)) (k : K) :
    k ∈ l.map Prod.fst ↔ (l.lookup k).isSome := by
  rw [List.lookup_isSome_iff, List.mem_map]
  exact exists_congr (fun e => and_congr_right (fun _ => by rw [beq_iff_eq, eq_comm]))

theorem lookup_insertEntry (hs : (l.map Prod.fst).Pairwise (· < ·)) (k' : K) :
    (insertEntry k v l).lookup k' = if k' = k then some ((l.lookup k).getD v) else l.lookup k' := by
  induction l with
  | nil => rw [insertEntry, lookup_cons_eq]; rfl
  | cons e l ih =>
      obtain ⟨he, hs'⟩ := List.pairwise_cons.mp hs
      rw [insertEntry]
      split
      · rename_i hlt
        have hnot : k ∉ (e :: l).map Prod.fst := by
          intro hmem
          rcases List.mem_cons.mp hmem with rfl | hmem
          · exact lt_irrefl _ hlt
          · exact lt_irrefl _ (hlt.trans (he k hmem))
        rw [mem_keys_iff_lookup, Bool.not_eq_true, Option.isSome_eq_false_iff,
          Option.isNone_iff_eq_none] at hnot
        rw [hnot, lookup_cons_eq]
        rfl
      · split
        · rename_i heq
          rw [lookup_cons_eq e l k, if_pos heq]
          split
          · rename_i hk
            rw [lookup_cons_eq, if_pos (hk.trans heq)]
            rfl
          · rfl
        · rename_i hne
          rw [lookup_cons_eq, ih hs', lookup_cons_eq e l k', lookup_cons_eq e l k, if_neg hne]
          by_cases hk : k' = k
          · rw [if_pos hk, if_pos hk, if_neg (hk.trans_ne hne)]
          · rw [if_neg hk, if_neg hk]

theorem mem_keys_insertEntry (hs : (l.map Prod.fst).Pairwise (· < ·)) (k' : K) :
    k' ∈ (insertEntry k v l).map Prod.fst ↔ k' = k ∨ k' ∈ l.map Prod.fst := by
  rw [mem_keys_iff_lookup, mem_keys_iff_lookup, lookup_insertEntry hs]
  by_cases hk : k' = k
  · simp [hk]
  · simp [hk]

/-- In increasing keys an entry is found by its key. -/
theorem mem_iff_lookup (hs : (l.map Prod.fst).Pairwise (· < ·)) :
    (k, v) ∈ l ↔ l.lookup k = some v := by
  induction l with
  | nil => simp
  | cons e l ih =>
      obtain ⟨he, hs'⟩ := List.pairwise_cons.mp hs
      rw [List.mem_cons, lookup_cons_eq, Prod.ext_iff]
      by_cases hk : k = e.1
      · have hnot : (k, v) ∉ l := fun h =>
          lt_irrefl k (hk.trans_lt (he k (List.mem_map_of_mem (f := Prod.fst) h)))
        simp [hk, hk ▸ hnot, eq_comm]
      · simp [hk, ih hs']

end entries

/-- What is stored for a key is the first value that the sequence gives it. -/
theorem lookup_stored (ops : List (K × V)) (k : K) : (stored ops).lookup k = ops.lookup k := by
  suffices h : ∀ l : List (K × V), (l.map Prod.fst).Pairwise (· < ·) →
      (ops.foldl (fun l e => insertEntry e.1 e.2 l) l).lookup k = (l.lookup k).or (ops.lookup k) by
    rw [stored, h [] List.Pairwise.nil, List.lookup_nil, Option.none_or]
  induction ops with
  | nil => exact fun l _ => by rw [List.lookup_nil, Option.or_none]; rfl
  | cons e ops ih =>
      intro l hl
      rw [List.foldl_cons, ih _ (insertEntry_sorted hl), lookup_insertEntry hl, lookup_cons_eq]
      by_cases hk : k = e.1
      · rw [if_pos hk, if_pos hk, ← hk]
        cases l.lookup k <;> rfl
      · rw [if_neg hk, if_neg hk]

/-- The entry of a key in the order of the leaves. -/
theorem mem_stored_iff (ops : List (K × V)) (k : K) (v : V) :
    (k, v) ∈ stored ops ↔ ops.lookup k = some v := by
  rw [mem_iff_lookup (stored_sorted ops), lookup_stored]

theorem mem_keys_stored_iff (ops : List (K × V)) (k : K) :
    k ∈ (stored ops).map Prod.fst ↔ k ∈ ops.map Prod.fst := by
  rw [mem_keys_iff_lookup, mem_keys_iff_lookup, lookup_stored]

/-! ### Counts -/

/-- Every inner node has one more child than keys and is never quite full, and no leaf holds more
than `leafMax` entries. -/
def Bounded : (h : ℕ) → Node K V h → Prop
  | 0, (leaf : BTreeLeaf K V) => leaf.data.length ≤ leafMax
  | h + 1, (inner : BTreeInner K (Node K V h)) =>
      inner.children.length = inner.keys.length + 1 ∧ inner.keys.length < innerMax ∧
        ∀ c ∈ inner.children, Bounded h c

theorem Along.forall_children {α β : Type} {P : Option K → α → Option K → Prop}
    {f : Option K → α → Option K → List β} {Q : β → Prop} {R : α → Prop}
    (hR : ∀ lo c hi, P lo c hi → (∀ x ∈ f lo c hi, Q x) → R c) :
    ∀ {lo hi : Option K} {cs : List α} {ks : List K}, Along P lo cs ks hi →
      (∀ x ∈ listAlong f lo cs ks hi, Q x) → ∀ c ∈ cs, R c
  | _, _, [], _, h, _ => h.elim
  | _, _, [c], [], h, hQ => fun x hx => List.mem_singleton.mp hx ▸ hR _ _ _ h hQ
  | _, _, _ :: _ :: _, [], h, _ => h.elim
  | lo, hi, c :: cs, s :: ks, h, hQ => by
      obtain ⟨hc, _, hrest⟩ := along_cons.mp h
      rw [listAlong_cons] at hQ
      intro x hx
      rcases List.mem_cons.mp hx with rfl | hx
      · exact hR _ _ _ hc (fun y hy => hQ y (List.mem_append_left _ hy))
      · exact hrest.forall_children hR (fun y hy => hQ y (List.mem_append_right _ hy)) x hx

theorem Shape.bounded : ∀ {h : ℕ} {lo hi : Option K} {t : Node K V h}, Shape h lo t hi →
    (∀ s ∈ spans h lo t hi, s.Ok) → Bounded h t
  | 0, lo, hi, t, _, hok => (hok ⟨lo, t, hi⟩ (List.mem_cons_self ..)).count
  | _ + 1, _, _, _, ⟨hcount, halong⟩, hok =>
      ⟨halong.length, Nat.lt_of_le_pred (by decide) hcount.2,
        halong.forall_children (fun _ _ _ hc hs => hc.bounded hs) hok⟩

namespace BTree

/-- The tree when one run from the root has ended. -/
def after (t : BTree K V) : Outcome K (Node K V t.height) → BTree K V
  | .done _ root => { t with root := root }
  | .restart root => { t with root := root, nextAddr := t.nextAddr + 1 }
  | .split sep node newNode => makeRoot sep node newNode (t.nextAddr + 1)

/-- The trees between the runs of insertions, the one before every `goto restart` included. -/
inductive Visited : BTree K V → Prop where
  | empty : Visited empty
  | run {t : BTree K V} {o : Outcome K (Node K V t.height)} (k : K) (v : V) (h : Visited t)
      (ho : attempt k v t.nextAddr t.height t.root = some o) : Visited (t.after o)

/-- One run keeps the invariant. -/
theorem Inv.after {t : BTree K V} (h : t.Inv) {k : K} {v : V} {o : Outcome K (Node K V t.height)}
    (ho : attempt k v t.nextAddr t.height t.root = some o) : (t.after o).Inv := by
  obtain ⟨o', A, s, B, ho', hspans, hk, hends⟩ := attempt_spec k v t.nextAddr
    h.shape h.row.ok (fun l hl => by cases hl) (fun u hu => by cases hu)
  have hspans : t.spans = A ++ s :: B := hspans
  obtain rfl : o' = o := Option.some.inj (ho'.symm.trans ho)
  cases o' with
  | done ret root =>
      obtain ⟨hfull, rfl, hshape, hspans'⟩ := hends
      have hins : Inserted t k v (s.leaf.insert k v).1 { t with root := root } :=
        h.insertLeaf hspans hk hfull rfl hshape hspans'
      exact hins.inv
  | restart root =>
      obtain ⟨hshape, -, hdiv⟩ := hends
      exact (h.split (v := v) { t with root := root, nextAddr := t.nextAddr + 1 } hspans
        hk rfl hshape
        hdiv).1
  | split sep left right =>
      obtain ⟨hin, hleft, hright, -, hdiv⟩ := hends
      have hshape : Shape (t.height + 1) none
          (⟨[sep], [left, right]⟩ : BTreeInner K (Node K V t.height)) none :=
        ⟨⟨le_rfl, show 1 ≤ innerMax - 1 by decide⟩, along_cons.mpr ⟨hleft, hin, hright⟩⟩
      exact (h.split (v := v) (makeRoot sep left right (t.nextAddr + 1)) hspans hk
        rfl hshape hdiv).1

theorem Visited.inv {t : BTree K V} (h : t.Visited) : t.Inv := by
  induction h with
  | empty => exact inv_empty
  | run k v h ho ih => exact ih.after ho

theorem insertLoop_visited {k : K} {v : V} : ∀ {fuel : ℕ} {t t' : BTree K V} {ret : Bool},
    t.Visited → insertLoop k v fuel t = some (ret, t') → t'.Visited
  | 0, _, _, _, _, hloop => absurd hloop nofun
  | fuel + 1, t, t', ret, h, hloop => by
      obtain ⟨o, ho, hrest⟩ := Option.bind_eq_some_iff.mp hloop
      have hnext := h.run k v ho
      cases o with
      | done ret root =>
          obtain ⟨rfl, rfl⟩ := Prod.mk.inj (Option.some.inj hrest)
          exact hnext
      | restart root => exact insertLoop_visited hnext hrest
      | split sep left right => exact insertLoop_visited hnext hrest

/-! ### Sequences of insertions -/

/-- The results of a sequence of insertions, and the tree that it ends in. -/
def insertAnswers (t : BTree K V) : List (K × V) → Option (List Bool × BTree K V)
  | [] => some ([], t)
  | (k, v) :: rest => do
      let (ret, t) ← t.insert k v
      let (rets, t) ← t.insertAnswers rest
      some (ret :: rets, t)

/-- The entries of the leaves in child order. -/
def contents (t : BTree K V) : List (K × V) := (leaves t.height t.root).flatMap BTreeLeaf.data

theorem Inv.contents_eq {t : BTree K V} (h : t.Inv) : t.contents = t.entries := by
  unfold contents entries entriesOf
  rw [leaves_eq h.shape, List.flatMap_map]
  rfl

/-- A search tree for the first values of a sequence of insertions. -/
structure SearchTree (t : BTree K V) (ops : List (K × V)) : Prop where
  sorted : (t.contents.map Prod.fst).Pairwise (· < ·)
  first : ∀ k v, (k, v) ∈ t.contents ↔ ops.lookup k = some v
  descent : ∀ k v, (k, v) ∈ t.contents → ∃ leaf, findLeaf k t.height t.root = some leaf ∧
    leaf ∈ leaves t.height t.root ∧ (k, v) ∈ leaf.data
  bounded : Bounded t.height t.root

theorem Inv.searchTree {t : BTree K V} (h : t.Inv) {ops : List (K × V)}
    (hentries : t.entries = stored ops) : t.SearchTree ops where
  sorted := by
    rw [h.contents_eq, hentries]
    exact stored_sorted ops
  first := fun k v => by
    rw [h.contents_eq, hentries]
    exact mem_stored_iff ops k v
  descent := fun k v hv => by
    obtain ⟨A, s, B, hspans, hk, hfind⟩ := findLeaf_eq (k := k) h.shape (fun l hl => by cases hl)
      (fun u hu => by cases hu)
    have hspans : t.spans = A ++ s :: B := hspans
    have ht : Tiled none t.spans none := h.shape.tiled
    have hok := h.row.ok
    rw [hspans] at ht hok
    obtain ⟨hA, hB⟩ := entries_around ht hok hk
    refine ⟨s.leaf, hfind, ?_, ?_⟩
    · rw [leaves_eq h.shape]
      refine List.mem_map_of_mem ?_
      show s ∈ t.spans
      rw [hspans]
      exact List.mem_append_right _ (List.mem_cons_self ..)
    · rw [h.contents_eq, entries, hspans, entriesOf_append, entriesOf_cons, List.mem_append,
        List.mem_append] at hv
      -- the other leaves hold smaller or larger keys
      rcases hv with hv | hv | hv
      · exact absurd (hA _ hv) (lt_irrefl k)
      · exact hv
      · exact absurd (hB _ hv) (lt_irrefl k)
  bounded := h.shape.bounded h.row.ok

/-- Every insertion of a sequence returns, and it returns whether its key is new. -/
theorem insertAnswers_spec : ∀ (ops : List (K × V)) (t : BTree K V), t.Inv → t.Visited →
    ∃ rets t', t.insertAnswers ops = some (rets, t') ∧ t'.Inv ∧ t'.Visited ∧
      t'.entries = ops.foldl (fun l e => insertEntry e.1 e.2 l) t.entries ∧
      rets.length = ops.length ∧
      ∀ i k v, ops[i]? = some (k, v) → rets[i]? = some
        (decide (k ∉ t.entries.map Prod.fst ∧ k ∉ (ops.take i).map Prod.fst))
  | [], t, h, hvis => ⟨[], t, rfl, h, hvis, rfl, rfl, by simp⟩
  | (k, v) :: rest, t, h, hvis => by
      obtain ⟨ret, t₁, hins, hspec⟩ := insert_spec h k v
      obtain ⟨rets, t', hall, hinv, hvis', hentries, hlen, hrets⟩ :=
        insertAnswers_spec rest t₁ hspec.inv (insertLoop_visited hvis hins)
      have hsorted : (t.entries.map Prod.fst).Pairwise (· < ·) :=
        entries_sorted h.shape.tiled h.row.ok
      refine ⟨ret :: rets, t', ?_, hinv, hvis', ?_, by rw [List.length_cons, hlen]; rfl, ?_⟩
      · simp only [insertAnswers, hins, hall, Option.bind_eq_bind, Option.bind_some]
      · rw [hentries, hspec.entries]
        rfl
      · intro i k' v' hi
        cases i with
        | zero =>
            obtain ⟨rfl, rfl⟩ := Prod.mk.inj (Option.some.inj hi)
            have hret : ret = decide (k ∉ t.entries.map Prod.fst) := by
              rw [Bool.eq_iff_iff, hspec.ret, decide_eq_true_iff]
            rw [List.getElem?_cons_zero, hret, List.take_zero]
            simp
        | succ i =>
            rw [List.getElem?_cons_succ] at hi ⊢
            have hkeys := mem_keys_insertEntry (v := v) (k := k) hsorted k'
            rw [hrets i k' v' hi, hspec.entries, List.take_succ_cons, List.map_cons,
              Option.some_inj,
              decide_eq_decide, List.mem_cons, hkeys]
            tauto

end BTree

/-- **`insert` keeps a search tree**: every insertion of a sequence returns and says whether its key
is new, the tree it ends in is a search tree for the first values, and no tree on the way has a node
that is too full. -/
theorem insert_keeps_searchTree (ops : List (K × V)) :
    (∃ rets t, BTree.empty.insertAnswers ops = some (rets, t) ∧ t.Visited ∧ t.SearchTree ops ∧
      rets.length = ops.length ∧ ∀ i k v, ops[i]? = some (k, v) →
        rets[i]? = some (decide (k ∉ (ops.take i).map Prod.fst))) ∧
      ∀ t : BTree K V, t.Visited → Bounded t.height t.root := by
  refine ⟨?_, fun t h => h.inv.shape.bounded h.inv.row.ok⟩
  obtain ⟨rets, t, hall, hinv, hvis, hentries, hlen, hrets⟩ :=
    BTree.insertAnswers_spec ops BTree.empty BTree.inv_empty BTree.Visited.empty
  refine ⟨rets, t, hall, hvis, hinv.searchTree hentries, hlen, fun i k v hi => ?_⟩
  rw [hrets i k v hi]
  simp [BTree.entries, BTree.spans, spans, entriesOf, BTree.empty]

/-- **When `lookup` is exact**: it returns whether the key is stored and sets the stored value,
unless the key is not stored and the flag, which only a hit sets, started as `true`. -/
theorem lookup_exact_iff (ops : List (K × V)) (junk k : K) (stack : Bool) :
    ∃ t, BTree.empty.insertAll ops = some t ∧
      (t.lookup junk stack k = some ((ops.lookup k).isSome, ops.lookup k) ↔
        k ∈ ops.map Prod.fst ∨ stack = false) := by
  obtain ⟨t, hall, hinv, hentries, -⟩ := BTree.insertAll_spec ops BTree.empty BTree.inv_empty
  have hstored : t.entries = stored ops := hentries
  obtain ⟨hhit, hmiss⟩ := BTree.lookup_spec hinv junk stack k
  rw [hstored] at hhit hmiss
  refine ⟨t, hall, ?_⟩
  rw [mem_keys_iff_lookup]
  cases hk : ops.lookup k with
  | some v =>
      rw [hhit v ((mem_stored_iff ops k v).mpr hk)]
      simp
  | none =>
      have hnot : k ∉ (stored ops).map Prod.fst := by
        rw [mem_keys_stored_iff, mem_keys_iff_lookup, hk]
        exact Bool.false_ne_true
      rw [hmiss hnot]
      simp

/-- In the empty tree a key is found when the flag starts as `true`. -/
theorem not_lookup_exact : ¬ ∀ (ops : List (ℕ × ℕ)) (junk k : ℕ) (stack : Bool) (t : BTree ℕ ℕ),
    BTree.empty.insertAll ops = some t →
      t.lookup junk stack k = some ((ops.lookup k).isSome, ops.lookup k) := by
  intro h
  exact absurd (h [] 0 5 true BTree.empty rfl) (by decide)

end LearnedIndex.Btreeolc
