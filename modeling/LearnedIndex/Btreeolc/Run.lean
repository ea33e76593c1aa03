import LearnedIndex.Btreeolc.Insert

/-! # Sequences of insertions

`BTree.Inv` is the invariant of a tree, in terms of its leaves and their ranges.  `insert_spec` says
that every insertion ends, keeps the invariant and inserts into the entries in order, and what it
does to the links between the leaves: as long as only leaves without a next leaf are split
(`SplitsAtEnd`), every leaf points to the one after it (`Linked`). -/

namespace LearnedIndex.Btreeolc

variable {K V : Type} [LinearOrder K]

/-! ### Leaves in a row -/

/-- The entries of the leaves, from left to right. -/
def entriesOf (L : List (Span K V)) : List (K × V) := L.flatMap (fun s => s.leaf.data)

/-- The leaves hold keys of their ranges and have different addresses, all of them below `n`. -/
structure Row (n : ℕ) (L : List (Span K V)) : Prop where
  ok : ∀ s ∈ L, s.Ok
  nodup : (L.map (fun s => s.leaf.addr)).Nodup
  fresh : ∀ s ∈ L, s.leaf.addr < n

/-- Every leaf points to the one after it, and the last one to `q`. -/
def Linked : List (Span K V) → Option ℕ → Prop
  | [], _ => True
  | s :: L, q => s.leaf.nextLeaf = ((L.head?.map (fun s => s.leaf.addr)).or q) ∧ Linked L q

/-- The leaf for the key is not full, or it is the last in its chain. -/
def SplitsLast (k : K) (L : List (Span K V)) : Prop :=
  ∀ s ∈ L, s.Has k → s.leaf.isFull = true → s.leaf.nextLeaf = none

omit [LinearOrder K] in
theorem linked_append {s : Span K V} {B : List (Span K V)} {q : Option ℕ} :
    ∀ {A : List (Span K V)}, Linked (A ++ s :: B) q ↔
      Linked A (some s.leaf.addr) ∧ Linked (s :: B) q
  | [] => by simp [Linked]
  | a :: A => by
      rw [List.cons_append, Linked, Linked, linked_append, and_assoc]
      cases A <;> rfl

section row
variable {n : ℕ} {k : K} {v : V} {lo hi : Option K} {A B L : List (Span K V)} {s : Span K V}

omit [LinearOrder K] in
theorem entriesOf_append : entriesOf (A ++ B) = entriesOf A ++ entriesOf B := List.flatMap_append

omit [LinearOrder K] in
theorem entriesOf_cons : entriesOf (s :: B) = s.leaf.data ++ entriesOf B := List.flatMap_cons

/-- The entries of the other leaves are smaller or larger than the key. -/
theorem entries_around (ht : Tiled lo (A ++ s :: B) hi) (hok : ∀ x ∈ A ++ s :: B, x.Ok)
    (hk : s.Has k) : (∀ e ∈ entriesOf A, e.1 < k) ∧ ∀ e ∈ entriesOf B, k < e.1 := by
  obtain ⟨hA, hB⟩ := ht.around hk
  constructor
  · intro e he
    obtain ⟨a, ha, hea⟩ := List.mem_flatMap.mp he
    exact hA a ha e.1 ((hok a (by simp [ha])).upTo e hea)
  · intro e he
    obtain ⟨b, hb, heb⟩ := List.mem_flatMap.mp he
    exact hB b hb e.1 ((hok b (by simp [hb])).above e heb)

/-- Entries of leaves in a row are in order. -/
theorem entries_sorted (ht : Tiled lo L hi) (hok : ∀ x ∈ L, x.Ok) :
    ((entriesOf L).map Prod.fst).Pairwise (· < ·) := by
  have hbefore := ht.before
  clear ht
  induction L with
  | nil => exact List.Pairwise.nil
  | cons s L ih =>
      obtain ⟨hs, hL⟩ := List.pairwise_cons.mp hbefore
      rw [entriesOf_cons, List.map_append]
      refine List.pairwise_append.mpr ⟨(hok s (List.mem_cons_self ..)).sorted,
        ih (fun x hx => hok x (List.mem_cons_of_mem s hx)) hL, fun x hx y hy => ?_⟩
      obtain ⟨e, he, rfl⟩ := List.mem_map.mp hx
      obtain ⟨e', he', rfl⟩ := List.mem_map.mp hy
      obtain ⟨b, hb, heb⟩ := List.mem_flatMap.mp he'
      obtain ⟨m, l, hm, hl, hml⟩ := hs b hb
      have h1 := (hok s (List.mem_cons_self ..)).upTo e he m hm
      have h2 := (hok b (List.mem_cons_of_mem s hb)).above e' heb l hl
      exact (h1.trans hml).trans_lt h2

/-- The row after an insertion into the leaf for the key. -/
theorem Row.insert (h : Row n (A ++ s :: B)) (ht : Tiled lo (A ++ s :: B) hi) (hk : s.Has k)
    (hfull : s.leaf.isFull = false) :
    Row n (A ++ s.insert k v :: B) ∧
      entriesOf (A ++ s.insert k v :: B) = insertEntry k v (entriesOf (A ++ s :: B)) ∧
      ((s.leaf.insert k v).1 = true ↔ k ∉ (entriesOf (A ++ s :: B)).map Prod.fst) ∧
      (Linked (A ++ s :: B) none → Linked (A ++ s.insert k v :: B) none) := by
  have hs : s.Ok := h.ok s (by simp)
  obtain ⟨hA, hB⟩ := entries_around ht h.ok hk
  have haddr : (s.insert k v).leaf.addr = s.leaf.addr ∧
      (s.insert k v).leaf.nextLeaf = s.leaf.nextLeaf := by
    unfold Span.insert
    rw [BTreeLeaf.insert_eq hs.sorted]
    exact ⟨rfl, rfl⟩
  refine ⟨⟨fun x hx => ?_, ?_, fun x hx => ?_⟩, ?_, ?_, fun hl => ?_⟩
  · rcases List.mem_append.mp hx with hx | hx
    · exact h.ok x (List.mem_append_left _ hx)
    · rcases List.mem_cons.mp hx with rfl | hx
      · exact hs.insert hk hfull
      · exact h.ok x (List.mem_append_right _ (List.mem_cons_of_mem s hx))
  · have := h.nodup
    rw [List.map_append, List.map_cons] at this ⊢
    rwa [haddr.1]
  · rcases List.mem_append.mp hx with hx | hx
    · exact h.fresh x (List.mem_append_left _ hx)
    · rcases List.mem_cons.mp hx with rfl | hx
      · rw [haddr.1]
        exact h.fresh s (by simp)
      · exact h.fresh x (List.mem_append_right _ (List.mem_cons_of_mem s hx))
  · rw [entriesOf_append, entriesOf_append, entriesOf_cons, entriesOf_cons, hs.data_insert,
      insertEntry_append hA, insertEntry_append_greater hB]
  · rw [BTreeLeaf.insert_eq hs.sorted, decide_eq_true_iff, entriesOf_append, entriesOf_cons,
      List.map_append, List.map_append, List.mem_append, List.mem_append]
    have hAk : k ∉ (entriesOf A).map Prod.fst := by
      intro hmem
      obtain ⟨e, he, hek⟩ := List.mem_map.mp hmem
      exact absurd (hA e he) (by rw [hek]; exact lt_irrefl k)
    have hBk : k ∉ (entriesOf B).map Prod.fst := by
      intro hmem
      obtain ⟨e, he, hek⟩ := List.mem_map.mp hmem
      exact absurd (hB e he) (by rw [hek]; exact lt_irrefl k)
    tauto
  · obtain ⟨h1, h2, h3⟩ := linked_append.mp hl
    refine linked_append.mpr ⟨?_, ?_, h3⟩
    · rw [haddr.1]
      exact h1
    · rw [haddr.2]
      exact h2

/-- The row after a leaf was split. -/
theorem Row.split {sep : K} {left right : BTreeLeaf K V} (h : Row n (A ++ s :: B))
    (hsplit : s.Split n sep left right) :
    Row (n + 1) (A ++ ⟨s.lo, left, some sep⟩ :: ⟨some sep, right, s.hi⟩ :: B) ∧
      entriesOf (A ++ ⟨s.lo, left, some sep⟩ :: ⟨some sep, right, s.hi⟩ :: B) =
        entriesOf (A ++ s :: B) ∧
      (Linked (A ++ s :: B) none → s.leaf.nextLeaf = none →
        Linked (A ++ ⟨s.lo, left, some sep⟩ :: ⟨some sep, right, s.hi⟩ :: B) none) := by
  refine ⟨⟨fun x hx => ?_, ?_, fun x hx => ?_⟩, ?_, fun hl hnone => ?_⟩
  · rcases List.mem_append.mp hx with hx | hx
    · exact h.ok x (List.mem_append_left _ hx)
    · rcases List.mem_cons.mp hx with rfl | hx
      · exact hsplit.okLeft
      · rcases List.mem_cons.mp hx with rfl | hx
        · exact hsplit.okRight
        · exact h.ok x (List.mem_append_right _ (List.mem_cons_of_mem s hx))
  · -- the new address is larger than all others
    have hnew : ∀ x ∈ A ++ s :: B, x.leaf.addr ≠ n := fun x hx => (h.fresh x hx).ne
    have := h.nodup
    rw [List.map_append, List.map_cons] at this ⊢
    rw [List.map_cons]
    show ((A.map _) ++ left.addr :: right.addr :: B.map _).Nodup
    rw [hsplit.addrs.1, hsplit.addrs.2]
    have hperm : ((A.map (fun s => s.leaf.addr)) ++ s.leaf.addr :: n ::
        B.map (fun s => s.leaf.addr)).Perm
        (n :: ((A.map (fun s => s.leaf.addr)) ++ s.leaf.addr :: B.map (fun s => s.leaf.addr))) := by
      have hmiddle : ((A.map (fun s => s.leaf.addr) ++ [s.leaf.addr]) ++ n ::
          B.map (fun s => s.leaf.addr)).Perm
          (n :: ((A.map (fun s => s.leaf.addr) ++ [s.leaf.addr]) ++
            B.map (fun s => s.leaf.addr))) := List.perm_middle
      simpa using hmiddle
    refine hperm.nodup_iff.mpr (List.nodup_cons.mpr ⟨fun hmem => ?_, this⟩)
    rw [← List.map_cons (f := fun s : Span K V => s.leaf.addr), ← List.map_append] at hmem
    obtain ⟨x, hx, hxn⟩ := List.mem_map.mp hmem
    exact hnew x hx hxn
  · rcases List.mem_append.mp hx with hx | hx
    · exact (h.fresh x (List.mem_append_left _ hx)).trans (Nat.lt_succ_self n)
    · rcases List.mem_cons.mp hx with rfl | hx
      · show left.addr < n + 1
        rw [hsplit.addrs.1]
        exact (h.fresh s (by simp)).trans (Nat.lt_succ_self n)
      · rcases List.mem_cons.mp hx with rfl | hx
        · show right.addr < n + 1
          rw [hsplit.addrs.2]
          exact Nat.lt_succ_self n
        · exact (h.fresh x (List.mem_append_right _ (List.mem_cons_of_mem s hx))).trans
            (Nat.lt_succ_self n)
  · rw [entriesOf_append, entriesOf_append, entriesOf_cons, entriesOf_cons, entriesOf_cons,
      ← hsplit.data, List.append_assoc]
  · obtain ⟨h1, h2, h3⟩ := linked_append.mp hl
    -- the split leaf is the last one
    have hB : B = [] := by
      rw [hnone] at h2
      cases B with
      | nil => rfl
      | cons b B => simp at h2
    subst hB
    refine linked_append.mpr ⟨?_, ?_, ?_, trivial⟩
    · show Linked A (some left.addr)
      rw [hsplit.addrs.1]
      exact h1
    · show left.nextLeaf = some right.addr
      rw [hsplit.links.1, hsplit.addrs.2]
    · exact hsplit.links.2

/-- The leaves that come out of a split are not full. -/
theorem splitsLast_of_split {sep : K} {left right : BTreeLeaf K V}
    (ht : Tiled lo (A ++ s :: B) hi) (hk : s.Has k) (hsplit : s.Split n sep left right) :
    SplitsLast k (A ++ ⟨s.lo, left, some sep⟩ :: ⟨some sep, right, s.hi⟩ :: B) := by
  obtain ⟨hA, hB⟩ := ht.around hk
  intro x hx hxk hfull
  have hlen : x.leaf.data.length = 31 := by simpa [BTreeLeaf.isFull, leafMax] using hfull
  rcases List.mem_append.mp hx with hx | hx
  · exact absurd (hA x hx k hxk.2) (lt_irrefl k)
  · rcases List.mem_cons.mp hx with rfl | hx
    · rw [hsplit.lengths.1] at hlen
      omega
    · rcases List.mem_cons.mp hx with rfl | hx
      · rw [hsplit.lengths.2] at hlen
        omega
      · exact absurd (hB x hx k hxk.1) (lt_irrefl k)

end row

/-! ### `insert` -/

namespace BTree

/-- The leaves of the tree with their ranges. -/
def spans (t : BTree K V) : List (Span K V) := Btreeolc.spans t.height none t.root none

/-- The entries of the tree in the order of the leaves. -/
def entries (t : BTree K V) : List (K × V) := entriesOf t.spans

structure Inv (t : BTree K V) : Prop where
  shape : Shape t.height none t.root none
  row : Row t.nextAddr t.spans

theorem inv_empty : (empty : BTree K V).Inv := by
  refine ⟨trivial, ⟨fun s hs => ?_, List.nodup_singleton _, fun s hs => ?_⟩⟩
  · obtain rfl := List.mem_singleton.mp hs
    exact ⟨List.Pairwise.nil, fun e he => absurd he List.not_mem_nil,
      fun e he => absurd he List.not_mem_nil, Nat.zero_le _⟩
  · obtain rfl := List.mem_singleton.mp hs
    exact Nat.zero_lt_one

/-- What an insertion does. -/
structure Inserted (t : BTree K V) (k : K) (v : V) (ret : Bool) (t' : BTree K V) : Prop where
  inv : t'.Inv
  entries : t'.entries = insertEntry k v t.entries
  ret : ret = true ↔ k ∉ t.entries.map Prod.fst
  linked : Linked t.spans none → SplitsLast k t.spans → Linked t'.spans none

/-- A run that split a node leaves a tree with the same entries, into which the key is inserted
next. -/
theorem Inv.split {t : BTree K V} {k : K} {v : V} {A B : List (Span K V)} {s : Span K V}
    (h : t.Inv) (t₁ : BTree K V) (hspans : t.spans = A ++ s :: B) (hk : s.Has k)
    (haddr : t₁.nextAddr = t.nextAddr + 1) (hshape : Shape t₁.height none t₁.root none)
    (hdiv : Divided t.nextAddr A s B t₁.spans) :
    t₁.Inv ∧ ∀ ret t', Inserted t₁ k v ret t' → Inserted t k v ret t' := by
  have hrow := h.row
  have ht : Tiled none t.spans none := h.shape.tiled
  rw [hspans] at ht hrow
  obtain ⟨hrow₁, hentries, hlinked⟩ : Row t₁.nextAddr t₁.spans ∧ t₁.entries = t.entries ∧
      (Linked t.spans none → SplitsLast k t.spans →
        Linked t₁.spans none ∧ SplitsLast k t₁.spans) := by
    rw [BTree.entries, BTree.entries, hspans, haddr]
    rcases hdiv with hsame | ⟨hfull, sep, left, right, hsplit, hsame⟩
    · rw [hsame]
      exact ⟨⟨hrow.ok, hrow.nodup, fun x hx => (hrow.fresh x hx).trans (Nat.lt_succ_self _)⟩, rfl,
        fun h1 h2 => ⟨h1, h2⟩⟩
    · rw [hsame]
      obtain ⟨h1, h2, h3⟩ := hrow.split hsplit
      exact ⟨h1, h2,
        fun hl hs => ⟨h3 hl (hs s (by simp) hk hfull), splitsLast_of_split ht hk hsplit⟩⟩
  refine ⟨⟨hshape, hrow₁⟩, fun ret t' hnext => ⟨hnext.inv, by rw [hnext.entries, hentries],
    by rw [hnext.ret, hentries], fun hl hs => ?_⟩⟩
  obtain ⟨h1, h2⟩ := hlinked hl hs
  exact hnext.linked h1 h2

/-- The last run inserts into the leaf for the key. -/
theorem Inv.insertLeaf {t t' : BTree K V} {k : K} {v : V} {A B : List (Span K V)} {s : Span K V}
    (h : t.Inv) (hspans : t.spans = A ++ s :: B) (hk : s.Has k) (hfull : s.leaf.isFull = false)
    (haddr : t'.nextAddr = t.nextAddr) (hshape : Shape t'.height none t'.root none)
    (hspans' : t'.spans = A ++ s.insert k v :: B) : Inserted t k v (s.leaf.insert k v).1 t' := by
  have hrow := h.row
  have ht : Tiled none t.spans none := h.shape.tiled
  rw [hspans] at ht hrow
  obtain ⟨h1, h2, h3, h4⟩ := hrow.insert (v := v) ht hk hfull
  refine ⟨⟨hshape, ?_⟩, ?_, ?_, fun hl _ => ?_⟩
  · rw [haddr, hspans']
    exact h1
  · rw [BTree.entries, BTree.entries, hspans, hspans', h2]
  · rw [h3, BTree.entries, hspans]
  · rw [hspans']
    rw [hspans] at hl
    exact h4 hl

/-- Enough runs insert the key: every run that does not lowers the potential. -/
theorem insertLoop_spec (k : K) (v : V) : ∀ (fuel : ℕ) (t : BTree K V), t.Inv →
    potential t.height t.root < fuel →
    ∃ ret t', insertLoop k v fuel t = some (ret, t') ∧ Inserted t k v ret t'
  | 0, _, _, hfuel => absurd hfuel (Nat.not_lt_zero _)
  | fuel + 1, t, h, hfuel => by
      obtain ⟨o, A, s, B, ho, hspans, hk, hends⟩ := attempt_spec k v t.nextAddr
        h.shape h.row.ok (fun l hl => by cases hl) (fun u hu => by cases hu)
      have hspans : t.spans = A ++ s :: B := hspans
      cases o with
      | done ret root =>
          obtain ⟨hfull, rfl, hshape, hspans'⟩ := hends
          refine ⟨_, { t with root := root }, ?_,
            h.insertLeaf hspans hk hfull rfl hshape hspans'⟩
          rw [insertLoop, ho]
          rfl
      | restart root =>
          obtain ⟨hshape, hpot, hdiv⟩ := hends
          obtain ⟨hinv, hnext⟩ := h.split (v := v)
            { t with root := root, nextAddr := t.nextAddr + 1 } hspans hk rfl hshape hdiv
          obtain ⟨ret, t', hloop, hins⟩ := insertLoop_spec k v fuel _ hinv
            (show potential t.height root < fuel by omega)
          refine ⟨ret, t', ?_, hnext ret t' hins⟩
          rw [insertLoop, ho]
          exact hloop
      | split sep left right =>
          obtain ⟨hin, hleft, hright, hpot, hdiv⟩ := hends
          have hshape : Shape (t.height + 1) none
              (⟨[sep], [left, right]⟩ : BTreeInner K (Node K V t.height)) none :=
            ⟨⟨le_rfl, show 1 ≤ innerMax - 1 by decide⟩, along_cons.mpr ⟨hleft, hin, hright⟩⟩
          obtain ⟨hinv, hnext⟩ := h.split (v := v) (makeRoot sep left right (t.nextAddr + 1))
            hspans hk rfl hshape hdiv
          have hpot' : potential (t.height + 1)
              (⟨[sep], [left, right]⟩ : BTreeInner K (Node K V t.height)) =
              1 + (potential t.height left + (potential t.height right + 0)) := rfl
          obtain ⟨ret, t', hloop, hins⟩ := insertLoop_spec k v fuel _ hinv
            (lt_of_eq_of_lt hpot' (by omega))
          refine ⟨ret, t', ?_, hnext ret t' hins⟩
          rw [insertLoop, ho]
          exact hloop

/-- Every insertion ends. -/
theorem insert_spec {t : BTree K V} (h : t.Inv) (k : K) (v : V) :
    ∃ ret t', t.insert k v = some (ret, t') ∧ Inserted t k v ret t' :=
  insertLoop_spec k v _ t h (Nat.lt_succ_self _)

end BTree

/-! ### Runs -/

/-- What a sequence of insertions stores: the first value of every key, in the order of the keys. -/
def stored (ops : List (K × V)) : List (K × V) := ops.foldl (fun l e => insertEntry e.1 e.2 l) []

theorem stored_sorted (ops : List (K × V)) : ((stored ops).map Prod.fst).Pairwise (· < ·) := by
  suffices h : ∀ l : List (K × V), (l.map Prod.fst).Pairwise (· < ·) →
      ((ops.foldl (fun l e => insertEntry e.1 e.2 l) l).map Prod.fst).Pairwise (· < ·) from
    h [] List.Pairwise.nil
  induction ops with
  | nil => exact fun l hl => hl
  | cons e ops ih => exact fun l hl => ih _ (insertEntry_sorted hl)

namespace BTree

/-- Every insertion of the sequence that splits a leaf splits one that has no next leaf: the leaf
that the descent finds is not full, or its `next_leaf` is null. -/
def SplitsAtEnd : BTree K V → List (K × V) → Prop
  | _, [] => True
  | t, (k, v) :: rest =>
      (∀ leaf, findLeaf k t.height t.root = some leaf → leaf.isFull = true →
        leaf.nextLeaf = none) ∧
      ∀ ret t', t.insert k v = some (ret, t') → SplitsAtEnd t' rest

/-- The leaf that the descent finds is the one whose range holds the key. -/
theorem Inv.splitsLast {t : BTree K V} (h : t.Inv) {k : K}
    (hleaf : ∀ leaf, findLeaf k t.height t.root = some leaf → leaf.isFull = true →
      leaf.nextLeaf = none) : SplitsLast k t.spans := by
  obtain ⟨A, s, B, hspans, hk, hfind⟩ := findLeaf_eq (k := k) h.shape (fun l hl => by cases hl)
    (fun u hu => by cases hu)
  have ht : Tiled none t.spans none := h.shape.tiled
  have hspans : t.spans = A ++ s :: B := hspans
  rw [hspans] at ht ⊢
  obtain ⟨hA, hB⟩ := ht.around hk
  intro x hx hxk hfull
  rcases List.mem_append.mp hx with hx | hx
  · exact absurd (hA x hx k hxk.2) (lt_irrefl k)
  · rcases List.mem_cons.mp hx with rfl | hx
    · exact hleaf _ hfind hfull
    · exact absurd (hB x hx k hxk.1) (lt_irrefl k)

/-- A sequence of insertions ends in a tree that holds what the sequence stores. -/
theorem insertAll_spec : ∀ (ops : List (K × V)) (t : BTree K V), t.Inv →
    ∃ t', t.insertAll ops = some t' ∧ t'.Inv ∧
      t'.entries = ops.foldl (fun l e => insertEntry e.1 e.2 l) t.entries ∧
      (Linked t.spans none → t.SplitsAtEnd ops → Linked t'.spans none)
  | [], t, h => ⟨t, rfl, h, rfl, fun hl _ => hl⟩
  | (k, v) :: rest, t, h => by
      obtain ⟨ret, t₁, hins, hspec⟩ := insert_spec h k v
      obtain ⟨t', hall, hinv, hentries, hlinked⟩ := insertAll_spec rest t₁ hspec.inv
      refine ⟨t', ?_, hinv, ?_, fun hl hs => ?_⟩
      · rw [insertAll, hins]
        exact hall
      · rw [hentries, hspec.entries]
        rfl
      · exact hlinked (hspec.linked hl (h.splitsLast hs.1)) (hs.2 ret t₁ hins)

end BTree

end LearnedIndex.Btreeolc
