import LearnedIndex.Btreeolc.Run

/-! # `BTree::lookup` and `BTree::scan`

Both start from the leaf for the key.  `scan` follows the links between the leaves.  In a linked
tree it returns the range (`scan_eq`), and a tree stays linked as long as only last leaves are
split, which gives `scan_of_run`.  In general `BTreeLeaf::split` forgets the old `next_leaf`, and
`not_scan_descending` loses keys. -/

namespace LearnedIndex.Btreeolc

variable {K V : Type} [LinearOrder K]

/-- The entries from `k` on. -/
def atLeast (k : K) (l : List (K × V)) : List (K × V) := l.filter (fun e => k ≤ e.1)

section entries
variable {k : K} {A B : List (K × V)}

theorem atLeast_append : atLeast k (A ++ B) = atLeast k A ++ atLeast k B := List.filter_append ..

theorem atLeast_of_lt (hA : ∀ e ∈ A, e.1 < k) : atLeast k A = [] :=
  List.filter_eq_nil_iff.mpr (fun e he => by simpa using hA e he)

theorem atLeast_of_le (hB : ∀ e ∈ B, k ≤ e.1) : atLeast k B = B :=
  List.filter_eq_self.mpr (fun e he => by simpa using hB e he)

end entries

namespace BTreeLeaf

/-- The entries of a leaf from the position of a key on. -/
theorem drop_lowerBound {leaf : BTreeLeaf K V} (hs : (leaf.data.map Prod.fst).Pairwise (· < ·))
    (junk k : K) : leaf.data.drop (leaf.lowerBound junk k) = atLeast k leaf.data := by
  obtain ⟨A, B, hl, hA, hB⟩ := exists_cut_entries k hs
  rcases eq_or_ne leaf.data [] with hnil | hne
  · rw [hnil, List.drop_nil]
    rfl
  · rw [lowerBound_cut hs hl hA hB hne, hl, List.drop_left' rfl, atLeast_append, atLeast_of_lt hA,
      atLeast_of_le hB]
    rfl

end BTreeLeaf

namespace BTree

/-! ### `lookup` -/

/-- The entry of the leaf at the position of a key. -/
theorem lookup_leaf {leaf : BTreeLeaf K V} (hs : (leaf.data.map Prod.fst).Pairwise (· < ·))
    (junk k : K) : leaf.data[leaf.lowerBound junk k]? = (atLeast k leaf.data).head? := by
  rw [← BTreeLeaf.drop_lowerBound hs junk k, List.head?_drop]

/-- `lookup` finds the stored value; otherwise it returns what the stack held. -/
theorem lookup_spec {t : BTree K V} (h : t.Inv) (junk : K) (stack : Bool) (k : K) :
    (∀ v, (k, v) ∈ t.entries → t.lookup junk stack k = some (true, some v)) ∧
      (k ∉ t.entries.map Prod.fst → t.lookup junk stack k = some (stack, none)) := by
  obtain ⟨A, s, B, hspans, hk, hfind⟩ := findLeaf_eq (k := k) h.shape (fun l hl => by cases hl)
    (fun u hu => by cases hu)
  have hspans : t.spans = A ++ s :: B := hspans
  have ht : Tiled none t.spans none := h.shape.tiled
  have hrow := h.row
  rw [hspans] at ht hrow
  have hs : s.Ok := hrow.ok s (by simp)
  obtain ⟨hA, hB⟩ := entries_around ht hrow.ok hk
  obtain ⟨C, D, hdata, hC, hD⟩ := exists_cut_entries k hs.sorted
  have hfrom : atLeast k s.leaf.data = D := by
    rw [hdata, atLeast_append, atLeast_of_lt hC, atLeast_of_le hD]
    rfl
  have hentries : t.entries = entriesOf A ++ ((C ++ D) ++ entriesOf B) := by
    rw [BTree.entries, hspans, entriesOf_append, entriesOf_cons, hdata]
  have hget : s.leaf.data[s.leaf.lowerBound junk k]? = D.head? := by
    rw [lookup_leaf hs.sorted, hfrom]
  have hstart : t.lookup junk stack k = D.head?.elim (some (stack, none))
      (fun e => some (if e.1 = k then (true, some e.2) else (stack, none))) := by
    unfold lookup
    rw [hfind, Option.bind_eq_bind, Option.bind_some]
    dsimp only
    rw [hget]
    cases D <;> rfl
  -- an entry of the key can only be the first one of `D`
  have hmem : ∀ v, (k, v) ∈ t.entries → (k, v) ∈ D := by
    intro v hv
    rw [hentries] at hv
    rcases List.mem_append.mp hv with hv | hv
    · exact absurd (hA _ hv) (lt_irrefl k)
    · rcases List.mem_append.mp hv with hv | hv
      · rcases List.mem_append.mp hv with hv | hv
        · exact absurd (hC _ hv) (lt_irrefl k)
        · exact hv
      · exact absurd (hB _ hv) (lt_irrefl k)
  refine ⟨fun v hv => ?_, fun hnot => ?_⟩
  · have hv := hmem v hv
    cases D with
    | nil => cases hv
    | cons e D =>
        have hsorted := hs.sorted
        rw [hdata, List.map_append] at hsorted
        have hfirst := (List.pairwise_append.mp hsorted).2.1
        rw [List.map_cons] at hfirst
        rcases List.mem_cons.mp hv with heq | hv
        · rw [hstart, ← heq]
          simp
        · have hlt := (List.pairwise_cons.mp hfirst).1 k (List.mem_map_of_mem hv)
          exact absurd hlt (not_lt.mpr (hD e (List.mem_cons_self ..)))
  · rw [hstart]
    cases D with
    | nil => rfl
    | cons e D =>
        have hne : e.1 ≠ k := by
          rintro rfl
          refine hnot (List.mem_map_of_mem ?_)
          rw [hentries]
          simp
        simp [hne]

/-! ### `scan` -/

omit [LinearOrder K] in
/-- In a row of different addresses the leaf at an address is found. -/
theorem find?_addr {L : List (Span K V)} (hnd : (L.map (fun s => s.leaf.addr)).Nodup) {s : Span K V}
    (hs : s ∈ L) :
    (L.map Span.leaf).find? (fun leaf => leaf.addr == s.leaf.addr) = some s.leaf := by
  induction L with
  | nil => cases hs
  | cons x L ih =>
      rw [List.map_cons] at hnd ⊢
      obtain ⟨hx, hnd'⟩ := List.nodup_cons.mp hnd
      rcases List.mem_cons.mp hs with rfl | hs
      · rw [List.find?_cons_of_pos (by simp)]
      · have hne : x.leaf.addr ≠ s.leaf.addr := fun heq =>
          hx (heq ▸ List.mem_map_of_mem (f := fun s : Span K V => s.leaf.addr) hs)
        rw [List.find?_cons_of_neg (by simpa using hne)]
        exact ih hnd' hs

theorem deref_eq {t : BTree K V} (h : t.Inv) {s : Span K V} (hs : s ∈ t.spans) :
    t.deref s.leaf.addr = some s.leaf := by
  unfold deref
  rw [leaves_eq h.shape]
  exact find?_addr h.row.nodup hs

/-- The loop of `scan` collects the entries from `k` on of the leaves that are left.  The induction
is along the links. -/
theorem scanLoop_spec {t : BTree K V} (h : t.Inv) {junk k : K} {range : ℕ} :
    ∀ (B : List (Span K V)) (s : Span K V) (fuel : ℕ) (output : List (K × V)),
      (∀ x ∈ s :: B, x ∈ t.spans) → Linked (s :: B) none → (s :: B).length ≤ fuel →
      (output ≠ [] → ∀ e ∈ s.leaf.data, k ≤ e.1) → (∀ e ∈ entriesOf B, k ≤ e.1) →
      t.scanLoop junk k range fuel (some s.leaf) output =
        some (output ++ (atLeast k (entriesOf (s :: B))).take (range - output.length))
  | _, _, 0, _, _, _, hf, _, _ => absurd hf (by simp)
  | B, s, fuel + 1, output, hmem, hl, hf, hout, hB => by
      obtain ⟨hnext, hl'⟩ := hl
      have hs : s.Ok := h.row.ok s (hmem s (List.mem_cons_self ..))
      have hchunk : s.leaf.data.drop
          (if output.length = 0 then s.leaf.lowerBound junk k else 0) = atLeast k s.leaf.data := by
        split
        · exact BTreeLeaf.drop_lowerBound hs.sorted junk k
        · rename_i hne
          rw [List.drop_zero, atLeast_of_le (hout (fun hnil => hne (by rw [hnil]; rfl)))]
      rw [scanLoop]
      simp only [hchunk]
      split
      · rename_i hlt
        obtain ⟨out', hout'⟩ : ∃ out', out' = output ++
            (atLeast k s.leaf.data).take (range - output.length) := ⟨_, rfl⟩
        have hlen' : out'.length = output.length +
            min (range - output.length) (atLeast k s.leaf.data).length := by
          rw [hout', List.length_append, List.length_take]
        have hgoal : output ++ (atLeast k (entriesOf (s :: B))).take (range - output.length) =
            out' ++ (atLeast k (entriesOf B)).take (range - out'.length) := by
          rw [entriesOf_cons, atLeast_append, List.take_append, hout', List.append_assoc]
          congr 3
          rw [← hout', hlen']
          omega
        rw [hgoal, ← hout']
        cases B with
        | nil =>
            have hnone : s.leaf.nextLeaf = none := hnext
            rw [hnone]
            show some out' = some (out' ++ (atLeast k []).take _)
            rw [show atLeast k ([] : List (K × V)) = [] from rfl, List.take_nil, List.append_nil]
        | cons b B =>
            have hsome : s.leaf.nextLeaf = some b.leaf.addr := hnext
            have hb : b ∈ t.spans := hmem b (by simp)
            rw [hsome]
            show (t.deref b.leaf.addr).bind _ = _
            rw [deref_eq h hb, Option.bind_some]
            refine scanLoop_spec h B b fuel out' (fun x hx => hmem x (List.mem_cons_of_mem s hx))
              hl' (by simpa using hf) (fun _ e he => ?_) (fun e he => ?_)
            · exact hB e (by rw [entriesOf_cons]; exact List.mem_append_left _ he)
            · exact hB e (by rw [entriesOf_cons]; exact List.mem_append_right _ he)
      · rename_i hnot
        rw [show range - output.length = 0 by omega, List.take_zero, List.append_nil]

/-- In a linked tree `scan` returns the range. -/
theorem scan_eq {t : BTree K V} (h : t.Inv) (hl : Linked t.spans none) (junk k : K) (range : ℕ) :
    t.scan junk k range = some ((atLeast k t.entries).take range) := by
  obtain ⟨A, s, B, hspans, hk, hfind⟩ := findLeaf_eq (k := k) h.shape (fun l hl => by cases hl)
    (fun u hu => by cases hu)
  have hspans : t.spans = A ++ s :: B := hspans
  have ht : Tiled none t.spans none := h.shape.tiled
  have hok := h.row.ok
  rw [hspans] at ht hl hok
  obtain ⟨hA, hB⟩ := entries_around ht hok hk
  have hlen : (leaves t.height t.root).length = (A ++ s :: B).length := by
    rw [leaves_eq h.shape, List.length_map]
    exact congrArg List.length hspans
  have hloop := @scanLoop_spec _ _ _ t h junk k range B s
    (leaves t.height t.root).length []
    (fun x hx => by rw [hspans]; exact List.mem_append_right _ hx) (linked_append.mp hl).2
    (by rw [hlen, List.length_append]; exact Nat.le_add_left _ _) (fun h => absurd rfl h)
    (fun e he => (hB e he).le)
  unfold scan
  rw [hfind, Option.bind_eq_bind, Option.bind_some, hloop, BTree.entries, hspans, entriesOf_append,
    atLeast_append, atLeast_of_lt hA]
  rfl

end BTree

/-- If every insertion that splits a leaf splits a last one, then `scan` returns the stored entries
from the key on, in order, as many as there are or as were asked for. -/
theorem scan_of_run (ops : List (K × V)) (h : (BTree.empty : BTree K V).SplitsAtEnd ops) :
    ∃ t, BTree.empty.insertAll ops = some t ∧ ∀ junk k range, ∃ output,
      t.scan junk k range = some output ∧
      output = ((stored ops).filter (fun e => k ≤ e.1)).take range ∧
      output.length = min range ((stored ops).countP (fun e => k ≤ e.1)) ∧
      (output.map Prod.fst).Pairwise (· < ·) := by
  obtain ⟨t, hall, hinv, hentries, hlinked⟩ := BTree.insertAll_spec ops BTree.empty BTree.inv_empty
  have hl : Linked t.spans none := hlinked ⟨rfl, trivial⟩ h
  have hstored : t.entries = stored ops := hentries
  refine ⟨t, hall, fun junk k range => ⟨_, ?_, rfl, ?_, ?_⟩⟩
  · rw [BTree.scan_eq hinv hl, hstored]
    rfl
  · rw [List.length_take, List.countP_eq_length_filter]
  · refine (stored_sorted ops).sublist (List.Sublist.map Prod.fst ?_)
    exact (List.take_sublist range _).trans List.filter_sublist

theorem scan_of_run_two : ∃ t, BTree.empty.insertAll [(2, 20), (1, 10)] = some t ∧
    ∀ junk k range, ∃ output, t.scan junk k range = some output ∧
      output = ((stored [(2, 20), (1, 10)]).filter (fun e => k ≤ e.1)).take range ∧
      output.length = min range ((stored [(2, 20), (1, 10)]).countP (fun e => k ≤ e.1)) ∧
      (output.map Prod.fst).Pairwise (· < ·) := by
  refine scan_of_run (K := ℕ) (V := ℕ) [(2, 20), (1, 10)]
    ⟨?_, fun ret t' ht => ⟨?_, fun _ _ _ => trivial⟩⟩
  · intro leaf hleaf hfull
    cases hleaf
    cases hfull
  · intro leaf hleaf hfull
    cases ht
    cases hleaf
    cases hfull

/-- Keys inserted from large to small split the first leaf, which then forgets all leaves behind the
new one. -/
theorem not_scan_descending : ¬ ∀ (ops : List (ℕ × ℕ)) (junk k range : ℕ) (t : BTree ℕ ℕ),
    BTree.empty.insertAll ops = some t →
      t.scan junk k range = some (((stored ops).filter (fun e => k ≤ e.1)).take range) := by
  intro h
  obtain ⟨ops, hops⟩ : ∃ ops : List (ℕ × ℕ), ops =
      (List.range 48).reverse.map (fun i => (i, i)) := ⟨_, rfl⟩
  have hscan : (BTree.empty.insertAll ops).bind (fun t => t.scan 0 0 100) =
      some ((List.range 32).map (fun i => (i, i))) := by
    rw [hops]
    decide +kernel
  obtain ⟨t, hall, ht⟩ := Option.bind_eq_some_iff.mp hscan
  have hlen := congrArg (Option.map List.length) ((h ops 0 0 100 t hall).symm.trans ht)
  rw [hops] at hlen
  exact absurd hlen (by decide +kernel)

end LearnedIndex.Btreeolc
