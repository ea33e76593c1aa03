import LearnedIndex.Btreeolc.Search

/-! # `BTree::insert`

What `insert` means is `insertEntry`: a key that is not stored yet gets its place in the order, and
a stored key keeps its value.  `attempt_spec` describes one run from the root.  It either inserts
into the leaf for the key, or it splits one node, which keeps the entries and the order and lowers
the potential, so that only finitely many runs follow (`insert_spec`). -/

namespace LearnedIndex.Btreeolc

variable {K V : Type} [LinearOrder K]

/-! ### Entries in order -/

/-- Insert an entry unless its key is stored. -/
def insertEntry (k : K) (v : V) : List (K × V) → List (K × V)
  | [] => [(k, v)]
  | e :: l =>
      if k < e.1 then (k, v) :: e :: l
      else if k = e.1 then e :: l
      else e :: insertEntry k v l

section entries
variable {k : K} {v : V}

theorem insertEntry_append {A M : List (K × V)} (hA : ∀ e ∈ A, e.1 < k) :
    insertEntry k v (A ++ M) = A ++ insertEntry k v M := by
  induction A with
  | nil => rfl
  | cons e A ih =>
      have he : e.1 < k := hA e (List.mem_cons_self ..)
      rw [List.cons_append, insertEntry, if_neg (not_lt.mpr he.le), if_neg (ne_of_gt he),
        ih (fun x hx => hA x (List.mem_cons_of_mem e hx)), List.cons_append]

theorem insertEntry_greater {B : List (K × V)} (hB : ∀ e ∈ B, k < e.1) :
    insertEntry k v B = (k, v) :: B := by
  cases B with
  | nil => rfl
  | cons e B => rw [insertEntry, if_pos (hB e (List.mem_cons_self ..))]

theorem insertEntry_append_greater {B : List (K × V)} (hB : ∀ e ∈ B, k < e.1) :
    ∀ M : List (K × V), insertEntry k v (M ++ B) = insertEntry k v M ++ B
  | [] => insertEntry_greater hB
  | e :: M => by
      rw [List.cons_append, insertEntry, insertEntry]
      split
      · rfl
      · split
        · rfl
        · rw [insertEntry_append_greater hB M, List.cons_append]

theorem insertIdx_append {α : Type} (x : α) (B : List α) :
    ∀ A : List α, (A ++ B).insertIdx A.length x = A ++ x :: B
  | [] => rfl
  | a :: A => congrArg (a :: ·) (insertIdx_append x B A)

/-- The entries of increasing keys are cut by `k`. -/
theorem exists_cut_entries (k : K) {l : List (K × V)} (hs : (l.map Prod.fst).Pairwise (· < ·)) :
    ∃ A B, l = A ++ B ∧ (∀ e ∈ A, e.1 < k) ∧ ∀ e ∈ B, k ≤ e.1 := by
  obtain ⟨A, B, hl, hA, hB⟩ := exists_cut k hs
  obtain ⟨A', B', rfl, rfl, rfl⟩ := List.map_eq_append_iff.mp hl
  exact ⟨A', B', rfl, fun e he => hA _ (List.mem_map_of_mem he),
    fun e he => hB _ (List.mem_map_of_mem he)⟩

end entries

/-! ### Leaves -/

namespace BTreeLeaf

theorem lowerBound_cut {leaf : BTreeLeaf K V} {junk k : K} {A B : List (K × V)}
    (hs : (leaf.data.map Prod.fst).Pairwise (· < ·)) (hl : leaf.data = A ++ B)
    (hA : ∀ e ∈ A, e.1 < k) (hB : ∀ e ∈ B, k ≤ e.1) (hne : leaf.data ≠ []) :
    leaf.lowerBound junk k = A.length := by
  unfold lowerBound
  rw [hl, List.map_append] at hs ⊢
  rw [lowerBound_append hs, List.length_map]
  · intro a ha
    obtain ⟨e, he, rfl⟩ := List.mem_map.mp ha
    exact hA e he
  · intro b hb
    obtain ⟨e, he, rfl⟩ := List.mem_map.mp hb
    exact hB e he
  · rw [← List.map_append, ← hl]
    simpa using hne

/-- `insert` into a leaf: the entries, and whether the key is new. -/
theorem insert_eq {leaf : BTreeLeaf K V} (hs : (leaf.data.map Prod.fst).Pairwise (· < ·)) (k : K)
    (v : V) :
    leaf.insert k v = (decide (k ∉ leaf.data.map Prod.fst),
      { leaf with data := insertEntry k v leaf.data }) := by
  unfold insert
  split
  · rename_i hlen
    have hne : leaf.data ≠ [] := fun h => hlen (by rw [h]; rfl)
    obtain ⟨A, B, hl, hA, hB⟩ := exists_cut_entries k hs
    have hpos := @lowerBound_cut _ _ _ leaf k k A B hs hl hA hB hne
    have hAk : k ∉ A.map Prod.fst := by
      intro hmem
      obtain ⟨e, he, hek⟩ := List.mem_map.mp hmem
      exact absurd (hA e he) (by rw [hek]; exact lt_irrefl k)
    simp only [hpos]
    rw [hl, List.getElem?_append_right le_rfl, Nat.sub_self, insertEntry_append hA]
    cases B with
    | nil =>
        rw [if_neg (by simp), List.append_nil, decide_eq_true (by simpa using hAk)]
        rw [List.insertIdx_length_self]
        rfl
    | cons e B =>
        rcases (hB e (List.mem_cons_self ..)).eq_or_lt with heq | hlt
        · rw [if_pos (by simp [heq]), insertEntry, if_neg
            (by rw [heq]; exact lt_irrefl _), if_pos heq,
            decide_eq_false (by simp [heq]), ← hl]
        · have hBk : k ∉ (e :: B).map Prod.fst := by
            rw [hl, List.map_append] at hs
            have hs' := (List.pairwise_append.mp hs).2.1
            rw [List.map_cons] at hs' ⊢
            obtain ⟨he, _⟩ := List.pairwise_cons.mp hs'
            intro hmem
            rcases List.mem_cons.mp hmem with rfl | hmem
            · exact lt_irrefl _ hlt
            · exact lt_irrefl _ (hlt.trans (he k hmem))
          have hnot : k ∉ (A ++ e :: B).map Prod.fst := by
            rw [List.map_append]
            exact fun h => (List.mem_append.mp h).elim hAk hBk
          rw [if_neg (by simpa using ne_of_gt hlt), insertEntry, if_pos hlt, decide_eq_true hnot]
          rw [insertIdx_append]
  · rename_i hlen
    have hnil : leaf.data = [] := List.length_eq_zero_iff.mp (not_not.mp hlen)
    rw [hnil]
    rfl

omit [LinearOrder K] in
/-- A full leaf is cut behind its fifteenth entry. -/
theorem split_eq {leaf : BTreeLeaf K V} (hfull : leaf.isFull = true) (addr : ℕ) :
    ∃ A sep w B, leaf.data = A ++ (sep, w) :: B ∧ A.length = 14 ∧ B.length = 16 ∧
      leaf.split addr = some (sep, { leaf with data := A ++ [(sep, w)], nextLeaf := some addr },
        { addr := addr, data := B, nextLeaf := none }) := by
  have hlen : leaf.data.length = 31 := by simpa [isFull, leafMax] using hfull
  have h14 : 14 < leaf.data.length := by omega
  have hcut : leaf.data = leaf.data.take 14 ++ leaf.data[14] :: leaf.data.drop 15 := by
    rw [List.getElem_cons_drop, List.take_append_drop]
  refine ⟨leaf.data.take 14, leaf.data[14].1, leaf.data[14].2, leaf.data.drop 15, hcut, ?_, ?_, ?_⟩
  · rw [List.length_take]
    omega
  · rw [List.length_drop]
    omega
  · unfold split
    have htake : leaf.data.take 15 = leaf.data.take 14 ++ [leaf.data[14]] := by
      rw [List.take_add_one, List.getElem?_eq_getElem h14]
      rfl
    simp only [hlen, Nat.reduceDiv, Nat.reduceSub, List.getElem?_eq_getElem h14,
      Option.bind_eq_bind, Option.bind_some, htake]

end BTreeLeaf

section span
variable {s : Span K V} {k : K} {v : V}

/-- The span after an insertion into its leaf. -/
def Span.insert (s : Span K V) (k : K) (v : V) : Span K V :=
  { s with leaf := (s.leaf.insert k v).2 }

theorem Span.Ok.data_insert (h : s.Ok) (k : K) (v : V) :
    (s.insert k v).leaf.data = insertEntry k v s.leaf.data := by
  unfold Span.insert
  rw [BTreeLeaf.insert_eq h.sorted]

theorem mem_insertEntry {e : K × V} : ∀ {l : List (K × V)}, e ∈ insertEntry k v l →
    e = (k, v) ∨ e ∈ l
  | [], he => Or.inl (List.mem_singleton.mp he)
  | a :: l, he => by
      rw [insertEntry] at he
      split at he
      · exact List.mem_cons.mp he
      · split at he
        · exact Or.inr he
        · rcases List.mem_cons.mp he with rfl | he
          · exact Or.inr (List.mem_cons_self ..)
          · rcases mem_insertEntry he with he | he
            · exact Or.inl he
            · exact Or.inr (List.mem_cons_of_mem a he)

theorem insertEntry_sorted : ∀ {l : List (K × V)}, (l.map Prod.fst).Pairwise (· < ·) →
    ((insertEntry k v l).map Prod.fst).Pairwise (· < ·)
  | [], _ => List.pairwise_singleton _ _
  | a :: l, hs => by
      have hs' := hs
      rw [List.map_cons] at hs'
      obtain ⟨ha, hl⟩ := List.pairwise_cons.mp hs'
      rw [insertEntry]
      split
      · rename_i hlt
        rw [List.map_cons]
        refine List.pairwise_cons.mpr ⟨fun x hx => ?_, hs⟩
        rcases List.mem_cons.mp hx with rfl | hx
        · exact hlt
        · exact hlt.trans (ha x hx)
      · rename_i hnot
        split
        · exact hs
        · rename_i hne
          rw [List.map_cons]
          refine List.pairwise_cons.mpr ⟨fun x hx => ?_, insertEntry_sorted hl⟩
          obtain ⟨e, he, rfl⟩ := List.mem_map.mp hx
          rcases mem_insertEntry he with rfl | he
          · exact lt_of_le_of_ne (not_lt.mp hnot) (fun h => hne h.symm)
          · exact ha _ (List.mem_map_of_mem he)

theorem length_insertEntry_le : ∀ l : List (K × V), (insertEntry k v l).length ≤ l.length + 1
  | [] => le_rfl
  | a :: l => by
      rw [insertEntry]
      split
      · exact le_rfl
      · split
        · exact Nat.le_succ _
        · exact Nat.succ_le_succ (length_insertEntry_le l)

theorem Span.Ok.insert (h : s.Ok) (hk : s.Has k) (hfull : s.leaf.isFull = false) :
    (s.insert k v).Ok := by
  have hcount := h.count
  have hne : s.leaf.data.length ≠ leafMax := by simpa [BTreeLeaf.isFull] using hfull
  refine ⟨?_, fun e he => ?_, fun e he => ?_, ?_⟩
  · rw [h.data_insert]
    exact insertEntry_sorted h.sorted
  · rw [h.data_insert] at he
    rcases mem_insertEntry he with rfl | he
    · exact hk.1
    · exact h.above e he
  · rw [h.data_insert] at he
    rcases mem_insertEntry he with rfl | he
    · exact hk.2
    · exact h.upTo e he
  · rw [h.data_insert]
    have := length_insertEntry_le (k := k) (v := v) s.leaf.data
    omega

/-- The two leaves of a split, with their ranges. -/
structure Span.Split (s : Span K V) (addr : ℕ) (sep : K) (left right : BTreeLeaf K V) : Prop where
  inside : Inside s.lo s.hi sep
  okLeft : Span.Ok ⟨s.lo, left, some sep⟩
  okRight : Span.Ok ⟨some sep, right, s.hi⟩
  data : left.data ++ right.data = s.leaf.data
  lengths : left.data.length = 15 ∧ right.data.length = 16
  addrs : left.addr = s.leaf.addr ∧ right.addr = addr
  links : left.nextLeaf = some addr ∧ right.nextLeaf = none

theorem Span.Ok.split (h : s.Ok) (hfull : s.leaf.isFull = true) (addr : ℕ) :
    ∃ sep left right, s.leaf.split addr = some (sep, left, right) ∧
    s.Split addr sep left right := by
  obtain ⟨A, sep, w, B, hdata, hA, hB, hsplit⟩ := BTreeLeaf.split_eq hfull addr
  have hmemA : ∀ e ∈ A ++ [(sep, w)], e ∈ s.leaf.data := by
    intro e he
    rw [hdata]
    simp only [List.mem_append, List.mem_cons, List.not_mem_nil] at he ⊢
    tauto
  have hmemB : ∀ e ∈ B, e ∈ s.leaf.data := fun e he => by
    rw [hdata]
    exact List.mem_append_right _ (List.mem_cons_of_mem _ he)
  have hsorted := h.sorted
  rw [hdata, show A ++ (sep, w) :: B = (A ++ [(sep, w)]) ++ B by simp, List.map_append] at hsorted
  obtain ⟨hsA, hsB, hAB⟩ := List.pairwise_append.mp hsorted
  have hsepB : ∀ e ∈ B, sep < e.1 := fun e he =>
    hAB sep (by simp) e.1 (List.mem_map_of_mem he)
  have hAsep : ∀ e ∈ A ++ [(sep, w)], e.1 ≤ sep := by
    intro e he
    rcases List.mem_append.mp he with he | he
    · rw [List.map_append] at hsA
      exact ((List.pairwise_append.mp hsA).2.2 e.1 (List.mem_map_of_mem he) sep (by simp)).le
    · rw [List.mem_singleton.mp he]
  obtain ⟨b, hb⟩ : ∃ b, b ∈ B := List.exists_mem_of_length_pos (by omega)
  have hin : Inside s.lo s.hi sep := by
    refine ⟨h.above (sep, w) (hmemA _ (by simp)), fun u hu => ?_⟩
    exact (hsepB b hb).trans_le (h.upTo b (hmemB b hb) u hu)
  refine ⟨sep, _, _, hsplit, hin, ?_, ?_, ?_, ?_, ⟨rfl, rfl⟩, rfl, rfl⟩
  · refine ⟨hsA, fun e he => h.above e (hmemA e he), fun e he u hu => ?_, ?_⟩
    · exact Option.some.inj hu ▸ hAsep e he
    · simp [leafMax, hA]
  · refine ⟨hsB, fun e he l hl => ?_, fun e he => h.upTo e (hmemB e he), ?_⟩
    · exact Option.some.inj hl ▸ hsepB e he
    · show B.length ≤ leafMax
      simp [leafMax, hB]
  · rw [hdata]
    simp
  · exact ⟨by simp [hA], hB⟩

end span

/-! ### Inner nodes -/

section inner
variable {α β : Type} {P : Option K → α → Option K → Prop} {f : Option K → α → Option K → List β}

/-- A full inner node is cut at its fifteenth separator. -/
theorem BTreeInner.split_eq {inner : BTreeInner K α} {lo hi : Option K}
    (hfull : inner.isFull = true)
    (h : Along P lo inner.children inner.keys hi) :
    ∃ A sep B, inner.keys = A ++ sep :: B ∧ A.length = 14 ∧ B.length = 15 ∧
      inner.split = some (sep, ⟨A, inner.children.take 15⟩, ⟨B, inner.children.drop 15⟩) ∧
      Along P lo (inner.children.take 15) A (some sep) ∧ Inside lo hi sep ∧
      Along P (some sep) (inner.children.drop 15) B hi ∧
      listAlong f lo inner.children inner.keys hi =
        listAlong f lo (inner.children.take 15) A (some sep) ++
          listAlong f (some sep) (inner.children.drop 15) B hi := by
  have hlen : inner.keys.length = 30 := by simpa [isFull, innerMax] using hfull
  have h14 : 14 < inner.keys.length := by omega
  obtain ⟨A, hAdef⟩ : ∃ A, A = inner.keys.take 14 := ⟨_, rfl⟩
  obtain ⟨B, hBdef⟩ : ∃ B, B = inner.keys.drop 15 := ⟨_, rfl⟩
  have hcut : inner.keys = A ++ inner.keys[14] :: B := by
    rw [hAdef, hBdef, List.getElem_cons_drop, List.take_append_drop]
  have hA : A.length = 14 := by rw [hAdef, List.length_take]; omega
  have hB : B.length = 15 := by rw [hBdef, List.length_drop]; omega
  have h' := h
  rw [hcut] at h'
  obtain ⟨h1, h2, h3⟩ := along_split h'
  rw [hA] at h1 h3
  refine ⟨A, inner.keys[14], B, hcut, hA, hB, ?_, h1, h2, h3, ?_⟩
  · unfold split
    simp only [hlen, Nat.reduceDiv, Nat.reduceSub, Nat.reduceAdd, List.getElem?_eq_getElem h14,
      Option.bind_eq_bind, Option.bind_some, ← hAdef, ← hBdef]
  · have hcs := List.take_append_drop 15 inner.children
    have := @listAlong_append _ _ _ f lo hi (inner.children.take 15) A inner.keys[14]
      (inner.children.drop 15) B h1.length
    rwa [hcs, ← hcut] at this

end inner

/-! ### The potential -/

section potential
variable {α : Type} {f : α → ℕ}

theorem sum_set {cs : List α} {pos : ℕ} {c : α} (h : cs[pos]? = some c) (c' : α) :
    ((cs.set pos c').map f).sum + f c = (cs.map f).sum + f c' := by
  obtain ⟨hlt, rfl⟩ := List.getElem?_eq_some_iff.mp h
  have hcut : cs = cs.take pos ++ cs[pos] :: cs.drop (pos + 1) := by
    rw [List.getElem_cons_drop, List.take_append_drop]
  rw [List.set_eq_take_append_cons_drop, if_pos hlt]
  conv_rhs => rw [hcut]
  simp only [List.map_append, List.map_cons, List.sum_append, List.sum_cons]
  omega

theorem sum_insertIdx {cs : List α} {pos : ℕ} (h : pos ≤ cs.length) (c : α) :
    ((cs.insertIdx pos c).map f).sum = (cs.map f).sum + f c := by
  have hcut := List.take_append_drop pos cs
  have hins := insertIdx_append c (cs.drop pos) (cs.take pos)
  rw [hcut, List.length_take_of_le h] at hins
  rw [hins]
  conv_rhs => rw [← hcut]
  simp only [List.map_append, List.map_cons, List.sum_append, List.sum_cons]
  omega

end potential

/-! ### One run -/

/-- The leaves after a node was split: the same, or with the leaf `s` split. -/
def Divided (addr : ℕ) (A : List (Span K V)) (s : Span K V) (B L : List (Span K V)) : Prop :=
  L = A ++ s :: B ∨ s.leaf.isFull = true ∧ ∃ sep left right, s.Split addr sep left right ∧
    L = A ++ ⟨s.lo, left, some sep⟩ :: ⟨some sep, right, s.hi⟩ :: B

theorem Divided.around {addr : ℕ} {A B L : List (Span K V)} {s : Span K V}
    (h : Divided addr A s B L) (X Y : List (Span K V)) :
    Divided addr (X ++ A) s (B ++ Y) (X ++ L ++ Y) := by
  rcases h with rfl | ⟨hfull, sep, left, right, hsplit, rfl⟩
  · exact Or.inl (by simp only [List.append_assoc, List.cons_append])
  · refine Or.inr ⟨hfull, sep, left, right, hsplit, ?_⟩
    simp only [List.append_assoc, List.cons_append]

/-- What a run does below a node with range `lo` to `hi` whose leaves are `A`, the leaf `s` for the
key and `B`. -/
def Ends (k : K) (v : V) (addr : ℕ) (h : ℕ) (lo hi : Option K) (t : Node K V h)
    (A : List (Span K V)) (s : Span K V) (B : List (Span K V)) : Outcome K (Node K V h) → Prop
  | .done ret t' => s.leaf.isFull = false ∧ ret = (s.leaf.insert k v).1 ∧ Shape h lo t' hi ∧
      spans h lo t' hi = A ++ s.insert k v :: B
  | .restart t' => Shape h lo t' hi ∧ potential h t' < potential h t ∧
      Divided addr A s B (spans h lo t' hi)
  | .split sep left right => Inside lo hi sep ∧ Shape h lo left (some sep) ∧
      Shape h (some sep) right hi ∧ potential h left + potential h right + 61 ≤ potential h t ∧
      Divided addr A s B (spans h lo left (some sep) ++ spans h (some sep) right hi)

section run
variable {k : K} {v : V} {addr : ℕ}

variable (k v addr) in
theorem attempt_leaf {lo hi : Option K} {leaf : BTreeLeaf K V} (hok : Span.Ok ⟨lo, leaf, hi⟩) :
    ∃ o, attempt k v addr 0 leaf = some o ∧
      Ends k v addr 0 lo hi leaf [] ⟨lo, leaf, hi⟩ [] o := by
  unfold attempt
  split
  · rename_i hfull
    obtain ⟨sep, left, right, hsplit, hs⟩ := hok.split hfull addr
    refine ⟨.split sep left right, by simp only [hsplit]; rfl, hs.inside, trivial, trivial, ?_,
      Or.inr ⟨hfull, sep, left, right, hs, rfl⟩⟩
    have hlen : leaf.data.length = 31 := by simpa [BTreeLeaf.isFull, leafMax] using hfull
    show left.data.length * left.data.length + right.data.length * right.data.length + 61 ≤
      leaf.data.length * leaf.data.length
    rw [hs.lengths.1, hs.lengths.2, hlen]
    norm_num
  · rename_i hfull
    exact ⟨.done _ _, rfl, by simpa using hfull, rfl, trivial, rfl⟩

/-- A parent takes over what happened below its child. -/
theorem Ends.up {h : ℕ} {lo hi lo' hi' : Option K} {inner : BTreeInner K (Node K V h)}
    {c : Node K V h} {pos : ℕ} {A B : List (Span K V)} {s : Span K V} {o : Outcome K (Node K V h)}
    (hcount : 1 ≤ inner.keys.length ∧ inner.keys.length ≤ innerMax - 1)
    (hfull : inner.isFull = false)
    (hs : inner.keys.Pairwise (· < ·))
    (hr : Route (Shape h) (spans h) lo hi inner.children inner.keys k pos c lo' hi')
    (ho : Ends k v addr h lo' hi' c A s B o) :
    ∃ A' B', listAlong (spans h) lo inner.children inner.keys hi = A' ++ spans h lo' c hi' ++ B' ∧
      Ends k v addr (h + 1) lo hi inner (A' ++ A) s (B ++ B') (o.up inner pos) := by
  obtain ⟨X, Y, hlist, hset, hins⟩ := hr.row
  refine ⟨X, Y, hlist, ?_⟩
  have hcount' : inner.keys.length < 30 := by
    have hne : inner.keys.length ≠ 30 := by simpa [BTreeInner.isFull, innerMax] using hfull
    have : inner.keys.length ≤ 30 := hcount.2
    omega
  have hsum : ∀ c', ((inner.children.set pos c').map (potential h)).sum + potential h c =
      (inner.children.map (potential h)).sum + potential h c' := fun c' => sum_set hr.get c'
  cases o with
  | done ret t' =>
      obtain ⟨hnot, hret, hshape, hspans⟩ := ho
      obtain ⟨h1, h2⟩ := hset t' hshape
      refine ⟨hnot, hret, ⟨hcount, h1⟩, ?_⟩
      show listAlong (spans h) lo (inner.children.set pos t') inner.keys hi = _
      rw [h2, hspans]
      simp only [List.append_assoc, List.cons_append]
  | restart t' =>
      obtain ⟨hshape, hpot, hdiv⟩ := ho
      obtain ⟨h1, h2⟩ := hset t' hshape
      refine ⟨⟨hcount, h1⟩, ?_, ?_⟩
      · show inner.keys.length * inner.keys.length +
            ((inner.children.set pos t').map (potential h)).sum <
          inner.keys.length * inner.keys.length + (inner.children.map (potential h)).sum
        have := hsum t'
        omega
      · show Divided addr _ s _ (listAlong (spans h) lo (inner.children.set pos t') inner.keys hi)
        rw [h2]
        exact hdiv.around X Y
  | split sep left right =>
      obtain ⟨hin, hleft, hright, hpot, hdiv⟩ := ho
      obtain ⟨h1, h2⟩ := hins sep left right hin hleft hright
      have hne : inner.keys ≠ [] := List.length_pos_iff.mp hcount.1
      have hpos : (inner.setChild pos left).lowerBound sep = pos := hr.lowerBound_eq hs hne hin
      have hlt : pos < inner.children.length := (List.getElem?_eq_some_iff.mp hr.get).1
      have hnew : (inner.setChild pos left).insert sep right =
          ⟨inner.keys.insertIdx pos sep, (inner.children.set pos left).insertIdx
            (pos + 1) right⟩ := by
        unfold BTreeInner.insert
        rw [hpos]
        rfl
      have hkeys : (inner.keys.insertIdx pos sep).length = inner.keys.length + 1 :=
        List.length_insertIdx_of_le_length hr.le sep
      have hup : (Outcome.split sep left right).up inner pos = .restart
          ⟨inner.keys.insertIdx pos sep, (inner.children.set pos left).insertIdx (pos + 1) right⟩ :=
        congrArg Outcome.restart hnew
      rw [hup]
      refine ⟨⟨⟨?_, ?_⟩, h1⟩, ?_, ?_⟩
      · show 1 ≤ (inner.keys.insertIdx pos sep).length
        omega
      · show (inner.keys.insertIdx pos sep).length ≤ 30
        omega
      · show (inner.keys.insertIdx pos sep).length * (inner.keys.insertIdx pos sep).length +
            (((inner.children.set pos left).insertIdx (pos + 1) right).map (potential h)).sum <
          inner.keys.length * inner.keys.length + (inner.children.map (potential h)).sum
        rw [hkeys, sum_insertIdx (by rw [List.length_set]; omega)]
        have := hsum left
        nlinarith
      · show Divided addr _ s _ (listAlong (spans h) lo
          ((inner.children.set pos left).insertIdx (pos + 1) right)
            (inner.keys.insertIdx pos sep) hi)
        rw [h2]
        exact hdiv.around X Y

variable (k v addr) in
/-- One run of `insert` from a node. -/
theorem attempt_spec : ∀ {h : ℕ} {lo hi : Option K} {t : Node K V h}, Shape h lo t hi →
    (∀ s ∈ spans h lo t hi, s.Ok) → Above lo k → UpTo hi k →
    ∃ o A s B, attempt k v addr h t = some o ∧ spans h lo t hi = A ++ s :: B ∧ s.Has k ∧
      Ends k v addr h lo hi t A s B o
  | 0, lo, hi, t, _, hok, hlo, hhi => by
      obtain ⟨o, ho, hends⟩ := attempt_leaf k v addr
        (hok ⟨lo, t, hi⟩ (List.mem_cons_self ..))
      exact ⟨o, [], ⟨lo, t, hi⟩, [], ho, rfl, ⟨hlo, hhi⟩, hends⟩
  | h + 1, lo, hi, (inner : BTreeInner K (Node K V h)), ⟨hcount, halong⟩, hok, hlo, hhi => by
      cases hfull : inner.isFull with
      | true =>
          obtain ⟨A, s, B, hspans, hhas, _⟩ := findLeaf_eq (k := k) (h := h + 1) (t := inner)
            ⟨hcount, halong⟩ hlo hhi
          obtain ⟨KA, sep, KB, hkeys, hKA, hKB, hsplit, h1, h2, h3, h4⟩ :=
            BTreeInner.split_eq (f := spans h) hfull halong
          have hl : spans (h + 1) lo inner hi =
              listAlong (spans h) lo (inner.children.take 15) KA (some sep) ++
                listAlong (spans h) (some sep) (inner.children.drop 15) KB hi := h4
          refine ⟨.split sep (⟨KA, inner.children.take 15⟩ : BTreeInner K (Node K V h))
            (⟨KB, inner.children.drop 15⟩ : BTreeInner K (Node K V h)), A, s, B, ?_,
              hspans, hhas, h2,
            ⟨⟨?_, ?_⟩, h1⟩, ⟨⟨?_, ?_⟩, h3⟩, ?_, Or.inl ?_⟩
          · unfold attempt
            simp only [hfull, if_true, hsplit]
            rfl
          · show 1 ≤ KA.length
            omega
          · show KA.length ≤ 30
            omega
          · show 1 ≤ KB.length
            omega
          · show KB.length ≤ 30
            omega
          · show KA.length * KA.length + ((inner.children.take 15).map (potential h)).sum +
                (KB.length * KB.length + ((inner.children.drop 15).map (potential h)).sum) + 61 ≤
              inner.keys.length * inner.keys.length + (inner.children.map (potential h)).sum
            have hlen : inner.keys.length = 30 := by rw [hkeys]; simp [hKA, hKB]
            have hsum : (inner.children.map (potential h)).sum =
                ((inner.children.take 15).map (potential h)).sum +
                  ((inner.children.drop 15).map (potential h)).sum := by
              rw [← List.sum_append, ← List.map_append, List.take_append_drop]
            rw [hKA, hKB, hlen, hsum]
            omega
          · rw [← hspans, hl]
            rfl
      | false =>
          obtain ⟨c, lo', hi', hr⟩ := along_route_lowerBound (f := spans h) halong
            (List.length_pos_iff.mp hcount.1) hlo hhi
          obtain ⟨X, Y, hlist, _⟩ := hr.row
          have hokc : ∀ s ∈ spans h lo' c hi', s.Ok := by
            intro s hs
            refine hok s ?_
            show s ∈ listAlong (spans h) lo inner.children inner.keys hi
            rw [hlist]
            exact List.mem_append_left _ (List.mem_append_right _ hs)
          obtain ⟨o, A, s, B, ho, hspans, hhas, hends⟩ :=
            attempt_spec hr.child hokc hr.above hr.upTo
          obtain ⟨A', B', hlist', hends'⟩ := hends.up hcount hfull halong.sorted hr
          refine ⟨o.up inner (inner.lowerBound k), A' ++ A, s, B ++ B', ?_, ?_, hhas, hends'⟩
          · have hget : inner.children[inner.lowerBound k]? = some c := hr.get
            unfold attempt
            simp only [hfull, Bool.false_eq_true, if_false, hget, Option.bind_eq_bind,
              Option.bind_some, ho]
          · show listAlong (spans h) lo inner.children inner.keys hi = _
            rw [hlist', hspans]
            simp only [List.append_assoc, List.cons_append]

end run

end LearnedIndex.Btreeolc
