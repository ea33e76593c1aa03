import LearnedIndex.Btreeolc.Model

/-! # Ranges of the nodes and the descent

Every node stands for a range of keys: above `lo` and up to `hi`, where `none` is an open end.  The
separators of an inner node cut its range into those of its children (`Along`), and `lowerBound`
finds the child whose range holds a key (`along_route`).  Replacing that child by one or two nodes
that cut its range again leaves the rest as it is.

`spans` lists the leaves from left to right with their ranges, which is all that the operations
depend on: `findLeaf_eq` says that the descent ends in the one leaf whose range holds the key. -/

namespace LearnedIndex.Btreeolc

variable {K V : Type} [LinearOrder K]

/-! ### `lowerBound` -/

/-- The loop of `lowerBound` finds the point where the keys stop being smaller than `k`. -/
theorem lowerBoundFrom_eq {ks : List K} {k junk : K} {c : ℕ} (hs : ks.Pairwise (· < ·))
    (hlt : ∀ i (h : i < ks.length), i < c → ks[i] < k)
    (hge : ∀ i (h : i < ks.length), c ≤ i → k ≤ ks[i]) :
    ∀ fuel lower upper, lower < upper → lower ≤ c → c ≤ upper → upper ≤ ks.length →
      upper - lower < fuel → lowerBoundFrom (fun i => ks.getD i junk) k fuel lower upper = c
  | 0, _, _, _, _, _, _, hf => absurd hf (by omega)
  | fuel + 1, lower, upper, hlu, hl, hu, hlen, hf => by
      obtain ⟨mid, hmid⟩ : ∃ mid, mid = (upper - lower) / 2 + lower := ⟨_, rfl⟩
      have hml : lower ≤ mid := by omega
      have hmu : mid < upper := by omega
      have hmlen : mid < ks.length := by omega
      have hget : ks.getD mid junk = ks[mid] := by
        rw [List.getD_eq_getElem?_getD, List.getElem?_eq_getElem hmlen]
        rfl
      simp only [lowerBoundFrom, ← hmid, hget]
      split
      · rename_i hk
        have hcm : c ≤ mid := by
          by_contra hlt'
          exact absurd (hlt mid hmlen (by omega)) (not_lt.mpr hk.le)
        split
        · rename_i hlm
          exact lowerBoundFrom_eq hs hlt hge fuel lower mid hlm hl hcm (by omega) (by omega)
        · omega
      · rename_i hk
        split
        · rename_i hk'
          have hcm : mid + 1 ≤ c := by
            by_contra hlt'
            exact absurd (hge mid hmlen (by omega)) (not_le.mpr hk')
          split
          · rename_i hlm
            exact lowerBoundFrom_eq hs hlt hge fuel (mid + 1) upper hlm hcm hu hlen (by omega)
          · omega
        · rename_i hk'
          -- the key is found, and no earlier key can be as large
          have hcm : c ≤ mid := by
            by_contra hlt'
            exact hk' (hlt mid hmlen (by omega))
          by_contra hne
          have hcl : c < ks.length := by omega
          have h1 := hge c hcl le_rfl
          have h2 := List.pairwise_iff_getElem.mp hs c mid hcl hmlen (by omega)
          exact hk (h1.trans_lt h2)

theorem lowerBound_append {A B : List K} {k junk : K} (hs : (A ++ B).Pairwise (· < ·))
    (hA : ∀ a ∈ A, a < k) (hB : ∀ b ∈ B, k ≤ b) (hne : A ++ B ≠ []) :
    lowerBound junk (A ++ B) k = A.length := by
  have hpos : 0 < (A ++ B).length := List.length_pos_iff.mpr hne
  have hlen : (A ++ B).length = A.length + B.length := List.length_append
  refine lowerBoundFrom_eq hs (fun i h hi => ?_) (fun i h hi => ?_) _ _ _ hpos (Nat.zero_le _)
    (by omega) le_rfl (by omega)
  · rw [List.getElem_append_left hi]
    exact hA _ (List.getElem_mem _)
  · rw [List.getElem_append_right hi]
    exact hB _ (List.getElem_mem _)

/-- Increasing keys are cut by `k` into smaller ones and the others. -/
theorem exists_cut (k : K) : ∀ {ks : List K}, ks.Pairwise (· < ·) →
    ∃ A B, ks = A ++ B ∧ (∀ a ∈ A, a < k) ∧ ∀ b ∈ B, k ≤ b
  | [], _ => ⟨[], [], rfl, by simp, by simp⟩
  | a :: ks, hs => by
      obtain ⟨ha, hs'⟩ := List.pairwise_cons.mp hs
      rcases lt_or_ge a k with hlt | hge
      · obtain ⟨A, B, rfl, hA, hB⟩ := exists_cut k hs'
        refine ⟨a :: A, B, rfl, fun x hx => ?_, hB⟩
        rcases List.mem_cons.mp hx with rfl | hx
        · exact hlt
        · exact hA x hx
      · refine ⟨[], a :: ks, rfl, by simp, fun x hx => ?_⟩
        rcases List.mem_cons.mp hx with rfl | hx
        · exact hge
        · exact hge.trans (ha x hx).le

/-! ### Ranges -/

/-- The key lies above the lower end. -/
def Above (lo : Option K) (k : K) : Prop := ∀ l, lo = some l → l < k

/-- The key lies below the upper end or at it. -/
def UpTo (hi : Option K) (k : K) : Prop := ∀ u, hi = some u → k ≤ u

/-- The separator lies inside the range. -/
def Inside (lo hi : Option K) (s : K) : Prop := Above lo s ∧ ∀ u, hi = some u → s < u

/-- The separators cut the range from `lo` to `hi` into ranges for the children, and each child fits
its range. -/
def Along {α : Type} (P : Option K → α → Option K → Prop) :
    Option K → List α → List K → Option K → Prop
  | lo, [c], [], hi => P lo c hi
  | lo, c :: cs, s :: ks, hi => P lo c (some s) ∧ Inside lo hi s ∧ Along P (some s) cs ks hi
  | _, _, _, _ => False

/-- What `f` lists for the children with their ranges. -/
def listAlong {α β : Type} (f : Option K → α → Option K → List β) :
    Option K → List α → List K → Option K → List β
  | lo, [c], [], hi => f lo c hi
  | lo, c :: cs, s :: ks, hi => f lo c (some s) ++ listAlong f (some s) cs ks hi
  | _, _, _, _ => []

section along
variable {α β : Type} {P : Option K → α → Option K → Prop} {f : Option K → α → Option K → List β}

theorem along_cons {lo hi : Option K} {c : α} {cs : List α} {s : K} {ks : List K} :
    Along P lo (c :: cs) (s :: ks) hi ↔
      P lo c (some s) ∧ Inside lo hi s ∧ Along P (some s) cs ks hi := by
  cases cs <;> rfl

omit [LinearOrder K] in
theorem listAlong_cons {lo hi : Option K} {c : α} {cs : List α} {s : K} {ks : List K} :
    listAlong f lo (c :: cs) (s :: ks) hi = f lo c (some s) ++ listAlong f (some s) cs ks hi := by
  cases cs <;> rfl

theorem Along.length : ∀ {lo hi : Option K} {cs : List α} {ks : List K},
    Along P lo cs ks hi → cs.length = ks.length + 1
  | _, _, [], _, h => h.elim
  | _, _, [_], [], _ => rfl
  | _, _, _ :: _ :: _, [], h => h.elim
  | _, _, c :: cs, s :: ks, h => by
      have := Along.length (along_cons.mp h).2.2
      simp only [List.length_cons]
      omega

/-- A larger lower end is still below what follows. -/
theorem Inside.above {lo hi : Option K} {s k : K} (h : Inside lo hi s) (hk : s ≤ k) : Above lo k :=
  fun l hl => (h.1 l hl).trans_le hk

theorem Along.inside : ∀ {lo hi : Option K} {cs : List α} {ks : List K},
    Along P lo cs ks hi → ∀ s ∈ ks, Inside lo hi s
  | _, _, [], _, h, _, _ => h.elim
  | _, _, [_], [], _, _, hs => absurd hs (by simp)
  | _, _, _ :: _ :: _, [], h, _, _ => h.elim
  | lo, hi, c :: cs, s :: ks, h, x, hx => by
      obtain ⟨_, hin, hrest⟩ := along_cons.mp h
      rcases List.mem_cons.mp hx with rfl | hx
      · exact hin
      · have hx' := Along.inside hrest x hx
        exact ⟨hin.above (hx'.1 s rfl).le, hx'.2⟩

theorem Along.sorted : ∀ {lo hi : Option K} {cs : List α} {ks : List K},
    Along P lo cs ks hi → ks.Pairwise (· < ·)
  | _, _, [], _, h => h.elim
  | _, _, [_], [], _ => List.Pairwise.nil
  | _, _, _ :: _ :: _, [], h => h.elim
  | lo, hi, c :: cs, s :: ks, h => by
      obtain ⟨_, _, hrest⟩ := along_cons.mp h
      exact List.pairwise_cons.mpr ⟨fun x hx => (hrest.inside x hx).1 s rfl, hrest.sorted⟩

omit [LinearOrder K] in
theorem listAlong_append : ∀ {lo hi : Option K} {cs : List α} {ks : List K} {s : K} {cs' : List α}
    {ks' : List K}, cs.length = ks.length + 1 →
    listAlong f lo (cs ++ cs') (ks ++ s :: ks') hi =
      listAlong f lo cs ks (some s) ++ listAlong f (some s) cs' ks' hi
  | _, _, [], _, _, _, _, h => absurd h (by simp)
  | _, _, [c], [], s, cs', ks', _ => listAlong_cons
  | _, _, _ :: _ :: _, [], _, _, _, h => absurd h (by simp)
  | lo, hi, c :: cs, r :: ks, s, cs', ks', h => by
      have hlen : cs.length = ks.length + 1 := by simpa using h
      simp only [List.cons_append]
      rw [listAlong_cons, listAlong_cons, listAlong_append hlen, List.append_assoc]

/-- A row is cut at any of its separators. -/
theorem along_split : ∀ {lo hi : Option K} {cs : List α} {ks : List K} {s : K} {ks' : List K},
    Along P lo cs (ks ++ s :: ks') hi →
    Along P lo (cs.take (ks.length + 1)) ks (some s) ∧ Inside lo hi s ∧
      Along P (some s) (cs.drop (ks.length + 1)) ks' hi
  | _, _, [], _, _, _, h => h.elim
  | lo, hi, c :: cs, [], s, ks', h => along_cons.mp h
  | lo, hi, c :: cs, r :: ks, s, ks', h => by
      obtain ⟨hc, hin, hrest⟩ := along_cons.mp h
      obtain ⟨h1, h2, h3⟩ := along_split hrest
      have hrs : r < s := h2.1 r rfl
      refine ⟨along_cons.mpr ⟨hc, ⟨hin.1, fun u hu => Option.some.inj hu ▸ hrs⟩, h1⟩,
        ⟨hin.above hrs.le, h2.2⟩, h3⟩

/-- The child for a key, with its range and the rest of the row around it. -/
structure Route (P : Option K → α → Option K → Prop) (f : Option K → α → Option K → List β)
    (lo hi : Option K) (cs : List α) (ks : List K) (k : K) (pos : ℕ) (c : α) (lo' hi' : Option K) :
    Prop where
  get : cs[pos]? = some c
  le : pos ≤ ks.length
  child : P lo' c hi'
  above : Above lo' k
  upTo : UpTo hi' k
  cut : ∀ s, Inside lo' hi' s → (∀ a ∈ ks.take pos, a < s) ∧ ∀ b ∈ ks.drop pos, s < b
  inside : ∀ s, Inside lo' hi' s → Inside lo hi s
  row : ∃ X Y, listAlong f lo cs ks hi = X ++ f lo' c hi' ++ Y ∧
    (∀ c', P lo' c' hi' → Along P lo (cs.set pos c') ks hi ∧
      listAlong f lo (cs.set pos c') ks hi = X ++ f lo' c' hi' ++ Y) ∧
    ∀ s c₁ c₂, Inside lo' hi' s → P lo' c₁ (some s) → P (some s) c₂ hi' →
      Along P lo ((cs.set pos c₁).insertIdx (pos + 1) c₂) (ks.insertIdx pos s) hi ∧
      listAlong f lo ((cs.set pos c₁).insertIdx (pos + 1) c₂) (ks.insertIdx pos s) hi =
        X ++ (f lo' c₁ (some s) ++ f (some s) c₂ hi') ++ Y

/-- The child behind the keys that are smaller than `k` has `k` in its range. -/
theorem along_route : ∀ {lo hi : Option K} {cs : List α} {A B : List K} {k : K},
    Along P lo cs (A ++ B) hi → Above lo k → UpTo hi k → (∀ a ∈ A, a < k) → (∀ b ∈ B, k ≤ b) →
    ∃ c lo' hi', Route P f lo hi cs (A ++ B) k A.length c lo' hi'
  | _, _, [], _, _, _, h, _, _, _, _ => h.elim
  | lo, hi, [c], [], [], k, h, hlo, hhi, _, _ => by
      refine ⟨c, lo, hi, rfl, le_rfl, h, hlo, hhi, fun s _ => ⟨by simp, by simp⟩, fun s hs => hs,
        [], [], by simp [listAlong], fun c' hc' => ⟨hc', by simp [listAlong]⟩,
        fun s c₁ c₂ hs h1 h2 => ⟨along_cons.mpr ⟨h1, hs, h2⟩, by simp [listAlong]⟩⟩
  | _, _, _ :: _ :: _, [], [], _, h, _, _, _, _ => h.elim
  | lo, hi, c :: cs, [], b :: B, k, h, hlo, _, _, hB => by
      obtain ⟨hc, hin, hrest⟩ := along_cons.mp h
      refine ⟨c, lo, some b, rfl, Nat.zero_le _, hc, hlo,
        fun u hu => Option.some.inj hu ▸ hB b (List.mem_cons_self ..), fun s hs => ?_,
        fun s hs => ?_, [], listAlong f (some b) cs B hi, ?_, fun c' hc' => ?_,
        fun s c₁ c₂ hs h1 h2 => ?_⟩
      · refine ⟨by simp, fun x hx => ?_⟩
        rcases List.mem_cons.mp hx with rfl | hx
        · exact hs.2 x rfl
        · exact (hs.2 b rfl).trans ((hrest.inside x hx).1 b rfl)
      · exact ⟨hs.1, fun u hu => (hs.2 b rfl).trans (hin.2 u hu)⟩
      · exact listAlong_cons
      · exact ⟨along_cons.mpr ⟨hc', hin, hrest⟩, listAlong_cons⟩
      · have hsb : s < b := hs.2 b rfl
        refine ⟨along_cons.mpr ⟨h1, ⟨hs.1, fun u hu => hsb.trans (hin.2 u hu)⟩,
          along_cons.mpr ⟨h2, ⟨fun l hl => Option.some.inj hl ▸ hsb, hin.2⟩, hrest⟩⟩, ?_⟩
        show listAlong f lo (c₁ :: c₂ :: cs) (s :: b :: B) hi = _
        rw [listAlong_cons, listAlong_cons, List.nil_append, List.append_assoc]
  | lo, hi, c :: cs, a :: A, B, k, h, hlo, hhi, hA, hB => by
      obtain ⟨hc, hin, hrest⟩ := along_cons.mp h
      have hak : Above (some a) k := fun l hl => Option.some.inj hl ▸ hA a (List.mem_cons_self ..)
      obtain ⟨c', lo', hi', hr⟩ := along_route hrest hak hhi
        (fun x hx => hA x (List.mem_cons_of_mem a hx)) hB
      obtain ⟨X, Y, hlist, hset, hins⟩ := hr.row
      refine ⟨c', lo', hi', hr.get, Nat.succ_le_succ hr.le, hr.child, hr.above, hr.upTo,
        fun s hs => ?_, fun s hs => ?_, f lo c (some a) ++ X, Y, ?_, fun d hd => ?_,
        fun s c₁ c₂ hs h1 h2 => ?_⟩
      · refine ⟨fun x hx => ?_, (hr.cut s hs).2⟩
        rcases List.mem_cons.mp hx with rfl | hx
        · exact (hr.inside s hs).1 x rfl
        · exact (hr.cut s hs).1 x hx
      · have := hr.inside s hs
        exact ⟨hin.above (this.1 a rfl).le, this.2⟩
      · show listAlong f lo (c :: cs) (a :: (A ++ B)) hi = _
        rw [listAlong_cons, hlist]
        simp only [List.append_assoc]
      · obtain ⟨h1, h2⟩ := hset d hd
        refine ⟨along_cons.mpr ⟨hc, hin, h1⟩, ?_⟩
        show listAlong f lo (c :: cs.set A.length d) (a :: (A ++ B)) hi = _
        rw [listAlong_cons, h2]
        simp only [List.append_assoc]
      · obtain ⟨h3, h4⟩ := hins s c₁ c₂ hs h1 h2
        refine ⟨along_cons.mpr ⟨hc, hin, h3⟩, ?_⟩
        show listAlong f lo (c :: (cs.set A.length c₁).insertIdx (A.length + 1) c₂)
          (a :: (A ++ B).insertIdx A.length s) hi = _
        rw [listAlong_cons, h4]
        simp only [List.append_assoc]

/-- A list over the children is a list over the children with their ranges. -/
theorem Along.flatMap_eq {γ : Type} {g : α → List γ} {e : β → γ}
    (hg : ∀ lo c hi, P lo c hi → g c = (f lo c hi).map e) :
    ∀ {lo hi : Option K} {cs : List α} {ks : List K}, Along P lo cs ks hi →
      cs.flatMap g = (listAlong f lo cs ks hi).map e
  | _, _, [], _, h => h.elim
  | lo, hi, [c], [], h => by
      rw [List.flatMap_cons, List.flatMap_nil, List.append_nil]
      exact hg _ _ _ h
  | _, _, _ :: _ :: _, [], h => h.elim
  | lo, hi, c :: cs, s :: ks, h => by
      obtain ⟨hc, _, hrest⟩ := along_cons.mp h
      rw [List.flatMap_cons, listAlong_cons, List.map_append, hg _ _ _ hc, hrest.flatMap_eq hg]

/-- A property of lists that goes from the children to their concatenation. -/
theorem Along.listAlong_induct {Q : Option K → List β → Option K → Prop}
    (hbase : ∀ lo c hi, P lo c hi → Q lo (f lo c hi) hi)
    (happend : ∀ lo s hi L L', Inside lo hi s → Q lo L (some s) → Q (some s) L' hi →
      Q lo (L ++ L') hi) :
    ∀ {lo hi : Option K} {cs : List α} {ks : List K}, Along P lo cs ks hi →
      Q lo (listAlong f lo cs ks hi) hi
  | _, _, [], _, h => h.elim
  | _, _, [_], [], h => hbase _ _ _ h
  | _, _, _ :: _ :: _, [], h => h.elim
  | lo, hi, c :: cs, s :: ks, h => by
      obtain ⟨hc, hin, hrest⟩ := along_cons.mp h
      rw [listAlong_cons]
      exact happend _ _ _ _ _ hin (hbase _ _ _ hc) (hrest.listAlong_induct hbase happend)

theorem along_route_lowerBound {lo hi : Option K} {cs : List α} {ks : List K} {k : K}
    (h : Along P lo cs ks hi) (hne : ks ≠ []) (hlo : Above lo k) (hhi : UpTo hi k) :
    ∃ c lo' hi', Route P f lo hi cs ks k (lowerBound k ks k) c lo' hi' := by
  obtain ⟨A, B, rfl, hA, hB⟩ := exists_cut k h.sorted
  rw [lowerBound_append h.sorted hA hB hne]
  exact along_route h hlo hhi hA hB

/-- The separator of a split child belongs right behind the separators before that child. -/
theorem Route.lowerBound_eq {lo hi lo' hi' : Option K} {cs : List α} {ks : List K}
    {k s : K} {pos : ℕ}
    {c : α} (h : Route P f lo hi cs ks k pos c lo' hi') (hs : ks.Pairwise (· < ·)) (hne : ks ≠ [])
    (hin : Inside lo' hi' s) : lowerBound s ks s = pos := by
  obtain ⟨hA, hB⟩ := h.cut s hin
  have hcut := List.take_append_drop pos ks
  have := @lowerBound_append _ _ (ks.take pos) (ks.drop pos) s s
    (by rw [hcut]; exact hs) hA (fun b hb => (hB b hb).le) (by rw [hcut]; exact hne)
  rwa [hcut, List.length_take_of_le h.le] at this

end along

/-! ### The leaves with their ranges -/

/-- A leaf with its range. -/
structure Span (K V : Type) where
  lo : Option K
  leaf : BTreeLeaf K V
  hi : Option K

/-- The leaves from left to right. -/
def spans : (h : ℕ) → Option K → Node K V h → Option K → List (Span K V)
  | 0, lo, (leaf : BTreeLeaf K V), hi => [⟨lo, leaf, hi⟩]
  | h + 1, lo, (inner : BTreeInner K (Node K V h)), hi =>
      listAlong (spans h) lo inner.children inner.keys hi

/-- Every inner node has between one and `innerMax - 1` separators, which cut its range into those
of its children. -/
def Shape : (h : ℕ) → Option K → Node K V h → Option K → Prop
  | 0, _, _, _ => True
  | h + 1, lo, (inner : BTreeInner K (Node K V h)), hi =>
      (1 ≤ inner.keys.length ∧ inner.keys.length ≤ innerMax - 1) ∧
        Along (Shape h) lo inner.children inner.keys hi

/-- The leaf holds increasing keys of its range, and not too many. -/
structure Span.Ok (s : Span K V) : Prop where
  sorted : (s.leaf.data.map Prod.fst).Pairwise (· < ·)
  above : ∀ e ∈ s.leaf.data, Above s.lo e.1
  upTo : ∀ e ∈ s.leaf.data, UpTo s.hi e.1
  count : s.leaf.data.length ≤ leafMax

/-- The span whose range holds the key. -/
def Span.Has (s : Span K V) (k : K) : Prop := Above s.lo k ∧ UpTo s.hi k

theorem leaves_eq : ∀ {h : ℕ} {lo hi : Option K} {t : Node K V h}, Shape h lo t hi →
    leaves h t = (spans h lo t hi).map Span.leaf
  | 0, _, _, _, _ => rfl
  | _ + 1, _, _, _, ⟨_, halong⟩ => halong.flatMap_eq (fun _ _ _ hc => leaves_eq hc)

/-- The descent ends in the leaf whose range holds the key. -/
theorem findLeaf_eq {k : K} : ∀ {h : ℕ} {lo hi : Option K} {t : Node K V h}, Shape h lo t hi →
    Above lo k → UpTo hi k →
    ∃ A s B, spans h lo t hi = A ++ s :: B ∧ s.Has k ∧ findLeaf k h t = some s.leaf
  | 0, lo, hi, t, _, hlo, hhi => ⟨[], ⟨lo, t, hi⟩, [], rfl, ⟨hlo, hhi⟩, rfl⟩
  | h + 1, lo, hi, t, ⟨⟨hone, _⟩, halong⟩, hlo, hhi => by
      obtain ⟨c, lo', hi', hr⟩ := along_route_lowerBound (f := spans h) halong
        (List.length_pos_iff.mp hone) hlo hhi
      obtain ⟨X, Y, hlist, _⟩ := hr.row
      obtain ⟨A, s, B, hspans, hhas, hfind⟩ := findLeaf_eq hr.child hr.above hr.upTo
      refine ⟨X ++ A, s, B ++ Y, ?_, hhas, ?_⟩
      · show listAlong (spans h) lo _ _ hi = _
        rw [hlist, hspans]
        simp only [List.append_assoc, List.cons_append]
      · show (_)[BTreeInner.lowerBound _ k]?.bind (findLeaf k h) = _
        unfold BTreeInner.lowerBound
        rw [hr.get]
        exact hfind

/-- The range of the first leaf ends where that of the second starts, or earlier. -/
def Span.Before (s s' : Span K V) : Prop := ∃ m l, s.hi = some m ∧ s'.lo = some l ∧ m ≤ l

/-- The leaves lie in the range one after the other. -/
structure Tiled (lo : Option K) (L : List (Span K V)) (hi : Option K) : Prop where
  before : L.Pairwise Span.Before
  above : ∀ s ∈ L, ∀ l, lo = some l → ∃ l', s.lo = some l' ∧ l ≤ l'
  upTo : ∀ s ∈ L, ∀ u, hi = some u → ∃ u', s.hi = some u' ∧ u' ≤ u

theorem Tiled.append {lo hi : Option K} {m : K} {L L' : List (Span K V)} (hin : Inside lo hi m)
    (h : Tiled lo L (some m)) (h' : Tiled (some m) L' hi) : Tiled lo (L ++ L') hi where
  before := by
    refine List.pairwise_append.mpr ⟨h.before, h'.before, fun s hs s' hs' => ?_⟩
    obtain ⟨u, hu, hum⟩ := h.upTo s hs m rfl
    obtain ⟨l, hl, hml⟩ := h'.above s' hs' m rfl
    exact ⟨u, l, hu, hl, hum.trans hml⟩
  above := fun s hs l hl => by
    rcases List.mem_append.mp hs with hs | hs
    · exact h.above s hs l hl
    · obtain ⟨l', hl', hml⟩ := h'.above s hs m rfl
      exact ⟨l', hl', (hin.1 l hl).le.trans hml⟩
  upTo := fun s hs u hu => by
    rcases List.mem_append.mp hs with hs | hs
    · obtain ⟨u', hu', hum⟩ := h.upTo s hs m rfl
      exact ⟨u', hu', hum.trans (hin.2 u hu).le⟩
    · exact h'.upTo s hs u hu

theorem Shape.tiled : ∀ {h : ℕ} {lo hi : Option K} {t : Node K V h}, Shape h lo t hi →
    Tiled lo (spans h lo t hi) hi
  | 0, lo, hi, t, _ => by
      refine ⟨List.pairwise_singleton _ _, fun s hs l hl => ?_, fun s hs u hu => ?_⟩
      · obtain rfl := List.mem_singleton.mp hs
        exact ⟨l, hl, le_rfl⟩
      · obtain rfl := List.mem_singleton.mp hs
        exact ⟨u, hu, le_rfl⟩
  | _ + 1, _, _, _, ⟨_, halong⟩ =>
      halong.listAlong_induct (fun _ _ _ hc => hc.tiled) (fun _ _ _ _ _ hin h h' => h.append hin h')

/-- The leaves before the one for a key have smaller keys in their ranges, those after it larger
ones. -/
theorem Tiled.around {lo hi : Option K} {A B : List (Span K V)} {s : Span K V} {k : K}
    (h : Tiled lo (A ++ s :: B) hi) (hk : s.Has k) :
    (∀ a ∈ A, ∀ k', UpTo a.hi k' → k' < k) ∧ ∀ b ∈ B, ∀ k', Above b.lo k' → k < k' := by
  obtain ⟨_, hB, hA⟩ := List.pairwise_append.mp h.before
  constructor
  · intro a ha k' hk'
    obtain ⟨m, l, hm, hl, hml⟩ := hA a ha s (List.mem_cons_self ..)
    exact ((hk' m hm).trans hml).trans_lt (hk.1 l hl)
  · intro b hb k' hk'
    obtain ⟨m, l, hm, hl, hml⟩ := (List.pairwise_cons.mp hB).1 b hb
    exact ((hk.2 m hm).trans hml).trans_lt (hk' l hl)

end LearnedIndex.Btreeolc
