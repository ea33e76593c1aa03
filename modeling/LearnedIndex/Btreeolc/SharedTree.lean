import LearnedIndex.Btreeolc.Concurrent
import LearnedIndex.Btreeolc.Contents

/-! # The tree in the shared heap

Every node of the heap stands for a range of keys, which the heap does not store: `range` gives it,
and `par` the one inner node that points to a node.  `Heap.Tree` says that the leaves hold keys of
their ranges, that no two leaves stand for the same key and that the separators of an inner node cut
its range into those of its children.  It does not matter whether a node can be reached from the
root.

An insertion into a leaf keeps the tree if the key lies in the range of the leaf
(`Tree.insertLeaf`), and a split keeps it if the parent sends some key to the node that is split
(`Tree.split`); neither needs to know how the node was found.  `Heap.Represents` is the map that
the leaves store. -/

namespace LearnedIndex.Btreeolc

variable {K V : Type} [LinearOrder K]

/-! ### Children and their ranges -/

/-- The range of keys above the first end and up to the second. -/
abbrev Range (K : Type) := Option K × Option K

def InRange (r : Range K) (k : K) : Prop := Above r.1 k ∧ UpTo r.2 k

section along
variable {α : Type} {P P' : Option K → α → Option K → Prop}

/-- The children with their ranges. -/
def childRanges : Option K → List α → List K → Option K → List (α × Range K) :=
  listAlong (fun lo c hi => [(c, lo, hi)])

/-- A row of children is a row of ranges, and each child fits the range at its place. -/
theorem along_iff_forall : ∀ {lo hi : Option K} {cs : List α} {ks : List K},
    Along P lo cs ks hi ↔ Along (fun _ _ _ => True) lo cs ks hi ∧
      ∀ x ∈ childRanges lo cs ks hi, P x.2.1 x.1 x.2.2
  | _, _, [], _ => ⟨fun h => h.elim, fun h => h.1.elim⟩
  | lo, hi, [c], [] => by
      refine ⟨fun h => ⟨trivial, fun x hx => ?_⟩, fun h => h.2 (c, lo, hi)
        (List.mem_singleton.mpr rfl)⟩
      obtain rfl := List.mem_singleton.mp hx
      exact h
  | _, _, _ :: _ :: _, [] => ⟨fun h => h.elim, fun h => h.1.elim⟩
  | lo, hi, c :: cs, s :: ks => by
      have hrest : Along P (some s) cs ks hi ↔ Along (fun _ _ _ => True) (some s) cs ks hi ∧
        ∀ x ∈ childRanges (some s) cs ks hi, P x.2.1 x.1 x.2.2 := along_iff_forall
      rw [along_cons, along_cons, hrest, childRanges, listAlong_cons]
      constructor
      · rintro ⟨hc, hin, hrow, hall⟩
        refine ⟨⟨trivial, hin, hrow⟩, fun x hx => ?_⟩
        rcases List.mem_append.mp hx with hx | hx
        · obtain rfl := List.mem_singleton.mp hx
          exact hc
        · exact hall x hx
      · rintro ⟨⟨-, hin, hrow⟩, hall⟩
        exact ⟨hall (c, lo, some s) (List.mem_append_left _ (List.mem_singleton.mpr rfl)), hin,
          hrow,
          fun x hx => hall x (List.mem_append_right _ hx)⟩

theorem Along.childRanges_fst : ∀ {lo hi : Option K} {cs : List α} {ks : List K},
    Along P lo cs ks hi → (childRanges lo cs ks hi).map Prod.fst = cs
  | _, _, [], _, h => h.elim
  | _, _, [_], [], _ => rfl
  | _, _, _ :: _ :: _, [], h => h.elim
  | lo, hi, c :: cs, s :: ks, h => by
      rw [childRanges, listAlong_cons, List.map_append, ← childRanges,
        (along_cons.mp h).2.2.childRanges_fst]
      rfl

theorem Along.mono_mem {lo hi : Option K} {cs : List α} {ks : List K} (h : Along P lo cs ks hi)
    (himp : ∀ lo c hi, c ∈ cs → P lo c hi → P' lo c hi) : Along P' lo cs ks hi := by
  have hfst := h.childRanges_fst
  obtain ⟨hrow, hall⟩ := along_iff_forall.mp h
  refine along_iff_forall.mpr ⟨hrow, fun x hx => himp _ _ _ ?_ (hall x hx)⟩
  rw [← hfst]
  exact List.mem_map_of_mem hx

theorem Along.mem_children {lo hi : Option K} {cs : List α} {ks : List K} (h : Along P lo cs ks hi)
    {c : α} (hc : c ∈ cs) : ∃ lo' hi', P lo' c hi' := by
  rw [← h.childRanges_fst] at hc
  obtain ⟨x, hx, rfl⟩ := List.mem_map.mp hc
  exact ⟨_, _, (along_iff_forall.mp h).2 x hx⟩

variable (P') in
/-- A child `n` whose range is cut at `s` gets a neighbour `a`.  The other children only have to fit
`P'` if they fit `P`. -/
theorem Along.insertChild {lo hi : Option K} {cs : List α} {ks : List K} {k : K} {n : α}
    (h : Along P lo cs ks hi) (hnd : cs.Nodup) (hne : ks ≠ []) (hlo : Above lo k) (hhi : UpTo hi k)
    (hget : cs[lowerBound k ks k]? = some n) :
    ∃ lo' hi', P lo' n hi' ∧ Above lo' k ∧ UpTo hi' k ∧
      ∀ s a, Inside lo' hi' s → (∀ lo c hi, c ∈ cs → c ≠ n → P lo c hi → P' lo c hi) →
        P' lo' n (some s) → P' (some s) a hi' →
        Along P' lo (cs.insertIdx (lowerBound s ks s + 1) a)
        (ks.insertIdx (lowerBound s ks s) s) hi ∧
        (cs.insertIdx (lowerBound s ks s + 1) a).Perm (a :: cs) := by
  obtain ⟨hrow, hall⟩ := along_iff_forall.mp h
  have hfst := h.childRanges_fst
  obtain ⟨c, lo', hi', hr⟩ := along_route_lowerBound (f := fun lo c hi => [(c, lo, hi)]) hrow hne
    hlo hhi
  obtain rfl : c = n := Option.some.inj (hr.get.symm.trans hget)
  obtain ⟨X, Y, hlist, -, hins⟩ := hr.row
  have hlist : childRanges lo cs ks hi = X ++ [(c, lo', hi')] ++ Y := hlist
  refine ⟨lo', hi', hall (c, lo', hi') (by rw [hlist]; simp), hr.above, hr.upTo,
    fun s a hs hother hn ha => ?_⟩
  have hpos : lowerBound s ks s = lowerBound k ks k := hr.lowerBound_eq h.sorted hne hs
  have hset : cs.set (lowerBound k ks k) c = cs := by
    obtain ⟨hlt, hc⟩ := List.getElem?_eq_some_iff.mp hr.get
    rw [← hc, List.set_getElem_self]
  obtain ⟨hrow', hlist'⟩ := hins s c a hs trivial trivial
  rw [hset] at hrow' hlist'
  have hlist' : childRanges lo (cs.insertIdx (lowerBound k ks k + 1) a)
      (ks.insertIdx (lowerBound k ks k) s)
        hi = X ++ ([(c, lo', some s)] ++ [(a, some s, hi')]) ++ Y :=
    hlist'
  rw [hpos]
  refine ⟨along_iff_forall.mpr ⟨hrow', fun x hx => ?_⟩, List.perm_insertIdx _ _ ?_⟩
  · -- the entries around that of `n` belong to other children
    have hnd' : ((X ++ [(c, lo', hi')] ++ Y).map Prod.fst).Nodup := by
      rw [← hlist, hfst]
      exact hnd
    have hXY : x ∈ X ++ Y → P' x.2.1 x.1 x.2.2 := by
      intro hx
      have hmem : x ∈ childRanges lo cs ks hi := by
        rw [hlist]
        simp only [List.mem_append] at hx ⊢
        tauto
      refine hother _ _ _ ?_ ?_ (hall x hmem)
      · rw [← hfst]
        exact List.mem_map_of_mem hmem
      · rintro hxc
        have hmid : (c :: (X ++ Y).map Prod.fst).Nodup := by
          refine List.Perm.nodup_iff ?_ |>.mp hnd'
          simp only [List.map_append, List.map_cons, List.append_assoc, List.singleton_append]
          exact List.perm_middle
        exact (List.nodup_cons.mp hmid).1 (hxc ▸ List.mem_map_of_mem hx)
    rw [hlist'] at hx
    simp only [List.mem_append, List.mem_singleton] at hx hXY
    rcases hx with (hx | rfl | rfl) | hx
    · exact hXY (Or.inl hx)
    · exact hn
    · exact ha
    · exact hXY (Or.inr hx)
  · exact (List.getElem?_eq_some_iff.mp hr.get).1

end along

/-! ### Pages -/

namespace Page

def isLeaf : Page K V → Bool
  | .leaf _ => true
  | .inner _ => false

/-- The nodes that a node points to. -/
def children : Page K V → List ℕ
  | .leaf _ => []
  | .inner node => node.children

/-- The entries that a node stores itself. -/
def entries : Page K V → List (K × V)
  | .leaf node => node.data
  | .inner _ => []

/-- The node is in order for a range whose parts its children stand for. -/
def Fits (P : Option K → ℕ → Option K → Prop) (r : Range K) : Page K V → Prop
  | .leaf node => Span.Ok ⟨r.1, node, r.2⟩
  | .inner node => (1 ≤ node.keys.length ∧ node.keys.length ≤ innerMax - 1) ∧
      Along P r.1 node.children node.keys r.2 ∧ node.children.Nodup

variable {P P' : Option K → ℕ → Option K → Prop} {r : Range K} {page : Page K V}

theorem Fits.mono (h : page.Fits P r)
    (himp : ∀ lo c hi, c ∈ page.children → P lo c hi → P' lo c hi) : page.Fits P' r := by
  cases page with
  | leaf node => exact h
  | inner node => exact ⟨h.1, h.2.1.mono_mem himp, h.2.2⟩

theorem Fits.child (h : page.Fits P r) {c : ℕ} (hc : c ∈ page.children) :
    ∃ lo hi, P lo c hi := by
  cases page with
  | leaf node => exact absurd hc List.not_mem_nil
  | inner node => exact h.2.1.mem_children hc

theorem Fits.nodup (h : page.Fits P r) : page.children.Nodup := by
  cases page with
  | leaf node => exact List.nodup_nil
  | inner node => exact h.2.2

/-- Both parts of a full node are in order for their parts of the range. -/
structure Parts (P : Option K → ℕ → Option K → Prop) (r : Range K) (page : Page K V) (sep : K)
    (left right : Page K V) : Prop where
  inside : Inside r.1 r.2 sep
  fitsLeft : left.Fits P (r.1, some sep)
  fitsRight : right.Fits P (some sep, r.2)
  children : left.children ++ right.children = page.children
  entries : left.entries ++ right.entries = page.entries
  isLeaf : left.isLeaf = page.isLeaf ∧ right.isLeaf = page.isLeaf

theorem Fits.split (h : page.Fits P r) (hfull : page.isFull = true) (addr : ℕ) :
    ∃ sep left right, page.split addr = some (sep, left, right) ∧
      Parts P r page sep left right := by
  cases page with
  | leaf node =>
      obtain ⟨sep, left, right, hsplit, hs⟩ := Span.Ok.split h hfull addr
      refine ⟨sep, .leaf left, .leaf right, ?_, hs.inside, hs.okLeft, hs.okRight, rfl, hs.data,
        rfl, rfl⟩
      rw [Page.split, hsplit]
      rfl
  | inner node =>
      obtain ⟨hcount, halong, hnd⟩ := h
      obtain ⟨A, sep, B, hkeys, hA, hB, hsplit, h1, h2, h3, -⟩ :=
        BTreeInner.split_eq (f := fun _ _ _ => ([] : List ℕ)) hfull halong
      refine ⟨sep, .inner ⟨A, node.children.take 15⟩, .inner ⟨B, node.children.drop 15⟩, ?_, h2,
        ⟨⟨?_, ?_⟩, h1, hnd.sublist (List.take_sublist ..)⟩,
        ⟨⟨?_, ?_⟩, h3, hnd.sublist (List.drop_sublist ..)⟩, List.take_append_drop .., rfl, rfl, rfl⟩
      · rw [Page.split, hsplit]
        rfl
      · show 1 ≤ A.length
        omega
      · show A.length ≤ 30
        omega
      · show 1 ≤ B.length
        omega
      · show B.length ≤ 30
        omega

end Page

/-! ### The tree of a heap -/

namespace Heap

/-- The child is a node with the range at its place. -/
def HasRange (h : Heap K V) (range : ℕ → Range K) (lo : Option K) (c : ℕ) (hi : Option K) : Prop :=
  (h.pages c).isSome ∧ range c = (lo, hi)

structure Tree (h : Heap K V) (range : ℕ → Range K) (par : ℕ → ℕ) : Prop where
  fits : ∀ n page, h.pages n = some page → page.Fits (h.HasRange range) (range n)
  apart : ∀ m n page page' k, h.pages m = some page → h.pages n = some page' →
    page.isLeaf = true → page'.isLeaf = true → InRange (range m) k → InRange (range n) k → m = n
  parent : ∀ n page c, h.pages n = some page → c ∈ page.children → par c = n ∧ c ≠ h.root
  root : (h.pages h.root).isSome ∧ range h.root = (none, none)
  alloc : ∀ n, (h.pages n).isSome ↔ n < h.nextAddr

/-- Some leaf stores the entry. -/
def Stored (h : Heap K V) (e : K × V) : Prop := ∃ n page, h.pages n = some page ∧ e ∈ page.entries

/-- The map whose entries the leaves store. -/
def Represents (h : Heap K V) (f : K → Option V) : Prop := ∀ k v, f k = some v ↔ h.Stored (k, v)

variable {h : Heap K V} {range : ℕ → Range K} {par : ℕ → ℕ}

theorem Tree.isSome_of_child (ht : h.Tree range par) {n c : ℕ} {page : Page K V}
    (hn : h.pages n = some page) (hc : c ∈ page.children) : (h.pages c).isSome := by
  obtain ⟨_, _, hchild⟩ := (ht.fits n page hn).child hc
  exact hchild.1

/-- The child for a key of the range of a node, and its range. -/
theorem Tree.route (ht : h.Tree range par) {n : ℕ} {node : BTreeInner K ℕ} {k : K}
    (hn : h.pages n = some (.inner node)) (hk : InRange (range n) k) :
    ∃ c, node.children[node.lowerBound k]? = some c ∧ (h.pages c).isSome ∧ InRange (range c) k := by
  obtain ⟨⟨hone, -⟩, halong, -⟩ := ht.fits n _ hn
  obtain ⟨c, lo, hi, hr⟩ := along_route_lowerBound (f := fun _ _ _ => ([] : List ℕ)) halong
    (List.length_pos_iff.mp hone) hk.1 hk.2
  refine ⟨c, hr.get, hr.child.1, ?_⟩
  rw [hr.child.2]
  exact ⟨hr.above, hr.upTo⟩

/-! ### A split -/

/-- The heap when a node `n` was split and no node points to its new neighbour `a` yet. -/
structure Halfway (h h₁ : Heap K V) (range range' : ℕ → Range K) (par' : ℕ → ℕ) (n a : ℕ)
    (sep : K) : Prop where
  fits : ∀ m page, h₁.pages m = some page → n ∉ page.children →
    page.Fits (h₁.HasRange range') (range' m)
  apart : ∀ m m' page page' k, h₁.pages m = some page → h₁.pages m' = some page' →
    page.isLeaf = true → page'.isLeaf = true → InRange (range' m) k → InRange (range' m') k → m = m'
  parent : ∀ m page c, h₁.pages m = some page → c ∈ page.children →
    par' c = m ∧ c ≠ h.root ∧ c ≠ a
  alloc : ∀ m, (h₁.pages m).isSome ↔ m < h.nextAddr + 1
  other : ∀ m, m ≠ n → m ≠ a → h₁.pages m = h.pages m ∧ range' m = range m
  left : h₁.HasRange range' (range n).1 n (some sep)
  right : h₁.HasRange range' (some sep) a (range n).2
  inside : Inside (range n).1 (range n).2 sep
  stored : ∀ e, h₁.Stored e ↔ h.Stored e

theorem Tree.halfway (ht : h.Tree range par) {n : ℕ} {page left right : Page K V} {sep : K}
    (hn : h.pages n = some page) (hself : n ∉ page.children)
    (hp : Page.Parts (h.HasRange range) (range n) page sep left right) :
    Halfway h ((h.write n left).new right) range
      (Function.update (Function.update range n ((range n).1, some sep)) h.nextAddr
        (some sep, (range n).2))
      (fun c => if c ∈ right.children then h.nextAddr else par c) n h.nextAddr sep := by
  have hlt : n < h.nextAddr := (ht.alloc n).mp (by rw [hn]; rfl)
  have hne : h.nextAddr ≠ n := hlt.ne'
  obtain ⟨h₁, hh₁⟩ : ∃ h₁, h₁ = (h.write n left).new right := ⟨_, rfl⟩
  obtain ⟨range', hrange'⟩ : ∃ range', range' = Function.update (Function.update range n
      ((range n).1, some sep)) h.nextAddr (some sep, (range n).2) := ⟨_, rfl⟩
  rw [← hh₁, ← hrange']
  have hpn : h₁.pages n = some left := by
    rw [hh₁, new_pages, write_nextAddr, write_pages, Function.update_of_ne hne.symm,
      Function.update_self]
  have hpa : h₁.pages h.nextAddr = some right := by
    rw [hh₁, new_pages, write_nextAddr, Function.update_self]
  have hpo : ∀ m, m ≠ n → m ≠ h.nextAddr → h₁.pages m = h.pages m := fun m hmn hma => by
    rw [hh₁, new_pages, write_nextAddr, write_pages, Function.update_of_ne hma,
      Function.update_of_ne hmn]
  have hrn : range' n = ((range n).1, some sep) := by
    rw [hrange', Function.update_of_ne hne.symm, Function.update_self]
  have hra : range' h.nextAddr = (some sep, (range n).2) := by
    rw [hrange', Function.update_self]
  have hro : ∀ m, m ≠ n → m ≠ h.nextAddr → range' m = range m := fun m hmn hma => by
    rw [hrange', Function.update_of_ne hma, Function.update_of_ne hmn]
  -- a child other than `n` has the range that it had
  have hsame : ∀ lo c hi, c ≠ n → h.HasRange range lo c hi → h₁.HasRange range' lo c hi := by
    intro lo c hi hcn hc
    have hca : c ≠ h.nextAddr := ((ht.alloc c).mp hc.1).ne
    exact ⟨by rw [hpo c hcn hca]; exact hc.1, by rw [hro c hcn hca]; exact hc.2⟩
  have hchildL : ∀ c ∈ left.children, c ∈ page.children := fun c hc => by
    rw [← hp.children]
    exact List.mem_append_left _ hc
  have hchildR : ∀ c ∈ right.children, c ∈ page.children := fun c hc => by
    rw [← hp.children]
    exact List.mem_append_right _ hc
  have hold : ∀ m pg c, h.pages m = some pg → c ∈ pg.children → c ≠ h.nextAddr :=
    fun m pg c hm hc => ((ht.alloc c).mp (ht.isSome_of_child hm hc)).ne
  have hcases : ∀ m pg, h₁.pages m = some pg → m = n ∧ pg = left ∨
      m = h.nextAddr ∧ pg = right ∨ m ≠ n ∧ m ≠ h.nextAddr ∧ h.pages m = some pg := by
    intro m pg hm
    by_cases hmn : m = n
    · exact Or.inl ⟨hmn, Option.some.inj (hm.symm.trans (hmn ▸ hpn))⟩
    · by_cases hma : m = h.nextAddr
      · exact Or.inr (Or.inl ⟨hma, Option.some.inj (hm.symm.trans (hma ▸ hpa))⟩)
      · exact Or.inr (Or.inr ⟨hmn, hma, (hpo m hmn hma).symm.trans hm⟩)
  refine ⟨fun m pg hm hnot => ?_, ?_, fun m pg c hm hc => ?_, fun m => ?_,
    fun m hmn hma => ⟨hpo m hmn hma, hro m hmn hma⟩, ⟨by rw [hpn]; rfl, hrn⟩,
    ⟨by rw [hpa]; rfl, hra⟩, hp.inside, fun e => ⟨?_, ?_⟩⟩
  · rcases hcases m pg hm with ⟨rfl, rfl⟩ | ⟨rfl, rfl⟩ | ⟨hmn, hma, hm'⟩
    · rw [hrn]
      exact hp.fitsLeft.mono
        (fun lo c hi hc => hsame lo c hi (fun hcn => hself (hcn ▸ hchildL c hc)))
    · rw [hra]
      exact hp.fitsRight.mono
        (fun lo c hi hc => hsame lo c hi (fun hcn => hself (hcn ▸ hchildR c hc)))
    · rw [hro m hmn hma]
      exact (ht.fits m pg hm').mono (fun lo c hi hc => hsame lo c hi (fun hcn => hnot (hcn ▸ hc)))
  · -- a leaf stands for keys of the leaf that it was, or was a part of
    have hfrom : ∀ m pg k, h₁.pages m = some pg → pg.isLeaf = true → InRange (range' m) k →
        ∃ pg₀, h.pages (if m = h.nextAddr then n else m) = some pg₀ ∧ pg₀.isLeaf = true ∧
          InRange (range (if m = h.nextAddr then n else m)) k := by
      intro m pg k hm hleaf hk
      rcases hcases m pg hm with ⟨rfl, rfl⟩ | ⟨rfl, rfl⟩ | ⟨hmn, hma, hm'⟩
      · rw [if_neg hne.symm]
        rw [hrn] at hk
        refine ⟨page, hn, hp.isLeaf.1 ▸ hleaf, hk.1, fun u hu => ?_⟩
        exact (hk.2 sep rfl).trans (hp.inside.2 u hu).le
      · rw [if_pos rfl]
        rw [hra] at hk
        refine ⟨page, hn, hp.isLeaf.2 ▸ hleaf, fun l hl => ?_, hk.2⟩
        exact (hp.inside.1 l hl).trans (hk.1 sep rfl)
      · rw [if_neg hma]
        rw [hro m hmn hma] at hk
        exact ⟨pg, hm', hleaf, hk⟩
    intro m m' pg pg' k hm hm' hleaf hleaf' hk hk'
    obtain ⟨q, hq, hql, hqk⟩ := hfrom m pg k hm hleaf hk
    obtain ⟨q', hq', hql', hqk'⟩ := hfrom m' pg' k hm' hleaf' hk'
    have heq := ht.apart _ _ _ _ k hq hq' hql hql' hqk hqk'
    -- the two parts have no key in common
    have hdisj : ∀ x y, x = n → y = h.nextAddr → InRange (range' x) k → ¬ InRange (range' y) k := by
      rintro x y rfl rfl hx hy
      rw [hrn] at hx
      rw [hra] at hy
      exact absurd (hx.2 sep rfl) (not_le.mpr (hy.1 sep rfl))
    split at heq
    · rename_i hma
      split at heq
      · rename_i hma'
        rw [hma, hma']
      · exact absurd hk (hdisj m' m heq.symm hma hk')
    · split at heq
      · rename_i hma'
        exact absurd hk' (hdisj m m' heq hma' hk)
      · exact heq
  · rcases hcases m pg hm with ⟨rfl, rfl⟩ | ⟨rfl, rfl⟩ | ⟨hmn, hma, hm'⟩
    · obtain ⟨h1, h2⟩ := ht.parent m page c hn (hchildL c hc)
      have hnotR : c ∉ right.children := by
        intro hcR
        have hnd : (pg.children ++ right.children).Nodup := by
          rw [hp.children]
          exact (ht.fits m page hn).nodup
        exact (List.nodup_append.mp hnd).2.2 c hc c hcR rfl
      exact ⟨by rw [if_neg hnotR]; exact h1, h2, hold m page c hn (hchildL c hc)⟩
    · obtain ⟨h1, h2⟩ := ht.parent n page c hn (hchildR c hc)
      exact ⟨if_pos hc, h2, hold n page c hn (hchildR c hc)⟩
    · obtain ⟨h1, h2⟩ := ht.parent m pg c hm' hc
      have hnotR : c ∉ right.children := by
        intro hcR
        exact hmn (h1.symm.trans (ht.parent n page c hn (hchildR c hcR)).1)
      exact ⟨by rw [if_neg hnotR]; exact h1, h2, hold m pg c hm' hc⟩
  · by_cases hmn : m = n
    · subst hmn
      rw [hpn]
      exact ⟨fun _ => hlt.trans (Nat.lt_succ_self _), fun _ => rfl⟩
    · by_cases hma : m = h.nextAddr
      · subst hma
        rw [hpa]
        exact ⟨fun _ => Nat.lt_succ_self _, fun _ => rfl⟩
      · rw [hpo m hmn hma, ht.alloc m]
        omega
  · rintro ⟨m, pg, hm, he⟩
    rcases hcases m pg hm with ⟨rfl, rfl⟩ | ⟨rfl, rfl⟩ | ⟨-, -, hm'⟩
    · exact ⟨m, page, hn, hp.entries ▸ List.mem_append_left _ he⟩
    · exact ⟨n, page, hn, hp.entries ▸ List.mem_append_right _ he⟩
    · exact ⟨m, pg, hm', he⟩
  · rintro ⟨m, pg, hm, he⟩
    by_cases hmn : m = n
    · subst hmn
      obtain rfl : page = pg := Option.some.inj (hn.symm.trans hm)
      rw [← hp.entries] at he
      rcases List.mem_append.mp he with he | he
      · exact ⟨m, left, hpn, he⟩
      · exact ⟨h.nextAddr, right, hpa, he⟩
    · have hma : m ≠ h.nextAddr := ((ht.alloc m).mp (by rw [hm]; rfl)).ne
      exact ⟨m, pg, (hpo m hmn hma).trans hm, he⟩

/-- The parent takes the new node. -/
theorem Tree.linkChild (ht : h.Tree range par) {h₁ : Heap K V} {range' : ℕ → Range K} {par' : ℕ → ℕ}
    {n p : ℕ} {sep k : K} {node : BTreeInner K ℕ}
    (hh : Halfway h h₁ range range' par' n h.nextAddr sep) (hroot : h₁.root = h.root)
    (hnext : h₁.nextAddr = h.nextAddr + 1) (hp : h.pages p = some (.inner node)) (hpn : p ≠ n)
    (hk : InRange (range p) k) (hget : node.children[node.lowerBound k]? = some n)
    (hroom : node.keys.length < innerMax - 1) :
    (h₁.write p (.inner (node.insert sep h.nextAddr))).Tree range'
      (Function.update par' h.nextAddr p) := by
  obtain ⟨h', hh'⟩ : ∃ h', h' = h₁.write p (.inner (node.insert sep h.nextAddr)) := ⟨_, rfl⟩
  rw [← hh']
  have hpa : p ≠ h.nextAddr := ((ht.alloc p).mp (by rw [hp]; rfl)).ne
  have hp₁ : h₁.pages p = some (.inner node) := ((hh.other p hpn hpa).1).trans hp
  have hnmem : n ∈ (Page.inner node : Page K V).children := List.mem_of_getElem? hget
  have hparn : par' n = p := (hh.parent p _ n hp₁ hnmem).1
  have hroota : h.nextAddr ≠ h.root := ((ht.alloc h.root).mp ht.root.1).ne'
  have hself : h'.pages p = some (.inner (node.insert sep h.nextAddr)) := by
    rw [hh', write_pages, Function.update_self]
  have hrest : ∀ m, m ≠ p → h'.pages m = h₁.pages m := fun m hm => by
    rw [hh', write_pages, Function.update_of_ne hm]
  have hsome : ∀ m, (h'.pages m).isSome ↔ (h₁.pages m).isSome := by
    intro m
    by_cases hm : m = p
    · subst hm
      rw [hself, hp₁]
      exact Iff.rfl
    · rw [hrest m hm]
  have hrange : ∀ lo c hi, h₁.HasRange range' lo c hi → h'.HasRange range' lo c hi :=
    fun lo c hi hc => ⟨(hsome c).mpr hc.1, hc.2⟩
  obtain ⟨⟨hone, hle⟩, halong, hnd⟩ := ht.fits p _ hp
  obtain ⟨lo, hi, hn, -, -, hins⟩ := halong.insertChild (h'.HasRange range') hnd
    (List.length_pos_iff.mp hone) hk.1 hk.2 hget
  have hnr : range n = (lo, hi) := hn.2
  have hside := hh.inside
  have hleft := hh.left
  have hright := hh.right
  rw [hnr] at hside hleft hright
  obtain ⟨halong', hperm⟩ := hins sep h.nextAddr hside
    (fun lo c hi hc hcn hcr => by
      have hca : c ≠ h.nextAddr := ((ht.alloc c).mp hcr.1).ne
      exact hrange lo c hi ⟨by rw [(hh.other c hcn hca).1]; exact hcr.1,
        by rw [(hh.other c hcn hca).2]; exact hcr.2⟩)
    (hrange _ _ _ hleft) (hrange _ _ _ hright)
  have hnew : ∀ c ∈ node.children, c ≠ h.nextAddr :=
    fun c hc => ((ht.alloc c).mp (ht.isSome_of_child hp hc)).ne
  have hmem : ∀ c ∈ (Page.inner (node.insert sep h.nextAddr) : Page K V).children,
      c = h.nextAddr ∨ c ∈ node.children := fun c hc => List.mem_cons.mp (hperm.subset hc)
  have hleaf : ∀ m pg, h'.pages m = some pg → pg.isLeaf = true → h₁.pages m = some pg := by
    intro m pg hm hl
    by_cases hmp : m = p
    · subst hmp
      obtain rfl := Option.some.inj (hm.symm.trans hself)
      cases hl
    · exact (hrest m hmp).symm.trans hm
  refine ⟨fun m pg hm => ?_, fun m m' pg pg' k hm hm' hl hl' => ?_, fun m pg c hm hc => ?_, ?_,
    fun m => ?_⟩
  · by_cases hmp : m = p
    · subst hmp
      obtain rfl := Option.some.inj (hm.symm.trans hself)
      have hlen : (node.keys.insertIdx (lowerBound sep node.keys sep) sep).length ≤
          node.keys.length + 1 := List.length_insertIdx_le_succ ..
      have hlen' : node.keys.length ≤
          (node.keys.insertIdx (lowerBound sep node.keys sep) sep).length :=
        List.length_le_length_insertIdx ..
      refine ⟨⟨hone.trans hlen', ?_⟩, ?_, ?_⟩
      · exact hlen.trans hroom
      · rw [(hh.other m hpn hpa).2]
        exact halong'
      · refine hperm.nodup_iff.mpr (List.nodup_cons.mpr ⟨fun hmem => hnew _ hmem rfl, hnd⟩)
    · rw [hrest m hmp] at hm
      refine (hh.fits m pg hm (fun hc => hmp ?_)).mono (fun lo c hi _ => hrange lo c hi)
      exact (hh.parent m pg n hm hc).1.symm.trans hparn
  · exact hh.apart m m' pg pg' k (hleaf m pg hm hl) (hleaf m' pg' hm' hl') hl hl'
  · rw [hh', write_root, hroot]
    by_cases hmp : m = p
    · subst hmp
      obtain rfl := Option.some.inj (hm.symm.trans hself)
      rcases hmem c hc with rfl | hc
      · exact ⟨Function.update_self .., hroota⟩
      · obtain ⟨h1, h2, h3⟩ := hh.parent m _ c hp₁ hc
        exact ⟨by rw [Function.update_of_ne h3]; exact h1, h2⟩
    · rw [hrest m hmp] at hm
      obtain ⟨h1, h2, h3⟩ := hh.parent m pg c hm hc
      exact ⟨by rw [Function.update_of_ne h3]; exact h1, h2⟩
  · have hrn : h.root ≠ n := (ht.parent p _ n hp hnmem).2.symm
    rw [hh', write_root, hroot, ← hh', hsome, (hh.other h.root hrn hroota.symm).1,
      (hh.other h.root hrn hroota.symm).2]
    exact ht.root
  · rw [hsome, hh.alloc, hh', write_nextAddr, hnext]

/-- The root was split and gets a parent. -/
theorem Tree.linkRoot (ht : h.Tree range par) {h₁ : Heap K V} {range' : ℕ → Range K} {par' : ℕ → ℕ}
    {sep : K} (hh : Halfway h h₁ range range' par' h.root h.nextAddr sep)
    (hnext : h₁.nextAddr = h.nextAddr + 1) :
    (h₁.makeRoot sep h.root h.nextAddr).Tree (Function.update range' h₁.nextAddr (none, none))
      (fun c => if c = h.root ∨ c = h.nextAddr then h₁.nextAddr else par' c) := by
  obtain ⟨h', hh'⟩ : ∃ h', h' = h₁.makeRoot sep h.root h.nextAddr := ⟨_, rfl⟩
  obtain ⟨range'', hrange''⟩ : ∃ r, r = Function.update range' h₁.nextAddr (none, none) := ⟨_, rfl⟩
  rw [← hh', ← hrange'']
  have hfresh : ∀ m, (h₁.pages m).isSome → m ≠ h₁.nextAddr := fun m hm => by
    rw [hnext]
    exact ((hh.alloc m).mp hm).ne
  have hself : h'.pages h₁.nextAddr = some (.inner ⟨[sep], [h.root, h.nextAddr]⟩) := by
    rw [hh', makeRoot_pages, Function.update_self]
  have hrest : ∀ m, m ≠ h₁.nextAddr → h'.pages m = h₁.pages m := fun m hm => by
    rw [hh', makeRoot_pages, Function.update_of_ne hm]
  have hrrest : ∀ m, m ≠ h₁.nextAddr → range'' m = range' m := fun m hm => by
    rw [hrange'', Function.update_of_ne hm]
  have hrself : range'' h₁.nextAddr = (none, none) := by
    rw [hrange'', Function.update_self]
  have hrange : ∀ lo c hi, h₁.HasRange range' lo c hi → h'.HasRange range'' lo c hi :=
    fun lo c hi hc => ⟨by rw [hrest c (hfresh c hc.1)]; exact hc.1,
      by rw [hrrest c (hfresh c hc.1)]; exact hc.2⟩
  have hroot : h'.root = h₁.nextAddr := by rw [hh', makeRoot_root]
  have hroota : h.root ≠ h.nextAddr := ((ht.alloc h.root).mp ht.root.1).ne
  have hside := hh.inside
  have hleft := hh.left
  have hright := hh.right
  rw [ht.root.2] at hside hleft hright
  refine ⟨fun m pg hm => ?_, fun m m' pg pg' k hm hm' hl hl' => ?_, fun m pg c hm hc => ?_, ?_,
    fun m => ?_⟩
  · by_cases hmb : m = h₁.nextAddr
    · subst hmb
      obtain rfl := Option.some.inj (hm.symm.trans hself)
      rw [hrself]
      exact ⟨⟨le_rfl, show 1 ≤ innerMax - 1 by decide⟩,
        along_cons.mpr ⟨hrange _ _ _ hleft, hside, hrange _ _ _ hright⟩, by simpa using hroota⟩
    · rw [hrest m hmb] at hm
      rw [hrrest m hmb]
      exact (hh.fits m pg hm (fun hc => (hh.parent m pg _ hm hc).2.1 rfl)).mono
        (fun lo c hi _ => hrange lo c hi)
  · have hnot : ∀ m pg, h'.pages m = some pg → pg.isLeaf = true → m ≠ h₁.nextAddr := by
      rintro m pg hm hl rfl
      obtain rfl := Option.some.inj (hm.symm.trans hself)
      cases hl
    have hmb := hnot m pg hm hl
    have hmb' := hnot m' pg' hm' hl'
    rw [hrest _ hmb] at hm
    rw [hrest _ hmb'] at hm'
    rw [hrrest _ hmb, hrrest _ hmb']
    exact hh.apart m m' pg pg' k hm hm' hl hl'
  · rw [hroot]
    by_cases hmb : m = h₁.nextAddr
    · subst hmb
      obtain rfl := Option.some.inj (hm.symm.trans hself)
      have hc : c ∈ [h.root, h.nextAddr] := hc
      have hc' : c = h.root ∨ c = h.nextAddr := by simpa using hc
      refine ⟨if_pos hc', ?_⟩
      rcases hc' with rfl | rfl
      · exact hfresh _ hh.left.1
      · exact hfresh _ hh.right.1
    · rw [hrest m hmb] at hm
      obtain ⟨h1, h2, h3⟩ := hh.parent m pg c hm hc
      obtain ⟨lo, hi, hcr⟩ :=
        (hh.fits m pg hm (fun hc => (hh.parent m pg _ hm hc).2.1 rfl)).child hc
      exact ⟨by rw [if_neg (by simp [h2, h3])]; exact h1, hfresh c hcr.1⟩
  · rw [hroot, hself]
    exact ⟨rfl, hrself⟩
  · by_cases hmb : m = h₁.nextAddr
    · subst hmb
      rw [hself, hh', makeRoot_nextAddr]
      exact ⟨fun _ => Nat.lt_succ_self _, fun _ => rfl⟩
    · rw [hrest m hmb, hh.alloc, hh', makeRoot_nextAddr]
      omega

/-! ### Leaves and the map -/

omit [LinearOrder K] in
theorem isLeaf_of_entries {page : Page K V} {e : K × V} (he : e ∈ page.entries) :
    page.isLeaf = true := by
  cases page with
  | leaf node => rfl
  | inner node => exact absurd he List.not_mem_nil

omit [LinearOrder K] in
theorem Represents.of_stored {h' : Heap K V} (hs : ∀ e, h'.Stored e ↔ h.Stored e)
    {f : K → Option V} (hf : h.Represents f) : h'.Represents f :=
  fun k v => (hf k v).trans (hs (k, v)).symm

omit [LinearOrder K] in
/-- Writing an inner node does not change what is stored. -/
theorem stored_update {h' h₁ : Heap K V} {n : ℕ} {node : BTreeInner K ℕ}
    (hpages : h'.pages = Function.update h₁.pages n (some (.inner node)))
    (hold : ∀ page, h₁.pages n = some page → page.isLeaf = false) (e : K × V) :
    h'.Stored e ↔ h₁.Stored e := by
  constructor
  · rintro ⟨m, page, hm, he⟩
    rw [hpages] at hm
    by_cases hmn : m = n
    · subst hmn
      rw [Function.update_self] at hm
      obtain rfl := Option.some.inj hm
      exact absurd he List.not_mem_nil
    · rw [Function.update_of_ne hmn] at hm
      exact ⟨m, page, hm, he⟩
  · rintro ⟨m, page, hm, he⟩
    have hmn : m ≠ n := by
      rintro rfl
      have := isLeaf_of_entries he
      rw [hold page hm] at this
      cases this
    exact ⟨m, page, by rw [hpages, Function.update_of_ne hmn]; exact hm, he⟩

/-- What is stored for a key of the range of a leaf is stored in that leaf. -/
theorem Tree.stored_iff (ht : h.Tree range par) {n : ℕ} {leaf : BTreeLeaf K V} {k : K}
    (hn : h.pages n = some (.leaf leaf)) (hk : InRange (range n) k) (v : V) :
    h.Stored (k, v) ↔ (k, v) ∈ leaf.data := by
  refine ⟨?_, fun hv => ⟨n, _, hn, hv⟩⟩
  rintro ⟨m, page, hm, hv⟩
  have hfits := ht.fits m page hm
  have hl := isLeaf_of_entries hv
  cases page with
  | inner node => cases hl
  | leaf node =>
      have hkm : InRange (range m) k := ⟨hfits.above _ hv, hfits.upTo _ hv⟩
      obtain rfl : m = n := ht.apart m n _ _ k hm hn rfl rfl hkm hk
      obtain rfl : node = leaf := Page.leaf.inj (Option.some.inj (hm.symm.trans hn))
      exact hv

theorem Represents.lookup_eq {f : K → Option V} (hf : h.Represents f)
    (ht : h.Tree range par) {n : ℕ}
    {leaf : BTreeLeaf K V} {k : K} (hn : h.pages n = some (.leaf leaf)) (hk : InRange (range n) k) :
    f k = leaf.data.lookup k := by
  refine Option.ext (fun v => ?_)
  have hsorted : (leaf.data.map Prod.fst).Pairwise (· < ·) := (ht.fits n _ hn).sorted
  rw [hf k v, ht.stored_iff hn hk, mem_iff_lookup hsorted]

/-- The tree and the map after `insert` into the leaf for the key. -/
theorem Tree.insertLeaf (ht : h.Tree range par) {n : ℕ} {leaf : BTreeLeaf K V} {k : K} (v : V)
    (left : Leftover V) (hn : h.pages n = some (.leaf leaf)) (hk : InRange (range n) k)
    (hroom : leaf.isFull = false) :
    (h.write n (.leaf (leaf.insert k v).2)).Tree range par ∧
      ∀ f, h.Represents f → (Op.insert k v).apply left f =
          (.inserted (leaf.insert k v).1, ((Op.insert k v).apply left f).2) ∧
        (h.write n (.leaf (leaf.insert k v).2)).Represents ((Op.insert k v).apply left f).2 := by
  have hok : Span.Ok ⟨(range n).1, leaf, (range n).2⟩ := ht.fits n _ hn
  have hok' : Span.Ok ⟨(range n).1, (leaf.insert k v).2, (range n).2⟩ :=
    Span.Ok.insert (v := v) hok hk hroom
  have hdata : (leaf.insert k v).2.data = insertEntry k v leaf.data := hok.data_insert k v
  have hret : (leaf.insert k v).1 = decide (k ∉ leaf.data.map Prod.fst) := by
    rw [BTreeLeaf.insert_eq hok.sorted]
  obtain ⟨leaf', hleaf'⟩ : ∃ leaf', leaf' = (leaf.insert k v).2 := ⟨_, rfl⟩
  rw [← hleaf'] at hok' hdata ⊢
  obtain ⟨h', hh'⟩ : ∃ h', h' = h.write n (.leaf leaf') := ⟨_, rfl⟩
  rw [← hh']
  have hself : h'.pages n = some (.leaf leaf') := by rw [hh', write_pages, Function.update_self]
  have hrest : ∀ m, m ≠ n → h'.pages m = h.pages m := fun m hm => by
    rw [hh', write_pages, Function.update_of_ne hm]
  have hsome : ∀ m, (h'.pages m).isSome ↔ (h.pages m).isSome := by
    intro m
    by_cases hm : m = n
    · subst hm
      rw [hself, hn]
      exact Iff.rfl
    · rw [hrest m hm]
  have hrange : ∀ lo c hi, h.HasRange range lo c hi → h'.HasRange range lo c hi :=
    fun lo c hi hc => ⟨(hsome c).mpr hc.1, hc.2⟩
  -- a leaf of the new heap is a leaf of the old one
  have hleaf : ∀ m pg, h'.pages m = some pg → pg.isLeaf = true →
      ∃ pg₀, h.pages m = some pg₀ ∧ pg₀.isLeaf = true := by
    intro m pg hm hl
    by_cases hmn : m = n
    · subst hmn
      exact ⟨_, hn, rfl⟩
    · exact ⟨pg, (hrest m hmn).symm.trans hm, hl⟩
  have ht' : h'.Tree range par := by
    refine ⟨fun m pg hm => ?_, fun m m' pg pg' k hm hm' hl hl' => ?_, fun m pg c hm hc => ?_, ?_,
      fun m => ?_⟩
    · by_cases hmn : m = n
      · subst hmn
        obtain rfl := Option.some.inj (hm.symm.trans hself)
        exact hok'
      · rw [hrest m hmn] at hm
        exact (ht.fits m pg hm).mono (fun lo c hi _ => hrange lo c hi)
    · obtain ⟨q, hq, hql⟩ := hleaf m pg hm hl
      obtain ⟨q', hq', hql'⟩ := hleaf m' pg' hm' hl'
      exact ht.apart m m' q q' k hq hq' hql hql'
    · rw [hh', write_root]
      by_cases hmn : m = n
      · subst hmn
        obtain rfl := Option.some.inj (hm.symm.trans hself)
        exact absurd hc List.not_mem_nil
      · rw [hrest m hmn] at hm
        exact ht.parent m pg c hm hc
    · rw [hh', write_root, ← hh', hsome]
      exact ht.root
    · rw [hsome, hh', write_nextAddr]
      exact ht.alloc m
  refine ⟨ht', fun f hf => ?_⟩
  have hfk : f k = leaf.data.lookup k := hf.lookup_eq ht hn hk
  have happly : ((Op.insert k v).apply left f).2 = Function.update f k (some ((f k).getD v)) := by
    rw [Op.apply]
    cases hc : f k with
    | none => rw [if_pos rfl]; rfl
    | some w =>
        rw [if_neg (Option.some_ne_none w)]
        exact (Function.update_eq_self_iff.mpr hc.symm).symm
  constructor
  · rw [hret]
    have hiff : f k = none ↔ k ∉ leaf.data.map Prod.fst := by
      rw [hfk, mem_keys_iff_lookup, Bool.not_eq_true, Option.isSome_eq_false_iff,
        Option.isNone_iff_eq_none]
    rw [Op.apply]
    split
    · rename_i hc
      rw [decide_eq_true (hiff.mp hc)]
    · rename_i hc
      rw [decide_eq_false (fun hnot => hc (hiff.mpr hnot))]
  · intro k' w
    rw [happly]
    by_cases hk' : k' = k
    · subst hk'
      rw [Function.update_self, ht'.stored_iff hself hk, mem_iff_lookup hok'.sorted, hdata,
        lookup_insertEntry hok.sorted, if_pos rfl, hfk]
    · rw [Function.update_of_ne hk', hf k' w]
      have hmem : (k', w) ∈ leaf'.data ↔ (k', w) ∈ leaf.data := by
        rw [mem_iff_lookup hok'.sorted, mem_iff_lookup hok.sorted, hdata,
          lookup_insertEntry hok.sorted, if_neg hk']
      constructor
      · rintro ⟨m, pg, hm, hw⟩
        by_cases hmn : m = n
        · subst hmn
          obtain rfl := Option.some.inj (hm.symm.trans hn)
          exact ⟨m, _, hself, hmem.mpr hw⟩
        · exact ⟨m, pg, (hrest m hmn).trans hm, hw⟩
      · rintro ⟨m, pg, hm, hw⟩
        by_cases hmn : m = n
        · subst hmn
          obtain rfl := Option.some.inj (hm.symm.trans hself)
          exact ⟨m, _, hn, hmem.mp hw⟩
        · exact ⟨m, pg, (hrest m hmn).symm.trans hm, hw⟩

end Heap

/-- The search of `lookup` in a leaf finds the entry of the key. -/
theorem BTreeLeaf.read_eq {leaf : BTreeLeaf K V} (hs : (leaf.data.map Prod.fst).Pairwise (· < ·))
    (junk k : K) : leaf.read junk k = leaf.data.lookup k := by
  refine Option.ext (fun v => ?_)
  rw [← mem_iff_lookup hs, BTreeLeaf.read, BTree.lookup_leaf hs]
  obtain ⟨A, B, hl, hA, hB⟩ := exists_cut_entries k hs
  have hat : atLeast k leaf.data = B := by
    rw [hl, atLeast_append, atLeast_of_lt hA, atLeast_of_le hB]
    rfl
  rw [hat, hl, List.mem_append]
  have hnot : (k, v) ∉ A := fun h => lt_irrefl k (hA _ h)
  cases B with
  | nil => simp [hnot]
  | cons e B =>
      have hrest : ∀ x ∈ B, e.1 < x.1 := by
        rw [hl, List.map_append, List.map_cons] at hs
        have h2 := (List.pairwise_cons.mp (List.pairwise_append.mp hs).2.1).1
        exact fun x hx => h2 x.1 (List.mem_map_of_mem hx)
      have hnotB : (k, v) ∉ B := fun h =>
        absurd ((hB e (List.mem_cons_self ..)).trans_lt (hrest _ h)) (lt_irrefl k)
      rw [List.head?_cons, Option.bind_some, List.mem_cons]
      simp only [hnot, hnotB, false_or, or_false]
      by_cases hek : e.1 = k
      · rw [if_pos hek, Option.some_inj, Prod.ext_iff]
        exact ⟨fun h => ⟨hek.symm, h.symm⟩, fun h => h.2.symm⟩
      · rw [if_neg hek, Prod.ext_iff]
        exact ⟨fun h => absurd h nofun, fun h => absurd h.1.symm hek⟩

end LearnedIndex.Btreeolc
