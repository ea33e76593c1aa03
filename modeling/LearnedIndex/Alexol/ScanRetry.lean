import LearnedIndex.Alexol.LeafLinksRun

/-! # A range scan among restructurings (`range_scan_by_size`)

One thread scans while any number of others resize and split leaves.  The scan tests the lock of the
leaf whose pointer it holds again and again (`RETRY`), without a new descent; so it must not come to
the test of a leaf that has been replaced in its parent, since the lock of such a leaf is never
released.

* **Model nodes.**  A model node has one slot for the searched key.  A node without a pointer in it
  is not made yet.  A split may replace the parent by an expanded copy; that is one step, because it
  holds the write lock of the parent while it copies the slots and writes those of the grandparent.
  The slots of the old node stay as they are, and nobody writes them again.
* **The descent.**  `get_leaf` reads `root_node_`, which may lag behind the child of the superroot,
  and then one child pointer after the other.  With a predicted bucket close to an integer it reads
  the link of the leaf to a neighbour as well, and reads it once more before it returns the
  neighbour.
* **The scan.**  It takes the version of a free leaf, reads the pairs, tests that the lock word is
  still the same, and goes on to `next_leaf_` when it has not enough. -/

namespace LearnedIndex.Alexol.LeafLinks

open LearnedIndex.Machine LearnedIndex.Chains

/-- Where a child pointer leads. -/
inductive Child (μ ν : Type) where
  | node (m : μ)
  | leaf (x : ν)
deriving DecidableEq

/-- Where the scanning thread is; the names say what comes next. -/
inductive ScanPc (μ ν : Type) where
  | readRoot
  | descend (m : μ)
  | redirect (leaf : ν)
  | confirmPrev (leaf prevLeaf : ν)
  | confirmNext (leaf nextLeaf : ν)
  /-- The test at `RETRY`. -/
  | retry (leaf : ν)
  | checkVersion (leaf : ν) (version : ℕ)
  | readNext (leaf : ν)
  | done
deriving DecidableEq

/-- What `get_leaf` makes of the predicted bucket. -/
inductive Rounding where
  | clear
  | down
  | up
deriving DecidableEq

structure ScanState (θ μ ν : Type) where
  links : State θ ν
  /-- How often the lock of a leaf was released. -/
  version : ν → ℕ
  /-- The child pointer in the slot of the key. -/
  child : μ → Option (Child μ ν)
  /-- The model node has been replaced by an expanded copy. -/
  replaced : μ → Bool
  superroot : μ
  rootNode : Child μ ν
  scan : ScanPc μ ν

inductive ScanAction (θ μ ν : Type) where
  /-- A step of another thread that does not write the parent. -/
  | other (act : Action θ ν)
  /-- Another thread writes the parent of the leaf that it replaces; for the key it has made `leaf`,
  below a new model node if the split is downwards. -/
  | publish (t : θ) (leaf : ν) (below : Option μ)
  /-- Another thread that splits a leaf replaces the parent `m` by an expanded copy. -/
  | expandParent (m new : μ)
  /-- Another thread that has replaced the root writes `root_node_`. -/
  | writeRoot
  | readRoot
  | readChild
  | redirect (rounding : Rounding)
  | confirm
  | testLock
  | checkVersion
  | readNext (enough : Bool)

namespace Pc
variable {ν : Type}

/-- The restructuring that changes the parent next. -/
def publishing : Pc ν → Option (Job ν)
  | publish j => some j
  | _ => none

theorem eq_publish {pc : Pc ν} {j : Job ν} (h : pc.publishing = some j) : pc = publish j := by
  cases pc <;> cases h
  rfl

theorem shown_of_relinking (x : ν) {pc : Pc ν} {j : Job ν} (h : pc.relinking = some j) :
    pc.shown x = j.news ∧ (pc.nextTo x = x ∨ pc.nextTo x = j.first) ∧
      (pc.prevFrom x = x ∨ pc.prevFrom x = j.first) ∧
      (pc.nextFrom x = x ∨ pc.nextFrom x = j.last) := by
  cases pc <;> cases h <;> simp [shown, nextTo, prevFrom, nextFrom]

theorem linking_of_relinking {pc : Pc ν} {j : Job ν} (h : pc.relinking = some j) :
    pc.linking = some j := by
  cases pc <;> first | exact h | cases h

end Pc

variable {θ μ ν : Type} [DecidableEq μ] [DecidableEq ν]

/-- The job whose leaves the action puts into the parent. -/
def State.published (s : State θ ν) : Action θ ν → Option (Job ν)
  | .move t => (s.pc t).publishing
  | _ => none

namespace ScanState

def goto (s : ScanState θ μ ν) (scan : ScanPc μ ν) : ScanState θ μ ν := { s with scan := scan }

/-- The other threads go on to `links`. -/
def pass (s : ScanState θ μ ν) (links : State θ ν) : ScanState θ μ ν :=
  { s with
    links := links
    version := fun x =>
      if s.links.lock x ≠ none ∧ links.lock x = none then s.version x + 1 else s.version x }

/-- The parents of a leaf lead to another child.  A node that has been replaced is no parent. -/
def replaceLeaf (s : ScanState θ μ ν) (old : ν) (c : Child μ ν) : ScanState θ μ ν :=
  { s with child := fun m =>
      if s.replaced m = false ∧ s.child m = some (.leaf old) then some c else s.child m }

/-- A model node with a child in the slot of the key is made. -/
def makeNode (s : ScanState θ μ ν) (m : μ) (c : Option (Child μ ν)) : ScanState θ μ ν :=
  { s with child := Function.update s.child m c }

/-- The parents of a model node lead to its expanded copy. -/
def replaceNode (s : ScanState θ μ ν) (m new : μ) : ScanState θ μ ν :=
  { s with
    child := fun g =>
      if s.replaced g = false ∧ s.child g = some (.node m) then some (.node new) else s.child g
    replaced := Function.update s.replaced m true }

end ScanState

/-- A null pointer from `get_leaf` is dereferenced: there is no step then. -/
def scanStep [DecidableEq θ] (lo hi : ν → ℚ) (key : ℤ) (s : ScanState θ μ ν) :
    ScanAction θ μ ν → Option (ScanState θ μ ν)
  | .other act =>
      if s.links.published act = none then (step lo hi s.links act).map s.pass else none
  | .publish t leaf below =>
      match (s.links.pc t).publishing with
      | some j =>
          if leaf ∈ j.news then
            match below with
            | none =>
                (step lo hi s.links (.move t)).map
                  (fun links => (s.pass links).replaceLeaf j.old (.leaf leaf))
            | some m =>
                if j.kind = .split ∧ s.child m = none then
                  (step lo hi s.links (.move t)).map (fun links =>
                    ((s.pass links).replaceLeaf j.old (.node m)).makeNode m (some (.leaf leaf)))
                else none
          else none
      | none => none
  | .expandParent m new =>
      if m ≠ s.superroot ∧ s.replaced m = false ∧ s.child m ≠ none ∧ s.child new = none then
        some ((s.replaceNode m new).makeNode new (s.child m))
      else none
  | .writeRoot => (s.child s.superroot).map (fun c => { s with rootNode := c })
  | .readRoot =>
      match s.scan with
      | .readRoot =>
          match s.rootNode with
          | .node m => some (s.goto (.descend m))
          | .leaf x => some (s.goto (.retry x))
      | _ => none
  | .readChild =>
      match s.scan with
      | .descend m =>
          match s.child m with
          | some (.node m') => some (s.goto (.descend m'))
          | some (.leaf x) => some (s.goto (.redirect x))
          | none => none
      | _ => none
  | .redirect rounding =>
      match s.scan with
      | .redirect leaf =>
          match rounding with
          | .clear => some (s.goto (.retry leaf))
          | .down =>
              match s.links.prev leaf with
              | some p =>
                  if (key : ℚ) < hi p then some (s.goto (.confirmPrev leaf p))
                  else some (s.goto (.retry leaf))
              | none => some (s.goto (.retry leaf))
          | .up =>
              match s.links.next leaf with
              | some n =>
                  if lo n ≤ key then some (s.goto (.confirmNext leaf n))
                  else some (s.goto (.retry leaf))
              | none => some (s.goto (.retry leaf))
      | _ => none
  | .confirm =>
      match s.scan with
      | .confirmPrev leaf p =>
          if s.links.prev leaf = some p then some (s.goto (.retry p)) else none
      | .confirmNext leaf n =>
          if s.links.next leaf = some n then some (s.goto (.retry n)) else none
      | _ => none
  | .testLock =>
      match s.scan with
      | .retry leaf =>
          if s.links.lock leaf = none then some (s.goto (.checkVersion leaf (s.version leaf)))
          else some s
      | _ => none
  | .checkVersion =>
      match s.scan with
      | .checkVersion leaf version =>
          if s.links.lock leaf = none ∧ s.version leaf = version then
            some (s.goto (.readNext leaf))
          else some (s.goto (.retry leaf))
      | _ => none
  | .readNext enough =>
      match s.scan with
      | .readNext leaf =>
          match s.links.next leaf with
          | some n => if enough then some (s.goto .done) else some (s.goto (.retry n))
          | none => some (s.goto .done)
      | _ => none

/-! ### The steps that do no harm -/

/-- The leaf whose pointer the scan goes on with. -/
def ScanPc.leaf {μ ν : Type} : ScanPc μ ν → Option ν
  | .readRoot | .descend _ | .done => none
  | .redirect x | .retry x | .checkVersion x _ | .readNext x => some x
  | .confirmPrev _ p => some p
  | .confirmNext _ n => some n

/-- The link of `x` does not lead to a leaf that is being relinked; and if `x` is the new leaf
`edge` of a restructuring that has not come to this link yet, it is that of the old leaf. -/
def State.Settled (s : State θ ν) (link : ν → Option ν) (edge : Job ν → ν) (x : ν) : Prop :=
  ∀ t j, (s.pc t).relinking = some j →
    link x ≠ some j.old ∧ (x = edge j → link x = none ∨ link x = link j.old)

/-- The leaf whose pointer the scan reads next in a place that is out of date: in `root_node_` when
the superroot leads elsewhere, or in a model node that has been replaced. -/
def ScanState.staleLeaf (s : ScanState θ μ ν) : Option ν :=
  match s.scan with
  | .readRoot =>
      match s.rootNode with
      | .leaf x => if s.child s.superroot = some (.leaf x) then none else some x
      | .node _ => none
  | .descend m =>
      match s.child m with
      | some (.leaf x) => if s.replaced m then some x else none
      | _ => none
  | _ => none

/-- Nobody replaces the leaf of the scan; a pointer that is out of date does not lead to a leaf that
has been replaced; and the links that the scan reads are settled. -/
def Harmless (s : ScanState θ μ ν) : ScanAction θ μ ν → Prop
  | .publish t _ _ => ∀ j, (s.links.pc t).publishing = some j → s.scan.leaf ≠ some j.old
  | .readRoot | .readChild => ∀ x, s.staleLeaf = some x → x ∈ s.links.tree
  | .redirect .down =>
      ∀ x, s.scan.leaf = some x → s.links.Settled s.links.prev Job.first x
  | .redirect .up | .readNext false =>
      ∀ x, s.scan.leaf = some x → s.links.Settled s.links.next Job.last x
  | _ => True

/-- A scan begins: the model nodes that are in use lead to leaves of the tree. -/
structure ScanState.Begins (s : ScanState θ μ ν) : Prop where
  scan : s.scan = .readRoot
  superroot : s.replaced s.superroot = false
  slots : ∀ m x, s.replaced m = false → s.child m = some (.leaf x) → x ∈ s.links.tree

/-! ### Links of the leaves of the tree -/

variable {s s' : State θ ν} {C : List ν} {t : θ} {x y : ν}

namespace Inv

/-- A leaf of the chain is a leaf of the tree, or is being relinked and its new leaves are. -/
theorem chain_cases (h : Inv s C) (hx : x ∈ C) :
    ((s.pcOf x).relinking = none ∧ x ∈ s.tree) ∨
      ∃ t j, (s.pc t).relinking = some j ∧ x = j.old ∧ s.pcOf x = s.pc t ∧
        ∀ y ∈ j.news, y ∈ s.tree := by
  have hshown : ∀ y ∈ (s.pcOf x).shown x, y ∈ s.tree := by
    intro y hy
    rw [h.tree]
    exact List.mem_flatMap.mpr ⟨x, hx, hy⟩
  cases hre : (s.pcOf x).relinking with
  | none =>
      refine Or.inl ⟨rfl, hshown x ?_⟩
      rw [(Pc.shown_of_relinking_none x hre).1]
      exact List.mem_singleton_self x
  | some j =>
      rcases pcOf_cases s x with hidle | ⟨t, k, _, hk, hxk, hpc⟩
      · rw [hidle] at hre
        cases hre
      · rw [(Pc.shown_of_relinking x hre).1] at hshown
        rw [hpc] at hre
        obtain rfl : j = k := Option.some.inj ((Pc.linking_of_relinking hre).symm.trans hk)
        exact Or.inr ⟨t, j, hre, hxk, hpc, hshown⟩

/-- A leaf of the tree is in the chain, or is one of the new leaves of one that is relinked. -/
theorem tree_cases (h : Inv s C) (hx : x ∈ s.tree) :
    (x ∈ C ∧ (s.pcOf x).relinking = none) ∨
      ∃ t j, (s.pc t).relinking = some j ∧ x ∈ j.news ∧ j.old ∈ C ∧ s.pcOf j.old = s.pc t ∧
        ∀ y ∈ j.news, y ∈ s.tree := by
  rw [h.tree] at hx
  obtain ⟨c, hc, hxc⟩ := List.mem_flatMap.mp hx
  rcases h.chain_cases hc with ⟨hre, _⟩ | ⟨t, j, hre, rfl, hpc, hnews⟩
  · rw [(Pc.shown_of_relinking_none c hre).1, List.mem_singleton] at hxc
    subst hxc
    exact Or.inl ⟨hc, hre⟩
  · rw [hpc, (Pc.shown_of_relinking _ hre).1] at hxc
    exact Or.inr ⟨t, j, hre, hxc, hc, hpc, hnews⟩

/-- The link of the chain to the right leads into the tree, unless to a leaf that is relinked. -/
theorem next_chain_mem (h : Inv s C) {c : ν} (hc : c ∈ C)
    (hy : s.next ((s.pcOf c).nextFrom c) = some y)
    (hsettled : ∀ t j, (s.pc t).relinking = some j → y ≠ j.old) : y ∈ s.tree := by
  rcases exists_follows_of_mem' hc with hlast | ⟨d, hd⟩
  · rw [h.last c hlast] at hy
    cases hy
  · obtain ⟨hlink, _⟩ := h.link c d hd
    obtain rfl : (s.pcOf d).nextTo d = y := Option.some.inj (hlink.symm.trans hy)
    rcases h.chain_cases hd.right_mem with ⟨hre, htree⟩ | ⟨t, j, hre, rfl, hpc, hnews⟩
    · rw [(Pc.shown_of_relinking_none d hre).2.1]
      exact htree
    · rw [hpc]
      rcases (Pc.shown_of_relinking j.old hre).2.1 with hto | hto
      · exact absurd (by rw [hpc, hto]) (hsettled t j hre)
      · rw [hto]
        exact hnews _ j.first_mem

/-- The same for the link to the left. -/
theorem prev_chain_mem (h : Inv s C) {c : ν} (hc : c ∈ C)
    (hy : s.prev ((s.pcOf c).prevFrom c) = some y)
    (hsettled : ∀ t j, (s.pc t).relinking = some j → y ≠ j.old) : y ∈ s.tree := by
  rcases exists_follows_of_mem hc with hhead | ⟨b, hb⟩
  · rw [h.head c hhead] at hy
    cases hy
  · obtain ⟨_, hlink⟩ := h.link b c hb
    obtain rfl : b = y := Option.some.inj (hlink.symm.trans hy)
    rcases h.chain_cases hb.left_mem with ⟨_, htree⟩ | ⟨t, j, hre, hold, _, _⟩
    · exact htree
    · exact absurd hold (hsettled t j hre)

/-- A settled link to the right of a leaf of the tree leads to a leaf of the tree. -/
theorem next_mem (h : Inv s C) (hx : x ∈ s.tree) (hset : s.Settled s.next Job.last x)
    (hy : s.next x = some y) : y ∈ s.tree := by
  have hne : ∀ t j, (s.pc t).relinking = some j → y ≠ j.old := by
    intro t j hre hold
    exact (hset t j hre).1 (hy.trans (congrArg some hold))
  rcases h.tree_cases hx with ⟨hxC, hre⟩ | ⟨t, j, hre, hxj, hold, hpc, hnews⟩
  · refine h.next_chain_mem hxC ?_ hne
    rwa [(Pc.shown_of_relinking_none x hre).2.2.2]
  · rcases exists_follows_of_mem' hxj with hlast | ⟨z, hz⟩
    · obtain rfl : j.last = x := Option.some.inj (j.getLast?_news.symm.trans hlast)
      rcases (hset t j hre).2 rfl with hnone | hcopy
      · rw [hnone] at hy
        cases hy
      · refine h.next_chain_mem hold ?_ hne
        rw [hpc]
        rcases (Pc.shown_of_relinking j.old hre).2.2.2 with hfrom | hfrom
        · rw [hfrom, ← hcopy]
          exact hy
        · rw [hfrom]
          exact hy
    · obtain ⟨hinner, _⟩ :=
        ((h.thread t).news j (Pc.linking_of_relinking hre)).inner x z hz
      obtain rfl : z = y := Option.some.inj (hinner.symm.trans hy)
      exact hnews z hz.right_mem

/-- A settled link to the left of a leaf of the tree leads to a leaf of the tree. -/
theorem prev_mem (h : Inv s C) (hx : x ∈ s.tree) (hset : s.Settled s.prev Job.first x)
    (hy : s.prev x = some y) : y ∈ s.tree := by
  have hne : ∀ t j, (s.pc t).relinking = some j → y ≠ j.old := by
    intro t j hre hold
    exact (hset t j hre).1 (hy.trans (congrArg some hold))
  rcases h.tree_cases hx with ⟨hxC, hre⟩ | ⟨t, j, hre, hxj, hold, hpc, hnews⟩
  · refine h.prev_chain_mem hxC ?_ hne
    rwa [(Pc.shown_of_relinking_none x hre).2.2.1]
  · rcases exists_follows_of_mem hxj with hhead | ⟨z, hz⟩
    · obtain rfl : j.first = x := Option.some.inj hhead
      rcases (hset t j hre).2 rfl with hnone | hcopy
      · rw [hnone] at hy
        cases hy
      · refine h.prev_chain_mem hold ?_ hne
        rw [hpc]
        rcases (Pc.shown_of_relinking j.old hre).2.2.1 with hfrom | hfrom
        · rw [hfrom, ← hcopy]
          exact hy
        · rw [hfrom]
          exact hy
    · obtain ⟨_, hinner⟩ :=
        ((h.thread t).news j (Pc.linking_of_relinking hre)).inner z x hz
      obtain rfl : z = y := Option.some.inj (hinner.symm.trans hy)
      exact hnews z hz.left_mem

end Inv

/-- A step takes no leaf out of the tree but the old one of a thread that publishes. -/
theorem mem_tree_step [DecidableEq θ] {lo hi : ν → ℚ} {act : Action θ ν}
    (hs : step lo hi s act = some s')
    (hx : x ∈ s.tree) (hspared : ∀ t j, act = .move t → s.pc t = .publish j → x ≠ j.old) :
    x ∈ s'.tree := by
  cases act with
  | lockLeaf t y =>
      dsimp only [step] at hs
      split at hs
      · cases hs
        exact hx
      · cases hs
  | unlock t =>
      dsimp only [step] at hs
      split at hs
      · cases hs
        exact hx
      · cases hs
  | build t j =>
      dsimp only [step] at hs
      split at hs
      · cases hs
        exact hx
      · cases hs
  | move t =>
      rcases (move_job hs).2 with htree | ⟨j, hpc, htree⟩
      · rw [htree]
        exact hx
      · rw [htree]
        refine List.mem_flatMap.mpr ⟨x, hx, ?_⟩
        rw [if_neg (hspared t j rfl hpc)]
        exact List.mem_singleton_self x

/-! ### Runs -/

/-- The links are in order; the model nodes in use and the scan lead to leaves of the tree. -/
structure ScanInv (s : ScanState θ μ ν) : Prop where
  links : ∃ C, Inv s.links C
  superroot : s.replaced s.superroot = false
  slots : ∀ m x, s.replaced m = false → s.child m = some (.leaf x) → x ∈ s.links.tree
  leaf : ∀ x, s.scan.leaf = some x → x ∈ s.links.tree

omit [DecidableEq μ] in
/-- A step of the scan to a leaf of the tree. -/
theorem ScanInv.goto {s : ScanState θ μ ν} (h : ScanInv s) {scan : ScanPc μ ν}
    (hleaf : ∀ x, scan.leaf = some x → x ∈ s.links.tree) : ScanInv (s.goto scan) :=
  ⟨h.links, h.superroot, h.slots, hleaf⟩

omit [DecidableEq μ] in
/-- The scan stays at its leaf. -/
theorem ScanInv.stay {s : ScanState θ μ ν} (h : ScanInv s) {scan : ScanPc μ ν}
    (hleaf : scan.leaf = s.scan.leaf) : ScanInv (s.goto scan) :=
  h.goto (fun x hx => h.leaf x (hleaf ▸ hx))

variable [DecidableEq θ]

omit [DecidableEq μ] in
/-- Another thread goes on and writes no parent. -/
theorem ScanInv.pass {lo hi : ν → ℚ} {s : ScanState θ μ ν} {act : Action θ ν} {links : State θ ν}
    (h : ScanInv s) (hs : step lo hi s.links act = some links)
    (hquiet : s.links.published act = none) : ScanInv (s.pass links) := by
  obtain ⟨C, hC⟩ := h.links
  have htree : ∀ x ∈ s.links.tree, x ∈ links.tree := by
    refine fun x hx => mem_tree_step hs hx ?_
    rintro t j rfl hpc
    have hpub : (s.links.pc t).publishing = none := hquiet
    rw [hpc] at hpub
    cases hpub
  exact ⟨hC.step hs, h.superroot, fun m x hm hx => htree x (h.slots m x hm hx),
    fun x hx => htree x (h.leaf x hx)⟩

/-- Another thread writes the parent of a leaf: the slots of the old leaf lead to `c`, which is or
has been made to lead to one of the new leaves. -/
theorem ScanInv.publish {lo hi : ν → ℚ} {s : ScanState θ μ ν} {t : θ} {links : State θ ν}
    {j : Job ν} (h : ScanInv s) (hs : step lo hi s.links (.move t) = some links)
    (hpc : s.links.pc t = .publish j) (hleaf : s.scan.leaf ≠ some j.old) {c : Child μ ν}
    (hc : ∀ x, c = .leaf x → x ∈ j.news) :
    ScanInv ((s.pass links).replaceLeaf j.old c) ∧ ∀ x ∈ j.news, x ∈ links.tree := by
  obtain ⟨C, hC⟩ := h.links
  have hspared : ∀ x ∈ s.links.tree, x ≠ j.old → x ∈ links.tree := by
    refine fun x hx hne => mem_tree_step hs hx ?_
    rintro u k hact hk
    obtain rfl : t = u := Action.move.inj hact
    rwa [Pc.publish.inj (hk.symm.trans hpc)]
  have hnews : ∀ x ∈ j.news, x ∈ links.tree := by
    -- until now the old leaf stands for itself
    obtain ⟨hold, -, hpcOf⟩ := hC.old (t := t) (j := j) (by rw [hpc]; rfl)
    have hmem : j.old ∈ s.links.tree := by
      rcases hC.chain_cases hold with ⟨-, hmem⟩ | ⟨u, k, hre, -, hpcOf', -⟩
      · exact hmem
      · rw [← hpcOf', hpcOf, hpc] at hre
        cases hre
    dsimp only [LeafLinks.step, move] at hs
    rw [hpc] at hs
    cases hs
    exact fun x hx => List.mem_flatMap.mpr ⟨j.old, hmem, by rwa [if_pos rfl]⟩
  refine ⟨⟨hC.step hs, h.superroot, fun m x hm hx => ?_, fun x hx => ?_⟩, hnews⟩
  · change (if s.replaced m = false ∧ s.child m = some (.leaf j.old) then some c
      else s.child m) = some (.leaf x) at hx
    split at hx
    · exact hnews x (hc x (Option.some.inj hx))
    · rename_i hne
      refine hspared x (h.slots m x hm hx) (fun hold => hne ⟨hm, ?_⟩)
      rw [hx, hold]
  · exact hspared x (h.leaf x hx) (fun hold => hleaf (hold ▸ hx))

omit [DecidableEq θ] in
/-- A model node is made that leads to a leaf of the tree or to another model node. -/
theorem ScanInv.makeNode {s : ScanState θ μ ν} (h : ScanInv s) (m : μ) {c : Option (Child μ ν)}
    (hc : ∀ x, c = some (.leaf x) → x ∈ s.links.tree) : ScanInv (s.makeNode m c) := by
  refine ⟨h.links, h.superroot, fun g x hg hx => ?_, h.leaf⟩
  change Function.update s.child m c g = some (.leaf x) at hx
  by_cases hgm : g = m
  · subst hgm
    rw [Function.update_self] at hx
    exact hc x hx
  · rw [Function.update_of_ne hgm] at hx
    exact h.slots g x hg hx

omit [DecidableEq θ] in
/-- The parents of a model node lead to another model node. -/
theorem ScanInv.replaceNode {s : ScanState θ μ ν} (h : ScanInv s) {m : μ} (new : μ)
    (hm : m ≠ s.superroot) : ScanInv (s.replaceNode m new) := by
  refine ⟨h.links, ?_, fun g x hg hx => ?_, h.leaf⟩
  · exact (Function.update_of_ne hm.symm ..).trans h.superroot
  · change Function.update s.replaced m true g = false at hg
    change (if s.replaced g = false ∧ s.child g = some (.node m) then some (.node new)
      else s.child g) = some (.leaf x) at hx
    have hgm : g ≠ m := by
      rintro rfl
      rw [Function.update_self] at hg
      cases hg
    rw [Function.update_of_ne hgm] at hg
    split at hx
    · cases hx
    · exact h.slots g x hg hx

/-- Another thread writes the parent of the leaf that it replaces. -/
theorem ScanInv.writeParent {lo hi : ν → ℚ} {key : ℤ} {s s' : ScanState θ μ ν} {t : θ} {leaf : ν}
    {below : Option μ} (h : ScanInv s) (hok : Harmless s (.publish t leaf below))
    (hs : scanStep lo hi key s (.publish t leaf below) = some s') : ScanInv s' := by
  dsimp only [scanStep] at hs
  cases hpub : (s.links.pc t).publishing with
  | none =>
      rw [hpub] at hs
      cases hs
  | some j =>
      rw [hpub] at hs
      dsimp only at hs
      have hpc := Pc.eq_publish hpub
      split at hs
      · rename_i hleaf
        cases below with
        | none =>
            obtain ⟨links, hlinks, rfl⟩ := Option.map_eq_some_iff.mp hs
            refine (h.publish hlinks hpc (hok j hpub) ?_).1
            exact fun x hx => Child.leaf.inj hx ▸ hleaf
        | some m =>
            dsimp only at hs
            split at hs
            · obtain ⟨links, hlinks, rfl⟩ := Option.map_eq_some_iff.mp hs
              obtain ⟨hinv, hnews⟩ := h.publish hlinks hpc (hok j hpub) (c := .node m)
                (fun x hx => by cases hx)
              refine hinv.makeNode m (fun x hx => ?_)
              exact hnews x (Child.leaf.inj (Option.some.inj hx) ▸ hleaf)
            · cases hs
      · cases hs

/-- The scan reads `root_node_`. -/
theorem ScanInv.readRoot {lo hi : ν → ℚ} {key : ℤ} {s s' : ScanState θ μ ν}
    (h : ScanInv s) (hok : Harmless s .readRoot) (hs : scanStep lo hi key s .readRoot = some s') :
    ScanInv s' := by
  dsimp only [scanStep] at hs
  split at hs
  · rename_i hscan
    cases hroot : s.rootNode with
    | node m =>
        rw [hroot] at hs
        cases hs
        exact h.goto (fun x hx => by cases hx)
    | leaf x =>
        rw [hroot] at hs
        cases hs
        have hx : x ∈ s.links.tree := by
          by_cases hchild : s.child s.superroot = some (.leaf x)
          · exact h.slots _ x h.superroot hchild
          · refine hok x ?_
            unfold ScanState.staleLeaf
            simp only [hscan, hroot, if_neg hchild]
        exact h.goto (fun y hy => Option.some.inj hy ▸ hx)
  · cases hs

/-- The scan reads a child pointer. -/
theorem ScanInv.readChild {lo hi : ν → ℚ} {key : ℤ} {s s' : ScanState θ μ ν}
    (h : ScanInv s) (hok : Harmless s .readChild) (hs : scanStep lo hi key s .readChild = some s') :
    ScanInv s' := by
  dsimp only [scanStep] at hs
  split at hs
  · rename_i m hscan
    split at hs
    · cases hs
      exact h.goto (fun x hx => by cases hx)
    · rename_i x hchild
      cases hs
      have hx : x ∈ s.links.tree := by
        cases hm : s.replaced m with
        | false => exact h.slots m x hm hchild
        | true =>
            refine hok x ?_
            unfold ScanState.staleLeaf
            simp only [hscan, hchild, hm, if_true]
      exact h.goto (fun y hy => Option.some.inj hy ▸ hx)
    · cases hs
  · cases hs

/-- `get_leaf` compares the key with the range of a neighbour. -/
theorem ScanInv.redirect {lo hi : ν → ℚ} {key : ℤ} {s s' : ScanState θ μ ν} {rounding : Rounding}
    (h : ScanInv s) (hok : Harmless s (.redirect rounding))
    (hs : scanStep lo hi key s (.redirect rounding) = some s') : ScanInv s' := by
  obtain ⟨C, hC⟩ := h.links
  dsimp only [scanStep] at hs
  split at hs
  · rename_i leaf hscan
    have hleaf : s.scan.leaf = some leaf := by rw [hscan]; rfl
    cases rounding with
    | clear =>
        cases hs
        exact h.stay hleaf.symm
    | down =>
        cases hprev : s.links.prev leaf with
        | none =>
            rw [hprev] at hs
            cases hs
            exact h.stay hleaf.symm
        | some p =>
            rw [hprev] at hs
            dsimp only at hs
            split at hs
            · cases hs
              have hp := hC.prev_mem (h.leaf leaf hleaf) (hok leaf hleaf) hprev
              exact h.goto (fun x hx => Option.some.inj hx ▸ hp)
            · cases hs
              exact h.stay hleaf.symm
    | up =>
        cases hnext : s.links.next leaf with
        | none =>
            rw [hnext] at hs
            cases hs
            exact h.stay hleaf.symm
        | some n =>
            rw [hnext] at hs
            dsimp only at hs
            split at hs
            · cases hs
              have hn := hC.next_mem (h.leaf leaf hleaf) (hok leaf hleaf) hnext
              exact h.goto (fun x hx => Option.some.inj hx ▸ hn)
            · cases hs
              exact h.stay hleaf.symm
  · cases hs

/-- The scan goes on to the next leaf. -/
theorem ScanInv.readNext {lo hi : ν → ℚ} {key : ℤ} {s s' : ScanState θ μ ν} {enough : Bool}
    (h : ScanInv s) (hok : Harmless s (.readNext enough))
    (hs : scanStep lo hi key s (.readNext enough) = some s') : ScanInv s' := by
  obtain ⟨C, hC⟩ := h.links
  dsimp only [scanStep] at hs
  split at hs
  · rename_i leaf hscan
    have hleaf : s.scan.leaf = some leaf := by rw [hscan]; rfl
    cases hnext : s.links.next leaf with
    | none =>
        rw [hnext] at hs
        cases hs
        exact h.goto (fun x hx => by cases hx)
    | some n =>
        rw [hnext] at hs
        cases enough with
        | true =>
            cases hs
            exact h.goto (fun x hx => by cases hx)
        | false =>
            cases hs
            have hn := hC.next_mem (h.leaf leaf hleaf) (hok leaf hleaf) hnext
            exact h.goto (fun x hx => Option.some.inj hx ▸ hn)
  · cases hs

theorem ScanInv.step {lo hi : ν → ℚ} {key : ℤ} {s s' : ScanState θ μ ν} {act : ScanAction θ μ ν}
    (h : ScanInv s) (hok : Harmless s act) (hs : scanStep lo hi key s act = some s') :
    ScanInv s' := by
  cases act with
  | other act =>
      dsimp only [scanStep] at hs
      split at hs
      · rename_i hquiet
        obtain ⟨links, hlinks, rfl⟩ := Option.map_eq_some_iff.mp hs
        exact h.pass hlinks hquiet
      · cases hs
  | publish t leaf below => exact h.writeParent hok hs
  | expandParent m new =>
      dsimp only [scanStep] at hs
      split at hs
      · rename_i hcond
        cases hs
        refine (h.replaceNode new hcond.1).makeNode new (fun x hx => ?_)
        exact h.slots m x hcond.2.1 hx
      · cases hs
  | writeRoot =>
      obtain ⟨c, -, rfl⟩ := Option.map_eq_some_iff.mp hs
      exact ⟨h.links, h.superroot, h.slots, h.leaf⟩
  | readRoot => exact h.readRoot hok hs
  | readChild => exact h.readChild hok hs
  | redirect rounding => exact h.redirect hok hs
  | confirm =>
      dsimp only [scanStep] at hs
      split at hs
      · rename_i leaf p hscan
        split at hs
        · cases hs
          exact h.stay (by rw [hscan]; rfl)
        · cases hs
      · rename_i leaf n hscan
        split at hs
        · cases hs
          exact h.stay (by rw [hscan]; rfl)
        · cases hs
      · cases hs
  | testLock =>
      dsimp only [scanStep] at hs
      split at hs
      · rename_i leaf hscan
        split at hs
        · cases hs
          exact h.stay (by rw [hscan]; rfl)
        · cases hs
          exact h
      · cases hs
  | checkVersion =>
      dsimp only [scanStep] at hs
      split at hs
      · rename_i leaf version hscan
        split at hs <;> cases hs <;> exact h.stay (by rw [hscan]; rfl)
      · cases hs
  | readNext enough => exact h.readNext hok hs

/-- **A scan waits for leaves of the tree only.**  While nobody replaces the leaf whose pointer the
scan holds and the scan reads pointers that are up to date, the leaf that it tests at `RETRY` is a
leaf of the tree. -/
theorem retry_of_run {lo hi : ν → ℚ} {key : ℤ} {a b : ℚ} {s₀ s : ScanState θ μ ν}
    (h0 : Initial lo hi a b s₀.links) (hstart : s₀.Begins)
    (hrun : Run (scanStep lo hi key) Harmless s₀ s) :
    ∀ x, s.scan = .retry x → x ∈ s.links.tree := by
  have hinv : ScanInv s := by
    refine hrun.invariant (I := ScanInv) ⟨⟨_, h0.inv⟩, hstart.superroot, hstart.slots, ?_⟩
      (fun _ _ _ h hok hs => h.step hok hs)
    rw [hstart.scan]
    intro x hx
    cases hx
  intro x hx
  exact hinv.leaf x (by rw [hx]; rfl)

/-! ### A replaced leaf -/

/-- The leaf has left the tree and is not about to come into it. -/
structure State.Replaced (s : State θ ν) (x : ν) : Prop where
  allocated : s.allocated x = true
  tree : x ∉ s.tree
  publishing : ∀ t j, (s.pc t).publishing = some j → x ∉ j.news

omit [DecidableEq θ] in
theorem Inv.lock_of_replaced (h : Inv s C) (hx : s.Replaced x) : s.lock x ≠ none := by
  intro hfree
  rcases h.chain_cases (h.free x hx.allocated hfree) with ⟨_, htree⟩ | ⟨t, j, hre, rfl, _, _⟩
  · exact hx.tree htree
  · obtain ⟨_, hlock, _⟩ := h.old (Pc.linking_of_relinking hre)
    rw [hfree] at hlock
    cases hlock

omit [DecidableEq ν] in
/-- Only the thread that moves can come to change a parent next. -/
theorem publishing_goto {s₁ : State θ ν} {u : θ} {pc : Pc ν} {j : Job ν} (hs₁ : s₁.pc = s.pc)
    (hj : ((s₁.goto t pc).pc u).publishing = some j) :
    pc.publishing = some j ∨ (s.pc u).publishing = some j := by
  have hpc : (s₁.goto t pc).pc = Function.update s₁.pc t pc := rfl
  rw [hpc, hs₁] at hj
  by_cases hut : u = t
  · subst hut
    rw [Function.update_self] at hj
    exact Or.inl hj
  · rw [Function.update_of_ne hut] at hj
    exact Or.inr hj

/-- A step of a restructuring makes no leaves and begins no other one. -/
theorem move_frame (hs : move s t = some s') : s'.allocated = s.allocated ∧
    ∀ u j, (s'.pc u).publishing = some j → (s.pc u).publishing = some j := by
  have hgoto : ∀ {s₁ : State θ ν} {pc : Pc ν}, s₁.pc = s.pc → pc.publishing = none →
      ∀ u j, ((s₁.goto t pc).pc u).publishing = some j → (s.pc u).publishing = some j := by
    intro s₁ pc hs₁ hpc u j hj
    rcases publishing_goto hs₁ hj with hnew | hold
    · rw [hpc] at hnew
      cases hnew
    · exact hold
  have hlink : ∀ j : Job ν, j.afterLink.publishing = none := by
    intro j
    unfold Job.afterLink
    cases j.kind <;> rfl
  have hrelease : ∀ j : Job ν, j.afterRelease.publishing = none := by
    intro j
    unfold Job.afterRelease
    cases j.kind <;> rfl
  unfold move at hs
  cases hpc : s.pc t with
  | unlockLeaves l =>
      rw [hpc] at hs
      cases l <;> cases hs <;> exact ⟨rfl, hgoto rfl rfl⟩
  | _ =>
      rw [hpc] at hs
      dsimp only at hs
      repeat' split at hs
      all_goals cases hs
      all_goals refine ⟨rfl, hgoto rfl ?_⟩
      all_goals first | rfl | exact hlink _ | exact hrelease _

theorem State.Replaced.step {lo hi : ν → ℚ} {act : Action θ ν} (h : s.Replaced x)
    (hs : LeafLinks.step lo hi s act = some s') : s'.Replaced x := by
  have hgoto : ∀ {s₁ : State θ ν} {t : θ} {pc : Pc ν}, s₁.pc = s.pc → s₁.tree = s.tree →
      s₁.allocated x = true → (∀ j, pc.publishing = some j → x ∉ j.news) →
      (s₁.goto t pc).Replaced x := by
    intro s₁ t pc hs₁ htree halloc hpc
    refine ⟨halloc, fun hmem => h.tree (htree ▸ hmem), fun u j hj => ?_⟩
    exact (publishing_goto hs₁ hj).elim (hpc j) (h.publishing u j)
  cases act with
  | lockLeaf t y =>
      dsimp only [LeafLinks.step] at hs
      split at hs
      · cases hs
        exact hgoto rfl rfl h.allocated (fun _ hj => by cases hj)
      · cases hs
  | unlock t =>
      dsimp only [LeafLinks.step] at hs
      split at hs
      · cases hs
        exact hgoto rfl rfl h.allocated (fun _ hj => by cases hj)
      · cases hs
  | build t j =>
      dsimp only [LeafLinks.step] at hs
      split at hs
      · rename_i hcond
        cases hs
        have hfresh : x ∉ j.news := by
          intro hx
          have hfalse := hcond.2.2.1 x hx
          rw [h.allocated] at hfalse
          cases hfalse
        refine hgoto rfl rfl ?_ (fun k hk => Option.some.inj hk ▸ hfresh)
        exact (if_neg hfresh).trans h.allocated
      · cases hs
  | move t =>
      obtain ⟨halloc, hpub⟩ := move_frame hs
      refine ⟨by rw [halloc]; exact h.allocated, ?_, fun u j hj => h.publishing u j (hpub u j hj)⟩
      rcases (move_job hs).2 with htree | ⟨j, hpc, htree⟩
      · rw [htree]
        exact h.tree
      · rw [htree]
        intro hx
        obtain ⟨c, hc, hxc⟩ := List.mem_flatMap.mp hx
        split at hxc
        · exact h.publishing t j (by rw [hpc]; rfl) hxc
        · rw [List.mem_singleton] at hxc
          exact h.tree (hxc ▸ hc)

/-- A scan that waits for a replaced leaf waits for ever. -/
theorem retry_forever {lo hi : ν → ℚ} {key : ℤ} {s s' : ScanState θ μ ν} (hC : ∃ C, Inv s.links C)
    (hx : s.links.Replaced x) (hscan : s.scan = .retry x)
    (hrun : Run (scanStep lo hi key) Any s s') : s'.scan = .retry x := by
  refine (hrun.invariant
    (I := fun s => (∃ C, Inv s.links C) ∧ s.links.Replaced x ∧ s.scan = .retry x)
    ⟨hC, hx, hscan⟩ ?_).2.2
  rintro s act s' ⟨⟨C, hC⟩, hx, hscan⟩ - hs
  cases act with
  | other act =>
      dsimp only [scanStep] at hs
      split at hs
      · obtain ⟨links, hlinks, rfl⟩ := Option.map_eq_some_iff.mp hs
        exact ⟨hC.step hlinks, hx.step hlinks, hscan⟩
      · cases hs
  | publish t leaf below =>
      dsimp only [scanStep] at hs
      split at hs
      · split at hs
        · cases below with
          | none =>
              obtain ⟨links, hlinks, rfl⟩ := Option.map_eq_some_iff.mp hs
              exact ⟨hC.step hlinks, hx.step hlinks, hscan⟩
          | some m =>
              dsimp only at hs
              split at hs
              · obtain ⟨links, hlinks, rfl⟩ := Option.map_eq_some_iff.mp hs
                exact ⟨hC.step hlinks, hx.step hlinks, hscan⟩
              · cases hs
        · cases hs
      · cases hs
  | expandParent m new =>
      dsimp only [scanStep] at hs
      split at hs
      · cases hs
        exact ⟨⟨C, hC⟩, hx, hscan⟩
      · cases hs
  | writeRoot =>
      obtain ⟨c, -, rfl⟩ := Option.map_eq_some_iff.mp hs
      exact ⟨⟨C, hC⟩, hx, hscan⟩
  | testLock =>
      dsimp only [scanStep] at hs
      rw [hscan] at hs
      dsimp only at hs
      rw [if_neg (hC.lock_of_replaced hx)] at hs
      cases hs
      exact ⟨⟨C, hC⟩, hx, hscan⟩
  | _ =>
      dsimp only [scanStep] at hs
      rw [hscan] at hs
      cases hs

/-! ### Two leaves -/

section
variable [Fintype θ]

instance Settled.decidable (s : State θ ν) (link : ν → Option ν) (edge : Job ν → ν) (x : ν) :
    Decidable (s.Settled link edge x) :=
  decidable_of_iff (∀ t, ∀ j ∈ (s.pc t).relinking,
    link x ≠ some j.old ∧ (x = edge j → link x = none ∨ link x = link j.old)) Iff.rfl

instance Harmless.decidable (s : ScanState θ μ ν) : ∀ act, Decidable (Harmless s act)
  | .publish t _ _ =>
      decidable_of_iff (∀ j ∈ (s.links.pc t).publishing, s.scan.leaf ≠ some j.old) Iff.rfl
  | .readRoot | .readChild =>
      decidable_of_iff (∀ x ∈ s.staleLeaf, x ∈ s.links.tree) Iff.rfl
  | .redirect .down =>
      decidable_of_iff (∀ x ∈ s.scan.leaf, s.links.Settled s.links.prev Job.first x) Iff.rfl
  | .redirect .up | .readNext false =>
      decidable_of_iff (∀ x ∈ s.scan.leaf, s.links.Settled s.links.next Job.last x) Iff.rfl
  | .other _ | .expandParent _ _ | .writeRoot | .redirect .clear | .confirm | .testLock
  | .checkVersion | .readNext true => isTrue trivial

end

/-- Below the superroot a root leads to the leaf `x`. -/
def keySlots (x m : ℕ) : Option (Child ℕ ℕ) :=
  if m = 0 then some (.node 1) else if m = 1 then some (.leaf x) else none

/-- A scan of the two leaves begins. -/
def twoLeavesScan (x : ℕ) : ScanState (Fin 2) ℕ ℕ where
  links := twoLeaves
  version _ := 0
  child := keySlots x
  replaced _ := false
  superroot := 0
  rootNode := .node 1
  scan := .readRoot

theorem twoLeavesScan_begins {x : ℕ} (hx : x ∈ twoLeaves.tree) : (twoLeavesScan x).Begins := by
  refine ⟨rfl, rfl, fun m y _ hy => ?_⟩
  change keySlots x m = some (.leaf y) at hy
  unfold keySlots at hy
  split at hy
  · cases hy
  · split at hy
    · cases hy
      exact hx
    · cases hy

theorem retry_of_splitNeighbour :
    ∃ s, Run (scanStep twoLeavesLo twoLeavesHi 0) Harmless (twoLeavesScan 0) s ∧
      s.scan = .retry 3 ∧ 3 ∈ s.links.tree := by
  -- a thread splits the right leaf and has written the link to the new leaf when the scan reads it
  have hend :
    (exec (fun s a => if Harmless s a then scanStep twoLeavesLo twoLeavesHi 0 s a else none)
      (twoLeavesScan 0) ([.readRoot, .readChild, .redirect .clear, .other (.lockLeaf 0 1),
        .other (.build 0 ⟨.split, 1, 3, [4]⟩), .publish 0 3 none] ++
        List.replicate 4 (.other (.move 0)) ++ [.testLock, .checkVersion, .readNext false])).map
        (fun s => s.scan) = some (.retry 3) := by
    decide +kernel
  obtain ⟨s, hs, hscan⟩ := Option.map_eq_some_iff.mp hend
  have hrun := run_of_exec_allowed hs
  exact ⟨s, hrun, hscan,
    retry_of_run twoLeaves_initial (twoLeavesScan_begins (by decide)) hrun 3 hscan⟩

/-- The left leaf is replaced between the descent and the first test, or the right one before the
link to it is read, or the right one and its parent before the pointer in the parent is read. -/
theorem retry_of_replacedLeaf :
    (∃ s, Run (scanStep twoLeavesLo twoLeavesHi 0) Any (twoLeavesScan 0) s ∧
      s.scan = .retry 0 ∧ 0 ∉ s.links.tree ∧ s.links.lock 0 ≠ none) ∧
    (∃ s, Run (scanStep twoLeavesLo twoLeavesHi 0) Any (twoLeavesScan 0) s ∧
      s.scan = .retry 1 ∧ 1 ∉ s.links.tree ∧ s.links.lock 1 ≠ none) ∧
    ∃ s, Run (scanStep twoLeavesLo twoLeavesHi 1) Any (twoLeavesScan 1) s ∧
      s.scan = .retry 1 ∧ 1 ∉ s.links.tree ∧ s.links.lock 1 ≠ none := by
  have hrun : ∀ {key : ℤ} {y : ℕ} {l : List (ScanAction (Fin 2) ℕ ℕ)} {x : ℕ},
      (exec (scanStep twoLeavesLo twoLeavesHi key) (twoLeavesScan y) l).map (fun s =>
        (s.scan, decide (x ∈ s.links.tree), s.links.lock x)) = some (.retry x, false, some 0) →
      ∃ s, Run (scanStep twoLeavesLo twoLeavesHi key) Any (twoLeavesScan y) s ∧
        s.scan = .retry x ∧ x ∉ s.links.tree ∧ s.links.lock x ≠ none := by
    intro key y l x hend
    obtain ⟨s, hs, htuple⟩ := Option.map_eq_some_iff.mp hend
    obtain ⟨hscan, htree, hlock⟩ : s.scan = .retry x ∧ x ∉ s.links.tree ∧
        s.links.lock x = some 0 := by
      simpa using htuple
    exact ⟨s, run_of_exec hs (fun _ _ => trivial), hscan, htree, by rw [hlock]; simp⟩
  refine ⟨hrun (l := [.readRoot, .readChild, .redirect .clear, .other (.lockLeaf 0 0),
      .other (.build 0 ⟨.resize, 0, 2, []⟩), .publish 0 2 none]) (by decide +kernel),
    hrun (l := [.readRoot, .readChild, .redirect .clear, .testLock, .checkVersion,
      .other (.lockLeaf 0 1), .other (.build 0 ⟨.split, 1, 3, [4]⟩), .publish 0 3 none,
      .readNext false]) (by decide +kernel),
    hrun (l := [.readRoot, .other (.lockLeaf 0 1), .other (.build 0 ⟨.split, 1, 3, [4]⟩),
      .expandParent 1 2, .publish 0 3 none, .readChild, .redirect .clear]) (by decide +kernel)⟩

end LearnedIndex.Alexol.LeafLinks
