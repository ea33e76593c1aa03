import LearnedIndex.Btreeolc.Versions

/-! # One access of a thread

`Advanced` is what one access does for the thread that takes it and for the others: the tree stays a
tree, the thread knows what it has to know at its next place, it writes only nodes that it has
locked, and the map either stays as it is or changes by the operation of the thread, which then has
its answer.

`advance_spec` proves it for every place of the code, and that the access is possible: the addresses
are allocated, and the assertions of the two `insert` functions hold. -/

namespace LearnedIndex.Btreeolc

open Machine

variable {K V : Type} [LinearOrder K]

/-- The map stays as it is, or the operation takes effect and has its answer. -/
def Effect (h : Heap K V) (pc : Pc K V) (h' : Heap K V) (pc' : Pc K V) : Prop :=
  ∀ f, h.Represents f → pc'.phase = pc.phase ∧ h'.Represents f ∨
    ∃ op left, pc.phase = .pending op ∧ pc'.phase = .answered (op.apply left f).1 ∧
      h'.Represents (op.apply left f).2

/-- A thread goes from `pc` to `pc'` and takes the heap `h` to `h'`. -/
structure Advanced (h : Heap K V) (range : ℕ → Range K) (pc : Pc K V) (h' : Heap K V)
    (range' : ℕ → Range K) (pc' : Pc K V) : Prop where
  tree : ∃ par', h'.Tree range' par'
  fact : pc'.Fact h' range'
  moves : Moves (· ∈ pc.owned) h h' range range'
  gains : ∀ n ∈ pc'.owned, n ∈ pc.owned ∨ isLocked (h.word n) = false
  locks : ∀ n, (h'.pages n).isSome → isLocked (h'.word n) = true →
    n ∈ pc'.owned ∨ (h.pages n).isSome ∧ isLocked (h.word n) = true ∧ n ∉ pc.owned
  effect : Effect h pc h' pc'

section step
variable {h : Heap K V} {range : ℕ → Range K} {par : ℕ → ℕ} {pc pc' : Pc K V}

/-! ### Kinds of accesses -/

theorem Heap.Tree.setWord (ht : h.Tree range par) (n : ℕ) (word : BitVec 64) :
    (h.setWord n word).Tree range par :=
  ⟨ht.fits, ht.apart, ht.parent, ht.root, ht.alloc⟩

theorem Pc.Fact.locked (hf : pc.Fact h range) : ∀ n ∈ pc.owned, isLocked (h.word n) = true := by
  intro n hn
  obtain ⟨_, _, hl, -⟩ := hf.owned n hn
  exact hl

/-- An access that only reads. -/
theorem Advanced.read (ht : h.Tree range par) (hf : pc.Fact h range) (hf' : pc'.Fact h range)
    (howned : pc'.owned = pc.owned) (heffect : Effect h pc h pc') :
    Advanced h range pc h range pc' where
  tree := ⟨par, ht⟩
  fact := hf'
  moves := ⟨hf.locked, fun _ _ hn _ => ⟨hn, rfl⟩, fun _ page hn => ⟨page, hn, rfl⟩,
    fun _ _ => Or.inl rfl, fun _ _ _ _ => rfl, fun _ => rfl⟩
  gains := fun n hn => Or.inl (howned ▸ hn)
  locks := fun n hn hl => by
    by_cases hmem : n ∈ pc.owned
    · exact Or.inl (howned ▸ hmem)
    · exact Or.inr ⟨hn, hl, hmem⟩
  effect := heffect

theorem Effect.same (hphase : pc'.phase = pc.phase) : Effect h pc h pc' :=
  fun _ hf => Or.inl ⟨hphase, hf⟩

/-- A node is locked. -/
theorem Advanced.lock (ht : h.Tree range par) (hf : pc.Fact h range) {n : ℕ}
    (hn : (h.pages n).isSome) (hopen : isLocked (h.word n) = false)
    (hwrap : (h.word n).toNat + 2 < 2 ^ 64)
    (hf' : Moves (· ∈ pc.owned) h (h.setWord n (h.word n + 0b10#64)) range range →
      pc'.Fact (h.setWord n (h.word n + 0b10#64)) range)
    (howned : pc'.owned = n :: pc.owned) (hphase : pc'.phase = pc.phase) :
    Advanced h range pc (h.setWord n (h.word n + 0b10#64)) range pc' := by
  have hmoves : Moves (· ∈ pc.owned) h (h.setWord n (h.word n + 0b10#64)) range range := by
    refine ⟨hf.locked, fun _ _ hm _ => ⟨hm, rfl⟩, fun _ page hm => ⟨page, hm, rfl⟩, fun m _ => ?_,
      fun m _ _ hl => ?_, fun _ => rfl⟩
    · by_cases hmn : m = n
      · subst hmn
        right
        rw [Heap.setWord_word, Function.update_self, toNat_add_two hwrap]
        omega
      · left
        rw [Heap.setWord_word, Function.update_of_ne hmn]
    · have hmn : m ≠ n := by
        rintro rfl
        rw [hopen] at hl
        cases hl
      rw [Heap.setWord_word, Function.update_of_ne hmn]
  refine ⟨⟨par, ht.setWord n _⟩, hf' hmoves, hmoves, fun m hm => ?_, fun m hm hl => ?_,
    fun f hrep => Or.inl ⟨hphase, hrep⟩⟩
  · rw [howned] at hm
    rcases List.mem_cons.mp hm with rfl | hm
    · exact Or.inr hopen
    · exact Or.inl hm
  · rw [howned]
    by_cases hmn : m = n
    · exact Or.inl (hmn ▸ List.mem_cons_self ..)
    · by_cases hmem : m ∈ pc.owned
      · exact Or.inl (List.mem_cons_of_mem n hmem)
      · rw [Heap.setWord_word, Function.update_of_ne hmn] at hl
        exact Or.inr ⟨hm, hl, hmem⟩

/-- A node is unlocked. -/
theorem Advanced.unlock (ht : h.Tree range par) (hf : pc.Fact h range) {n : ℕ}
    (hwrap : (h.word n).toNat + 2 < 2 ^ 64)
    (hf' : pc'.Fact (h.setWord n (h.word n + 0b10#64)) range)
    (howned : pc.owned = n :: pc'.owned) (hphase : pc'.phase = pc.phase) :
    Advanced h range pc (h.setWord n (h.word n + 0b10#64)) range pc' := by
  have hmem : n ∈ pc.owned := by
    rw [howned]
    exact List.mem_cons_self ..
  refine ⟨⟨par, ht.setWord n _⟩, hf', ?_, fun m hm => ?_, fun m hm hl => ?_,
    fun f hrep => Or.inl ⟨hphase, hrep⟩⟩
  · refine ⟨hf.locked, fun _ _ hm _ => ⟨hm, rfl⟩, fun _ page hm => ⟨page, hm, rfl⟩, fun m _ => ?_,
      fun m _ hO _ => ?_, fun _ => rfl⟩
    · by_cases hmn : m = n
      · subst hmn
        right
        rw [Heap.setWord_word, Function.update_self, toNat_add_two hwrap]
        omega
      · left
        rw [Heap.setWord_word, Function.update_of_ne hmn]
    · have hmn : m ≠ n := fun hmn => hO (hmn ▸ hmem)
      rw [Heap.setWord_word, Function.update_of_ne hmn]
  · left
    rw [howned]
    exact List.mem_cons_of_mem n hm
  · by_cases hmn : m = n
    · -- the lock is open now
      subst hmn
      rw [Heap.setWord_word, Function.update_self, isLocked_add, hf.locked m hmem] at hl
      cases hl
    · rw [Heap.setWord_word, Function.update_of_ne hmn] at hl
      by_cases hm' : m ∈ pc'.owned
      · exact Or.inl hm'
      · refine Or.inr ⟨hm, hl, fun hO => hm' ?_⟩
        rw [howned] at hO
        exact (List.mem_cons.mp hO).resolve_left hmn

/-- What a split of a locked node below a locked parent does to the heap. -/
structure SplitEffect (O : ℕ → Prop) (h h' : Heap K V) (range range' : ℕ → Range K) : Prop where
  tree : ∃ par', h'.Tree range' par'
  moves : Moves O h h' range range'
  words : ∀ m, (h.pages m).isSome → h'.word m = h.word m
  locks : ∀ m, (h'.pages m).isSome → isLocked (h'.word m) = true → (h.pages m).isSome
  represents : ∀ f, h.Represents f → h'.Represents f

theorem Heap.Tree.split (ht : h.Tree range par) {parent : Option ℕ} {n : ℕ} {k : K}
    (hparent : parent.elim (n = h.root) (fun p => p ≠ n ∧ Owned h range p (fun page r =>
      Edge k n page r ∧ page.isFull = false)))
    (hnode : Owned h range n (fun page _ => page.isFull = true)) :
    ∃ h' range', h.split parent n = some h' ∧
      SplitEffect (· ∈ n :: parent.toList) h h' range range' := by
  obtain ⟨page, hn, hlocked, hfull⟩ := hnode
  obtain ⟨sep, left, right, hsplit, hp⟩ := (ht.fits n page hn).split hfull h.nextAddr
  have hself : n ∉ page.children := by
    intro hc
    cases parent with
    | none => exact (ht.parent n page n hn hc).2 hparent
    | some p =>
        obtain ⟨hpn, pagep, hpp, -, ⟨-, node, rfl, hget⟩, -⟩ := hparent
        have h1 := (ht.parent p _ n hpp (List.mem_of_getElem? hget)).1
        exact hpn (h1.symm.trans (ht.parent n page n hn hc).1)
  have hh := ht.halfway hn hself hp
  obtain ⟨h₁, hh₁⟩ : ∃ h₁, h₁ = (h.write n left).new right := ⟨_, rfl⟩
  rw [← hh₁] at hh
  have hnext : h₁.nextAddr = h.nextAddr + 1 := by rw [hh₁]; rfl
  have hroot₁ : h₁.root = h.root := by rw [hh₁]; rfl
  have hlt : ∀ m, (h.pages m).isSome → m ≠ h.nextAddr ∧ m ≠ h₁.nextAddr := fun m hm => by
    have := (ht.alloc m).mp hm
    omega
  have hword : ∀ m, m ≠ h.nextAddr → h₁.word m = h.word m := fun m hm => by
    rw [hh₁, Heap.new_word, Heap.write_nextAddr, Function.update_of_ne hm, Heap.write_word]
  have hnewWord : isLocked (h₁.word h.nextAddr) = false := by
    rw [hh₁, Heap.new_word, Heap.write_nextAddr, Function.update_self]
    decide
  have hpn₁ : h₁.pages n = some left := by
    rw [hh₁, Heap.new_pages, Heap.write_nextAddr, Heap.write_pages,
      Function.update_of_ne (hlt n (by rw [hn]; rfl)).1, Function.update_self]
  have halloc : ∀ m, (h₁.pages m).isSome → m ≠ h.nextAddr → (h.pages m).isSome := fun m hm hma => by
    rw [ht.alloc]
    have := (hh.alloc m).mp hm
    omega
  cases parent with
  | none =>
      obtain rfl : n = h.root := hparent
      obtain ⟨h', hh'⟩ : ∃ h', h' = h₁.makeRoot sep h.root h.nextAddr := ⟨_, rfl⟩
      have hrest : ∀ m, (h.pages m).isSome → h'.pages m = h₁.pages m ∧ h'.word m = h.word m := by
        intro m hm
        rw [hh', Heap.makeRoot_pages, Heap.makeRoot_word, Function.update_of_ne (hlt m hm).2,
          Function.update_of_ne (hlt m hm).2, hword m (hlt m hm).1]
        exact ⟨rfl, rfl⟩
      refine ⟨h', _, ?_, ⟨_, hh' ▸ ht.linkRoot hh hnext⟩, ?_, fun m hm => (hrest m hm).2,
        fun m hm hl => ?_, fun f hf => ?_⟩
      · rw [Heap.split, hn, hh', hh₁]
        simp only [Option.bind_eq_bind, Option.bind_some, hsplit]
      · refine ⟨fun m hm => ?_, fun m pg hm hO => ?_, fun m pg hm => ?_, fun m hm =>
          Or.inl (hrest m hm).2, fun m hm _ _ => (hrest m hm).2, fun hO => ?_⟩
        · obtain rfl : m = h.root := by simpa using hm
          exact hlocked
        · have hmn : m ≠ h.root := by simpa using hO
          have hsome : (h.pages m).isSome := by rw [hm]; rfl
          rw [(hrest m hsome).1, (hh.other m hmn (hlt m hsome).1).1,
            Function.update_of_ne (hlt m hsome).2]
          exact ⟨hm, (hh.other m hmn (hlt m hsome).1).2⟩
        · have hsome : (h.pages m).isSome := by rw [hm]; rfl
          rw [(hrest m hsome).1]
          by_cases hmn : m = h.root
          · subst hmn
            obtain rfl := Option.some.inj (hn.symm.trans hm)
            exact ⟨left, hpn₁, hp.isLeaf.1⟩
          · exact ⟨pg, ((hh.other m hmn (hlt m hsome).1).1).trans hm, rfl⟩
        · exact absurd (List.mem_cons_self ..) hO
      · by_cases hmb : m = h₁.nextAddr
        · subst hmb
          rw [hh', Heap.makeRoot_word, Function.update_self] at hl
          exact absurd hl (by decide)
        · rw [hh', Heap.makeRoot_pages, Function.update_of_ne hmb] at hm
          rw [hh', Heap.makeRoot_word, Function.update_of_ne hmb] at hl
          refine halloc m hm ?_
          rintro rfl
          rw [hnewWord] at hl
          cases hl
      · refine hf.of_stored (fun e => ?_)
        rw [← hh.stored e, hh']
        refine Heap.stored_update (h₁.makeRoot_pages sep h.root h.nextAddr) (fun pg hpg => ?_) e
        have := (hh.alloc h₁.nextAddr).mp (by rw [hpg]; rfl)
        omega
  | some p =>
      obtain ⟨hpn, pagep, hpp, hplocked, ⟨hk, node, rfl, hget⟩, hroom⟩ := hparent
      have hpsome : (h.pages p).isSome := by rw [hpp]; rfl
      have hpp₁ : h₁.pages p = some (.inner node) :=
        (hh.other p hpn (hlt p hpsome).1).1.trans hpp
      have hroom' : node.keys.length < innerMax - 1 := by
        have hne : node.keys.length ≠ innerMax - 1 := by
          simpa [Page.isFull, BTreeInner.isFull] using hroom
        have hle := (ht.fits p _ hpp).1.2
        omega
      obtain ⟨h', hh'⟩ : ∃ h', h' = h₁.write p (.inner (node.insert sep h.nextAddr)) := ⟨_, rfl⟩
      have hrest : ∀ m, m ≠ p → h'.pages m = h₁.pages m := fun m hm => by
        rw [hh', Heap.write_pages, Function.update_of_ne hm]
      have hpself : h'.pages p = some (.inner (node.insert sep h.nextAddr)) := by
        rw [hh', Heap.write_pages, Function.update_self]
      have hword' : ∀ m, (h.pages m).isSome → h'.word m = h.word m := fun m hm => by
        rw [hh', Heap.write_word, hword m (hlt m hm).1]
      refine ⟨h', _, ?_, ⟨_, hh' ▸ ht.linkChild hh hroot₁ hnext hpp hpn hk hget hroom'⟩, ?_, hword',
        fun m hm hl => ?_, fun f hf => ?_⟩
      · rw [Heap.split, hn, hh']
        simp only [Option.bind_eq_bind, Option.bind_some, hsplit, ← hh₁, hpp₁, if_pos hroom']
      · refine ⟨fun m hm => ?_, fun m pg hm hO => ?_, fun m pg hm => ?_, fun m hm =>
          Or.inl (hword' m hm), fun m hm _ _ => hword' m hm, fun _ => ?_⟩
        · have hm : m = n ∨ m = p := by simpa using hm
          rcases hm with rfl | rfl
          · exact hlocked
          · exact hplocked
        · have hO : m ≠ n ∧ m ≠ p := by simpa using hO
          have hma := (hlt m (by rw [hm]; rfl)).1
          rw [hrest m hO.2, (hh.other m hO.1 hma).1]
          exact ⟨hm, (hh.other m hO.1 hma).2⟩
        · by_cases hmp : m = p
          · subst hmp
            obtain rfl := Option.some.inj (hpp.symm.trans hm)
            exact ⟨_, hpself, rfl⟩
          · rw [hrest m hmp]
            by_cases hmn : m = n
            · subst hmn
              obtain rfl := Option.some.inj (hn.symm.trans hm)
              exact ⟨left, hpn₁, hp.isLeaf.1⟩
            · exact ⟨pg, ((hh.other m hmn (hlt m (by rw [hm]; rfl)).1).1).trans hm, rfl⟩
        · rw [hh', Heap.write_root, hroot₁]
      · by_cases hmp : m = p
        · exact hmp ▸ hpsome
        · rw [hrest m hmp] at hm
          rw [hh', Heap.write_word] at hl
          refine halloc m hm ?_
          rintro rfl
          rw [hnewWord] at hl
          cases hl
      · refine hf.of_stored (fun e => ?_)
        rw [← hh.stored e, hh']
        refine Heap.stored_update (h₁.write_pages p _) (fun pg hpg => ?_) e
        obtain rfl := Option.some.inj (hpp₁.symm.trans hpg)
        rfl

end step

/-! ### The places of the code -/

/-- The thread can take its next access, which does what it should. -/
def Advances (junk : K) (h : Heap K V) (range : ℕ → Range K) (pc : Pc K V) : Prop :=
  ∀ torn : Torn V, ∃ h' range' pc', advance junk h torn pc = some (h', pc') ∧
    Advanced h range pc h' range' pc'

section places
variable {junk : K} {h : Heap K V} {range : ℕ → Range K} {par : ℕ → ℕ} {op : Op K V} {k : K} {v : V}
  {node : ℕ} {version : BitVec 64}

/-- While the parent has not changed, the key belongs to the node. -/
theorem Under.inRange {parent : Versioned} (hu : Under h range op parent node)
    (ht : h.Tree range par) (hc : h.word parent.1 = parent.2) : InRange (range node) op.key := by
  obtain ⟨page, hp, ⟨hk, inner, rfl, hget⟩, -⟩ := hu.1.current hc
  obtain ⟨c, hget', -, hrange⟩ := ht.route hp hk
  obtain rfl : c = node := Option.some.inj (hget'.symm.trans hget)
  exact hrange

/-- What is read in a node belongs to what is known of it. -/
theorem Reached.read {parent : Option Versioned} {Q : Page K V → Prop} {page : Page K V}
    (hr : Reached h range op parent node version Q) (hn : h.pages node = some page)
    (Q' : Page K V → Prop) (hread : h.word node = version → Q' page) :
    Reached h range op parent node version Q' := by
  have hmove : ∀ {P P' : Page K V → Range K → Prop}, When h range node version P →
      (∀ r, Q' page → P page r → P' page r) → When h range node version P' := by
    rintro P P' ⟨page', hn', hv, hle, hp⟩ hPP
    obtain rfl := Option.some.inj (hn.symm.trans hn')
    exact ⟨page, hn, hv, hle, fun hc => hPP _ (hread hc) (hp hc)⟩
  cases parent with
  | none =>
      rw [Reached] at hr ⊢
      exact hmove hr (fun r hq hp => ⟨hp.1, hq⟩)
  | some parent => exact ⟨hr.1, hmove hr.2 (fun r hq _ => hq)⟩

theorem Reached.isSome {parent : Option Versioned} {Q : Page K V → Prop}
    (hr : Reached h range op parent node version Q) : (h.pages node).isSome := by
  cases parent with
  | none =>
      rw [Reached] at hr
      exact hr.isSome
  | some parent => exact hr.2.isSome

theorem Reached.when {parent : Option Versioned} {Q : Page K V → Prop}
    (hr : Reached h range op parent node version Q) :
    When h range node version (fun page _ => Q page) := by
  cases parent with
  | none =>
      rw [Reached] at hr
      exact hr.mono (fun _ _ hq => hq.2)
  | some parent => exact hr.2

/-- The parent is checked after the node was read. -/
theorem Reached.checked {parent : Versioned} {Q : Page K V → Prop}
    (hr : Reached h range op (some parent) node version Q) (ht : h.Tree range par)
    (hc : h.word parent.1 = parent.2) : Reached h range op none node version Q := by
  obtain ⟨hu, page, hn, hv, hle, hq⟩ := hr
  exact ⟨page, hn, hv, hle, fun hcur => ⟨hu.inRange ht hc, hq hcur⟩⟩

theorem advances_start (ht : h.Tree range par) : Advances junk h range (.start op) :=
  fun _ => ⟨h, range, _, rfl, .read ht trivial ht.root.1 rfl (.same rfl)⟩

theorem advances_readLock (ht : h.Tree range par) (hf : (Pc.readLock op node).Fact h range) :
    Advances junk h range (.readLock op node) := by
  intro torn
  have hn : (h.pages node).isSome := hf
  by_cases hopen : (isLocked (h.word node) || isObsolete (h.word node)) = true
  · refine ⟨h, range, .start op, ?_, .read ht hf trivial rfl (.same rfl)⟩
    rw [advance, Heap.readLockOrRestart_eq hn, if_pos hopen]
    rfl
  · refine ⟨h, range, .checkRoot op node (h.word node), ?_, .read ht hf ?_ rfl (.same rfl)⟩
    · rw [advance, Heap.readLockOrRestart_eq hn, if_neg hopen]
      rfl
    · have hboth : isLocked (h.word node) = false ∧ isObsolete (h.word node) = false := by
        simpa using hopen
      rw [Pc.Fact]
      exact When.of_word hn hboth.1

theorem advances_checkRoot (ht : h.Tree range par)
    (hf : (Pc.checkRoot op node version).Fact h range) :
    Advances junk h range (.checkRoot op node version) := by
  intro torn
  by_cases hroot : node = h.root
  · refine ⟨h, range, .visit op none node version, by rw [advance, if_pos hroot],
      .read ht hf ?_ rfl (.same rfl)⟩
    rw [Pc.Fact] at hf
    obtain ⟨page, hn, hv, hle, -⟩ := hf
    -- the root stands for all keys
    refine ⟨page, hn, hv, hle, fun _ => ⟨?_, trivial⟩⟩
    rw [hroot, ht.root.2]
    exact ⟨fun _ hlow => (by cases hlow), fun _ hhigh => (by cases hhigh)⟩
  · exact ⟨h, range, .start op, by rw [advance, if_neg hroot], .read ht hf trivial rfl (.same rfl)⟩

/-! ### The descent -/

theorem advances_visit_insert (ht : h.Tree range par) {parent : Option Versioned}
    (hf : (Pc.visit (.insert k v) parent node version).Fact h range) :
    Advances junk h range (.visit (.insert k v) parent node version) := by
  intro torn
  have hr : Reached h range (.insert k v) parent node version (fun _ => True) := hf
  obtain ⟨page, hn⟩ := Option.isSome_iff_exists.mp hr.isSome
  obtain ⟨full, hfull⟩ : ∃ full, full = if h.word node = version then page.isFull else torn.full :=
    ⟨_, rfl⟩
  have hexact : h.word node = version → page.isFull = full := fun hc => by rw [hfull, if_pos hc]
  cases full with
  | true =>
      have hr' := hr.read hn (fun page => page.isFull = true) hexact
      cases parent with
      | none =>
          refine ⟨h, range, .lockNode k v none node version, ?_,
            .read ht hf ⟨nofun, hr'.when⟩ rfl (.same rfl)⟩
          simp only [advance, hn, Option.bind_eq_bind, Option.bind_some, ← hfull, if_true,
            Option.elim_none]
      | some parent =>
          refine ⟨h, range, .lockParent k v parent node version, ?_,
            .read ht hf ⟨hr.1, hr'.when⟩ rfl (.same rfl)⟩
          simp only [advance, hn, Option.bind_eq_bind, Option.bind_some, ← hfull, if_true,
            Option.elim_some]
  | false =>
      have hr' := hr.read hn (Room (.insert k v)) (fun hc _ _ _ => hexact hc)
      cases page with
      | leaf leaf =>
          refine ⟨h, range, .lockLeaf k v parent node version, ?_,
            .read ht hf ⟨hr', _, hn, rfl⟩ rfl (.same rfl)⟩
          simp only [advance, hn, Option.bind_eq_bind, Option.bind_some, ← hfull,
            Bool.false_eq_true, if_false]
      | inner inner =>
          cases parent with
          | none =>
              refine ⟨h, range, .readChild (.insert k v) node version, ?_,
                .read ht hf ⟨hr', _, hn, rfl⟩ rfl (.same rfl)⟩
              simp only [advance, hn, Option.bind_eq_bind, Option.bind_some, ← hfull,
                Bool.false_eq_true, if_false, Option.elim_none]
          | some parent =>
              refine ⟨h, range, .checkParent (.insert k v) parent node version, ?_,
                .read ht hf ⟨hr', _, hn, rfl⟩ rfl (.same rfl)⟩
              simp only [advance, hn, Option.bind_eq_bind, Option.bind_some, ← hfull,
                Bool.false_eq_true, if_false, Option.elim_some]

theorem advances_visit_lookup (ht : h.Tree range par) {parent : Option Versioned}
    (hf : (Pc.visit (.lookup k : Op K V) parent node version).Fact h range) :
    Advances junk h range (.visit (.lookup k) parent node version) := by
  intro torn
  have hr : Reached h range (.lookup k) parent node version (fun _ => True) := hf
  obtain ⟨page, hn⟩ := Option.isSome_iff_exists.mp hr.isSome
  cases page with
  | inner inner =>
      have hr' := hr.read hn (Room (.lookup k)) (fun _ => nofun)
      cases parent with
      | none =>
          refine ⟨h, range, .readChild (.lookup k) node version, ?_,
            .read ht hf ⟨hr', _, hn, rfl⟩ rfl (.same rfl)⟩
          simp only [advance, hn, Option.bind_eq_bind, Option.bind_some, Option.elim_none]
      | some parent =>
          refine ⟨h, range, .checkParent (.lookup k) parent node version, ?_,
            .read ht hf ⟨hr', _, hn, rfl⟩ rfl (.same rfl)⟩
          simp only [advance, hn, Option.bind_eq_bind, Option.bind_some, Option.elim_some]
  | leaf leaf =>
      obtain ⟨result, hresult⟩ : ∃ result, result =
        if h.word node = version then leaf.read junk k else torn.result := ⟨_, rfl⟩
      have hsorted : (leaf.data.map Prod.fst).Pairwise (· < ·) := (ht.fits node _ hn).sorted
      have hr' := hr.read hn (Reads k result) (fun hc => ⟨leaf, rfl, by
        rw [hresult, if_pos hc, BTreeLeaf.read_eq hsorted]⟩)
      cases parent with
      | none =>
          refine ⟨h, range, .lookupCheckNode k node version result, ?_,
            .read ht hf hr' rfl (.same rfl)⟩
          simp only [advance, hn, Option.bind_eq_bind, Option.bind_some, ← hresult,
            Option.elim_none]
      | some parent =>
          refine ⟨h, range, .lookupCheckParent k parent node version result, ?_,
            .read ht hf hr' rfl (.same rfl)⟩
          simp only [advance, hn, Option.bind_eq_bind, Option.bind_some, ← hresult,
            Option.elim_some]

theorem advances_checkParent (ht : h.Tree range par) {parent : Versioned}
    (hf : (Pc.checkParent op parent node version).Fact h range) :
    Advances junk h range (.checkParent op parent node version) := by
  intro torn
  have hcheck := Heap.check_eq hf.1.1.1.isSome parent.2
  by_cases hc : h.word parent.1 = parent.2
  · refine ⟨h, range, .readChild op node version, ?_,
      .read ht hf ⟨hf.1.checked ht hc, hf.2⟩ rfl (.same rfl)⟩
    rw [advance, hcheck, decide_eq_true hc]
    rfl
  · refine ⟨h, range, .start op, ?_, .read ht hf trivial rfl (.same rfl)⟩
    rw [advance, hcheck, decide_eq_false hc]
    rfl

theorem advances_readChild (ht : h.Tree range par)
    (hf : (Pc.readChild op node version).Fact h range) :
    Advances junk h range (.readChild op node version) := by
  intro torn
  have hf' := hf
  obtain ⟨⟨page, hn, hv, hle, hq⟩, page', hn', hinner⟩ := hf'
  obtain rfl := Option.some.inj (hn.symm.trans hn')
  cases page with
  | leaf leaf => cases hinner
  | inner inner =>
      by_cases hc : h.word node = version
      · obtain ⟨child, hget, -, -⟩ := ht.route hn (hq hc).1
        refine ⟨h, range, .checkNode op node version child, ?_,
          .read ht hf ⟨_, hn, hv, hle, fun hc => ⟨⟨(hq hc).1, inner, rfl, hget⟩, (hq hc).2⟩⟩ rfl
            (.same rfl)⟩
        simp only [advance, hn, Option.bind_eq_bind, Option.bind_some, if_pos hc, hget]
      · refine ⟨h, range, .checkNode op node version torn.child, ?_,
          .read ht hf ⟨_, hn, hv, hle, fun hc' => absurd hc' hc⟩ rfl (.same rfl)⟩
        simp only [advance, hn, Option.bind_eq_bind, Option.bind_some, if_neg hc]

theorem advances_checkNode (ht : h.Tree range par) {child : ℕ}
    (hf : (Pc.checkNode op node version child).Fact h range) :
    Advances junk h range (.checkNode op node version child) := by
  intro torn
  have hw : When h range node version (fun page r => Edge op.key child page r ∧ Room op page) := hf
  have hcheck := Heap.check_eq hw.isSome version
  by_cases hc : h.word node = version
  · obtain ⟨page, hn, ⟨-, inner, rfl, hget⟩, -⟩ := hw.current hc
    refine ⟨h, range, .enter op (node, version) child, ?_, .read ht hf
      ⟨hw, ht.isSome_of_child hn (List.mem_of_getElem? hget)⟩ rfl (.same rfl)⟩
    rw [advance, hcheck, decide_eq_true hc]
    rfl
  · refine ⟨h, range, .start op, ?_, .read ht hf trivial rfl (.same rfl)⟩
    rw [advance, hcheck, decide_eq_false hc]
    rfl

theorem advances_enter (ht : h.Tree range par) {parent : Versioned}
    (hf : (Pc.enter op parent node).Fact h range) :
    Advances junk h range (.enter op parent node) := by
  intro torn
  have hn : (h.pages node).isSome := hf.2
  by_cases hopen : (isLocked (h.word node) || isObsolete (h.word node)) = true
  · refine ⟨h, range, .start op, ?_, .read ht hf trivial rfl (.same rfl)⟩
    rw [advance, Heap.readLockOrRestart_eq hn, if_pos hopen]
    rfl
  · have hboth : isLocked (h.word node) = false ∧ isObsolete (h.word node) = false := by
      simpa using hopen
    refine ⟨h, range, .visit op (some parent) node (h.word node), ?_,
      .read ht hf ⟨hf, When.of_word hn hboth.1⟩ rfl (.same rfl)⟩
    rw [advance, Heap.readLockOrRestart_eq hn, if_neg hopen]
    rfl

/-! ### Locks -/

variable (hwrap : ∀ n, (h.pages n).isSome → (h.word n).toNat + 2 < 2 ^ 64)
include hwrap

theorem advances_lockParent (ht : h.Tree range par) {parent : Versioned}
    (hf : (Pc.lockParent k v parent node version).Fact h range) :
    Advances junk h range (.lockParent k v parent node version) := by
  intro torn
  have hsome : (h.pages parent.1).isSome := hf.1.1.isSome
  have hupgrade := Heap.upgradeToWriteLockOrRestart_eq hsome parent.2
  by_cases hc : h.word parent.1 = parent.2
  · refine ⟨h.setWord parent.1 (h.word parent.1 + 0b10#64), range,
      .lockNode k v (some parent.1) node version, ?_,
      .lock ht hf hsome (hf.1.1.isOpen hc) (hwrap _ hsome) (fun hm => ⟨?_, hf.2.frame hm⟩) rfl rfl⟩
    · rw [advance, hupgrade, if_pos hc, hc]
      rfl
    · intro p hp
      obtain rfl := Option.some.inj hp
      exact (hf.1.1.lock hc).mono (fun page r hq => ⟨hq.1, hq.2 k v rfl⟩)
  · refine ⟨h, range, .start (.insert k v), ?_, .read ht hf trivial rfl (.same rfl)⟩
    rw [advance, hupgrade, if_neg hc]
    rfl

theorem advances_lockNode (ht : h.Tree range par) {parent : Option ℕ}
    (hf : (Pc.lockNode k v parent node version).Fact h range) :
    Advances junk h range (.lockNode k v parent node version) := by
  intro torn
  have hsome : (h.pages node).isSome := hf.2.isSome
  have hupgrade := Heap.upgradeToWriteLockOrRestart_eq hsome version
  by_cases hc : h.word node = version
  · cases parent with
    | none =>
        refine ⟨h.setWord node (h.word node + 0b10#64), range, .recheckRoot k v node, ?_,
          .lock ht hf hsome (hf.2.isOpen hc) (hwrap _ hsome) (fun _ => hf.2.lock hc) rfl rfl⟩
        rw [advance, hupgrade, if_pos hc, hc]
        rfl
    | some p =>
        have hp := hf.1 p rfl
        have hne : p ≠ node := by
          rintro rfl
          obtain ⟨_, _, hl, -⟩ := hp
          rw [hf.2.isOpen hc] at hl
          cases hl
        refine ⟨h.setWord node (h.word node + 0b10#64), range, .split k v (some p) node, ?_,
          .lock ht hf hsome (hf.2.isOpen hc) (hwrap _ hsome)
            (fun _ => ⟨⟨hne, hp.setWord hne _⟩, hf.2.lock hc⟩) rfl rfl⟩
        rw [advance, hupgrade, if_pos hc, hc]
        rfl
  · cases parent with
    | none =>
        refine ⟨h, range, .start (.insert k v), ?_, .read ht hf trivial rfl (.same rfl)⟩
        rw [advance, hupgrade, if_neg hc]
        rfl
    | some p =>
        refine ⟨h, range, .unlockParent k v p, ?_,
          .read ht hf ((hf.1 p rfl).mono (fun _ _ _ => trivial)) rfl (.same rfl)⟩
        rw [advance, hupgrade, if_neg hc]
        rfl

theorem advances_unlockNode (ht : h.Tree range par) {parent : Option ℕ}
    (hf : (Pc.unlockNode k v parent node).Fact h range) :
    Advances junk h range (.unlockNode k v parent node) := by
  intro torn
  have hsome : (h.pages node).isSome := hf.2.isSome
  have hunlock := Heap.writeUnlock_eq hsome
  cases parent with
  | none =>
      refine ⟨h.setWord node (h.word node + 0b10#64), range, .start (.insert k v), ?_,
        .unlock ht hf (hwrap _ hsome) trivial rfl rfl⟩
      rw [advance, hunlock]
      rfl
  | some p =>
      obtain ⟨hne, hp⟩ := hf.1 p rfl
      refine ⟨h.setWord node (h.word node + 0b10#64), range, .unlockParent k v p, ?_,
        .unlock ht hf (hwrap _ hsome) (hp.setWord hne _) rfl rfl⟩
      rw [advance, hunlock]
      rfl

theorem advances_unlockParent (ht : h.Tree range par) {parent : ℕ}
    (hf : (Pc.unlockParent k v parent).Fact h range) :
    Advances junk h range (.unlockParent k v parent) := by
  intro torn
  have ho : Owned h range parent (fun _ _ => True) := hf
  have hsome : (h.pages parent).isSome := ho.isSome
  refine ⟨h.setWord parent (h.word parent + 0b10#64), range, .start (.insert k v), ?_,
    .unlock ht hf (hwrap _ hsome) trivial rfl rfl⟩
  rw [advance, Heap.writeUnlock_eq hsome]
  rfl

theorem advances_leafUnlock (ht : h.Tree range par) {ret : Bool}
    (hf : (Pc.leafUnlock node ret : Pc K V).Fact h range) :
    Advances junk h range (.leafUnlock node ret) := by
  intro torn
  have ho : Owned h range node (fun _ _ => True) := hf
  have hsome : (h.pages node).isSome := ho.isSome
  refine ⟨h.setWord node (h.word node + 0b10#64), range, .done (.inserted ret), ?_,
    .unlock ht hf (hwrap _ hsome) trivial rfl rfl⟩
  rw [advance, Heap.writeUnlock_eq hsome]
  rfl

theorem advances_lockLeaf (ht : h.Tree range par) {parent : Option Versioned}
    (hf : (Pc.lockLeaf k v parent node version).Fact h range) :
    Advances junk h range (.lockLeaf k v parent node version) := by
  intro torn
  obtain ⟨hr, page, hn, hleaf⟩ := id hf
  have hsome : (h.pages node).isSome := hr.isSome
  have hw := (hr.read hn (fun page => page.isLeaf = true ∧ page.isFull = false) (fun hc => by
    obtain ⟨page', hn', hroom⟩ := hr.when.current hc
    obtain rfl := Option.some.inj (hn.symm.trans hn')
    exact ⟨hleaf, hroom k v rfl⟩))
  have hupgrade := Heap.upgradeToWriteLockOrRestart_eq hsome version
  by_cases hc : h.word node = version
  · cases parent with
    | none =>
        rw [Reached] at hw
        refine ⟨h.setWord node (h.word node + 0b10#64), range, .leafInsert k v node, ?_,
          .lock ht hf hsome (hw.isOpen hc) (hwrap _ hsome) (fun _ => hw.lock hc) rfl rfl⟩
        rw [advance, hupgrade, if_pos hc, hc]
        rfl
    | some parent =>
        refine ⟨h.setWord node (h.word node + 0b10#64), range, .leafCheckParent k v parent node, ?_,
          .lock ht hf hsome (hw.2.isOpen hc) (hwrap _ hsome)
            (fun hm => ⟨hr.1.frame hm, hw.2.lock hc⟩) rfl rfl⟩
        rw [advance, hupgrade, if_pos hc, hc]
        rfl
  · refine ⟨h, range, .start (.insert k v), ?_, .read ht hf trivial rfl (.same rfl)⟩
    rw [advance, hupgrade, if_neg hc]
    rfl

omit hwrap

/-! ### Writes and checks under a lock -/

theorem advances_recheckRoot (ht : h.Tree range par)
    (hf : (Pc.recheckRoot k v node).Fact h range) :
    Advances junk h range (.recheckRoot k v node) := by
  intro torn
  by_cases hroot : node = h.root
  · exact ⟨h, range, .split k v none node, by rw [advance, if_pos hroot],
      .read ht hf ⟨hroot, hf⟩ rfl (.same rfl)⟩
  · refine ⟨h, range, .unlockNode k v none node, by rw [advance, if_neg hroot],
      .read ht hf ⟨nofun, ?_⟩ rfl (.same rfl)⟩
    rw [Pc.Fact] at hf
    exact hf.mono (fun _ _ _ => trivial)

theorem advances_split (ht : h.Tree range par) {parent : Option ℕ}
    (hf : (Pc.split k v parent node).Fact h range) :
    Advances junk h range (.split k v parent node) := by
  intro torn
  obtain ⟨h', range', hsplit, hs⟩ := ht.split hf.1 hf.2
  refine ⟨h', range', .unlockNode k v parent node, ?_, hs.tree, ?_, hs.moves,
    fun n hn => Or.inl hn, fun n hn hl => ?_, fun f hrep => Or.inl ⟨rfl, hs.represents f hrep⟩⟩
  · rw [advance, hsplit]
    rfl
  · -- the locked nodes stay locked
    have hown : ∀ n, Owned h range n (fun _ _ => True) → Owned h' range' n (fun _ _ => True) := by
      rintro n ⟨page, hn, hl, -⟩
      obtain ⟨page', hn', -⟩ := hs.moves.kind n page hn
      exact ⟨page', hn', by rwa [hs.words n (by rw [hn]; rfl)], trivial⟩
    refine ⟨fun p hp => ?_, hown node (hf.2.mono (fun _ _ _ => trivial))⟩
    subst hp
    exact ⟨hf.1.1, hown p (hf.1.2.mono (fun _ _ _ => trivial))⟩
  · have hsome := hs.locks n hn hl
    by_cases hmem : n ∈ node :: parent.toList
    · exact Or.inl hmem
    · exact Or.inr ⟨hsome, by rwa [← hs.words n hsome], hmem⟩

theorem advances_leafCheckParent (ht : h.Tree range par) {parent : Versioned}
    (hf : (Pc.leafCheckParent k v parent node).Fact h range) :
    Advances junk h range (.leafCheckParent k v parent node) := by
  intro torn
  have hcheck := Heap.check_eq hf.1.1.isSome parent.2
  by_cases hc : h.word parent.1 = parent.2
  · refine ⟨h, range, .leafInsert k v node, ?_, .read ht hf ?_ rfl (.same rfl)⟩
    · rw [advance, hcheck, decide_eq_true hc]
      rfl
    · obtain ⟨page, hn, hl, hq⟩ := hf.2
      exact ⟨page, hn, hl, hf.1.inRange ht hc, hq⟩
  · refine ⟨h, range, .unlockNode k v none node, ?_,
      .read ht hf ⟨nofun, hf.2.mono (fun _ _ _ => trivial)⟩ rfl (.same rfl)⟩
    rw [advance, hcheck, decide_eq_false hc]
    rfl

/-- The insertion takes effect when the leaf is written. -/
theorem advances_leafInsert (ht : h.Tree range par) (hf : (Pc.leafInsert k v node).Fact h range) :
    Advances junk h range (.leafInsert k v node) := by
  intro torn
  have hlocked := Pc.Fact.locked hf
  obtain ⟨page, hn, hl, hk, hleaf, hfull⟩ := hf
  cases page with
  | inner inner => cases hleaf
  | leaf leaf =>
      have hroom : leaf.data.length < leafMax := by
        have hne : leaf.data.length ≠ leafMax := by
          simpa [Page.isFull, BTreeLeaf.isFull] using hfull
        have hle : leaf.data.length ≤ leafMax := (ht.fits node _ hn).count
        omega
      obtain ⟨ht', heffect⟩ := ht.insertLeaf v torn.leftover hn hk hfull
      obtain ⟨h', hh'⟩ : ∃ h', h' = h.write node (.leaf (leaf.insert k v).2) := ⟨_, rfl⟩
      rw [← hh'] at ht' heffect
      have hself : h'.pages node = some (.leaf (leaf.insert k v).2) := by
        rw [hh', Heap.write_pages, Function.update_self]
      have hrest : ∀ m, m ≠ node → h'.pages m = h.pages m := fun m hm => by
        rw [hh', Heap.write_pages, Function.update_of_ne hm]
      have hword : h'.word = h.word := by rw [hh', Heap.write_word]
      have hsome : ∀ m, (h'.pages m).isSome → (h.pages m).isSome := fun m hm => by
        by_cases hmn : m = node
        · rw [hmn, hn]
          rfl
        · rwa [hrest m hmn] at hm
      refine ⟨h', range, .leafUnlock node (leaf.insert k v).1, ?_, ⟨par, ht'⟩, ?_, ?_,
        fun n hn => Or.inl hn, fun n hn' hl' => ?_, fun f hrep =>
        Or.inr ⟨.insert k v, torn.leftover, rfl, ?_, ?_⟩⟩
      · simp only [advance, hn, Option.bind_eq_bind, Option.bind_some, if_pos hroom, hh']
      · exact ⟨_, hself, by rwa [hword], trivial⟩
      · refine ⟨hlocked, fun m pg hm hO => ⟨?_, rfl⟩, fun m pg hm => ?_, fun m _ =>
          Or.inl (by rw [hword]), fun m _ _ _ => by rw [hword],
            fun _ => by rw [hh', Heap.write_root]⟩
        · rw [hrest m (fun hmn => hO (hmn ▸ List.mem_singleton.mpr rfl))]
          exact hm
        · by_cases hmn : m = node
          · subst hmn
            obtain rfl := Option.some.inj (hn.symm.trans hm)
            exact ⟨_, hself, rfl⟩
          · exact ⟨pg, (hrest m hmn).trans hm, rfl⟩
      · by_cases hmem : n ∈ [node]
        · exact Or.inl hmem
        · exact Or.inr ⟨hsome n hn', by rwa [hword] at hl', hmem⟩
      · rw [(heffect f hrep).1]
        rfl
      · exact (heffect f hrep).2

theorem advances_lookupCheckParent (ht : h.Tree range par) {parent : Versioned} {result : Option V}
    (hf : (Pc.lookupCheckParent k parent node version result).Fact h range) :
    Advances junk h range (.lookupCheckParent k parent node version result) := by
  intro torn
  have hr : Reached h range (.lookup k) (some parent) node version (Reads k result) := hf
  have hcheck := Heap.check_eq hr.1.1.isSome parent.2
  by_cases hc : h.word parent.1 = parent.2
  · refine ⟨h, range, .lookupCheckNode k node version result, ?_,
      .read ht hf (hr.checked ht hc) rfl (.same rfl)⟩
    rw [advance, hcheck, decide_eq_true hc]
    rfl
  · refine ⟨h, range, .start (.lookup k), ?_, .read ht hf trivial rfl (.same rfl)⟩
    rw [advance, hcheck, decide_eq_false hc]
    rfl

/-- The last check of `lookup` is where it takes effect. -/
theorem advances_lookupCheckNode (ht : h.Tree range par) {result : Option V}
    (hf : (Pc.lookupCheckNode k node version result).Fact h range) :
    Advances junk h range (.lookupCheckNode k node version result) := by
  intro torn
  have hr : Reached h range (.lookup k) none node version (Reads k result) := hf
  have hcheck := Heap.check_eq hr.isSome version
  by_cases hc : h.word node = version
  · refine ⟨h, range, .done (torn.leftover.answer result), ?_,
      .read ht hf trivial rfl (fun f hrep => ?_)⟩
    · rw [advance, hcheck, decide_eq_true hc]
      rfl
    · rw [Reached] at hr
      obtain ⟨page, hn, hk, leaf, rfl, rfl⟩ := hr.current hc
      refine Or.inr ⟨.lookup k, torn.leftover, rfl, ?_, hrep⟩
      rw [Op.apply, hrep.lookup_eq ht hn (k := k) hk]
      rfl
  · refine ⟨h, range, .start (.lookup k), ?_, .read ht hf trivial rfl (.same rfl)⟩
    rw [advance, hcheck, decide_eq_false hc]
    rfl

end places

/-- Every access inside an operation is possible, and it does what it should. -/
theorem advance_spec (junk : K) {h : Heap K V} {range : ℕ → Range K} {par : ℕ → ℕ} {pc : Pc K V}
    (ht : h.Tree range par) (hf : pc.Fact h range)
    (hwrap : ∀ n, (h.pages n).isSome → (h.word n).toNat + 2 < 2 ^ 64) (hidle : pc ≠ .idle)
    (hdone : ∀ ans, pc ≠ .done ans) : Advances junk h range pc := by
  cases pc with
  | idle => exact absurd rfl hidle
  | start op => exact advances_start ht
  | readLock op node => exact advances_readLock ht hf
  | checkRoot op node version => exact advances_checkRoot ht hf
  | visit op parent node version =>
      cases op with
      | insert k v => exact advances_visit_insert ht hf
      | lookup k => exact advances_visit_lookup ht hf
  | checkParent op parent node version => exact advances_checkParent ht hf
  | readChild op node version => exact advances_readChild ht hf
  | checkNode op node version child => exact advances_checkNode ht hf
  | enter op parent node => exact advances_enter ht hf
  | lockParent k v parent node version => exact advances_lockParent hwrap ht hf
  | lockNode k v parent node version => exact advances_lockNode hwrap ht hf
  | recheckRoot k v node => exact advances_recheckRoot ht hf
  | split k v parent node => exact advances_split ht hf
  | unlockNode k v parent node => exact advances_unlockNode hwrap ht hf
  | unlockParent k v parent => exact advances_unlockParent hwrap ht hf
  | lockLeaf k v parent node version => exact advances_lockLeaf hwrap ht hf
  | leafCheckParent k v parent node => exact advances_leafCheckParent ht hf
  | leafInsert k v node => exact advances_leafInsert ht hf
  | leafUnlock node ret => exact advances_leafUnlock hwrap ht hf
  | lookupCheckParent k parent node version result => exact advances_lookupCheckParent ht hf
  | lookupCheckNode k node version result => exact advances_lookupCheckNode ht hf
  | done ans => exact absurd rfl (hdone ans)

end LearnedIndex.Btreeolc
