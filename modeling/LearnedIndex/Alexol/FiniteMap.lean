import LearnedIndex.Alexol.BulkLoad
import LearnedIndex.Lib.Runs

/-! # The index as a finite map

A bulk load makes the map of its array (`mapOf`), and every point operation changes the map and
answers from it (`MapCall.onMap`).  The calls of one thread do the same as long as each of them is
allowed (`Index.allows`): an insert does not expand the root, does not replace a root leaf by
another leaf, and the lock of a leaf that is written is not at its last version
(`calls_behave_as_map`).  The first key of a new index replaces the root leaf, after which no lookup
returns (`not_calls_behave_as_map`). -/

namespace LearnedIndex.Alexol

open LearnedIndex.Runs FanoutTree

variable {M P : Type} [NodeModel M]

/-! ### The map -/

/-- A call of a point operation. -/
inductive MapCall (P : Type) where
  | insert (key : ℤ) (payload : P)
  | update (key : ℤ) (payload : P)
  | erase (key : ℤ)
  | getPayload (key : ℤ)

/-- What a call returns. -/
inductive MapAnswer (P : Type) where
  | inserted (answer : Bool)
  | updated (answer : Bool)
  | erased (numErased : ℕ)
  | payload (found : Option P)

namespace MapCall

def key : MapCall P → ℤ
  | .insert key _ => key
  | .update key _ => key
  | .erase key => key
  | .getPayload key => key

/-- The answer that a map gives to a call, and the map after it. -/
def onMap (f : ℤ → Option P) : MapCall P → MapAnswer P × (ℤ → Option P)
  | .insert key payload => (.inserted (f key).isNone,
      if (f key).isNone then Function.update f key (some payload) else f)
  | .update key payload => (.updated (f key).isSome,
      if (f key).isSome then Function.update f key (some payload) else f)
  | .erase key => (.erased (if (f key).isSome then 1 else 0), Function.update f key none)
  | .getPayload key => (.payload (f key), f)

end MapCall

/-- The answers of a map to a sequence of calls. -/
def answersOfMap : (ℤ → Option P) → List (MapCall P) → List (MapAnswer P)
  | _, [] => []
  | f, c :: calls => (c.onMap f).1 :: answersOfMap (c.onMap f).2 calls

/-- The map of an array of pairs. -/
def mapOf (values : List (ℤ × P)) (key : ℤ) : Option P :=
  (Runs.lookup Prod.fst values key).map Prod.snd

theorem mapOf_eq_some {values : List (ℤ × P)} (hs : Run Prod.fst values) {key : ℤ} {p : P} :
    mapOf values key = some p ↔ (key, p) ∈ values := by
  unfold mapOf
  rw [Option.map_eq_some_iff]
  constructor
  · rintro ⟨x, hx, rfl⟩
    rw [← key_of_lookup hx]
    exact mem_of_lookup hx
  · intro hmem
    exact ⟨(key, p), hs.lookup_eq_some hmem, rfl⟩

/-! ### The calls -/

namespace Index

/-- One call of a thread; an insert is retried a bounded number of times. -/
def call (C : Params M P) (retries : ℕ) (s : Index M P) :
    MapCall P → Option (MapAnswer P × Index M P)
  | .insert key payload => (insert C retries s key payload).map (fun r => (.inserted r.1, r.2))
  | .update key payload => (s.update key payload).map (fun r => (.updated r.1, r.2))
  | .erase key => (s.erase C.T key).map (fun r => (.erased r.1, r.2))
  | .getPayload key => (s.getPayload key).map (fun r => (.payload r.1, r.2))

/-- The calls of a sequence, one after another. -/
def runCalls (C : Params M P) (retries : ℕ) (s : Index M P) :
    List (MapCall P) → Option (List (MapAnswer P) × Index M P)
  | [] => some ([], s)
  | c :: calls => do
      let (answer, s) ← s.call C retries c
      let (answers, s) ← s.runCalls C retries calls
      some (answer :: answers, s)

/-- The conditions under which a call works. -/
def allows (C : Params M P) (s : Index M P) : MapCall P → Bool
  | .insert key payload => s.insertable C key payload
  | .update key _ => s.releasable key
  | .erase key => s.releasable key
  | .getPayload _ => true

/-- Every call of a sequence is allowed where it is made. -/
def allowsAll (C : Params M P) (retries : ℕ) (s : Index M P) : List (MapCall P) → Bool
  | [] => true
  | c :: calls => s.allows C c &&
      (s.call C retries c).all (fun r => r.2.allowsAll C retries calls)

end Index

namespace Index.Content

variable {C : Params M P} {s : Index M P} {f : ℤ → Option P}

/-- One call. -/
theorem call (h : s.Content C.T f) {c : MapCall P} (hkey : c.key < C.T.max)
    (hok : s.allows C c = true) (retries : ℕ) :
    ∃ s', s.call C (retries + 1) c = some ((c.onMap f).1, s') ∧ s'.Content C.T (c.onMap f).2 := by
  cases c with
  | insert key payload =>
      obtain ⟨s', hrun, hc⟩ := h.insert hkey hok retries
      exact ⟨s', congrArg (Option.map _) hrun, hc⟩
  | update key payload =>
      obtain ⟨s', hrun, hc⟩ := h.update hkey hok payload
      exact ⟨s', congrArg (Option.map _) hrun, hc⟩
  | erase key =>
      obtain ⟨s', hrun, hc⟩ := h.erase hok
      exact ⟨s', congrArg (Option.map _) hrun, hc⟩
  | getPayload key =>
      obtain ⟨s', hrun, hc⟩ := h.getPayload hkey
      exact ⟨s', congrArg (Option.map _) hrun, hc⟩

/-- All calls of a sequence. -/
theorem runCalls (retries : ℕ) : ∀ (calls : List (MapCall P)) {s : Index M P} {f : ℤ → Option P},
    s.Content C.T f → (∀ c ∈ calls, c.key < C.T.max) →
    s.allowsAll C (retries + 1) calls = true →
    ∃ s', s.runCalls C (retries + 1) calls = some (answersOfMap f calls, s')
  | [], s, _, _, _, _ => ⟨s, rfl⟩
  | c :: calls, s, f, h, hkeys, hok => by
      obtain ⟨hc, hrest⟩ := Bool.and_eq_true_iff.mp hok
      obtain ⟨s₁, hcall, h₁⟩ := h.call (hkeys c (List.mem_cons_self ..)) hc retries
      rw [hcall, Option.all_some] at hrest
      obtain ⟨s', hrun⟩ := runCalls retries calls h₁
        (fun c hc => hkeys c (List.mem_cons_of_mem _ hc)) hrest
      refine ⟨s', ?_⟩
      unfold Index.runCalls
      simp only [hcall, hrun, Option.bind_eq_bind, Option.bind_some]
      rfl

end Index.Content

/-! ### From a bulk load on -/

omit [NodeModel M] in
/-- A loaded index stores the map of its pairs. -/
theorem LoadedIndex.content {T : KeyType} {s : Index M P} {order : List NodeId}
    {values : List (ℤ × P)} (hl : LoadedIndex T s order values) (hs : Run Prod.fst values) :
    s.Content T (mapOf values) := by
  obtain ⟨par, hg⟩ := hl.good
  refine ⟨_, par, _, hg, hl.ready, fun k p => ?_⟩
  rw [mapOf_eq_some hs, ← hl.pairs, Heap.mem_pairsOf]
  rfl

namespace Index

variable {C : Params M P} {s₀ s : Index M P} {fuel : ℕ} {values : List (ℤ × P)}

/-- A bulk load of a new index that returns makes a loaded index. -/
theorem loaded_of_bulkLoad (hC : CheapSingles C) (hslots : 2 ≤ C.maxDataNodeSlots)
    (hs : values.Pairwise (fun v w => v.1 < w.1)) (hmax : ∀ v ∈ values, v.1 ≤ C.T.max)
    (hnew : Index.new C = some s₀) (hload : s₀.bulkLoad C fuel values = some s) :
    ∃ order, LoadedIndex C.T s order values := by
  obtain ⟨s₁, hnew', hnum, -⟩ := new_spec C
  obtain rfl := Option.some.inj (hnew.symm.trans hnew')
  obtain ⟨s', order, N, hall, hl⟩ := bulkLoad_loaded hC hslots hs hmax hnum.le (fun _ => hnew)
  have hload' := bulkLoad_le hload (le_max_left fuel N)
  rw [hall _ (le_max_right fuel N)] at hload'
  obtain rfl := Option.some.inj hload'
  exact ⟨order, hl⟩

/-- **The calls behave as a map** after a bulk load of increasing keys (of an empty array for the
default constructor), as long as every call is allowed: each of them returns, with the answer of the
map. -/
theorem calls_behave_as_map (hC : CheapSingles C) (hslots : 2 ≤ C.maxDataNodeSlots)
    (hs : values.Pairwise (fun v w => v.1 < w.1)) (hmax : ∀ v ∈ values, v.1 < C.T.max)
    (hnew : Index.new C = some s₀) (hload : s₀.bulkLoad C fuel values = some s)
    {calls : List (MapCall P)} (hkeys : ∀ c ∈ calls, c.key < C.T.max) (retries : ℕ)
    (hok : s.allowsAll C (retries + 1) calls = true) :
    ∃ s', s.runCalls C (retries + 1) calls = some (answersOfMap (mapOf values) calls, s') := by
  obtain ⟨order, hl⟩ := loaded_of_bulkLoad hC hslots hs (fun v hv => (hmax v hv).le) hnew hload
  exact Content.runCalls retries calls (hl.content hs) hkeys hok

/-- Inserts on both sides of a leaf that splits, and every other call. -/
def mixedCalls : List (MapCall ℕ) :=
  [.insert 2 40, .insert 5 50, .insert 7 70, .insert 8 80, .update 1 11, .erase 2, .getPayload 8,
    .getPayload 2]

theorem calls_behave_as_map_mixedCalls : ∃ s₀ s s', Index.new smallParams = some s₀ ∧
    s₀.bulkLoad smallParams 9 threePairs = some s ∧ s.runCalls smallParams 1 mixedCalls =
      some ([.inserted false, .inserted true, .inserted true, .inserted true, .updated true,
        .erased 1, .payload (some 80), .payload none], s') := by
  obtain ⟨s₀, s, hnew, hload, hok⟩ : ∃ s₀ s, Index.new smallParams = some s₀ ∧
      s₀.bulkLoad smallParams 9 threePairs = some s ∧
        s.allowsAll smallParams 1 mixedCalls = true := by
    have h : ((Index.new smallParams).bind (fun s₀ => (s₀.bulkLoad smallParams 9 threePairs).bind
        (fun s => some (s.allowsAll smallParams 1 mixedCalls)))) = some true := by decide +kernel
    obtain ⟨s₀, hnew, h⟩ := Option.bind_eq_some_iff.mp h
    obtain ⟨s, hload, h⟩ := Option.bind_eq_some_iff.mp h
    exact ⟨s₀, s, hnew, hload, Option.some.inj h⟩
  obtain ⟨s', hrun⟩ := calls_behave_as_map smallParams_cheap (by decide) threePairs_sorted
    (by decide) hnew hload (by decide) 0 hok
  exact ⟨s₀, s, s', hnew, hload, hrun⟩

/-- More retries do not change what an insert of one round does. -/
theorem insert_retries {key : ℤ} {payload : P} {r : Bool × Index M P}
    (h : insert C 1 s key payload = some r) (retries : ℕ) :
    insert C (retries + 1) s key payload = some r := by
  unfold insert at h ⊢
  obtain ⟨⟨s₁, answer⟩, hround, h⟩ := Option.bind_eq_some_iff.mp h
  rw [hround, Option.bind_eq_bind, Option.bind_some]
  cases answer with
  | none => cases h
  | some inserted => exact h

/-- The first key of a new index replaces the leaf that is the root, and the lookup that follows
finds the root locked. -/
theorem not_calls_behave_as_map : ¬ ∀ (C : Params LinearModel ℕ) (values : List (ℤ × ℕ))
    (s₀ s : Index LinearModel ℕ) (fuel : ℕ) (calls : List (MapCall ℕ)), CheapSingles C →
    2 ≤ C.maxDataNodeSlots → values.Pairwise (fun v w => v.1 < w.1) →
    (∀ v ∈ values, v.1 < C.T.max) → Index.new C = some s₀ → s₀.bulkLoad C fuel values = some s →
    (∀ c ∈ calls, c.key < C.T.max) → ∃ retries s',
      s.runCalls C retries calls = some (answersOfMap (mapOf values) calls, s') := by
  intro hall
  obtain ⟨s, hnew, -⟩ := new_spec smallParams
  obtain ⟨retries, s', hrun⟩ := hall smallParams [] s s 0 [.insert 1 0, .getPayload 1]
    smallParams_cheap (by decide) List.Pairwise.nil (by decide) hnew rfl (by decide)
  have hstuck : ((Index.new smallParams).bind (fun s => (insert smallParams 1 s 1 0).map
      (fun r => r.2.getPayload 1))) = some none := by decide +kernel
  rw [hnew, Option.bind_some] at hstuck
  obtain ⟨r, hinsert, hget⟩ := Option.map_eq_some_iff.mp hstuck
  cases retries with
  | zero => cases hrun
  | succ retries =>
      have hfirst : s.call smallParams (retries + 1) (.insert 1 0) = some (.inserted r.1, r.2) :=
        congrArg (Option.map _) (insert_retries hinsert retries)
      have hlookup : r.2.call smallParams (retries + 1) (.getPayload 1) = none :=
        congrArg (Option.map _) hget
      simp only [runCalls, hfirst, hlookup, Option.bind_eq_bind, Option.bind_some,
        Option.bind_none] at hrun
      cases hrun

end Index

end LearnedIndex.Alexol
