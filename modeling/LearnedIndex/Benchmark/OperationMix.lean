import LearnedIndex.Benchmark.SameWorkload

/-! # The mix of the operations

`parse_args` reads five ratios and checks their sum.  `generate_operations` selects the kind of an
operation by a number from `[0, 1)`, which the ratios divide into five consecutive shares, and `run`
calls the index according to the kind.  Neither has a branch for `DELETE`: a number from its share
selects a `SCAN`, since that is what the last branch stands for (`share_select_iff`), and every
other share is met. -/

namespace LearnedIndex.Benchmark

open LearnedIndex.Ranges LearnedIndex.Alexol

/-! ### Ratios and shares -/

/-- The ratios that `parse_args` reads. -/
structure AllRatios extends Ratios where
  delete : ℚ
  scan : ℚ

def AllRatios.sum (r : AllRatios) : ℚ := r.read + r.insert + r.delete + r.update + r.scan

/-- `parse_args`: the workload shift test replaces two of the ratios, and then the sum is checked.
-/
def parseRatios (flags : AllRatios) (workloadShiftTest : Bool) (writeRatioEnd : ℚ) :
    Option AllRatios :=
  let r := if workloadShiftTest then
      { flags with read := 1 - writeRatioEnd, insert := writeRatioEnd } else flags
  if 0.9999 < r.sum ∧ r.sum < 1.0001 then some r else none

/-- Ratios that divide `[0, 1)`. -/
structure Mix extends AllRatios where
  read_nonneg : 0 ≤ read
  insert_nonneg : 0 ≤ insert
  update_nonneg : 0 ≤ update
  delete_nonneg : 0 ≤ delete
  scan_nonneg : 0 ≤ scan
  sum_eq : toAllRatios.sum = 1

namespace Mix
variable (m : Mix)

/-- `parse_args` takes every mix as it is. -/
theorem parseRatios_eq (writeRatioEnd : ℚ) :
    parseRatios m.toAllRatios false writeRatioEnd = some m.toAllRatios := by
  unfold parseRatios
  simp only [Bool.false_eq_true, if_false, m.sum_eq]
  rw [if_pos (by norm_num)]

def ratio : Operation → ℚ
  | .read => m.read
  | .insert => m.insert
  | .update => m.update
  | .delete => m.delete
  | .scan => m.scan

/-- Where the share of a kind begins. -/
def start : Operation → ℚ
  | .read => 0
  | .insert => m.read
  | .update => m.read + m.insert
  | .delete => m.read + m.insert + m.update
  | .scan => m.read + m.insert + m.update + m.delete

/-- The part of `[0, 1)` that belongs to a kind. -/
def share (k : Operation) : Set ℚ := Set.Ico (m.start k) (m.start k + m.ratio k)

instance (k : Operation) (p : ℚ) : Decidable (p ∈ m.share k) :=
  inferInstanceAs (Decidable (_ ≤ _ ∧ _ < _))

variable {m}

theorem sum_shares : m.read + m.insert + m.update + m.delete + m.scan = 1 := by
  have h := m.sum_eq
  unfold AllRatios.sum at h
  linarith

/-- A kind with ratio 0 has no share. -/
theorem ratio_pos {k : Operation} {p : ℚ} (h : p ∈ m.share k) : 0 < m.ratio k := by
  have h1 : m.start k ≤ p := h.1
  have h2 : p < m.start k + m.ratio k := h.2
  linarith

/-- The selected kind is the one whose share the number is in, unless that is `DELETE`. -/
theorem share_select_iff {p : ℚ} (h0 : 0 ≤ p) (h1 : p < 1) :
    p ∈ m.share (m.toRatios.select p) ↔ p ∉ m.share .delete := by
  have hsum := m.sum_shares
  have hu := m.update_nonneg
  have hd := m.delete_nonneg
  have hs := m.scan_nonneg
  unfold Ratios.select
  simp only [share, Set.mem_Ico, not_and, not_lt]
  split
  · simp only [start, ratio]
    constructor
    · intro _ hle
      linarith [m.insert_nonneg]
    · intro _
      exact ⟨h0, by linarith⟩
  · split
    · simp only [start, ratio]
      constructor
      · intro _ hle
        linarith
      · intro _
        exact ⟨by linarith, by linarith⟩
    · split
      · simp only [start, ratio]
        constructor
        · intro _ hle
          linarith
        · intro _
          exact ⟨by linarith, by linarith⟩
      · simp only [start, ratio]
        constructor
        · intro h _
          exact h.1
        · intro h
          exact ⟨h (by linarith), by linarith⟩

/-- A number from the share of `DELETE` selects a `SCAN`. -/
theorem select_of_mem_delete {p : ℚ} (h : p ∈ m.share .delete) : m.toRatios.select p = .scan := by
  have hi := m.insert_nonneg
  have hu := m.update_nonneg
  have hle : m.read + m.insert + m.update ≤ p := h.1
  unfold Ratios.select
  rw [if_neg (by linarith), if_neg (by linarith), if_neg (by linarith)]

end Mix

/-! ### The calls of a run -/

/-- A call of the index by the measured loop. -/
inductive IndexCall (K : Type) where
  | get (key : K)
  | put (key : K) (value : ℕ)
  | scan (key : K) (keyNum : ℕ)
  | remove (key : K)
deriving DecidableEq

variable {K : Type}

/-- What `run` does with an operation. -/
def execute (scanNum : ℕ) (op : Operation × K) : Option (IndexCall K) :=
  if op.1 = .read then some (.get op.2)
  else if op.1 = .insert then some (.put op.2 initValue)
  else if op.1 = .update then some (.put op.2 initValue)
  else if op.1 = .scan then some (.scan op.2 scanNum)
  else none

/-- The operations follow the mix: each has the kind to which its number belongs, and with a number
from the share of `DELETE` the run removes a key. -/
structure State.Follows (s : State K) (m : Mix) (prob : ℕ → ℚ) (scanNum : ℕ) : Prop where
  kinds : ∀ i op, s.operations[i]? = some op → prob i ∈ m.share op.1
  removes : ∀ i op, s.operations[i]? = some op → prob i ∈ m.share .delete →
    execute scanNum op = some (.remove op.2)

/-! ### The generated kinds -/

/-- What one iteration does: it ends the loop at an `INSERT` without a key, or adds an operation of
the selected kind. -/
theorem generateLoop_cases {r : Ratios} {sample keys : List K} {tableSize n : ℕ} {prob : ℕ → ℚ}
    {rest sampleCounter insertCounter : ℕ} {g : List (Operation × K) × ℕ}
    (h : generateLoop r sample keys tableSize n prob
    (rest + 1) sampleCounter insertCounter = some g) :
    (g.1 = [] ∧ r.select (prob (n - (rest + 1))) = .insert ∧ tableSize ≤ insertCounter) ∨
      ∃ key g' sc ic, generateLoop r sample keys tableSize n prob rest sc ic = some g' ∧
        g.1 = (r.select (prob (n - (rest + 1))), key) :: g'.1 ∧
        (r.select (prob (n - (rest + 1))) = .insert →
          keys[insertCounter]? = some key ∧ ic = insertCounter + 1) := by
  have hother : ∀ k : Operation, r.select (prob (n - (rest + 1))) = k → k ≠ .insert →
      (sample[sampleCounter]?).bind (fun key =>
        (generateLoop r sample keys tableSize n prob rest (sampleCounter + 1) insertCounter).bind
          (fun g => some ((k, key) :: g.1, g.2))) = some g →
      ∃ key g' sc ic, generateLoop r sample keys tableSize n prob rest sc ic = some g' ∧
        g.1 = (r.select (prob (n - (rest + 1))), key) :: g'.1 ∧
        (r.select (prob (n - (rest + 1))) = .insert →
          keys[insertCounter]? = some key ∧ ic = insertCounter + 1) := by
    rintro k rfl hne hgen
    obtain ⟨key, -, hgen⟩ := Option.bind_eq_some_iff.mp hgen
    obtain ⟨g', hg', hgen⟩ := Option.bind_eq_some_iff.mp hgen
    rw [← Option.some.inj hgen]
    exact ⟨key, g', _, _, hg', rfl, fun hins => absurd hins hne⟩
  unfold generateLoop at h
  cases hsel : r.select (prob (n - (rest + 1))) with
  | insert =>
      simp only [hsel] at h
      split at h
      · rename_i hle
        rw [← Option.some.inj h]
        exact Or.inl ⟨rfl, rfl, hle⟩
      · obtain ⟨key, hkey, h⟩ := Option.bind_eq_some_iff.mp h
        obtain ⟨g', hg', h⟩ := Option.bind_eq_some_iff.mp h
        rw [← Option.some.inj h]
        exact Or.inr ⟨key, g', _, _, hg', rfl, fun _ => ⟨hkey, rfl⟩⟩
  | delete => exact absurd hsel (select_ne_delete r _)
  | read =>
      simp only [hsel] at h
      rw [← hsel]
      exact Or.inr (hother .read hsel (by decide) h)
  | scan =>
      simp only [hsel] at h
      rw [← hsel]
      exact Or.inr (hother .scan hsel (by decide) h)
  | update =>
      simp only [hsel] at h
      rw [← hsel]
      exact Or.inr (hother .update hsel (by decide) h)

/-- Each operation has the selected kind, and the loop stops early only for an `INSERT`. -/
theorem generateLoop_kinds (r : Ratios) (sample keys : List K) (tableSize n : ℕ) (prob : ℕ → ℚ) :
    ∀ (rest sampleCounter insertCounter : ℕ) (g : List (Operation × K) × ℕ), rest ≤ n →
      generateLoop r sample keys tableSize n prob rest sampleCounter insertCounter = some g →
      g.1.length ≤ rest ∧ (∀ i op, g.1[i]? = some op → op.1 = r.select (prob (n - rest + i))) ∧
        (g.1.length < rest → r.select (prob (n - rest + g.1.length)) = .insert)
  | 0, sampleCounter, insertCounter, g, _, h => by
      rw [← Option.some.inj h]
      exact ⟨le_rfl, fun i op hi => by simp at hi, fun h => absurd h (Nat.not_lt_zero _)⟩
  | rest + 1, sampleCounter, insertCounter, g, hrest, h => by
      rcases generateLoop_cases h with ⟨hnil, hsel, -⟩ | ⟨key, g', sc, ic, hg', hcons, -⟩
      · rw [hnil]
        exact ⟨Nat.zero_le _, fun i op hi => by simp at hi, fun _ => hsel⟩
      · obtain ⟨hlen, hkinds, hstop⟩ :=
          generateLoop_kinds r sample keys tableSize n prob rest sc ic g' (by omega) hg'
        have hshift : ∀ i, n - (rest + 1) + (i + 1) = n - rest + i := by omega
        rw [hcons, List.length_cons]
        refine ⟨Nat.succ_le_succ hlen, fun i op hi => ?_, fun hlt => ?_⟩
        · cases i with
          | zero =>
              rw [← Option.some.inj hi]
              rfl
          | succ i =>
              rw [hshift]
              exact hkinds i op hi
        · rw [hshift]
          exact hstop (by omega)

variable [LinearOrder K]

/-- The kinds of a generated workload. -/
theorem prepared_kinds {c : Params} {d : Draws K} {file : List K} {s : State K}
    (h : prepared c d file = some s) :
    (∀ i op, s.operations[i]? = some op → op.1 = c.ratios.select (d.prob i)) ∧
      (s.operations.length < c.operationsNum →
        c.ratios.select (d.prob s.operations.length) = .insert) := by
  obtain ⟨s₀, hload, h⟩ := Option.bind_eq_some_iff.mp h
  have hnum : s₀.operationsNum = c.operationsNum := by
    rw [(loadKeys_iff.mp hload).1]
    rfl
  unfold generateOperations at h
  obtain ⟨sample, -, h⟩ := Option.bind_eq_some_iff.mp h
  obtain ⟨unique, -, h⟩ := Option.bind_eq_some_iff.mp h
  obtain ⟨g, hg, h⟩ := Option.bind_eq_some_iff.mp h
  rw [← Option.some.inj h]
  obtain ⟨-, hkinds⟩ := generateLoop_kinds _ _ _ _ _ _ _ _ _ g le_rfl hg
  simp only [hnum, Nat.sub_self, Nat.zero_add] at hkinds
  exact hkinds

/-- A workload follows the mix unless one of its operations has a number from the share of
`DELETE`. -/
theorem prepared_follows_iff {c : Params} {d : Draws K} {file : List K} {s : State K} {m : Mix}
    (hratios : c.ratios = m.toRatios) (hprob : ∀ i, 0 ≤ d.prob i ∧ d.prob i < 1)
    (h : prepared c d file = some s) (scanNum : ℕ) :
    s.Follows m d.prob scanNum ↔ ∀ i < s.operations.length, d.prob i ∉ m.share .delete := by
  obtain ⟨hkinds, -⟩ := prepared_kinds h
  rw [hratios] at hkinds
  have hshare : ∀ i, d.prob i ∈ m.share (m.toRatios.select (d.prob i)) ↔
      d.prob i ∉ m.share .delete := fun i => Mix.share_select_iff (hprob i).1 (hprob i).2
  constructor
  · intro hfollows i hi
    have hop := List.getElem?_eq_getElem hi
    have hin := hfollows.kinds i _ hop
    rw [hkinds i _ hop] at hin
    exact (hshare i).mp hin
  · intro hall
    have hi : ∀ i op, s.operations[i]? = some op → d.prob i ∉ m.share .delete :=
      fun i op hop => hall i (List.getElem?_eq_some_iff.mp hop).1
    refine ⟨fun i op hop => ?_, fun i op hop hdel => absurd hdel (hi i op hop)⟩
    rw [hkinds i op hop]
    exact (hshare i).mpr (hi i op hop)

/-! ### Every mix -/

/-- A few operations with the ratios of a mix, when all keys are bulk loaded. -/
def withMix (m : Mix) : Params :=
  { readInsert 1 false false with
    readRatio := m.read
    insertRatio := m.insert
    updateRatio := m.update }

/-- The same number for every operation. -/
def constantDraws (K : Type) (p : ℚ) : Draws K where
  shuffle := ⟨id, List.Perm.refl⟩
  randomShuffle := ⟨id, List.Perm.refl⟩
  sample _ := 0
  prob _ := p

theorem exists_prepared (m : Mix) (key : K) (p : ℚ) :
    ∃ s, prepared (withMix m) (constantDraws K p) [key] = some s := by
  have htable : tableOf (withMix m) (constantDraws K p) [key] =
      ⟨[key], 1, initTableSize (withMix m) 1⟩ := rfl
  have hinit : initTableSize (withMix m) 1 = 1 := by
    have hcast : (withMix m).initTableRatio * ((1 : ℕ) : ℚ) = ((1 : ℤ) : ℚ) := by
      show (1 : ℚ) * _ = _
      norm_num
    rw [initTableSize, hcast, trunc_intCast]
    rfl
  rw [hinit] at htable
  have hok : (tableOf (withMix m) (constantDraws K p) [key]).OK :=
    tableOf_ok rfl le_rfl (by rw [htable])
  have hfit : (tableOf (withMix m) (constantDraws K p) [key]).initTableSize ≤ 2 ^ 31 := by
    rw [htable]
    norm_num
  obtain ⟨s, hs, -⟩ := generateOperations_spec (c := withMix m) (constantDraws K p) hok hfit
  refine ⟨s, Option.bind_eq_some_iff.mpr ⟨_, ?_, hs⟩⟩
  exact (loadKeys_spec hok nofun _).mpr ⟨rfl, nofun, hfit⟩

/-- **The operation mix** is followed by every workload exactly if the mix has no `DELETE`. -/
theorem prepared_follows_mix_iff [Inhabited K] (m : Mix) (scanNum : ℕ) :
    (∀ (c : Params) (d : Draws K) (file : List K) (s : State K), c.ratios = m.toRatios →
      (∀ i, 0 ≤ d.prob i ∧ d.prob i < 1) → prepared c d file = some s →
      s.Follows m d.prob scanNum) ↔ m.delete = 0 := by
  have hsum := m.sum_shares
  have hr := m.read_nonneg
  have hi := m.insert_nonneg
  have hu := m.update_nonneg
  have hs := m.scan_nonneg
  constructor
  · intro hall
    by_contra hne
    have hpos : 0 < m.delete := lt_of_le_of_ne m.delete_nonneg (Ne.symm hne)
    obtain ⟨s, hprep⟩ := exists_prepared m (default : K) (m.start .delete)
    have hprob : 0 ≤ m.start .delete ∧ m.start .delete < 1 := by
      simp only [Mix.start]
      constructor <;> linarith
    have hdraws : ∀ i, 0 ≤ (constantDraws K (m.start .delete)).prob i ∧
        (constantDraws K (m.start .delete)).prob i < 1 := fun _ => hprob
    have hmem : m.start .delete ∈ m.share .delete :=
      Set.left_mem_Ico.mpr (lt_add_of_pos_right _ hpos)
    have hratios : (withMix m).ratios = m.toRatios := rfl
    have hfollows := hall _ _ _ s hratios hdraws hprep
    have hnone := (prepared_follows_iff hratios hdraws hprep scanNum).mp hfollows
    -- there is a first operation, since its number does not select an insert
    rcases Nat.eq_zero_or_pos s.operations.length with hlen | hlen
    · have hstop := (prepared_kinds hprep).2 (by rw [hlen]; exact Nat.zero_lt_succ 7)
      rw [hratios] at hstop
      exact absurd ((Mix.select_of_mem_delete hmem).symm.trans hstop) nofun
    · exact hnone 0 hlen hmem
  · intro hzero c d file s hratios hprob hprep
    refine (prepared_follows_iff hratios hprob hprep scanNum).mpr (fun i _ hdel => ?_)
    have hpos := Mix.ratio_pos hdel
    exact absurd hzero hpos.ne'

/-- Nothing but deletes. -/
def onlyDelete : Mix where
  read := 0
  insert := 0
  update := 0
  delete := 1
  scan := 0
  read_nonneg := le_rfl
  insert_nonneg := le_rfl
  update_nonneg := le_rfl
  delete_nonneg := zero_le_one
  scan_nonneg := le_rfl
  sum_eq := by decide +kernel

/-- With a delete ratio of 1 every operation is a scan, and the run executes it as one. -/
theorem prepared_onlyDelete : parseRatios onlyDelete.toAllRatios false 0 = some
    onlyDelete.toAllRatios ∧
    ∃ s, prepared (withMix onlyDelete) (constantDraws ℕ 0) [7] = some s ∧
      s.operations = List.replicate 8 (.scan, 7) ∧
      s.operations.filterMap (execute 100) = List.replicate 8 (.scan 7 100) ∧
      ¬ s.Follows onlyDelete (constantDraws ℕ 0).prob 100 := by
  refine ⟨Mix.parseRatios_eq _ 0, ?_⟩
  obtain ⟨s, hs⟩ := exists_prepared onlyDelete 7 0
  have hrun : (prepared (withMix onlyDelete) (constantDraws ℕ 0) [7]).map State.operations =
      some (List.replicate 8 (.scan, 7)) := by decide +kernel
  rw [hs, Option.map_some] at hrun
  have hops := Option.some.inj hrun
  refine ⟨s, hs, hops, by rw [hops]; rfl, fun hfollows => ?_⟩
  have hcall := hfollows.removes 0 (.scan, 7) (by rw [hops]; rfl) (by decide +kernel)
  cases hcall

end LearnedIndex.Benchmark
