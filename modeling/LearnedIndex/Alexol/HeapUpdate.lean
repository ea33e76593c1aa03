import LearnedIndex.Alexol.Leaf
import LearnedIndex.Alexol.TreeUpdate

/-! # Writing to the arena

An arena is read through `dataAt` and `modelAt`.  Every operation that writes a node is described
by what it does to these two functions (`Function.update`) and to the number of nodes. -/

namespace LearnedIndex.Alexol

namespace Heap

variable {M P : Type} {h h' : Heap M P} {x y : NodeId} {n n' : DataNode M P} {m m' : ModelNode}

/-! ### Reading -/

theorem dataAt_lt (hx : h.dataAt x = some n) : x < h.length :=
  (List.getElem?_eq_some_iff.mp (dataAt_eq_some.mp hx)).1

theorem modelAt_lt (hx : h.modelAt x = some m) : x < h.length :=
  (List.getElem?_eq_some_iff.mp (modelAt_eq_some.mp hx)).1

theorem modelAt_of_data (hx : h.dataAt x = some n) : h.modelAt x = none := by
  unfold modelAt
  rw [dataAt_eq_some.mp hx]

theorem dataAt_of_model (hx : h.modelAt x = some m) : h.dataAt x = none := by
  unfold dataAt
  rw [modelAt_eq_some.mp hx]

/-- A data node and a model node have different addresses. -/
theorem ne_of_data_model (hx : h.dataAt x = some n) (hy : h.modelAt y = some m) : x ≠ y := by
  rintro rfl
  rw [modelAt_of_data hx] at hy
  cases hy

theorem dataAt_length (h : Heap M P) : h.dataAt h.length = none := by
  unfold dataAt
  rw [List.getElem?_eq_none (le_refl _)]

theorem modelAt_length (h : Heap M P) : h.modelAt h.length = none := by
  unfold modelAt
  rw [List.getElem?_eq_none (le_refl _)]

/-- The two functions determine the node. -/
theorem getElem?_congr (hd : h'.dataAt x = h.dataAt x) (hm : h'.modelAt x = h.modelAt x) :
    h'[x]? = h[x]? := by
  cases hx : h[x]? with
  | none =>
      unfold dataAt at hd
      unfold modelAt at hm
      rw [hx] at hd hm
      cases hx' : h'[x]? with
      | none => rfl
      | some node => cases node <;> simp [hx'] at hd hm
  | some node =>
      cases node with
      | data n => exact dataAt_eq_some.mp (hd.trans (dataAt_eq_some.mpr hx))
      | model m => exact modelAt_eq_some.mp (hm.trans (modelAt_eq_some.mpr hx))

theorem frame_congr (hd : h'.dataAt x = h.dataAt x) (hm : h'.modelAt x = h.modelAt x) :
    h'.frame x = h.frame x := by
  unfold frame
  rw [getElem?_congr hd hm]

theorem frame_model (hx : h.modelAt x = some m) : h.frame x = some (.node m) :=
  frame_node.mpr (modelAt_eq_some.mp hx)

theorem modelAt_of_frame (hx : h.frame x = some (.node m)) : h.modelAt x = some m :=
  modelAt_eq_some.mpr (frame_node.mp hx)

theorem frame_data (hx : h.dataAt x = some n) :
    h.frame x = some (.leaf n.level n.localDepth n.minLimit n.maxLimit) := by
  unfold frame
  rw [dataAt_eq_some.mp hx]
  rfl

/-! ### Writing -/

theorem length_setData (h : Heap M P) (x : NodeId) (n : DataNode M P) :
    (h.setData x n).length = h.length := List.length_set ..

theorem length_setModel (h : Heap M P) (x : NodeId) (m : ModelNode) :
    (h.setModel x m).length = h.length := List.length_set ..

theorem dataAt_setData (hx : h.dataAt x = some n) (n' : DataNode M P) :
    (h.setData x n').dataAt = Function.update h.dataAt x (some n') := by
  funext y
  unfold setData
  by_cases hy : y = x
  · subst hy
    rw [Function.update_self, dataAt_eq_some, List.getElem?_set_self (dataAt_lt hx)]
  · rw [Function.update_of_ne hy]
    unfold dataAt
    rw [List.getElem?_set_ne (fun h => hy h.symm)]

theorem modelAt_setData (hx : h.dataAt x = some n) (n' : DataNode M P) :
    (h.setData x n').modelAt = h.modelAt := by
  funext y
  unfold setData
  by_cases hy : y = x
  · subst hy
    have hset : dataAt (List.set h y (.data n')) y = some n' := by
      rw [dataAt_eq_some, List.getElem?_set_self (dataAt_lt hx)]
    rw [modelAt_of_data hset, modelAt_of_data hx]
  · unfold modelAt
    rw [List.getElem?_set_ne (fun h => hy h.symm)]

theorem modelAt_setModel (hx : h.modelAt x = some m) (m' : ModelNode) :
    (h.setModel x m').modelAt = Function.update h.modelAt x (some m') := by
  funext y
  unfold setModel
  by_cases hy : y = x
  · subst hy
    rw [Function.update_self, modelAt_eq_some, List.getElem?_set_self (modelAt_lt hx)]
  · rw [Function.update_of_ne hy]
    unfold modelAt
    rw [List.getElem?_set_ne (fun h => hy h.symm)]

theorem dataAt_setModel (hx : h.modelAt x = some m) (m' : ModelNode) :
    (h.setModel x m').dataAt = h.dataAt := by
  funext y
  unfold setModel
  by_cases hy : y = x
  · subst hy
    have hset : modelAt (List.set h y (.model m')) y = some m' := by
      rw [modelAt_eq_some, List.getElem?_set_self (modelAt_lt hx)]
    rw [dataAt_of_model hset, dataAt_of_model hx]
  · unfold dataAt
    rw [List.getElem?_set_ne (fun h => hy h.symm)]

theorem getElem?_snoc (h : Heap M P) (node : Node M P) (y : NodeId) :
    (h ++ [node])[y]? = if y = h.length then some node else h[y]? := by
  rcases Nat.lt_trichotomy y h.length with hlt | rfl | hgt
  · rw [List.getElem?_append_left hlt, if_neg hlt.ne]
  · simp
  · have hlen : (h ++ [node]).length ≤ y := by
      rw [List.length_append, List.length_singleton]
      exact hgt
    rw [List.getElem?_eq_none hlen, if_neg hgt.ne', List.getElem?_eq_none hgt.le]

theorem dataAt_snoc_data (h : Heap M P) (n : DataNode M P) :
    dataAt (h ++ [.data n]) = Function.update h.dataAt h.length (some n) := by
  funext y
  unfold dataAt
  rw [getElem?_snoc]
  by_cases hy : y = h.length
  · rw [if_pos hy, hy, Function.update_self]
  · rw [if_neg hy, Function.update_of_ne hy]

theorem modelAt_snoc_data (h : Heap M P) (n : DataNode M P) :
    modelAt (h ++ [.data n]) = h.modelAt := by
  funext y
  by_cases hy : y = h.length
  · rw [hy, modelAt_length]
    refine modelAt_of_data (n := n) ?_
    rw [dataAt_snoc_data, Function.update_self]
  · unfold modelAt
    rw [getElem?_snoc, if_neg hy]

theorem modelAt_snoc_model (h : Heap M P) (m : ModelNode) :
    modelAt (h ++ [.model m]) = Function.update h.modelAt h.length (some m) := by
  funext y
  unfold modelAt
  rw [getElem?_snoc]
  by_cases hy : y = h.length
  · rw [if_pos hy, hy, Function.update_self]
  · rw [if_neg hy, Function.update_of_ne hy]

theorem dataAt_snoc_model (h : Heap M P) (m : ModelNode) :
    dataAt (h ++ [.model m]) = h.dataAt := by
  funext y
  by_cases hy : y = h.length
  · rw [hy, dataAt_length]
    refine dataAt_of_model (m := m) ?_
    rw [modelAt_snoc_model, Function.update_self]
  · unfold dataAt
    rw [getElem?_snoc, if_neg hy]

/-- An operation that changes data nodes only. -/
structure DataStep (h h' : Heap M P) (f : NodeId → DataNode M P → DataNode M P) : Prop where
  length : h'.length = h.length
  modelAt : h'.modelAt = h.modelAt
  dataAt : ∀ x, h'.dataAt x = (h.dataAt x).map (f x)

theorem DataStep.trans {h₁ h₂ h₃ : Heap M P} {f g : NodeId → DataNode M P → DataNode M P}
    (h₁₂ : DataStep h₁ h₂ f) (h₂₃ : DataStep h₂ h₃ g) : DataStep h₁ h₃
    (fun x n => g x (f x n)) := by
  refine ⟨h₂₃.length.trans h₁₂.length, h₂₃.modelAt.trans h₁₂.modelAt, fun x => ?_⟩
  rw [h₂₃.dataAt, h₁₂.dataAt, Option.map_map]
  rfl

theorem DataStep.refl (h : Heap M P) : DataStep h h (fun _ n => n) :=
  ⟨rfl, rfl, fun x => by simp⟩

theorem DataStep.congr {f g : NodeId → DataNode M P → DataNode M P} (hs : DataStep h h' f)
    (hfg : ∀ x n, h.dataAt x = some n → f x n = g x n) : DataStep h h' g := by
  refine ⟨hs.length, hs.modelAt, fun x => ?_⟩
  rw [hs.dataAt]
  cases hx : h.dataAt x with
  | none => rfl
  | some n => rw [Option.map_some, Option.map_some, hfg x n hx]

theorem setData_step (hx : h.dataAt x = some n) (n' : DataNode M P) :
    DataStep h (h.setData x n') (fun y k => if y = x then n' else k) := by
  refine ⟨h.length_setData x n', modelAt_setData hx n', fun y => ?_⟩
  rw [dataAt_setData hx]
  by_cases hy : y = x
  · subst hy
    simp [hx]
  · simp [hy]

theorem modifyData_eq (hx : h.dataAt x = some n) (f : DataNode M P → DataNode M P) :
    h.modifyData x f = some (h.setData x (f n)) := by
  unfold modifyData
  rw [hx]
  rfl

theorem modifyData_step (hx : h.dataAt x = some n) (f : DataNode M P → DataNode M P) :
    ∃ h', h.modifyData x f = some h' ∧ DataStep h h' (fun y k => if y = x then f k else k) := by
  refine ⟨h.setData x (f n), modifyData_eq hx f,
    (setData_step hx (f n)).congr (fun y k hk => ?_)⟩
  by_cases hy : y = x
  · subst hy
    obtain rfl := Option.some.inj (hx.symm.trans hk)
    rfl
  · rw [if_neg hy, if_neg hy]

theorem modifyModel_eq (hx : h.modelAt x = some m) (f : ModelNode → ModelNode) :
    h.modifyModel x f = some (h.setModel x (f m)) := by
  unfold modifyModel
  rw [hx]
  rfl

end Heap

end LearnedIndex.Alexol
