import Mathlib.Data.List.Nodup
import Mathlib.Logic.Relation

/-! # Forests in pre-order

`children` names the children of a node, from left to right.  `PreOrder children roots order` says
that `order` lists the trees below `roots` one after another, each from its root on.

A traversal with a stack visits the nodes in this order (`PreOrder.visit_eq`), and the order lists
what can be reached from the roots (`PreOrder.mem_iff`).  Where it has no node twice, no root is a
child (`PreOrder.not_root`) and every other node has one parent (`PreOrder.parent_unique`).
Conversely, a graph with ranks and one parent for every node is such a forest
(`PreOrder.exists_of_rank`, `PreOrder.nodup_of_parent`). -/

namespace LearnedIndex.Forests

variable {α : Type}

/-- The trees below the roots, listed in pre-order. -/
inductive PreOrder (children : α → Option (List α)) : List α → List α → Prop
  | nil : PreOrder children [] []
  | cons {x : α} {cs roots below rest : List α} : children x = some cs →
      PreOrder children cs below → PreOrder children roots rest →
      PreOrder children (x :: roots) (x :: (below ++ rest))

/-- A traversal with a stack. -/
def visit (children : α → Option (List α)) : ℕ → List α → Option (List α)
  | _, [] => some []
  | 0, _ :: _ => none
  | fuel + 1, x :: stack => do
      let cs ← children x
      let rest ← visit children fuel (cs ++ stack)
      some (x :: rest)

/-- The second node is a child of the first one. -/
def Child (children : α → Option (List α)) (x c : α) : Prop := ∃ cs, children x = some cs ∧ c ∈ cs

namespace PreOrder

variable {children children' : α → Option (List α)} {roots order : List α} {x y c : α}

theorem append {roots' order' : List α} (h : PreOrder children roots order)
    (h' : PreOrder children roots' order') :
    PreOrder children (roots ++ roots') (order ++ order') := by
  induction h with
  | nil => exact h'
  | cons hx hbelow _ _ ih =>
      rw [List.cons_append, List.cons_append, List.append_assoc]
      exact PreOrder.cons hx hbelow ih

/-- A single tree. -/
theorem node {cs : List α} (hx : children x = some cs) (h : PreOrder children cs order) :
    PreOrder children [x] (x :: order) := by
  have hnode := PreOrder.cons hx h PreOrder.nil
  rwa [List.append_nil] at hnode

/-- A single tree consists of its root and of the trees below its children. -/
theorem of_node (h : PreOrder children [x] order) :
    ∃ cs below, children x = some cs ∧ PreOrder children cs below ∧ order = x :: below := by
  cases h with
  | cons hx hbelow hrest =>
      cases hrest with
      | nil => exact ⟨_, _, hx, hbelow, by rw [List.append_nil]⟩

/-- Only the children of the listed nodes matter. -/
theorem congr (h : PreOrder children roots order) (heq : ∀ x ∈ order, children' x = children x) :
    PreOrder children' roots order := by
  induction h with
  | nil => exact PreOrder.nil
  | cons hx _ _ ih₁ ih₂ =>
      refine PreOrder.cons ((heq _ (List.mem_cons_self ..)).trans hx) (ih₁ fun y hy => ?_)
        (ih₂ fun y hy => ?_)
      · exact heq y (List.mem_cons_of_mem _ (List.mem_append_left _ hy))
      · exact heq y (List.mem_cons_of_mem _ (List.mem_append_right _ hy))

theorem roots_sublist (h : PreOrder children roots order) : roots.Sublist order := by
  induction h with
  | nil => exact List.Sublist.refl []
  | cons _ _ _ _ ih => exact (ih.trans (List.sublist_append_right _ _)).cons_cons _

/-- The children of a listed node are listed. -/
theorem child_mem (h : PreOrder children roots order) (hx : x ∈ order)
    (hc : Child children x c) : c ∈ order := by
  induction h with
  | nil => cases hx
  | cons hy hbelow _ ih₁ ih₂ =>
      rcases List.mem_cons.mp hx with rfl | hx
      · obtain ⟨cs, hcs, hmem⟩ := hc
        obtain rfl := Option.some.inj (hy.symm.trans hcs)
        exact List.mem_cons_of_mem _ (List.mem_append_left _ (hbelow.roots_sublist.subset hmem))
      · rcases List.mem_append.mp hx with hx | hx
        · exact List.mem_cons_of_mem _ (List.mem_append_left _ (ih₁ hx))
        · exact List.mem_cons_of_mem _ (List.mem_append_right _ (ih₂ hx))

/-- A listed node is a root or the child of a listed node. -/
theorem root_or_child (h : PreOrder children roots order) (hy : y ∈ order) :
    y ∈ roots ∨ ∃ x ∈ order, Child children x y := by
  induction h with
  | nil => cases hy
  | @cons x cs roots below rest hx _ _ ih₁ ih₂ =>
      rcases List.mem_cons.mp hy with rfl | hy
      · exact Or.inl (List.mem_cons_self ..)
      · rcases List.mem_append.mp hy with hy | hy
        · rcases ih₁ hy with hcs | ⟨z, hz, hc⟩
          · exact Or.inr ⟨x, List.mem_cons_self .., cs, hx, hcs⟩
          · exact Or.inr ⟨z, List.mem_cons_of_mem _ (List.mem_append_left _ hz), hc⟩
        · rcases ih₂ hy with hroot | ⟨z, hz, hc⟩
          · exact Or.inl (List.mem_cons_of_mem _ hroot)
          · exact Or.inr ⟨z, List.mem_cons_of_mem _ (List.mem_append_right _ hz), hc⟩

/-- Every listed node has children. -/
theorem isSome (h : PreOrder children roots order) (hx : x ∈ order) : (children x).isSome := by
  induction h with
  | nil => cases hx
  | cons hy _ _ ih₁ ih₂ =>
      rcases List.mem_cons.mp hx with rfl | hx
      · rw [hy]
        rfl
      · rcases List.mem_append.mp hx with hx | hx
        · exact ih₁ hx
        · exact ih₂ hx

/-- The list has what can be reached from the roots. -/
theorem mem_iff (h : PreOrder children roots order) :
    y ∈ order ↔ ∃ r ∈ roots, Relation.ReflTransGen (Child children) r y := by
  constructor
  · intro hy
    induction h with
    | nil => cases hy
    | cons hx _ _ ih₁ ih₂ =>
        rcases List.mem_cons.mp hy with rfl | hy
        · exact ⟨_, List.mem_cons_self .., Relation.ReflTransGen.refl⟩
        · rcases List.mem_append.mp hy with hy | hy
          · obtain ⟨r, hr, hreach⟩ := ih₁ hy
            exact ⟨_, List.mem_cons_self .., Relation.ReflTransGen.head ⟨_, hx, hr⟩ hreach⟩
          · obtain ⟨r, hr, hreach⟩ := ih₂ hy
            exact ⟨r, List.mem_cons_of_mem _ hr, hreach⟩
  · rintro ⟨r, hr, hreach⟩
    induction hreach with
    | refl => exact h.roots_sublist.subset hr
    | tail _ hc ih => exact h.child_mem ih hc

/-! ### Without repetitions -/

/-- No root is a child. -/
theorem not_root (h : PreOrder children roots order) (hnd : order.Nodup) (hx : x ∈ order)
    (hc : Child children x c) : c ∉ roots := by
  induction h with
  | nil => cases hx
  | @cons y cs roots below rest hy hbelow hrest ih₁ ih₂ =>
      obtain ⟨hyn, hnd'⟩ := List.nodup_cons.mp hnd
      obtain ⟨_, hnd₂, hdisj⟩ := List.nodup_append.mp hnd'
      have hroot : c ∈ below ∨ (c ∈ rest ∧ c ∉ roots) → c ∉ y :: roots := by
        intro hor hmem
        have hin : c ∈ below ++ rest := by
          rcases hor with hb | ⟨hr, _⟩
          · exact List.mem_append_left _ hb
          · exact List.mem_append_right _ hr
        rcases List.mem_cons.mp hmem with rfl | hmem
        · exact hyn hin
        · rcases hor with hb | ⟨_, hn⟩
          · exact hdisj c hb c (hrest.roots_sublist.subset hmem) rfl
          · exact hn hmem
      refine hroot ?_
      rcases List.mem_cons.mp hx with rfl | hx
      · obtain ⟨cs', hcs, hmem⟩ := hc
        obtain rfl := Option.some.inj (hy.symm.trans hcs)
        exact Or.inl (hbelow.roots_sublist.subset hmem)
      · rcases List.mem_append.mp hx with hx | hx
        · exact Or.inl (hbelow.child_mem hx hc)
        · exact Or.inr ⟨hrest.child_mem hx hc, ih₂ hnd₂ hx⟩

/-- A node has at most one parent. -/
theorem parent_unique (h : PreOrder children roots order) (hnd : order.Nodup) (hx : x ∈ order)
    (hy : y ∈ order) (hxc : Child children x c) (hyc : Child children y c) : x = y := by
  induction h generalizing x y with
  | nil => cases hx
  | @cons z cs roots below rest hz hbelow hrest ih₁ ih₂ =>
      obtain ⟨_, hnd'⟩ := List.nodup_cons.mp hnd
      obtain ⟨hnd₁, hnd₂, hdisj⟩ := List.nodup_append.mp hnd'
      -- where a parent is, there is the child
      have hplace : ∀ {u : α}, u ∈ z :: (below ++ rest) → Child children u c →
          (u = z ∧ c ∈ cs) ∨ (u ∈ below ∧ c ∈ below ∧ c ∉ cs) ∨ (u ∈ rest ∧ c ∈ rest) := by
        intro u hu huc
        rcases List.mem_cons.mp hu with rfl | hu
        · obtain ⟨cs', hcs, hmem⟩ := huc
          obtain rfl := Option.some.inj (hz.symm.trans hcs)
          exact Or.inl ⟨rfl, hmem⟩
        · rcases List.mem_append.mp hu with hu | hu
          · exact Or.inr (Or.inl ⟨hu, hbelow.child_mem hu huc, hbelow.not_root hnd₁ hu huc⟩)
          · exact Or.inr (Or.inr ⟨hu, hrest.child_mem hu huc⟩)
      have hsub : c ∈ cs → c ∈ below := fun hmem => hbelow.roots_sublist.subset hmem
      rcases hplace hx hxc with ⟨rfl, hcx⟩ | ⟨hxb, hcx, hnx⟩ | ⟨hxr, hcx⟩
      · rcases hplace hy hyc with ⟨rfl, _⟩ | ⟨_, _, hny⟩ | ⟨_, hcy⟩
        · rfl
        · exact absurd hcx hny
        · exact absurd rfl (hdisj c (hsub hcx) c hcy)
      · rcases hplace hy hyc with ⟨rfl, hcy⟩ | ⟨hyb, _, _⟩ | ⟨_, hcy⟩
        · exact absurd hcy hnx
        · exact ih₁ hnd₁ hxb hyb hxc hyc
        · exact absurd rfl (hdisj c hcx c hcy)
      · rcases hplace hy hyc with ⟨rfl, hcy⟩ | ⟨_, hcy, _⟩ | ⟨hyr, _⟩
        · exact absurd rfl (hdisj c (hsub hcy) c hcx)
        · exact absurd rfl (hdisj c hcy c hcx)
        · exact ih₂ hnd₂ hxr hyr hxc hyc

/-- Every node below the roots has its parent. -/
theorem exists_parent [Nonempty α] (h : PreOrder children roots order) (hnd : order.Nodup) :
    ∃ par : α → α, ∀ x ∈ order, ∀ c, Child children x c → par c = x := by
  classical
  refine ⟨fun c => if hc : ∃ x, x ∈ order ∧ Child children x c then hc.choose else
    Classical.arbitrary α, fun x hx c hc => ?_⟩
  have hex : ∃ x, x ∈ order ∧ Child children x c := ⟨x, hx, hc⟩
  dsimp only
  rw [dif_pos hex]
  exact h.parent_unique hnd hex.choose_spec.1 hx hex.choose_spec.2 hc

/-! ### Existence -/

section
variable {live : Set α} {rank : α → ℕ}

/-- Children of smaller rank can be listed below any roots. -/
theorem exists_of_rank (rank : α → ℕ) (hchild : ∀ x ∈ live, ∃ cs, children x = some cs ∧
      ∀ c ∈ cs, c ∈ live ∧ rank c < rank x) :
    ∀ (n : ℕ) (roots : List α), (∀ x ∈ roots, x ∈ live ∧ rank x < n) →
      ∃ order, PreOrder children roots order ∧ ∀ x ∈ order, x ∈ live
  | _, [], _ => ⟨[], PreOrder.nil, fun x hx => absurd hx List.not_mem_nil⟩
  | 0, x :: roots, hr => absurd (hr x (List.mem_cons_self ..)).2 (Nat.not_lt_zero _)
  | n + 1, x :: roots, hr => by
      obtain ⟨hx, hlt⟩ := hr x (List.mem_cons_self ..)
      obtain ⟨cs, hcs, hc⟩ := hchild x hx
      obtain ⟨below, hbelow, hbl⟩ := exists_of_rank rank hchild n cs (fun c hmem =>
        ⟨(hc c hmem).1, Nat.lt_of_lt_of_le (hc c hmem).2 (Nat.le_of_lt_succ hlt)⟩)
      obtain ⟨rest, hrest, hrl⟩ := exists_of_rank rank hchild (n + 1) roots
        (fun y hy => hr y (List.mem_cons_of_mem x hy))
      refine ⟨x :: (below ++ rest), PreOrder.cons hcs hbelow hrest, fun y hy => ?_⟩
      rcases List.mem_cons.mp hy with rfl | hy
      · exact hx
      · exact (List.mem_append.mp hy).elim (hbl y) (hrl y)

/-- What can be reached has no larger rank. -/
theorem rank_le_of_reach (hchild : ∀ x ∈ live, ∀ c, Child children x c → c ∈ live ∧ rank c < rank x)
    (hx : x ∈ live) (h : Relation.ReflTransGen (Child children) x y) : y ∈ live ∧
    rank y ≤ rank x := by
  induction h with
  | refl => exact ⟨hx, Nat.le_refl _⟩
  | tail _ hc ih =>
      obtain ⟨hl, hlt⟩ := hchild _ ih.1 _ hc
      exact ⟨hl, Nat.le_trans (Nat.le_of_lt hlt) ih.2⟩

/-- With one parent for every node, of two nodes that reach a third one reaches the other. -/
theorem reach_total {par : α → α} {z : α}
    (hchild : ∀ x ∈ live, ∀ c, Child children x c → c ∈ live ∧ rank c < rank x ∧ par c = x)
    (hx : x ∈ live) (hy : y ∈ live) (hxz : Relation.ReflTransGen (Child children) x z)
    (hyz : Relation.ReflTransGen (Child children) y z) :
    Relation.ReflTransGen (Child children) x y ∨ Relation.ReflTransGen (Child children) y x := by
  have hrank := fun x hx c hc => (⟨(hchild x hx c hc).1, (hchild x hx c hc).2.1⟩ :
    c ∈ live ∧ rank c < rank x)
  induction hxz with
  | refl => exact Or.inr hyz
  | @tail b c hxb hbc ih =>
      rcases Relation.ReflTransGen.cases_tail hyz with rfl | ⟨p, hyp, hpc⟩
      · exact Or.inl (hxb.tail hbc)
      · have hbl := (rank_le_of_reach hrank hx hxb).1
        have hpl := (rank_le_of_reach hrank hy hyp).1
        have hpb : p = b := ((hchild p hpl c hpc).2.2).symm.trans (hchild b hbl c hbc).2.2
        exact ih (hpb ▸ hyp)

/-- With one parent for every node, no node of the forest below different children is listed twice.
-/
theorem nodup_of_parent (h : PreOrder children roots order) (rank : α → ℕ) (par : α → α)
    (hchild : ∀ x ∈ live, ∀ c, Child children x c → c ∈ live ∧ rank c < rank x ∧ par c = x)
    (hnd : ∀ x ∈ live, ∀ cs, children x = some cs → cs.Nodup) (hroots : roots.Nodup)
    (hlive : ∀ x ∈ roots, x ∈ live)
    (hmeet : ∀ r ∈ roots, ∀ r' ∈ roots, Relation.ReflTransGen (Child children) r r' → r = r') :
    order.Nodup := by
  have hrank := fun x hx c hc => (⟨(hchild x hx c hc).1, (hchild x hx c hc).2.1⟩ :
    c ∈ live ∧ rank c < rank x)
  induction h with
  | nil => exact List.nodup_nil
  | @cons x cs roots below rest hx hbelow hrest ih₁ ih₂ =>
      obtain ⟨hxr, hroots'⟩ := List.nodup_cons.mp hroots
      have hxl := hlive x (List.mem_cons_self ..)
      have hcs : ∀ c ∈ cs, c ∈ live ∧ rank c < rank x ∧ par c = x :=
        fun c hc => hchild x hxl c ⟨cs, hx, hc⟩
      -- a child that can be reached from a sibling is the sibling itself
      have hsib : ∀ r ∈ cs, ∀ r' ∈ cs, Relation.ReflTransGen (Child children) r r' → r = r' := by
        intro r hr r' hr' hreach
        rcases Relation.ReflTransGen.cases_tail hreach with heq | ⟨p, hp, hpc⟩
        · exact heq.symm
        · obtain ⟨hpl, hple⟩ := rank_le_of_reach hrank (hcs r hr).1 hp
          have hpx : p = x := ((hchild p hpl r' hpc).2.2).symm.trans (hcs r' hr').2.2
          rw [hpx] at hple
          exact absurd hple (Nat.not_le.mpr (hcs r hr).2.1)
      have hbn := ih₁ (hnd x hxl cs hx) (fun c hc => (hcs c hc).1) hsib
      have hrn := ih₂ hroots' (fun r hr => hlive r (List.mem_cons_of_mem x hr))
        (fun r hr r' hr' => hmeet r (List.mem_cons_of_mem x hr) r' (List.mem_cons_of_mem x hr'))
      refine List.nodup_cons.mpr ⟨fun hmem => ?_, List.nodup_append.mpr ⟨hbn, hrn, ?_⟩⟩
      · rcases List.mem_append.mp hmem with hb | hr
        · obtain ⟨c, hc, hreach⟩ := hbelow.mem_iff.mp hb
          have hle := (rank_le_of_reach hrank (hcs c hc).1 hreach).2
          exact absurd (hcs c hc).2.1 (Nat.not_lt.mpr hle)
        · obtain ⟨r, hroot, hreach⟩ := hrest.mem_iff.mp hr
          have heq := hmeet r (List.mem_cons_of_mem x hroot) x (List.mem_cons_self ..) hreach
          exact hxr (heq ▸ hroot)
      · rintro y hyb z hyr rfl
        obtain ⟨c, hc, hreach⟩ := hbelow.mem_iff.mp hyb
        obtain ⟨r, hr, hreach'⟩ := hrest.mem_iff.mp hyr
        have hxy : Relation.ReflTransGen (Child children) x y :=
          Relation.ReflTransGen.head ⟨cs, hx, hc⟩ hreach
        rcases reach_total hchild hxl (hlive r (List.mem_cons_of_mem x hr)) hxy hreach' with h | h
        · exact hxr (hmeet x (List.mem_cons_self ..) r (List.mem_cons_of_mem x hr) h ▸ hr)
        · exact hxr (hmeet r (List.mem_cons_of_mem x hr) x (List.mem_cons_self ..) h ▸ hr)

end

/-! ### The traversal -/

theorem visit_cons {fuel : ℕ} {stack cs : List α} (hx : children x = some cs) :
    visit children (fuel + 1) (x :: stack) =
      (visit children fuel (cs ++ stack)).map (fun rest => x :: rest) := by
  rw [visit, hx, Option.bind_eq_bind, Option.bind_some]
  cases visit children fuel (cs ++ stack) <;> rfl

/-- A traversal with a stack lists the trees on top of the stack first. -/
theorem visit_append (h : PreOrder children roots order) (fuel : ℕ) (stack : List α) :
    visit children (order.length + fuel) (roots ++ stack) =
      (visit children fuel stack).map (order ++ ·) := by
  induction h generalizing fuel stack with
  | nil =>
      rw [List.length_nil, Nat.zero_add, List.nil_append]
      cases visit children fuel stack <;> rfl
  | @cons x cs roots below rest hx _ _ ih₁ ih₂ =>
      have hlen :
        (x :: (below ++ rest)).length + fuel = below.length + (rest.length + fuel) + 1 := by
        rw [List.length_cons, List.length_append]
        omega
      rw [hlen, List.cons_append, visit_cons hx, ih₁, ih₂, Option.map_map, Option.map_map]
      congr 1
      funext l
      simp

theorem visit_eq (h : PreOrder children roots order) {fuel : ℕ} (hfuel : order.length ≤ fuel) :
    visit children fuel roots = some order := by
  obtain ⟨k, rfl⟩ := Nat.exists_eq_add_of_le hfuel
  have hv := h.visit_append k []
  rw [List.append_nil] at hv
  rw [hv]
  cases k <;> simp [visit]

end PreOrder

end LearnedIndex.Forests
