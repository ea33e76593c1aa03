import LearnedIndex.Alexol.ModelNode
import Mathlib.Data.List.Sort

/-! # The fanout tree (`alex_fanout_tree.h`)

To divide the keys of a node, candidate fanouts `2^0, 2^1, ...` are compared level by level, the
best level is chosen, neighbours are merged where that is cheaper, and the nodes in use are
collected from left to right.

The costs of a candidate data node are not computed here: they are parameters (`Params`), and
every choice that depends on them is covered. -/

namespace LearnedIndex.Alexol

/-- `splitting_policy_method`. -/
inductive SplittingPolicy where
  | alwaysTwo
  | noneOrTwo
  | fullFanoutTree
deriving DecidableEq

/-- A cost with the two statistics that are computed along with it. -/
structure NodeCost where
  cost : ℚ
  numSearchIterations : ℚ
  numShifts : ℚ
deriving DecidableEq

/-- The parameters of an index, with the cost functions of `AlexDataNode`. -/
structure Params (M P : Type) where
  T : KeyType
  maxFanout : ℕ
  maxDataNodeSlots : ℕ
  /-- `max_slots_` of a data node that is constructed without a size. -/
  defaultMaxSlots : ℕ
  approximateModelComputation : Bool
  splittingPolicyMethod : SplittingPolicy
  /-- `sizeof(AlexDataNode<T, P>)`. -/
  sizeofDataNode : ℕ
  /-- `compute_expected_cost` of an array of pairs. -/
  loadCost : List (ℤ × P) → M → NodeCost
  /-- `compute_expected_cost_from_existing` of a range of positions. -/
  existingCost : DataNode M P → ℕ → ℕ → M → NodeCost
  /-- `compute_expected_cost` of a node. -/
  currentCost : DataNode M P → NodeCost
  /-- The word behind the bitmap that an iterator started at the capacity may read. -/
  past : Slots P → Words.Word

def kModelSizeWeight : ℚ := 5 / 10000000

/-- A node of the fanout tree. -/
structure FTNode (M : Type) where
  level : ℕ
  nodeId : ℕ
  cost : ℚ
  leftBoundary : ℕ
  rightBoundary : ℕ
  leftLimit : ℚ
  rightLimit : ℚ
  use : Bool
  expectedAvgSearchIterations : ℚ
  expectedAvgShifts : ℚ
  model : M
  numKeys : ℕ

namespace FanoutTree

variable {M P : Type}

/-! ### Helpers -/

/-- The leftmost slot of a node on the deepest level. -/
def slotOf (maxLevel : ℕ) (n : FTNode M) : ℕ := n.nodeId <<< (maxLevel - n.level)

/-- Collect all used nodes of the tree and sort them from left to right. -/
def collectUsedNodes (fanoutTree : List (List (FTNode M))) (maxLevel : ℕ) : List (FTNode M) :=
  let maxLevel := min maxLevel (fanoutTree.length - 1)
  let used := (fanoutTree.take (maxLevel + 1)).flatten.filter FTNode.use
  used.insertionSort (fun x y => slotOf maxLevel x ≤ slotOf maxLevel y)

def nodeAt (fanoutTree : List (List (FTNode M))) (level i : ℕ) : Option (FTNode M) :=
  (fanoutTree[level]?).bind (fun nodes => nodes[i]?)

def setUse (fanoutTree : List (List (FTNode M))) (level i : ℕ) (use : Bool) :
    List (List (FTNode M)) :=
  fanoutTree.modify level (fun nodes => nodes.modify i (fun n => { n with use := use }))

/-- Replace the children of node `i` of the level above by that node. -/
def mergePair (fanoutTree : List (List (FTNode M))) (level i : ℕ) : List (List (FTNode M)) :=
  setUse (setUse (setUse fanoutTree level (2 * i) false) level (2 * i + 1) false) (level - 1) i true

/-- What a merge into `parent` saves per key of the parent. -/
def mergingCostSaving (C : Params M P) (totalKeys : ℤ) (left right parent : FTNode M) : ℚ :=
  left.cost * left.numKeys / parent.numKeys + right.cost * right.numKeys / parent.numKeys -
    parent.cost + kModelSizeWeight * C.sizeofDataNode * totalKeys / parent.numKeys

/-- One step of the merge loop: the tree, the best cost and whether there was a merge. -/
def mergeStep (C : Params M P) (numKeys : ℕ) (totalKeys : ℤ) (level i : ℕ)
    (st : List (List (FTNode M)) × ℚ × Bool) : Option (List (List (FTNode M)) × ℚ × Bool) := do
  let (tree, bestCost, _) := st
  let left ← nodeAt tree level (2 * i)
  let right ← nodeAt tree level (2 * i + 1)
  let parent ← nodeAt tree (level - 1) i
  let saving := mergingCostSaving C totalKeys left right parent
  if left.use ∧ right.use then
    if parent.numKeys = 0 then
      some (mergePair tree level i,
        bestCost - kModelSizeWeight * C.sizeofDataNode * totalKeys / numKeys, true)
    else if 0 ≤ saving then
      some (mergePair tree level i, bestCost - saving * parent.numKeys / numKeys, true)
    else some st
  else some st

/-- `merge_nodes_upwards`: level by level, until a level has no merge. -/
def mergeNodesUpwards (C : Params M P) (numKeys : ℕ) (totalKeys : ℤ) :
    ℕ → ℚ → List (List (FTNode M)) → Option (ℚ × List (List (FTNode M)))
  | 0, bestCost, tree => some (bestCost, tree)
  | level + 1, bestCost, tree => do
      let (tree, bestCost, merged) ← (List.range (2 ^ (level + 1) / 2)).foldlM
        (fun st i => mergeStep C numKeys totalKeys (level + 1) i st) (tree, bestCost, false)
      if merged then mergeNodesUpwards C numKeys totalKeys level bestCost tree
      else some (bestCost, tree)

/-- The levels of the tree so far, the latest cost first; no best cost stands for the largest
`double`. -/
structure Growth (M : Type) where
  bestLevel : ℕ
  bestCost : Option ℚ
  fanoutCosts : List ℚ
  fanoutTree : List (List (FTNode M))

/-- The cost has increased twice in a row. -/
def costsIncrease : List ℚ → Bool
  | c₁ :: c₂ :: c₃ :: _ => decide (c₂ < c₁) && decide (c₃ < c₂)
  | _ => false

/-- `cost < best_cost`. -/
def cheaper (cost : ℚ) : Option ℚ → Bool
  | none => true
  | some best => decide (cost < best)

/-- Take a level into the tree. -/
def Growth.push (g : Growth M) (level : ℕ) (nodes : List (FTNode M)) (cost : ℚ) : Growth M where
  bestLevel := if cheaper cost g.bestCost then level else g.bestLevel
  bestCost := if cheaper cost g.bestCost then some cost else g.bestCost
  fanoutCosts := cost :: g.fanoutCosts
  fanoutTree := g.fanoutTree ++ [nodes]

/-- Add levels until the cost increases twice in a row or the largest fanout is reached.  `compute`
returns the nodes and the cost of a level and may change a state. -/
def grow {σ : Type} (compute : σ → ℕ → Option (List (FTNode M) × ℚ × σ)) :
    ℕ → ℕ → Growth M → σ → Option (Growth M × σ)
  | 0, _, g, st => some (g, st)
  | remaining + 1, level, g, st => do
      let (nodes, cost, st) ← compute st level
      if costsIncrease (cost :: g.fanoutCosts) then some (g, st)
      else grow compute remaining (level + 1) (g.push level nodes cost) st

/-- Use the best level, merge nodes to improve the cost and collect the nodes in use. -/
def choose (C : Params M P) (numKeys : ℕ) (totalKeys : ℤ) (g : Growth M) :
    Option (ℕ × ℚ × List (FTNode M)) := do
  let tree := g.fanoutTree.modify g.bestLevel (List.map (fun n => { n with use := true }))
  let (bestCost, tree) ← mergeNodesUpwards C numKeys totalKeys g.bestLevel
    (g.bestCost.getD 0) tree
  some (g.bestLevel, bestCost, collectUsedNodes tree g.bestLevel)

/-- The cost of looking up the level and storing it. -/
def traversalCost (C : Params M P) (numKeys : ℕ) (totalKeys : ℤ) (fanout : ℕ) : ℚ :=
  kNodeLookupsWeight +
    kModelSizeWeight * fanout * (C.sizeofDataNode + 8 : ℕ) * totalKeys / numKeys

/-- The weighted costs of the nodes of a level. -/
def levelCost (C : Params M P) (numKeys : ℕ) (totalKeys : ℤ) (fanout : ℕ)
    (nodes : List (FTNode M)) : ℚ :=
  (nodes.map (fun n => n.cost * (n.numKeys : ℚ) / numKeys)).sum + traversalCost C numKeys
    totalKeys fanout

/-! ### Bulk loading -/

variable [NodeModel M]

/-- `std::lower_bound` in a sorted array. -/
def lowerBoundIn (values : List (ℤ × P)) (x : ℚ) : ℕ :=
  (values.takeWhile (fun v => decide ((v.1 : ℚ) < x))).length

/-- The end of part `i` of the array.  With `std::less<T>` the boundary is converted to a key. -/
def partEnd (exact : Bool) (values : List (ℤ × P)) (model : LinearModel) (fanout i : ℕ) : ℕ :=
  let x := (((i + 1 : ℕ) : ℚ) - model.b) / model.a
  let right := if i = fanout - 1 then values.length
    else lowerBoundIn values (if exact then x else (trunc x : ℚ))
  -- off-by-one errors of the boundary are repaired with the prediction itself
  right + ((values.drop right).takeWhile (fun v => decide (model.predict v.1 ≤ i))).length

/-- The tree node of part `i`, from `left` on. -/
def partNode (C : Params M P) (exact : Bool) (values : List (ℤ × P)) (model : LinearModel)
    (level maxDataNodeKeys i left : ℕ) : FTNode M :=
  let right := partEnd exact values model (2 ^ level) i
  let part := (values.take right).drop left
  let nodeModel := NodeModel.train C.approximateModelComputation (part.map Prod.fst)
  let stats := C.loadCost part nodeModel
  let empty := left = right
  { level := level
    nodeId := i
    cost := if empty then 0
      else if maxDataNodeKeys < right - left then stats.cost + kNodeLookupsWeight else stats.cost
    leftBoundary := left
    rightBoundary := right
    leftLimit := 0
    rightLimit := 0
    use := false
    expectedAvgSearchIterations := if empty then 0 else stats.numSearchIterations
    expectedAvgShifts := if empty then 0 else stats.numShifts
    model := if empty then NodeModel.zero else nodeModel
    numKeys := if empty then 0 else right - left }

/-- The nodes of a level, from part `i` on. -/
def partNodes (C : Params M P) (exact : Bool) (values : List (ℤ × P)) (model : LinearModel)
    (level maxDataNodeKeys : ℕ) : ℕ → ℕ → ℕ → List (FTNode M)
  | 0, _, _ => []
  | remaining + 1, i, left =>
      let node := partNode C exact values model level maxDataNodeKeys i left
      node :: partNodes C exact values model level maxDataNodeKeys remaining (i + 1)
        node.rightBoundary

/-- Computes one complete level of the fanout tree; `node` outputs a CDF value in `[0, 1)`. -/
def computeLevel (C : Params M P) (exact : Bool) (values : List (ℤ × P)) (node : LinearModel)
    (totalKeys : ℤ) (level maxDataNodeKeys : ℕ) : Option (List (FTNode M) × ℚ) :=
  let nodes := partNodes C exact values (node.expand (2 ^ level : ℕ)) level maxDataNodeKeys
    (2 ^ level) 0 0
  if node.a = 0 then none
  else some (nodes, levelCost C values.length totalKeys (2 ^ level) nodes)

/-- `find_best_fanout_bottom_up`: the depth, the cost and the used nodes. -/
def findBestFanoutBottomUp (C : Params M P) (values : List (ℤ × P)) (node : ModelNode)
    (totalKeys : ℤ) (maxDataNodeKeys : ℕ) : Option (ℕ × ℚ × List (FTNode M)) := do
  let bestCost := node.cost + kNodeLookupsWeight
  let root : FTNode M := {
    level := 0
    nodeId := 0
    cost := bestCost
    leftBoundary := 0
    rightBoundary := values.length
    leftLimit := 0
    rightLimit := 0
    use := false
    expectedAvgSearchIterations := 0
    expectedAvgShifts := 0
    model := NodeModel.zero
    numKeys := values.length }
  let (g, _) ← grow
    (fun (st : Unit) level => (computeLevel C true values node.model totalKeys level
      maxDataNodeKeys).map (fun r => (r.1, r.2, st)))
    (Nat.log2 C.maxFanout) 1 ⟨0, some bestCost, [bestCost], [[root]]⟩ ()
  choose C values.length totalKeys g

/-! ### Splitting an existing data node -/

/-- The keys an iterator visits between two positions. -/
def keysBetween (C : Params M P) (node : DataNode M P) (left right : ℕ) : Option (List ℤ) := do
  let positions ← node.positionsFrom (some (C.past node.toSlots)) left
  node.keysBelow right positions

/-- The end position of part `i` of the key range of the node. -/
def rangeEnd (node : DataNode M P) (base : LinearModel) (fanout i : ℕ) :
    Option (ℕ × DataNode M P) :=
  if i = fanout - 1 then some (node.dataCapacity, node)
  else node.lowerBound ((((i + 1 : ℕ) : ℚ) - base.b) / base.a)

/-- The right limit of part `i`. -/
def rangeLimit (node : DataNode M P) (base : LinearModel) (fanout i : ℕ) : ℚ :=
  if i = fanout - 1 then node.maxLimit else (((i + 1 : ℕ) : ℚ) - base.b) / base.a

/-- The tree node of the positions from `left` to `right`. -/
def rangeNode (C : Params M P) (node : DataNode M P) (level i left right : ℕ)
    (leftLimit rightLimit : ℚ) : Option (FTNode M) := do
  let empty : FTNode M := {
    level := level
    nodeId := i
    cost := 0
    leftBoundary := left
    rightBoundary := right
    leftLimit := leftLimit
    rightLimit := rightLimit
    use := false
    expectedAvgSearchIterations := 0
    expectedAvgShifts := 0
    model := NodeModel.zero
    numKeys := 0 }
  if left = right then some empty
  else
    let keys ← keysBetween C node left right
    let model := NodeModel.train false keys
    let stats := C.existingCost node left right model
    some { empty with
      cost := stats.cost
      expectedAvgSearchIterations := stats.numSearchIterations
      expectedAvgShifts := stats.numShifts
      model := model
      numKeys := keys.length }

/-- The nodes of a level, from part `i` on; the searches count lookups in the node. -/
def rangeNodes (C : Params M P) (base : LinearModel) (level : ℕ) :
    ℕ → ℕ → ℕ → ℚ → DataNode M P → Option (List (FTNode M) × DataNode M P)
  | 0, _, _, _, node => some ([], node)
  | remaining + 1, i, left, leftLimit, node => do
      let (right, node) ← rangeEnd node base (2 ^ level) i
      let rightLimit := rangeLimit node base (2 ^ level) i
      let n ← rangeNode C node level i left right leftLimit rightLimit
      let (ns, node) ← rangeNodes C base level remaining (i + 1) right rightLimit node
      some (n :: ns, node)

/-- One complete level over the key range of the node. -/
def existingLevel (C : Params M P) (totalKeys : ℤ) (node : DataNode M P) (level : ℕ) :
    Option (List (FTNode M) × ℚ × DataNode M P) := do
  if node.maxLimit = node.minLimit then none
  else
    let a := 1 / (node.maxLimit - node.minLimit)
    let base : LinearModel := ⟨a, -1 * a * node.minLimit⟩
    let (nodes, node) ← rangeNodes C (base.expand (2 ^ level : ℕ)) level (2 ^ level) 0 0
      node.minLimit node
    some (nodes, levelCost C node.numKeys totalKeys (2 ^ level) nodes, node)

/-- `find_best_fanout_existing_node_without_parent`: the depth, the used nodes and the node with
its counters. -/
def findBestFanoutExistingNode (C : Params M P) (node : DataNode M P) (totalKeys : ℤ)
    (maxFanout : ℕ) : Option (ℕ × List (FTNode M) × DataNode M P) := do
  let (g, node) ← grow (existingLevel C totalKeys) (Nat.log2 maxFanout + 1) 0 ⟨0, none, [], []⟩ node
  let (depth, _, used) ← choose C node.numKeys totalKeys g
  some (depth, used, node)

end FanoutTree

end LearnedIndex.Alexol
