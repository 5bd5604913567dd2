import LibKern.LeftistHeap
import LibKern.Program

namespace LibKern.LHeap

/-!
# The leftist heap functions

This module transcribes the function-like macros of `include/lheap.h`.  A node
is a cell with a parent, two children, and the null-path length as its tag.
Every access fails on an unmapped address, in particular on `NULL`.
-/

open Program

/-- `struct lh_node`; the tag of the cell is `lh_npl`. -/
abbrev LhNode := Cell Word Int

/-- The memory of `struct lh_node` objects and `heap->lh_node`. -/
structure LhState where
  nodes : Memory Word LhNode
  lhNode : Word

namespace LhState

/-- Rewrite one node in place. -/
def modify
    (state : LhState)
    (target : Word)
    (change : LhNode → LhNode) : LhState :=
  { state with nodes := state.nodes.modify target change }

@[simp] theorem nodes_modify
    (state : LhState)
    (target : Word)
    (change : LhNode → LhNode) :
    (state.modify target change).nodes =
      state.nodes.modify target change :=
  rfl

@[simp] theorem lhNode_modify
    (state : LhState)
    (target : Word)
    (change : LhNode → LhNode) :
    (state.modify target change).lhNode = state.lhNode :=
  rfl

end LhState

/-- Read a field of a node. -/
def load {α : Type} (node : Word) (field : LhNode → α) :
    Program LhState α :=
  reads fun state => (state.nodes.cell node).map field

/-- Rewrite a node. -/
def store
    (node : Word)
    (change : LhNode → LhNode) :
    Program LhState Unit :=
  updates fun state =>
    (state.nodes.cell node).map fun _ => state.modify node change

/-- `node->lh_parent`. -/
def lhParent (node : Word) : Program LhState Word :=
  load node Cell.parent

/-- `node->lh_left`. -/
def lhLeft (node : Word) : Program LhState Word :=
  load node Cell.left

/-- `node->lh_right`. -/
def lhRight (node : Word) : Program LhState Word :=
  load node Cell.right

/-- `node->lh_npl`. -/
def lhNpl (node : Word) : Program LhState Int :=
  load node Cell.tag

/-- Assignment to `node->lh_parent`. -/
def setParent (node parent : Word) : Program LhState Unit :=
  store node (Cell.withParent parent)

/-- Assignment to `node->lh_left`. -/
def setLeft (node child : Word) : Program LhState Unit :=
  store node (Cell.withChild .left child)

/-- Assignment to `node->lh_right`. -/
def setRight (node child : Word) : Program LhState Unit :=
  store node (Cell.withChild .right child)

/-- Assignment to `node->lh_npl`. -/
def setNpl (node : Word) (npl : Int) : Program LhState Unit :=
  store node (Cell.withTag npl)

/-- `lh_min(heap)`. -/
def lhMin : Program LhState Word :=
  reads fun state => some state.lhNode

/-- Assignment to `heap->lh_node`. -/
def setHeap (node : Word) : Program LhState Unit :=
  updates fun state => some { state with lhNode := node }

/-- `lh_entry(ptr, type, member)` for a member at this byte offset. -/
def lhEntry (member ptr : Word) : Word :=
  ptr - member

/-- `lh_node_init(node)`. -/
def lhNodeInit (node : Word) : Program LhState Unit := do
  setParent node null
  setRight node null
  setLeft node null
  setNpl node 0

/-- `lh_swap(node->lh_left, node->lh_right)`. -/
def lhSwapChildren (node : Word) : Program LhState Unit := do
  let temp ← lhLeft node
  let right ← lhRight node
  setLeft node right
  setRight node temp

/-- `node->lh_npl = node->lh_right != NULL ? node->lh_right->lh_npl + 1 : 0`. -/
def lhUpdateNpl (node : Word) : Program LhState Unit := do
  let right ← lhRight node
  if right ≠ null then do
    let npl ← lhNpl right
    setNpl node (npl + 1)
  else
    setNpl node 0

/-- Change the order of the children if requested and update `lh_npl`. -/
def lhRebuild (node : Word) (swaps : Bool) : Program LhState Unit := do
  onlyIf (swaps = true) (lhSwapChildren node)
  lhUpdateNpl node

section Merge

variable {κ : Type} (member : Word) (key : Word → κ) (cmp : κ → κ → Int)

/-- `cmp` applied to the keys of the structures that embed two nodes. -/
def compare (first second : Word) : Int :=
  cmp (key (lhEntry member first)) (key (lhEntry member second))

/-- The downward loop of `lh_merge`. -/
def lhMergeDown :
    Word × Word → Program LhState (Flow (Word × Word) Word)
  | (merged, mergee) =>
      if merged ≠ null ∧ mergee ≠ null then do
        let right ← lhRight merged
        if right = null ∨ compare member key cmp right mergee < 0 then do
          setRight merged mergee
          let attached ← lhRight merged
          setParent attached merged
          if right = null then
            pure (.done merged)
          else do
            let following ← lhRight merged
            pure (.next (following, right))
        else do
          let following ← lhRight merged
          pure (.next (following, mergee))
      else
        pure (.done merged)

/-- `lh_merge` decides whether the children of a node change places. -/
def lhMergeSwaps (merged : Word) : Program LhState Bool := do
  let left ← lhLeft merged
  if left = null then
    pure true
  else do
    let right ← lhRight merged
    if right ≠ null then do
      let leftNpl ← lhNpl left
      let rightNpl ← lhNpl right
      pure (leftNpl < rightNpl)
    else
      pure false

/-- The upward loop of `lh_merge`. -/
def lhMergeUp (merged : Word) : Program LhState (Flow Word Word) :=
  if merged ≠ null then do
    let swaps ← lhMergeSwaps merged
    lhRebuild merged swaps
    let parent ← lhParent merged
    if parent = null then
      pure (.done merged)
    else
      pure (.next parent)
  else
    pure (.done merged)

/-- The part of `lh_merge` for two heaps that are present. -/
def lhMergeBoth (merged mergee : Word) : Program LhState Word := do
  let lowest ← loop (lhMergeDown member key cmp) (merged, mergee)
  loop lhMergeUp lowest

/-- `lh_merge(heap1, heap2, type, member, key, cmp)`. -/
def lhMerge (heap1 heap2 : Word) : Program LhState Word :=
  if heap1 = null then
    pure heap2
  else if heap2 ≠ null then
    if compare member key cmp heap1 heap2 < 0 then
      lhMergeBoth member key cmp heap2 heap1
    else
      lhMergeBoth member key cmp heap1 heap2
  else
    pure heap1

/-- `lh_insert(heap, type, member, key, item, cmp)`. -/
def lhInsert (item : Word) : Program LhState Unit := do
  let root ← lhMin
  let merged ← lhMerge member key cmp root item
  setHeap merged

/-- `lh_del_min(heap, type, member, key, cmp)`. -/
def lhDelMin : Program LhState Unit := do
  let root ← lhMin
  let left ← lhLeft root
  let right ← lhRight root
  let merged ← lhMerge member key cmp left right
  setHeap merged

/-- `lh_del` makes a child of the deleted node a root. -/
def lhOrphan (child : Word) : Program LhState Unit :=
  onlyIf (child ≠ null) (setParent child null)

/-- `lh_del` merges the children of the deleted node. -/
def lhDelChildren (item : Word) : Program LhState Word := do
  let left ← lhLeft item
  lhOrphan left
  let right ← lhRight item
  lhOrphan right
  let left ← lhLeft item
  let right ← lhRight item
  lhMerge member key cmp left right

/-- `lh_del` clears the links of the deleted node and returns its parent. -/
def lhIsolate (item : Word) : Program LhState Word := do
  setRight item null
  setLeft item null
  let parent ← lhParent item
  setParent item null
  pure parent

/-- `lh_del` cuts the deleted node off its parent. -/
def lhCut (item parent : Word) : Program LhState Unit := do
  setNpl parent 0
  let right ← lhRight parent
  onlyIf (right ≠ item) (do
    let sibling ← lhRight parent
    setLeft parent sibling)
  setRight parent null

/-- `lh_del` decides whether the children of a node change places. -/
def lhDelSwaps (parent : Word) : Program LhState Bool := do
  let right ← lhRight parent
  if right ≠ null then do
    let rightNpl ← lhNpl right
    let left ← lhLeft parent
    let leftNpl ← lhNpl left
    pure (rightNpl > leftNpl)
  else
    pure false

/-- The loop of `lh_del` that repairs the path to the root. -/
def lhDelUp (parent : Word) : Program LhState (Flow Word Unit) := do
  let above ← lhParent parent
  if above ≠ null then do
    let swaps ← lhDelSwaps above
    lhRebuild above swaps
    pure (.next above)
  else
    pure (.done ())

/-- `lh_del(heap, type, member, key, item, cmp)`. -/
def lhDel (item : Word) : Program LhState Unit := do
  let new ← lhDelChildren member key cmp item
  let parent ← lhIsolate item
  if parent ≠ null then do
    lhCut item parent
    loop lhDelUp parent
    let root ← lhMin
    let merged ← lhMerge member key cmp root new
    setHeap merged
  else
    setHeap new

end Merge

section Rules

variable {state : LhState} {node : Word}

@[simp] theorem ensures_load
    {α : Type}
    {field : LhNode → α}
    {post : α → LhState → Prop} :
    (load node field).Ensures state post ↔
      ∃ content, state.nodes.cell node = some content ∧
        post (field content) state := by
  cases mapped : state.nodes.cell node <;> simp [load, mapped]

@[simp] theorem ensures_store
    {change : LhNode → LhNode}
    {post : Unit → LhState → Prop} :
    (store node change).Ensures state post ↔
      (∃ content, state.nodes.cell node = some content) ∧
        post () (state.modify node change) := by
  cases mapped : state.nodes.cell node <;> simp [store, mapped]

@[simp] theorem ensures_lhMin
    {post : Word → LhState → Prop} :
    lhMin.Ensures state post ↔ post state.lhNode state := by
  simp [lhMin]

@[simp] theorem ensures_setHeap
    {post : Unit → LhState → Prop} :
    (setHeap node).Ensures state post ↔
      post () { state with lhNode := node } := by
  simp [setHeap]

end Rules

end LibKern.LHeap
