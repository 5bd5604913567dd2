import LibKern.RbTreeInsert
import LibKern.RbTreeErase

namespace LibKern.RbTree

/-!
# Red-black trees stay valid

A valid state holds a linked tree that meets the red-black conditions.  Linking
a fresh node at any vacant position and repairing the colours, and erasing any
node, lead from valid states to valid states and change the order of the nodes
only at the node in question.  The height bound of red-black trees therefore
applies to every state that the two operations can reach.
-/

open Program Context

/-- The state holds this tree, and the tree is a red-black tree. -/
structure RbState.Valid
    (state : RbState)
    (tree : Tree Word Color) : Prop where
  holds : state.Holds tree
  redBlack : tree.RedBlack

/-- The node occupies memory. -/
def RbState.Allocated (state : RbState) (node : Word) : Prop :=
  ∃ content, state.view.cell node = some content

/-- A red pair of nodes below a black root. -/
def sampleState : RbState :=
  .ofList
    [(8, ⟨16, 0, 0⟩), (16, ⟨1, 24, 8⟩), (24, ⟨16, 0, 0⟩),
      (32, ⟨0, 0, 0⟩)]
    16 (by decide)

/-- The tree that the sample state holds. -/
def sampleTree : Tree Word Color :=
  .node (.node .nil 8 .red .nil) 16 .black (.node .nil 24 .red .nil)

theorem sampleState_valid : sampleState.Valid sampleTree where
  holds :=
    { represents := by
        refine ⟨?_, ⟨?_, trivial, trivial⟩, ?_, trivial, trivial⟩ <;>
          decide
      rooted := rfl
      distinct := by decide }
  redBlack :=
    { rootBlack := rfl
      noRedRed := by
        simp [sampleTree, Tree.NoRedRed]
      equalPaths := ⟨1, by decide⟩ }

theorem sampleState_allocated : sampleState.Allocated 32 :=
  ⟨⟨0, 0, 0, .red⟩, by decide⟩

section Erase

variable {state : RbState} {tree : Tree Word Color} {node : Word}

/-- Erasing any node keeps the tree valid and the other nodes in order. -/
theorem ensures_rbErase_valid
    (valid : state.Valid tree)
    (member : node ∈ tree.inorder) :
    (rbErase node).Ensures state fun _ after =>
      ∃ result,
        after.Valid result ∧
          result.inorder = tree.inorder.erase node := by
  obtain ⟨context, left, tag, right, rfl⟩ :=
    Tree.exists_plug_of_mem member
  refine (ensures_rbErase valid.redBlack valid.holds).weaken ?_
  rintro _ after ⟨newContext, child, lost, result, unlink, repair,
    afterHolds⟩
  exact ⟨result,
    ⟨afterHolds, unlink.redBlack repair valid.redBlack⟩,
    unlink.inorder_erase repair valid.holds.distinct⟩

/--
On every valid red-black tree and for every node of it, `rb_erase` terminates
without an access to an unmapped address and leaves a valid red-black tree
that lists the other nodes in their old order.
-/
theorem rbErase_removes_node
    (valid : state.Valid tree)
    (member : node ∈ tree.inorder) :
    (rbErase node).Ensures state fun _ after =>
      ∃ result,
        after.Valid result ∧
          result.inorder = tree.inorder.erase node :=
  ensures_rbErase_valid valid member

theorem rbErase_removes_node_of_sample :
    (rbErase 16).Ensures sampleState fun _ after =>
      ∃ result,
        after.Valid result ∧
          result.inorder = sampleTree.inorder.erase 16 :=
  rbErase_removes_node sampleState_valid (by decide)

end Erase

section Link

variable {state : RbState}
variable {context : Context Word Color}
variable {node : Word}

/-- The pointer that leads to the hole of a context. -/
def slot : Context Word Color → RbLink
  | [] => .root
  | frame :: _ => .child frame.address frame.side

/-- Writing through the slot pointer hangs a node in the hole. -/
theorem ensures_storeLink
    {hole target : Word}
    {post : Unit → RbState → Prop}
    (around : RepresentsContext state.view context hole) :
    (storeLink (slot context) target).Ensures state post ↔
      post () (state.hang context target) := by
  cases context with
  | nil =>
      simp [storeLink, slot, RbState.hang]
  | cons frame rest =>
      simp [storeLink, slot, RbState.hang, setChild, around.1]

/-- `rb_link_node` puts a red leaf into the vacant position. -/
theorem ensures_rbLinkNode
    (holds : state.Holds (context.plug .nil))
    (allocated : state.Allocated node)
    (fresh : node ∉ (context.plug .nil).inorder) :
    (rbLinkNode node context.parent (slot context)).Ensures state
      fun _ after =>
        after.Holds
          (context.plug (.branch .left .nil node .red .nil)) := by
  obtain ⟨content, atNode⟩ := allocated
  obtain ⟨around, -⟩ := represents_plug.mp holds.represents
  have outside : node ∉ context.addresses := by
    simpa [mem_inorder_plug] using fresh
  have clear : LowClear context.parent :=
    RbState.Holds.lowClear_parent around
  have prepared :=
    ((around.modify_outside outside fun cell =>
      (cell.withParent context.parent).withTag .red).modify_outside
        outside (Cell.withChild .right null)).modify_outside
          outside (Cell.withChild .left null)
  simp only [rbLinkNode, ensures_bind, setChild, ensures_store,
    RbState.view_modify_parent _ _ clear, RbState.view_modify_setChild,
    Memory.modify_cell_same, atNode, Option.map_some, exists_eq',
    Option.some.injEq, true_and]
  rw [ensures_storeLink
    (by simpa [RbState.view_modify_parent, clear] using prepared)]
  refine holds.replug ?_ (by simp) ?_
  · rw [RbState.view_hang]
    simp only [RbState.view_modify_setChild,
      RbState.view_modify_parent _ _ clear]
    refine represents_plug.mpr ⟨?_, ?_⟩
    · rw [Tree.root_branch]
      exact prepared.hang
        (nodup_inorder_plug.mp holds.distinct).2.1 node
    · rw [represents_branch]
      refine ⟨?_, trivial, trivial⟩
      simp [Memory.hang_cell outside, atNode, Cell.withParent,
        Cell.withTag, Cell.withChild, Cell.make]
  · refine nodup_inorder_plug.mpr
      ⟨by simp, (nodup_inorder_plug.mp holds.distinct).2.1, ?_⟩
    simpa using outside

/-- Linking a fresh node and calling `rb_insert_color` carries out the repair. -/
theorem ensures_rbLinkNode_fix
    (valid : state.Valid (context.plug .nil))
    (allocated : state.Allocated node)
    (fresh : node ∉ (context.plug .nil).inorder) :
    (do
      rbLinkNode node context.parent (slot context)
      rbInsertColor node).Ensures state fun _ after =>
        ∃ result,
          InsertFix context (.branch .left .nil node .red .nil) result ∧
            after.Valid result := by
  obtain ⟨-, height, vacant, colored⟩ :=
    redBlack_plug.mp valid.redBlack
  obtain rfl : height = 0 := vacant
  rw [ensures_bind]
  refine (ensures_rbLinkNode valid.holds allocated fresh).weaken ?_
  intro _ linked linkedHolds
  have repaired :=
    ensures_rbInsertColor (by simp [Tree.branch])
      (topBlack_of_colored colored) linkedHolds
  rw [Tree.root_branch] at repaired
  refine repaired.weaken ?_
  rintro _ after ⟨result, fix, afterHolds⟩
  exact ⟨result, fix, afterHolds,
    fix.redBlack (by simp) (by simp) colored⟩

/-- Linking a fresh node and repairing the colours keeps the tree valid. -/
theorem ensures_rbLinkNode_valid
    (valid : state.Valid (context.plug .nil))
    (allocated : state.Allocated node)
    (fresh : node ∉ (context.plug .nil).inorder) :
    (do
      rbLinkNode node context.parent (slot context)
      rbInsertColor node).Ensures state fun _ after =>
        ∃ result,
          after.Valid result ∧
            result.inorder = context.before ++ node :: context.after := by
  refine (ensures_rbLinkNode_fix valid allocated fresh).weaken ?_
  rintro _ after ⟨result, fix, afterValid⟩
  refine ⟨result, afterValid, ?_⟩
  rw [fix.inorder, inorder_plug]
  simp [Tree.branch]

end Link

/--
A position of the tree without a node: the root pointer of an empty tree, or a
null child pointer.
-/
inductive Vacant
    (state : RbState)
    (tree : Tree Word Color) :
    Word → RbLink → Prop where
  | root :
      state.rbNode = null →
      Vacant state tree null .root
  | child
      {node : Word}
      {side : Side}
      {content : Cell Word Color} :
      node ∈ tree.inorder →
      state.view.cell node = some content →
      content.child side = null →
      Vacant state tree node (.child node side)

/-- Every vacant position is the hole of a context. -/
theorem Vacant.exists_context
    {state : RbState}
    {tree : Tree Word Color}
    {parent : Word}
    {link : RbLink}
    (vacant : Vacant state tree parent link)
    (holds : state.Holds tree) :
    ∃ context : Context Word Color,
      tree = context.plug .nil ∧
        context.parent = parent ∧
        slot context = link := by
  cases vacant with
  | root isNull =>
      have empty : tree = .nil := by
        rw [← holds.represents.root_eq_null_iff, ← holds.rooted, isNull]
      exact ⟨[], empty, rfl, rfl⟩
  | @child _ side content member mapped isNull =>
      obtain ⟨context, left, tag, right, rfl⟩ :=
        Tree.exists_plug_of_mem member
      obtain ⟨-, atParent, leftRep, rightRep⟩ :=
        represents_plug.mp holds.represents
      obtain rfl : ⟨context.parent, left.root, right.root, tag⟩ = content :=
        Option.some.inj (atParent.symm.trans mapped)
      cases side with
      | left =>
          obtain rfl : left = .nil :=
            leftRep.root_eq_null_iff.mp isNull
          exact ⟨⟨.left, parent, tag, right⟩ :: context, rfl, rfl, rfl⟩
      | right =>
          obtain rfl : right = .nil :=
            rightRep.root_eq_null_iff.mp isNull
          exact ⟨⟨.right, parent, tag, left⟩ :: context, rfl, rfl, rfl⟩

/--
The states reached from an empty tree by inserting at vacant positions and by
erasing, while the memory outside the tree changes in any way.
-/
inductive Reachable : RbState → Prop where
  | empty
      {state : RbState} :
      state.rbNode = null →
      Reachable state
  | elsewhere
      {state after : RbState}
      {tree : Tree Word Color} :
      Reachable state →
      state.Holds tree →
      after.rbNode = state.rbNode →
      (∀ node ∈ tree.inorder,
        after.nodes.cell node = state.nodes.cell node) →
      Reachable after
  | insert
      {state after : RbState}
      {tree : Tree Word Color}
      {node parent : Word}
      {link : RbLink} :
      Reachable state →
      state.Holds tree →
      Vacant state tree parent link →
      state.Allocated node →
      node ∉ tree.inorder →
      (do
        rbLinkNode node parent link
        rbInsertColor node).Returns state () after →
      Reachable after
  | erase
      {state after : RbState}
      {tree : Tree Word Color}
      {node : Word} :
      Reachable state →
      state.Holds tree →
      node ∈ tree.inorder →
      (rbErase node).Returns state () after →
      Reachable after

/-- A tree is not affected by changes outside of its nodes. -/
theorem RbState.Holds.elsewhere
    {state after : RbState}
    {tree : Tree Word Color}
    (holds : state.Holds tree)
    (sameRoot : after.rbNode = state.rbNode)
    (same :
      ∀ node ∈ tree.inorder,
        after.nodes.cell node = state.nodes.cell node) :
    after.Holds tree where
  represents :=
    holds.represents.congr fun node member => by
      simp [RbState.view_cell, same node member]
  rooted := sameRoot.trans holds.rooted
  distinct := holds.distinct

/-- An empty root pointer holds the empty red-black tree. -/
theorem RbState.valid_nil
    {state : RbState}
    (isNull : state.rbNode = null) :
    state.Valid .nil where
  holds := ⟨trivial, isNull, List.nodup_nil⟩
  redBlack := Tree.redBlack_nil

/-- Every reachable state is valid. -/
theorem Reachable.exists_valid
    {state : RbState}
    (reachable : Reachable state) :
    ∃ tree, state.Valid tree := by
  induction reachable with
  | empty isNull =>
      exact ⟨.nil, RbState.valid_nil isNull⟩
  | elsewhere _ holds sameRoot same inductionHypothesis =>
      obtain ⟨tree, valid⟩ := inductionHypothesis
      obtain rfl := holds.unique valid.holds
      exact ⟨_, holds.elsewhere sameRoot same, valid.redBlack⟩
  | insert _ holds vacant allocated fresh returned inductionHypothesis =>
      obtain ⟨tree, valid⟩ := inductionHypothesis
      obtain rfl := holds.unique valid.holds
      obtain ⟨context, rfl, rfl, rfl⟩ := vacant.exists_context holds
      obtain ⟨result, afterValid, -⟩ :=
        (ensures_rbLinkNode_valid valid allocated fresh).of_returns
          returned
      exact ⟨result, afterValid⟩
  | erase _ holds member returned inductionHypothesis =>
      obtain ⟨tree, valid⟩ := inductionHypothesis
      obtain rfl := holds.unique valid.holds
      obtain ⟨result, afterValid, -⟩ :=
        (ensures_rbErase_valid valid member).of_returns returned
      exact ⟨result, afterValid⟩

/--
Linking a fresh node at any vacant position of any valid red-black tree and
calling `rb_insert_color` terminates without an access to an unmapped address
and leaves a valid red-black tree with the node spliced in at that position.
Every tree reachable by such insertions and by `rb_erase` has a height of at
most twice the logarithm of its size.
-/
theorem rbInsertColor_splices_node_and_bounds_height :
    (∀ (state : RbState) (tree : Tree Word Color)
        (node parent : Word) (link : RbLink),
      state.Valid tree →
      Vacant state tree parent link →
      state.Allocated node →
      node ∉ tree.inorder →
      (do
        rbLinkNode node parent link
        rbInsertColor node).Ensures state fun _ after =>
          ∃ (context : Context Word Color) (result : Tree Word Color),
            tree = context.plug .nil ∧
              slot context = link ∧
              after.Valid result ∧
              result.inorder =
                context.before ++ node :: context.after) ∧
      ∀ state,
        Reachable state →
        ∃ tree, state.Valid tree ∧
          tree.height ≤ 2 * Nat.log 2 (tree.size + 1) := by
  constructor
  · intro state tree node parent link valid vacant allocated fresh
    obtain ⟨context, rfl, rfl, rfl⟩ := vacant.exists_context valid.holds
    refine (ensures_rbLinkNode_valid valid allocated fresh).weaken ?_
    rintro _ after ⟨result, afterValid, order⟩
    exact ⟨context, result, rfl, rfl, afterValid, order⟩
  · intro state reachable
    obtain ⟨tree, valid⟩ := reachable.exists_valid
    exact ⟨tree, valid, valid.redBlack.height_le⟩

theorem rbInsertColor_splices_node_of_sample :
    ((do
      rbLinkNode 32 24 (.child 24 .left)
      rbInsertColor 32).Ensures sampleState fun _ after =>
        ∃ (context : Context Word Color) (result : Tree Word Color),
          sampleTree = context.plug .nil ∧
            slot context = RbLink.child 24 .left ∧
            after.Valid result ∧
            result.inorder =
              context.before ++ 32 :: context.after) ∧
      ∃ tree, (sampleState.setRoot null).Valid tree ∧
        tree.height ≤ 2 * Nat.log 2 (tree.size + 1) := by
  refine
    ⟨rbInsertColor_splices_node_and_bounds_height.1 sampleState
        sampleTree 32 24 (.child 24 .left) sampleState_valid ?_
        sampleState_allocated (by decide),
      rbInsertColor_splices_node_and_bounds_height.2 _ (.empty rfl)⟩
  exact @Vacant.child _ _ 24 .left ⟨16, 0, 0, .red⟩ (by decide)
    (by decide) rfl

end LibKern.RbTree
