import LibKern.Aggregates
import LibKern.RbTreeIteration

namespace LibKern.RbTree

/-!
# Augmented red-black trees

`rb_augment_insert` and `rb_augment_erase_end` run a callback along a path to
the root and at the siblings of the nodes on this path.  If the callback
recomputes the aggregate of one node from the node and the aggregates of its
children, then the aggregates are correct after every insertion and deletion,
because rebalancing leaves stale aggregates only at the nodes that are visited.
-/

open Program Context

/-- A red-black tree whose nodes carry aggregates. -/
structure Augmented (A : Type) where
  tree : RbState
  aggregate : Word → A

section Source

variable {A : Type}

/-- Run a function of the tree. -/
def onTree {α : Type} (program : Program RbState α) :
    Program (Augmented A) α :=
  program.zoom Augmented.tree fun tree state =>
    { state with tree := tree }

variable (func : Word → Program (Augmented A) Unit)

/-- `rb_augment_path` runs the callback at the sibling of a node. -/
def rbAugmentSibling
    (node parent : Word) :
    Program (Augmented A) Unit := do
  let left ← onTree (getChild parent .left)
  let right ← onTree (getChild parent .right)
  if node = left ∧ right ≠ null then
    func right
  else
    onlyIf (left ≠ null) (func left)

/-- One round of `rb_augment_path`. -/
def rbAugmentPathStep
    (node : Word) :
    Program (Augmented A) (Flow Word Unit) := do
  func node
  let parent ← onTree (rbParent node)
  if parent = null then
    pure (.done ())
  else do
    rbAugmentSibling func node parent
    pure (.next parent)

/-- `rb_augment_path`. -/
def rbAugmentPath : Word → Program (Augmented A) Unit :=
  loop (rbAugmentPathStep func)

/-- `rb_augment_insert`. -/
def rbAugmentInsert (node : Word) : Program (Augmented A) Unit := do
  let left ← onTree (getChild node .left)
  if left ≠ null then
    rbAugmentPath func left
  else do
    let right ← onTree (getChild node .right)
    if right ≠ null then
      rbAugmentPath func right
    else
      rbAugmentPath func node

/-- The last case of `rb_augment_erase_begin`: a node with two children. -/
def rbAugmentEraseNext (node : Word) : Program RbState Word := do
  let next ← rbNext node
  let right ← getChild next .right
  if right ≠ null then
    pure right
  else do
    let parent ← rbParent next
    if parent ≠ node then
      pure parent
    else
      pure next

/-- `rb_augment_erase_begin`. -/
def rbAugmentEraseBegin (node : Word) : Program RbState Word := do
  let right ← getChild node .right
  let left ← getChild node .left
  if right = null ∧ left = null then
    rbParent node
  else if right = null then
    pure left
  else if left = null then
    pure right
  else
    rbAugmentEraseNext node

/-- `rb_augment_erase_end`. -/
def rbAugmentEraseEnd (node : Word) : Program (Augmented A) Unit :=
  onlyIf (node ≠ null) (rbAugmentPath func node)

end Source

section Callback

variable {A : Type}

@[simp] theorem ensures_onTree
    {α : Type}
    {program : Program RbState α}
    {state : Augmented A}
    {post : α → Augmented A → Prop} :
    (onTree program).Ensures state post ↔
      program.Ensures state.tree fun value after =>
        post value { state with tree := after } := by
  simp [onTree]

/-- The aggregate behind a child pointer, if there is a child. -/
def Augmented.childAggregate
    (state : Augmented A)
    (child : Word) : Option A :=
  if child = null then none else some (state.aggregate child)

/-- Recompute the aggregate of one node. -/
def Augmented.recompute
    (compute : Word → Option A → Option A → A)
    (state : Augmented A)
    (node : Word)
    (content : Cell Word Color) : Augmented A :=
  { state with
    aggregate :=
      Function.update state.aggregate node
        (compute node (state.childAggregate content.left)
          (state.childAggregate content.right)) }

/--
The callback recomputes the aggregate of a node from the node and the
aggregates of its current children, and does nothing else.
-/
def Recomputes
    (func : Word → Program (Augmented A) Unit)
    (compute : Word → Option A → Option A → A) : Prop :=
  ∀ state node content,
    state.tree.view.cell node = some content →
    (func node).Ensures state fun _ after =>
      after = state.recompute compute node content

variable {func : Word → Program (Augmented A) Unit}
variable {compute : Word → Option A → Option A → A}
variable {state : Augmented A}
variable {tree : Tree Word Color}

/-- The pointer to a subtree leads to the aggregate of its root. -/
theorem childAggregate_root
    {parent : Word}
    (represented : Represents state.tree.view parent tree) :
    state.childAggregate tree.root =
      tree.rootAggregate state.aggregate := by
  cases tree with
  | nil =>
      simp [Augmented.childAggregate, Tree.rootAggregate]
  | node left address tag right =>
      have present : address ≠ null := Memory.ne_null represented.1
      simp [Augmented.childAggregate, Tree.rootAggregate, present]

/-- The callback repairs the root of a subtree that is correct below it. -/
theorem ensures_func
    (recomputes : Recomputes func compute)
    {parent : Word}
    (represented : Represents state.tree.view parent tree)
    (distinct : tree.inorder.Nodup)
    (nonempty : tree ≠ .nil)
    (below : tree.CorrectBelow compute state.aggregate) :
    (func tree.root).Ensures state fun _ after =>
      after.tree = state.tree ∧
        tree.Correct compute after.aggregate ∧
        ∀ address ∉ tree.inorder,
          after.aggregate address = state.aggregate address := by
  cases tree with
  | nil =>
      exact absurd rfl nonempty
  | node left node tag right =>
      obtain ⟨atNode, leftRep, rightRep⟩ := represented
      have apart : Apart [] left node right :=
        nodup_plug_node.mp distinct
      refine (recomputes state node _ atNode).weaken ?_
      rintro _ _ rfl
      have others
          {subtree : Tree Word Color}
          (outside : node ∉ subtree.inorder) :
          ∀ address ∈ subtree.inorder,
            (state.recompute compute node
              ⟨parent, left.root, right.root, tag⟩).aggregate address =
                state.aggregate address := by
        intro address member
        exact Function.update_of_ne
          (ne_of_mem_of_not_mem member outside) _ _
      refine ⟨rfl, ⟨?_, ?_, ?_⟩, ?_⟩
      · rw [Tree.rootAggregate_congr (others apart.addressLeft),
          Tree.rootAggregate_congr (others apart.addressRight),
          ← childAggregate_root leftRep,
          ← childAggregate_root rightRep]
        exact Function.update_self _ _ _
      · exact below.1.congr (others apart.addressLeft)
      · exact below.2.congr (others apart.addressRight)
      · intro address outside
        refine Function.update_of_ne ?_ _ _
        rintro rfl
        simp at outside

end Callback

section Path

variable {A : Type}
variable {func : Word → Program (Augmented A) Unit}
variable {compute : Word → Option A → Option A → A}
variable {state : Augmented A}
variable {tree : Tree Word Color}

/-- The callback repairs a sibling, if there is one. -/
private theorem ensures_rbAugmentSibling
    (recomputes : Recomputes func compute)
    {side : Side}
    {parent : Word}
    {tag : Color}
    {sibling : Tree Word Color}
    {rest : Context Word Color}
    (holds :
      state.tree.Holds
        (plug (⟨side, parent, tag, sibling⟩ :: rest) tree))
    (nonempty : tree ≠ .nil)
    (correct : tree.Correct compute state.aggregate)
    (below : sibling.CorrectBelow compute state.aggregate) :
    (rbAugmentSibling func tree.root parent).Ensures state
      fun _ after =>
        after.tree = state.tree ∧
          tree.Correct compute after.aggregate ∧
          sibling.Correct compute after.aggregate ∧
          ∀ address ∉
              (Tree.branch side tree parent tag sibling).inorder,
            after.aggregate address = state.aggregate address := by
  rw [plug_cons] at holds
  obtain ⟨-, inside⟩ := represents_plug.mp holds.represents
  obtain ⟨atParent, treeRep, siblingRep⟩ := represents_branch.mp inside
  have distinct := (nodup_inorder_plug.mp holds.distinct).1
  rw [Tree.nodup_branch] at distinct
  obtain ⟨-, treeNodup, siblingNodup, disjoint⟩ := distinct
  have treePresent := treeRep.root_eq_null_iff.not.mpr nonempty
  have atSibling
      (siblingNonempty : sibling ≠ .nil) :
      (func sibling.root).Ensures state fun _ after =>
        after.tree = state.tree ∧
          tree.Correct compute after.aggregate ∧
          sibling.Correct compute after.aggregate ∧
          ∀ address ∉
              (Tree.branch side tree parent tag sibling).inorder,
            after.aggregate address = state.aggregate address := by
    refine (ensures_func recomputes siblingRep siblingNodup
      siblingNonempty below).weaken ?_
    rintro _ after ⟨sameTree, siblingCorrect, others⟩
    refine ⟨sameTree, correct.congr ?_, siblingCorrect, ?_⟩
    · intro address member
      exact others address (disjoint member)
    · intro address outside
      rw [Tree.mem_inorder_branch, not_or, not_or] at outside
      exact others address outside.2.2
  simp only [rbAugmentSibling, ensures_bind, ensures_onTree,
    ensures_getChild, atParent, Option.some.injEq, exists_eq_left']
  cases side with
  | left =>
      simp only [Cell.make, Cell.child, true_and]
      by_cases siblingEmpty : sibling = .nil
      · subst siblingEmpty
        simp only [Tree.root_nil, ne_eq, not_true_eq_false, ↓reduceIte]
        refine (ensures_onlyIf_of treePresent).mpr ?_
        refine (ensures_func recomputes treeRep treeNodup nonempty
          correct.below).weaken ?_
        rintro _ after ⟨sameTree, treeCorrect, others⟩
        refine ⟨sameTree, treeCorrect, trivial, ?_⟩
        intro address outside
        rw [Tree.mem_inorder_branch, not_or, not_or] at outside
        exact others address outside.2.1
      · have present := siblingRep.root_eq_null_iff.not.mpr siblingEmpty
        simp only [ne_eq, present, not_false_eq_true, ↓reduceIte]
        exact atSibling siblingEmpty
  | right =>
      have apart : tree.root ≠ sibling.root :=
        treeRep.root_ne nonempty disjoint
      simp only [Cell.make, Cell.child, apart, false_and, ↓reduceIte]
      by_cases siblingEmpty : sibling = .nil
      · subst siblingEmpty
        refine (ensures_onlyIf_of_not (by simp)).mpr ?_
        exact ⟨rfl, correct, trivial, fun _ _ => rfl⟩
      · have present := siblingRep.root_eq_null_iff.not.mpr siblingEmpty
        exact (ensures_onlyIf_of present).mpr (atSibling siblingEmpty)

/-- One round repairs a node and its sibling. -/
private theorem ensures_rbAugmentPathStep
    (recomputes : Recomputes func compute)
    {context : Context Word Color}
    (holds : state.tree.Holds (context.plug tree))
    (nonempty : tree ≠ .nil)
    (below : tree.CorrectBelow compute state.aggregate)
    (siblings :
      ∀ frame ∈ context,
        frame.sibling.CorrectBelow compute state.aggregate) :
    (rbAugmentPathStep func tree.root).Ensures state
      fun flow after =>
        after.tree = state.tree ∧
          tree.Correct compute after.aggregate ∧
          ((context = [] ∧ flow = .done ()) ∨
            ∃ frame rest,
              context = frame :: rest ∧
                flow = .next frame.address ∧
                frame.sibling.Correct compute after.aggregate ∧
                ∀ address ∈ addresses rest,
                  after.aggregate address =
                    state.aggregate address) := by
  have parts := nodup_inorder_plug.mp holds.distinct
  obtain ⟨around, inside⟩ := represents_plug.mp holds.represents
  obtain ⟨content, atTree, isParent⟩ :
      ∃ content, state.tree.view.cell tree.root = some content ∧
        content.parent = context.parent := by
    obtain ⟨left, here, tag, right, rfl⟩ :=
      Tree.exists_branch .left nonempty
    exact ⟨_, (represents_branch.mp inside).1, by simp⟩
  simp only [rbAugmentPathStep, ensures_bind]
  refine (ensures_func recomputes inside parts.1 nonempty
    below).weaken ?_
  rintro _ first ⟨sameTree, correct, others⟩
  simp only [ensures_onTree, ensures_rbParent, sameTree, atTree,
    Option.some.injEq, exists_eq_left', isParent]
  cases context with
  | nil =>
      rw [parent_nil, if_pos rfl, ensures_pure]
      exact ⟨rfl, correct, .inl ⟨rfl, rfl⟩⟩
  | cons frame rest =>
      have present : frame.address ≠ null := Memory.ne_null around.1
      have siblingBelow :
          frame.sibling.CorrectBelow compute first.aggregate := by
        refine (siblings frame List.mem_cons_self).congr ?_
        intro address member
        refine others address fun inTree => ?_
        exact parts.2.2 inTree (by simp [member])
      have firstHolds :
          (⟨state.tree, first.aggregate⟩ : Augmented A).tree.Holds
            (plug (frame :: rest) tree) :=
        holds
      simp only [parent_cons, present, ↓reduceIte, ensures_bind,
        ensures_pure]
      refine (ensures_rbAugmentSibling recomputes firstHolds nonempty
        correct siblingBelow).weaken ?_
      rintro _ after ⟨afterTree, treeCorrect, siblingCorrect, kept⟩
      refine ⟨afterTree, treeCorrect,
        .inr ⟨frame, rest, rfl, rfl, siblingCorrect, ?_⟩⟩
      intro address member
      have outside :
          address ∉
            (Tree.branch frame.side tree frame.address frame.tag
              frame.sibling).inorder := by
        intro inside
        rw [plug_cons] at holds
        exact (nodup_inorder_plug.mp holds.distinct).2.2 inside member
      rw [kept address outside]
      refine others address fun inTree => outside ?_
      exact Tree.mem_inorder_branch.mpr (.inr (.inl inTree))

/-- `rb_augment_path` repairs everything above a stale subtree. -/
theorem ensures_rbAugmentPath
    (recomputes : Recomputes func compute)
    {context : Context Word Color}
    (holds : state.tree.Holds (context.plug tree))
    (nonempty : tree ≠ .nil)
    (below : tree.CorrectBelow compute state.aggregate)
    (siblings :
      ∀ frame ∈ context,
        frame.sibling.CorrectBelow compute state.aggregate) :
    (rbAugmentPath func tree.root).Ensures state fun _ after =>
      after.tree = state.tree ∧
        (context.plug tree).Correct compute after.aggregate := by
  induction context generalizing tree state with
  | nil =>
      rw [rbAugmentPath, ensures_loop]
      refine (ensures_rbAugmentPathStep recomputes holds nonempty below
        siblings).weaken ?_
      rintro _ after ⟨sameTree, correct, ⟨-, rfl⟩ | ⟨_, _, shape, -⟩⟩
      · exact ⟨sameTree, correct⟩
      · simp at shape
  | cons frame rest inductionHypothesis =>
      rw [rbAugmentPath, ensures_loop]
      refine (ensures_rbAugmentPathStep recomputes holds nonempty below
        siblings).weaken ?_
      rintro _ after ⟨sameTree, correct, ⟨shape, -⟩ |
        ⟨_, _, shape, rfl, siblingCorrect, kept⟩⟩
      · simp at shape
      · obtain ⟨rfl, rfl⟩ := by
          simpa only [List.cons.injEq] using shape
        have climbed :
            (rbAugmentPath func
              (Tree.branch frame.side tree frame.address frame.tag
                frame.sibling).root).Ensures after
              fun _ final =>
                final.tree = after.tree ∧
                  (plug rest
                    (.branch frame.side tree frame.address frame.tag
                      frame.sibling)).Correct compute
                        final.aggregate := by
          refine inductionHypothesis ?_ ?_ ?_ ?_
          · rw [sameTree]
            exact holds
          · cases frame.side <;> simp [Tree.branch]
          · exact Tree.correctBelow_branch.mpr ⟨correct, siblingCorrect⟩
          · intro other member
            refine (siblings other
              (List.mem_cons_of_mem _ member)).congr ?_
            intro address inSibling
            exact kept address (sibling_mem_addresses member inSibling)
        rw [Tree.root_branch] at climbed
        refine climbed.weaken ?_
        rintro _ final ⟨finalTree, finalCorrect⟩
        exact ⟨finalTree.trans sameTree, finalCorrect⟩

/-- `rb_augment_path` repairs a stale tree from the start of its path. -/
theorem ensures_rbAugmentPath_stale
    (recomputes : Recomputes func compute)
    {start : Word}
    (holds : state.tree.Holds tree)
    (stale : tree.Stale compute state.aggregate start) :
    (rbAugmentPath func start).Ensures state fun _ after =>
      after.tree = state.tree ∧
        tree.Correct compute after.aggregate := by
  obtain ⟨context, found, rfl, root, siblings⟩ := stale.exists_context
  cases found with
  | nil =>
      exact root.elim
  | node left address tag right =>
      obtain ⟨rfl, below⟩ := root
      exact ensures_rbAugmentPath recomputes holds (by simp) below
        siblings

/-- `rb_augment_insert` repairs the tree after an insertion. -/
theorem ensures_rbAugmentInsert
    (recomputes : Recomputes func compute)
    {node : Word}
    (holds : state.tree.Holds tree)
    (stale :
      tree.OnPath (Tree.StaleInsert compute state.aggregate node)
        (Tree.CorrectBelow compute state.aggregate)) :
    (rbAugmentInsert func node).Ensures state fun _ after =>
      after.tree = state.tree ∧
        tree.Correct compute after.aggregate := by
  obtain ⟨context, found, rfl, root, siblings⟩ := stale.exists_context
  cases found with
  | nil =>
      exact root.elim
  | node left address tag right =>
      obtain ⟨-, atNode, leftRep, -⟩ :=
        represents_plug.mp holds.represents
      obtain ⟨rfl, ⟨rfl, rfl⟩ | ⟨leftNonempty, below, rightBelow⟩⟩ := root
      · simp only [rbAugmentInsert, ensures_bind, ensures_onTree,
          ensures_getChild, atNode, Option.some.injEq, exists_eq_left',
          Cell.child, Tree.root_nil, ne_eq, not_true_eq_false,
          ↓reduceIte]
        refine ensures_rbAugmentPath_stale recomputes holds ?_
        exact Tree.OnPath.plug (.stop ⟨rfl, trivial, trivial⟩) siblings
      · have present := leftRep.root_eq_null_iff.not.mpr leftNonempty
        simp only [rbAugmentInsert, ensures_bind, ensures_onTree,
          ensures_getChild, atNode, Option.some.injEq, exists_eq_left',
          Cell.child, ne_eq, present, not_false_eq_true, ↓reduceIte]
        refine ensures_rbAugmentPath_stale recomputes holds ?_
        cases left with
        | nil =>
            exact absurd rfl leftNonempty
        | node inner start startTag outer =>
            have path :
                (Tree.branch .left (.node inner start startTag outer)
                  address tag right).Stale compute state.aggregate
                    start :=
              .above (.stop ⟨rfl, below⟩) rightBelow
            exact Tree.OnPath.plug path siblings

end Path

section EraseBegin

variable {state : RbState}
variable {context newContext : Context Word Color}
variable {tree child : Tree Word Color}
variable {lost : Color}

/-- `rb_augment_erase_begin` for a node with at most one child. -/
private theorem ensures_rbAugmentEraseBegin_single
    {side : Side}
    {address : Word}
    {tag : Color}
    (holds :
      state.Holds
        (context.plug (.branch side .nil address tag child))) :
    (rbAugmentEraseBegin address).Ensures state fun value after =>
      value = deepest context child ∧ after = state := by
  obtain ⟨-, inside⟩ := represents_plug.mp holds.represents
  obtain ⟨atAddress, -, childRep⟩ := represents_branch.mp inside
  simp only [rbAugmentEraseBegin, ensures_bind, ensures_getChild,
    atAddress, Option.some.injEq, exists_eq_left']
  cases child with
  | nil =>
      cases side <;>
        simp [Cell.make, Cell.child, atAddress, deepest]
  | node left here hereTag right =>
      have present : here ≠ null := Memory.ne_null childRep.1
      cases side <;>
        simp [Cell.make, Cell.child, present, deepest]

/-- `rb_augment_erase_begin` for a node with two children. -/
private theorem ensures_rbAugmentEraseNext
    {spine : Context Word Color}
    {address next : Word}
    {tag nextTag : Color}
    {left : Tree Word Color}
    (leftward : ∀ frame ∈ spine, frame.side = .left)
    (holds :
      state.Holds
        (context.plug
          (.node left address tag
            (spine.plug (.node .nil next nextTag child))))) :
    (rbAugmentEraseNext address).Ensures state fun value after =>
      value =
          deepest (spine ++ ⟨.right, next, tag, left⟩ :: context)
            child ∧
        after = state := by
  have focused :
      state.Holds
        (plug (spine ++ ⟨.right, address, tag, left⟩ :: context)
          (.branch .left .nil next nextTag child)) := by
    simpa [plug_append, plug_cons, Tree.branch] using holds
  have turned :
      state.Holds
        (context.plug
          (.branch .right (spine.plug (.node .nil next nextTag child))
            address tag left)) :=
    holds
  obtain ⟨-, inside⟩ := represents_plug.mp focused.represents
  obtain ⟨atNext, -, childRep⟩ := represents_branch.mp inside
  have first :
      ((spine.plug (.node .nil next nextTag child)).along .right ++
        context.ahead .right).headD null = next := by
    simp [Tree.along, inorder_plug, before_eq_nil leftward]
  simp only [rbAugmentEraseNext, ensures_bind]
  refine (ensures_rbNeighbour turned).weaken ?_
  rintro _ _ ⟨rfl, rfl⟩
  rw [first]
  simp only [ensures_getChild, atNext, Option.some.injEq,
    exists_eq_left', Cell.make, Cell.child]
  cases child with
  | node inner here hereTag outer =>
      have present : here ≠ null := Memory.ne_null childRep.1
      simp [present, deepest]
  | nil =>
      simp only [Tree.root_nil, ne_eq, not_true_eq_false, ↓reduceIte,
        ensures_bind, ensures_rbParent, atNext, Option.some.injEq,
        exists_eq_left', Cell.make]
      cases spine with
      | nil =>
          simp [deepest]
      | cons frame rest =>
          have different : frame.address ≠ address := by
            intro same
            have distinct := (nodup_inorder_plug.mp focused.distinct).2.1
            simp [same] at distinct
          simp [deepest, different]

/-- `rb_augment_erase_begin` finds the deepest node that remains. -/
theorem ensures_rbAugmentEraseBegin
    (unlink : Unlink context tree newContext child lost)
    (holds : state.Holds (context.plug tree)) :
    (rbAugmentEraseBegin tree.root).Ensures state fun value after =>
      value = deepest newContext child ∧ after = state := by
  cases unlink with
  | single =>
      rw [Tree.root_branch]
      exact ensures_rbAugmentEraseBegin_single holds
  | @successor spine address next tag _ left _ leftNonempty leftward =>
      obtain ⟨-, atAddress, leftRep, rightRep⟩ :=
        represents_plug.mp holds.represents
      have leftPresent := leftRep.root_eq_null_iff.not.mpr leftNonempty
      have rightPresent :
          (spine.plug (.node .nil next lost child)).root ≠ null := by
        refine rightRep.root_eq_null_iff.not.mpr ?_
        intro empty
        have order := congrArg Tree.inorder empty
        simp [inorder_plug] at order
      simp only [rbAugmentEraseBegin, ensures_bind, ensures_getChild,
        Tree.root_node, atAddress, Option.some.injEq, exists_eq_left',
        Cell.child, leftPresent, rightPresent, and_false, ↓reduceIte]
      exact ensures_rbAugmentEraseNext leftward holds

end EraseBegin

section Operations

variable {A : Type}
variable {func : Word → Program (Augmented A) Unit}
variable {compute : Word → Option A → Option A → A}
variable {state : Augmented A}
variable {tree : Tree Word Color}
variable {node : Word}

/-- An insertion into an augmented tree. -/
def augmentedInsert
    (func : Word → Program (Augmented A) Unit)
    (node parent : Word)
    (link : RbLink) :
    Program (Augmented A) Unit := do
  onTree (do
    rbLinkNode node parent link
    rbInsertColor node)
  rbAugmentInsert func node

/-- A deletion from an augmented tree. -/
def augmentedErase
    (func : Word → Program (Augmented A) Unit)
    (node : Word) :
    Program (Augmented A) Unit := do
  let deepest ← onTree (rbAugmentEraseBegin node)
  onTree (rbErase node)
  rbAugmentEraseEnd func deepest

/-- An insertion repairs the tree and then the aggregates. -/
theorem ensures_augmentedInsert_fix
    (recomputes : Recomputes func compute)
    {context : Context Word Color}
    (valid : state.tree.Valid (context.plug .nil))
    (correct : (context.plug .nil).Correct compute state.aggregate)
    (allocated : state.tree.Allocated node)
    (fresh : node ∉ (context.plug .nil).inorder) :
    (augmentedInsert func node context.parent (slot context)).Ensures
      state fun _ after =>
        ∃ result,
          InsertFix context (.branch .left .nil node .red .nil) result ∧
            after.tree.Valid result ∧
            result.Correct compute after.aggregate := by
  rw [augmentedInsert, ensures_bind, ensures_onTree]
  refine (ensures_rbLinkNode_fix valid allocated fresh).weaken ?_
  rintro _ inserted ⟨result, fix, insertedValid⟩
  have leaf :
      (Tree.branch .left .nil node Color.red .nil).OnPath
        (Tree.IsLeaf node) (Tree.Correct compute state.aggregate) :=
    .stop ⟨rfl, rfl, rfl⟩
  have insertedHolds :
      (⟨inserted, state.aggregate⟩ : Augmented A).tree.Holds result :=
    insertedValid.holds
  refine (ensures_rbAugmentInsert recomputes insertedHolds
    (fix.staleInsert leaf correct.of_plug.2)).weaken ?_
  rintro _ after ⟨sameTree, afterCorrect⟩
  refine ⟨result, fix, ?_, afterCorrect⟩
  rw [sameTree]
  exact insertedValid

theorem ensures_augmentedInsert
    (recomputes : Recomputes func compute)
    {context : Context Word Color}
    (valid : state.tree.Valid (context.plug .nil))
    (correct : (context.plug .nil).Correct compute state.aggregate)
    (allocated : state.tree.Allocated node)
    (fresh : node ∉ (context.plug .nil).inorder) :
    (augmentedInsert func node context.parent (slot context)).Ensures
      state fun _ after =>
        ∃ result,
          after.tree.Valid result ∧
            result.Correct compute after.aggregate := by
  refine (ensures_augmentedInsert_fix recomputes valid correct allocated
    fresh).weaken ?_
  rintro _ after ⟨result, -, afterValid, afterCorrect⟩
  exact ⟨result, afterValid, afterCorrect⟩

/-- A deletion repairs the tree and then the aggregates. -/
theorem ensures_augmentedErase_repair
    {context : Context Word Color}
    {left right : Tree Word Color}
    {tag : Color}
    (recomputes : Recomputes func compute)
    (valid : state.tree.Valid (context.plug (.node left node tag right)))
    (correct :
      (context.plug (.node left node tag right)).Correct compute
        state.aggregate) :
    (augmentedErase func node).Ensures state fun _ after =>
      ∃ newContext child lost result,
        Unlink context (.node left node tag right) newContext child
            lost ∧
          EraseRepair newContext child lost result ∧
          after.tree.Valid result ∧
          result.Correct compute after.aggregate := by
  obtain ⟨_, erased, returned, newContext, child, lost, result, unlink,
    repair, erasedHolds⟩ :=
    ensures_rbErase valid.redBlack valid.holds
  have erasedValid : erased.Valid result :=
    ⟨erasedHolds, unlink.redBlack repair valid.redBlack⟩
  simp only [augmentedErase, ensures_bind, ensures_onTree]
  refine (ensures_rbAugmentEraseBegin unlink valid.holds).weaken ?_
  rintro _ _ ⟨rfl, rfl⟩
  refine ⟨_, erased, returned, ?_⟩
  rcases unlink.stale repair correct with ⟨rfl, isNull⟩ | stale
  · refine (ensures_onlyIf_of_not (not_not_intro isNull)).mpr ?_
    exact ⟨newContext, child, lost, .nil, unlink, repair, erasedValid,
      trivial⟩
  · have present : deepest newContext child ≠ null := by
      intro isNull
      exact erasedHolds.represents.null_notMem (isNull ▸ stale.start_mem)
    have repairedHolds :
        (⟨erased, state.aggregate⟩ : Augmented A).tree.Holds result :=
      erasedHolds
    refine (ensures_onlyIf_of present).mpr
      ((ensures_rbAugmentPath_stale recomputes repairedHolds
        stale).weaken ?_)
    rintro _ after ⟨sameTree, afterCorrect⟩
    refine ⟨newContext, child, lost, result, unlink, repair, ?_,
      afterCorrect⟩
    rw [sameTree]
    exact erasedValid

theorem ensures_augmentedErase
    (recomputes : Recomputes func compute)
    (valid : state.tree.Valid tree)
    (correct : tree.Correct compute state.aggregate)
    (member : node ∈ tree.inorder) :
    (augmentedErase func node).Ensures state fun _ after =>
      ∃ result,
        after.tree.Valid result ∧
          result.Correct compute after.aggregate := by
  obtain ⟨context, left, tag, right, rfl⟩ :=
    Tree.exists_plug_of_mem member
  refine (ensures_augmentedErase_repair recomputes valid
    correct).weaken ?_
  rintro _ after ⟨_, _, _, result, -, -, afterValid, afterCorrect⟩
  exact ⟨result, afterValid, afterCorrect⟩

/--
For every callback that recomputes aggregates, and for every valid red-black
tree with correct aggregates: the aggregates are correct after every insertion
at a vacant position followed by `rb_augment_insert`, and after every deletion
between `rb_augment_erase_begin` and `rb_augment_erase_end`.
-/
theorem augmented_operations_keep_aggregates_correct
    (recomputes : Recomputes func compute)
    (valid : state.tree.Valid tree)
    (correct : tree.Correct compute state.aggregate) :
    (∀ node parent link,
      Vacant state.tree tree parent link →
      state.tree.Allocated node →
      node ∉ tree.inorder →
      (augmentedInsert func node parent link).Ensures state
        fun _ after =>
          ∃ result,
            after.tree.Valid result ∧
              result.Correct compute after.aggregate) ∧
      ∀ node ∈ tree.inorder,
        (augmentedErase func node).Ensures state fun _ after =>
          ∃ result,
            after.tree.Valid result ∧
              result.Correct compute after.aggregate := by
  constructor
  · intro node parent link vacant allocated fresh
    obtain ⟨context, rfl, rfl, rfl⟩ := vacant.exists_context valid.holds
    exact ensures_augmentedInsert recomputes valid correct allocated fresh
  · intro node member
    exact ensures_augmentedErase recomputes valid correct member

end Operations

/-- A callback that counts the nodes below and including a node. -/
def countNodes (node : Word) : Program (Augmented Nat) Unit := do
  let left ← onTree (getChild node .left)
  let right ← onTree (getChild node .right)
  updates fun state =>
    some
      { state with
        aggregate :=
          Function.update state.aggregate node
            ((state.childAggregate left).getD 0 +
              (state.childAggregate right).getD 0 + 1) }

theorem countNodes_recomputes :
    Recomputes countNodes fun _ left right =>
      left.getD 0 + right.getD 0 + 1 := by
  intro state node content atNode
  simp [countNodes, atNode, Augmented.recompute, Cell.child]

theorem augmented_operations_keep_counts_of_sample :
    ((augmentedInsert countNodes 32 24 (.child 24 .left)).Ensures
        ⟨sampleState, fun node => if node = 16 then 3 else 1⟩
        fun _ after =>
          ∃ result,
            after.tree.Valid result ∧
              result.Correct
                (fun _ left right => left.getD 0 + right.getD 0 + 1)
                after.aggregate) ∧
      (augmentedErase countNodes 16).Ensures
        ⟨sampleState, fun node => if node = 16 then 3 else 1⟩
        fun _ after =>
          ∃ result,
            after.tree.Valid result ∧
              result.Correct
                (fun _ left right => left.getD 0 + right.getD 0 + 1)
                after.aggregate := by
  have valid :
      (⟨sampleState, fun node => if node = 16 then 3 else 1⟩ :
        Augmented Nat).tree.Valid sampleTree :=
    sampleState_valid
  have operations :=
    augmented_operations_keep_aggregates_correct countNodes_recomputes
      valid (by simp [sampleTree, Tree.Correct, Tree.rootAggregate])
  refine ⟨operations.1 32 24 (.child 24 .left) ?_ sampleState_allocated
    (by decide), operations.2 16 (by decide)⟩
  exact @Vacant.child _ _ 24 .left ⟨16, 0, 0, .red⟩ (by decide)
    (by decide) rfl

end LibKern.RbTree
