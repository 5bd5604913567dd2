import LibKern.RbTreeSource

namespace LibKern.RbTree

/-!
# What the pointer operations do to the tree

Rotations, recolourings, and the redirection of a single child pointer are
the only ways in which the rebalancing code changes memory.  Each of them is
described here by its effect on the tree that the memory holds, viewed from
the node it is applied to.  Later modules reason about trees only.
-/

open Program Context

namespace RbState

/-- The state holds this tree, reached from `root->rb_node`. -/
def Holds (state : RbState) (tree : Tree Word Color) : Prop :=
  Linked state.view state.rbNode tree

/-- Redirect the pointer that leads to the hole of a context. -/
def hang
    (state : RbState)
    (context : Context Word Color)
    (hole : Word) : RbState :=
  match context with
  | [] => state.setRoot hole
  | frame :: _ =>
      state.modify frame.address (RbNode.setChild frame.side hole)

@[simp] theorem view_hang
    (state : RbState)
    (context : Context Word Color)
    (hole : Word) :
    (state.hang context hole).view =
      state.view.hang context hole := by
  cases context <;> simp [hang, Memory.hang]

@[simp] theorem rbNode_hang
    (state : RbState)
    (context : Context Word Color)
    (hole : Word) :
    (state.hang context hole).rbNode =
      context.rootAfter state.rbNode hole := by
  cases context <;> rfl

namespace Holds

variable {state : RbState} {context : Context Word Color}

theorem lowClear_parent
    {hole : Word}
    (represented : RepresentsContext state.view context hole) :
    LowClear context.parent := by
  cases context with
  | nil =>
      exact lowClear_null
  | cons frame rest =>
      exact state.lowClear_of_mapped represented.1

/-- Replacing the subtree in a hole, with the root pointer kept up to date. -/
theorem replug
    {before tree : Tree Word Color}
    {after : RbState}
    (holds : state.Holds (context.plug before))
    (represented : Represents after.view null (context.plug tree))
    (rooted :
      after.rbNode = context.rootAfter state.rbNode tree.root)
    (distinct : (context.plug tree).inorder.Nodup) :
    after.Holds (context.plug tree) where
  represents := represented
  rooted := by
    rw [rooted, holds.rooted, ← root_plug]
  distinct := distinct

end Holds

end RbState

/-- A present address outside a tree differs from its root pointer. -/
theorem root_ne_of_notMem
    {address : Word}
    {tree : Tree Word Color}
    (present : address ≠ null)
    (outside : address ∉ tree.inorder) :
    address ≠ tree.root := by
  cases tree with
  | nil =>
      exact present
  | node left here tag right =>
      rintro rfl
      simp at outside

variable {state : RbState}

/-- Reparent a subtree if it is present. -/
theorem ensures_reparent
    {parent newParent : Word}
    {tree : Tree Word Color}
    {post : Unit → RbState → Prop}
    (represented : Represents state.view parent tree) :
    (onlyIf (tree.root ≠ null)
        (rbSetParent tree.root newParent)).Ensures state post ↔
      post ()
        (state.modify tree.root (RbNode.setParent newParent)) := by
  cases tree with
  | nil =>
      simp [ensures_onlyIf]
  | node left address tag right =>
      have present : address ≠ null :=
        Memory.ne_null represented.1
      simp [ensures_onlyIf, rbSetParent, present, represented.1]

/-- Reparent a subtree that is read again through the node holding it. -/
theorem ensures_reparent_child
    {parent newParent holder : Word}
    {side : Side}
    {content : Cell Word Color}
    {tree : Tree Word Color}
    {post : Unit → RbState → Prop}
    (represented : Represents state.view parent tree)
    (atHolder : state.view.cell holder = some content)
    (leads : content.child side = tree.root) :
    (onlyIf (tree.root ≠ null) (do
        let moved ← getChild holder side
        rbSetParent moved newParent)).Ensures state post ↔
      post ()
        (state.modify tree.root (RbNode.setParent newParent)) := by
  have once :
      (onlyIf (tree.root ≠ null)
          (rbSetParent tree.root newParent)).Ensures state post ↔
        post ()
          (state.modify tree.root (RbNode.setParent newParent)) :=
    ensures_reparent represented
  rw [← once, ensures_onlyIf, ensures_onlyIf]
  simp [atHolder, leads]

/-- Replacing a child redirects exactly the pointer above the hole. -/
theorem ensures_replaceChild
    {side : Side}
    {context : Context Word Color}
    {hole replacement : Word}
    {post : Unit → RbState → Prop}
    (around : RepresentsContext state.view context hole)
    (present : hole ≠ null)
    (outside : hole ∉ context.addresses) :
    (replaceChild side context.parent hole replacement).Ensures
        state post ↔
      post () (state.hang context replacement) := by
  cases context with
  | nil =>
      simp [replaceChild, RbState.hang]
  | cons frame rest =>
      obtain ⟨atFrame, siblingRepresented, -⟩ := around
      have parentPresent : frame.address ≠ null :=
        Memory.ne_null atFrame
      by_cases sameSide : frame.side = side
      · subst sameSide
        simp [replaceChild, RbState.hang, setChild, parentPresent,
          atFrame]
      · obtain rfl : side = frame.side.flip :=
          Side.eq_flip_of_ne (Ne.symm sameSide)
        have otherChild : hole ≠ frame.sibling.root := by
          intro same
          by_cases empty : frame.sibling = .nil
          · exact present (by simp [same, empty])
          · refine outside ?_
            simp [same, Tree.root_mem empty]
        simp [replaceChild, RbState.hang, setChild, parentPresent,
          atFrame, otherChild]

/-- The pointer writes of a rotation, in the order of the source. -/
private def rotated
    (memory : Memory Word (Cell Word Color))
    (context : Context Word Color)
    (side : Side)
    (lower upper middle : Word) :
    Memory Word (Cell Word Color) :=
  (((((memory.modify lower (Cell.withChild side.flip middle)).modify
    middle (Cell.withParent lower)).modify
    upper (Cell.withChild side lower)).modify
    upper (Cell.withParent context.parent)).hang context upper).modify
    lower (Cell.withParent upper)

section Rotation

variable {context : Context Word Color}
variable {side : Side}
variable {near middle far : Tree Word Color}
variable {lower upper : Word}
variable {lowerTag upperTag : Color}

/-- A rotation keeps the order of the nodes. -/
theorem inorder_rotate :
    (Tree.branch side near lower lowerTag
      (.branch side middle upper upperTag far)).inorder =
      (Tree.branch side (.branch side near lower lowerTag middle)
        upper upperTag far).inorder := by
  cases side <;> simp [Tree.branch]

private theorem represents_rotated
    {memory : Memory Word (Cell Word Color)}
    (represented :
      Represents memory null
        (context.plug
          (.branch side near lower lowerTag
            (.branch side middle upper upperTag far))))
    (nodup :
      (context.plug
        (.branch side near lower lowerTag
          (.branch side middle upper upperTag far))).inorder.Nodup) :
    Represents (rotated memory context side lower upper middle.root)
      null
      (context.plug
        (.branch side (.branch side near lower lowerTag middle)
          upper upperTag far)) := by
  obtain ⟨around, inside⟩ := represents_plug.mp represented
  simp only [represents_branch, Tree.root_branch] at around inside
  obtain ⟨atLower, nearRep, atUpper, middleRep, farRep⟩ := inside
  have distinct := nodup_inorder_plug.mp nodup
  simp only [Tree.nodup_branch, Tree.disjoint_branch_left,
    Tree.disjoint_branch_right, Tree.mem_inorder_branch, not_or]
    at distinct
  obtain ⟨⟨⟨lowerNear, lowerUpper, lowerMiddle, lowerFar⟩, nearNodup,
      ⟨⟨upperMiddle, upperFar⟩, middleNodup, farNodup, middleFar⟩,
      upperNear, nearMiddle, nearFar⟩,
    contextNodup, lowerContext, nearContext, upperContext,
    middleContext, farContext⟩ := distinct
  have upperLower : upper ≠ lower := Ne.symm lowerUpper
  have lowerRoot : lower ≠ middle.root :=
    root_ne_of_notMem (Memory.ne_null atLower) lowerMiddle
  have upperRoot : upper ≠ middle.root :=
    root_ne_of_notMem (Memory.ne_null atUpper) upperMiddle
  refine represents_plug.mpr ⟨?_, ?_⟩
  · have moved :=
      (((around.modify_outside lowerContext
        (Cell.withChild side.flip middle.root)).modify_outside
          (around.root_notMem middleContext)
          (Cell.withParent lower)).modify_outside upperContext
          (Cell.withChild side lower)).modify_outside upperContext
          (Cell.withParent context.parent)
    simpa [rotated] using
      (moved.hang contextNodup upper).modify_outside lowerContext
        (Cell.withParent upper)
  · simp only [represents_branch, Tree.root_branch]
    refine ⟨?_, ⟨?_, ?_, ?_⟩, ?_⟩
    · simp [rotated, upperLower, upperRoot,
        Memory.hang_cell upperContext, atUpper]
    · simp [rotated, lowerUpper, lowerRoot,
        Memory.hang_cell lowerContext, atLower]
    · exact (((((nearRep.modify_outside lowerNear _).modify_outside
        (nearRep.root_notMem (List.disjoint_comm.mp nearMiddle)) _).modify_outside
          upperNear _).modify_outside upperNear _).hang_outside
            nearContext _).modify_outside lowerNear _
    · exact (((((middleRep.modify_outside lowerMiddle _).reparent
        middleNodup lower).modify_outside upperMiddle _).modify_outside
          upperMiddle _).hang_outside middleContext _).modify_outside
            lowerMiddle _
    · exact (((((farRep.modify_outside lowerFar _).modify_outside
        (farRep.root_notMem middleFar) _).modify_outside
          upperFar _).modify_outside upperFar _).hang_outside
            farContext _).modify_outside lowerFar _

private theorem ensures_rbRotate_writes
    {state : RbState}
    (holds :
      state.Holds
        (context.plug
          (.branch side near lower lowerTag
            (.branch side middle upper upperTag far)))) :
    (rbRotate side lower).Ensures state fun _ after =>
      after.view =
          rotated state.view context side lower upper middle.root ∧
        after.rbNode = context.rootAfter state.rbNode upper := by
  obtain ⟨around, inside⟩ := represents_plug.mp holds.represents
  simp only [represents_branch, Tree.root_branch] at around inside
  obtain ⟨atLower, -, atUpper, middleRep, -⟩ := inside
  have distinct := nodup_inorder_plug.mp holds.distinct
  simp only [Tree.nodup_branch, Tree.disjoint_branch_left,
    Tree.disjoint_branch_right, Tree.mem_inorder_branch, not_or]
    at distinct
  obtain ⟨⟨⟨-, lowerUpper, lowerMiddle, -⟩, -, ⟨⟨upperMiddle, -⟩, -⟩, -⟩,
    -, lowerContext, -, upperContext, middleContext, -⟩ := distinct
  have upperLower : upper ≠ lower := Ne.symm lowerUpper
  have lowerRoot : lower ≠ middle.root :=
    root_ne_of_notMem (Memory.ne_null atLower) lowerMiddle
  have upperRoot : upper ≠ middle.root :=
    root_ne_of_notMem (Memory.ne_null atUpper) upperMiddle
  have clearLower : LowClear lower := state.lowClear_of_mapped atLower
  have clearUpper : LowClear upper := state.lowClear_of_mapped atUpper
  have clearParent : LowClear context.parent :=
    RbState.Holds.lowClear_parent around
  have middleMoved :
      Represents
        (state.modify lower
          (RbNode.setChild side.flip middle.root)).view
        upper middle := by
    simpa using middleRep.modify_outside lowerMiddle _
  have contextMoved :=
    (((around.modify_outside lowerContext
      (Cell.withChild side.flip middle.root)).modify_outside
        (around.root_notMem middleContext)
        (Cell.withParent lower)).modify_outside upperContext
        (Cell.withChild side lower)).modify_outside upperContext
        (Cell.withParent context.parent)
  simp only [rbRotate, ensures_bind, ensures_getChild, ensures_rbParent,
    atLower, atUpper, Option.some.injEq, exists_eq_left',
    Cell.make_child_flip, Cell.make_parent, Cell.make_child, setChild,
    ensures_store, exists_eq', true_and]
  rw [ensures_reparent_child middleMoved
    (by simpa [upperLower] using atUpper) (by simp)]
  refine ⟨by simp [RbState.view_modify_setParent, clearLower,
    upperRoot, upperLower, atUpper], ?_⟩
  simp only [rbSetParent, ensures_store]
  refine ⟨by simp [RbState.view_modify_setParent, clearLower,
    upperRoot, upperLower, atUpper], ?_⟩
  rw [ensures_replaceChild
    (by simpa [RbState.view_modify_setParent, clearLower, clearParent]
      using contextMoved)
    (Memory.ne_null atLower) lowerContext]
  simp [RbState.view_modify_setParent, clearLower, clearUpper,
    clearParent, rotated, lowerRoot, lowerUpper,
    Memory.hang_cell lowerContext, atLower]

/-- A rotation turns the tree below it and keeps every other link. -/
theorem ensures_rbRotate
    {state : RbState}
    (holds :
      state.Holds
        (context.plug
          (.branch side near lower lowerTag
            (.branch side middle upper upperTag far)))) :
    (rbRotate side lower).Ensures state fun _ after =>
      after.Holds
        (context.plug
          (.branch side (.branch side near lower lowerTag middle)
            upper upperTag far)) := by
  refine (ensures_rbRotate_writes holds).weaken ?_
  rintro _ after ⟨viewed, rooted⟩
  refine holds.replug ?_ (by simpa using rooted) ?_
  · rw [viewed]
    exact represents_rotated holds.represents holds.distinct
  · rw [inorder_plug, ← inorder_rotate, ← inorder_plug]
    exact holds.distinct

end Rotation

section Reading

variable {state : RbState}
variable {context : Context Word Color}
variable {side : Side}
variable {inner outer tree : Tree Word Color}
variable {address parent : Word}
variable {tag : Color}

/-- The cell of the node in focus. -/
theorem RbState.Holds.cell
    (holds :
      state.Holds
        (context.plug (.branch side inner address tag outer))) :
    state.view.cell address =
      some (.make side context.parent inner.root outer.root tag) := by
  obtain ⟨-, inside⟩ := represents_plug.mp holds.represents
  exact (represents_branch.mp inside).1

/-- The node in focus is present. -/
theorem RbState.Holds.present
    (holds :
      state.Holds
        (context.plug (.branch side inner address tag outer))) :
    address ≠ null :=
  Memory.ne_null holds.cell

/-- `node && rb_is_red(node)` at the root of a subtree. -/
theorem ensures_isPresentRed
    {post : Bool → RbState → Prop}
    (represented : Represents state.view parent tree) :
    (isPresentRed tree.root).Ensures state post ↔
      post tree.isRed state := by
  cases tree with
  | nil =>
      simp [isPresentRed]
  | node left here tag right =>
      have present : here ≠ null := Memory.ne_null represented.1
      simp [isPresentRed, present, represented.1, Tree.isRed]

/-- `!node || rb_is_black(node)` at the root of a subtree. -/
theorem ensures_isNullOrBlack
    {post : Bool → RbState → Prop}
    (represented : Represents state.view parent tree) :
    (isNullOrBlack tree.root).Ensures state post ↔
      post (!tree.isRed) state := by
  cases tree with
  | nil =>
      simp [isNullOrBlack]
  | node left here tag right =>
      have present : here ≠ null := Memory.ne_null represented.1
      simp [isNullOrBlack, present, represented.1, Tree.isRed]

end Reading

/-- Following one side ends at the last node on that side. -/
theorem ensures_descend
    {state : RbState}
    {parent : Word}
    {tree : Tree Word Color}
    (side : Side)
    (represented : Represents state.view parent tree)
    (nonempty : tree ≠ .nil) :
    ∃ (spine : Context Word Color) (last : Word) (tag : Color)
      (child : Tree Word Color),
      tree = spine.plug (.branch side .nil last tag child) ∧
        (∀ frame ∈ spine, frame.side = side) ∧
        (descend side tree.root).Ensures state fun value after =>
          value = last ∧ after = state := by
  induction tree using Tree.sideInduction side generalizing parent with
  | empty =>
      exact absurd rfl nonempty
  | step inner address tag outer inductionHypothesis =>
      obtain ⟨atAddress, innerRep, -⟩ := represents_branch.mp represented
      have unrolled
          {post : Word → RbState → Prop} :
          (descend side address).Ensures state post ↔
            if inner.root = null then post address state
            else (descend side inner.root).Ensures state post := by
        rw [descend, ensures_loop]
        simp only [ensures_bind, ensures_getChild, atAddress,
          Option.some.injEq, exists_eq_left', Cell.make_child]
        split <;> simp
      by_cases empty : inner = .nil
      · subst empty
        exact ⟨[], address, tag, outer, rfl, by simp,
          by simp [unrolled]⟩
      · obtain ⟨spine, last, lastTag, child, shape, along, ended⟩ :=
          inductionHypothesis innerRep empty
        have present : inner.root ≠ null := by
          rw [Ne, innerRep.root_eq_null_iff]
          exact empty
        refine ⟨spine ++ [⟨side, address, tag, outer⟩], last, lastTag,
          child, ?_, ?_, ?_⟩
        · rw [plug_append, ← shape]
          rfl
        · intro frame member
          rcases List.mem_append.mp member with inSpine | isLast
          · exact along frame inSpine
          · rw [List.mem_singleton.mp isLast]
        · rw [Tree.root_branch, unrolled, if_neg present]
          exact ended

section Recolouring

variable {state : RbState}
variable {context : Context Word Color}
variable {side : Side}
variable {inner outer : Tree Word Color}
variable {address : Word}
variable {tag : Color}

/-- A colour write changes the colour of one node. -/
private theorem ensures_retag
    {change : RbNode → RbNode}
    {newTag : Color}
    (tracks : ∀ node, (change node).cell = node.cell.withTag newTag)
    (holds :
      state.Holds
        (context.plug (.branch side inner address tag outer))) :
    (store address change).Ensures state fun _ after =>
      after.Holds
        (context.plug (.branch side inner address newTag outer)) := by
  obtain ⟨around, inside⟩ := represents_plug.mp holds.represents
  simp only [represents_branch, Tree.root_branch] at around inside
  obtain ⟨atAddress, innerRep, outerRep⟩ := inside
  have distinct := nodup_inorder_plug.mp holds.distinct
  simp only [Tree.nodup_branch, Tree.disjoint_branch_left] at distinct
  obtain ⟨⟨⟨inInner, inOuter⟩, -⟩, -, inContext, -⟩ := distinct
  have viewed :
      (state.modify address change).view =
        state.view.modify address (Cell.withTag newTag) :=
    Memory.map_modify _ _ _ tracks
  rw [ensures_store]
  refine ⟨⟨_, atAddress⟩, holds.replug ?_ ?_ ?_⟩
  · rw [viewed]
    refine represents_plug.mpr ⟨?_, ?_⟩
    · simpa using around.modify_outside inContext _
    · rw [represents_branch]
      exact ⟨by simp [atAddress],
        innerRep.modify_outside inInner _,
        outerRep.modify_outside inOuter _⟩
  · cases context with
    | nil =>
        simpa [rootAfter] using holds.rooted
    | cons frame rest =>
        rfl
  · have sameOrder :
        (context.plug
          (.branch side inner address newTag outer)).inorder =
          (context.plug
            (.branch side inner address tag outer)).inorder := by
      rw [inorder_plug, inorder_plug]
      cases side <;> rfl
    rw [sameOrder]
    exact holds.distinct

theorem ensures_rbSetBlack
    (holds :
      state.Holds
        (context.plug (.branch side inner address tag outer))) :
    (rbSetBlack address).Ensures state fun _ after =>
      after.Holds
        (context.plug (.branch side inner address .black outer)) :=
  ensures_retag RbNode.cell_setBlack holds

theorem ensures_rbSetRed
    (holds :
      state.Holds
        (context.plug (.branch side inner address tag outer))) :
    (rbSetRed address).Ensures state fun _ after =>
      after.Holds
        (context.plug (.branch side inner address .red outer)) :=
  ensures_retag RbNode.cell_setRed holds

theorem ensures_rbSetColor
    (newTag : Color)
    (holds :
      state.Holds
        (context.plug (.branch side inner address tag outer))) :
    (rbSetColor address (colorWord newTag)).Ensures state
      fun _ after =>
        after.Holds
          (context.plug
            (.branch side inner address newTag outer)) :=
  ensures_retag (fun node => node.cell_setColor newTag) holds

/-- Blackening a node if it is present paints the subtree it roots. -/
theorem ensures_blacken
    {tree : Tree Word Color}
    (holds : state.Holds (context.plug tree)) :
    (onlyIf (tree.root ≠ null) (rbSetBlack tree.root)).Ensures state
      fun _ after =>
        after.Holds (context.plug (tree.paint .black)) := by
  rw [ensures_onlyIf]
  cases tree with
  | nil =>
      simpa using holds
  | node left here tag right =>
      have focused :
          state.Holds
            (context.plug (.branch .left left here tag right)) :=
        holds
      rw [if_pos (by simpa using focused.present)]
      exact ensures_rbSetBlack focused

end Recolouring

section Substitution

variable {context : Context Word Color}
variable {left right : Tree Word Color}
variable {old new : Word}
variable {tag : Color}

/-- A node that copies another one and is pointed to instead replaces it. -/
theorem represents_substituted
    {memory prepared : Memory Word (Cell Word Color)}
    (represented :
      Represents memory null (context.plug (.node left old tag right)))
    (distinct :
      (context.plug (.node left old tag right)).inorder.Nodup)
    (fresh : new ∉ (context.plug (.node left old tag right)).inorder)
    (agree :
      ∀ address ≠ new, prepared.cell address = memory.cell address)
    (copied :
      prepared.cell new =
        some ⟨context.parent, left.root, right.root, tag⟩) :
    Represents
      (((prepared.hang context new).modify left.root
        (Cell.withParent new)).modify right.root (Cell.withParent new))
      null (context.plug (.node left new tag right)) := by
  obtain ⟨around, -, leftRep, rightRep⟩ :=
    represents_plug.mp represented
  have apart := nodup_plug_node.mp distinct
  obtain ⟨-, outsideLeft, outsideRight, outsideContext⟩ :=
    notMem_plug_node.mp fresh
  have present : new ≠ null := Memory.ne_null copied
  have preparedAround :
      RepresentsContext prepared context old :=
    around.congr fun address member =>
      agree address (ne_of_mem_of_not_mem member outsideContext)
  have preparedLeft : Represents prepared old left :=
    leftRep.congr fun address member =>
      agree address (ne_of_mem_of_not_mem member outsideLeft)
  have preparedRight : Represents prepared old right :=
    rightRep.congr fun address member =>
      agree address (ne_of_mem_of_not_mem member outsideRight)
  refine represents_plug.mpr ⟨?_, ?_, ?_, ?_⟩
  · exact ((preparedAround.hang apart.contextNodup new).modify_outside
      (preparedAround.root_notMem apart.leftContext) _).modify_outside
        (preparedAround.root_notMem apart.rightContext) _
  · have apartLeft : new ≠ left.root :=
      root_ne_of_notMem present outsideLeft
    have apartRight : new ≠ right.root :=
      root_ne_of_notMem present outsideRight
    simp [apartLeft, apartRight, Memory.hang_cell outsideContext,
      copied]
  · exact ((preparedLeft.hang_outside apart.leftContext _).reparent
      apart.leftNodup new).modify_outside
        (preparedLeft.root_notMem
          (List.disjoint_comm.mp apart.leftRight)) _
  · exact ((preparedRight.hang_outside
      apart.rightContext _).modify_outside
        (preparedRight.root_notMem apart.leftRight) _).reparent
          apart.rightNodup new

/-- Substituting a node by a fresh one keeps the nodes distinct. -/
theorem nodup_substituted
    (distinct :
      (context.plug (.node left old tag right)).inorder.Nodup)
    (fresh : new ∉ (context.plug (.node left old tag right)).inorder) :
    (context.plug (.node left new tag right)).inorder.Nodup := by
  have apart := nodup_plug_node.mp distinct
  obtain ⟨-, outsideLeft, outsideRight, outsideContext⟩ :=
    notMem_plug_node.mp fresh
  exact nodup_plug_node.mpr
    { apart with
      addressLeft := outsideLeft
      addressRight := outsideRight
      addressContext := outsideContext }

end Substitution

/-- Seeing the other child of a node instead of the one in focus. -/
theorem plug_flip
    {α β : Type}
    (side : Side)
    (address : α)
    (tag : β)
    (inner outer : Tree α β)
    (rest : Context α β) :
    plug (⟨side.flip, address, tag, inner⟩ :: rest) outer =
      plug rest (.branch side inner address tag outer) := by
  rw [plug_cons, Tree.branch_flip]

end LibKern.RbTree
