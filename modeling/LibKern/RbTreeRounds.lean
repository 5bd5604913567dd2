import LibKern.RbTreeMap
import LibKern.RbTreeIteration
import LibKern.Rounds

namespace LibKern.RbTree

/-!
# Every operation makes logarithmically many rounds

The loops of `lib/rbtree.c` and of the search macros go down or up along one
path of the tree.  Since red-black trees are low, each loop of every operation
makes at most a logarithmic number of rounds, whatever the tree went through.
-/

open Program Context

section Loopless

set_option synthInstance.maxSize 2000

instance loopless_load
    {node : Word} :
    Loopless (load node) := by
  unfold load
  infer_instance

instance loopless_store
    {node : Word}
    {change : RbNode → RbNode} :
    Loopless (store node change) := by
  unfold store
  infer_instance

instance loopless_rbParent
    {node : Word} :
    Loopless (rbParent node) := by
  unfold rbParent
  infer_instance

instance loopless_rbColor
    {node : Word} :
    Loopless (rbColor node) := by
  unfold rbColor
  infer_instance

instance loopless_rbIsRed
    {node : Word} :
    Loopless (rbIsRed node) := by
  unfold rbIsRed
  infer_instance

instance loopless_rbIsBlack
    {node : Word} :
    Loopless (rbIsBlack node) := by
  unfold rbIsBlack
  infer_instance

instance loopless_rbSetRed
    {node : Word} :
    Loopless (rbSetRed node) := by
  unfold rbSetRed
  infer_instance

instance loopless_rbSetBlack
    {node : Word} :
    Loopless (rbSetBlack node) := by
  unfold rbSetBlack
  infer_instance

instance loopless_rbSetParent
    {node par : Word} :
    Loopless (rbSetParent node par) := by
  unfold rbSetParent
  infer_instance

instance loopless_rbSetColor
    {node color : Word} :
    Loopless (rbSetColor node color) := by
  unfold rbSetColor
  infer_instance

instance loopless_getChild
    {node : Word}
    {side : Side} :
    Loopless (getChild node side) := by
  unfold getChild
  infer_instance

instance loopless_setChild
    {node child : Word}
    {side : Side} :
    Loopless (setChild node side child) := by
  unfold setChild
  infer_instance

instance loopless_getRoot :
    Loopless (getRoot) := by
  unfold getRoot
  infer_instance

instance loopless_setRoot
    {node : Word} :
    Loopless (setRoot node) := by
  unfold setRoot
  infer_instance

instance loopless_isNullOrBlack
    {node : Word} :
    Loopless (isNullOrBlack node) := by
  unfold isNullOrBlack
  infer_instance

instance loopless_isPresentRed
    {node : Word} :
    Loopless (isPresentRed node) := by
  unfold isPresentRed
  infer_instance

instance loopless_replaceChild
    {side : Side}
    {parent node replacement : Word} :
    Loopless (replaceChild side parent node replacement) := by
  unfold replaceChild
  infer_instance

instance loopless_rbRotate
    {side : Side}
    {node : Word} :
    Loopless (rbRotate side node) := by
  unfold rbRotate
  infer_instance

instance loopless_rbInsertFlip
    {uncle parent gparent : Word} :
    Loopless (rbInsertFlip uncle parent gparent) := by
  unfold rbInsertFlip
  infer_instance

instance loopless_rbInsertTurn
    {side : Side}
    {parent gparent : Word} :
    Loopless (rbInsertTurn side parent gparent) := by
  unfold rbInsertTurn
  infer_instance

instance loopless_rbInsertColorBranch
    {side : Side}
    {node parent gparent : Word} :
    Loopless (rbInsertColorBranch side node parent gparent) := by
  unfold rbInsertColorBranch
  infer_instance

instance loopless_rbInsertColorStep
    {node : Word} :
    Loopless (rbInsertColorStep node) := by
  unfold rbInsertColorStep
  infer_instance

instance loopless_rbEraseSibling
    {side : Side}
    {parent sibling : Word} :
    Loopless (rbEraseSibling side parent sibling) := by
  unfold rbEraseSibling
  infer_instance

instance loopless_rbEraseInner
    {side : Side}
    {parent other : Word} :
    Loopless (rbEraseInner side parent other) := by
  unfold rbEraseInner
  infer_instance

instance loopless_rbEraseOuter
    {side : Side}
    {parent other : Word} :
    Loopless (rbEraseOuter side parent other) := by
  unfold rbEraseOuter
  infer_instance

instance loopless_rbEraseNephews
    {other : Word} :
    Loopless (rbEraseNephews other) := by
  unfold rbEraseNephews
  infer_instance

instance loopless_rbEraseColorOther
    {side : Side}
    {parent other : Word} :
    Loopless (rbEraseColorOther side parent other) := by
  unfold rbEraseColorOther
  infer_instance

instance loopless_rbEraseColorBranch
    {side : Side}
    {parent : Word} :
    Loopless (rbEraseColorBranch side parent) := by
  unfold rbEraseColorBranch
  infer_instance

instance loopless_rbEraseColorStep
    {place : Word × Word} :
    Loopless (rbEraseColorStep place) := by
  unfold rbEraseColorStep
  infer_instance

instance loopless_rbEraseDetach
    {old node child above : Word} :
    Loopless (rbEraseDetach old node child above) := by
  unfold rbEraseDetach
  infer_instance

instance loopless_rbEraseRelocate
    {old node : Word} :
    Loopless (rbEraseRelocate old node) := by
  unfold rbEraseRelocate
  infer_instance

instance loopless_loadLink
    {link : RbLink} :
    Loopless (loadLink link) := by
  cases link <;> unfold loadLink <;> infer_instance

instance loopless_storeLink
    {link : RbLink}
    {target : Word} :
    Loopless (storeLink link target) := by
  cases link <;> unfold storeLink <;> infer_instance

instance loopless_rbLinkNode
    {node parent : Word}
    {link : RbLink} :
    Loopless (rbLinkNode node parent link) := by
  unfold rbLinkNode
  infer_instance

instance loopless_rbFindStep
    {κ : Type}
    {member node : Word}
    {key : Word → κ}
    {cmp : κ → κ → Int}
    {value : κ} :
    Loopless (rbFindStep member key cmp value node) := by
  unfold rbFindStep
  infer_instance

instance loopless_rbInsertStep
    {κ : Type}
    {member item : Word}
    {key : Word → κ}
    {cmp : κ → κ → Int}
    {place : RbLink × Word} :
    Loopless (rbInsertStep member key cmp item place) := by
  unfold rbInsertStep
  infer_instance

end Loopless

section Paths

variable {context : Context Word Color}
variable {tree : Tree Word Color}

theorem height_branch
    {side : Side}
    {inner outer : Tree Word Color}
    {address : Word}
    {tag : Color} :
    (Tree.branch side inner address tag outer).height =
      max inner.height outer.height + 1 := by
  cases side with
  | left =>
      rfl
  | right =>
      rw [max_comm]
      rfl

/-- The way down to a subtree and its height are part of the height. -/
theorem length_add_height_le
    (context : Context Word Color)
    (tree : Tree Word Color) :
    context.length + tree.height ≤ (context.plug tree).height := by
  induction context generalizing tree with
  | nil =>
      rw [plug_nil, List.length_nil, Nat.zero_add]
  | cons frame rest inductionHypothesis =>
      have below :=
        inductionHypothesis
          (.branch frame.side tree frame.address frame.tag frame.sibling)
      rw [height_branch] at below
      rw [plug_cons, List.length_cons]
      omega

end Paths

section Walks

variable {state : RbState}
variable {context : Context Word Color}
variable {tree : Tree Word Color}
variable {side : Side}
variable {rounds : Nat}

/-- Following one side makes a round for each node on the way. -/
theorem endsWithin_descend
    {parent : Word}
    (represented : Represents state.view parent tree)
    (nonempty : tree ≠ .nil)
    (low : tree.height < rounds) :
    (descend side tree.root).EndsWithin rounds state := by
  refine endsWithin_loop (fun left node state =>
    ∃ (tree : Tree Word Color) (parent : Word),
      node = tree.root ∧ tree ≠ .nil ∧
        Represents state.view parent tree ∧ tree.height ≤ left)
    ?_ ⟨tree, parent, rfl, nonempty, represented, le_rfl⟩ low
  rintro left _ state ⟨tree, parent, rfl, nonempty, represented, bound⟩
  obtain ⟨inner, address, tag, outer, rfl⟩ :=
    Tree.exists_branch side nonempty
  obtain ⟨atAddress, innerRep, -⟩ := represents_branch.mp represented
  rw [height_branch] at bound
  simp only [Tree.root_branch, ensures_bind, ensures_getChild, atAddress,
    Option.some.injEq, exists_eq_left', Cell.make_child]
  by_cases empty : inner = .nil
  · simp [empty]
  · have present := innerRep.root_eq_null_iff.not.mpr empty
    rw [if_neg present, ensures_pure]
    rintro _ ⟨⟩
    exact ⟨inner.height, by omega, inner, address, rfl, empty, innerRep,
      le_rfl⟩

/-- Climbing makes a round for each node on the way. -/
theorem endsWithin_climb
    (holds : state.Holds (context.plug tree))
    (nonempty : tree ≠ .nil)
    (low : context.length < rounds) :
    (climb side tree.root).EndsWithin rounds state := by
  refine endsWithin_loop (fun left node state =>
    ∃ (context : Context Word Color) (tree : Tree Word Color),
      node = tree.root ∧ tree ≠ .nil ∧
        state.Holds (context.plug tree) ∧ context.length ≤ left)
    ?_ ⟨context, tree, rfl, nonempty, holds, le_rfl⟩ low
  rintro left _ state ⟨context, tree, rfl, nonempty, holds, bound⟩
  obtain ⟨inner, address, tag, outer, rfl⟩ :=
    Tree.exists_branch .left nonempty
  simp only [ensures_bind, ensures_rbParent, Tree.root_branch, holds.cell,
    Option.some.injEq, exists_eq_left', Cell.make_parent]
  cases context with
  | nil =>
      simp
  | cons frame rest =>
      obtain ⟨frameSide, parent, parentTag, sibling⟩ := frame
      rw [plug_cons] at holds
      obtain ⟨-, inside⟩ := represents_plug.mp holds.represents
      obtain ⟨atParent, -, -⟩ := represents_branch.mp inside
      have present : parent ≠ null := Memory.ne_null atParent
      rw [List.length_cons] at bound
      simp only [parent_cons, present, ↓reduceIte, ensures_bind,
        ensures_getChild, atParent, Option.some.injEq, exists_eq_left',
        ensures_ite, ensures_pure]
      split
      · rintro _ ⟨⟩
        refine ⟨rest.length, by omega, rest, _, ?_, ?_, holds, le_rfl⟩
        · simp
        · cases frameSide <;> simp [Tree.branch]
      · simp

/-- Finding a neighbour goes down or up. -/
theorem endsWithin_rbNeighbour
    {node : Word}
    (holds : state.Holds tree)
    (member : node ∈ tree.inorder)
    (low : tree.height < rounds) :
    (rbNeighbour side node).EndsWithin rounds state := by
  obtain ⟨context, inner, tag, outer, rfl⟩ :=
    Tree.exists_plug_branch_of_mem side member
  have path :=
    length_add_height_le context (.branch side inner node tag outer)
  rw [height_branch] at path
  obtain ⟨-, inside⟩ := represents_plug.mp holds.represents
  obtain ⟨atNode, innerRep, -⟩ := represents_branch.mp inside
  simp only [rbNeighbour, EndsWithin, ensuresWithin_loopless_bind,
    ensures_rbParent, atNode, Option.some.injEq, exists_eq_left']
  split
  · exact ensuresWithin_loopless.mpr (ensures_pure.mpr trivial)
  · simp only [ensuresWithin_loopless_bind, ensures_getChild, atNode,
      Option.some.injEq, exists_eq_left', Cell.make_child]
    by_cases empty : inner = .nil
    · subst empty
      have nonempty : Tree.branch side .nil node tag outer ≠ .nil := by
        cases side <;> simp [Tree.branch]
      have climbs :=
        @endsWithin_climb _ _ _ side rounds holds nonempty (by omega)
      simpa [EndsWithin] using climbs
    · have present := innerRep.root_eq_null_iff.not.mpr empty
      rw [if_pos present]
      exact endsWithin_descend innerRep empty (by omega)

/-- Finding the first or the last node goes down. -/
theorem endsWithin_rbEdge
    (holds : state.Holds tree)
    (low : tree.height < rounds) :
    (rbEdge side).EndsWithin rounds state := by
  rw [rbEdge, EndsWithin, ensuresWithin_loopless_bind, ensures_getRoot,
    holds.rooted]
  by_cases empty : tree = .nil
  · subst empty
    rw [Tree.root_nil, if_pos rfl]
    exact ensuresWithin_loopless.mpr (ensures_pure.mpr trivial)
  · have present := holds.represents.root_eq_null_iff.not.mpr empty
    rw [if_neg present]
    exact endsWithin_descend holds.represents empty low

end Walks

section Search

variable {κ : Type} {member : Word} {key : Word → κ} {cmp : κ → κ → Int}
variable {state : RbState}
variable {tree : Tree Word Color}
variable {rounds : Nat}

/-- The search for a key goes down. -/
theorem endsWithin_rbFindStep
    (holds : state.Holds tree)
    (value : κ)
    (low : tree.height < rounds) :
    (loop (rbFindStep member key cmp value) tree.root).EndsWithin rounds
      state := by
  refine endsWithin_loop (fun left node state =>
    ∃ (tree : Tree Word Color) (parent : Word),
      node = tree.root ∧ Represents state.view parent tree ∧
        tree.height ≤ left)
    ?_ ⟨tree, null, rfl, holds.represents, le_rfl⟩ low
  rintro left _ state ⟨tree, parent, rfl, represented, bound⟩
  cases tree with
  | nil =>
      simp [rbFindStep]
  | node inner here tag outer =>
      obtain ⟨atHere, innerRep, outerRep⟩ := represented
      have present : here ≠ null := Memory.ne_null atHere
      simp only [Tree.height] at bound
      simp only [rbFindStep, Tree.root_node, present, ↓reduceIte]
      by_cases below : cmp (key (rbEntry member here)) value < 0
      · simp only [below, ↓reduceIte, ensures_bind, ensures_getChild,
          atHere, Option.some.injEq, exists_eq_left', ensures_pure,
          Cell.child]
        rintro _ ⟨⟩
        exact ⟨inner.height, by omega, inner, here, rfl, innerRep,
          le_rfl⟩
      · by_cases above : cmp (key (rbEntry member here)) value > 0
        · simp only [below, above, ↓reduceIte, ensures_bind,
            ensures_getChild, atHere, Option.some.injEq,
            exists_eq_left', ensures_pure, Cell.child]
          rintro _ ⟨⟩
          exact ⟨outer.height, by omega, outer, here, rfl, outerRep,
            le_rfl⟩
        · simp [below, above]

/-- `rb_find` goes down. -/
theorem endsWithin_rbFind
    (consistent : ThreeWay cmp)
    (holds : state.Holds tree)
    (sorted : Sorted member key cmp tree.inorder)
    (value : κ)
    (low : tree.height < rounds) :
    (rbFind member key cmp value).EndsWithin rounds state := by
  have found := ensures_rbFind consistent holds sorted value
  rw [rbFind, ensures_bind, ensures_getRoot, holds.rooted] at found
  rw [rbFind, EndsWithin, ensuresWithin_loopless_bind, ensures_getRoot,
    holds.rooted]
  exact (endsWithin_rbFindStep holds value low).bind_loopless found

/-- The search for the place of a new node goes down. -/
theorem endsWithin_rbInsertStep
    (item : Word)
    (holds : state.Holds tree)
    (low : tree.height < rounds) :
    (loop (rbInsertStep member key cmp item) (.root, null)).EndsWithin
      rounds state := by
  refine endsWithin_loop (fun left place state =>
    ∃ (context : Context Word Color) (tree : Tree Word Color),
      place = (slot context, context.parent) ∧
        state.Holds (context.plug tree) ∧ tree.height ≤ left)
    ?_ ⟨[], tree, rfl, holds, le_rfl⟩ low
  rintro left _ state ⟨context, tree, rfl, holds, bound⟩
  simp only [rbInsertStep, ensures_bind]
  rw [ensures_loadLink holds]
  cases tree with
  | nil =>
      simp
  | node inner here tag outer =>
      obtain ⟨-, atHere, -, -⟩ := represents_plug.mp holds.represents
      have present : here ≠ null := Memory.ne_null atHere
      simp only [Tree.height] at bound
      simp only [Tree.root_node, present, ↓reduceIte]
      by_cases below :
          cmp (key (rbEntry member here)) (key (rbEntry member item)) < 0
      · simp only [below, ↓reduceIte, ensures_pure]
        rintro _ ⟨⟩
        exact ⟨inner.height, by omega,
          ⟨.left, here, tag, outer⟩ :: context, inner, rfl, holds,
          le_rfl⟩
      · by_cases above :
            cmp (key (rbEntry member here))
              (key (rbEntry member item)) > 0
        · simp only [below, above, ↓reduceIte, ensures_pure]
          rintro _ ⟨⟩
          exact ⟨outer.height, by omega,
            ⟨.right, here, tag, inner⟩ :: context, outer, rfl, holds,
            le_rfl⟩
        · simp [below, above]

/-- `rb_insert_color` goes up. -/
theorem endsWithin_rbInsertColor
    {context : Context Word Color}
    (nonempty : tree ≠ .nil)
    (topBlack : TopBlack context)
    (holds : state.Holds (context.plug tree))
    (low : context.length < rounds) :
    (loop rbInsertColorStep tree.root).EndsWithin rounds state := by
  refine endsWithin_loop (fun left node state =>
    ∃ (context : Context Word Color) (tree : Tree Word Color),
      node = tree.root ∧ tree ≠ .nil ∧ TopBlack context ∧
        state.Holds (context.plug tree) ∧ context.length ≤ left)
    ?_ ⟨context, tree, rfl, nonempty, topBlack, holds, le_rfl⟩ low
  rintro left _ state
    ⟨context, tree, rfl, nonempty, topBlack, holds, bound⟩
  refine (ensures_rbInsertColorStep nonempty topBlack holds).weaken ?_
  rintro flow after (⟨rfl, -⟩ | progress) following isNext
  · simp at isNext
  · obtain ⟨newContext, newTree, rfl, newHolds, newNonempty, shorter,
      newTop, -⟩ := progress
    cases isNext
    exact ⟨newContext.length, by omega, newContext, newTree, rfl,
      newNonempty, newTop, newHolds, le_rfl⟩

/-- `rb_insert` goes down and up. -/
theorem endsWithin_rbInsert
    (consistent : ThreeWay cmp)
    {item : Word}
    (valid : state.Valid tree)
    (sorted : Sorted member key cmp tree.inorder)
    (allocated : state.Allocated item)
    (fresh : item ∉ tree.inorder)
    (low : tree.height < rounds) :
    (rbInsert member key cmp item).EndsWithin rounds state := by
  have focused : state.Holds (plug [] tree) := valid.holds
  have descends :=
    (endsWithin_rbInsertStep item valid.holds low).ensuresWithin
      (ensures_rbInsertStep consistent focused sorted (by simp [before])
        (by simp [Context.after]))
  simp only [rbInsert, EndsWithin, ensuresWithin_bind]
  refine descends.weaken ?_
  rintro outcome _ ⟨rfl, place⟩
  cases place with
  | present =>
      exact endsWithin_onlyIf (by simp)
  | @vacant context shape =>
      refine endsWithin_onlyIf fun _ => ?_
      obtain rfl : tree = context.plug .nil := shape
      obtain ⟨-, height, vacant, colored⟩ :=
        redBlack_plug.mp valid.redBlack
      obtain rfl : height = 0 := vacant
      have path := length_add_height_le context .nil
      rw [EndsWithin, ensuresWithin_loopless_bind]
      refine (ensures_rbLinkNode valid.holds allocated fresh).weaken ?_
      intro _ linked linkedHolds
      have nonempty :
          Tree.branch .left .nil item Color.red .nil ≠ .nil := by
        simp [Tree.branch]
      have repaired :=
        ensures_rbInsertColor nonempty (topBlack_of_colored colored)
          linkedHolds
      have climbs :=
        @endsWithin_rbInsertColor _ _ rounds _ nonempty
          (topBlack_of_colored colored) linkedHolds (by omega)
      rw [Tree.root_branch] at repaired climbs
      exact climbs.bind_loopless repaired

end Search

section Erase

variable {state : RbState}
variable {context : Context Word Color}
variable {rounds : Nat}

/-- The loop of `__rb_erase_color` goes up. -/
theorem endsWithin_rbEraseColor
    {tree : Tree Word Color}
    {height : Nat}
    (colored : context.Colored (height + 1))
    (holds : state.Holds (context.plug tree))
    (low : 2 * context.length + 1 < rounds) :
    (rbEraseColor tree.root context.parent).EndsWithin rounds state := by
  have measured : remaining context tree < rounds := by
    rw [remaining]
    split
    · omega
    · omega
  have climbs :
      (loop rbEraseColorStep (tree.root, context.parent)).EndsWithin
        rounds state := by
    refine endsWithin_loop (fun left place state =>
      ∃ (context : Context Word Color) (tree : Tree Word Color)
        (height : Nat),
        place = (tree.root, context.parent) ∧
          context.Colored (height + 1) ∧
          state.Holds (context.plug tree) ∧
          remaining context tree ≤ left)
      ?_ ⟨context, tree, height, rfl, colored, holds, le_rfl⟩ measured
    rintro left _ state ⟨context, tree, height, rfl, colored, holds, bound⟩
    refine (ensures_rbEraseColorStep colored holds).weaken ?_
    rintro flow after (⟨rfl, -⟩ | progress) following isNext
    · simp at isNext
    · rcases progress with
        ⟨result, rfl, -⟩ |
          ⟨newContext, newTree, newHeight, rfl, newHolds, newColored,
            smaller, -⟩
      · simp at isNext
      · cases isNext
        exact ⟨_, smaller.trans_le bound, newContext, newTree, newHeight,
          rfl, newColored, newHolds, le_rfl⟩
  have repaired := ensures_rbEraseColor colored holds
  rw [rbEraseColor] at repaired ⊢
  exact climbs.bind_loopless repaired

/-- The last statement of `rb_erase`. -/
theorem endsWithin_eraseRepair
    {tree : Tree Word Color}
    {lost : Color}
    {height : Nat}
    (colored : context.Colored (height + lost.weight))
    (holds : state.Holds (context.plug tree))
    (low : 2 * context.length + 1 < rounds) :
    (onlyIf (colorWord lost = colorWord .black)
      (rbEraseColor tree.root context.parent)).EndsWithin rounds
        state := by
  refine endsWithin_onlyIf fun isBlack => ?_
  cases lost with
  | red =>
      exact absurd isBlack (by decide)
  | black =>
      exact endsWithin_rbEraseColor colored holds low

/-- `rb_erase` of a node with at most one child goes up. -/
theorem endsWithin_rbEraseUnlink
    {side : Side}
    {address : Word}
    {tag : Color}
    {child : Tree Word Color}
    (redBlack :
      (context.plug (.branch side .nil address tag child)).RedBlack)
    (holds :
      state.Holds (context.plug (.branch side .nil address tag child)))
    (low : 2 * context.length + 1 < rounds) :
    (rbEraseUnlink address child.root).EndsWithin rounds state := by
  obtain ⟨height, -, colored, -⟩ :=
    (@Unlink.single Word _ _ _ _ _).colored redBlack
  obtain ⟨around, inside⟩ := represents_plug.mp holds.represents
  obtain ⟨atAddress, -, childRep⟩ := represents_branch.mp inside
  have distinct := nodup_inorder_plug.mp holds.distinct
  simp only [Tree.nodup_branch, Tree.disjoint_branch_left] at distinct
  obtain ⟨-, -, outside, -, childContext⟩ := distinct
  have clear : LowClear context.parent :=
    RbState.Holds.lowClear_parent around
  simp only [rbEraseUnlink, EndsWithin, ensuresWithin_loopless_bind,
    ensures_rbParent, ensures_rbColor, atAddress, Option.some.injEq,
    exists_eq_left', Cell.make_parent, Cell.make_tag]
  rw [ensures_reparent childRep, ensures_replaceChild
    (by
      rw [RbState.view_modify_setParent _ _ clear]
      simpa using around.modify_outside
        (around.root_notMem childContext) _)
    holds.present outside]
  refine endsWithin_eraseRepair colored (holds_detached holds ?_ ?_) low
  · simp [RbState.view_modify_setParent, clear]
  · simp

/-- `rb_erase` of a node with two children goes down and up. -/
theorem endsWithin_rbEraseSuccessor
    {left right : Tree Word Color}
    {address : Word}
    {tag : Color}
    (leftNonempty : left ≠ .nil)
    (rightNonempty : right ≠ .nil)
    (redBlack : (context.plug (.node left address tag right)).RedBlack)
    (holds : state.Holds (context.plug (.node left address tag right)))
    (low :
      2 * (context.plug (.node left address tag right)).height + 1 <
        rounds) :
    (rbEraseSuccessor address).EndsWithin rounds state := by
  obtain ⟨around, atAddress, leftRep, rightRep⟩ :=
    represents_plug.mp holds.represents
  have path := length_add_height_le context (.node left address tag right)
  simp only [Tree.height] at path
  have descent :=
    @endsWithin_descend _ _ .left rounds _ rightRep rightNonempty
      (by omega)
  obtain ⟨spine, next, nextTag, child, rfl, leftward, descends⟩ :=
    ensures_descend .left rightRep rightNonempty
  have spinePath :=
    length_add_height_le spine (.branch .left .nil next nextTag child)
  rw [height_branch] at spinePath
  have unlink :
      Unlink context
        (.node left address tag
          (spine.plug (.node .nil next nextTag child)))
        (spine ++ ⟨.right, next, tag, left⟩ :: context) child nextTag :=
    .successor leftNonempty leftward
  obtain ⟨height, -, colored, -⟩ := unlink.colored redBlack
  have focused :
      state.Holds
        (plug (spine ++ ⟨.right, address, tag, left⟩ :: context)
          (.branch .left .nil next nextTag child)) := by
    simpa [plug_append, plug_cons, Tree.branch] using holds
  have fresh :
      next ∉
        (plug (spine ++ ⟨.right, address, tag, left⟩ :: context)
          child).inorder := by
    have distinct := nodup_inorder_plug.mp focused.distinct
    simp only [Tree.nodup_branch, Tree.disjoint_branch_left] at distinct
    rw [mem_inorder_plug]
    exact not_or.mpr ⟨distinct.1.1.2, distinct.2.2.1⟩
  simp only [rbEraseSuccessor, EndsWithin, ensuresWithin_loopless_bind,
    ensures_getChild, atAddress, Option.some.injEq, exists_eq_left',
    Cell.child]
  rw [ensuresWithin_bind]
  refine (descent.ensuresWithin descends).weaken ?_
  rintro found _ ⟨isNext, rfl⟩
  rw [isNext]
  simp only [ensuresWithin_loopless_bind, ensures_getChild,
    ensures_rbParent, ensures_rbColor, focused.cell, Option.some.injEq,
    exists_eq_left', Cell.make]
  refine (ensures_rbEraseDetach leftward focused).weaken ?_
  rintro _ detached ⟨rfl, allocated, detachedHolds⟩
  rw [plug_append, plug_cons] at detachedHolds fresh
  refine (ensures_rbEraseRelocate leftNonempty fresh allocated
    detachedHolds).weaken ?_
  intro _ relocated relocatedHolds
  refine endsWithin_eraseRepair colored ?_ ?_
  · rw [plug_append, plug_cons]
    exact relocatedHolds
  · rw [List.length_append, List.length_cons]
    omega

/-- `rb_erase` goes down and up. -/
theorem endsWithin_rbErase
    {tree : Tree Word Color}
    {node : Word}
    (valid : state.Valid tree)
    (member : node ∈ tree.inorder)
    (low : 2 * tree.height + 1 < rounds) :
    (rbErase node).EndsWithin rounds state := by
  obtain ⟨context, left, tag, right, rfl⟩ :=
    Tree.exists_plug_of_mem member
  have redBlack := valid.redBlack
  have holds := valid.holds
  have path := length_add_height_le context (.node left node tag right)
  simp only [Tree.height] at path
  obtain ⟨around, atNode, leftRep, rightRep⟩ :=
    represents_plug.mp holds.represents
  simp only [rbErase, EndsWithin, ensuresWithin_loopless_bind,
    ensures_getChild, atNode, Option.some.injEq, exists_eq_left',
    Cell.child]
  by_cases leftEmpty : left = .nil
  · subst leftEmpty
    simp only [Tree.root_nil, ↓reduceIte]
    exact @endsWithin_rbEraseUnlink _ _ _ .left _ _ _ redBlack holds
      (by omega)
  · have leftPresent := leftRep.root_eq_null_iff.not.mpr leftEmpty
    by_cases rightEmpty : right = .nil
    · subst rightEmpty
      simp only [leftPresent, Tree.root_nil, ↓reduceIte]
      exact @endsWithin_rbEraseUnlink _ _ _ .right _ _ _ redBlack holds
        (by omega)
    · have rightPresent := rightRep.root_eq_null_iff.not.mpr rightEmpty
      simp only [leftPresent, rightPresent, ↓reduceIte]
      exact endsWithin_rbEraseSuccessor leftEmpty rightEmpty redBlack
        holds low

end Erase

section Runs

variable {κ : Type} {member : Word} {cmp : κ → κ → Int}

/-- The number of rounds that is enough for a tree of this size. -/
def logarithmicRounds (size : Nat) : Nat :=
  4 * Nat.log 2 (size + 1) + 2

/--
After every run, every operation on the tree ends although each of its loops
makes only logarithmically many rounds: lookups, insertions, deletions, and the
steps of an iteration.
-/
theorem mapRun_makes_logarithmic_rounds
    (consistent : ThreeWay cmp)
    {reached : MapState κ}
    (run : MapRun member cmp reached) :
    ∃ tree,
      reached.tree.Valid tree ∧
        (∀ value,
          (rbFind member reached.key cmp value).EndsWithin
            (logarithmicRounds tree.size) reached.tree) ∧
        (∀ item,
          reached.tree.Allocated item →
          item ∉ tree.inorder →
          (rbInsert member reached.key cmp item).EndsWithin
            (logarithmicRounds tree.size) reached.tree) ∧
        (∀ node ∈ tree.inorder,
          (rbErase node).EndsWithin (logarithmicRounds tree.size)
              reached.tree ∧
            (rbNext node).EndsWithin (logarithmicRounds tree.size)
              reached.tree ∧
            (rbPrev node).EndsWithin (logarithmicRounds tree.size)
              reached.tree) ∧
        rbFirst.EndsWithin (logarithmicRounds tree.size) reached.tree ∧
        rbLast.EndsWithin (logarithmicRounds tree.size) reached.tree := by
  obtain ⟨tree, refines⟩ := run.exists_refines consistent
  have valid := refines.valid
  have low := valid.redBlack.height_le
  have short : tree.height < logarithmicRounds tree.size := by
    rw [logarithmicRounds]
    omega
  refine ⟨tree, valid, ?_, ?_, ?_, ?_, ?_⟩
  · intro value
    exact endsWithin_rbFind consistent valid.holds refines.sorted value
      short
  · intro item allocated fresh
    exact endsWithin_rbInsert consistent valid refines.sorted allocated
      fresh short
  · intro node isMember
    refine ⟨endsWithin_rbErase valid isMember ?_,
      endsWithin_rbNeighbour valid.holds isMember short,
      endsWithin_rbNeighbour valid.holds isMember short⟩
    rw [logarithmicRounds]
    omega
  · exact endsWithin_rbEdge valid.holds short
  · exact endsWithin_rbEdge valid.holds short

end Runs

section Samples

/--
With three nodes in the tree ten rounds are enough for looking up a key, for
inserting and erasing a node, and for going on to a neighbour.
-/
theorem mapRun_makes_logarithmic_rounds_of_sample :
    ∃ state,
      state.Valid looseTree ∧
        (rbFind 0 looseKey looseCmp 32).EndsWithin 10 state ∧
        (rbInsert 0 looseKey looseCmp 24).EndsWithin 10 state ∧
        (rbErase 16).EndsWithin 10 state ∧
        (rbNext 16).EndsWithin 10 state ∧
        (rbPrev 16).EndsWithin 10 state ∧
        rbFirst.EndsWithin 10 state ∧
        rbLast.EndsWithin 10 state := by
  obtain ⟨state, run, holds, isFree, -⟩ := exists_looseRun
  obtain ⟨tree, valid, finds, inserts, erases, first, last⟩ :=
    mapRun_makes_logarithmic_rounds (threeWay_sub : ThreeWay looseCmp) run
  obtain rfl := valid.holds.unique holds
  have isTwo : Nat.log 2 (looseTree.size + 1) = 2 :=
    Nat.log_pow Nat.one_lt_two 2
  have isTen : logarithmicRounds looseTree.size = 10 := by
    rw [logarithmicRounds, isTwo]
  rw [isTen] at finds inserts erases first last
  obtain ⟨erase, next, prev⟩ := erases 16 (by decide)
  exact ⟨state, valid, finds 32, inserts 24 isFree (by decide), erase,
    next, prev, first, last⟩

end Samples

end LibKern.RbTree
