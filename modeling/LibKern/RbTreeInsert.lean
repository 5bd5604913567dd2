import LibKern.RbTreeShape

namespace LibKern.RbTree

/-!
# `rb_insert_color` carries out the insertion repair

Each iteration of the loop takes the tree, seen from the node under repair, to
a tree whose repair is also a repair of the original one.  The number of nodes
above the node under repair decreases, so the loop terminates.
-/

open Program Context

/-- The outermost frame of the context is black. -/
def TopBlack : Context Word Color → Prop
  | [] => True
  | [frame] => frame.tag = .black
  | _ :: frame :: rest => TopBlack (frame :: rest)

/-- A correctly coloured context has a black root. -/
theorem topBlack_of_colored
    {context : Context Word Color}
    {height : Nat}
    (colored : context.Colored height) :
    TopBlack context := by
  induction context generalizing height with
  | nil =>
      trivial
  | cons frame rest inductionHypothesis =>
      obtain ⟨-, admits, restColored⟩ := colored
      cases rest with
      | nil =>
          cases tag : frame.tag with
          | red =>
              exact ((admits tag).2).elim
          | black =>
              exact tag
      | cons frame' rest' =>
          exact inductionHypothesis restColored

theorem TopBlack.tail
    {frame : Frame Word Color}
    {rest : Context Word Color}
    (topBlack : TopBlack (frame :: rest)) :
    TopBlack rest := by
  cases rest with
  | nil =>
      trivial
  | cons frame' rest' =>
      exact topBlack

/-- What a loop iteration that continues has achieved. -/
def InsertProgress
    (context : Context Word Color)
    (tree : Tree Word Color)
    (flow : Flow Word Unit)
    (after : RbState) : Prop :=
  ∃ (newContext : Context Word Color) (newTree : Tree Word Color),
    flow = .next newTree.root ∧
      after.Holds (newContext.plug newTree) ∧
      newTree ≠ .nil ∧
      newContext.length < context.length ∧
      TopBlack newContext ∧
      ∀ result,
        InsertFix newContext newTree result →
        InsertFix context tree result

section Step

variable {state : RbState}
variable {side gside : Side}
variable {parent gparent : Word}
variable {tag gtag : Color}
variable {sibling uncle tree : Tree Word Color}
variable {rest : Context Word Color}

/-- A red uncle: the repair moves up two levels. -/
private theorem ensures_rbInsertFlip
    (holds :
      state.Holds
        (plug rest
          (.branch gside (.branch side tree parent .red sibling)
            gparent gtag uncle)))
    (uncleRed : uncle.isRed = true) :
    (rbInsertFlip uncle.root parent gparent).Ensures state
      fun _ after =>
        after.Holds
          (plug rest
            (.branch gside (.branch side tree parent .black sibling)
              gparent .red (uncle.paint .black))) := by
  obtain ⟨inner, here, outer, rfl⟩ :=
    Tree.exists_branch_of_isRed .left uncleRed
  rw [← plug_flip] at holds
  simp only [rbInsertFlip, ensures_bind, Tree.root_branch,
    Tree.paint_branch]
  refine (ensures_rbSetBlack holds).weaken ?_
  intro _ first firstHolds
  rw [plug_flip, ← plug_cons ⟨gside, gparent, gtag, _⟩] at firstHolds
  refine (ensures_rbSetBlack firstHolds).weaken ?_
  intro _ second secondHolds
  exact ensures_rbSetRed secondHolds

/-- The final rotation at the grandparent. -/
private theorem ensures_rbInsertTurn
    (holds :
      state.Holds
        (plug rest
          (.branch side (.branch side tree parent tag sibling)
            gparent gtag uncle))) :
    (rbInsertTurn side parent gparent).Ensures state fun _ after =>
      after.Holds
        (plug rest
          (.branch side tree parent .black
            (.branch side sibling gparent .red uncle))) := by
  simp only [rbInsertTurn, ensures_bind]
  rw [← plug_cons ⟨side, gparent, gtag, uncle⟩] at holds
  refine (ensures_rbSetBlack holds).weaken ?_
  intro _ first firstHolds
  rw [plug_cons] at firstHolds
  refine (ensures_rbSetRed firstHolds).weaken ?_
  intro _ second secondHolds
  have turned :
      second.Holds
        (plug rest
          (.branch side.flip uncle gparent .red
            (.branch side.flip sibling parent .black tree))) := by
    simpa only [Tree.branch_flip] using secondHolds
  refine (ensures_rbRotate turned).weaken ?_
  intro _ third thirdHolds
  simpa only [Tree.branch_flip] using thirdHolds

/-- One half of the loop body makes progress. -/
private theorem ensures_rbInsertColorBranch
    (nonempty : tree ≠ .nil)
    (topBlack : TopBlack rest)
    (holds :
      state.Holds
        (plug
          (⟨side, parent, .red, sibling⟩ ::
            ⟨gside, gparent, gtag, uncle⟩ :: rest) tree)) :
    (rbInsertColorBranch gside tree.root parent gparent).Ensures state
      (InsertProgress
        (⟨side, parent, .red, sibling⟩ ::
          ⟨gside, gparent, gtag, uncle⟩ :: rest) tree) := by
  rw [plug_cons, plug_cons] at holds
  obtain ⟨-, inside⟩ := represents_plug.mp holds.represents
  simp only [represents_branch, Tree.root_branch] at inside
  obtain ⟨atGparent, ⟨atParent, treeRep, siblingRep⟩, uncleRep⟩ := inside
  have topBlackCons
      (here : Word)
      (below : Tree Word Color) :
      TopBlack (⟨gside, here, .black, below⟩ :: rest) := by
    cases rest with
    | nil =>
        rfl
    | cons frame rest =>
        exact topBlack
  simp only [rbInsertColorBranch, ensures_bind, ensures_getChild,
    atGparent, Option.some.injEq, exists_eq_left',
    Cell.make_child_flip]
  rw [ensures_isPresentRed uncleRep]
  cases uncleColor : uncle.isRed with
  | true =>
      simp only [↓reduceIte, ensures_bind, ensures_pure]
      refine (ensures_rbInsertFlip holds uncleColor).weaken ?_
      intro _ after afterHolds
      have shorter :
          rest.length < (⟨side, parent, Color.red, sibling⟩ ::
            ⟨gside, gparent, gtag, uncle⟩ :: rest).length := by
        rw [List.length_cons, List.length_cons]
        omega
      refine ⟨rest, _, by simp, afterHolds, ?_, shorter, topBlack,
        fun result => .recolor uncleColor⟩
      cases gside <;> simp [Tree.branch]
  | false =>
      simp only [Bool.false_eq_true, ↓reduceIte, ensures_bind,
        ensures_getChild, atParent, Option.some.injEq, exists_eq_left']
      by_cases sameSide : side = gside
      · subst sameSide
        have disjoint :
            sibling.inorder.Disjoint tree.inorder := by
          have distinct := nodup_inorder_plug.mp holds.distinct
          simp only [Tree.nodup_branch] at distinct
          exact List.disjoint_comm.mp distinct.1.2.1.2.2.2
        have different : sibling.root ≠ tree.root := by
          intro same
          exact treeRep.root_notMem disjoint
            (same ▸ Tree.root_mem nonempty)
        simp only [Cell.make_child_flip, different, ↓reduceIte,
          ensures_bind, ensures_pure]
        refine (ensures_rbInsertTurn holds).weaken ?_
        intro _ after afterHolds
        refine
          ⟨⟨side, parent, .black,
              .branch side sibling gparent .red uncle⟩ :: rest,
            tree, rfl, afterHolds, nonempty, by simp,
            topBlackCons _ _, ?_⟩
        intro result fix
        cases fix
        exact .outer uncleColor
      · obtain rfl : side = gside.flip := Side.eq_flip_of_ne sameSide
        obtain ⟨near, node, tag, far, rfl⟩ :=
          Tree.exists_branch gside nonempty
        simp only [Cell.make_child, Tree.root_branch, ↓reduceIte,
          ensures_bind, ensures_pure]
        rw [← plug_cons ⟨gside, gparent, gtag, uncle⟩,
          Tree.branch_flip] at holds
        refine (ensures_rbRotate holds).weaken ?_
        intro _ first firstHolds
        rw [plug_cons] at firstHolds
        refine (ensures_rbInsertTurn firstHolds).weaken ?_
        intro _ after afterHolds
        refine
          ⟨⟨gside, node, .black,
              .branch gside far gparent .red uncle⟩ :: rest,
            .branch gside sibling parent .red near,
            by simp, afterHolds, ?_, by simp, topBlackCons _ _, ?_⟩
        · cases gside <;> simp [Tree.branch]
        · intro result fix
          cases fix
          exact .inner uncleColor

/-- Every loop iteration either ends at a finished repair or goes on. -/
theorem ensures_rbInsertColorStep
    {context : Context Word Color}
    (nonempty : tree ≠ .nil)
    (topBlack : TopBlack context)
    (holds : state.Holds (context.plug tree)) :
    (rbInsertColorStep tree.root).Ensures state fun flow after =>
      (flow = .done () ∧ after = state ∧
          InsertFix context tree
            ((context.plug tree).paint .black)) ∨
        InsertProgress context tree flow after := by
  obtain ⟨inner, here, tag, outer, rfl⟩ :=
    Tree.exists_branch .left nonempty
  obtain ⟨around, inside⟩ := represents_plug.mp holds.represents
  simp only [rbInsertColorStep, ensures_bind, Tree.root_branch,
    ensures_rbParent, holds.cell, Option.some.injEq, exists_eq_left',
    Cell.make_parent]
  cases context with
  | nil =>
      simp only [isPresentRed, parent_nil, ↓reduceIte, ensures_pure,
        Bool.false_eq_true]
      exact .inl ⟨trivial, trivial, .root⟩
  | cons frame rest =>
      obtain ⟨side, parent, ptag, sibling⟩ := frame
      obtain ⟨atParent, siblingRep, restRep⟩ := around
      have parentPresent : parent ≠ null := Memory.ne_null atParent
      simp only [isPresentRed, parent_cons, parentPresent, ↓reduceIte,
        ensures_rbIsRed, atParent, Option.some.injEq, exists_eq_left',
        Cell.make_tag]
      cases ptag with
      | black =>
          simp only [Color.isRed_black, Bool.false_eq_true, ↓reduceIte,
            ensures_pure]
          exact .inl ⟨trivial, trivial, .black⟩
      | red =>
          cases rest with
          | nil =>
              simp [TopBlack] at topBlack
          | cons gframe rest =>
              obtain ⟨gside, gparent, gtag, uncle⟩ := gframe
              have branchStep :=
                ensures_rbInsertColorBranch nonempty
                  topBlack.tail.tail holds
              rw [Tree.root_branch] at branchStep
              have uncleApart : parent ≠ uncle.root := by
                have distinct := nodup_inorder_plug.mp holds.distinct
                simp only [addresses_cons, List.nodup_cons,
                  List.mem_append, List.mem_cons, not_or] at distinct
                exact root_ne_of_notMem parentPresent
                  distinct.2.1.1.2.2.1
              obtain ⟨atGparent, uncleRep, -⟩ := restRep
              simp only [Color.isRed_red, ↓reduceIte, parent_cons,
                ensures_bind, ensures_rbParent, atParent,
                Option.some.injEq, exists_eq_left', Cell.make_parent,
                ensures_getChild, atGparent]
              cases gside with
              | left =>
                  simp only [Cell.make_child, ↓reduceIte]
                  exact branchStep.weaken fun _ _ => .inr
              | right =>
                  simp only [Cell.make, Cell.child, uncleApart,
                    ↓reduceIte]
                  exact branchStep.weaken fun _ _ => .inr

/-- The loop of `rb_insert_color` reaches the repaired tree. -/
private theorem ensures_insertLoop
    {context : Context Word Color}
    (nonempty : tree ≠ .nil)
    (topBlack : TopBlack context)
    (holds : state.Holds (context.plug tree)) :
    (loop rbInsertColorStep tree.root).Ensures state fun _ after =>
      ∃ result,
        InsertFix context tree (result.paint .black) ∧
          after.Holds result := by
  induction bound : context.length using Nat.strong_induction_on
    generalizing context tree state with
  | _ length inductionHypothesis =>
      subst bound
      rw [ensures_loop]
      refine
        (ensures_rbInsertColorStep nonempty topBlack holds).weaken ?_
      rintro flow after (⟨rfl, rfl, fix⟩ | progress)
      · exact ⟨_, fix, holds⟩
      · obtain ⟨newContext, newTree, rfl, newHolds, newNonempty,
          shorter, newTop, transfer⟩ := progress
        refine (inductionHypothesis _ shorter newNonempty newTop
          newHolds rfl).weaken ?_
        rintro _ final ⟨result, fix, finalHolds⟩
        exact ⟨result, transfer _ fix, finalHolds⟩

/-- `rb_insert_color` carries out the insertion repair. -/
theorem ensures_rbInsertColor
    {context : Context Word Color}
    (nonempty : tree ≠ .nil)
    (topBlack : TopBlack context)
    (holds : state.Holds (context.plug tree)) :
    (rbInsertColor tree.root).Ensures state fun _ after =>
      ∃ result, InsertFix context tree result ∧ after.Holds result := by
  simp only [rbInsertColor, ensures_bind, ensures_getRoot]
  refine (ensures_insertLoop nonempty topBlack holds).weaken ?_
  rintro _ after ⟨result, fix, afterHolds⟩
  have present : result ≠ .nil := by
    rintro rfl
    have order := fix.inorder
    have member : tree.root ∈ (context.plug tree).inorder :=
      mem_inorder_plug.mpr (.inl (Tree.root_mem nonempty))
    simp [← order] at member
  obtain ⟨inner, here, tag, outer, rfl⟩ :=
    Tree.exists_branch .left present
  have focused :
      after.Holds (plug [] (.branch .left inner here tag outer)) :=
    afterHolds
  rw [afterHolds.rooted, Tree.root_branch]
  refine (ensures_rbSetBlack focused).weaken ?_
  intro _ final finalHolds
  exact ⟨_, fix, by simpa using finalHolds⟩

end Step

end LibKern.RbTree
