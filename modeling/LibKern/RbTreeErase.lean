import LibKern.RbTreeShape

namespace LibKern.RbTree

/-!
# `rb_erase` carries out the deletion repair

The first half of this module follows the loop of `__rb_erase_color`, in the
same way as for insertion.  The second half is about unlinking: a node with at
most one child is replaced by that child; otherwise its successor is unlinked
and takes its place.
-/

open Program Context

/-- How far a repair is from its end. -/
def remaining
    (context : Context Word Color)
    (tree : Tree Word Color) : Nat :=
  2 * context.length + if tree.isRed then 0 else 1

/-- What one loop iteration that does not stop at once has achieved. -/
def EraseProgress
    (bound : Nat)
    (context : Context Word Color)
    (tree : Tree Word Color)
    (flow : Flow (Word × Word) Word)
    (after : RbState) : Prop :=
  (∃ result,
      flow = .done result.root ∧
        after.Holds result ∧
        EraseFix context tree (result.paint .black)) ∨
    ∃ (newContext : Context Word Color) (newTree : Tree Word Color)
      (height : Nat),
      flow = .next (newTree.root, newContext.parent) ∧
        after.Holds (newContext.plug newTree) ∧
        newContext.Colored (height + 1) ∧
        remaining newContext newTree < bound ∧
        ∀ result,
          EraseFix newContext newTree result →
          EraseFix context tree result

private theorem EraseProgress.weaken
    {bound larger : Nat}
    {context newContext : Context Word Color}
    {tree newTree : Tree Word Color}
    {flow : Flow (Word × Word) Word}
    {after : RbState}
    (progress : EraseProgress bound context tree flow after)
    (enough : bound ≤ larger)
    (transfer :
      ∀ result,
        EraseFix context tree result →
        EraseFix newContext newTree result) :
    EraseProgress larger newContext newTree flow after := by
  rcases progress with
    ⟨result, stops, holds, fix⟩ |
      ⟨nextContext, nextTree, height, goes, holds, colored, smaller,
        nextTransfer⟩
  · exact .inl ⟨result, stops, holds, transfer _ fix⟩
  · exact .inr ⟨nextContext, nextTree, height, goes, holds, colored,
      Nat.lt_of_lt_of_le smaller enough,
      fun result fix => transfer _ (nextTransfer _ fix)⟩

section Recolouring

variable {state : RbState}
variable {side : Side}
variable {parent other : Word}
variable {tag otherTag : Color}
variable {near far tree : Tree Word Color}
variable {rest : Context Word Color}

/-- A red sibling is rotated above the parent. -/
private theorem ensures_rbEraseSibling
    (holds :
      state.Holds
        (plug rest
          (.branch side tree parent tag
            (.branch side near other otherTag far)))) :
    (rbEraseSibling side parent other).Ensures state fun value after =>
      value = near.root ∧
        after.Holds
          (plug
            (⟨side, parent, .red, near⟩ ::
              ⟨side, other, .black, far⟩ :: rest) tree) := by
  simp only [rbEraseSibling, ensures_bind]
  rw [← plug_flip] at holds
  refine (ensures_rbSetBlack holds).weaken ?_
  intro _ first firstHolds
  rw [plug_flip] at firstHolds
  refine (ensures_rbSetRed firstHolds).weaken ?_
  intro _ second secondHolds
  refine (ensures_rbRotate secondHolds).weaken ?_
  intro _ third thirdHolds
  rw [← plug_cons ⟨side, other, .black, far⟩] at thirdHolds
  simp only [ensures_getChild, thirdHolds.cell, Option.some.injEq,
    exists_eq_left', Cell.make_child_flip, true_and]
  exact thirdHolds

/-- A red inner nephew is rotated into the place of the sibling. -/
private theorem ensures_rbEraseInner
    {middle : Word}
    {middleTag : Color}
    {lower upper : Tree Word Color}
    (holds :
      state.Holds
        (plug rest
          (.branch side tree parent tag
            (.branch side (.branch side lower middle middleTag upper)
              other otherTag far)))) :
    (rbEraseInner side parent other).Ensures state fun value after =>
      value = middle ∧
        after.Holds
          (plug rest
            (.branch side tree parent tag
              (.branch side lower middle .black
                (.branch side upper other .red far)))) := by
  have focused := holds
  rw [← plug_flip] at focused
  simp only [rbEraseInner, ensures_bind, ensures_getChild,
    focused.cell, Option.some.injEq, exists_eq_left', Cell.make_child]
  rw [← plug_cons ⟨side, other, otherTag, far⟩] at focused
  refine (ensures_blacken focused).weaken ?_
  intro _ first firstHolds
  rw [plug_cons] at firstHolds
  refine (ensures_rbSetRed firstHolds).weaken ?_
  intro _ second secondHolds
  have turned :
      second.Holds
        (plug (⟨side.flip, parent, tag, tree⟩ :: rest)
          (.branch side.flip far other .red
            (.branch side.flip upper middle .black lower))) := by
    simpa only [Tree.branch_flip, Tree.paint_branch] using secondHolds
  refine (ensures_rbRotate turned).weaken ?_
  intro _ third thirdHolds
  have result :
      third.Holds
        (plug rest
          (.branch side tree parent tag
            (.branch side lower middle .black
              (.branch side upper other .red far)))) := by
    rw [plug_flip] at thirdHolds
    simpa only [Tree.branch_flip] using thirdHolds
  simp only [result.cell, Option.some.injEq,
    exists_eq_left', Cell.make_child_flip, Tree.root_branch, true_and]
  exact result

/-- A red outer nephew pays for the missing black node. -/
private theorem ensures_rbEraseOuter
    (holds :
      state.Holds
        (plug rest
          (.branch side tree parent tag
            (.branch side near other otherTag far)))) :
    (rbEraseOuter side parent other).Ensures state fun _ after =>
      after.Holds
        (plug rest
          (.branch side (.branch side tree parent .black near)
            other tag (far.paint .black))) := by
  simp only [rbEraseOuter, ensures_bind, ensures_rbColor, holds.cell,
    Option.some.injEq, exists_eq_left', Cell.make_tag]
  rw [← plug_flip] at holds
  refine (ensures_rbSetColor tag holds).weaken ?_
  intro _ first firstHolds
  rw [plug_flip] at firstHolds
  refine (ensures_rbSetBlack firstHolds).weaken ?_
  intro _ second secondHolds
  rw [← plug_flip] at secondHolds
  simp only [ensures_getChild, secondHolds.cell, Option.some.injEq,
    exists_eq_left', Cell.make_child_flip]
  rw [← plug_flip] at secondHolds
  refine (ensures_blacken secondHolds).weaken ?_
  intro _ third thirdHolds
  rw [plug_flip, plug_flip] at thirdHolds
  exact ensures_rbRotate thirdHolds

/-- The test of both nephews does not depend on the side. -/
private theorem ensures_rbEraseNephews
    {post : Bool → RbState → Prop}
    (holds :
      state.Holds (plug rest (.branch side near other otherTag far))) :
    (rbEraseNephews other).Ensures state post ↔
      post (!near.isRed && !far.isRed) state := by
  obtain ⟨-, inside⟩ := represents_plug.mp holds.represents
  simp only [represents_branch] at inside
  obtain ⟨atOther, nearRep, farRep⟩ := inside
  cases side with
  | left =>
      simp only [rbEraseNephews, ensures_bind, ensures_getChild, atOther,
        Option.some.injEq, exists_eq_left', Cell.make, Cell.child,
        ensures_isNullOrBlack nearRep, ensures_ite,
        ensures_isNullOrBlack farRep, ensures_pure]
      cases near.isRed <;> simp
  | right =>
      simp only [rbEraseNephews, ensures_bind, ensures_getChild, atOther,
        Option.some.injEq, exists_eq_left', Cell.make, Cell.child,
        ensures_isNullOrBlack nearRep, ensures_ite,
        ensures_isNullOrBlack farRep, ensures_pure]
      cases far.isRed <;> simp

/-- The second part of the loop body, at a black sibling. -/
private theorem ensures_rbEraseColorOther
    {height : Nat}
    (isBlack : tree.isRed = false)
    (colored : rest.Colored (height + 1))
    (holds :
      state.Holds
        (plug rest
          (.branch side tree parent tag
            (.branch side near other .black far)))) :
    (rbEraseColorOther side parent other).Ensures state
      (EraseProgress (2 * rest.length + tag.weight + 1)
        (⟨side, parent, tag, .branch side near other .black far⟩ :: rest)
        tree) := by
  have focused := holds
  rw [← plug_flip] at focused
  have atOther := focused.cell
  obtain ⟨-, inside⟩ := represents_plug.mp focused.represents
  have farRep := (represents_branch.mp inside).2.2
  simp only [rbEraseColorOther, ensures_bind]
  rw [ensures_rbEraseNephews focused]
  cases farColor : far.isRed with
  | true =>
      simp only [Bool.not_true, Bool.and_false, Bool.false_eq_true,
        ↓reduceIte, ensures_bind, ensures_getChild, atOther,
        Option.some.injEq, exists_eq_left', Cell.make_child_flip,
        ensures_isNullOrBlack farRep, farColor]
      refine (ensures_rbEraseOuter holds).weaken ?_
      intro _ after afterHolds
      simp only [ensures_getRoot, ensures_pure]
      exact .inl ⟨_, by rw [afterHolds.rooted], afterHolds,
        .outer isBlack farColor⟩
  | false =>
      cases nearColor : near.isRed with
      | false =>
          simp only [Bool.not_false, Bool.and_self, ↓reduceIte,
            ensures_bind]
          refine (ensures_rbSetRed focused).weaken ?_
          intro _ after afterHolds
          rw [plug_flip] at afterHolds
          simp only [ensures_rbParent, afterHolds.cell,
            Option.some.injEq, exists_eq_left', Cell.make_parent,
            ensures_pure]
          refine .inr ⟨rest, _, height, by simp, afterHolds, colored,
            ?_, fun result => .recolor isBlack nearColor farColor⟩
          cases tag <;> simp [remaining]
      | true =>
          obtain ⟨lower, middle, upper, rfl⟩ :=
            Tree.exists_branch_of_isRed side nearColor
          simp only [Bool.not_true, Bool.not_false, Bool.and_true,
            Bool.false_eq_true, ↓reduceIte, ensures_bind,
            ensures_getChild, atOther, Option.some.injEq,
            exists_eq_left', Cell.make_child_flip,
            ensures_isNullOrBlack farRep, farColor]
          refine (ensures_rbEraseInner holds).weaken ?_
          rintro _ turned ⟨rfl, turnedHolds⟩
          refine (ensures_rbEraseOuter turnedHolds).weaken ?_
          intro _ after afterHolds
          rw [Tree.paint_branch] at afterHolds
          simp only [ensures_getRoot, ensures_pure]
          exact .inl ⟨_, by rw [afterHolds.rooted], afterHolds,
            .inner isBlack farColor⟩

/-- One half of the loop body, at a sibling of either colour. -/
private theorem ensures_rbEraseColorBranch
    {height : Nat}
    {sibling : Tree Word Color}
    (isBlack : tree.isRed = false)
    (colored :
      Context.Colored (⟨side, parent, tag, sibling⟩ :: rest)
        (height + 1))
    (holds :
      state.Holds
        (plug (⟨side, parent, tag, sibling⟩ :: rest) tree)) :
    (rbEraseColorBranch side parent).Ensures state
      (EraseProgress (2 * rest.length + 3)
        (⟨side, parent, tag, sibling⟩ :: rest) tree) := by
  obtain ⟨siblingColored, admits, restColored⟩ := colored
  have nonempty : sibling ≠ .nil := by
    rintro rfl
    simp at siblingColored
  obtain ⟨near, other, otherTag, far, rfl⟩ :=
    Tree.exists_branch side nonempty
  rw [plug_cons] at holds
  have focused := holds
  rw [← plug_flip] at focused
  simp only [rbEraseColorBranch, ensures_bind, ensures_getChild,
    holds.cell, Option.some.injEq, exists_eq_left',
    Cell.make_child_flip, Tree.root_branch, ensures_rbIsRed,
    focused.cell, Cell.make_tag]
  cases otherTag with
  | black =>
      simp only [Color.isRed_black, Bool.false_eq_true, ↓reduceIte]
      have raised :
          rest.Colored (height + tag.weight + 1) := by
        rw [Nat.add_right_comm]
        exact restColored
      refine
        (ensures_rbEraseColorOther isBlack raised holds).weaken ?_
      intro flow after progress
      refine progress.weaken ?_ fun _ => id
      cases tag <;> simp
  | red =>
      simp only [Color.isRed_red, ↓reduceIte, ensures_bind]
      refine (ensures_rbEraseSibling holds).weaken ?_
      rintro _ turned ⟨rfl, turnedHolds⟩
      simp only [Tree.colored_branch_red, Tree.isRed_branch,
        Color.isRed_red, Bool.true_eq_false, false_and] at siblingColored admits
      obtain ⟨⟨nearBlack, -⟩, nearColored, farColored⟩ :=
        siblingColored
      obtain rfl : tag = .black := by
        cases tag with
        | red =>
            exact (admits rfl).elim
        | black =>
            rfl
      have nearNonempty : near ≠ .nil := by
        rintro rfl
        simp at nearColored
      obtain ⟨lower, inner, innerTag, upper, rfl⟩ :=
        Tree.exists_branch side nearNonempty
      obtain rfl : innerTag = .black := by
        cases innerTag with
        | red =>
            simp at nearBlack
        | black =>
            rfl
      have raised :
          Context.Colored (⟨side, other, .black, far⟩ :: rest)
            (height + 1) :=
        ⟨farColored, by simp, restColored⟩
      rw [Tree.root_branch]
      refine
        (ensures_rbEraseColorOther isBlack raised turnedHolds).weaken ?_
      intro flow after progress
      exact progress.weaken (by simp; omega)
        fun result => .redSibling isBlack

/-- Every loop iteration either stops at a finished repair or goes on. -/
theorem ensures_rbEraseColorStep
    {context : Context Word Color}
    {height : Nat}
    (colored : context.Colored (height + 1))
    (holds : state.Holds (context.plug tree)) :
    (rbEraseColorStep (tree.root, context.parent)).Ensures state
      fun flow after =>
        (flow = .done tree.root ∧ after = state ∧
            EraseFix context tree
              (context.plug (tree.paint .black))) ∨
          EraseProgress (remaining context tree) context tree
            flow after := by
  obtain ⟨around, inside⟩ := represents_plug.mp holds.represents
  simp only [rbEraseColorStep, ensures_bind]
  rw [ensures_isNullOrBlack inside, ensures_getRoot, holds.rooted]
  cases treeColor : tree.isRed with
  | true =>
      simp only [Bool.not_true, Bool.false_eq_true, false_and,
        ↓reduceIte, ensures_pure, true_and]
      exact .inl (.red treeColor)
  | false =>
      cases context with
      | nil =>
          simp only [plug_nil, ne_eq, not_true_eq_false, and_false,
            ↓reduceIte, ensures_pure, true_and]
          rw [Tree.paint_black_of_black treeColor]
          exact .inl (.root treeColor)
      | cons frame rest =>
          obtain ⟨side, parent, tag, sibling⟩ := frame
          have distinct := nodup_inorder_plug.mp holds.distinct
          simp only [addresses_cons, List.disjoint_cons_right,
            List.disjoint_append_right] at distinct
          have belowRoot :
              tree.root ≠
                (plug (⟨side, parent, tag, sibling⟩ :: rest)
                  tree).root := by
            intro same
            have above :
                tree.root ∈
                  addresses
                    (⟨side, parent, tag, sibling⟩ :: rest) :=
              same ▸ root_plug_mem (by simp) tree
            refine around.root_notMem ?_ above
            simpa using distinct.2.2
          have branchStep :=
            ensures_rbEraseColorBranch treeColor colored holds
          have measured :
              remaining (⟨side, parent, tag, sibling⟩ :: rest) tree =
                2 * rest.length + 3 := by
            simp [remaining, treeColor]
            omega
          obtain ⟨atParent, siblingRep, -⟩ := around
          simp only [Bool.not_false, ne_eq, belowRoot,
            not_false_eq_true, and_self, ↓reduceIte, parent_cons,
            ensures_bind, ensures_getChild, atParent,
            Option.some.injEq, exists_eq_left', measured]
          cases side with
          | left =>
              simp only [Cell.make_child, ↓reduceIte]
              exact branchStep.weaken fun _ _ => .inr
          | right =>
              have apart : sibling.root ≠ tree.root := by
                intro same
                have nonempty : sibling ≠ .nil := by
                  rintro rfl
                  simp at colored
                exact siblingRep.root_notMem distinct.2.2.2.1
                  (same ▸ Tree.root_mem nonempty)
              simp only [Cell.make, Cell.child, apart, ↓reduceIte]
              exact branchStep.weaken fun _ _ => .inr

/-- `__rb_erase_color` carries out the deletion repair. -/
theorem ensures_rbEraseColor
    {context : Context Word Color}
    {height : Nat}
    (colored : context.Colored (height + 1))
    (holds : state.Holds (context.plug tree)) :
    (rbEraseColor tree.root context.parent).Ensures state
      fun _ after =>
        ∃ result, EraseFix context tree result ∧
          after.Holds result := by
  simp only [rbEraseColor, ensures_bind]
  induction bound : remaining context tree using Nat.strong_induction_on
    generalizing context tree state height with
  | _ bound inductionHypothesis =>
      subst bound
      rw [ensures_loop]
      refine (ensures_rbEraseColorStep colored holds).weaken ?_
      rintro flow after (⟨rfl, rfl, fix⟩ | progress)
      · refine (ensures_blacken holds).weaken ?_
        intro _ final finalHolds
        exact ⟨_, fix, finalHolds⟩
      · rcases progress with
          ⟨result, rfl, resultHolds, fix⟩ |
            ⟨newContext, newTree, newHeight, rfl, newHolds,
              newColored, smaller, transfer⟩
        · have focused : after.Holds (plug [] result) := resultHolds
          refine (ensures_blacken focused).weaken ?_
          intro _ final finalHolds
          exact ⟨_, fix, finalHolds⟩
        · refine (inductionHypothesis _ smaller newColored newHolds
            rfl).weaken ?_
          intro _ final ended
          refine ended.weaken ?_
          rintro _ last ⟨result, fix, lastHolds⟩
          exact ⟨result, transfer _ fix, lastHolds⟩

end Recolouring

section Unlinking

variable {state : RbState}
variable {context : Context Word Color}

/-- Hanging the only child in the place of its parent takes the parent out. -/
theorem holds_detached
    {after : RbState}
    {side : Side}
    {address : Word}
    {tag : Color}
    {child : Tree Word Color}
    (holds :
      state.Holds
        (context.plug (.branch side .nil address tag child)))
    (viewed :
      after.view =
        (state.view.modify child.root
          (Cell.withParent context.parent)).hang context child.root)
    (rooted :
      after.rbNode = context.rootAfter state.rbNode child.root) :
    after.Holds (context.plug child) := by
  obtain ⟨around, inside⟩ := represents_plug.mp holds.represents
  obtain ⟨-, -, childRep⟩ := represents_branch.mp inside
  have distinct := nodup_inorder_plug.mp holds.distinct
  simp only [Tree.nodup_branch, Tree.disjoint_branch_left] at distinct
  obtain ⟨⟨-, -, childNodup, -⟩, contextNodup, -, -, childContext⟩ :=
    distinct
  refine holds.replug ?_ rooted ?_
  · rw [viewed]
    refine represents_plug.mpr ⟨?_, ?_⟩
    · exact (around.modify_outside
        (around.root_notMem childContext) _).hang contextNodup _
    · exact (childRep.reparent childNodup _).hang_outside
        childContext _
  · exact nodup_inorder_plug.mpr
      ⟨childNodup, contextNodup, childContext⟩

/-- The last statement of `rb_erase` repairs the loss of a node. -/
private theorem ensures_eraseRepair
    {tree : Tree Word Color}
    {lost : Color}
    {height : Nat}
    (colored : context.Colored (height + lost.weight))
    (holds : state.Holds (context.plug tree)) :
    (onlyIf (colorWord lost = colorWord .black)
        (rbEraseColor tree.root context.parent)).Ensures state
      fun _ after =>
        ∃ result, EraseRepair context tree lost result ∧
          after.Holds result := by
  rw [ensures_onlyIf]
  cases lost with
  | red =>
      rw [if_neg (by decide)]
      exact ⟨_, .red, holds⟩
  | black =>
      rw [if_pos rfl]
      refine (ensures_rbEraseColor colored holds).weaken ?_
      rintro _ after ⟨result, fix, afterHolds⟩
      exact ⟨result, .black fix, afterHolds⟩

/-- A node with at most one child gives way to that child. -/
private theorem ensures_rbEraseUnlink
    {side : Side}
    {address : Word}
    {tag : Color}
    {child : Tree Word Color}
    (redBlack :
      (context.plug (.branch side .nil address tag child)).RedBlack)
    (holds :
      state.Holds
        (context.plug (.branch side .nil address tag child))) :
    (rbEraseUnlink address child.root).Ensures state fun _ after =>
      ∃ result, EraseRepair context child tag result ∧
        after.Holds result := by
  obtain ⟨height, -, colored, -⟩ :=
    (Unlink.single (α := Word)).colored redBlack
  obtain ⟨around, inside⟩ := represents_plug.mp holds.represents
  obtain ⟨atAddress, -, childRep⟩ := represents_branch.mp inside
  have distinct := nodup_inorder_plug.mp holds.distinct
  simp only [Tree.nodup_branch, Tree.disjoint_branch_left] at distinct
  obtain ⟨-, -, outside, -, childContext⟩ := distinct
  have clear : LowClear context.parent :=
    RbState.Holds.lowClear_parent around
  simp only [rbEraseUnlink, ensures_bind, ensures_rbParent,
    ensures_rbColor, atAddress, Option.some.injEq, exists_eq_left',
    Cell.make_parent, Cell.make_tag]
  rw [ensures_reparent childRep, ensures_replaceChild
    (by
      rw [RbState.view_modify_setParent _ _ clear]
      simpa using around.modify_outside
        (around.root_notMem childContext) _)
    holds.present outside]
  refine ensures_eraseRepair colored (holds_detached holds ?_ ?_)
  · simp [RbState.view_modify_setParent, clear]
  · simp

/-- The successor leaves its position; its right child moves up. -/
theorem ensures_rbEraseDetach
    {spine : Context Word Color}
    {old next : Word}
    {tag nextTag : Color}
    {left child : Tree Word Color}
    (leftward : ∀ frame ∈ spine, frame.side = .left)
    (holds :
      state.Holds
        (plug (spine ++ ⟨.right, old, tag, left⟩ :: context)
          (.branch .left .nil next nextTag child))) :
    (rbEraseDetach old next child.root
        (parent (spine ++ ⟨.right, old, tag, left⟩ :: context))).Ensures
      state fun vacated after =>
        vacated =
            parent (spine ++ ⟨.right, next, tag, left⟩ :: context) ∧
          (∃ content, after.view.cell next = some content) ∧
          after.Holds
            (plug (spine ++ ⟨.right, old, tag, left⟩ :: context)
              child) := by
  obtain ⟨around, inside⟩ := represents_plug.mp holds.represents
  obtain ⟨atNext, -, childRep⟩ := represents_branch.mp inside
  have clear :
      LowClear
        (parent (spine ++ ⟨.right, old, tag, left⟩ :: context)) :=
    RbState.Holds.lowClear_parent around
  have distinct := nodup_inorder_plug.mp holds.distinct
  simp only [Tree.nodup_branch, Tree.disjoint_branch_left] at distinct
  obtain ⟨⟨⟨-, outsideChild⟩, -⟩, contextNodup, outside, -,
    childContext⟩ := distinct
  have apart : next ≠ child.root :=
    root_ne_of_notMem holds.present outsideChild
  have detached
      {after : RbState}
      (same :
        after =
          (state.modify child.root (RbNode.setParent
            (parent
              (spine ++ ⟨.right, old, tag, left⟩ :: context)))).hang
            (spine ++ ⟨.right, old, tag, left⟩ :: context)
            child.root) :
      (∃ content, after.view.cell next = some content) ∧
        after.Holds
          (plug (spine ++ ⟨.right, old, tag, left⟩ :: context)
            child) := by
    subst same
    refine ⟨?_, holds_detached holds ?_ ?_⟩
    · simp [RbState.view_modify_setParent, clear, apart,
        Memory.hang_cell outside, atNext]
    · simp [RbState.view_modify_setParent, clear]
    · simp
  have aroundMoved :=
    around.modify_outside (around.root_notMem childContext)
      (Cell.withParent
        (parent (spine ++ ⟨.right, old, tag, left⟩ :: context)))
  rw [← RbState.view_modify_setParent _ _ clear] at aroundMoved
  simp only [rbEraseDetach, ensures_bind]
  rw [ensures_reparent childRep]
  cases spine with
  | nil =>
      simp only [List.nil_append, parent_cons, setChild, ↓reduceIte,
        ensures_bind, ensures_store, ensures_pure, true_and]
      exact ⟨⟨_, aroundMoved.1⟩, detached rfl⟩
  | cons frame rest =>
      have different : frame.address ≠ old := by
        rintro same
        simp [same] at contextNodup
      obtain ⟨side, address, frameTag, sibling⟩ := frame
      obtain rfl : side = .left := leftward _ List.mem_cons_self
      simp only [List.cons_append, parent_cons, different, setChild,
        ↓reduceIte, ensures_bind, ensures_store, ensures_pure, true_and]
      exact ⟨⟨_, aroundMoved.1⟩, detached rfl⟩

/-- The detached successor takes the place of the erased node. -/
theorem ensures_rbEraseRelocate
    {left right : Tree Word Color}
    {old new : Word}
    {tag : Color}
    (nonempty : left ≠ .nil)
    (fresh : new ∉ (context.plug (.node left old tag right)).inorder)
    (allocated : ∃ content, state.view.cell new = some content)
    (holds : state.Holds (context.plug (.node left old tag right))) :
    (rbEraseRelocate old new).Ensures state fun _ after =>
      after.Holds (context.plug (.node left new tag right)) := by
  obtain ⟨around, atOld, leftRep, rightRep⟩ :=
    represents_plug.mp holds.represents
  obtain ⟨content, atNew⟩ := allocated
  have apart := nodup_plug_node.mp holds.distinct
  obtain ⟨different, outsideLeft, outsideRight, outsideContext⟩ :=
    notMem_plug_node.mp fresh
  have differentOld : old ≠ new := Ne.symm different
  have clearNew : LowClear new := state.lowClear_of_mapped atNew
  have apartLeft : old ≠ left.root :=
    root_ne_of_notMem (Memory.ne_null atOld) apart.addressLeft
  simp only [rbEraseRelocate, ensures_bind, setChild, ensures_store]
  rw [ensures_load_cell atOld]
  obtain ⟨source, sourceMapped, sourceCell⟩ :=
    Option.map_eq_some_iff.mp atOld
  refine ⟨source, sourceCell, sourceMapped, ⟨_, atNew⟩, ?_⟩
  simp only [RbState.view_modify_parentColor, sourceCell, differentOld,
    ensures_getChild, ensures_rbParent, ne_eq, not_false_eq_true,
    Memory.modify_cell_of_ne, Memory.modify_cell_same, atOld, atNew,
    RbState.view_modify_setChild, Option.some.injEq, exists_eq_left',
    Option.map_some, exists_eq', true_and, Cell.child]
  generalize preparation :
    ((state.modify new fun node =>
      { node with rbParentColor := source.rbParentColor }).modify new
        (RbNode.setChild .right right.root)).modify new
          (RbNode.setChild .left left.root) = prepared
  have agree :
      ∀ address ≠ new,
        prepared.view.cell address = state.view.cell address := by
    intro address other
    simp [← preparation, RbState.view_modify_parentColor, other]
  have copied :
      prepared.view.cell new =
        some ⟨context.parent, left.root, right.root, tag⟩ := by
    simp [← preparation, RbState.view_modify_parentColor, sourceCell,
      atNew, Cell.withParent, Cell.withTag, Cell.withChild]
  have rooted : prepared.rbNode = state.rbNode := by
    simp [← preparation]
  have preparedAround : RepresentsContext prepared.view context old :=
    around.congr fun address member =>
      agree address (ne_of_mem_of_not_mem member outsideContext)
  have preparedLeft : Represents prepared.view old left :=
    leftRep.congr fun address member =>
      agree address (ne_of_mem_of_not_mem member outsideLeft)
  have preparedRight : Represents prepared.view old right :=
    rightRep.congr fun address member =>
      agree address (ne_of_mem_of_not_mem member outsideRight)
  have hungOld :
      (prepared.hang context new).view.cell old =
        some ⟨context.parent, left.root, right.root, tag⟩ := by
    rw [RbState.view_hang, Memory.hang_cell apart.addressContext,
      agree old differentOld, atOld]
  obtain ⟨leftContent, atLeft⟩ :=
    (preparedLeft.hang_outside apart.leftContext new).mapped
      (Tree.root_mem nonempty)
  have rightMoved :
      Represents
        ((prepared.hang context new).modify left.root
          (RbNode.setParent new)).view old right := by
    rw [RbState.view_modify_setParent _ _ clearNew, RbState.view_hang]
    exact (preparedRight.hang_outside apart.rightContext new).modify_outside
      (preparedRight.root_notMem apart.leftRight) _
  rw [ensures_replaceChild preparedAround (Memory.ne_null atOld)
    apart.addressContext]
  have movedOld :
      ((prepared.hang context new).modify left.root
        (RbNode.setParent new)).view.cell old =
        some ⟨context.parent, left.root, right.root, tag⟩ := by
    rw [RbState.view_modify_setParent _ _ clearNew,
      Memory.modify_cell_of_ne _ _ apartLeft, hungOld]
  refine ⟨_, hungOld, ensures_store.mpr ⟨?_, _, movedOld, ?_⟩⟩
  · rw [RbState.view_hang]
    exact ⟨_, atLeft⟩
  · refine (ensures_reparent rightMoved).mpr
      (holds.replug ?_ ?_ (nodup_substituted holds.distinct fresh))
    · simp only [RbState.view_modify_setParent _ _ clearNew,
        RbState.view_hang]
      exact represents_substituted holds.represents holds.distinct
        fresh agree copied
    · simp [rooted]

/-- A node with two children gives way to its successor. -/
private theorem ensures_rbEraseSuccessor
    {left right : Tree Word Color}
    {address : Word}
    {tag : Color}
    (leftNonempty : left ≠ .nil)
    (rightNonempty : right ≠ .nil)
    (redBlack : (context.plug (.node left address tag right)).RedBlack)
    (holds : state.Holds (context.plug (.node left address tag right))) :
    (rbEraseSuccessor address).Ensures state fun _ after =>
      ∃ newContext child lost result,
        Unlink context (.node left address tag right)
            newContext child lost ∧
          EraseRepair newContext child lost result ∧
          after.Holds result := by
  obtain ⟨around, atAddress, leftRep, rightRep⟩ :=
    represents_plug.mp holds.represents
  obtain ⟨spine, next, nextTag, child, rfl, leftward, descends⟩ :=
    ensures_descend .left rightRep rightNonempty
  have unlink :
      Unlink context
        (.node left address tag
          (spine.plug (.node .nil next nextTag child)))
        (spine ++ ⟨.right, next, tag, left⟩ :: context) child nextTag :=
    .successor leftNonempty leftward
  obtain ⟨height, -, colored, -⟩ := unlink.colored redBlack
  have focused :
      state.Holds
        (plug (spine ++ ⟨.right, address, tag, left⟩ :: context)
          (.branch .left .nil next nextTag child)) := by
    simpa [plug_append, plug_cons, Tree.branch] using holds
  have fresh :
      next ∉
        (plug (spine ++ ⟨.right, address, tag, left⟩ :: context)
          child).inorder := by
    have distinct := nodup_inorder_plug.mp focused.distinct
    simp only [Tree.nodup_branch, Tree.disjoint_branch_left] at distinct
    rw [mem_inorder_plug]
    exact not_or.mpr ⟨distinct.1.1.2, distinct.2.2.1⟩
  simp only [rbEraseSuccessor, ensures_bind, ensures_getChild,
    atAddress, Option.some.injEq, exists_eq_left', Cell.child]
  refine descends.weaken ?_
  rintro found _ ⟨isNext, rfl⟩
  rw [isNext]
  simp only [ensures_rbParent, ensures_rbColor, focused.cell,
    Option.some.injEq, exists_eq_left', Cell.make]
  refine (ensures_rbEraseDetach leftward focused).weaken ?_
  rintro _ detached ⟨rfl, allocated, detachedHolds⟩
  rw [plug_append, plug_cons] at detachedHolds fresh
  refine (ensures_rbEraseRelocate leftNonempty fresh allocated
    detachedHolds).weaken ?_
  intro _ relocated relocatedHolds
  have vacated :
      relocated.Holds
        (plug (spine ++ ⟨.right, next, tag, left⟩ :: context)
          child) := by
    rw [plug_append, plug_cons]
    exact relocatedHolds
  refine (ensures_eraseRepair colored vacated).weaken ?_
  rintro _ after ⟨result, repair, afterHolds⟩
  exact ⟨_, _, _, result, unlink, repair, afterHolds⟩

/-- `rb_erase` unlinks the node and repairs the colours. -/
theorem ensures_rbErase
    {left right : Tree Word Color}
    {address : Word}
    {tag : Color}
    (redBlack : (context.plug (.node left address tag right)).RedBlack)
    (holds : state.Holds (context.plug (.node left address tag right))) :
    (rbErase address).Ensures state fun _ after =>
      ∃ newContext child lost result,
        Unlink context (.node left address tag right)
            newContext child lost ∧
          EraseRepair newContext child lost result ∧
          after.Holds result := by
  obtain ⟨around, atAddress, leftRep, rightRep⟩ :=
    represents_plug.mp holds.represents
  simp only [rbErase, ensures_bind, ensures_getChild, atAddress,
    Option.some.injEq, exists_eq_left', Cell.child]
  by_cases leftEmpty : left = .nil
  · subst leftEmpty
    simp only [Tree.root_nil, ↓reduceIte]
    have focused :
        state.Holds
          (context.plug (.branch .left .nil address tag right)) :=
      holds
    refine (ensures_rbEraseUnlink redBlack focused).weaken ?_
    rintro _ after ⟨result, repair, afterHolds⟩
    exact ⟨context, right, tag, result,
      @Unlink.single _ context .left address tag right,
      repair, afterHolds⟩
  · have leftPresent := leftRep.root_eq_null_iff.not.mpr leftEmpty
    by_cases rightEmpty : right = .nil
    · subst rightEmpty
      simp only [leftPresent, Tree.root_nil, ↓reduceIte]
      have focused :
          state.Holds
            (context.plug (.branch .right .nil address tag left)) :=
        holds
      refine (ensures_rbEraseUnlink redBlack focused).weaken ?_
      rintro _ after ⟨result, repair, afterHolds⟩
      exact ⟨context, left, tag, result,
        @Unlink.single _ context .right address tag left,
        repair, afterHolds⟩
    · have rightPresent := rightRep.root_eq_null_iff.not.mpr rightEmpty
      simp only [leftPresent, rightPresent, ↓reduceIte]
      exact ensures_rbEraseSuccessor leftEmpty rightEmpty redBlack holds

end Unlinking

end LibKern.RbTree
