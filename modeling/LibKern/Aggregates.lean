import LibKern.RedBlack
import Mathlib.Algebra.BigOperators.Group.List.Basic

namespace LibKern

/-!
# Aggregates over subtrees

Every node carries an aggregate that is computed from the node itself and from
the aggregates of its children.  Rebalancing moves subtrees and leaves stale
aggregates behind.  This module says where: all of them lie on one path to the
root, or are siblings of nodes on this path, so that recomputing along the path
repairs everything.  Where the aggregates are products in a monoid, a correct
one is the product over the listing of a subtree.
-/

section Paths

variable {α β : Type}

/--
A path from the root to a subtree with one property such that the siblings of
all nodes on the path have another property.
-/
inductive Tree.OnPath
    (stop beside : Tree α β → Prop) :
    Tree α β → Prop where
  | stop
      {tree : Tree α β} :
      stop tree →
      OnPath stop beside tree
  | above
      {side : Side}
      {inner outer : Tree α β}
      {address : α}
      {tag : β} :
      OnPath stop beside inner →
      beside outer →
      OnPath stop beside (.branch side inner address tag outer)

namespace Tree.OnPath

variable {stop stop' beside beside' : Tree α β → Prop}
variable {tree : Tree α β}

theorem mono
    (path : OnPath stop beside tree)
    (stops : ∀ tree, stop tree → stop' tree)
    (besides : ∀ tree, beside tree → beside' tree) :
    OnPath stop' beside' tree := by
  induction path with
  | stop ends =>
      exact .stop (stops _ ends)
  | above _ sibling inductionHypothesis =>
      exact .above inductionHypothesis (besides _ sibling)

/-- A path continues through a context with suitable siblings. -/
theorem plug
    (path : OnPath stop beside tree)
    {context : Context α β}
    (siblings : ∀ frame ∈ context, beside frame.sibling) :
    OnPath stop beside (context.plug tree) := by
  induction context generalizing tree with
  | nil =>
      exact path
  | cons frame rest inductionHypothesis =>
      exact inductionHypothesis
        (.above path (siblings frame List.mem_cons_self))
        fun other member => siblings other (List.mem_cons_of_mem _ member)

/-- Painting the root does not affect a path. -/
theorem paint
    {stop beside : Tree α Color → Prop}
    {tree : Tree α Color}
    {color : Color}
    (path : OnPath stop beside tree)
    (stops : ∀ tree, stop tree → stop (tree.paint color)) :
    OnPath stop beside (tree.paint color) := by
  cases path with
  | stop ends =>
      exact .stop (stops _ ends)
  | above path sibling =>
      rw [paint_branch]
      exact .above path sibling

/-- A path into a branch stops at its root or leads into one of the children. -/
theorem branch_cases
    {side : Side}
    {inner outer : Tree α β}
    {address : α}
    {tag : β}
    (path : OnPath stop beside (.branch side inner address tag outer)) :
    stop (.branch side inner address tag outer) ∨
      (OnPath stop beside inner ∧ beside outer) ∨
      (OnPath stop beside outer ∧ beside inner) := by
  generalize shape : Tree.branch side inner address tag outer = tree
    at path
  cases path with
  | stop ends =>
      exact .inl ends
  | @above side' inner' outer' address' tag' path sibling =>
      right
      cases side <;> cases side' <;>
        simp only [branch, node.injEq] at shape <;>
        obtain ⟨rfl, rfl, rfl, rfl⟩ := shape
      · exact .inl ⟨path, sibling⟩
      · exact .inr ⟨path, sibling⟩
      · exact .inr ⟨path, sibling⟩
      · exact .inl ⟨path, sibling⟩

/-- The path of a tree as a context around the subtree it leads to. -/
theorem exists_context
    (path : OnPath stop beside tree) :
    ∃ (context : Context α β) (found : Tree α β),
      tree = context.plug found ∧
        stop found ∧
        ∀ frame ∈ context, beside frame.sibling := by
  induction path with
  | @stop tree ends =>
      exact ⟨[], tree, rfl, ends, by simp⟩
  | @above side inner outer address tag _ sibling inductionHypothesis =>
      obtain ⟨context, found, rfl, ends, siblings⟩ :=
        inductionHypothesis
      refine ⟨context ++ [⟨side, address, tag, outer⟩], found, ?_, ends,
        ?_⟩
      · rw [Context.plug_append]
        rfl
      · intro frame member
        rcases List.mem_append.mp member with inContext | isLast
        · exact siblings frame inContext
        · rw [List.mem_singleton.mp isLast]
          exact sibling

end Tree.OnPath

end Paths

section Correctness

variable {α β A : Type}
variable (compute : α → Option A → Option A → A)
variable (aggregate : α → A)

/-- The aggregate at the root of a tree, if there is a root. -/
def Tree.rootAggregate : Tree α β → Option A
  | .nil => none
  | .node _ address _ _ => some (aggregate address)

/-- Every aggregate in the tree is correct. -/
def Tree.Correct : Tree α β → Prop
  | .nil => True
  | .node left address _ right =>
      aggregate address =
          compute address (left.rootAggregate aggregate)
            (right.rootAggregate aggregate) ∧
        left.Correct ∧ right.Correct

/-- Every aggregate below the root is correct. -/
def Tree.CorrectBelow : Tree α β → Prop
  | .nil => True
  | .node left _ _ right =>
      left.Correct compute aggregate ∧ right.Correct compute aggregate

/-- The tree has this root, and every aggregate below it is correct. -/
def Tree.StaleRoot (start : α) : Tree α β → Prop
  | .nil => False
  | .node left address _ right =>
      address = start ∧
        left.Correct compute aggregate ∧
        right.Correct compute aggregate

/--
The stale aggregates lie on the path from a node to the root and at the
siblings of the nodes on this path.
-/
def Tree.Stale (start : α) : Tree α β → Prop :=
  Tree.OnPath (Tree.StaleRoot compute aggregate start)
    (Tree.CorrectBelow compute aggregate)

/-- The tree has this root, which is a leaf or lies above stale children. -/
def Tree.StaleInsert (node : α) : Tree α β → Prop
  | .nil => False
  | .node left address _ right =>
      address = node ∧
        ((left = .nil ∧ right = .nil) ∨
          (left ≠ .nil ∧
            left.CorrectBelow compute aggregate ∧
            right.CorrectBelow compute aggregate))

/-- The tree is a leaf. -/
def Tree.IsLeaf (node : α) : Tree α β → Prop
  | .nil => False
  | .node left address _ right =>
      address = node ∧ left = .nil ∧ right = .nil

variable {compute aggregate}

namespace Tree

@[simp] theorem correct_nil :
    (nil : Tree α β).Correct compute aggregate :=
  trivial

@[simp] theorem correctBelow_nil :
    (nil : Tree α β).CorrectBelow compute aggregate :=
  trivial

@[simp] theorem correctBelow_branch
    {side : Side}
    {inner outer : Tree α β}
    {address : α}
    {tag : β} :
    (branch side inner address tag outer).CorrectBelow
        compute aggregate ↔
      inner.Correct compute aggregate ∧
        outer.Correct compute aggregate := by
  cases side with
  | left =>
      rfl
  | right =>
      exact and_comm

theorem Correct.below
    {tree : Tree α β}
    (correct : tree.Correct compute aggregate) :
    tree.CorrectBelow compute aggregate := by
  cases tree with
  | nil =>
      trivial
  | node left address tag right =>
      exact correct.2

@[simp] theorem correct_paint
    {tree : Tree α Color}
    {color : Color} :
    (tree.paint color).Correct compute aggregate ↔
      tree.Correct compute aggregate := by
  cases tree <;> rfl

theorem rootAggregate_congr
    {newAggregate : α → A}
    {tree : Tree α β}
    (same :
      ∀ address ∈ tree.inorder,
        newAggregate address = aggregate address) :
    tree.rootAggregate newAggregate = tree.rootAggregate aggregate := by
  cases tree with
  | nil =>
      rfl
  | node left address tag right =>
      simp [rootAggregate, same address (by simp)]

/-- Correctness depends on the aggregates of the nodes of the tree only. -/
theorem Correct.congr
    {newAggregate : α → A}
    {tree : Tree α β}
    (correct : tree.Correct compute aggregate)
    (same :
      ∀ address ∈ tree.inorder,
        newAggregate address = aggregate address) :
    tree.Correct compute newAggregate := by
  induction tree with
  | nil =>
      trivial
  | node left address tag right leftHypothesis rightHypothesis =>
      simp only [inorder_node, List.mem_append, List.mem_cons] at same
      have leftSame := rootAggregate_congr fun other member =>
        same other (.inl member)
      have rightSame := rootAggregate_congr fun other member =>
        same other (.inr (.inr member))
      refine ⟨?_, leftHypothesis correct.2.1 ?_,
        rightHypothesis correct.2.2 ?_⟩
      · rw [same address (.inr (.inl rfl)), leftSame, rightSame]
        exact correct.1
      · intro other member
        exact same other (.inl member)
      · intro other member
        exact same other (.inr (.inr member))

theorem CorrectBelow.congr
    {newAggregate : α → A}
    {tree : Tree α β}
    (correct : tree.CorrectBelow compute aggregate)
    (same :
      ∀ address ∈ tree.inorder,
        newAggregate address = aggregate address) :
    tree.CorrectBelow compute newAggregate := by
  cases tree with
  | nil =>
      trivial
  | node left address tag right =>
      refine ⟨correct.1.congr ?_, correct.2.congr ?_⟩
      · intro other member
        exact same other (by simp [member])
      · intro other member
        exact same other (by simp [member])

/-- Correctness does not depend on the tags. -/
theorem correct_retag
    {side : Side}
    {inner outer : Tree α β}
    {address : α}
    {tag newTag : β} :
    (branch side inner address tag outer).Correct compute aggregate ↔
      (branch side inner address newTag outer).Correct
        compute aggregate := by
  cases side <;> rfl

/-- A correct tree around a hole. -/
theorem Correct.of_plug
    {context : Context α β}
    {tree : Tree α β}
    (correct : (context.plug tree).Correct compute aggregate) :
    tree.Correct compute aggregate ∧
      ∀ frame ∈ context, frame.sibling.Correct compute aggregate := by
  induction context generalizing tree with
  | nil =>
      exact ⟨correct, by simp⟩
  | cons frame rest inductionHypothesis =>
      obtain ⟨inside, around⟩ := inductionHypothesis correct
      obtain ⟨treeCorrect, siblingCorrect⟩ :=
        correctBelow_branch.mp inside.below
      refine ⟨treeCorrect, ?_⟩
      intro other member
      rcases List.mem_cons.mp member with rfl | inRest
      · exact siblingCorrect
      · exact around other inRest

theorem StaleRoot.branch
    {side : Side}
    {inner outer : Tree α β}
    {start : α}
    {tag : β}
    (innerCorrect : inner.Correct compute aggregate)
    (outerCorrect : outer.Correct compute aggregate) :
    (Tree.branch side inner start tag outer).StaleRoot
      compute aggregate start := by
  cases side with
  | left =>
      exact ⟨rfl, innerCorrect, outerCorrect⟩
  | right =>
      exact ⟨rfl, outerCorrect, innerCorrect⟩

theorem StaleRoot.paint
    {start : α}
    {color : Color}
    (tree : Tree α Color)
    (stale : tree.StaleRoot compute aggregate start) :
    (tree.paint color).StaleRoot compute aggregate start := by
  cases tree with
  | nil =>
      exact stale
  | node left address tag right =>
      exact stale

theorem StaleInsert.paint
    {node : α}
    {color : Color}
    (tree : Tree α Color)
    (stale : tree.StaleInsert compute aggregate node) :
    (tree.paint color).StaleInsert compute aggregate node := by
  cases tree with
  | nil =>
      exact stale
  | node left address tag right =>
      exact stale

theorem IsLeaf.staleInsert
    {node : α}
    (tree : Tree α β)
    (isLeaf : tree.IsLeaf node) :
    tree.StaleInsert compute aggregate node := by
  cases tree with
  | nil =>
      exact isLeaf
  | node left address tag right =>
      exact ⟨isLeaf.1, .inl isLeaf.2⟩

/-- A stale path starts at a node of the tree. -/
theorem Stale.start_mem
    {tree : Tree α β}
    {start : α}
    (stale : tree.Stale compute aggregate start) :
    start ∈ tree.inorder := by
  obtain ⟨context, found, rfl, root, -⟩ := stale.exists_context
  cases found with
  | nil =>
      exact root.elim
  | node left address tag right =>
      obtain ⟨rfl, -⟩ := root
      exact Context.mem_inorder_plug.mpr (.inl (by simp))

end Tree

end Correctness

section Rebalancing

variable {α A : Type}
variable {compute : α → Option A → Option A → A}
variable {aggregate : α → A}

open LibKern.Tree Context

/-- Where the insertion of a leaf and its repair leave stale aggregates. -/
theorem InsertFix.staleInsert
    {context : Context α Color}
    {tree result : Tree α Color}
    {node : α}
    (fix : InsertFix context tree result)
    (inserted :
      tree.OnPath (IsLeaf node) (Correct compute aggregate))
    (around :
      ∀ frame ∈ context, frame.sibling.Correct compute aggregate) :
    result.OnPath (StaleInsert compute aggregate node)
      (CorrectBelow compute aggregate) := by
  have weaken
      {tree : Tree α Color}
      (path : tree.OnPath (IsLeaf node) (Correct compute aggregate)) :
      tree.OnPath (StaleInsert compute aggregate node)
        (CorrectBelow compute aggregate) :=
    path.mono IsLeaf.staleInsert fun _ => Correct.below
  induction fix with
  | root =>
      exact (weaken inserted).paint StaleInsert.paint
  | black =>
      exact ((weaken inserted).plug fun frame member =>
        (around frame member).below).paint StaleInsert.paint
  | recolor _ _ inductionHypothesis =>
      simp only [List.forall_mem_cons] at around
      obtain ⟨siblingCorrect, uncleCorrect, rest⟩ := around
      refine inductionHypothesis ?_ rest
      exact .above (.above inserted siblingCorrect)
        (correct_paint.mpr uncleCorrect)
  | outer =>
      simp only [List.forall_mem_cons] at around
      obtain ⟨siblingCorrect, uncleCorrect, rest⟩ := around
      refine OnPath.paint (OnPath.plug ?_ fun frame member =>
        (rest frame member).below) StaleInsert.paint
      refine .above (weaken inserted) ?_
      simp [siblingCorrect, uncleCorrect]
  | @inner side _ _ _ _ _ _ _ _ _ _ =>
      simp only [List.forall_mem_cons] at around
      obtain ⟨siblingCorrect, uncleCorrect, rest⟩ := around
      refine OnPath.paint (OnPath.plug ?_ fun frame member =>
        (rest frame member).below) StaleInsert.paint
      rcases inserted.branch_cases with
        isLeaf | ⟨path, farCorrect⟩ | ⟨path, nearCorrect⟩
      · refine .stop ?_
        cases side <;>
          simp only [branch, IsLeaf] at isLeaf <;>
          obtain ⟨rfl, rfl, rfl⟩ := isLeaf <;>
          simp [branch, StaleInsert, CorrectBelow, siblingCorrect,
            uncleCorrect]
      · refine .above ?_ (by simp [farCorrect, uncleCorrect])
        rw [← branch_flip]
        exact .above (weaken path) siblingCorrect.below
      · rw [← branch_flip]
        refine .above ?_ (by simp [nearCorrect, siblingCorrect])
        exact .above (weaken path) uncleCorrect.below

/--
The path to a node starts inside the subtree under repair, or right above it
when the subtree has no stale aggregates.
-/
def StaleBelow
    (compute : α → Option A → Option A → A)
    (aggregate : α → A)
    (start : α)
    (context : Context α Color)
    (tree : Tree α Color) : Prop :=
  tree.Stale compute aggregate start ∨
    ∃ side tag sibling rest,
      context = ⟨side, start, tag, sibling⟩ :: rest ∧
        tree.Correct compute aggregate

/-- A stale position leads to a stale path one level up. -/
theorem StaleBelow.branch
    {start parent : α}
    {side : Side}
    {tag newTag : Color}
    {sibling newSibling tree : Tree α Color}
    {rest : Context α Color}
    (stale :
      StaleBelow compute aggregate start
        (⟨side, parent, tag, sibling⟩ :: rest) tree)
    (siblingCorrect : newSibling.Correct compute aggregate) :
    (Tree.branch side tree parent newTag newSibling).Stale
      compute aggregate start := by
  rcases stale with stale | ⟨_, _, _, _, shape, treeCorrect⟩
  · exact .above stale siblingCorrect.below
  · obtain ⟨⟨rfl, rfl, rfl, rfl⟩, rfl⟩ := by
      simpa only [List.cons.injEq, Frame.mk.injEq] using shape
    exact .stop (.branch treeCorrect siblingCorrect)

theorem StaleBelow.plug
    {start : α}
    {context : Context α Color}
    {tree : Tree α Color}
    (stale : StaleBelow compute aggregate start context tree)
    (around :
      ∀ frame ∈ context, frame.sibling.Correct compute aggregate) :
    (context.plug tree).Stale compute aggregate start := by
  cases context with
  | nil =>
      rcases stale with stale | ⟨_, _, _, _, shape, -⟩
      · exact stale
      · simp at shape
  | cons frame rest =>
      simp only [List.forall_mem_cons] at around
      exact OnPath.plug (stale.branch around.1) fun other member =>
        (around.2 other member).below

/-- Where the repair after a deletion leaves stale aggregates. -/
theorem EraseFix.stale
    {context : Context α Color}
    {tree result : Tree α Color}
    {start : α}
    (fix : EraseFix context tree result)
    (stale : StaleBelow compute aggregate start context tree)
    (around :
      ∀ frame ∈ context, frame.sibling.Correct compute aggregate) :
    result.Stale compute aggregate start := by
  induction fix with
  | red =>
      refine StaleBelow.plug ?_ around
      rcases stale with stale | ⟨side, tag, sibling, rest, shape, correct⟩
      · exact .inl (OnPath.paint stale StaleRoot.paint)
      · exact .inr ⟨side, tag, sibling, rest, shape,
          correct_paint.mpr correct⟩
  | root =>
      exact stale.plug around
  | recolor _ _ _ _ inductionHypothesis =>
      simp only [List.forall_mem_cons] at around
      obtain ⟨otherCorrect, rest⟩ := around
      exact inductionHypothesis
        (.inl (stale.branch (correct_retag.mp otherCorrect))) rest
  | outer =>
      simp only [List.forall_mem_cons] at around
      obtain ⟨otherCorrect, rest⟩ := around
      obtain ⟨nearCorrect, farCorrect⟩ :=
        correctBelow_branch.mp otherCorrect.below
      refine OnPath.paint (OnPath.plug ?_ fun frame member =>
        (rest frame member).below) StaleRoot.paint
      exact .above (stale.branch nearCorrect)
        (correct_paint.mpr farCorrect).below
  | inner =>
      simp only [List.forall_mem_cons] at around
      obtain ⟨otherCorrect, rest⟩ := around
      obtain ⟨middleCorrect, farCorrect⟩ :=
        correctBelow_branch.mp otherCorrect.below
      obtain ⟨lowerCorrect, upperCorrect⟩ :=
        correctBelow_branch.mp middleCorrect.below
      refine OnPath.paint (OnPath.plug ?_ fun frame member =>
        (rest frame member).below) StaleRoot.paint
      exact .above (stale.branch lowerCorrect)
        (by simp [upperCorrect, farCorrect])
  | redSibling _ _ inductionHypothesis =>
      simp only [List.forall_mem_cons] at around
      obtain ⟨otherCorrect, rest⟩ := around
      obtain ⟨nearCorrect, farCorrect⟩ :=
        correctBelow_branch.mp otherCorrect.below
      refine inductionHypothesis ?_ ?_
      · rcases stale with stale | ⟨_, _, _, _, shape, treeCorrect⟩
        · exact .inl stale
        · obtain ⟨⟨rfl, rfl, rfl, rfl⟩, rfl⟩ := by
            simpa only [List.cons.injEq, Frame.mk.injEq] using shape
          exact .inr ⟨_, _, _, _, rfl, treeCorrect⟩
      · simp only [List.forall_mem_cons]
        exact ⟨nearCorrect, farCorrect, rest⟩

/-- Unlinking a node leaves stale aggregates above the vacated position only. -/
theorem Unlink.correct
    {context newContext : Context α Color}
    {tree child : Tree α Color}
    {lost : Color}
    (unlink : Unlink context tree newContext child lost)
    (correct : (context.plug tree).Correct compute aggregate) :
    child.Correct compute aggregate ∧
      ∀ frame ∈ newContext,
        frame.sibling.Correct compute aggregate := by
  obtain ⟨inside, around⟩ := correct.of_plug
  cases unlink with
  | single =>
      exact ⟨(correctBelow_branch.mp inside.below).2, around⟩
  | successor _ _ =>
      obtain ⟨leftCorrect, rightCorrect⟩ := inside.below
      obtain ⟨nextCorrect, spineCorrect⟩ := rightCorrect.of_plug
      refine ⟨nextCorrect.below.2, ?_⟩
      intro frame member
      rcases List.mem_append.mp member with inSpine | atOrAbove
      · exact spineCorrect frame inSpine
      · rcases List.mem_cons.mp atOrAbove with rfl | inContext
        · exact leftCorrect
        · exact around frame inContext

/-- The deepest node that remains on the path to a vacated position. -/
def deepest [Null α] (context : Context α Color) : Tree α Color → α
  | .nil => context.parent
  | .node _ address _ _ => address

/-- Where a deletion leaves stale aggregates. -/
theorem Unlink.stale
    [Null α]
    {context newContext : Context α Color}
    {tree child result : Tree α Color}
    {lost : Color}
    (unlink : Unlink context tree newContext child lost)
    (repair : EraseRepair newContext child lost result)
    (correct : (context.plug tree).Correct compute aggregate) :
    (result = .nil ∧ deepest newContext child = null) ∨
      result.Stale compute aggregate (deepest newContext child) := by
  obtain ⟨childCorrect, around⟩ := unlink.correct correct
  by_cases alone : newContext = [] ∧ child = .nil
  · obtain ⟨rfl, rfl⟩ := alone
    refine .inl ⟨?_, rfl⟩
    cases repair with
    | red =>
        rfl
    | black fix =>
        cases fix with
        | red isRed =>
            simp at isRed
        | root =>
            rfl
  · right
    have stale :
        StaleBelow compute aggregate (deepest newContext child)
          newContext child := by
      cases child with
      | node left address tag right =>
          exact .inl (.stop ⟨rfl, childCorrect.2⟩)
      | nil =>
          cases newContext with
          | nil =>
              simp at alone
          | cons frame rest =>
              exact .inr ⟨_, _, _, _, rfl, trivial⟩
    cases repair with
    | red =>
        exact stale.plug around
    | black fix =>
        exact fix.stale stale around

end Rebalancing

section Products

variable {α β A : Type} [Monoid A]

/-- Multiply the value of a node with the products of its children. -/
def multiply
    (value : α → A)
    (node : α)
    (left right : Option A) : A :=
  left.getD 1 * value node * right.getD 1

variable {value : α → A}
variable {aggregate : α → A}
variable {tree : Tree α β}

/-- A correct product of a tree is the product over its listing. -/
theorem Tree.Correct.rootAggregate_eq_prod
    (correct : tree.Correct (multiply value) aggregate) :
    (tree.rootAggregate aggregate).getD 1 =
      (tree.inorder.map value).prod := by
  induction tree with
  | nil =>
      simp [Tree.rootAggregate]
  | node left address tag right leftHypothesis rightHypothesis =>
      obtain ⟨here, leftCorrect, rightCorrect⟩ := correct
      rw [Tree.rootAggregate, Option.getD_some, here, multiply,
        leftHypothesis leftCorrect, rightHypothesis rightCorrect]
      simp [mul_assoc]

/-- A correct product of a node is the product over a segment around it. -/
theorem Tree.Correct.exists_segment
    {node : α}
    (correct : tree.Correct (multiply value) aggregate)
    (member : node ∈ tree.inorder) :
    ∃ segment,
      segment <:+: tree.inorder ∧
        node ∈ segment ∧
        aggregate node = (segment.map value).prod := by
  obtain ⟨context, left, tag, right, rfl⟩ :=
    Tree.exists_plug_of_mem member
  refine ⟨(Tree.node left node tag right).inorder, ?_, by simp, ?_⟩
  · rw [Context.inorder_plug]
    exact ⟨context.before, context.after, by simp⟩
  · exact Tree.Correct.rootAggregate_eq_prod correct.of_plug.1

end Products

end LibKern
