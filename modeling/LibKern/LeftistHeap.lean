import LibKern.LinkedTree
import Mathlib.Data.Nat.Log

namespace LibKern

/-!
# Leftist heaps

A leftist heap is a binary tree with two invariants.  Every node comes before
its children in a given order of the nodes, and the null-path length of a left
subtree is at least that of the right subtree next to it.  Every node stores
its null-path length.  An operation disturbs the second invariant along a path
to the root only; rebuilding the nodes on this path restores it.
-/

namespace Tree

variable {α : Type}

/-- The stored null-path length of the root; a missing tree counts as -1. -/
def rank : Tree α Int → Int
  | .nil => -1
  | .node _ _ npl _ => npl

/-- The number of nodes on a shortest path to a null, minus one. -/
def nullPath {β : Type} : Tree α β → Int
  | .nil => -1
  | .node left _ _ right => min left.nullPath right.nullPath + 1

/-- Every node stores its null-path length, and the left one is not shorter. -/
def Leftist : Tree α Int → Prop
  | .nil => True
  | .node left address npl right =>
      npl = (Tree.node left address npl right).nullPath ∧
        right.nullPath ≤ left.nullPath ∧
        left.Leftist ∧ right.Leftist

/-- The number of nodes on the path that always goes right. -/
def rightSpine {β : Type} : Tree α β → Nat
  | .nil => 0
  | .node _ _ _ right => right.rightSpine + 1

/-- The nodes on the path that always goes right. -/
def spine {β : Type} : Tree α β → List α
  | .nil => []
  | .node _ address _ right => address :: right.spine

/-- The rank of a tree that is present does not make it look missing. -/
def Ranked (tree : Tree α Int) : Prop :=
  tree.rank < 0 → tree = .nil

/-- The address of the root, if there is one. -/
def top {β : Type} : Tree α β → Option α
  | .nil => none
  | .node _ address _ _ => some address

/-- No node is preceded by one of its children. -/
def Ordered {β : Type} (above : α → α → Prop) : Tree α β → Prop
  | .nil => True
  | .node left address _ right =>
      (∀ child ∈ left.top, above address child) ∧
        (∀ child ∈ right.top, above address child) ∧
        left.Ordered above ∧ right.Ordered above

/-- A node above two subtrees, with the shorter null path to the right. -/
def rebuild
    (left : Tree α Int)
    (address : α)
    (right : Tree α Int) : Tree α Int :=
  if left.rank < right.rank then
    .node right address (left.rank + 1) left
  else
    .node left address (right.rank + 1) right

@[simp] theorem rank_nil : (nil : Tree α Int).rank = -1 := rfl

@[simp] theorem rank_node
    (left right : Tree α Int)
    (address : α)
    (npl : Int) :
    (node left address npl right).rank = npl :=
  rfl

@[simp] theorem leftist_nil : (nil : Tree α Int).Leftist := trivial

@[simp] theorem top_nil {β : Type} : (nil : Tree α β).top = none := rfl

@[simp] theorem top_node
    {β : Type}
    (left right : Tree α β)
    (address : α)
    (tag : β) :
    (node left address tag right).top = some address :=
  rfl

/-- The root pointer of a tree leads to its root. -/
theorem root_eq_of_mem_top
    {β : Type}
    [Null α]
    {tree : Tree α β}
    {address : α}
    (isRoot : address ∈ tree.top) :
    tree.root = address := by
  cases tree with
  | nil =>
      simp at isRoot
  | node left here tag right =>
      simpa using isRoot

/-- A missing tree has the shortest null path. -/
theorem neg_one_le_nullPath
    {β : Type}
    (tree : Tree α β) :
    -1 ≤ tree.nullPath := by
  induction tree with
  | nil =>
      simp [nullPath]
  | node left address tag right leftHypothesis rightHypothesis =>
      simp only [nullPath]
      omega

/-- Only a missing tree has a negative null-path length. -/
theorem nullPath_neg_iff
    {β : Type}
    {tree : Tree α β} :
    tree.nullPath < 0 ↔ tree = .nil := by
  cases tree with
  | nil =>
      simp [nullPath]
  | node left address tag right =>
      have leftBound := left.neg_one_le_nullPath
      have rightBound := right.neg_one_le_nullPath
      simp only [nullPath, reduceCtorEq, iff_false]
      omega

/-- The stored null-path lengths are the true ones. -/
theorem Leftist.rank_eq
    {tree : Tree α Int}
    (leftist : tree.Leftist) :
    tree.rank = tree.nullPath := by
  cases tree with
  | nil =>
      rfl
  | node left address npl right =>
      exact leftist.1

/-- Only a missing leftist tree has a negative rank. -/
theorem Leftist.ranked
    {tree : Tree α Int}
    (leftist : tree.Leftist) :
    tree.Ranked := by
  rw [Ranked, leftist.rank_eq]
  exact nullPath_neg_iff.mp

/-- A ranked tree that is present has a rank. -/
theorem Ranked.rank_nonneg
    {tree : Tree α Int}
    (ranked : tree.Ranked)
    (nonempty : tree ≠ .nil) :
    0 ≤ tree.rank :=
  not_lt.mp fun negative => nonempty (ranked negative)

/-- No rank is below that of a missing tree. -/
theorem Ranked.neg_one_le_rank
    {tree : Tree α Int}
    (ranked : tree.Ranked) :
    -1 ≤ tree.rank := by
  by_cases empty : tree = .nil
  · simp [empty]
  · have present := ranked.rank_nonneg empty
    omega

/-- A right child has a left sibling. -/
theorem Leftist.left_ne_nil
    {left right : Tree α Int}
    {address : α}
    {npl : Int}
    (leftist : (node left address npl right).Leftist)
    (nonempty : right ≠ .nil) :
    left ≠ .nil := by
  intro leftEmpty
  apply nonempty
  rw [← nullPath_neg_iff] at leftEmpty ⊢
  exact lt_of_le_of_lt leftist.2.1 leftEmpty

/-- The right spine is a shortest path to a null. -/
theorem Leftist.rightSpine_eq
    {tree : Tree α Int}
    (leftist : tree.Leftist) :
    (tree.rightSpine : Int) = tree.nullPath + 1 := by
  induction tree with
  | nil =>
      rfl
  | node left address npl right _ rightHypothesis =>
      have rightSpine := rightHypothesis leftist.2.2.2
      have shorter := leftist.2.1
      simp only [Tree.rightSpine, nullPath]
      omega

private theorem Leftist.two_pow_le
    {tree : Tree α Int}
    (leftist : tree.Leftist) :
    2 ^ tree.rightSpine ≤ tree.size + 1 := by
  induction tree with
  | nil =>
      simp [Tree.rightSpine, size]
  | node left address npl right leftHypothesis rightHypothesis =>
      obtain ⟨-, shorter, leftLeftist, rightLeftist⟩ := leftist
      have leftSize := leftHypothesis leftLeftist
      have rightSize := rightHypothesis rightLeftist
      have leftSpine := leftLeftist.rightSpine_eq
      have rightSpine := rightLeftist.rightSpine_eq
      have spines : right.rightSpine ≤ left.rightSpine := by
        omega
      have powers : 2 ^ right.rightSpine ≤ 2 ^ left.rightSpine :=
        Nat.pow_le_pow_right (by omega) spines
      simp only [Tree.rightSpine, size, Nat.pow_succ]
      omega

/-- The right spine of a leftist heap is logarithmically short. -/
theorem Leftist.rightSpine_le
    {tree : Tree α Int}
    (leftist : tree.Leftist) :
    tree.rightSpine ≤ Nat.log 2 (tree.size + 1) :=
  Nat.le_log_of_pow_le (by omega) leftist.two_pow_le

/-- A rebuilt node is leftist. -/
theorem Leftist.rebuild
    {left right : Tree α Int}
    (leftLeftist : left.Leftist)
    (rightLeftist : right.Leftist)
    (address : α) :
    (Tree.rebuild left address right).Leftist := by
  have leftRank := leftLeftist.rank_eq
  have rightRank := rightLeftist.rank_eq
  unfold Tree.rebuild
  split
  · refine ⟨?_, ?_, rightLeftist, leftLeftist⟩
    · simp only [nullPath]
      omega
    · omega
  · refine ⟨?_, ?_, leftLeftist, rightLeftist⟩
    · simp only [nullPath]
      omega
    · omega

/-- A rebuilt node is ranked. -/
theorem Ranked.rebuild
    {left right : Tree α Int}
    (leftRanked : left.Ranked)
    (rightRanked : right.Ranked)
    (address : α) :
    (Tree.rebuild left address right).Ranked := by
  have leftRank := leftRanked.neg_one_le_rank
  have rightRank := rightRanked.neg_one_le_rank
  intro negative
  unfold Tree.rebuild at negative
  split at negative
  · simp only [rank_node] at negative
    omega
  · simp only [rank_node] at negative
    omega

@[simp] theorem top_rebuild
    (left right : Tree α Int)
    (address : α) :
    (rebuild left address right).top = some address := by
  unfold rebuild
  split <;> rfl

@[simp] theorem root_rebuild
    [Null α]
    (left right : Tree α Int)
    (address : α) :
    (rebuild left address right).root = address := by
  unfold rebuild
  split <;> rfl

theorem rebuild_ne_nil
    (left right : Tree α Int)
    (address : α) :
    rebuild left address right ≠ .nil := by
  unfold rebuild
  split <;> simp

/-- Rebuilding a node keeps its nodes. -/
theorem inorder_rebuild_perm
    (left right : Tree α Int)
    (address : α) :
    (rebuild left address right).inorder.Perm
      (address :: (left.inorder ++ right.inorder)) := by
  unfold rebuild
  split
  · exact List.perm_middle.trans (List.perm_append_comm.cons _)
  · exact List.perm_middle

/-- Rebuilding a node keeps the order. -/
theorem Ordered.rebuild
    {above : α → α → Prop}
    {left right : Tree α Int}
    {address : α}
    {npl : Int}
    (ordered : (node left address npl right).Ordered above) :
    (Tree.rebuild left address right).Ordered above := by
  obtain ⟨leftBelow, rightBelow, leftOrdered, rightOrdered⟩ := ordered
  unfold Tree.rebuild
  split
  · exact ⟨rightBelow, leftBelow, rightOrdered, leftOrdered⟩
  · exact ⟨leftBelow, rightBelow, leftOrdered, rightOrdered⟩

theorem mem_inorder_of_mem_top
    {β : Type}
    {tree : Tree α β}
    {address : α}
    (isRoot : address ∈ tree.top) :
    address ∈ tree.inorder := by
  cases tree with
  | nil =>
      simp at isRoot
  | node left here tag right =>
      simp only [top_node, Option.mem_some_iff] at isRoot
      simp [isRoot]

/-- The order of a heap only depends on the nodes of the heap. -/
theorem Ordered.congr
    {β : Type}
    {above newAbove : α → α → Prop}
    {tree : Tree α β}
    (ordered : tree.Ordered above)
    (implies :
      ∀ first ∈ tree.inorder, ∀ second ∈ tree.inorder,
        above first second → newAbove first second) :
    tree.Ordered newAbove := by
  induction tree with
  | nil =>
      trivial
  | node left address tag right leftHypothesis rightHypothesis =>
      obtain ⟨leftBelow, rightBelow, leftOrdered, rightOrdered⟩ := ordered
      refine ⟨?_, ?_, leftHypothesis leftOrdered ?_,
        rightHypothesis rightOrdered ?_⟩
      · intro child isChild
        have inLeft := mem_inorder_of_mem_top isChild
        exact implies address (by simp) child (by simp [inLeft])
          (leftBelow child isChild)
      · intro child isChild
        have inRight := mem_inorder_of_mem_top isChild
        exact implies address (by simp) child (by simp [inRight])
          (rightBelow child isChild)
      · intro first inFirst second inSecond
        exact implies first (by simp [inFirst]) second
          (by simp [inSecond])
      · intro first inFirst second inSecond
        exact implies first (by simp [inFirst]) second
          (by simp [inSecond])

/-- The root comes before every node. -/
theorem Ordered.root_above
    {β : Type}
    {above : α → α → Prop}
    (reflexive : ∀ address, above address address)
    (transitive :
      ∀ {first second third},
        above first second → above second third → above first third)
    {tree : Tree α β}
    (ordered : tree.Ordered above)
    {root node : α}
    (isRoot : root ∈ tree.top)
    (member : node ∈ tree.inorder) :
    above root node := by
  induction tree generalizing root with
  | nil =>
      simp at member
  | node left address tag right leftHypothesis rightHypothesis =>
      obtain ⟨leftBelow, rightBelow, leftOrdered, rightOrdered⟩ := ordered
      obtain rfl : address = root := by
        simpa using isRoot
      have below
          {child : Tree α β}
          (childBelow : ∀ top ∈ child.top, above address top)
          (childHypothesis :
            ∀ {top}, top ∈ child.top → above top node)
          (inChild : node ∈ child.inorder) :
          above address node := by
        cases child with
        | nil =>
            simp at inChild
        | node inner top childTag outer =>
            exact transitive (childBelow top rfl) (childHypothesis rfl)
      rcases List.mem_append.mp member with inLeft | atOrRight
      · exact below leftBelow
          (fun isTop => leftHypothesis leftOrdered isTop inLeft) inLeft
      · rcases List.mem_cons.mp atOrRight with rfl | inRight
        · exact reflexive _
        · exact below rightBelow
            (fun isTop => rightHypothesis rightOrdered isTop inRight)
            inRight

end Tree

namespace Context

variable {α : Type}

/-- The address right above the hole, if there is one. -/
def bottom {β : Type} : Context α β → Option α
  | [] => none
  | frame :: _ => some frame.address

/-- No node outside the hole is preceded by one of its children. -/
def Ordered {β : Type} (above : α → α → Prop) : Context α β → Prop
  | [] => True
  | frame :: rest =>
      (∀ child ∈ frame.sibling.top, above frame.address child) ∧
        frame.sibling.Ordered above ∧
        (∀ parent ∈ bottom rest, above parent frame.address) ∧
        Ordered above rest

/-- Put a subtree into the hole and rebuild all nodes above it. -/
def rebuild : Context α Int → Tree α Int → Tree α Int
  | [], tree => tree
  | ⟨.left, address, _, sibling⟩ :: rest, tree =>
      rebuild rest (.rebuild tree address sibling)
  | ⟨.right, address, _, sibling⟩ :: rest, tree =>
      rebuild rest (.rebuild sibling address tree)

@[simp] theorem bottom_cons
    {β : Type}
    (frame : Frame α β)
    (rest : Context α β) :
    bottom (frame :: rest) = some frame.address :=
  rfl

/-- The order of a plugged context in terms of its parts. -/
theorem ordered_plug
    {β : Type}
    {above : α → α → Prop}
    {context : Context α β}
    {tree : Tree α β} :
    (context.plug tree).Ordered above ↔
      tree.Ordered above ∧ context.Ordered above ∧
        ∀ parent ∈ context.bottom, ∀ child ∈ tree.top,
          above parent child := by
  induction context generalizing tree with
  | nil =>
      simp [Ordered, bottom]
  | cons frame rest inductionHypothesis =>
      obtain ⟨side, address, tag, sibling⟩ := frame
      rw [plug_cons, inductionHypothesis]
      cases side <;>
        simp [Tree.branch, Tree.Ordered, Ordered] <;> tauto

/-- Only the root of the tree in the hole can affect the root. -/
theorem root_rebuild
    [Null α]
    (context : Context α Int)
    {first second : Tree α Int}
    (same : first.root = second.root) :
    (context.rebuild first).root = (context.plug second).root := by
  induction context generalizing first second with
  | nil =>
      exact same
  | cons frame rest inductionHypothesis =>
      obtain ⟨side, address, tag, sibling⟩ := frame
      cases side with
      | left =>
          exact inductionHypothesis (by simp [Tree.branch])
      | right =>
          exact inductionHypothesis (by simp [Tree.branch])

/-- The subtrees of a leftist heap are leftist heaps. -/
theorem leftist_of_plug
    {context : Context α Int}
    {tree : Tree α Int}
    (leftist : (context.plug tree).Leftist) :
    tree.Leftist := by
  induction context generalizing tree with
  | nil =>
      exact leftist
  | cons frame rest inductionHypothesis =>
      obtain ⟨side, address, tag, sibling⟩ := frame
      have inside := inductionHypothesis leftist
      cases side with
      | left =>
          exact inside.2.2.1
      | right =>
          exact inside.2.2.2

/-- Next to a path in a leftist heap, no left subtree is missing. -/
theorem siblings_of_leftist_plug
    {context : Context α Int}
    {tree : Tree α Int}
    (leftist : (context.plug tree).Leftist)
    (nonempty : tree ≠ .nil) :
    ∀ frame ∈ context,
      frame.sibling.Leftist ∧
        (frame.side = .right → frame.sibling ≠ .nil) := by
  induction context generalizing tree with
  | nil =>
      simp
  | cons frame rest inductionHypothesis =>
      obtain ⟨side, address, tag, sibling⟩ := frame
      rw [plug_cons] at leftist
      have inside := leftist_of_plug leftist
      rw [List.forall_mem_cons]
      refine ⟨?_, inductionHypothesis leftist ?_⟩
      · cases side with
        | left =>
            exact ⟨inside.2.2.2, by simp⟩
        | right =>
            exact ⟨inside.2.2.1, fun _ => inside.left_ne_nil nonempty⟩
      · cases side <;> simp [Tree.branch]

/-- Rebuilding all nodes above a hole keeps the nodes. -/
theorem inorder_rebuild_perm
    (context : Context α Int)
    (tree : Tree α Int) :
    (context.rebuild tree).inorder.Perm (context.plug tree).inorder := by
  induction context generalizing tree with
  | nil =>
      exact .refl _
  | cons frame rest inductionHypothesis =>
      obtain ⟨side, address, tag, sibling⟩ := frame
      cases side with
      | left =>
          refine (inductionHypothesis _).trans
            (inorder_plug_perm_of_perm _ ?_)
          exact (Tree.inorder_rebuild_perm _ _ _).trans
            (Tree.inorder_branch_perm .left _ _ _ tag).symm
      | right =>
          refine (inductionHypothesis _).trans
            (inorder_plug_perm_of_perm _ ?_)
          exact (Tree.inorder_rebuild_perm _ _ _).trans
            ((List.perm_append_comm.cons _).trans
              (Tree.inorder_branch_perm .right _ _ _ tag).symm)

/-- Rebuilding all nodes above a hole makes the whole tree leftist. -/
theorem leftist_rebuild
    {context : Context α Int}
    {tree : Tree α Int}
    (leftist : tree.Leftist)
    (siblings : ∀ frame ∈ context, frame.sibling.Leftist) :
    (context.rebuild tree).Leftist := by
  induction context generalizing tree with
  | nil =>
      exact leftist
  | cons frame rest inductionHypothesis =>
      obtain ⟨side, address, tag, sibling⟩ := frame
      rw [List.forall_mem_cons] at siblings
      cases side with
      | left =>
          exact inductionHypothesis (leftist.rebuild siblings.1 _)
            siblings.2
      | right =>
          exact inductionHypothesis (siblings.1.rebuild leftist _)
            siblings.2

/-- Rebuilding all nodes above a hole keeps the order. -/
theorem ordered_rebuild
    {above : α → α → Prop}
    {context : Context α Int}
    {tree : Tree α Int}
    (ordered : (context.plug tree).Ordered above) :
    (context.rebuild tree).Ordered above := by
  induction context generalizing tree with
  | nil =>
      exact ordered
  | cons frame rest inductionHypothesis =>
      obtain ⟨side, address, tag, sibling⟩ := frame
      rw [plug_cons, ordered_plug] at ordered
      obtain ⟨inside, around, fits⟩ := ordered
      cases side with
      | left =>
          refine inductionHypothesis (ordered_plug.mpr
            ⟨inside.rebuild, around, ?_⟩)
          simpa [Tree.branch] using fits
      | right =>
          refine inductionHypothesis (ordered_plug.mpr
            ⟨inside.rebuild, around, ?_⟩)
          simpa [Tree.branch] using fits

end Context

end LibKern
