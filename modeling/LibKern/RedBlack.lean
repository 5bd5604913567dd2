import LibKern.LinkedTree
import Mathlib.Data.Nat.Log

namespace LibKern

/-!
# Red-black trees and their rebalancing

This module is about trees only.  It defines the red-black conditions, carries
them over to contexts, and describes the two bottom-up rebalancing procedures
as relations between a tree seen from the node under repair and the repaired
tree.  Insertion repairs a red node that may have a red parent; deletion
repairs a subtree that misses one black node.
-/

/-- The two colours of a node. -/
inductive Color where
  | red
  | black
  deriving Repr, DecidableEq

namespace Color

/-- Test for the red colour. -/
def isRed : Color → Bool
  | .red => true
  | .black => false

/-- The contribution of a node to the black height. -/
def weight : Color → Nat
  | .red => 0
  | .black => 1

@[simp] theorem isRed_red : Color.red.isRed = true := rfl

@[simp] theorem isRed_black : Color.black.isRed = false := rfl

@[simp] theorem weight_red : Color.red.weight = 0 := rfl

@[simp] theorem weight_black : Color.black.weight = 1 := rfl

end Color

namespace Tree

variable {α : Type}

/-- The tree has a red root. -/
def isRed : Tree α Color → Bool
  | .nil => false
  | .node _ _ tag _ => tag.isRed

/-- Give the root a colour. -/
def paint (color : Color) : Tree α Color → Tree α Color
  | .nil => .nil
  | .node left address _ right => .node left address color right

/-- No red node has a red child. -/
def NoRedRed : Tree α Color → Prop
  | .nil => True
  | .node left _ tag right =>
      (tag = .red → left.isRed = false ∧ right.isRed = false) ∧
        NoRedRed left ∧ NoRedRed right

/-- The number of black nodes on every path from the root to a null. -/
def blackPaths : Tree α Color → List Nat
  | .nil => [0]
  | .node left _ tag right =>
      (left.blackPaths ++ right.blackPaths).map (· + tag.weight)

/-- A red-black tree. -/
structure RedBlack (tree : Tree α Color) : Prop where
  rootBlack : tree.isRed = false
  noRedRed : tree.NoRedRed
  equalPaths : ∃ height, ∀ blacks ∈ tree.blackPaths, blacks = height

/--
No red node has a red child and every path to a null passes this number of
black nodes.
-/
def Colored : Tree α Color → Nat → Prop
  | .nil, height => height = 0
  | .node left _ tag right, height =>
      (tag = .red → left.isRed = false ∧ right.isRed = false) ∧
        ∃ below, height = below + tag.weight ∧
          Colored left below ∧ Colored right below

@[simp] theorem isRed_nil : (nil : Tree α Color).isRed = false := rfl

@[simp] theorem isRed_branch
    (side : Side)
    (inner outer : Tree α Color)
    (address : α)
    (tag : Color) :
    (branch side inner address tag outer).isRed = tag.isRed := by
  cases side <;> rfl

@[simp] theorem paint_nil (color : Color) :
    (nil : Tree α Color).paint color = .nil :=
  rfl

@[simp] theorem paint_branch
    (side : Side)
    (inner outer : Tree α Color)
    (address : α)
    (tag color : Color) :
    (branch side inner address tag outer).paint color =
      branch side inner address color outer := by
  cases side <;> rfl

@[simp] theorem root_paint
    [Null α]
    (tree : Tree α Color)
    (color : Color) :
    (tree.paint color).root = tree.root := by
  cases tree <;> rfl

@[simp] theorem inorder_paint
    (tree : Tree α Color)
    (color : Color) :
    (tree.paint color).inorder = tree.inorder := by
  cases tree <;> rfl

@[simp] theorem isRed_paint_black (tree : Tree α Color) :
    (tree.paint .black).isRed = false := by
  cases tree <;> rfl

/-- Painting a black root black changes nothing. -/
theorem paint_black_of_black
    {tree : Tree α Color}
    (rootBlack : tree.isRed = false) :
    tree.paint .black = tree := by
  cases tree with
  | nil =>
      rfl
  | node left address tag right =>
      cases tag with
      | red =>
          simp [isRed] at rootBlack
      | black =>
          rfl

@[simp] theorem colored_nil {height : Nat} :
    (nil : Tree α Color).Colored height ↔ height = 0 :=
  Iff.rfl

theorem colored_branch
    {side : Side}
    {inner outer : Tree α Color}
    {address : α}
    {tag : Color}
    {height : Nat} :
    (branch side inner address tag outer).Colored height ↔
      (tag = .red → inner.isRed = false ∧ outer.isRed = false) ∧
        ∃ below, height = below + tag.weight ∧
          inner.Colored below ∧ outer.Colored below := by
  cases side with
  | left =>
      rfl
  | right =>
      simp only [branch, Colored]
      tauto

@[simp] theorem colored_branch_black
    {side : Side}
    {inner outer : Tree α Color}
    {address : α}
    {height : Nat} :
    (branch side inner address .black outer).Colored height ↔
      ∃ below, height = below + 1 ∧
        inner.Colored below ∧ outer.Colored below := by
  simp [colored_branch]

@[simp] theorem colored_branch_red
    {side : Side}
    {inner outer : Tree α Color}
    {address : α}
    {height : Nat} :
    (branch side inner address .red outer).Colored height ↔
      (inner.isRed = false ∧ outer.isRed = false) ∧
        inner.Colored height ∧ outer.Colored height := by
  simp [colored_branch]

/-- A tree with a red root has a node at its root. -/
theorem exists_branch_of_isRed
    (side : Side)
    {tree : Tree α Color}
    (isRed : tree.isRed = true) :
    ∃ inner address outer,
      tree = branch side inner address .red outer := by
  cases tree with
  | nil =>
      simp at isRed
  | node left address tag right =>
      cases tag with
      | black =>
          simp [Tree.isRed] at isRed
      | red =>
          cases side with
          | left =>
              exact ⟨left, address, right, rfl⟩
          | right =>
              exact ⟨right, address, left, rfl⟩

/-- A red root can be painted black, which adds one black node. -/
theorem Colored.paint_black
    {tree : Tree α Color}
    {height : Nat}
    (colored : tree.Colored height)
    (isRed : tree.isRed = true) :
    (tree.paint .black).Colored (height + 1) := by
  obtain ⟨inner, address, outer, rfl⟩ :=
    exists_branch_of_isRed .left isRed
  simp only [colored_branch_red] at colored
  simp [colored.2.1, colored.2.2]

private theorem Colored.mem_blackPaths
    {tree : Tree α Color}
    {height blacks : Nat}
    (colored : tree.Colored height)
    (member : blacks ∈ tree.blackPaths) :
    blacks = height := by
  induction tree generalizing height blacks with
  | nil =>
      simp only [colored_nil] at colored
      simpa [blackPaths, colored] using member
  | node left address tag right leftHypothesis rightHypothesis =>
      obtain ⟨-, below, rfl, leftColored, rightColored⟩ := colored
      simp only [blackPaths, List.map_append, List.mem_append,
        List.mem_map] at member
      rcases member with ⟨inner, inLeft, rfl⟩ | ⟨inner, inRight, rfl⟩
      · rw [leftHypothesis leftColored inLeft]
      · rw [rightHypothesis rightColored inRight]

private theorem Colored.noRedRed
    {tree : Tree α Color}
    {height : Nat}
    (colored : tree.Colored height) :
    tree.NoRedRed := by
  induction tree generalizing height with
  | nil =>
      trivial
  | node left address tag right leftHypothesis rightHypothesis =>
      obtain ⟨separated, below, -, leftColored, rightColored⟩ := colored
      exact ⟨separated, leftHypothesis leftColored,
        rightHypothesis rightColored⟩

private theorem blackPaths_ne_nil (tree : Tree α Color) :
    tree.blackPaths ≠ [] := by
  induction tree with
  | nil =>
      simp [blackPaths]
  | node left address tag right leftHypothesis rightHypothesis =>
      simp [blackPaths, leftHypothesis]

private theorem colored_of_paths
    {tree : Tree α Color}
    {height : Nat}
    (noRedRed : tree.NoRedRed)
    (equal : ∀ blacks ∈ tree.blackPaths, blacks = height) :
    tree.Colored height := by
  induction tree generalizing height with
  | nil =>
      exact (equal 0 (by simp [blackPaths])).symm
  | node left address tag right leftHypothesis rightHypothesis =>
      obtain ⟨separated, leftNoRedRed, rightNoRedRed⟩ := noRedRed
      obtain ⟨first, firstMember⟩ :=
        List.exists_mem_of_ne_nil _ (blackPaths_ne_nil left)
      have shifted :
          ∀ blacks ∈ left.blackPaths ++ right.blackPaths,
            blacks + tag.weight = height := by
        intro blacks member
        exact equal _ (List.mem_map.mpr ⟨blacks, member, rfl⟩)
      have heightShape : height = first + tag.weight :=
        (shifted first (List.mem_append_left _ firstMember)).symm
      refine ⟨separated, first, heightShape,
        leftHypothesis leftNoRedRed ?_,
        rightHypothesis rightNoRedRed ?_⟩
      · intro blacks member
        have := shifted blacks (List.mem_append_left _ member)
        omega
      · intro blacks member
        have := shifted blacks (List.mem_append_right _ member)
        omega

/-- The red-black conditions, with the common black height made explicit. -/
theorem redBlack_iff
    {tree : Tree α Color} :
    tree.RedBlack ↔
      tree.isRed = false ∧ ∃ height, tree.Colored height := by
  constructor
  · rintro ⟨rootBlack, noRedRed, height, equal⟩
    exact ⟨rootBlack, height, colored_of_paths noRedRed equal⟩
  · rintro ⟨rootBlack, height, colored⟩
    exact ⟨rootBlack, colored.noRedRed, height,
      fun _ member => colored.mem_blackPaths member⟩

/-- The empty tree is red-black. -/
theorem redBlack_nil : (nil : Tree α Color).RedBlack :=
  redBlack_iff.mpr ⟨rfl, 0, rfl⟩

/-- A tree with this black height has at least so many nodes. -/
theorem Colored.two_pow_le_size
    {tree : Tree α Color}
    {height : Nat}
    (colored : tree.Colored height) :
    2 ^ height ≤ tree.size + 1 := by
  induction tree generalizing height with
  | nil =>
      simp only [colored_nil] at colored
      simp [colored, size]
  | node left address tag right leftHypothesis rightHypothesis =>
      obtain ⟨-, below, rfl, leftColored, rightColored⟩ := colored
      have leftLarge := leftHypothesis leftColored
      have rightLarge := rightHypothesis rightColored
      have doubled : 2 ^ (below + tag.weight) ≤ 2 * 2 ^ below := by
        cases tag with
        | red =>
            rw [Color.weight_red, Nat.add_zero]
            omega
        | black =>
            rw [Color.weight_black, Nat.pow_succ]
            omega
      simp only [size]
      omega

/-- At least every second node on a path is black. -/
theorem Colored.height_le
    {tree : Tree α Color}
    {height : Nat}
    (colored : tree.Colored height) :
    tree.height ≤ 2 * height + if tree.isRed then 1 else 0 := by
  induction tree generalizing height with
  | nil =>
      simp [Tree.height]
  | node left address tag right leftHypothesis rightHypothesis =>
      obtain ⟨separated, below, rfl, leftColored, rightColored⟩ := colored
      have leftBound := leftHypothesis leftColored
      have rightBound := rightHypothesis rightColored
      cases tag with
      | red =>
          obtain ⟨leftBlack, rightBlack⟩ := separated rfl
          simp only [leftBlack, rightBlack] at leftBound rightBound
          simp only [Tree.height, isRed, Color.isRed_red,
            Color.weight_red, ↓reduceIte]
          simp at leftBound rightBound
          omega
      | black =>
          have leftSlack :
              left.height ≤ 2 * below + 1 := by
            split at leftBound <;> omega
          have rightSlack :
              right.height ≤ 2 * below + 1 := by
            split at rightBound <;> omega
          simp only [Tree.height, isRed, Color.isRed_black,
            Color.weight_black]
          simp
          omega

@[simp] theorem isRed_readdress
    (rename : α → α)
    (tree : Tree α Color) :
    (tree.readdress rename).isRed = tree.isRed := by
  cases tree <;> rfl

theorem colored_readdress
    {rename : α → α}
    {tree : Tree α Color}
    {height : Nat} :
    (tree.readdress rename).Colored height ↔ tree.Colored height := by
  induction tree generalizing height with
  | nil =>
      rfl
  | node left address tag right leftHypothesis rightHypothesis =>
      simp only [readdress, Colored, isRed_readdress, leftHypothesis,
        rightHypothesis]

/-- The red-black conditions do not depend on the addresses. -/
theorem redBlack_readdress
    {rename : α → α}
    {tree : Tree α Color} :
    (tree.readdress rename).RedBlack ↔ tree.RedBlack := by
  simp only [redBlack_iff, isRed_readdress, colored_readdress]

/-- A red-black tree is at most logarithmically high. -/
theorem RedBlack.height_le
    {tree : Tree α Color}
    (redBlack : tree.RedBlack) :
    tree.height ≤ 2 * Nat.log 2 (tree.size + 1) := by
  obtain ⟨rootBlack, height, colored⟩ := redBlack_iff.mp redBlack
  have bound := colored.height_le
  have heightLog : height ≤ Nat.log 2 (tree.size + 1) :=
    Nat.le_log_of_pow_le (by omega) colored.two_pow_le_size
  simp only [rootBlack] at bound
  simp at bound
  omega

end Tree

namespace Context

variable {α : Type}

/-- A red node may be put into the hole. -/
def AdmitsRed : Context α Color → Prop
  | [] => False
  | frame :: _ => frame.tag = .black

/-- The context is correctly coloured around a hole of this black height. -/
def Colored : Context α Color → Nat → Prop
  | [], _ => True
  | frame :: rest, height =>
      frame.sibling.Colored height ∧
        (frame.tag = .red →
          frame.sibling.isRed = false ∧ AdmitsRed rest) ∧
        Colored rest (height + frame.tag.weight)

@[simp] theorem not_admitsRed_nil :
    ¬AdmitsRed ([] : Context α Color) :=
  id

@[simp] theorem admitsRed_cons
    {frame : Frame α Color}
    {rest : Context α Color} :
    AdmitsRed (frame :: rest) ↔ frame.tag = .black :=
  Iff.rfl

@[simp] theorem colored_nil {height : Nat} :
    Colored ([] : Context α Color) height :=
  trivial

@[simp] theorem colored_cons
    {frame : Frame α Color}
    {rest : Context α Color}
    {height : Nat} :
    Colored (frame :: rest) height ↔
      frame.sibling.Colored height ∧
        (frame.tag = .red →
          frame.sibling.isRed = false ∧ AdmitsRed rest) ∧
        Colored rest (height + frame.tag.weight) :=
  Iff.rfl

/-- A plugged context is red-black exactly when its parts fit together. -/
theorem redBlack_plug
    {context : Context α Color}
    {tree : Tree α Color} :
    (context.plug tree).RedBlack ↔
      (tree.isRed = true → context.AdmitsRed) ∧
        ∃ height, tree.Colored height ∧ context.Colored height := by
  induction context generalizing tree with
  | nil =>
      simp [Tree.redBlack_iff]
  | cons frame rest inductionHypothesis =>
      rw [plug_cons, inductionHypothesis]
      obtain ⟨side, address, tag, sibling⟩ := frame
      cases tag with
      | red =>
          simp only [Tree.isRed_branch, Color.isRed_red, forall_const,
            Tree.colored_branch_red, admitsRed_cons, colored_cons,
            Color.weight_red, Nat.add_zero]
          constructor
          · rintro ⟨admits, height, ⟨⟨treeBlack, siblingBlack⟩,
              treeColored, siblingColored⟩, restColored⟩
            refine ⟨by simp [treeBlack], height, treeColored,
              siblingColored, ⟨siblingBlack, admits⟩, restColored⟩
          · rintro ⟨treeBlack, height, treeColored, siblingColored,
              ⟨siblingBlack, admits⟩, restColored⟩
            have black : tree.isRed = false := by
              simpa using treeBlack
            exact ⟨admits, height, ⟨⟨black, siblingBlack⟩,
              treeColored, siblingColored⟩, restColored⟩
      | black =>
          simp only [Tree.isRed_branch, Color.isRed_black,
            Bool.false_eq_true, false_implies, true_and,
            Tree.colored_branch_black, admitsRed_cons, implies_true,
            colored_cons, reduceCtorEq, Color.weight_black]
          constructor
          · rintro ⟨_, ⟨below, rfl, treeColored, siblingColored⟩,
              restColored⟩
            exact ⟨below, treeColored, siblingColored, restColored⟩
          · rintro ⟨below, treeColored, siblingColored, restColored⟩
            exact ⟨_, ⟨below, rfl, treeColored, siblingColored⟩,
              restColored⟩

/-- Plugging a black tree of the right height gives a red-black tree. -/
theorem Colored.redBlack_plug
    {context : Context α Color}
    {tree : Tree α Color}
    {height : Nat}
    (around : context.Colored height)
    (inside : tree.Colored height)
    (fits : tree.isRed = true → context.AdmitsRed) :
    (context.plug tree).RedBlack :=
  Context.redBlack_plug.mpr ⟨fits, height, inside, around⟩

end Context

namespace Tree

variable {α : Type}

/-- A red-black tree keeps its root when it is painted black. -/
theorem RedBlack.paint_black
    {tree : Tree α Color}
    (redBlack : tree.RedBlack) :
    (tree.paint .black).RedBlack := by
  rwa [paint_black_of_black redBlack.rootBlack]

end Tree

open LibKern.Tree Context

variable {α : Type}

/--
Repairing a red node whose parent may be red too.  The first two arguments are
the surroundings of the node and the subtree below it, the last one is the
repaired tree.
-/
inductive InsertFix :
    Context α Color → Tree α Color → Tree α Color → Prop where
  | root {tree : Tree α Color} :
      InsertFix [] tree (tree.paint .black)
  | black
      {side : Side}
      {parent : α}
      {sibling tree : Tree α Color}
      {rest : Context α Color} :
      InsertFix (⟨side, parent, .black, sibling⟩ :: rest) tree
        ((plug (⟨side, parent, .black, sibling⟩ :: rest)
          tree).paint .black)
  | recolor
      {side gside : Side}
      {parent gparent : α}
      {gtag : Color}
      {sibling uncle tree result : Tree α Color}
      {rest : Context α Color} :
      uncle.isRed = true →
      InsertFix rest
        (branch gside (branch side tree parent .black sibling)
          gparent .red (uncle.paint .black))
        result →
      InsertFix
        (⟨side, parent, .red, sibling⟩ ::
          ⟨gside, gparent, gtag, uncle⟩ :: rest)
        tree result
  | outer
      {side : Side}
      {parent gparent : α}
      {gtag : Color}
      {sibling uncle tree : Tree α Color}
      {rest : Context α Color} :
      uncle.isRed = false →
      InsertFix
        (⟨side, parent, .red, sibling⟩ ::
          ⟨side, gparent, gtag, uncle⟩ :: rest)
        tree
        ((plug rest
          (branch side tree parent .black
            (branch side sibling gparent .red uncle))).paint .black)
  | inner
      {side : Side}
      {node parent gparent : α}
      {tag gtag : Color}
      {near far sibling uncle : Tree α Color}
      {rest : Context α Color} :
      uncle.isRed = false →
      InsertFix
        (⟨side.flip, parent, .red, sibling⟩ ::
          ⟨side, gparent, gtag, uncle⟩ :: rest)
        (branch side near node tag far)
        ((plug rest
          (branch side
            (branch side sibling parent .red near)
            node .black
            (branch side far gparent .red uncle))).paint .black)

namespace InsertFix

variable {context : Context α Color} {tree result : Tree α Color}

/-- The repair keeps the nodes and their order. -/
theorem inorder
    (fix : InsertFix context tree result) :
    result.inorder = (context.plug tree).inorder := by
  induction fix with
  | root =>
      simp
  | black =>
      simp
  | @recolor side gside _ _ _ _ _ _ _ _ _ _ inductionHypothesis =>
      rw [inductionHypothesis, plug_cons, plug_cons, inorder_plug,
        inorder_plug]
      cases side <;> cases gside <;> simp [branch]
  | @outer side =>
      rw [inorder_paint, plug_cons, plug_cons, inorder_plug,
        inorder_plug]
      cases side <;> simp [branch]
  | @inner side =>
      rw [inorder_paint, plug_cons, plug_cons, inorder_plug,
        inorder_plug]
      cases side <;> simp [branch]

/-- The repair restores the red-black conditions. -/
theorem redBlack
    (fix : InsertFix context tree result)
    {height : Nat}
    (isRed : tree.isRed = true)
    (inside : tree.Colored height)
    (around : context.Colored height) :
    result.RedBlack := by
  induction fix generalizing height with
  | root =>
      exact redBlack_iff.mpr
        ⟨isRed_paint_black _, _, inside.paint_black isRed⟩
  | black =>
      exact (around.redBlack_plug inside (by simp)).paint_black
  | @recolor _ _ _ _ gtag _ _ _ _ _ uncleRed _ inductionHypothesis =>
      simp only [colored_cons, admitsRed_cons, forall_const,
        Color.weight_red, Nat.add_zero] at around
      obtain ⟨siblingColored, ⟨-, rfl⟩, uncleColored, -, restColored⟩ :=
        around
      refine inductionHypothesis (by simp) ?_ restColored
      simp [inside, siblingColored, uncleColored.paint_black uncleRed]
  | @outer _ _ _ gtag _ _ _ _ uncleBlack =>
      simp only [colored_cons, admitsRed_cons, forall_const,
        Color.weight_red, Nat.add_zero] at around
      obtain ⟨siblingColored, ⟨siblingBlack, rfl⟩, uncleColored, -,
        restColored⟩ := around
      refine (restColored.redBlack_plug ?_ (by simp)).paint_black
      simp [inside, siblingColored, uncleColored, siblingBlack,
        uncleBlack]
  | @inner _ _ _ _ tag gtag _ _ _ _ _ uncleBlack =>
      simp only [colored_cons, admitsRed_cons, forall_const,
        Color.weight_red, Nat.add_zero] at around
      obtain ⟨siblingColored, ⟨siblingBlack, rfl⟩, uncleColored, -,
        restColored⟩ := around
      cases tag with
      | black =>
          simp at isRed
      | red =>
          obtain ⟨⟨nearBlack, farBlack⟩, nearColored, farColored⟩ :=
            colored_branch_red.mp inside
          refine (restColored.redBlack_plug ?_ (by simp)).paint_black
          simp [nearColored, farColored, siblingColored, uncleColored,
            siblingBlack, uncleBlack, nearBlack, farBlack]

end InsertFix

/--
Repairing a subtree that misses one black node.  The first two arguments are
the surroundings of the subtree and the subtree, the last one is the repaired
tree.
-/
inductive EraseFix :
    Context α Color → Tree α Color → Tree α Color → Prop where
  | red
      {context : Context α Color}
      {tree : Tree α Color} :
      tree.isRed = true →
      EraseFix context tree (context.plug (tree.paint .black))
  | root {tree : Tree α Color} :
      tree.isRed = false →
      EraseFix [] tree tree
  | recolor
      {side : Side}
      {parent other : α}
      {tag : Color}
      {near far tree result : Tree α Color}
      {rest : Context α Color} :
      tree.isRed = false →
      near.isRed = false →
      far.isRed = false →
      EraseFix rest
        (branch side tree parent tag (branch side near other .red far))
        result →
      EraseFix
        (⟨side, parent, tag, branch side near other .black far⟩ :: rest)
        tree result
  | outer
      {side : Side}
      {parent other : α}
      {tag : Color}
      {near far tree : Tree α Color}
      {rest : Context α Color} :
      tree.isRed = false →
      far.isRed = true →
      EraseFix
        (⟨side, parent, tag, branch side near other .black far⟩ :: rest)
        tree
        ((plug rest
          (branch side (branch side tree parent .black near)
            other tag (far.paint .black))).paint .black)
  | inner
      {side : Side}
      {parent other middle : α}
      {tag : Color}
      {lower upper far tree : Tree α Color}
      {rest : Context α Color} :
      tree.isRed = false →
      far.isRed = false →
      EraseFix
        (⟨side, parent, tag,
          branch side (branch side lower middle .red upper)
            other .black far⟩ :: rest)
        tree
        ((plug rest
          (branch side (branch side tree parent .black lower)
            middle tag (branch side upper other .black far))).paint .black)
  | redSibling
      {side : Side}
      {parent other : α}
      {tag : Color}
      {near far tree result : Tree α Color}
      {rest : Context α Color} :
      tree.isRed = false →
      EraseFix
        (⟨side, parent, .red, near⟩ ::
          ⟨side, other, .black, far⟩ :: rest)
        tree result →
      EraseFix
        (⟨side, parent, tag, branch side near other .red far⟩ :: rest)
        tree result

/-- The subtree is one black node short of the given black height. -/
def Tree.Short (tree : Tree α Color) (height : Nat) : Prop :=
  if tree.isRed then (tree.paint .black).Colored (height + 1)
  else tree.Colored height

namespace EraseFix

variable {context : Context α Color} {tree result : Tree α Color}

/-- The repair keeps the nodes and their order. -/
theorem inorder
    (fix : EraseFix context tree result) :
    result.inorder = (context.plug tree).inorder := by
  induction fix with
  | red =>
      simp [inorder_plug]
  | root =>
      rfl
  | @recolor side _ _ _ _ _ _ _ _ _ _ _ _ inductionHypothesis =>
      rw [inductionHypothesis, plug_cons, inorder_plug, inorder_plug]
      cases side <;> simp [branch]
  | @outer side =>
      rw [inorder_paint, plug_cons, inorder_plug, inorder_plug]
      cases side <;> simp [branch]
  | @inner side =>
      rw [inorder_paint, plug_cons, inorder_plug, inorder_plug]
      cases side <;> simp [branch]
  | @redSibling side _ _ _ _ _ _ _ _ _ _ inductionHypothesis =>
      rw [inductionHypothesis, plug_cons, plug_cons, plug_cons,
        inorder_plug, inorder_plug]
      cases side <;> simp [branch]

/-- The repair restores the red-black conditions. -/
theorem redBlack
    (fix : EraseFix context tree result)
    {height : Nat}
    (inside : tree.Short height)
    (around : context.Colored (height + 1)) :
    result.RedBlack := by
  induction fix generalizing height with
  | red isRed =>
      rw [Short, if_pos isRed] at inside
      exact around.redBlack_plug inside (by simp)
  | root isBlack =>
      rw [Short, isBlack] at inside
      exact redBlack_iff.mpr ⟨isBlack, height, by simpa using inside⟩
  | @recolor _ _ _ tag _ _ _ _ _ isBlack nearBlack farBlack _
      inductionHypothesis =>
      simp only [Short, isBlack, Bool.false_eq_true, ↓reduceIte]
        at inside
      simp only [colored_cons, colored_branch_black, isRed_branch]
        at around
      obtain ⟨⟨below, sameHeight, nearColored, farColored⟩, -,
        restColored⟩ := around
      obtain rfl : height = below := by
        omega
      cases tag with
      | red =>
          refine inductionHypothesis ?_ restColored
          simp [Short, inside, nearColored, farColored, nearBlack,
            farBlack]
      | black =>
          refine inductionHypothesis ?_ restColored
          simp [Short, inside, nearColored, farColored, nearBlack,
            farBlack]
  | @outer _ _ _ tag _ _ _ _ isBlack farRed =>
      simp only [Short, isBlack, Bool.false_eq_true, ↓reduceIte]
        at inside
      simp only [colored_cons, colored_branch_black, isRed_branch]
        at around
      obtain ⟨⟨below, sameHeight, nearColored, farColored⟩, admits,
        restColored⟩ := around
      obtain rfl : height = below := by
        omega
      refine (restColored.redBlack_plug ?_ ?_).paint_black
      · simp [colored_branch, inside, nearColored,
          farColored.paint_black farRed]
      · intro isRed
        cases tag with
        | red =>
            exact (admits rfl).2
        | black =>
            simp at isRed
  | @inner _ _ _ _ tag _ _ _ _ _ isBlack farBlack =>
      simp only [Short, isBlack, Bool.false_eq_true, ↓reduceIte]
        at inside
      simp only [colored_cons, colored_branch_black, colored_branch_red,
        isRed_branch] at around
      obtain ⟨⟨below, sameHeight, ⟨-, lowerColored, upperColored⟩,
        farColored⟩, admits, restColored⟩ := around
      obtain rfl : height = below := by
        omega
      refine (restColored.redBlack_plug ?_ ?_).paint_black
      · simp [colored_branch, inside, lowerColored, upperColored,
          farColored]
      · intro isRed
        cases tag with
        | red =>
            exact (admits rfl).2
        | black =>
            simp at isRed
  | @redSibling _ _ _ tag _ _ _ _ _ isBlack _ inductionHypothesis =>
      simp only [colored_cons, colored_branch_red, isRed_branch,
        Color.isRed_red, Bool.true_eq_false, false_and] at around
      obtain ⟨⟨⟨nearBlack, -⟩, nearColored, farColored⟩, notRed,
        restColored⟩ := around
      obtain rfl : tag = .black := by
        cases tag with
        | red =>
            exact (notRed rfl).elim
        | black =>
            rfl
      refine inductionHypothesis inside ?_
      simp [nearColored, nearBlack, farColored]
      simpa using restColored

end EraseFix

/--
Taking a node out of the tree.  A node with at most one child gives way to that
child; otherwise the leftmost node of the right subtree gives way to its right
child and takes the place of the node.  The relation names the surroundings of
the vacated position, the subtree that moves there, and the colour that is
lost.
-/
inductive Unlink :
    Context α Color → Tree α Color →
      Context α Color → Tree α Color → Color → Prop where
  | single
      {context : Context α Color}
      {side : Side}
      {address : α}
      {tag : Color}
      {child : Tree α Color} :
      Unlink context (branch side .nil address tag child)
        context child tag
  | successor
      {context spine : Context α Color}
      {address next : α}
      {tag nextTag : Color}
      {left child : Tree α Color} :
      left ≠ .nil →
      (∀ frame ∈ spine, frame.side = .left) →
      Unlink context
        (.node left address tag
          (spine.plug (.node .nil next nextTag child)))
        (spine ++ ⟨.right, next, tag, left⟩ :: context) child nextTag

/-- The repair after a node of this colour was lost. -/
inductive EraseRepair
    (context : Context α Color)
    (tree : Tree α Color) :
    Color → Tree α Color → Prop where
  | red : EraseRepair context tree .red (context.plug tree)
  | black
      {result : Tree α Color} :
      EraseFix context tree result →
      EraseRepair context tree .black result

/-- Nothing lies to the left of a hole reached by left steps only. -/
theorem Context.before_eq_nil
    {spine : Context α Color}
    (leftward : ∀ frame ∈ spine, frame.side = .left) :
    spine.before = [] := by
  induction spine with
  | nil =>
      rfl
  | cons frame rest inductionHypothesis =>
      simp only [before, leftward frame (by simp)]
      exact inductionHypothesis fun later member =>
        leftward later (by simp [member])

/-- The colouring of a context does not depend on its addresses. -/
theorem Context.colored_readdress
    {inner outer : Context α Color}
    {side : Side}
    {address other : α}
    {tag : Color}
    {sibling : Tree α Color}
    {height : Nat} :
    Context.Colored
        (inner ++ ⟨side, address, tag, sibling⟩ :: outer) height ↔
      Context.Colored
        (inner ++ ⟨side, other, tag, sibling⟩ :: outer) height := by
  induction inner generalizing height with
  | nil =>
      simp
  | cons frame rest inductionHypothesis =>
      have admits :
          AdmitsRed (rest ++ ⟨side, address, tag, sibling⟩ :: outer) ↔
            AdmitsRed
              (rest ++ ⟨side, other, tag, sibling⟩ :: outer) := by
        cases rest <;> simp
      simp only [List.cons_append, colored_cons, admits,
        inductionHypothesis]

namespace Unlink

variable {context newContext : Context α Color}
variable {tree child : Tree α Color}
variable {lost : Color}

/-- The other nodes keep their order. -/
theorem inorder
    [Null α]
    (unlink : Unlink context tree newContext child lost) :
    ∃ before after,
      (context.plug tree).inorder = before ++ tree.root :: after ∧
        (newContext.plug child).inorder = before ++ after := by
  cases unlink with
  | @single side address =>
      rw [inorder_plug, inorder_plug, root_branch]
      cases side with
      | left =>
          exact ⟨context.before, child.inorder ++ context.after,
            by simp [branch], rfl⟩
      | right =>
          exact ⟨context.before ++ child.inorder, context.after,
            by simp [branch], by simp⟩
  | @successor spine address next tag _ left _ _ leftward =>
      refine ⟨context.before ++ left.inorder,
        next :: (child.inorder ++ (spine.after ++ context.after)),
        ?_, ?_⟩
      · rw [inorder_plug, inorder_node, inorder_plug,
          before_eq_nil leftward]
        simp
      · rw [plug_append, plug_cons, inorder_plug]
        simp [branch, inorder_plug, before_eq_nil leftward]

/-- The vacated position is short of exactly the lost node. -/
private theorem colored_single
    {side : Side}
    {address : α}
    {tag : Color}
    (redBlack :
      (context.plug (branch side .nil address tag child)).RedBlack) :
    ∃ height, child.Colored height ∧
      context.Colored (height + tag.weight) ∧
      (tag = .red → child.isRed = false) := by
  obtain ⟨-, height, inside, around⟩ := redBlack_plug.mp redBlack
  obtain ⟨separated, below, rfl, -, childColored⟩ :=
    colored_branch.mp inside
  exact ⟨below, childColored, around, fun isRed => (separated isRed).2⟩

theorem colored
    (unlink : Unlink context tree newContext child lost)
    (redBlack : (context.plug tree).RedBlack) :
    ∃ height, child.Colored height ∧
      newContext.Colored (height + lost.weight) ∧
      (lost = .red → child.isRed = false) := by
  cases unlink with
  | single =>
      exact colored_single redBlack
  | @successor spine address next tag _ left _ _ leftward =>
      have focused :
          (plug (spine ++ ⟨.right, address, tag, left⟩ :: context)
            (branch .left .nil next lost child)).RedBlack := by
        simpa [plug_append, plug_cons, branch] using redBlack
      obtain ⟨height, childColored, around, fits⟩ :=
        colored_single focused
      exact ⟨height, childColored, colored_readdress.mp around, fits⟩

/-- Unlinking and repairing keeps the tree red-black. -/
theorem redBlack
    {result : Tree α Color}
    (unlink : Unlink context tree newContext child lost)
    (repair : EraseRepair newContext child lost result)
    (before : (context.plug tree).RedBlack) :
    result.RedBlack := by
  obtain ⟨height, inside, around, fits⟩ := unlink.colored before
  cases repair with
  | red =>
      exact around.redBlack_plug inside (by simp [fits rfl])
  | black fix =>
      refine fix.redBlack ?_ around
      unfold Short
      split
      · exact inside.paint_black (by assumption)
      · exact inside

end Unlink

/-- The repair keeps the nodes and their order. -/
theorem EraseRepair.inorder
    {context : Context α Color}
    {tree result : Tree α Color}
    {lost : Color}
    (repair : EraseRepair context tree lost result) :
    result.inorder = (context.plug tree).inorder := by
  cases repair with
  | red =>
      rfl
  | black fix =>
      exact fix.inorder

/-- Unlinking and repairing removes exactly the root of the unlinked tree. -/
theorem Unlink.inorder_erase
    [Null α]
    [DecidableEq α]
    {context newContext : Context α Color}
    {tree child result : Tree α Color}
    {lost : Color}
    (unlink : Unlink context tree newContext child lost)
    (repair : EraseRepair newContext child lost result)
    (distinct : (context.plug tree).inorder.Nodup) :
    result.inorder = (context.plug tree).inorder.erase tree.root := by
  obtain ⟨before, later, order, newOrder⟩ := unlink.inorder
  rw [order, List.nodup_middle, List.nodup_cons, List.mem_append,
    not_or] at distinct
  rw [repair.inorder, newOrder, order,
    List.erase_append_right _ distinct.1.1, List.erase_cons_head]

end LibKern
