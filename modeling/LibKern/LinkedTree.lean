import LibKern.Memory
import Mathlib.Data.List.Nodup
import Mathlib.Tactic.Tauto

namespace LibKern

/-!
# Binary trees linked through parent and child pointers

Every node of the tree occupies one cell that names its parent and its two
children and carries a tag.  `Represents` relates a memory to the inductive
tree it holds; contexts describe a tree with one subtree taken out, which is
how an in-place algorithm looks at the tree from the node it is working on.
Left and right are treated uniformly through `Side`, so that a fact about an
algorithm and its mirror image is proved once: `Tree.along` lists a tree in the
direction of a walk, and `Context.ahead` is what lies ahead of a hole.
-/

/-- The two child positions of a node. -/
inductive Side where
  | left
  | right
  deriving Repr, DecidableEq

namespace Side

/-- The opposite child position. -/
def flip : Side → Side
  | .left => .right
  | .right => .left

@[simp] theorem flip_left : Side.left.flip = .right := rfl

@[simp] theorem flip_right : Side.right.flip = .left := rfl

@[simp] theorem flip_flip (side : Side) : side.flip.flip = side := by
  cases side <;> rfl

@[simp] theorem flip_ne (side : Side) : side.flip ≠ side := by
  cases side <;> decide

@[simp] theorem ne_flip (side : Side) : side ≠ side.flip := by
  cases side <;> decide

/-- Two different sides are opposite. -/
theorem eq_flip_of_ne
    {first second : Side}
    (different : first ≠ second) :
    first = second.flip := by
  cases first <;> cases second <;> simp_all

end Side

/-- One tree node in memory. -/
structure Cell (α β : Type) where
  parent : α
  left : α
  right : α
  tag : β
  deriving Repr, DecidableEq

namespace Cell

variable {α β : Type}

/-- The child pointer on one side. -/
def child (cell : Cell α β) : Side → α
  | .left => cell.left
  | .right => cell.right

/-- Replace the parent pointer. -/
def withParent (parent : α) (cell : Cell α β) : Cell α β :=
  { cell with parent := parent }

/-- Replace the child pointer on one side. -/
def withChild (side : Side) (child : α) (cell : Cell α β) : Cell α β :=
  match side with
  | .left => { cell with left := child }
  | .right => { cell with right := child }

/-- Replace the tag. -/
def withTag (tag : β) (cell : Cell α β) : Cell α β :=
  { cell with tag := tag }

/-- A cell given by the children on a side and on the opposite side. -/
def make
    (side : Side)
    (parent inner outer : α)
    (tag : β) : Cell α β :=
  match side with
  | .left => ⟨parent, inner, outer, tag⟩
  | .right => ⟨parent, outer, inner, tag⟩

section Make

variable (side : Side) (parent inner outer other : α) (tag newTag : β)

@[simp] theorem make_parent :
    (make side parent inner outer tag).parent = parent := by
  cases side <;> rfl

@[simp] theorem make_tag :
    (make side parent inner outer tag).tag = tag := by
  cases side <;> rfl

@[simp] theorem make_child :
    (make side parent inner outer tag).child side = inner := by
  cases side <;> rfl

@[simp] theorem make_child_flip :
    (make side parent inner outer tag).child side.flip = outer := by
  cases side <;> rfl

@[simp] theorem make_withParent :
    (make side parent inner outer tag).withParent other =
      make side other inner outer tag := by
  cases side <;> rfl

@[simp] theorem make_withChild :
    (make side parent inner outer tag).withChild side other =
      make side parent other outer tag := by
  cases side <;> rfl

@[simp] theorem make_withChild_flip :
    (make side parent inner outer tag).withChild side.flip other =
      make side parent inner other tag := by
  cases side <;> rfl

@[simp] theorem make_withTag :
    (make side parent inner outer tag).withTag newTag =
      make side parent inner outer newTag := by
  cases side <;> rfl

theorem make_flip :
    make side.flip parent inner outer tag =
      make side parent outer inner tag := by
  cases side <;> rfl

end Make

end Cell

/-- A binary tree whose nodes are identified by their addresses. -/
inductive Tree (α β : Type) where
  | nil
  | node
      (left : Tree α β)
      (address : α)
      (tag : β)
      (right : Tree α β)
  deriving Repr, DecidableEq

namespace Tree

variable {α β : Type}

/-- The node addresses from left to right. -/
def inorder : Tree α β → List α
  | .nil => []
  | .node left address _ right =>
      left.inorder ++ address :: right.inorder

/-- The number of nodes. -/
def size : Tree α β → Nat
  | .nil => 0
  | .node left _ _ right => left.size + right.size + 1

/-- The number of nodes on a longest path from the root. -/
def height : Tree α β → Nat
  | .nil => 0
  | .node left _ _ right => max left.height right.height + 1

/-- The address of the root node, null for the empty tree. -/
def root [Null α] : Tree α β → α
  | .nil => null
  | .node _ address _ _ => address

/-- Build a node from its child on a side and the child opposite to it. -/
def branch
    (side : Side)
    (inner : Tree α β)
    (address : α)
    (tag : β)
    (outer : Tree α β) : Tree α β :=
  match side with
  | .left => .node inner address tag outer
  | .right => .node outer address tag inner

@[simp] theorem inorder_nil : (nil : Tree α β).inorder = [] := rfl

@[simp] theorem inorder_node
    (left right : Tree α β)
    (address : α)
    (tag : β) :
    (node left address tag right).inorder =
      left.inorder ++ address :: right.inorder :=
  rfl

@[simp] theorem root_nil [Null α] : (nil : Tree α β).root = null := rfl

@[simp] theorem root_node
    [Null α]
    (left right : Tree α β)
    (address : α)
    (tag : β) :
    (node left address tag right).root = address :=
  rfl

@[simp] theorem root_branch
    [Null α]
    (side : Side)
    (inner outer : Tree α β)
    (address : α)
    (tag : β) :
    (branch side inner address tag outer).root = address := by
  cases side <;> rfl

theorem branch_flip
    (side : Side)
    (inner outer : Tree α β)
    (address : α)
    (tag : β) :
    branch side.flip inner address tag outer =
      branch side outer address tag inner := by
  cases side <;> rfl

theorem mem_inorder_branch
    {side : Side}
    {inner outer : Tree α β}
    {address target : α}
    {tag : β} :
    target ∈ (branch side inner address tag outer).inorder ↔
      target = address ∨ target ∈ inner.inorder ∨
        target ∈ outer.inorder := by
  cases side <;> simp [branch] <;> tauto

/-- The nodes of a branch are its address and those of its children. -/
theorem inorder_branch_perm
    (side : Side)
    (inner outer : Tree α β)
    (address : α)
    (tag : β) :
    (branch side inner address tag outer).inorder.Perm
      (address :: (inner.inorder ++ outer.inorder)) := by
  cases side with
  | left =>
      exact List.perm_middle
  | right =>
      exact List.perm_middle.trans (List.perm_append_comm.cons _)

@[simp] theorem nodup_branch
    {side : Side}
    {inner outer : Tree α β}
    {address : α}
    {tag : β} :
    (branch side inner address tag outer).inorder.Nodup ↔
      (address ∉ inner.inorder ∧ address ∉ outer.inorder) ∧
        inner.inorder.Nodup ∧ outer.inorder.Nodup ∧
        inner.inorder.Disjoint outer.inorder := by
  rw [(inorder_branch_perm side inner outer address tag).nodup_iff]
  simp [List.nodup_append']

@[simp] theorem disjoint_branch_left
    {side : Side}
    {inner outer : Tree α β}
    {address : α}
    {tag : β}
    {others : List α} :
    (branch side inner address tag outer).inorder.Disjoint others ↔
      address ∉ others ∧ inner.inorder.Disjoint others ∧
        outer.inorder.Disjoint others := by
  simp [List.Disjoint, mem_inorder_branch, or_imp, forall_and]

@[simp] theorem disjoint_branch_right
    {side : Side}
    {inner outer : Tree α β}
    {address : α}
    {tag : β}
    {others : List α} :
    others.Disjoint (branch side inner address tag outer).inorder ↔
      address ∉ others ∧ others.Disjoint inner.inorder ∧
        others.Disjoint outer.inorder := by
  rw [List.disjoint_comm, disjoint_branch_left]
  simp [List.disjoint_comm]

/-- The in-order listing has one entry per node. -/
@[simp] theorem length_inorder
    (tree : Tree α β) : tree.inorder.length = tree.size := by
  induction tree with
  | nil =>
      rfl
  | node left address tag right leftLength rightLength =>
      simp [size, leftLength, rightLength]
      omega

/-- Every non-empty tree splits along any side. -/
theorem exists_branch
    (side : Side)
    {tree : Tree α β}
    (nonempty : tree ≠ .nil) :
    ∃ inner address tag outer,
      tree = branch side inner address tag outer := by
  cases tree with
  | nil =>
      exact absurd rfl nonempty
  | node left address tag right =>
      cases side with
      | left =>
          exact ⟨left, address, tag, right, rfl⟩
      | right =>
          exact ⟨right, address, tag, left, rfl⟩

/-- Induction that follows the children on one side only. -/
theorem sideInduction
    {motive : Tree α β → Prop}
    (side : Side)
    (empty : motive .nil)
    (step :
      ∀ inner address tag outer,
        motive inner →
        motive (branch side inner address tag outer))
    (tree : Tree α β) : motive tree := by
  induction tree with
  | nil =>
      exact empty
  | node left address tag right leftHypothesis rightHypothesis =>
      cases side with
      | left =>
          exact step left address tag right leftHypothesis
      | right =>
          exact step right address tag left rightHypothesis

/-- The root of a non-empty tree is one of its nodes. -/
theorem root_mem
    [Null α]
    {tree : Tree α β}
    (nonempty : tree ≠ .nil) :
    tree.root ∈ tree.inorder := by
  cases tree with
  | nil =>
      exact absurd rfl nonempty
  | node left address tag right =>
      simp

end Tree

/-- One step of a path from a missing subtree up to the root. -/
structure Frame (α β : Type) where
  side : Side
  address : α
  tag : β
  sibling : Tree α β

/-- A tree with one subtree missing, listed from the hole up to the root. -/
abbrev Context (α β : Type) := List (Frame α β)

namespace Context

variable {α β : Type}

/-- Put a subtree back into the hole. -/
def plug : Context α β → Tree α β → Tree α β
  | [], tree => tree
  | frame :: rest, tree =>
      plug rest
        (.branch frame.side tree frame.address frame.tag frame.sibling)

/-- The address of the node above the hole, null at the root. -/
def parent [Null α] : Context α β → α
  | [] => null
  | frame :: _ => frame.address

/-- All node addresses outside the hole. -/
def addresses : Context α β → List α
  | [] => []
  | frame :: rest =>
      frame.address :: (frame.sibling.inorder ++ addresses rest)

/-- The node addresses to the left of the hole, in order. -/
def before : Context α β → List α
  | [] => []
  | frame :: rest =>
      match frame.side with
      | .left => before rest
      | .right =>
          before rest ++ (frame.sibling.inorder ++ [frame.address])

/-- The node addresses to the right of the hole, in order. -/
def after : Context α β → List α
  | [] => []
  | frame :: rest =>
      match frame.side with
      | .left => frame.address :: (frame.sibling.inorder ++ after rest)
      | .right => after rest

@[simp] theorem plug_nil (tree : Tree α β) : plug [] tree = tree := rfl

theorem plug_cons
    (frame : Frame α β)
    (rest : Context α β)
    (tree : Tree α β) :
    plug (frame :: rest) tree =
      plug rest
        (.branch frame.side tree frame.address frame.tag frame.sibling) :=
  rfl

theorem plug_append
    (inner outer : Context α β)
    (tree : Tree α β) :
    plug (inner ++ outer) tree = plug outer (plug inner tree) := by
  induction inner generalizing tree with
  | nil =>
      rfl
  | cons frame rest inductionHypothesis =>
      simp [plug_cons, inductionHypothesis]

@[simp] theorem parent_nil [Null α] :
    parent ([] : Context α β) = null := rfl

@[simp] theorem parent_cons
    [Null α]
    (frame : Frame α β)
    (rest : Context α β) :
    parent (frame :: rest) = frame.address :=
  rfl

/-- The in-order listing of a plugged context. -/
theorem inorder_plug
    (context : Context α β)
    (tree : Tree α β) :
    (context.plug tree).inorder =
      context.before ++ (tree.inorder ++ context.after) := by
  induction context generalizing tree with
  | nil =>
      simp [before, after]
  | cons frame rest inductionHypothesis =>
      rw [plug_cons, inductionHypothesis]
      cases side : frame.side <;>
        simp [Tree.branch, before, after, side]

/-- The nodes of a plugged context are those of the parts. -/
theorem inorder_plug_perm
    (context : Context α β)
    (tree : Tree α β) :
    (context.plug tree).inorder.Perm
      (tree.inorder ++ context.addresses) := by
  induction context generalizing tree with
  | nil =>
      simp [addresses]
  | cons frame rest inductionHypothesis =>
      refine (inductionHypothesis _).trans ?_
      have split :
          (Tree.branch frame.side tree frame.address frame.tag
            frame.sibling).inorder.Perm
            (tree.inorder ++
              frame.address :: frame.sibling.inorder) := by
        cases frame.side with
        | left =>
            exact .refl _
        | right =>
            exact List.perm_middle.trans
              ((List.perm_append_comm.cons _).trans
                List.perm_middle.symm)
      simpa [addresses] using split.append_right (addresses rest)

/-- Rearranging the nodes in the hole rearranges those of the whole tree. -/
theorem inorder_plug_perm_of_perm
    (context : Context α β)
    {first second : Tree α β}
    (same : first.inorder.Perm second.inorder) :
    (context.plug first).inorder.Perm (context.plug second).inorder :=
  (inorder_plug_perm context first).trans
    ((same.append_right _).trans (inorder_plug_perm context second).symm)

/-- Exchanging the tree in the hole with a tree outside keeps the nodes. -/
theorem inorder_plug_append_comm
    (context : Context α β)
    (inside outside : Tree α β) :
    ((context.plug inside).inorder ++ outside.inorder).Perm
      ((context.plug outside).inorder ++ inside.inorder) := by
  have fromInside := inorder_plug_perm context inside
  have fromOutside := inorder_plug_perm context outside
  refine (fromInside.append_right _).trans
    (List.Perm.trans ?_ (fromOutside.append_right _).symm)
  rw [List.append_assoc outside.inorder]
  exact List.perm_append_comm.trans (List.perm_append_comm.append_left _)

/-- A context has duplicate-free nodes exactly when its parts are disjoint. -/
theorem nodup_inorder_plug
    {context : Context α β}
    {tree : Tree α β} :
    (context.plug tree).inorder.Nodup ↔
      tree.inorder.Nodup ∧ context.addresses.Nodup ∧
        tree.inorder.Disjoint context.addresses := by
  rw [(inorder_plug_perm context tree).nodup_iff, List.nodup_append']

@[simp] theorem addresses_cons
    (frame : Frame α β)
    (rest : Context α β) :
    addresses (frame :: rest) =
      frame.address :: (frame.sibling.inorder ++ addresses rest) :=
  rfl

@[simp] theorem addresses_append
    (inner outer : Context α β) :
    addresses (inner ++ outer) = addresses inner ++ addresses outer := by
  induction inner with
  | nil =>
      rfl
  | cons frame rest inductionHypothesis =>
      simp [inductionHypothesis]

theorem mem_inorder_plug
    {context : Context α β}
    {tree : Tree α β}
    {address : α} :
    address ∈ (context.plug tree).inorder ↔
      address ∈ tree.inorder ∨ address ∈ context.addresses := by
  rw [(inorder_plug_perm context tree).mem_iff, List.mem_append]

theorem sibling_mem_addresses
    {context : Context α β}
    {frame : Frame α β}
    {address : α}
    (member : frame ∈ context)
    (inSibling : address ∈ frame.sibling.inorder) :
    address ∈ context.addresses := by
  induction context with
  | nil =>
      simp at member
  | cons first rest inductionHypothesis =>
      rcases List.mem_cons.mp member with rfl | inRest
      · simp [inSibling]
      · simp [inductionHypothesis inRest]

/-- The parts of a tree around one of its nodes do not overlap. -/
structure Apart
    (context : Context α β)
    (left : Tree α β)
    (address : α)
    (right : Tree α β) : Prop where
  addressLeft : address ∉ left.inorder
  addressRight : address ∉ right.inorder
  addressContext : address ∉ context.addresses
  leftNodup : left.inorder.Nodup
  rightNodup : right.inorder.Nodup
  contextNodup : context.addresses.Nodup
  leftRight : left.inorder.Disjoint right.inorder
  leftContext : left.inorder.Disjoint context.addresses
  rightContext : right.inorder.Disjoint context.addresses

theorem Apart.swap
    {context : Context α β}
    {left right : Tree α β}
    {address : α}
    (apart : context.Apart left address right) :
    context.Apart right address left where
  addressLeft := apart.addressRight
  addressRight := apart.addressLeft
  addressContext := apart.addressContext
  leftNodup := apart.rightNodup
  rightNodup := apart.leftNodup
  contextNodup := apart.contextNodup
  leftRight := List.disjoint_comm.mp apart.leftRight
  leftContext := apart.rightContext
  rightContext := apart.leftContext

theorem nodup_plug_node
    {context : Context α β}
    {left right : Tree α β}
    {address : α}
    {tag : β} :
    (context.plug (.node left address tag right)).inorder.Nodup ↔
      context.Apart left address right := by
  have branched :
      Tree.node left address tag right =
        .branch .left left address tag right :=
    rfl
  rw [branched, nodup_inorder_plug, Tree.nodup_branch,
    Tree.disjoint_branch_left]
  constructor
  · rintro ⟨⟨⟨addressLeft, addressRight⟩, leftNodup, rightNodup,
      leftRight⟩, contextNodup, addressContext, leftContext,
      rightContext⟩
    exact ⟨addressLeft, addressRight, addressContext, leftNodup,
      rightNodup, contextNodup, leftRight, leftContext, rightContext⟩
  · intro apart
    exact ⟨⟨⟨apart.addressLeft, apart.addressRight⟩, apart.leftNodup,
      apart.rightNodup, apart.leftRight⟩, apart.contextNodup,
      apart.addressContext, apart.leftContext, apart.rightContext⟩

theorem notMem_plug_node
    {context : Context α β}
    {left right : Tree α β}
    {address other : α}
    {tag : β} :
    other ∉ (context.plug (.node left address tag right)).inorder ↔
      other ≠ address ∧ other ∉ left.inorder ∧
        other ∉ right.inorder ∧ other ∉ context.addresses := by
  rw [mem_inorder_plug]
  simp only [Tree.inorder_node, List.mem_append, List.mem_cons, not_or]
  tauto

/-- The parent of the hole is a node of the context unless it is null. -/
theorem parent_mem
    [Null α]
    {context : Context α β}
    (nonempty : context ≠ []) :
    context.parent ∈ context.addresses := by
  cases context with
  | nil =>
      exact absurd rfl nonempty
  | cons frame rest =>
      simp [addresses]

/-- The root of a plugged context is a node of the context. -/
theorem root_plug_mem
    [Null α]
    {context : Context α β}
    (nonempty : context ≠ [])
    (tree : Tree α β) :
    (context.plug tree).root ∈ context.addresses := by
  induction context generalizing tree with
  | nil =>
      exact absurd rfl nonempty
  | cons frame rest inductionHypothesis =>
      rw [plug_cons]
      by_cases last : rest = []
      · subst last
        simp
      · simp [inductionHypothesis last]

/-- The root pointer after hanging a node with this address in the hole. -/
def rootAfter (context : Context α β) (root hole : α) : α :=
  match context with
  | [] => hole
  | _ :: _ => root

/-- The root of a plugged context depends on the hole only at the top. -/
theorem root_plug
    [Null α]
    (context : Context α β)
    (first second : Tree α β) :
    (context.plug second).root =
      context.rootAfter (context.plug first).root second.root := by
  induction context generalizing first second with
  | nil =>
      rfl
  | cons frame rest inductionHypothesis =>
      rw [plug_cons, plug_cons, inductionHypothesis]
      cases rest with
      | nil =>
          simp [rootAfter]
      | cons frame' rest' =>
          rfl

end Context

/-- Every node of a tree is the root of a subtree in some context. -/
theorem Tree.exists_plug_of_mem
    {α β : Type}
    {tree : Tree α β}
    {address : α}
    (member : address ∈ tree.inorder) :
    ∃ (context : Context α β) (left : Tree α β) (tag : β)
      (right : Tree α β),
      tree = context.plug (.node left address tag right) := by
  induction tree with
  | nil =>
      simp at member
  | node left here tag right leftHypothesis rightHypothesis =>
      rcases List.mem_append.mp member with inLeft | atOrRight
      · obtain ⟨context, innerLeft, innerTag, innerRight, shape⟩ :=
          leftHypothesis inLeft
        exact ⟨context ++ [⟨.left, here, tag, right⟩],
          innerLeft, innerTag, innerRight, by
            rw [Context.plug_append, ← shape]
            rfl⟩
      · rcases List.mem_cons.mp atOrRight with isHere | inRight
        · subst isHere
          exact ⟨[], left, tag, right, rfl⟩
        · obtain ⟨context, innerLeft, innerTag, innerRight, shape⟩ :=
            rightHypothesis inRight
          exact ⟨context ++ [⟨.right, here, tag, left⟩],
            innerLeft, innerTag, innerRight, by
              rw [Context.plug_append, ← shape]
              rfl⟩

section Readdress

variable {α β : Type}

/-- Give every node a new address. -/
def Tree.readdress (rename : α → α) : Tree α β → Tree α β
  | .nil => .nil
  | .node left address tag right =>
      .node (left.readdress rename) (rename address) tag
        (right.readdress rename)

@[simp] theorem Tree.inorder_readdress
    (rename : α → α)
    (tree : Tree α β) :
    (tree.readdress rename).inorder = tree.inorder.map rename := by
  induction tree with
  | nil =>
      rfl
  | node left address tag right leftHypothesis rightHypothesis =>
      simp [readdress, leftHypothesis, rightHypothesis]

/-- Renaming only other nodes changes nothing. -/
theorem Tree.readdress_eq_self
    {rename : α → α}
    {tree : Tree α β}
    (fixed : ∀ address ∈ tree.inorder, rename address = address) :
    tree.readdress rename = tree := by
  induction tree with
  | nil =>
      rfl
  | node left address tag right leftHypothesis rightHypothesis =>
      simp only [inorder_node, List.mem_append, List.mem_cons] at fixed
      rw [readdress, fixed address (.inr (.inl rfl)),
        leftHypothesis fun other member => fixed other (.inl member),
        rightHypothesis fun other member =>
          fixed other (.inr (.inr member))]

/-- Renaming nodes of the subtree in focus only. -/
theorem Context.readdress_plug
    {rename : α → α}
    {context : Context α β}
    (fixed : ∀ address ∈ context.addresses, rename address = address)
    (tree : Tree α β) :
    (context.plug tree).readdress rename =
      context.plug (tree.readdress rename) := by
  induction context generalizing tree with
  | nil =>
      rfl
  | cons frame rest inductionHypothesis =>
      simp only [addresses_cons, List.mem_cons, List.mem_append] at fixed
      have siblingFixed :
          frame.sibling.readdress rename = frame.sibling :=
        Tree.readdress_eq_self fun address member =>
          fixed address (.inr (.inl member))
      rw [plug_cons, plug_cons, inductionHypothesis fun address member =>
        fixed address (.inr (.inr member))]
      cases side : frame.side <;>
        simp [Tree.branch, Tree.readdress, siblingFixed,
          fixed frame.address (.inl rfl)]

end Readdress

/-- The same, with the children named after a side. -/
theorem Tree.exists_plug_branch_of_mem
    {α β : Type}
    (side : Side)
    {tree : Tree α β}
    {address : α}
    (member : address ∈ tree.inorder) :
    ∃ (context : Context α β) (inner : Tree α β) (tag : β)
      (outer : Tree α β),
      tree = context.plug (.branch side inner address tag outer) := by
  obtain ⟨context, left, tag, right, shape⟩ :=
    Tree.exists_plug_of_mem member
  cases side with
  | left =>
      exact ⟨context, left, tag, right, shape⟩
  | right =>
      exact ⟨context, right, tag, left, shape⟩

section Listing

variable {α β : Type}

/-- The nodes in the order in which a walk towards a side meets them. -/
def Tree.along (side : Side) (tree : Tree α β) : List α :=
  match side with
  | .left => tree.inorder.reverse
  | .right => tree.inorder

/-- The nodes that a walk towards a side meets beyond the hole. -/
def Context.ahead (side : Side) (context : Context α β) : List α :=
  match side with
  | .left => context.before.reverse
  | .right => context.after

@[simp] theorem Tree.along_nil (side : Side) :
    (Tree.nil : Tree α β).along side = [] := by
  cases side <;> rfl

theorem Tree.along_branch
    (side : Side)
    (inner outer : Tree α β)
    (address : α)
    (tag : β) :
    (Tree.branch side inner address tag outer).along side =
      outer.along side ++ address :: inner.along side := by
  cases side <;> simp [Tree.along, Tree.branch]

@[simp] theorem Tree.mem_along
    {side : Side}
    {tree : Tree α β}
    {address : α} :
    address ∈ tree.along side ↔ address ∈ tree.inorder := by
  cases side <;> simp [Tree.along]

@[simp] theorem Tree.nodup_along
    {side : Side}
    {tree : Tree α β} :
    (tree.along side).Nodup ↔ tree.inorder.Nodup := by
  cases side <;> simp [Tree.along]

/-- What a walk meets in a plugged context. -/
theorem Context.along_plug
    (side : Side)
    (context : Context α β)
    (tree : Tree α β) :
    (context.plug tree).along side =
      (context.ahead side.flip).reverse ++
        (tree.along side ++ context.ahead side) := by
  cases side <;> simp [Tree.along, ahead, inorder_plug]

@[simp] theorem Context.ahead_nil (side : Side) :
    ahead side ([] : Context α β) = [] := by
  cases side <;> rfl

@[simp] theorem Context.ahead_cons_same
    (side : Side)
    (address : α)
    (tag : β)
    (sibling : Tree α β)
    (rest : Context α β) :
    ahead side (⟨side, address, tag, sibling⟩ :: rest) =
      ahead side rest := by
  cases side <;> rfl

@[simp] theorem Context.ahead_cons_flip
    (side : Side)
    (address : α)
    (tag : β)
    (sibling : Tree α β)
    (rest : Context α β) :
    ahead side (⟨side.flip, address, tag, sibling⟩ :: rest) =
      address :: (sibling.along side ++ ahead side rest) := by
  cases side <;> simp [ahead, before, after, Tree.along]

/-- Nothing lies ahead of a hole reached by steps to one side only. -/
theorem Context.ahead_eq_nil
    {side : Side}
    {spine : Context α β}
    (onward : ∀ frame ∈ spine, frame.side = side) :
    ahead side spine = [] := by
  induction spine with
  | nil =>
      simp
  | cons frame rest inductionHypothesis =>
      obtain ⟨frameSide, address, tag, sibling⟩ := frame
      obtain rfl : frameSide = side := onward _ List.mem_cons_self
      rw [ahead_cons_same]
      exact inductionHypothesis fun later member =>
        onward later (List.mem_cons_of_mem _ member)

end Listing

section Representation

variable {α β : Type} [Null α]

/-- The memory holds this tree below the given parent. -/
def Represents
    (memory : Memory α (Cell α β)) :
    α → Tree α β → Prop
  | _, .nil => True
  | parent, .node left address tag right =>
      memory.cell address =
          some ⟨parent, left.root, right.root, tag⟩ ∧
        Represents memory address left ∧
        Represents memory address right

/-- The memory holds this context around the given hole pointer. -/
def RepresentsContext
    (memory : Memory α (Cell α β)) :
    Context α β → α → Prop
  | [], _ => True
  | frame :: rest, hole =>
      memory.cell frame.address =
          some (.make frame.side (Context.parent rest) hole
            frame.sibling.root frame.tag) ∧
        Represents memory frame.address frame.sibling ∧
        RepresentsContext memory rest frame.address

@[simp] theorem represents_nil
    (memory : Memory α (Cell α β))
    (parent : α) :
    Represents memory parent .nil :=
  trivial

@[simp] theorem represents_node
    {memory : Memory α (Cell α β)}
    {parent address : α}
    {left right : Tree α β}
    {tag : β} :
    Represents memory parent (.node left address tag right) ↔
      memory.cell address =
          some ⟨parent, left.root, right.root, tag⟩ ∧
        Represents memory address left ∧
        Represents memory address right :=
  Iff.rfl

@[simp] theorem represents_branch
    {memory : Memory α (Cell α β)}
    {parent address : α}
    {side : Side}
    {inner outer : Tree α β}
    {tag : β} :
    Represents memory parent (.branch side inner address tag outer) ↔
      memory.cell address =
          some (.make side parent inner.root outer.root tag) ∧
        Represents memory address inner ∧
        Represents memory address outer := by
  cases side with
  | left =>
      rfl
  | right =>
      simp only [Tree.branch, Cell.make, represents_node]
      tauto

@[simp] theorem representsContext_nil
    (memory : Memory α (Cell α β))
    (hole : α) :
    RepresentsContext memory [] hole :=
  trivial

@[simp] theorem representsContext_cons
    {memory : Memory α (Cell α β)}
    {frame : Frame α β}
    {rest : Context α β}
    {hole : α} :
    RepresentsContext memory (frame :: rest) hole ↔
      memory.cell frame.address =
          some (.make frame.side (Context.parent rest) hole
            frame.sibling.root frame.tag) ∧
        Represents memory frame.address frame.sibling ∧
        RepresentsContext memory rest frame.address :=
  Iff.rfl

/-- A plugged context is represented exactly when its two parts are. -/
theorem represents_plug
    {memory : Memory α (Cell α β)}
    {context : Context α β}
    {tree : Tree α β} :
    Represents memory null (context.plug tree) ↔
      RepresentsContext memory context tree.root ∧
        Represents memory context.parent tree := by
  induction context generalizing tree with
  | nil =>
      simp
  | cons frame rest inductionHypothesis =>
      rw [Context.plug_cons, inductionHypothesis]
      simp
      tauto

/-- Redirect the child pointer above the hole of a context. -/
def Memory.hang
    [DecidableEq α]
    (memory : Memory α (Cell α β))
    (context : Context α β)
    (hole : α) : Memory α (Cell α β) :=
  match context with
  | [] => memory
  | frame :: _ =>
      memory.modify frame.address (Cell.withChild frame.side hole)

/-- Hanging a node leaves the cells outside the context alone. -/
theorem Memory.hang_cell
    [DecidableEq α]
    {memory : Memory α (Cell α β)}
    {context : Context α β}
    {hole address : α}
    (outside : address ∉ context.addresses) :
    (memory.hang context hole).cell address =
      memory.cell address := by
  cases context with
  | nil =>
      rfl
  | cons frame rest =>
      have different : address ≠ frame.address := by
        rintro rfl
        simp at outside
      simp [Memory.hang, different]

/-- Hanging a node commutes with rewrites outside the context. -/
theorem Memory.hang_modify
    [DecidableEq α]
    (memory : Memory α (Cell α β))
    {context : Context α β}
    {target : α}
    (outside : target ∉ context.addresses)
    (hole : α)
    (change : Cell α β → Cell α β) :
    (memory.hang context hole).modify target change =
      (memory.modify target change).hang context hole := by
  cases context with
  | nil =>
      rfl
  | cons frame rest =>
      refine modify_comm memory ?_ _ _
      rintro rfl
      simp at outside

namespace Represents

variable {memory other : Memory α (Cell α β)}
variable {parent : α} {tree : Tree α β}

/-- Represented nodes are mapped. -/
theorem mapped
    (represented : Represents memory parent tree)
    {address : α}
    (member : address ∈ tree.inorder) :
    ∃ content, memory.cell address = some content := by
  induction tree generalizing parent with
  | nil =>
      simp at member
  | node left here tag right leftHypothesis rightHypothesis =>
      obtain ⟨atHere, leftRepresented, rightRepresented⟩ := represented
      rcases List.mem_append.mp member with inLeft | atOrRight
      · exact leftHypothesis leftRepresented inLeft
      · rcases List.mem_cons.mp atOrRight with isHere | inRight
        · exact ⟨_, isHere ▸ atHere⟩
        · exact rightHypothesis rightRepresented inRight

/-- Null is not a node of a represented tree. -/
theorem null_notMem
    (represented : Represents memory parent tree) :
    (null : α) ∉ tree.inorder := by
  intro member
  obtain ⟨content, mapped⟩ := represented.mapped member
  exact memory.ne_null mapped rfl

/-- The root of a disjoint tree, present or null, is not in this tree. -/
theorem root_notMem
    (represented : Represents memory parent tree)
    {second : Tree α β}
    (disjoint : second.inorder.Disjoint tree.inorder) :
    second.root ∉ tree.inorder := by
  by_cases empty : second = .nil
  · subst empty
    exact represented.null_notMem
  · exact disjoint (Tree.root_mem empty)

/-- A represented tree has a null root only when it is empty. -/
theorem root_eq_null_iff
    (represented : Represents memory parent tree) :
    tree.root = null ↔ tree = .nil := by
  constructor
  · intro isNull
    by_contra nonempty
    exact represented.null_notMem
      (isNull ▸ Tree.root_mem nonempty)
  · rintro rfl
    rfl

/-- The root of a non-empty tree is not the root of a disjoint tree. -/
theorem root_ne
    (represented : Represents memory parent tree)
    (nonempty : tree ≠ .nil)
    {second : Tree α β}
    (disjoint : tree.inorder.Disjoint second.inorder) :
    tree.root ≠ second.root := by
  intro same
  cases second with
  | nil =>
      exact nonempty (represented.root_eq_null_iff.mp same)
  | node left here tag right =>
      exact disjoint (Tree.root_mem nonempty) (by simp [same])

/-- A representation only depends on the cells of its own nodes. -/
theorem congr
    (represented : Represents memory parent tree)
    (agree :
      ∀ address ∈ tree.inorder,
        other.cell address = memory.cell address) :
    Represents other parent tree := by
  induction tree generalizing parent with
  | nil =>
      trivial
  | node left here tag right leftHypothesis rightHypothesis =>
      obtain ⟨atHere, leftRepresented, rightRepresented⟩ := represented
      refine ⟨(agree here (by simp)).trans atHere,
        leftHypothesis leftRepresented ?_,
        rightHypothesis rightRepresented ?_⟩
      · intro address member
        exact agree address (by simp [member])
      · intro address member
        exact agree address (by simp [member])

/-- The tree at a pointer is determined by the memory. -/
theorem unique
    {second : Tree α β}
    (represented : Represents memory parent tree)
    (alsoRepresented : Represents memory parent second)
    (sameRoot : tree.root = second.root) :
    tree = second := by
  induction tree generalizing parent second with
  | nil =>
      exact (alsoRepresented.root_eq_null_iff.mp sameRoot.symm).symm
  | node left here tag right leftHypothesis rightHypothesis =>
      cases second with
      | nil =>
          exact absurd sameRoot (memory.ne_null represented.1)
      | node left' here' tag' right' =>
          obtain rfl : here = here' := sameRoot
          obtain ⟨atHere, leftRepresented, rightRepresented⟩ :=
            represented
          obtain ⟨atHere', leftRepresented', rightRepresented'⟩ :=
            alsoRepresented
          have sameCell := atHere.symm.trans atHere'
          simp only [Option.some.injEq, Cell.mk.injEq, true_and]
            at sameCell
          obtain ⟨sameLeft, sameRight, rfl⟩ := sameCell
          rw [leftHypothesis leftRepresented leftRepresented' sameLeft,
            rightHypothesis rightRepresented rightRepresented' sameRight]

variable [DecidableEq α]

/-- Rewriting a cell outside the tree preserves the representation. -/
theorem modify_outside
    (represented : Represents memory parent tree)
    {target : α}
    (outside : target ∉ tree.inorder)
    (change : Cell α β → Cell α β) :
    Represents (memory.modify target change) parent tree :=
  represented.congr fun _ member =>
    Memory.modify_cell_of_ne memory change
      (ne_of_mem_of_not_mem member outside)

/-- Hanging a node elsewhere preserves the representation. -/
theorem hang_outside
    (represented : Represents memory parent tree)
    {context : Context α β}
    (disjoint : tree.inorder.Disjoint context.addresses)
    (hole : α) :
    Represents (memory.hang context hole) parent tree :=
  represented.congr fun _ member =>
    Memory.hang_cell (disjoint member)

/-- Redirecting the parent pointer of the root moves the whole tree. -/
theorem reparent
    (represented : Represents memory parent tree)
    (distinct : tree.inorder.Nodup)
    (newParent : α) :
    Represents
      (memory.modify tree.root (Cell.withParent newParent))
      newParent tree := by
  cases tree with
  | nil =>
      trivial
  | node left here tag right =>
      obtain ⟨atHere, leftRepresented, rightRepresented⟩ := represented
      simp only [Tree.inorder_node, List.nodup_append, List.nodup_cons,
        List.mem_cons] at distinct
      refine ⟨by simp [atHere, Cell.withParent],
        leftRepresented.modify_outside ?_ _,
        rightRepresented.modify_outside distinct.2.1.1 _⟩
      intro member
      exact distinct.2.2 here member here (Or.inl rfl) rfl

end Represents

namespace RepresentsContext

variable {memory other : Memory α (Cell α β)}
variable {context : Context α β} {hole : α}

/-- Represented context nodes are mapped. -/
theorem mapped
    (represented : RepresentsContext memory context hole)
    {address : α}
    (member : address ∈ context.addresses) :
    ∃ content, memory.cell address = some content := by
  induction context generalizing hole with
  | nil =>
      simp [Context.addresses] at member
  | cons frame rest inductionHypothesis =>
      obtain ⟨atFrame, siblingRepresented, restRepresented⟩ :=
        represented
      simp only [Context.addresses, List.mem_cons, List.mem_append]
        at member
      rcases member with isFrame | inSibling | inRest
      · exact ⟨_, isFrame ▸ atFrame⟩
      · exact siblingRepresented.mapped inSibling
      · exact inductionHypothesis restRepresented inRest

/-- Null is not a node of a represented context. -/
theorem null_notMem
    (represented : RepresentsContext memory context hole) :
    (null : α) ∉ context.addresses := by
  intro member
  obtain ⟨content, mapped⟩ := represented.mapped member
  exact memory.ne_null mapped rfl

/-- The root of a disjoint tree, present or null, is not in the context. -/
theorem root_notMem
    (represented : RepresentsContext memory context hole)
    {tree : Tree α β}
    (disjoint : tree.inorder.Disjoint context.addresses) :
    tree.root ∉ context.addresses := by
  by_cases empty : tree = .nil
  · subst empty
    exact represented.null_notMem
  · exact disjoint (Tree.root_mem empty)

/-- The parent above the hole is null only at the root. -/
theorem parent_eq_null_iff
    (represented : RepresentsContext memory context hole) :
    context.parent = null ↔ context = [] := by
  constructor
  · intro isNull
    by_contra nonempty
    exact represented.null_notMem
      (isNull ▸ Context.parent_mem nonempty)
  · rintro rfl
    rfl

/-- A context representation only depends on the cells of its own nodes. -/
theorem congr
    (represented : RepresentsContext memory context hole)
    (agree :
      ∀ address ∈ context.addresses,
        other.cell address = memory.cell address) :
    RepresentsContext other context hole := by
  induction context generalizing hole with
  | nil =>
      trivial
  | cons frame rest inductionHypothesis =>
      obtain ⟨atFrame, siblingRepresented, restRepresented⟩ :=
        represented
      refine
        ⟨(agree _ (by simp [Context.addresses])).trans atFrame,
          siblingRepresented.congr ?_,
          inductionHypothesis restRepresented ?_⟩
      · intro address member
        exact agree address (by simp [Context.addresses, member])
      · intro address member
        exact agree address (by simp [Context.addresses, member])

variable [DecidableEq α]

/-- Rewriting a cell outside the context preserves its representation. -/
theorem modify_outside
    (represented : RepresentsContext memory context hole)
    {target : α}
    (outside : target ∉ context.addresses)
    (change : Cell α β → Cell α β) :
    RepresentsContext (memory.modify target change) context hole :=
  represented.congr fun _ member =>
    Memory.modify_cell_of_ne memory change
      (ne_of_mem_of_not_mem member outside)

/-- Redirecting the child pointer above the hole changes only the hole. -/
theorem hang
    (represented : RepresentsContext memory context hole)
    (distinct : context.addresses.Nodup)
    (newHole : α) :
    RepresentsContext (memory.hang context newHole)
      context newHole := by
  cases context with
  | nil =>
      trivial
  | cons frame rest =>
      obtain ⟨atFrame, siblingRepresented, restRepresented⟩ :=
        represented
      simp only [Context.addresses, List.nodup_cons, List.mem_append,
        not_or] at distinct
      exact ⟨by simp [Memory.hang, atFrame],
        siblingRepresented.modify_outside distinct.1.1 _,
        restRepresented.modify_outside distinct.1.2 _⟩

end RepresentsContext

/-- A root pointer leads to a duplicate-free tree with a null root parent. -/
structure Linked
    (memory : Memory α (Cell α β))
    (root : α)
    (tree : Tree α β) : Prop where
  represents : Represents memory null tree
  rooted : root = tree.root
  distinct : tree.inorder.Nodup

namespace Linked

variable {memory : Memory α (Cell α β)} {root : α}

/-- A root pointer leads to at most one tree. -/
theorem unique
    {first second : Tree α β}
    (one : Linked memory root first)
    (other : Linked memory root second) :
    first = second :=
  one.represents.unique other.represents
    (one.rooted.symm.trans other.rooted)

end Linked

end Representation

end LibKern
