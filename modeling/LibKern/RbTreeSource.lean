import LibKern.RbTreeMemory

namespace LibKern.RbTree

/-!
# The red-black tree functions

This module transcribes `lib/rbtree.c` and the function-like macros of
`include/rbtree.h`.  Code that the source writes twice, once for each child
position, is written once with the child position as a parameter; the two
instances keep the names of the source.
-/

open Program

/-- `!node || rb_is_black(node)`. -/
def isNullOrBlack (node : Word) : Program RbState Bool :=
  if node = null then pure true else rbIsBlack node

/-- `node && rb_is_red(node)`. -/
def isPresentRed (node : Word) : Program RbState Bool :=
  if node = null then pure false else rbIsRed node

/--
Make the pointer that leads to `node`, in its parent or in the root, lead to
another node.  The child position `side` of the parent is compared first.
-/
def replaceChild
    (side : Side)
    (parent node replacement : Word) :
    Program RbState Unit :=
  if parent ≠ null then do
    let child ← getChild parent side
    if node = child then
      setChild parent side replacement
    else
      setChild parent side.flip replacement
  else
    setRoot replacement

/-- Rotate towards `side` at `node`. -/
def rbRotate (side : Side) (node : Word) : Program RbState Unit := do
  let right ← getChild node side.flip
  let parent ← rbParent node
  let inner ← getChild right side
  setChild node side.flip inner
  onlyIf (inner ≠ null) (do
    let moved ← getChild right side
    rbSetParent moved node)
  setChild right side node
  rbSetParent right parent
  replaceChild side parent node right
  rbSetParent node right

/-- `__rb_rotate_left`. -/
def rbRotateLeft : Word → Program RbState Unit :=
  rbRotate .left

/-- `__rb_rotate_right`. -/
def rbRotateRight : Word → Program RbState Unit :=
  rbRotate .right

/-- The colour flip of `rb_insert_color` below a red uncle. -/
def rbInsertFlip (uncle parent gparent : Word) : Program RbState Unit := do
  rbSetBlack uncle
  rbSetBlack parent
  rbSetRed gparent

/-- The last statements of one half of the loop body of `rb_insert_color`. -/
def rbInsertTurn
    (side : Side)
    (parent gparent : Word) :
    Program RbState Unit := do
  rbSetBlack parent
  rbSetRed gparent
  rbRotate side.flip gparent

/--
One half of the loop body of `rb_insert_color`: `parent` is the `side` child
of `gparent`.
-/
def rbInsertColorBranch
    (side : Side)
    (node parent gparent : Word) :
    Program RbState (Flow Word Unit) := do
  let uncle ← getChild gparent side.flip
  let uncleRed ← isPresentRed uncle
  if uncleRed then do
    rbInsertFlip uncle parent gparent
    pure (.next gparent)
  else do
    let inner ← getChild parent side.flip
    if inner = node then do
      rbRotate side parent
      rbInsertTurn side node gparent
      pure (.next parent)
    else do
      rbInsertTurn side parent gparent
      pure (.next node)

/-- The loop of `rb_insert_color`. -/
def rbInsertColorStep (node : Word) : Program RbState (Flow Word Unit) := do
  let parent ← rbParent node
  let parentRed ← isPresentRed parent
  if parentRed then do
    let gparent ← rbParent parent
    let left ← getChild gparent .left
    if parent = left then
      rbInsertColorBranch .left node parent gparent
    else
      rbInsertColorBranch .right node parent gparent
  else
    pure (.done ())

/-- `rb_insert_color`. -/
def rbInsertColor (node : Word) : Program RbState Unit := do
  loop rbInsertColorStep node
  let root ← getRoot
  rbSetBlack root

/-- `__rb_erase_color` below a red sibling; returns the new sibling. -/
def rbEraseSibling
    (side : Side)
    (parent sibling : Word) :
    Program RbState Word := do
  rbSetBlack sibling
  rbSetRed parent
  rbRotate side parent
  getChild parent side.flip

/-- `__rb_erase_color` for a red inner nephew; returns the new sibling. -/
def rbEraseInner
    (side : Side)
    (parent other : Word) :
    Program RbState Word := do
  let inner ← getChild other side
  onlyIf (inner ≠ null) (rbSetBlack inner)
  rbSetRed other
  rbRotate side.flip other
  getChild parent side.flip

/-- `__rb_erase_color` for a red outer nephew; ends the loop. -/
def rbEraseOuter
    (side : Side)
    (parent other : Word) :
    Program RbState Unit := do
  let color ← rbColor parent
  rbSetColor other color
  rbSetBlack parent
  let outer ← getChild other side.flip
  onlyIf (outer ≠ null) (rbSetBlack outer)
  rbRotate side parent

/-- Both children of `other` are missing or black. -/
def rbEraseNephews (other : Word) : Program RbState Bool := do
  let left ← getChild other .left
  let leftBlack ← isNullOrBlack left
  if leftBlack then do
    let right ← getChild other .right
    isNullOrBlack right
  else
    pure false

/--
The second part of one half of the loop body of `__rb_erase_color`, where
`other` is the black sibling of the `side` child of `parent`.
-/
def rbEraseColorOther
    (side : Side)
    (parent other : Word) :
    Program RbState (Flow (Word × Word) Word) := do
  let bothBlack ← rbEraseNephews other
  if bothBlack then do
    rbSetRed other
    let above ← rbParent parent
    pure (.next (parent, above))
  else do
    let outer ← getChild other side.flip
    let outerBlack ← isNullOrBlack outer
    if outerBlack then do
      let turned ← rbEraseInner side parent other
      rbEraseOuter side parent turned
      let root ← getRoot
      pure (.done root)
    else do
      rbEraseOuter side parent other
      let root ← getRoot
      pure (.done root)

/--
One half of the loop body of `__rb_erase_color`: the node under repair is the
`side` child of `parent`.
-/
def rbEraseColorBranch
    (side : Side)
    (parent : Word) :
    Program RbState (Flow (Word × Word) Word) := do
  let sibling ← getChild parent side.flip
  let siblingRed ← rbIsRed sibling
  if siblingRed then do
    let other ← rbEraseSibling side parent sibling
    rbEraseColorOther side parent other
  else
    rbEraseColorOther side parent sibling

/-- The loop of `__rb_erase_color`. -/
def rbEraseColorStep :
    Word × Word → Program RbState (Flow (Word × Word) Word)
  | (node, parent) => do
      let black ← isNullOrBlack node
      let root ← getRoot
      if black ∧ node ≠ root then do
        let left ← getChild parent .left
        if left = node then
          rbEraseColorBranch .left parent
        else
          rbEraseColorBranch .right parent
      else
        pure (.done node)

/-- `__rb_erase_color`. -/
def rbEraseColor (node parent : Word) : Program RbState Unit := do
  let node ← loop rbEraseColorStep (node, parent)
  onlyIf (node ≠ null) (rbSetBlack node)

/-- Follow the `side` child pointers as far as they go. -/
def descend (side : Side) : Word → Program RbState Word :=
  loop fun node => do
    let child ← getChild node side
    if child = null then
      pure (.done node)
    else
      pure (.next child)

/-- `rb_erase` for a node with at most one child. -/
def rbEraseUnlink (node child : Word) : Program RbState Unit := do
  let parent ← rbParent node
  let color ← rbColor node
  onlyIf (child ≠ null) (rbSetParent child parent)
  replaceChild .left parent node child
  onlyIf (color = colorWord .black) (rbEraseColor child parent)

/--
`rb_erase` takes the successor `node` of `old` out of its position below
`above`; returns the parent of the vacated position.
-/
def rbEraseDetach
    (old node child above : Word) :
    Program RbState Word := do
  onlyIf (child ≠ null) (rbSetParent child above)
  if above = old then do
    setChild above .right child
    pure node
  else do
    setChild above .left child
    pure above

/-- `rb_erase` puts the detached successor `node` in the place of `old`. -/
def rbEraseRelocate (old node : Word) : Program RbState Unit := do
  let oldContent ← load old
  store node fun content =>
    { content with rbParentColor := oldContent.rbParentColor }
  let oldRight ← getChild old .right
  setChild node .right oldRight
  let oldLeft ← getChild old .left
  setChild node .left oldLeft
  let oldParent ← rbParent old
  replaceChild .left oldParent old node
  let movedLeft ← getChild old .left
  rbSetParent movedLeft node
  let movedRight ← getChild old .right
  onlyIf (movedRight ≠ null) (rbSetParent movedRight node)

/-- `rb_erase` for a node with two children. -/
def rbEraseSuccessor (old : Word) : Program RbState Unit := do
  let right ← getChild old .right
  let node ← descend .left right
  let child ← getChild node .right
  let above ← rbParent node
  let color ← rbColor node
  let parent ← rbEraseDetach old node child above
  rbEraseRelocate old node
  onlyIf (color = colorWord .black) (rbEraseColor child parent)

/-- `rb_erase`. -/
def rbErase (node : Word) : Program RbState Unit := do
  let left ← getChild node .left
  let right ← getChild node .right
  if left = null then
    rbEraseUnlink node right
  else if right = null then
    rbEraseUnlink node left
  else
    rbEraseSuccessor node

/-- The outermost node of the tree on one side. -/
def rbEdge (side : Side) : Program RbState Word := do
  let node ← getRoot
  if node = null then
    pure null
  else
    descend side node

/-- `rb_first`. -/
def rbFirst : Program RbState Word :=
  rbEdge .left

/-- `rb_last`. -/
def rbLast : Program RbState Word :=
  rbEdge .right

/-- Climb while the node is the `side` child of its parent. -/
def climb (side : Side) : Word → Program RbState Word :=
  loop fun node => do
    let parent ← rbParent node
    if parent = null then
      pure (.done parent)
    else do
      let child ← getChild parent side
      if node = child then
        pure (.next parent)
      else
        pure (.done parent)

/-- The neighbour of a node towards `side` in sort order. -/
def rbNeighbour (side : Side) (node : Word) : Program RbState Word := do
  let parent ← rbParent node
  if parent = node then
    pure null
  else do
    let child ← getChild node side
    if child ≠ null then
      descend side.flip child
    else
      climb side node

/-- `rb_next`. -/
def rbNext : Word → Program RbState Word :=
  rbNeighbour .right

/-- `rb_prev`. -/
def rbPrev : Word → Program RbState Word :=
  rbNeighbour .left

/-- `rb_replace_node`. -/
def rbReplaceNode (victim new : Word) : Program RbState Unit := do
  let parent ← rbParent victim
  replaceChild .left parent victim new
  let left ← getChild victim .left
  onlyIf (left ≠ null) (rbSetParent left new)
  let right ← getChild victim .right
  onlyIf (right ≠ null) (rbSetParent right new)
  let content ← load victim
  store new fun _ => content

/-- A pointer to one of the pointers that make up the tree. -/
inductive RbLink where
  | root
  | child (node : Word) (side : Side)
  deriving Repr, DecidableEq

/-- Read through a pointer to a node pointer. -/
def loadLink : RbLink → Program RbState Word
  | .root => getRoot
  | .child node side => getChild node side

/-- Write through a pointer to a node pointer. -/
def storeLink : RbLink → Word → Program RbState Unit
  | .root, target => setRoot target
  | .child node side, target => setChild node side target

/-- `rb_link_node`. -/
def rbLinkNode
    (node parent : Word)
    (rbLink : RbLink) :
    Program RbState Unit := do
  store node fun content => { content with rbParentColor := parent }
  setChild node .right null
  setChild node .left null
  storeLink rbLink node

/-- `rb_entry(ptr, type, member)` for a member at this byte offset. -/
def rbEntry (member ptr : Word) : Word :=
  ptr - member

section Search

variable {κ : Type} (member : Word) (key : Word → κ) (cmp : κ → κ → Int)

/-- The descent of `rb_find`. -/
def rbFindStep
    (value : κ)
    (node : Word) :
    Program RbState (Flow Word (Bool × Word)) :=
  if node = null then
    pure (.done (false, node))
  else
    let result := cmp (key (rbEntry member node)) value
    if result < 0 then do
      let left ← getChild node .left
      pure (.next left)
    else if result > 0 then do
      let right ← getChild node .right
      pure (.next right)
    else
      pure (.done (true, node))

/-- `rb_find(root, type, member, key, value, cmp)`. -/
def rbFind (value : κ) : Program RbState Word := do
  let root ← getRoot
  let outcome ← loop (rbFindStep member key cmp value) root
  pure (if outcome.1 then rbEntry member outcome.2 else null)

/-- The descent of `rb_insert`. -/
def rbInsertStep
    (item : Word) :
    RbLink × Word →
      Program RbState (Flow (RbLink × Word) (Bool × RbLink × Word))
  | (new, parent) => do
      let here ← loadLink new
      if here = null then
        pure (.done (true, new, parent))
      else
        let result :=
          cmp (key (rbEntry member here)) (key (rbEntry member item))
        if result < 0 then
          pure (.next (.child here .left, here))
        else if result > 0 then
          pure (.next (.child here .right, here))
        else
          pure (.done (false, new, here))

/-- `rb_insert(root, type, member, key, item, cmp)`. -/
def rbInsert (item : Word) : Program RbState Unit := do
  let outcome ← loop (rbInsertStep member key cmp item) (.root, null)
  onlyIf outcome.1 (do
    rbLinkNode item outcome.2.2 outcome.2.1
    rbInsertColor item)

/-- `rb_delete(root, type, member, key, value, cmp)`. -/
def rbDelete (value : κ) : Program RbState Unit := do
  let node ← rbFind member key cmp value
  onlyIf (node ≠ null) (rbErase node)

end Search

section Iteration

variable {ρ : Type}

/-- One round of a loop that finds the next node after running the body. -/
def rbTraverseStep
    (side : Side)
    (body : ρ → Word → Program RbState ρ) :
    ρ × Word → Program RbState (Flow (ρ × Word) ρ)
  | (accumulated, pos) =>
      if pos = null then
        pure (.done accumulated)
      else do
        let visited ← body accumulated pos
        let following ← rbNeighbour side pos
        pure (.next (visited, following))

/-- Walk from the edge opposite to `side` towards `side`, running a body. -/
def rbTraverse
    (side : Side)
    (body : ρ → Word → Program RbState ρ)
    (start : ρ) :
    Program RbState ρ := do
  let first ← rbEdge side.flip
  loop (rbTraverseStep side body) (start, first)

/-- `rb_for_each(pos, root)`. -/
def rbForEach :
    (ρ → Word → Program RbState ρ) → ρ → Program RbState ρ :=
  rbTraverse .right

/-- `rb_for_each_prev(pos, root)`. -/
def rbForEachPrev :
    (ρ → Word → Program RbState ρ) → ρ → Program RbState ρ :=
  rbTraverse .left

/-- One round of a loop that finds the next node before running the body. -/
def rbForEachSafeStep
    (body : ρ → Word → Program RbState ρ) :
    ρ × Word → Program RbState (Flow (ρ × Word) ρ)
  | (accumulated, pos) =>
      if pos = null then
        pure (.done accumulated)
      else do
        let following ← rbNext pos
        let visited ← body accumulated pos
        pure (.next (visited, following))

/-- `rb_for_each_safe(pos, n, root)`. -/
def rbForEachSafe
    (body : ρ → Word → Program RbState ρ)
    (start : ρ) :
    Program RbState ρ := do
  let first ← rbFirst
  loop (rbForEachSafeStep body) (start, first)

end Iteration

end LibKern.RbTree
