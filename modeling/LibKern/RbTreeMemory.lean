import LibKern.Program
import LibKern.RedBlack

namespace LibKern.RbTree

/-!
# Red-black tree nodes in memory

A node packs its parent pointer and its colour into `rb_parent_color`: the two
low bits of an aligned address are free, bit zero holds the colour.  This
module models the packed word, the accessor macros, and the memory in which
`struct rb_node` objects live.  Every access goes through a program that fails
on an unmapped address, in particular on `NULL`.
-/

/-- The value of `RB_RED` or `RB_BLACK`. -/
def colorWord : Color → Word
  | .red => 0
  | .black => 1

/-- `struct rb_node`. -/
structure RbNode where
  rbParentColor : Word
  rbRight : Word
  rbLeft : Word
  deriving Repr, DecidableEq

namespace RbNode

/-- The parent pointer packed into the word. -/
def parent (node : RbNode) : Word :=
  node.rbParentColor &&& ~~~3

/-- The colour bit packed into the word. -/
def color (node : RbNode) : Word :=
  node.rbParentColor &&& 1

/-- The colour bit is clear. -/
def isRed (node : RbNode) : Bool :=
  node.color == 0

/-- The colour bit as a colour. -/
def tag (node : RbNode) : Color :=
  bif node.isRed then .red else .black

/-- The child pointer on one side. -/
def child (node : RbNode) : Side → Word
  | .left => node.rbLeft
  | .right => node.rbRight

/-- Replace the parent bits and keep the two low bits. -/
def setParent (par : Word) (node : RbNode) : RbNode :=
  { node with rbParentColor := node.rbParentColor &&& 3 ||| par }

/-- Replace the colour bit. -/
def setColor (color : Word) (node : RbNode) : RbNode :=
  { node with rbParentColor := node.rbParentColor &&& ~~~1 ||| color }

/-- Clear the colour bit. -/
def setRed (node : RbNode) : RbNode :=
  { node with rbParentColor := node.rbParentColor &&& ~~~1 }

/-- Set the colour bit. -/
def setBlack (node : RbNode) : RbNode :=
  { node with rbParentColor := node.rbParentColor ||| 1 }

/-- Replace a child pointer. -/
def setChild (side : Side) (child : Word) (node : RbNode) : RbNode :=
  match side with
  | .left => { node with rbLeft := child }
  | .right => { node with rbRight := child }

/-- The unpacked contents of a node. -/
def cell (node : RbNode) : Cell Word Color :=
  ⟨node.parent, node.rbLeft, node.rbRight, node.tag⟩

end RbNode

/-- The two low bits of a word are clear. -/
def LowClear (word : Word) : Prop := word &&& 3 = 0

instance (word : Word) : Decidable (LowClear word) :=
  inferInstanceAs (Decidable (word &&& 3 = 0))

/-- `NULL` has clear low bits. -/
theorem lowClear_null : LowClear null := by
  decide

private theorem three_bits :
    ∀ position : Fin 64,
      (3 : Word)[position.val] = decide (position.val < 2) := by
  decide

private theorem one_bits :
    ∀ position : Fin 64,
      (1 : Word)[position.val] = decide (position.val = 0) := by
  decide

private theorem getElem_three
    (index : Nat)
    (inBounds : index < 64) :
    (3 : Word)[index] = decide (index < 2) :=
  three_bits ⟨index, inBounds⟩

private theorem getElem_one
    (index : Nat)
    (inBounds : index < 64) :
    (1 : Word)[index] = decide (index = 0) :=
  one_bits ⟨index, inBounds⟩

private theorem LowClear.getElem
    {word : Word}
    (clear : LowClear word)
    {index : Nat}
    (low : index < 2)
    (inBounds : index < 64) :
    word[index] = false := by
  have bit := congrArg (fun bits : Word => bits[index]) clear
  simp only [BitVec.getElem_and, getElem_three, low] at bit
  simpa using bit

namespace RbNode

variable (node : RbNode)

private theorem parent_of_merge
    {low par : Word}
    (clear : LowClear par) :
    (low &&& 3 ||| par) &&& ~~~3 = par := by
  ext index inBounds
  simp only [BitVec.getElem_and, BitVec.getElem_or, BitVec.getElem_not,
    getElem_three]
  by_cases isLow : index < 2
  · simp [isLow, clear.getElem isLow inBounds]
  · simp [isLow]

private theorem color_of_merge
    {low par : Word}
    (clear : LowClear par) :
    (low &&& 3 ||| par) &&& 1 = low &&& 1 := by
  ext index inBounds
  simp only [BitVec.getElem_and, BitVec.getElem_or, getElem_three,
    getElem_one]
  by_cases isZero : index = 0
  · subst isZero
    simp [clear.getElem (by omega) inBounds]
  · simp [isZero]

private theorem parent_of_color
    (word : Word)
    (shade : Color) :
    (word &&& ~~~1 ||| colorWord shade) &&& ~~~3 = word &&& ~~~3 := by
  ext index inBounds
  have isOne : colorWord .black = (1 : Word) := rfl
  have isZero : colorWord .red = (0 : Word) := rfl
  by_cases isLow : index < 2
  · simp only [BitVec.getElem_and, BitVec.getElem_not, getElem_three,
      isLow]
    simp
  · have notZero : index ≠ 0 := by
      omega
    cases shade <;>
      simp only [isOne, isZero, BitVec.getElem_and, BitVec.getElem_or,
        BitVec.getElem_not, getElem_one, notZero] <;>
      simp

private theorem color_of_color
    (word : Word)
    (shade : Color) :
    (word &&& ~~~1 ||| colorWord shade) &&& 1 = colorWord shade := by
  ext index inBounds
  have isOne : colorWord .black = (1 : Word) := rfl
  have isZero : colorWord .red = (0 : Word) := rfl
  cases shade <;>
    simp only [isOne, isZero, BitVec.getElem_and, BitVec.getElem_or,
      BitVec.getElem_not, getElem_one] <;>
    by_cases first : index = 0 <;>
    simp [first]

private theorem merge_black (word : Word) :
    word ||| 1 = word &&& ~~~1 ||| colorWord .black := by
  ext index inBounds
  have isOne : colorWord .black = (1 : Word) := rfl
  simp only [isOne, BitVec.getElem_and, BitVec.getElem_or,
    BitVec.getElem_not, getElem_one]
  by_cases first : index = 0 <;> simp [first]

private theorem merge_red (word : Word) :
    word &&& ~~~1 = word &&& ~~~1 ||| colorWord .red := by
  simp [colorWord]

private theorem bit_word (word : Word) :
    word &&& 1 = 0 ∨ word &&& 1 = 1 := by
  by_cases set : word[0]
  · right
    ext index inBounds
    simp only [BitVec.getElem_and, getElem_one]
    by_cases first : index = 0
    · subst first
      simp [set]
    · simp [first]
  · left
    ext index inBounds
    simp only [BitVec.getElem_and, getElem_one]
    by_cases first : index = 0
    · subst first
      simp [set]
    · simp [first]

/-- Redirecting an aligned parent changes only the parent. -/
theorem cell_setParent
    {par : Word}
    (clear : LowClear par) :
    (node.setParent par).cell = node.cell.withParent par := by
  simp only [cell, tag, isRed, parent, color, setParent, Cell.withParent,
    parent_of_merge clear, color_of_merge clear]

/-- Writing a colour bit changes only the colour. -/
theorem cell_setColor (shade : Color) :
    (node.setColor (colorWord shade)).cell = node.cell.withTag shade := by
  simp only [cell, tag, isRed, parent, color, setColor, Cell.withTag,
    parent_of_color, color_of_color]
  cases shade <;> rfl

theorem cell_setBlack :
    node.setBlack.cell = node.cell.withTag .black := by
  rw [← cell_setColor, setBlack, setColor, merge_black]

theorem cell_setRed :
    node.setRed.cell = node.cell.withTag .red := by
  rw [← cell_setColor, setColor, ← merge_red, setRed]

theorem cell_setChild
    (side : Side)
    (child : Word) :
    (node.setChild side child).cell =
      node.cell.withChild side child := by
  cases side <;> rfl

/-- An aligned address as the packed word makes a red node below it. -/
theorem cell_of_parent
    {par : Word}
    (clear : LowClear par) :
    RbNode.cell { node with rbParentColor := par } =
      (node.cell.withParent par).withTag .red := by
  have isParent : par &&& ~~~3 = par := by
    have merged : ((0 : Word) &&& 3 ||| par) &&& ~~~3 = par :=
      parent_of_merge clear
    simpa using merged
  have isZero : par &&& 1 = 0 := by
    have merged : ((0 : Word) &&& 3 ||| par) &&& 1 = 0 &&& 1 :=
      color_of_merge clear
    simpa using merged
  simp only [cell, tag, isRed, parent, color, Cell.withParent,
    Cell.withTag, isParent, isZero]
  rfl

@[simp] theorem cell_parent : node.cell.parent = node.parent := rfl

@[simp] theorem cell_tag : node.cell.tag = node.tag := rfl

theorem cell_child (side : Side) :
    node.cell.child side = node.child side := by
  cases side <;> rfl

/-- The colour bit is the value of the colour. -/
theorem color_eq_word : node.color = colorWord node.tag := by
  have bit : node.color = 0 ∨ node.color = 1 :=
    bit_word node.rbParentColor
  rcases bit with isRed | isBlack
  · simp [tag, RbNode.isRed, isRed, colorWord]
  · simp [tag, RbNode.isRed, isBlack, colorWord]

@[simp] theorem isRed_tag : node.tag.isRed = node.isRed := by
  unfold tag
  cases node.isRed <;> rfl

end RbNode

/--
The memory of `struct rb_node` objects and the root pointer.  Every object is
placed at a multiple of `sizeof(long)`.
-/
structure RbState where
  nodes : Memory Word RbNode
  rbNode : Word
  aligned :
    ∀ {address : Word} {node : RbNode},
      nodes.cell address = some node → address &&& 7 = 0

namespace RbState

/-- The unpacked contents of every node. -/
def view (state : RbState) : Memory Word (Cell Word Color) :=
  state.nodes.map RbNode.cell

/-- Rewrite one node in place. -/
def modify
    (state : RbState)
    (target : Word)
    (change : RbNode → RbNode) :
    RbState where
  nodes := state.nodes.modify target change
  rbNode := state.rbNode
  aligned := by
    intro address node mapped
    by_cases same : address = target
    · subst same
      obtain ⟨old, oldMapped, -⟩ := Option.map_eq_some_iff.mp
        ((Memory.modify_cell_same _ _ _).symm.trans mapped)
      exact state.aligned oldMapped
    · rw [Memory.modify_cell_of_ne _ _ same] at mapped
      exact state.aligned mapped

/-- A state with finitely many nodes, given as a list. -/
def ofList
    (nodes : List (Word × RbNode))
    (root : Word)
    (aligned : ∀ entry ∈ nodes, entry.1 &&& 7 = 0) :
    RbState where
  nodes := Memory.ofList nodes
  rbNode := root
  aligned := by
    intro address node mapped
    simp only [Memory.ofList] at mapped
    split at mapped
    · simp at mapped
    · obtain ⟨before, after, shape, -⟩ :=
        List.lookup_eq_some_iff.mp mapped
      exact aligned (address, node) (by simp [shape])

/-- Redirect the root pointer. -/
def setRoot (state : RbState) (root : Word) : RbState :=
  { state with rbNode := root }

@[simp] theorem view_setRoot (state : RbState) (root : Word) :
    (state.setRoot root).view = state.view :=
  rfl

@[simp] theorem rbNode_setRoot (state : RbState) (root : Word) :
    (state.setRoot root).rbNode = root :=
  rfl

@[simp] theorem rbNode_modify
    (state : RbState)
    (target : Word)
    (change : RbNode → RbNode) :
    (state.modify target change).rbNode = state.rbNode :=
  rfl

theorem view_cell
    (state : RbState)
    (address : Word) :
    state.view.cell address =
      (state.nodes.cell address).map RbNode.cell :=
  rfl

/-- Mapped addresses leave the two packing bits free. -/
theorem lowClear_of_mapped
    (state : RbState)
    {address : Word}
    {content : Cell Word Color}
    (mapped : state.view.cell address = some content) :
    LowClear address := by
  obtain ⟨node, nodeMapped, -⟩ := Option.map_eq_some_iff.mp mapped
  have multiple := state.aligned nodeMapped
  have narrowed : address &&& 3 = (address &&& 7) &&& 3 := by
    rw [BitVec.and_assoc]
    rfl
  rw [LowClear, narrowed, multiple]
  rfl

@[simp] theorem view_modify_setChild
    (state : RbState)
    (target child : Word)
    (side : Side) :
    (state.modify target (RbNode.setChild side child)).view =
      state.view.modify target (Cell.withChild side child) :=
  Memory.map_modify _ _ _ fun node => node.cell_setChild side child

theorem view_modify_setParent
    (state : RbState)
    (target : Word)
    {par : Word}
    (clear : LowClear par) :
    (state.modify target (RbNode.setParent par)).view =
      state.view.modify target (Cell.withParent par) :=
  Memory.map_modify _ _ _ fun node => node.cell_setParent clear

@[simp] theorem view_modify_setBlack
    (state : RbState)
    (target : Word) :
    (state.modify target RbNode.setBlack).view =
      state.view.modify target (Cell.withTag .black) :=
  Memory.map_modify _ _ _ RbNode.cell_setBlack

@[simp] theorem view_modify_setRed
    (state : RbState)
    (target : Word) :
    (state.modify target RbNode.setRed).view =
      state.view.modify target (Cell.withTag .red) :=
  Memory.map_modify _ _ _ RbNode.cell_setRed

@[simp] theorem view_modify_setColor
    (state : RbState)
    (target : Word)
    (shade : Color) :
    (state.modify target (RbNode.setColor (colorWord shade))).view =
      state.view.modify target (Cell.withTag shade) :=
  Memory.map_modify _ _ _ fun node => node.cell_setColor shade

/-- Copying the packed word copies the parent and the colour. -/
theorem view_modify_parentColor
    (state : RbState)
    (target : Word)
    (source : RbNode) :
    (state.modify target fun node =>
        { node with rbParentColor := source.rbParentColor }).view =
      state.view.modify target fun cell =>
        (cell.withParent source.cell.parent).withTag source.cell.tag :=
  Memory.map_modify _ _ _ fun _ => rfl

/-- Writing an aligned address as the packed word. -/
theorem view_modify_parent
    (state : RbState)
    (target : Word)
    {par : Word}
    (clear : LowClear par) :
    (state.modify target fun node =>
        { node with rbParentColor := par }).view =
      state.view.modify target fun cell =>
        (cell.withParent par).withTag .red :=
  Memory.map_modify _ _ _ fun node => node.cell_of_parent clear

/-- Copying a whole node copies all of its contents. -/
theorem view_modify_copy
    (state : RbState)
    (target : Word)
    (source : RbNode) :
    (state.modify target fun _ => source).view =
      state.view.modify target fun _ => source.cell :=
  Memory.map_modify _ _ _ fun _ => rfl

/-- Rewriting `NULL` changes nothing. -/
@[simp] theorem modify_null
    (state : RbState)
    (change : RbNode → RbNode) :
    state.modify null change = state := by
  simp [modify]

end RbState

/-- Read a whole node. -/
def load (node : Word) : Program RbState RbNode :=
  Program.reads fun state => state.nodes.cell node

/-- Rewrite a whole node. -/
def store
    (node : Word)
    (change : RbNode → RbNode) :
    Program RbState Unit :=
  Program.updates fun state =>
    (state.nodes.cell node).map fun _ => state.modify node change

/-- `rb_parent(r)`. -/
def rbParent (node : Word) : Program RbState Word := do
  let content ← load node
  pure content.parent

/-- `rb_color(r)`. -/
def rbColor (node : Word) : Program RbState Word := do
  let content ← load node
  pure content.color

/-- `rb_is_red(r)`. -/
def rbIsRed (node : Word) : Program RbState Bool := do
  let content ← load node
  pure content.isRed

/-- `rb_is_black(r)`. -/
def rbIsBlack (node : Word) : Program RbState Bool := do
  let content ← load node
  pure (!content.isRed)

/-- `rb_set_red(r)`. -/
def rbSetRed (node : Word) : Program RbState Unit :=
  store node RbNode.setRed

/-- `rb_set_black(r)`. -/
def rbSetBlack (node : Word) : Program RbState Unit :=
  store node RbNode.setBlack

/-- `rb_set_parent(node, par)`. -/
def rbSetParent (node par : Word) : Program RbState Unit :=
  store node (RbNode.setParent par)

/-- `rb_set_color(node, color)`. -/
def rbSetColor (node color : Word) : Program RbState Unit :=
  store node (RbNode.setColor color)

/-- `node->rb_left` or `node->rb_right`. -/
def getChild (node : Word) (side : Side) : Program RbState Word := do
  let content ← load node
  pure (content.child side)

/-- Assignment to `node->rb_left` or `node->rb_right`. -/
def setChild
    (node : Word)
    (side : Side)
    (child : Word) :
    Program RbState Unit :=
  store node (RbNode.setChild side child)

/-- `root->rb_node`. -/
def getRoot : Program RbState Word :=
  Program.reads fun state => some state.rbNode

/-- Assignment to `root->rb_node`. -/
def setRoot (node : Word) : Program RbState Unit :=
  Program.updates fun state => some (state.setRoot node)

section Rules

variable {state : RbState} {node : Word}

theorem ensures_load
    {post : RbNode → RbState → Prop} :
    (load node).Ensures state post ↔
      ∃ content, state.nodes.cell node = some content ∧
        post content state := by
  simp [load]

/-- Reading a whole node whose unpacked contents are known. -/
theorem ensures_load_cell
    {cell : Cell Word Color}
    {post : RbNode → RbState → Prop}
    (mapped : state.view.cell node = some cell) :
    (load node).Ensures state post ↔
      ∃ content, content.cell = cell ∧
        state.nodes.cell node = some content ∧ post content state := by
  obtain ⟨content, nodeMapped, rfl⟩ := Option.map_eq_some_iff.mp mapped
  simp only [ensures_load, nodeMapped, Option.some.injEq,
    exists_eq_left']
  constructor
  · intro holds
    exact ⟨content, rfl, rfl, holds⟩
  · rintro ⟨other, -, rfl, holds⟩
    exact holds

@[simp] theorem ensures_store
    {change : RbNode → RbNode}
    {post : Unit → RbState → Prop} :
    (store node change).Ensures state post ↔
      (∃ content, state.view.cell node = some content) ∧
        post () (state.modify node change) := by
  cases mapped : state.nodes.cell node <;>
    simp [store, RbState.view_cell, mapped]

@[simp] theorem ensures_rbParent
    {post : Word → RbState → Prop} :
    (rbParent node).Ensures state post ↔
      ∃ content, state.view.cell node = some content ∧
        post content.parent state := by
  cases mapped : state.nodes.cell node <;>
    simp [rbParent, ensures_load, RbState.view_cell, mapped]

@[simp] theorem ensures_rbColor
    {post : Word → RbState → Prop} :
    (rbColor node).Ensures state post ↔
      ∃ content, state.view.cell node = some content ∧
        post (colorWord content.tag) state := by
  cases mapped : state.nodes.cell node <;>
    simp [rbColor, ensures_load, RbState.view_cell, mapped,
      RbNode.color_eq_word]

@[simp] theorem ensures_rbIsRed
    {post : Bool → RbState → Prop} :
    (rbIsRed node).Ensures state post ↔
      ∃ content, state.view.cell node = some content ∧
        post content.tag.isRed state := by
  cases mapped : state.nodes.cell node <;>
    simp [rbIsRed, ensures_load, RbState.view_cell, mapped]

@[simp] theorem ensures_rbIsBlack
    {post : Bool → RbState → Prop} :
    (rbIsBlack node).Ensures state post ↔
      ∃ content, state.view.cell node = some content ∧
        post (!content.tag.isRed) state := by
  cases mapped : state.nodes.cell node <;>
    simp [rbIsBlack, ensures_load, RbState.view_cell, mapped]

@[simp] theorem ensures_getChild
    {side : Side}
    {post : Word → RbState → Prop} :
    (getChild node side).Ensures state post ↔
      ∃ content, state.view.cell node = some content ∧
        post (content.child side) state := by
  cases mapped : state.nodes.cell node <;>
    simp [getChild, ensures_load, RbState.view_cell, mapped,
      RbNode.cell_child]

@[simp] theorem ensures_getRoot
    {post : Word → RbState → Prop} :
    getRoot.Ensures state post ↔ post state.rbNode state := by
  simp [getRoot]

@[simp] theorem ensures_setRoot
    {post : Unit → RbState → Prop} :
    (setRoot node).Ensures state post ↔
      post () (state.setRoot node) := by
  simp [setRoot]

end Rules

end LibKern.RbTree
