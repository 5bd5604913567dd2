import LibKern.Locality
import LibKern.RbTreeIteration
import LibKern.RbTreeMap

namespace LibKern.RbTree

/-!
# The functions touch only their own tree

Every function runs in the part of the memory that holds the nodes of its tree
and, for an insertion, the new node.  All functions are local, so they do the
same in the whole memory and write nothing outside of this part.
-/

open Program

/-- A part of the memory with the same root pointer. -/
structure RbState.Framed
    (inside : Word → Prop)
    (frame : Memory Word RbNode)
    (small big : RbState) : Prop where
  sameRoot : big.rbNode = small.rbNode
  nodes : Memory.Framed inside frame small.nodes big.nodes

section Local

set_option synthInstance.maxSize 2000

variable {inside : Word → Prop}
variable {frame : Memory Word RbNode}

instance follows_load
    {node : Word} :
    (load node).Follows (RbState.Framed inside frame) :=
  follows_reads fun framed found => framed.nodes.cell found

instance follows_store
    {node : Word}
    {change : RbNode → RbNode} :
    (store node change).Follows (RbState.Framed inside frame) := by
  refine follows_updates ?_
  intro small big after framed changed
  obtain ⟨content, found, rfl⟩ := Option.map_eq_some_iff.mp changed
  refine ⟨big.modify node change, ?_, framed.sameRoot,
    framed.nodes.modify found change⟩
  rw [framed.nodes.cell found, Option.map_some]

instance follows_getRoot :
    getRoot.Follows (RbState.Framed inside frame) := by
  refine follows_reads ?_
  intro small big value framed isRoot
  rw [framed.sameRoot]
  exact isRoot

instance follows_setRoot
    {node : Word} :
    (setRoot node).Follows (RbState.Framed inside frame) := by
  refine follows_updates ?_
  intro small big after framed changed
  obtain rfl := Option.some.inj changed
  exact ⟨big.setRoot node, rfl, rfl, framed.nodes⟩

instance follows_rbParent
    {node : Word} :
    (rbParent node).Follows (RbState.Framed inside frame) := by
  unfold rbParent
  infer_instance

instance follows_rbColor
    {node : Word} :
    (rbColor node).Follows (RbState.Framed inside frame) := by
  unfold rbColor
  infer_instance

instance follows_rbIsRed
    {node : Word} :
    (rbIsRed node).Follows (RbState.Framed inside frame) := by
  unfold rbIsRed
  infer_instance

instance follows_rbIsBlack
    {node : Word} :
    (rbIsBlack node).Follows (RbState.Framed inside frame) := by
  unfold rbIsBlack
  infer_instance

instance follows_rbSetRed
    {node : Word} :
    (rbSetRed node).Follows (RbState.Framed inside frame) := by
  unfold rbSetRed
  infer_instance

instance follows_rbSetBlack
    {node : Word} :
    (rbSetBlack node).Follows (RbState.Framed inside frame) := by
  unfold rbSetBlack
  infer_instance

instance follows_rbSetParent
    {node par : Word} :
    (rbSetParent node par).Follows (RbState.Framed inside frame) := by
  unfold rbSetParent
  infer_instance

instance follows_rbSetColor
    {node color : Word} :
    (rbSetColor node color).Follows (RbState.Framed inside frame) := by
  unfold rbSetColor
  infer_instance

instance follows_getChild
    {node : Word}
    {side : Side} :
    (getChild node side).Follows (RbState.Framed inside frame) := by
  unfold getChild
  infer_instance

instance follows_setChild
    {node child : Word}
    {side : Side} :
    (setChild node side child).Follows (RbState.Framed inside frame) := by
  unfold setChild
  infer_instance

instance follows_isNullOrBlack
    {node : Word} :
    (isNullOrBlack node).Follows (RbState.Framed inside frame) := by
  unfold isNullOrBlack
  infer_instance

instance follows_isPresentRed
    {node : Word} :
    (isPresentRed node).Follows (RbState.Framed inside frame) := by
  unfold isPresentRed
  infer_instance

instance follows_replaceChild
    {side : Side}
    {parent node replacement : Word} :
    (replaceChild side parent node replacement).Follows
      (RbState.Framed inside frame) := by
  unfold replaceChild
  infer_instance

instance follows_rbRotate
    {side : Side}
    {node : Word} :
    (rbRotate side node).Follows (RbState.Framed inside frame) := by
  unfold rbRotate
  infer_instance

instance follows_rbInsertFlip
    {uncle parent gparent : Word} :
    (rbInsertFlip uncle parent gparent).Follows
      (RbState.Framed inside frame) := by
  unfold rbInsertFlip
  infer_instance

instance follows_rbInsertTurn
    {side : Side}
    {parent gparent : Word} :
    (rbInsertTurn side parent gparent).Follows
      (RbState.Framed inside frame) := by
  unfold rbInsertTurn
  infer_instance

instance follows_rbInsertColorBranch
    {side : Side}
    {node parent gparent : Word} :
    (rbInsertColorBranch side node parent gparent).Follows
      (RbState.Framed inside frame) := by
  unfold rbInsertColorBranch
  infer_instance

instance follows_rbInsertColorStep
    {node : Word} :
    (rbInsertColorStep node).Follows (RbState.Framed inside frame) := by
  unfold rbInsertColorStep
  infer_instance

instance follows_rbInsertColor
    {node : Word} :
    (rbInsertColor node).Follows (RbState.Framed inside frame) := by
  unfold rbInsertColor
  infer_instance

instance follows_rbEraseSibling
    {side : Side}
    {parent sibling : Word} :
    (rbEraseSibling side parent sibling).Follows
      (RbState.Framed inside frame) := by
  unfold rbEraseSibling
  infer_instance

instance follows_rbEraseInner
    {side : Side}
    {parent other : Word} :
    (rbEraseInner side parent other).Follows
      (RbState.Framed inside frame) := by
  unfold rbEraseInner
  infer_instance

instance follows_rbEraseOuter
    {side : Side}
    {parent other : Word} :
    (rbEraseOuter side parent other).Follows
      (RbState.Framed inside frame) := by
  unfold rbEraseOuter
  infer_instance

instance follows_rbEraseNephews
    {other : Word} :
    (rbEraseNephews other).Follows (RbState.Framed inside frame) := by
  unfold rbEraseNephews
  infer_instance

instance follows_rbEraseColorOther
    {side : Side}
    {parent other : Word} :
    (rbEraseColorOther side parent other).Follows
      (RbState.Framed inside frame) := by
  unfold rbEraseColorOther
  infer_instance

instance follows_rbEraseColorBranch
    {side : Side}
    {parent : Word} :
    (rbEraseColorBranch side parent).Follows
      (RbState.Framed inside frame) := by
  unfold rbEraseColorBranch
  infer_instance

instance follows_rbEraseColorStep
    {nodes : Word × Word} :
    (rbEraseColorStep nodes).Follows (RbState.Framed inside frame) := by
  unfold rbEraseColorStep
  infer_instance

instance follows_rbEraseColor
    {node parent : Word} :
    (rbEraseColor node parent).Follows (RbState.Framed inside frame) := by
  unfold rbEraseColor
  infer_instance

instance follows_descend
    {side : Side}
    {node : Word} :
    (descend side node).Follows (RbState.Framed inside frame) := by
  unfold descend
  infer_instance

instance follows_rbEraseUnlink
    {node child : Word} :
    (rbEraseUnlink node child).Follows (RbState.Framed inside frame) := by
  unfold rbEraseUnlink
  infer_instance

instance follows_rbEraseDetach
    {old node child above : Word} :
    (rbEraseDetach old node child above).Follows
      (RbState.Framed inside frame) := by
  unfold rbEraseDetach
  infer_instance

instance follows_rbEraseRelocate
    {old node : Word} :
    (rbEraseRelocate old node).Follows (RbState.Framed inside frame) := by
  unfold rbEraseRelocate
  infer_instance

instance follows_rbEraseSuccessor
    {old : Word} :
    (rbEraseSuccessor old).Follows (RbState.Framed inside frame) := by
  unfold rbEraseSuccessor
  infer_instance

instance follows_rbErase
    {node : Word} :
    (rbErase node).Follows (RbState.Framed inside frame) := by
  unfold rbErase
  infer_instance

instance follows_rbReplaceNode
    {victim new : Word} :
    (rbReplaceNode victim new).Follows (RbState.Framed inside frame) := by
  unfold rbReplaceNode
  infer_instance

instance follows_loadLink
    {link : RbLink} :
    (loadLink link).Follows (RbState.Framed inside frame) := by
  cases link <;> unfold loadLink <;> infer_instance

instance follows_storeLink
    {link : RbLink}
    {target : Word} :
    (storeLink link target).Follows (RbState.Framed inside frame) := by
  cases link <;> unfold storeLink <;> infer_instance

instance follows_rbLinkNode
    {node parent : Word}
    {link : RbLink} :
    (rbLinkNode node parent link).Follows
      (RbState.Framed inside frame) := by
  unfold rbLinkNode
  infer_instance

instance follows_rbInsertStep
    {κ : Type}
    {member item : Word}
    {key : Word → κ}
    {cmp : κ → κ → Int}
    {place : RbLink × Word} :
    (rbInsertStep member key cmp item place).Follows
      (RbState.Framed inside frame) := by
  unfold rbInsertStep
  infer_instance

instance follows_rbInsert
    {κ : Type}
    {member item : Word}
    {key : Word → κ}
    {cmp : κ → κ → Int} :
    (rbInsert member key cmp item).Follows
      (RbState.Framed inside frame) := by
  unfold rbInsert
  infer_instance

instance follows_rbFindStep
    {κ : Type}
    {member node : Word}
    {key : Word → κ}
    {cmp : κ → κ → Int}
    {value : κ} :
    (rbFindStep member key cmp value node).Follows
      (RbState.Framed inside frame) := by
  unfold rbFindStep
  infer_instance

instance follows_rbFind
    {κ : Type}
    {member : Word}
    {key : Word → κ}
    {cmp : κ → κ → Int}
    {value : κ} :
    (rbFind member key cmp value).Follows
      (RbState.Framed inside frame) := by
  unfold rbFind
  infer_instance

instance follows_rbDelete
    {κ : Type}
    {member : Word}
    {key : Word → κ}
    {cmp : κ → κ → Int}
    {value : κ} :
    (rbDelete member key cmp value).Follows
      (RbState.Framed inside frame) := by
  unfold rbDelete
  infer_instance

instance follows_rbEdge
    {side : Side} :
    (rbEdge side).Follows (RbState.Framed inside frame) := by
  unfold rbEdge
  infer_instance

instance follows_rbFirst :
    rbFirst.Follows (RbState.Framed inside frame) :=
  follows_rbEdge

instance follows_rbLast :
    rbLast.Follows (RbState.Framed inside frame) :=
  follows_rbEdge

instance follows_climb
    {side : Side}
    {node : Word} :
    (climb side node).Follows (RbState.Framed inside frame) := by
  unfold climb
  infer_instance

instance follows_rbNeighbour
    {side : Side}
    {node : Word} :
    (rbNeighbour side node).Follows (RbState.Framed inside frame) := by
  unfold rbNeighbour
  infer_instance

instance follows_rbNext
    {node : Word} :
    (rbNext node).Follows (RbState.Framed inside frame) :=
  follows_rbNeighbour

instance follows_rbPrev
    {node : Word} :
    (rbPrev node).Follows (RbState.Framed inside frame) :=
  follows_rbNeighbour

variable {ρ : Type} {body : ρ → Word → Program RbState ρ}
variable
  [∀ accumulated node,
    (body accumulated node).Follows (RbState.Framed inside frame)]

instance follows_rbTraverseStep
    {side : Side}
    {current : ρ × Word} :
    (rbTraverseStep side body current).Follows
      (RbState.Framed inside frame) := by
  unfold rbTraverseStep
  infer_instance

instance follows_rbTraverse
    {side : Side}
    {start : ρ} :
    (rbTraverse side body start).Follows
      (RbState.Framed inside frame) := by
  unfold rbTraverse
  infer_instance

instance follows_rbForEach
    {start : ρ} :
    (rbForEach body start).Follows (RbState.Framed inside frame) :=
  follows_rbTraverse

instance follows_rbForEachPrev
    {start : ρ} :
    (rbForEachPrev body start).Follows (RbState.Framed inside frame) :=
  follows_rbTraverse

instance follows_rbForEachSafeStep
    {current : ρ × Word} :
    (rbForEachSafeStep body current).Follows
      (RbState.Framed inside frame) := by
  unfold rbForEachSafeStep
  infer_instance

instance follows_rbForEachSafe
    {start : ρ} :
    (rbForEachSafe body start).Follows
      (RbState.Framed inside frame) := by
  unfold rbForEachSafe
  infer_instance

instance follows_eraseBody
    {selected : Word → Bool}
    {visited : List Word}
    {pos : Word} :
    (eraseBody selected visited pos).Follows
      (RbState.Framed inside frame) := by
  unfold eraseBody
  infer_instance

end Local

section Rule

variable {inside : Word → Prop}
variable {frame : Memory Word RbNode}
variable {state small big : RbState}
variable {tree : Tree Word Color}

/-- The part of the memory at some addresses, with the root pointer. -/
def RbState.restrict
    (state : RbState)
    (inside : Word → Prop)
    [DecidablePred inside] : RbState where
  nodes := state.nodes.restrict inside
  rbNode := state.rbNode
  aligned := by
    intro address node mapped
    by_cases isInside : inside address
    · exact state.aligned (by simpa [Memory.restrict, isInside] using mapped)
    · simp [Memory.restrict, isInside] at mapped

/-- A tree is still there if the rest of the memory is cut off. -/
theorem RbState.Valid.restrict
    [DecidablePred inside]
    (valid : state.Valid tree)
    (within : ∀ node ∈ tree.inorder, inside node) :
    (state.restrict inside).Valid tree where
  holds :=
    valid.holds.elsewhere rfl fun node member => by
      simp [RbState.restrict, Memory.restrict, within node member]
  redBlack := valid.redBlack

/-- A node is still there if the rest of the memory is cut off. -/
theorem RbState.Allocated.restrict
    [DecidablePred inside]
    {node : Word}
    (allocated : state.Allocated node)
    (within : inside node) :
    (state.restrict inside).Allocated node := by
  obtain ⟨content, mapped⟩ := allocated
  refine ⟨content, ?_⟩
  rw [RbState.view_cell] at mapped ⊢
  simpa [RbState.restrict, Memory.restrict, within] using mapped

/-- The nodes of a tree are mapped. -/
theorem RbState.Holds.mapped
    {node : Word}
    (holds : state.Holds tree)
    (member : node ∈ tree.inorder) :
    state.nodes.cell node ≠ none := by
  obtain ⟨context, left, tag, right, rfl⟩ :=
    Tree.exists_plug_of_mem member
  obtain ⟨-, atNode, -⟩ := represents_plug.mp holds.represents
  obtain ⟨content, mapped, -⟩ := Option.map_eq_some_iff.mp atNode
  rw [mapped]
  exact Option.some_ne_none content

/-- A tree in a part of the memory is a tree in the whole. -/
theorem RbState.Framed.valid
    (framed : RbState.Framed inside frame small big)
    (valid : small.Valid tree) :
    big.Valid tree where
  holds :=
    valid.holds.elsewhere framed.sameRoot fun node member => by
      obtain ⟨content, mapped⟩ :=
        Option.ne_none_iff_exists'.mp (valid.holds.mapped member)
      rw [framed.nodes.cell mapped, mapped]
  redBlack := valid.redBlack

/--
The frame rule: a program that ends in a part of the memory ends in the whole
memory, with the same result, and keeps everything outside of this part.
-/
theorem ensures_of_restrict
    {α : Type}
    [DecidablePred inside]
    {program : Program RbState α}
    [program.Follows (RbState.Framed inside state.nodes)]
    {post : α → RbState → Prop}
    (mapped : ∀ node, inside node → state.nodes.cell node ≠ none)
    (ensured : program.Ensures (state.restrict inside) post) :
    program.Ensures state fun value after =>
      ∃ part, post value part ∧
        RbState.Framed inside state.nodes part after := by
  have cut :
      RbState.Framed inside state.nodes (state.restrict inside) state :=
    ⟨rfl, Memory.framed_restrict mapped⟩
  exact ensured.follows cut

end Rule

end LibKern.RbTree
