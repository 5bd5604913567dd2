import LibKern.ListTraversal
import LibKern.Locality

namespace LibKern.Lists

/-!
# The functions touch only the nodes of lists

Every function of `include/list.h` runs in the part of the memory that holds the
nodes of the live lists and its new node.  All functions are local, so they do
the same in the whole memory and write nothing outside of this part.
-/

open Program SequenceMap

section Local

set_option synthInstance.maxSize 2000

variable {inside : Word → Prop}
variable {frame : ListMemory}

instance follows_next
    {node : Word} :
    (next node).Follows (Memory.Framed inside frame) := by
  refine follows_reads ?_
  intro small big value framed isValue
  obtain ⟨content, found, rfl⟩ := Option.map_eq_some_iff.mp isValue
  rw [framed.cell found, Option.map_some]

instance follows_prev
    {node : Word} :
    (prev node).Follows (Memory.Framed inside frame) := by
  refine follows_reads ?_
  intro small big value framed isValue
  obtain ⟨content, found, rfl⟩ := Option.map_eq_some_iff.mp isValue
  rw [framed.cell found, Option.map_some]

instance follows_store
    {node : Word}
    {change : ListHead → ListHead} :
    (store node change).Follows (Memory.Framed inside frame) := by
  refine follows_updates ?_
  intro small big after framed changed
  obtain ⟨content, found, rfl⟩ := Option.map_eq_some_iff.mp changed
  refine ⟨big.modify node change, ?_, framed.modify found change⟩
  rw [framed.cell found, Option.map_some]

instance follows_setNext
    {node value : Word} :
    (setNext node value).Follows (Memory.Framed inside frame) := by
  unfold setNext
  infer_instance

instance follows_setPrev
    {node value : Word} :
    (setPrev node value).Follows (Memory.Framed inside frame) := by
  unfold setPrev
  infer_instance

instance follows_initListHead
    {list : Word} :
    (initListHead list).Follows (Memory.Framed inside frame) := by
  unfold initListHead
  infer_instance

instance follows_listAddBetween
    {new prev next : Word} :
    (listAddBetween new prev next).Follows
      (Memory.Framed inside frame) := by
  unfold listAddBetween
  infer_instance

instance follows_listDelBetween
    {prev next : Word} :
    (listDelBetween prev next).Follows (Memory.Framed inside frame) := by
  unfold listDelBetween
  infer_instance

instance follows_listSpliceBetween
    {list prev next : Word} :
    (listSpliceBetween list prev next).Follows
      (Memory.Framed inside frame) := by
  unfold listSpliceBetween
  infer_instance

instance follows_listCutAt
    {list head entry : Word} :
    (listCutAt list head entry).Follows (Memory.Framed inside frame) := by
  unfold listCutAt
  infer_instance

instance follows_listAdd
    {new head : Word} :
    (listAdd new head).Follows (Memory.Framed inside frame) := by
  unfold listAdd
  infer_instance

instance follows_listAddTail
    {new head : Word} :
    (listAddTail new head).Follows (Memory.Framed inside frame) := by
  unfold listAddTail
  infer_instance

instance follows_listUnlink
    {entry : Word} :
    (listUnlink entry).Follows (Memory.Framed inside frame) := by
  unfold listUnlink
  infer_instance

instance follows_listDel
    {entry : Word} :
    (listDel entry).Follows (Memory.Framed inside frame) := by
  unfold listDel
  infer_instance

instance follows_listDelInit
    {entry : Word} :
    (listDelInit entry).Follows (Memory.Framed inside frame) := by
  unfold listDelInit
  infer_instance

instance follows_listReplace
    {old new : Word} :
    (listReplace old new).Follows (Memory.Framed inside frame) := by
  unfold listReplace
  infer_instance

instance follows_listReplaceInit
    {old new : Word} :
    (listReplaceInit old new).Follows (Memory.Framed inside frame) := by
  unfold listReplaceInit
  infer_instance

instance follows_listMove
    {list head : Word} :
    (listMove list head).Follows (Memory.Framed inside frame) := by
  unfold listMove
  infer_instance

instance follows_listMoveTail
    {list head : Word} :
    (listMoveTail list head).Follows (Memory.Framed inside frame) := by
  unfold listMoveTail
  infer_instance

instance follows_listEmpty
    {head : Word} :
    (listEmpty head).Follows (Memory.Framed inside frame) := by
  unfold listEmpty
  infer_instance

instance follows_listRotateLeft
    {head : Word} :
    (listRotateLeft head).Follows (Memory.Framed inside frame) := by
  unfold listRotateLeft
  infer_instance

instance follows_listIsSingular
    {head : Word} :
    (listIsSingular head).Follows (Memory.Framed inside frame) := by
  unfold listIsSingular
  infer_instance

instance follows_listCutPosition
    {list head entry : Word} :
    (listCutPosition list head entry).Follows
      (Memory.Framed inside frame) := by
  unfold listCutPosition
  infer_instance

instance follows_listSplice
    {list head : Word} :
    (listSplice list head).Follows (Memory.Framed inside frame) := by
  unfold listSplice
  infer_instance

instance follows_listSpliceTail
    {list head : Word} :
    (listSpliceTail list head).Follows (Memory.Framed inside frame) := by
  unfold listSpliceTail
  infer_instance

instance follows_listSpliceInit
    {list head : Word} :
    (listSpliceInit list head).Follows (Memory.Framed inside frame) := by
  unfold listSpliceInit
  infer_instance

instance follows_listSpliceTailInit
    {list head : Word} :
    (listSpliceTailInit list head).Follows
      (Memory.Framed inside frame) := by
  unfold listSpliceTailInit
  infer_instance

instance follows_operation
    {operation : ListOp} :
    operation.program.Follows (Memory.Framed inside frame) := by
  cases operation <;> unfold ListOp.program <;> infer_instance

instance follows_removeNode
    {how : Option Removal}
    {node : Word} :
    (removeNode how node).Follows (Memory.Framed inside frame) := by
  unfold removeNode
  split
  · infer_instance
  · exact follows_operation

instance follows_visitNode
    {how : Word → Option Removal}
    {node : Word}
    {visited : List Word} :
    (visitNode how node visited).Follows
      (Memory.Framed inside frame) := by
  unfold visitNode
  infer_instance

instance follows_listForEachSafe
    {head : Word}
    {how : Word → Option Removal}
    {visited : List Word} :
    (listForEachSafe head (visitNode how) visited).Follows
      (Memory.Framed inside frame) := by
  unfold listForEachSafe
  infer_instance

instance follows_listForEachPrevSafe
    {head : Word}
    {how : Word → Option Removal}
    {visited : List Word} :
    (listForEachPrevSafe head (visitNode how) visited).Follows
      (Memory.Framed inside frame) := by
  unfold listForEachPrevSafe
  infer_instance

end Local

section Frame

variable {memory after : ListMemory}
variable {lists : ListMap}
variable {head node : Word}
variable {items : List Word}

/-- A node of some live list. -/
def Owned (lists : ListMap) (node : Word) : Prop :=
  ∃ head, lists.Owns List.cons head node

/-- The node that an operation is about to use for the first time. -/
def ListOp.fresh : ListOp → Option Word
  | .init list => some list
  | .add new _ | .addTail new _ => some new
  | .replace _ new | .replaceInit _ new => some new
  | _ => none

/-- The lists depend only on their own nodes. -/
theorem Refines.congr
    (refines : Refines memory lists)
    (same :
      ∀ node, Owned lists node → after.cell node = memory.cell node) :
    Refines after lists := by
  refine ⟨⟨fun head items isList => ?_, refines.unique⟩⟩
  refine (refines.holds head items isList).congr ?_
  intro node isNode
  exact same node ⟨head, items, isList, isNode⟩

/-- All nodes of live lists can be accessed. -/
theorem Refines.allocated_of_owned
    (refines : Refines memory lists)
    (owned : Owned lists node) :
    Allocated memory node := by
  obtain ⟨head, owns⟩ := owned
  exact refines.allocated owns

/-- Lists in a part of the memory are lists in the whole. -/
theorem Refines.framed
    {inside : Word → Prop}
    {part : ListMemory}
    (refines : Refines part lists)
    (framed : Memory.Framed inside memory part after) :
    Refines after lists := by
  refine refines.congr ?_
  intro node owned
  obtain ⟨content, found⟩ := refines.allocated_of_owned owned
  rw [framed.cell found, found]

/-- An operation is allowed if its new node can be accessed. -/
theorem ListOp.Allowed.congr
    {operation : ListOp}
    (allowed : operation.Allowed memory lists)
    (same :
      ∀ node, operation.fresh = some node →
        after.cell node = memory.cell node) :
    operation.Allowed after lists := by
  have still
      {node : Word}
      (allocated : Allocated memory node)
      (isFresh : operation.fresh = some node) :
      Allocated after node := by
    obtain ⟨content, found⟩ := allocated
    exact ⟨content, (same node isFresh).trans found⟩
  cases operation with
  | init list =>
      exact ⟨still allowed.1 rfl, allowed.2⟩
  | add new head | addTail new head =>
      exact ⟨⟨still allowed.1.allocated rfl, allowed.1.unused⟩,
        allowed.2⟩
  | replace old new | replaceInit old new =>
      exact ⟨allowed.1, still allowed.2.allocated rfl, allowed.2.unused⟩
  | _ =>
      exact allowed

/-- A node that an operation uses for the first time can be accessed. -/
theorem ListOp.Allowed.allocated
    {operation : ListOp}
    (allowed : operation.Allowed memory lists)
    (isFresh : operation.fresh = some node) :
    Allocated memory node := by
  cases operation with
  | init list =>
      obtain rfl := Option.some.inj isFresh
      exact allowed.1
  | add new head | addTail new head =>
      obtain rfl := Option.some.inj isFresh
      exact allowed.1.allocated
  | replace old new | replaceInit old new =>
      obtain rfl := Option.some.inj isFresh
      exact allowed.2.allocated
  | _ =>
      exact absurd isFresh (by simp [ListOp.fresh])

/-- A program keeps all nodes except those of live lists and new nodes. -/
theorem Refines.ensures_within
    {α : Type}
    {program : Program ListMemory α}
    {inside : Word → Prop}
    [program.Follows (Memory.Framed inside memory)]
    {result : α → ListMap → Prop}
    (mapped : ∀ node, inside node → Allocated memory node)
    (ensured :
      ∀ part : ListMemory,
        (∀ node, inside node → part.cell node = memory.cell node) →
        program.Ensures part fun value after =>
          ∃ now, Refines after now ∧ result value now) :
    program.Ensures memory fun value after =>
      (∃ now, Refines after now ∧ result value now) ∧
        ∀ node, ¬inside node → after.cell node = memory.cell node := by
  classical
  have isMapped : ∀ node, inside node → memory.cell node ≠ none := by
    intro node isInside
    obtain ⟨content, found⟩ := mapped node isInside
    rw [found]
    exact Option.some_ne_none content
  refine (Memory.ensures_of_restrict isMapped
    (ensured (memory.restrict inside) fun node isInside =>
      if_pos isInside)).weaken ?_
  intro value after outcome
  obtain ⟨part, ⟨now, refines, isResult⟩, framed⟩ := outcome
  exact ⟨⟨now, refines.framed framed, isResult⟩, framed.rest⟩

/-- An operation keeps all nodes outside of the lists and its new node. -/
theorem Refines.operate_within
    {operation : ListOp}
    (refines : Refines memory lists)
    (allowed : operation.Allowed memory lists) :
    operation.program.Ensures memory fun _ after =>
      Refines after (operation.apply lists) ∧
        ∀ node, ¬Owned lists node → operation.fresh ≠ some node →
          after.cell node = memory.cell node := by
  have mapped :
      ∀ node, Owned lists node ∨ operation.fresh = some node →
        Allocated memory node := by
    intro node isInside
    rcases isInside with owned | isFresh
    · exact refines.allocated_of_owned owned
    · exact allowed.allocated isFresh
  have within :
      operation.program.Ensures memory fun _ after =>
        (∃ now, Refines after now ∧ now = operation.apply lists) ∧
          ∀ node,
            ¬(Owned lists node ∨ operation.fresh = some node) →
              after.cell node = memory.cell node := by
    refine Refines.ensures_within mapped ?_
    intro part same
    have partRefines : Refines part lists :=
      refines.congr fun node owned => same node (.inl owned)
    have partAllowed : operation.Allowed part lists :=
      allowed.congr fun node isFresh => same node (.inr isFresh)
    refine (partRefines.operate partAllowed).weaken ?_
    intro _ after operated
    exact ⟨_, operated, rfl⟩
  refine within.weaken ?_
  intro _ after outcome
  obtain ⟨⟨_, operated, rfl⟩, kept⟩ := outcome
  refine ⟨operated, ?_⟩
  intro node notOwned notFresh
  refine kept node ?_
  rintro (owned | isFresh)
  · exact notOwned owned
  · exact notFresh isFresh

end Frame

end LibKern.Lists
