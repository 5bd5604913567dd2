import LibKern.HlistSequences

namespace LibKern.Hlists

/-!
# Runs over several lists

A run starts without any list.  It initialises heads and nodes, adds nodes that
are in no list, and calls the functions of `include/hlist.h` in any order.
-/

open Program Wiring SequenceMap

/-- The functions that change lists. -/
inductive HlistOp where
  | initHead (head : Word)
  | initNode (node : Word)
  | addHead (n h : Word)
  | addBefore (n next : Word)
  | addAfter (n next : Word)
  | del (n : Word)
  | delInit (n : Word)
  | moveList (old new : Word)

namespace HlistOp

/-- The code of an operation. -/
def program : HlistOp → Program HlistMemory Unit
  | .initHead head => initHlistHead head
  | .initNode node => initHlistNode node
  | .addHead n h => hlistAddHead n h
  | .addBefore n next => hlistAddBefore n next
  | .addAfter n next => hlistAddAfter n next
  | .del n => hlistDel n
  | .delInit n => hlistDelInit n
  | .moveList old new => hlistMoveList old new

/-- The operation on sequences. -/
def apply (lists : HlistMap) : HlistOp → HlistMap
  | .initHead head => lists.set head []
  | .initNode _ => lists
  | .addHead n h => lists.set h (n :: lists.entries h)
  | .addBefore n next => lists.substituted next [n, next]
  | .addAfter n next => lists.substituted n [n, next]
  | .del n => lists.without n
  | .delInit n => lists.without n
  | .moveList old new => (lists.set new (lists.entries old)).set old []

/-- A node that can be accessed and is in no list. -/
def Fresh (memory : HlistMemory) (lists : HlistMap) (node : Word) : Prop :=
  Allocated memory node ∧ ¬lists.Entry node

/-- The calls that are allowed. -/
def Allowed (memory : HlistMemory) (lists : HlistMap) : HlistOp → Prop
  | .initHead head => Accessible memory (.first head)
  | .initNode node => Fresh memory lists node
  | .addHead n h => Fresh memory lists n ∧ lists.Live h
  | .addBefore n next => Fresh memory lists n ∧ lists.Entry next
  | .addAfter n next => Fresh memory lists next ∧ lists.Entry n
  | .del n => lists.Entry n
  | .delInit n =>
      lists.Entry n ∨ (memory.nodes.cell n).map HlistNode.pprev = some .null
  | .moveList old new => lists.Live old ∧ lists new = some [] ∧ old ≠ new

end HlistOp

section Runs

variable {memory after : HlistMemory}
variable {lists : HlistMap}

/-- An operation does to the memory what it does to the sequences. -/
theorem Refines.operate
    {operation : HlistOp}
    (refines : Refines memory lists)
    (allowed : operation.Allowed memory lists) :
    operation.program.Ensures memory fun _ after =>
      Refines after (operation.apply lists) := by
  cases operation with
  | initHead head =>
      exact refines.initHlistHead allowed
  | initNode node =>
      exact refines.initHlistNode allowed.1 allowed.2
  | addHead n h =>
      obtain ⟨⟨allocated, free⟩, nodes, isList⟩ := allowed
      rw [HlistOp.apply, entries_of isList]
      exact refines.hlistAddHead isList allocated free
  | addBefore n next =>
      obtain ⟨⟨allocated, free⟩, head, nodes, isList, isEntry⟩ := allowed
      obtain ⟨front, back, rfl⟩ := List.append_of_mem isEntry
      exact refines.hlistAddBefore isList allocated free
  | addAfter n next =>
      obtain ⟨⟨allocated, free⟩, head, nodes, isList, isEntry⟩ := allowed
      obtain ⟨front, back, rfl⟩ := List.append_of_mem isEntry
      exact refines.hlistAddAfter isList allocated free
  | del n =>
      obtain ⟨head, nodes, isList, isEntry⟩ := allowed
      obtain ⟨front, back, rfl⟩ := List.append_of_mem isEntry
      exact refines.remove isList
        (refines.holds head _ isList).ensures_hlistDel
  | delInit n =>
      by_cases isEntry : lists.Entry n
      · obtain ⟨head, nodes, isList, isEntry⟩ := isEntry
        obtain ⟨front, back, rfl⟩ := List.append_of_mem isEntry
        exact refines.remove isList
          (refines.holds head _ isList).ensures_hlistDelInit
      · rw [HlistOp.apply, without, substituted_of_free isEntry]
        refine (ensures_hlistDelInit_unhashed
          (allowed.resolve_left isEntry)).weaken ?_
        intro _ after same
        subst same
        exact refines
  | moveList old new =>
      obtain ⟨⟨nodes, isList⟩, isTarget, different⟩ := allowed
      rw [HlistOp.apply, entries_of isList]
      exact refines.hlistMoveList isList isTarget different

/--
The states that are reached, with the live lists.  Nodes and heads that are not
part of a live list can be changed in any way.
-/
inductive HlistsReach : HlistMemory → HlistMap → Prop where
  | start
      {memory : HlistMemory} :
      HlistsReach memory .empty
  | elsewhere
      {memory after : HlistMemory}
      {lists : HlistMap}
      (reached : HlistsReach memory lists)
      (sameHeads :
        ∀ head, lists.Live head →
          after.heads.cell head = memory.heads.cell head)
      (sameNodes :
        ∀ node, lists.Entry node →
          after.nodes.cell node = memory.nodes.cell node) :
      HlistsReach after lists
  | operate
      {memory after : HlistMemory}
      {lists : HlistMap}
      {operation : HlistOp}
      (reached : HlistsReach memory lists)
      (allowed : operation.Allowed memory lists)
      (returned : operation.program.Returns memory () after) :
      HlistsReach after (operation.apply lists)

/-- A pointer is `first` of a head or `next` of one of these nodes. -/
def SlotOf (head : Word) (nodes : List Word) (slot : Slot) : Prop :=
  slot = .first head ∨ ∃ node ∈ nodes, slot = .next node

/--
What is known about the memory of live lists.  The pointer that a node points
back to is the only one of all lists that points to the node.
-/
structure HoldsSequences
    (memory : HlistMemory)
    (lists : HlistMap) : Prop where
  hlist :
    ∀ head nodes, lists head = some nodes → Hlist memory head nodes
  pprev :
    ∀ head nodes, lists head = some nodes → ∀ node ∈ nodes, ∃ slot,
      (memory.nodes.cell node).map HlistNode.pprev = some slot ∧
        SlotOf head nodes slot ∧
        ∀ other others, lists other = some others →
          ∀ one, SlotOf other others one →
            ((wiring memory).forward one = some node ↔ one = slot)
  disjoint :
    ∀ one nodes other others,
      lists one = some nodes → lists other = some others →
        one ≠ other → List.Disjoint nodes others

/-- A memory that refines sequences holds them. -/
theorem Refines.sequencesHeld
    (refines : Refines memory lists) :
    HoldsSequences memory lists where
  hlist := refines.holds
  pprev head nodes isList node isNode := by
    have hlist := refines.holds head nodes isList
    have notNull := (hlist.allocated isNode).ne_null
    obtain ⟨slot, isSlot, joined⟩ :=
      @Path.exists_joined _ _ _ _ _ _ _ node _ hlist.linked
        (List.mem_append_left _ isNode)
    refine ⟨slot, joined.2 notNull, mem_slots_iff.mp isSlot, ?_⟩
    intro other others isOther one isOne
    constructor
    · intro leads
      obtain ⟨target, -, joins⟩ :=
        (refines.holds other others isOther).linked.exists_joins
          (mem_slots_iff.mpr isOne)
      obtain rfl : target = node :=
        Option.some.inj (joins.1.symm.trans leads)
      exact Option.some.inj
        ((joins.2 notNull).symm.trans (joined.2 notNull))
    · rintro rfl
      exact joined.1
  disjoint one nodes other others isList isOther different node inOne
      inOther :=
    different (refines.unique one other node ⟨nodes, isList, inOne⟩
      ⟨others, isOther, inOther⟩)

/-- The invariant of the runs. -/
theorem HlistsReach.refines
    (reached : HlistsReach memory lists) :
    Refines memory lists := by
  induction reached with
  | start =>
      exact ⟨⟨by simp [SequenceMap.empty],
        by simp [Owns, SequenceMap.empty]⟩⟩
  | @elsewhere memory after lists reached sameHeads sameNodes refines =>
      refine ⟨⟨fun head nodes isList => ?_, refines.unique⟩⟩
      refine (refines.holds head nodes isList).congr
        (sameHeads head ⟨nodes, isList⟩) ?_
      intro node isNode
      exact sameNodes node ⟨head, nodes, isList, isNode⟩
  | operate reached allowed returned refines =>
      exact (refines.operate allowed).of_returns returned

/--
After any run the memory holds the sequences that the operations on sequences
give, and every further call that is allowed returns.
-/
theorem HlistsReach.holdsHlists
    (reached : HlistsReach memory lists) :
    HoldsSequences memory lists ∧
      ∀ operation : HlistOp, operation.Allowed memory lists →
        operation.program.Ensures memory fun _ after =>
          HoldsSequences after (operation.apply lists) := by
  refine ⟨reached.refines.sequencesHeld, fun operation allowed => ?_⟩
  refine (reached.refines.operate allowed).weaken ?_
  intro _ after refines
  exact refines.sequencesHeld

/-- An operation leads to the lists that it gives. -/
theorem HlistsReach.operate_eq
    {operation : HlistOp}
    {now : HlistMap}
    (reached : HlistsReach memory lists)
    (allowed : operation.Allowed memory lists)
    (gives : operation.apply lists = now)
    (returned : operation.program.Returns memory () after) :
    HlistsReach after now :=
  gives ▸ reached.operate allowed returned

end Runs

section Samples

/-- Two heads and four nodes that are not part of a list. -/
def looseNodes : HlistMemory where
  heads := .ofList [(8, 0), (16, 0)]
  nodes :=
    .ofList
      [(24, ⟨0, .null⟩), (32, ⟨0, .null⟩), (40, ⟨0, .null⟩),
        (48, ⟨0, .null⟩)]

/-- Whether a head occupies memory. -/
def isHead (head : Word) : Program HlistMemory Bool :=
  reads fun memory => some (memory.heads.cell head).isSome

/-- Whether a node occupies memory. -/
def isAllocated (node : Word) : Program HlistMemory Bool :=
  reads fun memory => some (memory.nodes.cell node).isSome

/--
Two lists are initialised, and nodes are added to one of them in every way.
The answers are the heads and nodes that occupy memory when they are needed.
-/
def buildHlists : Program HlistMemory (List Bool) := do
  initHlistHead 8
  let other ← isHead 16
  initHlistHead 16
  let first ← isAllocated 24
  hlistAddHead 24 8
  let second ← isAllocated 32
  hlistAddAfter 24 32
  let third ← isAllocated 40
  hlistAddBefore 40 32
  let free ← isAllocated 48
  pure [other, first, second, third, free]

/-- The lists after these calls. -/
def twoHlists : HlistMap :=
  two 8 [24, 40, 32] 16 []

/-- The calls are a run. -/
theorem twoHlists_reached :
    ∃ memory, HlistsReach memory twoHlists ∧ Allocated memory 48 := by
  have returns :
      buildHlists.Ensures looseNodes fun answers _ =>
        answers = [true, true, true, true, true] :=
    .of_exec 1 (by decide)
  simp only [buildHlists, isHead, isAllocated, ensures_bind,
    ensures_reads, ensures_pure, Option.some.injEq, exists_eq_left',
    List.cons.injEq, Option.isSome_iff_exists, and_true] at returns
  obtain ⟨_, one, ranOne, _, both, ranBoth, _, three, ranThree, _, four,
    ranFour, _, memory, ranFive, other, first, second, third,
    free⟩ := returns
  have different : (8 : Word) ≠ 16 := by
    decide
  have oneHead : HlistsReach one (SequenceMap.empty.set 8 []) :=
    @HlistsReach.operate _ _ _ (.initHead 8) .start ⟨0, rfl⟩ ranOne
  have heads : HlistsReach both (two 8 [] 16 []) :=
    @HlistsReach.operate _ _ _ (.initHead 16) oneHead other ranBoth
  have added : HlistsReach three (two 8 [24] 16 []) :=
    @HlistsReach.operate_eq _ _ _ (.addHead 24 8) _ heads
      ⟨⟨first, not_entry_two (by simp) (by simp)⟩, [], rfl⟩
      (set_two_one different) ranThree
  have behind : HlistsReach four (two 8 [24, 32] 16 []) :=
    @HlistsReach.operate_eq _ _ _ (.addAfter 24 32) _ added
      ⟨⟨second, not_entry_two (by simp) (by simp)⟩, 8, [24], rfl,
        by simp⟩
      (substituted_two different) ranFour
  have between : HlistsReach memory twoHlists :=
    @HlistsReach.operate_eq _ _ _ (.addBefore 40 32) _ behind
      ⟨⟨third, not_entry_two (by simp) (by simp)⟩, 8, [24, 32], rfl,
        by simp⟩
      (substituted_two different) ranFive
  exact ⟨memory, between, free⟩

/--
A node is added behind another one, a node is deleted from the middle, and the
list is moved to the other head, where its first node is deleted.
-/
theorem HlistsReach.holdsHlists_of_sample :
    ∃ memory moved,
      HlistsReach memory twoHlists ∧
        Hlist memory 8 [24, 40, 32] ∧
        (hlistAddAfter 40 48).Ensures memory
          (fun _ after => Hlist after 8 [24, 40, 48, 32]) ∧
        (hlistDel 40).Ensures memory
          (fun _ after => Hlist after 8 [24, 32]) ∧
        (hlistMoveList 8 16).Returns memory () moved ∧
        Hlist moved 8 [] ∧
        Hlist moved 16 [24, 40, 32] ∧
        (hlistDelInit 24).Ensures moved fun _ after =>
          Hlist after 16 [40, 32] := by
  obtain ⟨memory, reached, allocated⟩ := twoHlists_reached
  obtain ⟨held, operates⟩ := HlistsReach.holdsHlists reached
  have canAdd : (HlistOp.addAfter 40 48).Allowed memory twoHlists :=
    ⟨⟨allocated, not_entry_two (by simp) (by simp)⟩, 8, [24, 40, 32],
      rfl, by simp⟩
  have canDelete : (HlistOp.del 40).Allowed memory twoHlists :=
    ⟨8, [24, 40, 32], rfl, by simp⟩
  have canMove : (HlistOp.moveList 8 16).Allowed memory twoHlists :=
    ⟨⟨[24, 40, 32], rfl⟩, rfl, by decide⟩
  obtain ⟨_, moved, returned, heldMoved⟩ := operates _ canMove
  obtain ⟨-, operatesMoved⟩ :=
    HlistsReach.holdsHlists (reached.operate canMove returned)
  have canDeleteMoved :
      (HlistOp.delInit 24).Allowed moved
        ((HlistOp.moveList 8 16).apply twoHlists) :=
    .inl ⟨16, [24, 40, 32], rfl, by simp⟩
  refine ⟨memory, moved, reached, held.hlist 8 _ rfl,
    (operates _ canAdd).weaken ?_, (operates _ canDelete).weaken ?_,
    returned, heldMoved.hlist 8 _ rfl, heldMoved.hlist 16 _ rfl,
    (operatesMoved _ canDeleteMoved).weaken ?_⟩
  · exact fun _ _ added => added.hlist 8 _ (by decide)
  · exact fun _ _ deleted => deleted.hlist 8 _ (by decide)
  · exact fun _ _ deleted => deleted.hlist 16 _ (by decide)

end Samples

end LibKern.Hlists
