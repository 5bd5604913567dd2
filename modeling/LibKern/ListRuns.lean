import LibKern.ListSequences

namespace LibKern.Lists

/-!
# Runs over several lists

A run starts without any list.  It initialises heads, adds nodes that are in no
list, and calls the functions of `include/list.h` in any order.
-/

open Program SequenceMap

/-- The functions that change lists. -/
inductive ListOp where
  | init (list : Word)
  | add (new head : Word)
  | addTail (new head : Word)
  | del (entry : Word)
  | delInit (entry : Word)
  | replace (old new : Word)
  | replaceInit (old new : Word)
  | move (entry head : Word)
  | moveTail (entry head : Word)
  | rotateLeft (head : Word)
  | splice (list head : Word)
  | spliceTail (list head : Word)
  | spliceInit (list head : Word)
  | spliceTailInit (list head : Word)
  | cutPosition (list head entry : Word)

namespace ListOp

/-- The code of an operation. -/
def program : ListOp → Program ListMemory Unit
  | .init list => initListHead list
  | .add new head => listAdd new head
  | .addTail new head => listAddTail new head
  | .del entry => listDel entry
  | .delInit entry => listDelInit entry
  | .replace old new => listReplace old new
  | .replaceInit old new => listReplaceInit old new
  | .move entry head => listMove entry head
  | .moveTail entry head => listMoveTail entry head
  | .rotateLeft head => listRotateLeft head
  | .splice list head => listSplice list head
  | .spliceTail list head => listSpliceTail list head
  | .spliceInit list head => listSpliceInit list head
  | .spliceTailInit list head => listSpliceTailInit list head
  | .cutPosition list head entry => listCutPosition list head entry

/-- The operation on sequences. -/
def apply (lists : ListMap) : ListOp → ListMap
  | .init list => lists.set list []
  | .add new head => (lists.drop new).set head (new :: lists.entries head)
  | .addTail new head =>
      (lists.drop new).set head (lists.entries head ++ [new])
  | .del entry => lists.without entry
  | .delInit entry => (lists.without entry).set entry []
  | .replace old new => (lists.drop new).replaced old new
  | .replaceInit old new => ((lists.drop new).replaced old new).set old []
  | .move entry head =>
      (lists.without entry).set head
        (entry :: (lists.without entry).entries head)
  | .moveTail entry head =>
      (lists.without entry).set head
        ((lists.without entry).entries head ++ [entry])
  | .rotateLeft head => lists.set head ((lists.entries head).rotate 1)
  | .splice list head =>
      if lists.entries list = [] then lists
      else
        (lists.drop list).set head
          (lists.entries list ++ lists.entries head)
  | .spliceTail list head =>
      if lists.entries list = [] then lists
      else
        (lists.drop list).set head
          (lists.entries head ++ lists.entries list)
  | .spliceInit list head =>
      (lists.set list []).set head
        (lists.entries list ++ lists.entries head)
  | .spliceTailInit list head =>
      (lists.set list []).set head
        (lists.entries head ++ lists.entries list)
  | .cutPosition list head entry =>
      if entry = head then lists.set list []
      else
        let cut := (lists.entries head).idxOf entry + 1
        (lists.set list ((lists.entries head).take cut)).set head
          ((lists.entries head).drop cut)

end ListOp

/-- The calls that are allowed. -/
def ListOp.Allowed (memory : ListMemory) (lists : ListMap) :
    ListOp → Prop
  | .init list => Allocated memory list ∧ ¬lists.Entry list
  | .add new head | .addTail new head =>
      Fresh memory lists new ∧ lists.Live head ∧ new ≠ head
  | .del entry | .delInit entry => lists.Entry entry
  | .replace old new | .replaceInit old new =>
      lists.Entry old ∧ Fresh memory lists new
  | .move entry head | .moveTail entry head =>
      lists.Entry entry ∧ lists.Live head
  | .rotateLeft head => lists.Live head
  | .splice list head | .spliceTail list head | .spliceInit list head
  | .spliceTailInit list head =>
      lists.Live list ∧ lists.Live head ∧ list ≠ head
  | .cutPosition list head entry =>
      lists list = some [] ∧ list ≠ head ∧
        ∃ items, lists head = some items ∧ entry ∈ head :: items

section Runs

variable {memory after : ListMemory}
variable {lists : ListMap}

/-- An operation does to the memory what it does to the sequences. -/
theorem Refines.operate
    {operation : ListOp}
    (refines : Refines memory lists)
    (allowed : operation.Allowed memory lists) :
    operation.program.Ensures memory fun _ after =>
      Refines after (operation.apply lists) := by
  cases operation with
  | init list =>
      obtain ⟨allocated, notEntry⟩ := allowed
      refine refines.init allocated fun head owns => notEntry ?_
      obtain ⟨different, items, isList, isNode⟩ := owns_drop.mp owns
      exact ⟨head, items, isList,
        (List.mem_cons.mp isNode).resolve_left different.symm⟩
  | add new head =>
      obtain ⟨fresh, ⟨items, isList⟩, different⟩ := allowed
      rw [ListOp.apply, entries_of isList]
      refine (refines.drop new).listAdd ?_ fresh.allocated fresh.free
      rw [drop_of_ne different.symm, isList]
  | addTail new head =>
      obtain ⟨fresh, ⟨items, isList⟩, different⟩ := allowed
      rw [ListOp.apply, entries_of isList]
      refine (refines.drop new).listAddTail ?_ fresh.allocated fresh.free
      rw [drop_of_ne different.symm, isList]
  | del entry =>
      obtain ⟨head, items, isList, isEntry⟩ := allowed
      obtain ⟨front, back, rfl⟩ := List.append_of_mem isEntry
      exact refines.listDel isList
  | delInit entry =>
      obtain ⟨head, items, isList, isEntry⟩ := allowed
      obtain ⟨front, back, rfl⟩ := List.append_of_mem isEntry
      exact refines.listDelInit isList
  | replace old new =>
      obtain ⟨⟨head, items, isList, isEntry⟩, fresh⟩ := allowed
      obtain ⟨front, back, rfl⟩ := List.append_of_mem isEntry
      have stillList := fresh.drop_of_mem isList (by simp : old ∈ _)
      rw [ListOp.apply, replaced,
        (refines.drop new).substituted_eq stillList]
      refine ((refines.drop new).replace stillList fresh.allocated
        fresh.free).weaken ?_
      intro _ after result
      exact result.1
  | replaceInit old new =>
      obtain ⟨⟨head, items, isList, isEntry⟩, fresh⟩ := allowed
      obtain ⟨front, back, rfl⟩ := List.append_of_mem isEntry
      have stillList := fresh.drop_of_mem isList (by simp : old ∈ _)
      exact (refines.drop new).listReplaceInit stillList fresh.allocated
        fresh.free
  | move entry head =>
      obtain ⟨⟨owner, items, isList, isEntry⟩, live⟩ := allowed
      obtain ⟨front, back, rfl⟩ := List.append_of_mem isEntry
      exact refines.listMove isList live
  | moveTail entry head =>
      obtain ⟨⟨owner, items, isList, isEntry⟩, live⟩ := allowed
      obtain ⟨front, back, rfl⟩ := List.append_of_mem isEntry
      exact refines.listMoveTail isList live
  | rotateLeft head =>
      obtain ⟨items, isList⟩ := allowed
      rw [ListOp.apply, entries_of isList]
      exact refines.listRotateLeft isList
  | splice list head =>
      obtain ⟨⟨items, isSource⟩, ⟨others, isList⟩, different⟩ := allowed
      rw [ListOp.apply, entries_of isSource, entries_of isList]
      exact refines.listSplice isSource isList different
  | spliceTail list head =>
      obtain ⟨⟨items, isSource⟩, ⟨others, isList⟩, different⟩ := allowed
      rw [ListOp.apply, entries_of isSource, entries_of isList]
      exact refines.listSpliceTail isSource isList different
  | spliceInit list head =>
      obtain ⟨⟨items, isSource⟩, ⟨others, isList⟩, different⟩ := allowed
      rw [ListOp.apply, entries_of isSource, entries_of isList]
      exact refines.listSpliceInit isSource isList different
  | spliceTailInit list head =>
      obtain ⟨⟨items, isSource⟩, ⟨others, isList⟩, different⟩ := allowed
      rw [ListOp.apply, entries_of isSource, entries_of isList]
      exact refines.listSpliceTailInit isSource isList different
  | cutPosition list head entry =>
      obtain ⟨isTarget, different, items, isList, isNode⟩ := allowed
      rw [ListOp.apply, entries_of isList]
      exact refines.listCutPosition isTarget different isList isNode

/--
The states that are reached, with the live lists.  Nodes that are not part of a
live list can be changed in any way.
-/
inductive ListsReach : ListMemory → ListMap → Prop where
  | start
      {memory : ListMemory} :
      ListsReach memory .empty
  | elsewhere
      {memory after : ListMemory}
      {lists : ListMap}
      (reached : ListsReach memory lists)
      (same :
        ∀ head node, lists.Owns List.cons head node →
          after.cell node = memory.cell node) :
      ListsReach after lists
  | operate
      {memory after : ListMemory}
      {lists : ListMap}
      {operation : ListOp}
      (reached : ListsReach memory lists)
      (allowed : operation.Allowed memory lists)
      (returned : operation.program.Returns memory () after) :
      ListsReach after (operation.apply lists)

/-- What is known about the memory of live lists. -/
structure HoldsSequences
    (memory : ListMemory)
    (lists : ListMap) : Prop where
  ring :
    ∀ head items, lists head = some items → Ring memory head items
  neighbours :
    ∀ head items, lists head = some items →
      ∀ node ∈ head :: items, ∃ following before,
        memory.cell node = some ⟨following, before⟩ ∧
          (memory.cell following).map ListHead.prev = some node ∧
          (memory.cell before).map ListHead.next = some node
  disjoint :
    ∀ one items other others,
      lists one = some items → lists other = some others →
        one ≠ other → List.Disjoint (one :: items) (other :: others)
  isEmpty :
    ∀ head items, lists head = some items →
      (listEmpty head).Ensures memory fun value after =>
        after = memory ∧ value = decide (items = [])
  isSingular :
    ∀ head items, lists head = some items →
      (listIsSingular head).Ensures memory fun value after =>
        after = memory ∧ value = decide (items.length = 1)
  isLast :
    ∀ head items, lists head = some items → ∀ entry ∈ items,
      (listIsLast entry head).Ensures memory fun value after =>
        after = memory ∧ value = decide (items.getLast? = some entry)
  length :
    ∀ head items, lists head = some items →
      (listLength head).Ensures memory fun value after =>
        after = memory ∧ value.toNat = items.length

/-- A memory that refines sequences holds them. -/
theorem Refines.sequencesHeld
    (refines : Refines memory lists) :
    HoldsSequences memory lists where
  ring := refines.holds
  neighbours head items isList _ isNode :=
    (refines.holds head items isList).exists_neighbours isNode
  disjoint one items other others isList isOther different node inOne
      inOther :=
    different (refines.unique one other node ⟨items, isList, inOne⟩
      ⟨others, isOther, inOther⟩)
  isEmpty head items isList :=
    (refines.holds head items isList).ensures_listEmpty
  isSingular head items isList :=
    (refines.holds head items isList).ensures_listIsSingular
  isLast head items isList _ isEntry :=
    (refines.holds head items isList).ensures_listIsLast isEntry
  length head items isList :=
    (refines.holds head items isList).ensures_listLength

/-- The invariant of the runs. -/
theorem ListsReach.refines
    (reached : ListsReach memory lists) :
    Refines memory lists := by
  induction reached with
  | start =>
      exact ⟨by simp [SequenceMap.empty], by simp [Owns, SequenceMap.empty]⟩
  | @elsewhere memory after lists reached same refines =>
      refine ⟨fun head items isList => ?_, refines.unique⟩
      refine (refines.holds head items isList).congr ?_
      intro node isNode
      exact same head node ⟨items, isList, isNode⟩
  | operate reached allowed returned refines =>
      exact (refines.operate allowed).of_returns returned

/--
After any run the memory holds the sequences that the operations on sequences
give, and every further call that is allowed returns.
-/
theorem ListsReach.holdsSequences
    (reached : ListsReach memory lists) :
    HoldsSequences memory lists ∧
      ∀ operation : ListOp, operation.Allowed memory lists →
        operation.program.Ensures memory fun _ after =>
          HoldsSequences after (operation.apply lists) := by
  refine ⟨reached.refines.sequencesHeld, fun operation allowed => ?_⟩
  refine (reached.refines.operate allowed).weaken ?_
  intro _ after refines
  exact refines.sequencesHeld

/-- A node that is in neither of two lists. -/
theorem fresh_two
    {one other node : Word}
    {items others : List Word}
    (allocated : Allocated memory node)
    (notOne : node ∉ one :: items)
    (notOther : node ∉ other :: others) :
    Fresh memory (two one items other others) node := by
  refine ⟨allocated, ?_⟩
  intro head nodes isList isNode
  obtain ⟨rfl, rfl⟩ | ⟨rfl, rfl⟩ := two_cases isList
  · exact absurd isNode notOne
  · exact absurd isNode notOther

/-- A second list is initialised. -/
theorem ListsReach.init_two
    {one other : Word}
    (reached : ListsReach memory (SequenceMap.empty.set one []))
    (allocated : Allocated memory other)
    (returned : (initListHead other).Returns memory () after) :
    ListsReach after (two one [] other []) := by
  refine @ListsReach.operate _ _ _ (.init other) reached
    ⟨allocated, ?_⟩ returned
  rintro ⟨key, items, isList, isItem⟩
  by_cases isOne : key = one
  · subst isOne
    obtain rfl := Option.some.inj (set_same.symm.trans isList)
    exact absurd isItem List.not_mem_nil
  · rw [set_of_ne isOne] at isList
    cases isList

/-- A node is added to the end of the first list. -/
theorem ListsReach.addTail_one
    {one other node : Word}
    {items others : List Word}
    (reached : ListsReach memory (two one items other others))
    (different : one ≠ other)
    (allocated : Allocated memory node)
    (notOne : node ∉ one :: items)
    (notOther : node ∉ other :: others)
    (returned : (listAddTail node one).Returns memory () after) :
    ListsReach after (two one (items ++ [node]) other others) := by
  have allowed :
      (ListOp.addTail node one).Allowed memory
        (two one items other others) :=
    ⟨fresh_two allocated notOne notOther, ⟨items, two_one different⟩,
      List.ne_of_not_mem_cons notOne⟩
  have added := reached.operate allowed returned
  rw [ListOp.apply, entries_of (two_one different),
    drop_two (List.ne_of_not_mem_cons notOne)
      (List.ne_of_not_mem_cons notOther),
    set_two_one different] at added
  exact added

/-- A node is added to the front of the second list. -/
theorem ListsReach.add_other
    {one other node : Word}
    {items others : List Word}
    (reached : ListsReach memory (two one items other others))
    (allocated : Allocated memory node)
    (notOne : node ∉ one :: items)
    (notOther : node ∉ other :: others)
    (returned : (listAdd node other).Returns memory () after) :
    ListsReach after (two one items other (node :: others)) := by
  have allowed :
      (ListOp.add node other).Allowed memory
        (two one items other others) :=
    ⟨fresh_two allocated notOne notOther, ⟨others, two_other⟩,
      List.ne_of_not_mem_cons notOther⟩
  have added := reached.operate allowed returned
  rw [ListOp.apply, entries_of two_other,
    drop_two (List.ne_of_not_mem_cons notOne)
      (List.ne_of_not_mem_cons notOther),
    set_two_other] at added
  exact added

end Runs

section Samples

/-- Nodes that are not part of a list. -/
def looseNodes : ListMemory :=
  .ofList
    [(8, ⟨0, 0⟩), (16, ⟨0, 0⟩), (24, ⟨0, 0⟩), (32, ⟨0, 0⟩), (40, ⟨0, 0⟩),
      (48, ⟨0, 0⟩), (56, ⟨0, 0⟩), (64, ⟨0, 0⟩)]

/-- Whether a node occupies memory. -/
def isAllocated (node : Word) : Program ListMemory Bool :=
  reads fun memory => some (memory.cell node).isSome

/--
Two lists get three and two entries.  The answers are the nodes that occupy
memory when they are needed.
-/
def buildLists : Program ListMemory (List Bool) := do
  initListHead 8
  let head ← isAllocated 16
  initListHead 16
  let first ← isAllocated 24
  listAddTail 24 8
  let second ← isAllocated 32
  listAddTail 32 8
  let third ← isAllocated 40
  listAddTail 40 8
  let fourth ← isAllocated 56
  listAdd 56 16
  let fifth ← isAllocated 48
  listAdd 48 16
  let free ← isAllocated 64
  pure [head, first, second, third, fourth, fifth, free]

/-- The lists after these calls. -/
def twoLists : ListMap :=
  two 8 [24, 32, 40] 16 [48, 56]

/-- The calls are a run. -/
theorem twoLists_reached :
    ∃ memory,
      ListsReach memory twoLists ∧
        Allocated memory 64 := by
  have returns :
      buildLists.Ensures looseNodes fun answers _ =>
        answers = [true, true, true, true, true, true, true] :=
    .of_exec 1 (by decide)
  simp only [buildLists, isAllocated, ensures_bind, ensures_reads,
    ensures_pure, Option.some.injEq, exists_eq_left', List.cons.injEq,
    Option.isSome_iff_exists, and_true] at returns
  obtain ⟨_, one, ranOne, _, two, ranTwo, _, three, ranThree, _, four,
    ranFour, _, five, ranFive, _, six, ranSix, _, memory, ranSeven,
    head, first, second, third, fourth, fifth, free⟩ := returns
  have unused : (ListOp.init 8).Allowed looseNodes SequenceMap.empty :=
    ⟨⟨⟨0, 0⟩, rfl⟩, by simp [SequenceMap.Entry, SequenceMap.empty]⟩
  have different : (8 : Word) ≠ 16 := by
    decide
  have empty :=
    (ListsReach.operate .start unused ranOne).init_two head ranTwo
  have shorter :=
    ((empty.addTail_one different first (by decide) (by decide)
      ranThree).addTail_one different second (by decide) (by decide)
        ranFour).addTail_one different third (by decide) (by decide)
          ranFive
  exact ⟨memory,
    (shorter.add_other fourth (by decide) (by decide) ranSix).add_other
      fifth (by decide) (by decide) ranSeven,
    free⟩

/--
An entry is moved from one list to the other, and the lists are spliced and cut
again.
-/
theorem ListsReach.holdsSequences_of_sample :
    ∃ memory spliced,
      ListsReach memory twoLists ∧
        Ring memory 8 [24, 32, 40] ∧
        Ring memory 16 [48, 56] ∧
        (listMove 32 16).Ensures memory
          (fun _ after =>
            Ring after 8 [24, 40] ∧ Ring after 16 [32, 48, 56]) ∧
        (listSpliceTailInit 16 8).Returns memory () spliced ∧
        Ring spliced 8 [24, 32, 40, 48, 56] ∧
        Ring spliced 16 [] ∧
        (listCutPosition 16 8 32).Ensures spliced fun _ after =>
          Ring after 16 [24, 32] ∧ Ring after 8 [40, 48, 56] := by
  obtain ⟨memory, reached, -⟩ := twoLists_reached
  obtain ⟨held, operates⟩ := ListsReach.holdsSequences reached
  have canMove : (ListOp.move 32 16).Allowed memory twoLists :=
    ⟨⟨8, [24, 32, 40], rfl, by decide⟩, [48, 56], rfl⟩
  have canSplice : (ListOp.spliceTailInit 16 8).Allowed memory twoLists :=
    ⟨⟨[48, 56], rfl⟩, ⟨[24, 32, 40], rfl⟩, by decide⟩
  obtain ⟨_, spliced, returned, heldSpliced⟩ := operates _ canSplice
  obtain ⟨-, operatesSpliced⟩ :=
    ListsReach.holdsSequences (reached.operate canSplice returned)
  have canCut :
      (ListOp.cutPosition 16 8 32).Allowed spliced
        ((ListOp.spliceTailInit 16 8).apply twoLists) :=
    ⟨rfl, by decide, [24, 32, 40, 48, 56], rfl, by decide⟩
  refine ⟨memory, spliced, reached, held.ring 8 _ rfl,
    held.ring 16 _ rfl, (operates _ canMove).weaken ?_, returned,
    heldSpliced.ring 8 _ rfl, heldSpliced.ring 16 _ rfl,
    (operatesSpliced _ canCut).weaken ?_⟩
  · intro _ after moved
    exact ⟨moved.ring 8 _ (by decide), moved.ring 16 _ (by decide)⟩
  · intro _ after cut
    exact ⟨cut.ring 16 _ (by decide), cut.ring 8 _ (by decide)⟩

end Samples

end LibKern.Lists
