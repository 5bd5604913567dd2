import LibKern.ListFrame

namespace LibKern.Lists

/-!
# The memory of lists is determined by their sequences

The pointers of a live list are determined by the sequence of its nodes.  Two
ways to the same sequences therefore end in the same memory, unless one of them
abandons a node.  In particular `__list_splice`, which rewires four pointers,
does what a loop does that moves every entry.
-/

open Program Wiring SequenceMap

section Canonical

variable {memory after : ListMemory}
variable {lists : ListMap}
variable {head node : Word}
variable {items : List Word}

/-- A node is determined by where it leads in both directions. -/
theorem cell_eq_of_wiring
    {following before : Word}
    (isNext : (wiring memory).forward node = some following)
    (isPrev : (wiring memory).backward node = some before) :
    memory.cell node = some ⟨following, before⟩ := by
  obtain ⟨content, found, rfl⟩ := Option.map_eq_some_iff.mp isNext
  obtain ⟨other, alsoFound, rfl⟩ := Option.map_eq_some_iff.mp isPrev
  obtain rfl : content = other :=
    Option.some.inj (found.symm.trans alsoFound)
  exact found

/-- The pointers of a list are determined by its sequence. -/
theorem Ring.cell_eq
    (ring : Ring memory head items)
    (other : Ring after head items)
    (isNode : node ∈ head :: items) :
    after.cell node = memory.cell node := by
  rcases List.mem_cons.mp isNode with rfl | isItem
  · have first := cell_eq_of_wiring ring.linked.forward_start
      (ring.linked.backward_stop (ring.allocated (.head _)).ne_null)
    have second := cell_eq_of_wiring other.linked.forward_start
      (other.linked.backward_stop (other.allocated (.head _)).ne_null)
    rw [first, second]
  · obtain ⟨front, back, rfl⟩ := List.append_of_mem isItem
    have first := cell_eq_of_wiring ring.neighbours.2 ring.neighbours.1
    have second := cell_eq_of_wiring other.neighbours.2 other.neighbours.1
    rw [first, second]

/-- Two memories with the same lists that agree elsewhere are the same. -/
theorem Refines.memory_eq
    (refines : Refines memory lists)
    (other : Refines after lists)
    (same :
      ∀ node, ¬Owned lists node → after.cell node = memory.cell node) :
    after = memory := by
  refine Memory.ext (funext fun node => ?_)
  by_cases owned : Owned lists node
  · obtain ⟨head, items, isList, isNode⟩ := owned
    exact (refines.holds head items isList).cell_eq
      (other.holds head items isList) isNode
  · exact same node owned

end Canonical

section Tidy

variable {memory after : ListMemory}
variable {lists : ListMap}
variable {head node : Word}
variable {items : List Word}

/--
The calls after which every node that was used is part of a live list.  The
others leave the deleted, replaced or spliced node behind, or the entries of a
list that is initialised again.
-/
def ListOp.Tidy (lists : ListMap) : ListOp → Prop
  | .init list => lists.entries list = []
  | .del _ | .replace _ _ | .splice _ _ | .spliceTail _ _ => False
  | _ => True

/-- A list gets new items and loses none. -/
theorem owned_set_self
    (isNode : node ∈ head :: items) :
    Owned (lists.set head items) node :=
  ⟨head, items, set_same, isNode⟩

theorem owned_set_of_ne
    {other : Word}
    {others : List Word}
    (different : other ≠ head)
    (isList : lists other = some others)
    (isNode : node ∈ other :: others) :
    Owned (lists.set head items) node :=
  ⟨other, others, (set_of_ne different).trans isList, isNode⟩

/-- A node is still in a list unless it was in the one that is set. -/
theorem Owned.set
    (owned : Owned lists node)
    (all : node ∈ lists.entries head → Owned (lists.set head items) node) :
    Owned (lists.set head items) node := by
  obtain ⟨other, others, isList, isNode⟩ := owned
  by_cases same : other = head
  · subst same
    rcases List.mem_cons.mp isNode with rfl | isItem
    · exact owned_set_self (.head _)
    · rw [entries_of isList] at all
      exact all isItem
  · exact owned_set_of_ne same isList isNode

/-- A node is still in a list unless it is the one that is taken. -/
theorem Owned.drop
    {new : Word}
    (fresh : Fresh memory lists new)
    (owned : Owned lists node)
    (different : node ≠ new) :
    Owned (lists.drop new) node := by
  obtain ⟨other, others, isList, isNode⟩ := owned
  refine ⟨other, others, ?_, isNode⟩
  rw [drop_of_ne, isList]
  rintro rfl
  obtain ⟨-, rfl⟩ := fresh.unused other others isList (.head _)
  exact different (List.mem_singleton.mp isNode)

/-- Only one node leaves its list. -/
theorem owned_without
    {entry : Word}
    (owned : Owned lists node)
    (different : node ≠ entry) :
    Owned (lists.without entry) node := by
  obtain ⟨other, others, isList, isNode⟩ := owned
  refine ⟨other, _, without_eq_filter isList, ?_⟩
  rcases List.mem_cons.mp isNode with rfl | isItem
  · exact .head _
  · exact .tail _ (List.mem_filter.mpr ⟨isItem, by simpa using different⟩)

theorem entries_drop
    {new : Word}
    (different : head ≠ new) :
    (lists.drop new).entries head = lists.entries head := by
  rw [SequenceMap.entries, SequenceMap.entries, drop_of_ne different]

theorem entries_set_of_ne
    {list : Word}
    {others : List Word}
    (different : head ≠ list) :
    (lists.set list others).entries head = lists.entries head := by
  rw [SequenceMap.entries, SequenceMap.entries, set_of_ne different]

/-- A fresh node and all others are in a list when it is added. -/
theorem owned_add
    {new : Word}
    (fresh : Fresh memory lists new)
    (different : new ≠ head)
    (all : ∀ item ∈ new :: lists.entries head, item ∈ items)
    (used : Owned lists node ∨ node = new) :
    Owned ((lists.drop new).set head items) node := by
  by_cases isNew : node = new
  · subst isNew
    exact owned_set_self (.tail _ (all node (.head _)))
  · refine Owned.set ((used.resolve_right isNew).drop fresh isNew) ?_
    intro isItem
    rw [entries_drop different.symm] at isItem
    exact owned_set_self (.tail _ (all node (.tail _ isItem)))

/-- All nodes are in a list when an entry is moved. -/
theorem owned_move
    {entry : Word}
    (all : ∀ item ∈ entry :: (lists.without entry).entries head,
      item ∈ items)
    (owned : Owned lists node) :
    Owned ((lists.without entry).set head items) node := by
  by_cases isEntry : node = entry
  · subst isEntry
    exact owned_set_self (.tail _ (all node (.head _)))
  · refine Owned.set (owned_without owned isEntry) ?_
    intro isItem
    exact owned_set_self (.tail _ (all node (.tail _ isItem)))

/-- All nodes are in a list when the entries of one are given to another. -/
theorem owned_splice
    {list : Word}
    (different : list ≠ head)
    (all : ∀ item ∈ lists.entries list ++ lists.entries head,
      item ∈ items)
    (owned : Owned lists node) :
    Owned ((lists.set list []).set head items) node := by
  by_cases isItem : node ∈ lists.entries list ++ lists.entries head
  · exact owned_set_self (.tail _ (all node isItem))
  · rw [List.mem_append, not_or] at isItem
    refine Owned.set (owned.set fun inList => ?_) fun inHead => ?_
    · exact absurd inList isItem.1
    · rw [entries_set_of_ne different.symm] at inHead
      exact absurd inHead isItem.2

/-- An entry is not the head of a list. -/
theorem Refines.entries_of_entry
    {entry : Word}
    (refines : Refines memory lists)
    (isEntry : lists.Entry entry) :
    lists entry = none := by
  obtain ⟨other, others, isList, inside⟩ := isEntry
  cases isHead : lists entry with
  | none =>
      rfl
  | some items =>
      obtain rfl :=
        refines.unique entry other entry ⟨items, isHead, .head _⟩
          ⟨others, isList, .tail _ inside⟩
      have distinct := (refines.holds entry others isList).distinct
      exact absurd inside (List.nodup_cons.mp distinct).1

/-- All nodes are in a list when an entry becomes an empty list. -/
theorem owned_delInit
    {entry : Word}
    (refines : Refines memory lists)
    (isEntry : lists.Entry entry)
    (owned : Owned lists node) :
    Owned ((lists.without entry).set entry []) node := by
  by_cases isNode : node = entry
  · subst isNode
    exact owned_set_self (.head _)
  · refine Owned.set (owned_without owned isNode) ?_
    have notLive : (lists.without entry) entry = none := by
      rw [without, substituted, refines.entries_of_entry isEntry]
      rfl
    rw [SequenceMap.entries, notLive]
    intro isItem
    exact absurd isItem List.not_mem_nil

/-- All nodes but the replaced one are in a list, and so is the new one. -/
theorem owned_replaced
    {old new : Word}
    (isEntry : lists.Entry old)
    (used : Owned lists node ∨ node = new)
    (different : node ≠ old) :
    Owned (lists.replaced old new) node := by
  by_cases isNew : node = new
  · subst isNew
    obtain ⟨other, others, isList, inside⟩ := isEntry
    refine ⟨other, _, congrArg (Option.map _) isList, .tail _ ?_⟩
    exact List.mem_flatMap.mpr ⟨old, inside, by simp⟩
  · obtain ⟨other, others, isList, isNode⟩ := used.resolve_right isNew
    refine ⟨other, _, congrArg (Option.map _) isList, ?_⟩
    rcases List.mem_cons.mp isNode with rfl | isItem
    · exact .head _
    · exact .tail _
        (List.mem_flatMap.mpr ⟨node, isItem, by simp [different]⟩)

theorem owned_replaceInit
    {old new : Word}
    (refines : Refines memory lists)
    (isEntry : lists.Entry old)
    (fresh : Fresh memory lists new)
    (used : Owned lists node ∨ node = new) :
    Owned (((lists.drop new).replaced old new).set old []) node := by
  obtain ⟨other, others, isList, inside⟩ := isEntry
  have stillEntry : (lists.drop new).Entry old :=
    ⟨other, others, fresh.drop_of_mem isList inside, inside⟩
  have notLive : ((lists.drop new).replaced old new) old = none := by
    rw [replaced, substituted,
      (refines.drop new).entries_of_entry stillEntry]
    rfl
  by_cases isOld : node = old
  · subst isOld
    exact owned_set_self (.head _)
  · refine Owned.set (owned_replaced stillEntry ?_ isOld) ?_
    · by_cases isNew : node = new
      · exact .inr isNew
      · exact .inl ((used.resolve_right isNew).drop fresh isNew)
    · rw [SequenceMap.entries, notLive]
      intro isItem
      exact absurd isItem List.not_mem_nil

/-- All nodes are in a list when a part of one is cut off. -/
theorem owned_cut
    {list : Word}
    (cut : Nat)
    (isTarget : lists list = some [])
    (different : list ≠ head)
    (owned : Owned lists node) :
    Owned
      ((lists.set list ((lists.entries head).take cut)).set head
        ((lists.entries head).drop cut)) node := by
  by_cases isItem : node ∈ lists.entries head
  · rw [← List.take_append_drop cut (lists.entries head),
      List.mem_append] at isItem
    rcases isItem with inFront | inBack
    · exact owned_set_of_ne different set_same (.tail _ inFront)
    · exact owned_set_self (.tail _ inBack)
  · refine Owned.set (owned.set fun inList => ?_) fun inHead => ?_
    · rw [entries_of isTarget] at inList
      exact absurd inList List.not_mem_nil
    · rw [entries_set_of_ne different.symm] at inHead
      exact absurd inHead isItem

/-- After a tidy call all nodes that were used are in a list. -/
theorem ListOp.Tidy.owned
    {operation : ListOp}
    (tidy : operation.Tidy lists)
    (refines : Refines memory lists)
    (allowed : operation.Allowed memory lists)
    (used : Owned lists node ∨ operation.fresh = some node) :
    Owned (operation.apply lists) node := by
  cases operation with
  | init list =>
      have empty : lists.entries list = [] := tidy
      rcases used with owned | isFresh
      · refine owned.set fun isItem => ?_
        rw [empty] at isItem
        exact absurd isItem List.not_mem_nil
      · obtain rfl := Option.some.inj isFresh
        exact owned_set_self (.head _)
  | add new head =>
      refine owned_add allowed.1 allowed.2.2 (fun _ isItem => isItem) ?_
      exact used.imp_right fun isFresh => (Option.some.inj isFresh).symm
  | addTail new head =>
      refine owned_add allowed.1 allowed.2.2 ?_ ?_
      · intro item isItem
        simpa [or_comm] using isItem
      · exact used.imp_right fun isFresh => (Option.some.inj isFresh).symm
  | delInit entry =>
      exact owned_delInit refines allowed (used.resolve_right nofun)
  | replaceInit old new =>
      refine owned_replaceInit refines allowed.1 allowed.2 ?_
      exact used.imp_right fun isFresh => (Option.some.inj isFresh).symm
  | move entry head =>
      exact owned_move (fun _ isItem => isItem) (used.resolve_right nofun)
  | moveTail entry head =>
      refine owned_move ?_ (used.resolve_right nofun)
      intro item isItem
      simpa [or_comm] using isItem
  | rotateLeft head =>
      refine Owned.set (used.resolve_right nofun) fun isItem => ?_
      exact owned_set_self (.tail _ (List.mem_rotate.mpr isItem))
  | spliceInit list head =>
      exact owned_splice allowed.2.2 (fun _ isItem => isItem)
        (used.resolve_right nofun)
  | spliceTailInit list head =>
      refine owned_splice allowed.2.2 ?_ (used.resolve_right nofun)
      intro item isItem
      simpa [or_comm] using isItem
  | cutPosition list head entry =>
      have owned := used.resolve_right nofun
      rw [ListOp.apply]
      split
      · rw [set_eq_self allowed.1]
        exact owned
      · exact owned_cut _ allowed.1 allowed.2.1 owned
  | _ =>
      exact absurd tidy id

end Tidy

section Calls

variable {memory after otherAfter : ListMemory}
variable {lists now : ListMap}
variable {calls otherCalls : List ListOp}

/-- A sequence of tidy calls, the memory after them, and the lists. -/
inductive TidyCalls
    (memory : ListMemory)
    (lists : ListMap) :
    List ListOp → ListMemory → ListMap → Prop where
  | done : TidyCalls memory lists [] memory lists
  | call
      {calls : List ListOp}
      {between after : ListMemory}
      {now : ListMap}
      {operation : ListOp} :
      TidyCalls memory lists calls between now →
      operation.Allowed between now →
      operation.Tidy now →
      operation.program.Returns between () after →
      TidyCalls memory lists (calls ++ [operation]) after
        (operation.apply now)

/-- Tidy calls change only nodes that are in a list at the end. -/
theorem TidyCalls.kept
    (refines : Refines memory lists)
    (called : TidyCalls memory lists calls after now) :
    Refines after now ∧
      ∀ node, ¬Owned now node → after.cell node = memory.cell node := by
  induction called with
  | done =>
      exact ⟨refines, fun _ _ => rfl⟩
  | call _ allowed tidy returned inductionHypothesis =>
      obtain ⟨betweenRefines, kept⟩ := inductionHypothesis
      obtain ⟨afterRefines, within⟩ :=
        (betweenRefines.operate_within allowed).of_returns returned
      refine ⟨afterRefines, ?_⟩
      intro node notOwned
      have notBefore : ¬Owned _ node := fun owned =>
        notOwned (tidy.owned betweenRefines allowed (.inl owned))
      have notFresh : _ ≠ some node := fun isFresh =>
        notOwned (tidy.owned betweenRefines allowed (.inr isFresh))
      rw [within node notBefore notFresh, kept node notBefore]

/-- A call that is allowed extends a run and keeps all other nodes. -/
theorem ListsReach.call
    {operation : ListOp}
    (reached : ListsReach memory lists)
    (allowed : operation.Allowed memory lists) :
    ∃ after,
      operation.program.Returns memory () after ∧
        ListsReach after (operation.apply lists) ∧
        ∀ node, ¬Owned lists node → operation.fresh ≠ some node →
          after.cell node = memory.cell node := by
  obtain ⟨_, after, returned, -, kept⟩ :=
    reached.refines.operate_within allowed
  exact ⟨after, returned, reached.operate allowed returned, kept⟩

/--
From every memory that a run reaches, two sequences of calls that leave no node
behind and lead to the same sequences of nodes end in the same memory, pointer
for pointer.
-/
theorem tidyCalls_determine_memory
    (reached : ListsReach memory lists)
    (called : TidyCalls memory lists calls after now)
    (otherCalled : TidyCalls memory lists otherCalls otherAfter now) :
    after = otherAfter := by
  obtain ⟨afterRefines, kept⟩ := called.kept reached.refines
  obtain ⟨otherRefines, otherKept⟩ := otherCalled.kept reached.refines
  refine otherRefines.memory_eq afterRefines ?_
  intro node notOwned
  rw [kept node notOwned, otherKept node notOwned]

/--
A node is added to the second list, which is then spliced to the end of the
first one.  Or the node is added to the first list, and the entries of the
second one are moved there.
-/
theorem tidyCalls_determine_memory_of_sample :
    ∃ memory added appended moved after,
      ListsReach memory twoLists ∧
        (listAdd 64 16).Returns memory () added ∧
        (listSpliceTailInit 16 8).Returns added () after ∧
        (listAddTail 64 8).Returns memory () appended ∧
        (listMoveTail 48 8).Returns appended () moved ∧
        (listMoveTail 56 8).Returns moved () after := by
  obtain ⟨memory, reached, allocated⟩ := twoLists_reached
  have fresh : Fresh memory twoLists 64 :=
    fresh_two allocated (by decide) (by decide)
  have canAdd : (ListOp.add 64 16).Allowed memory twoLists :=
    ⟨fresh, ⟨[48, 56], rfl⟩, by decide⟩
  obtain ⟨added, ranAdd, addedReached, -⟩ := reached.call canAdd
  have canSplice :
      (ListOp.spliceTailInit 16 8).Allowed added
        ((ListOp.add 64 16).apply twoLists) :=
    ⟨⟨[64, 48, 56], rfl⟩, ⟨[24, 32, 40], rfl⟩, by decide⟩
  obtain ⟨spliced, ranSplice, -⟩ := addedReached.call canSplice
  have canAppend : (ListOp.addTail 64 8).Allowed memory twoLists :=
    ⟨fresh, ⟨[24, 32, 40], rfl⟩, by decide⟩
  obtain ⟨appended, ranAppend, appendedReached, -⟩ :=
    reached.call canAppend
  have canMove :
      (ListOp.moveTail 48 8).Allowed appended
        ((ListOp.addTail 64 8).apply twoLists) :=
    ⟨⟨16, [48, 56], rfl, by decide⟩, [24, 32, 40, 64], rfl⟩
  obtain ⟨moved, ranMove, movedReached, -⟩ := appendedReached.call canMove
  have canMoveLast :
      (ListOp.moveTail 56 8).Allowed moved
        ((ListOp.moveTail 48 8).apply
          ((ListOp.addTail 64 8).apply twoLists)) :=
    ⟨⟨16, [56], rfl, by decide⟩, [24, 32, 40, 64, 48], rfl⟩
  obtain ⟨movedLast, ranMoveLast, -⟩ := movedReached.call canMoveLast
  have first :
      TidyCalls memory twoLists [.add 64 16, .spliceTailInit 16 8] spliced
        ((ListOp.spliceTailInit 16 8).apply
          ((ListOp.add 64 16).apply twoLists)) :=
    .call (.call .done canAdd trivial ranAdd) canSplice trivial ranSplice
  have second :
      TidyCalls memory twoLists
        [.addTail 64 8, .moveTail 48 8, .moveTail 56 8] movedLast
        ((ListOp.moveTail 56 8).apply
          ((ListOp.moveTail 48 8).apply
            ((ListOp.addTail 64 8).apply twoLists))) :=
    .call
      (.call (.call .done canAppend trivial ranAppend) canMove trivial
        ranMove)
      canMoveLast trivial ranMoveLast
  have sameLists :
      (ListOp.moveTail 56 8).apply
          ((ListOp.moveTail 48 8).apply
            ((ListOp.addTail 64 8).apply twoLists)) =
        (ListOp.spliceTailInit 16 8).apply
          ((ListOp.add 64 16).apply twoLists) := by
    simp [twoLists, ListOp.apply, entries, drop_two, set_two_one,
      set_two_other, without, substituted_two]
  rw [sameLists] at second
  obtain rfl := tidyCalls_determine_memory reached first second
  exact ⟨memory, added, appended, moved, spliced, reached, ranAdd,
    ranSplice, ranAppend, ranMove, ranMoveLast⟩

end Calls

section Splice

variable {memory : ListMemory}
variable {lists : ListMap}
variable {list head node : Word}
variable {items others front back : List Word}

/-- No node belongs to two of the lists. -/
def Separate (lists : ListMap) : Prop :=
  lists.Held List.cons fun _ _ => True

/-- The lists when a part of one was given to another. -/
theorem Refines.separate_moved
    (refines : Refines memory lists)
    (isSource : lists list = some items)
    (isTarget : lists head = some others)
    (different : list ≠ head)
    {left moved gained : List Word}
    (parts : items.Perm (moved ++ left))
    (isGained : ∀ node ∈ gained, node ∈ moved ∨ node ∈ others) :
    Separate ((lists.set list left).set head gained) := by
  have distinct := (refines.holds list items isSource).distinct
  have distinctParts : (moved ++ left).Nodup :=
    parts.nodup_iff.mp (List.nodup_cons.mp distinct).2
  have separate : Separate lists := ⟨fun _ _ _ => trivial, refines.unique⟩
  have leftOwned :
      ∀ node ∈ list :: left, lists.Owns List.cons list node := by
    intro node isNode
    refine ⟨items, isSource, ?_⟩
    rcases List.mem_cons.mp isNode with rfl | isLeft
    · exact .head _
    · exact .tail _ (parts.mem_iff.mpr (List.mem_append_right _ isLeft))
  have cut : Separate (lists.set list left) :=
    Held.set separate trivial fun node isNode =>
      .inl (leftOwned node isNode)
  refine Held.set cut trivial ?_
  intro node isNode
  have stillTarget : (lists.set list left) head = some others := by
    rw [set_of_ne different.symm, isTarget]
  rcases List.mem_cons.mp isNode with rfl | isItem
  · exact .inl ⟨others, stillTarget, .head _⟩
  · rcases isGained node isItem with isMoved | isOther
    · refine .inr fun key owns => ?_
      have wasItem : lists.Owns List.cons list node :=
        ⟨items, isSource,
          .tail _ (parts.mem_iff.mpr (List.mem_append_left _ isMoved))⟩
      rcases owns_set.mp owns with ⟨rfl, isLeft⟩ | ⟨notList, wasOwned⟩
      · rcases List.mem_cons.mp isLeft with rfl | inLeft
        · exact (List.nodup_cons.mp distinct).1
            (parts.mem_iff.mpr (List.mem_append_left _ isMoved))
        · exact (List.nodup_append.mp distinctParts).2.2 node isMoved node
            inLeft rfl
      · exact notList (refines.unique key list node wasOwned wasItem)
    · exact .inl ⟨others, stillTarget, .tail _ isOther⟩

/-- Moving an entry takes it from its list. -/
theorem Separate.without_moved
    (separate :
      Separate ((lists.set list (front ++ node :: back)).set head others))
    (different : list ≠ head)
    (distinct : (front ++ node :: back).Nodup) :
    ((lists.set list (front ++ node :: back)).set head others).without
        node =
      (lists.set list (front ++ back)).set head others := by
  have isList :
      ((lists.set list (front ++ node :: back)).set head others) list =
        some (front ++ node :: back) := by
    rw [set_of_ne different, set_same]
  rw [without,
    Held.substituted_eq separate (fun _ _ _ => List.mem_cons_of_mem _)
      isList distinct, List.nil_append, set_comm different.symm, set_set]

/-- Moving all entries to the end of a list splices the lists. -/
theorem Refines.foldl_moveTail
    (refines : Refines memory lists)
    (isSource : lists list = some items)
    (isTarget : lists head = some others)
    (different : list ≠ head) :
    items.foldl (removedNode fun _ => some (.moveTail head)) lists =
      (ListOp.spliceTailInit list head).apply lists := by
  have distinct :=
    (List.nodup_cons.mp (refines.holds list items isSource).distinct).2
  have rounds
      {done rest : List Word}
      (isItems : done ++ rest = items) :
      rest.foldl (removedNode fun _ => some (.moveTail head))
          ((lists.set list rest).set head (others ++ done)) =
        (lists.set list []).set head (others ++ items) := by
    induction rest generalizing done with
    | nil =>
        rw [List.foldl_nil, ← isItems, List.append_nil]
    | cons node rest inductionHypothesis =>
        have separate :
            Separate
              ((lists.set list ([] ++ node :: rest)).set head
                (others ++ done)) := by
          refine refines.separate_moved isSource isTarget different
            (.of_eq isItems.symm) ?_
          intro node isGained
          exact (List.mem_append.mp isGained).symm
        have distinctRest : ([] ++ node :: rest).Nodup := by
          rw [← isItems] at distinct
          exact distinct.of_append_right
        have moves :
            removedNode (fun _ => some (.moveTail head))
                ((lists.set list (node :: rest)).set head
                  (others ++ done)) node =
              (lists.set list rest).set head
                (others ++ (done ++ [node])) := by
          have taken :=
            separate.without_moved different distinctRest
          rw [List.nil_append, List.nil_append] at taken
          simp only [removedNode, Removal.operation, ListOp.apply]
          rw [taken, entries_of set_same, set_set, List.append_assoc]
        rw [List.foldl_cons, moves]
        exact inductionHypothesis (by simp [← isItems])
  have all := @rounds [] items rfl
  rw [set_eq_self isSource, List.append_nil, set_eq_self isTarget] at all
  rw [all, ListOp.apply, entries_of isSource, entries_of isTarget]

/-- Moving all entries to the front of a list splices the lists. -/
theorem Refines.foldl_move
    (refines : Refines memory lists)
    (isSource : lists list = some items)
    (isTarget : lists head = some others)
    (different : list ≠ head) :
    items.reverse.foldl (removedNode fun _ => some (.move head)) lists =
      (ListOp.spliceInit list head).apply lists := by
  have distinct :=
    (List.nodup_cons.mp (refines.holds list items isSource).distinct).2
  have rounds
      {done rest : List Word}
      (isItems : rest.reverse ++ done = items) :
      rest.foldl (removedNode fun _ => some (.move head))
          ((lists.set list rest.reverse).set head (done ++ others)) =
        (lists.set list []).set head (items ++ others) := by
    induction rest generalizing done with
    | nil =>
        rw [List.foldl_nil, ← isItems, List.reverse_nil, List.nil_append]
    | cons node rest inductionHypothesis =>
        have separate :
            Separate
              ((lists.set list (rest.reverse ++ [node])).set head
                (done ++ others)) := by
          have parts :
              items.Perm (done ++ (rest.reverse ++ [node])) := by
            rw [← isItems, List.reverse_cons]
            exact List.perm_append_comm
          exact refines.separate_moved isSource isTarget different parts
            fun _ => List.mem_append.mp
        have distinctRest : (rest.reverse ++ [node]).Nodup := by
          rw [← isItems, List.reverse_cons] at distinct
          exact distinct.of_append_left
        have moves :
            removedNode (fun _ => some (.move head))
                ((lists.set list (node :: rest).reverse).set head
                  (done ++ others)) node =
              (lists.set list rest.reverse).set head
                ((node :: done) ++ others) := by
          have taken :=
            separate.without_moved different distinctRest
          rw [List.append_nil] at taken
          simp only [removedNode, Removal.operation, ListOp.apply,
            List.reverse_cons]
          rw [taken, entries_of set_same, set_set, List.cons_append]
        rw [List.foldl_cons, moves]
        exact inductionHypothesis (by simp [← isItems])
  have all := @rounds [] items.reverse (by simp)
  rw [List.reverse_reverse, set_eq_self isSource, List.nil_append,
    set_eq_self isTarget] at all
  rw [all, ListOp.apply, entries_of isSource, entries_of isTarget]

/-- A loop that ends with these lists writes only to nodes of lists. -/
theorem Refines.ensures_loop_within
    {now : ListMap}
    {program : Program ListMemory (List Word)}
    [program.Follows (Memory.Framed (Owned lists) memory)]
    {order : List Word}
    (refines : Refines memory lists)
    (ensured :
      ∀ part, Refines part lists →
        program.Ensures part fun visited after =>
          visited = order ∧ Refines after now) :
    program.Ensures memory fun visited after =>
      visited = order ∧ Refines after now ∧
        ∀ node, ¬Owned lists node →
          after.cell node = memory.cell node := by
  have within :
      program.Ensures memory fun visited after =>
        (∃ reached, Refines after reached ∧
          (visited = order ∧ reached = now)) ∧
          ∀ node, ¬Owned lists node →
            after.cell node = memory.cell node := by
    refine Refines.ensures_within
      (fun node => refines.allocated_of_owned) ?_
    intro part same
    refine (ensured part (refines.congr same)).weaken ?_
    intro visited after result
    exact ⟨now, result.2, result.1, rfl⟩
  refine within.weaken ?_
  intro visited after result
  obtain ⟨⟨_, reached, rfl, rfl⟩, kept⟩ := result
  exact ⟨rfl, reached, kept⟩

/-- A loop and a call that lead to the same lists end in the same memory. -/
theorem Refines.same_memory
    {operation : ListOp}
    {program : Program ListMemory (List Word)}
    {order : List Word}
    (refines : Refines memory lists)
    (allowed : operation.Allowed memory lists)
    (tidy : operation.Tidy lists)
    (notFresh : operation.fresh = none)
    (loops :
      program.Ensures memory fun visited after =>
        visited = order ∧ Refines after (operation.apply lists) ∧
          ∀ node, ¬Owned lists node →
            after.cell node = memory.cell node) :
    ∃ after,
      operation.program.Returns memory () after ∧
        program.Returns memory order after := by
  obtain ⟨_, called, returned, calledRefines, kept⟩ :=
    refines.operate_within allowed
  obtain ⟨_, looped, returnedLoop, rfl, loopedRefines, loopKept⟩ := loops
  refine ⟨called, returned, ?_⟩
  have same : looped = called := by
    refine calledRefines.memory_eq loopedRefines ?_
    intro node notOwned
    have notBefore : ¬Owned lists node := fun owned =>
      notOwned (tidy.owned refines allowed (.inl owned))
    rw [loopKept node notBefore, kept node notBefore (by simp [notFresh])]
  rw [← same]
  exact returnedLoop

/--
In every memory that a run reaches and for every two different live lists,
`list_splice_tail_init` ends in the same memory as the loop that visits the
entries of the one list with `list_for_each_safe` and moves each of them with
`list_move_tail` to the other, and `list_splice_init` in the same memory as the
loop that visits them backwards with `list_for_each_prev_safe` and moves each of
them with `list_move`.
-/
theorem splices_are_loops_of_moves
    (reached : ListsReach memory lists)
    (isSource : lists list = some items)
    (live : lists.Live head)
    (different : list ≠ head) :
    (∃ after,
      (listSpliceTailInit list head).Returns memory () after ∧
        (listForEachSafe list
          (visitNode fun _ => some (.moveTail head)) []).Returns memory
            items after) ∧
      ∃ after,
        (listSpliceInit list head).Returns memory () after ∧
          (listForEachPrevSafe list
            (visitNode fun _ => some (.move head)) []).Returns memory
              items.reverse after := by
  have refines := reached.refines
  obtain ⟨others, isTarget⟩ := live
  have leavesTail :
      ∀ node ∈ items, ∀ removal,
        some (Removal.moveTail head) = some removal →
          removal.Leaves lists list := by
    rintro _ _ _ ⟨⟩
    exact ⟨different.symm, others, isTarget⟩
  have leaves :
      ∀ node ∈ items, ∀ removal,
        some (Removal.move head) = some removal →
          removal.Leaves lists list := by
    rintro _ _ _ ⟨⟩
    exact ⟨different.symm, others, isTarget⟩
  have allowed :
      lists.Live list ∧ lists.Live head ∧ list ≠ head :=
    ⟨⟨items, isSource⟩, ⟨others, isTarget⟩, different⟩
  constructor
  · refine @Refines.same_memory _ _ (.spliceTailInit list head) _ _ refines
      allowed trivial rfl (refines.ensures_loop_within ?_)
    intro part partRefines
    refine (partRefines.ensures_listForEachSafe isSource
      leavesTail).weaken ?_
    intro visited after result
    rw [← refines.foldl_moveTail isSource isTarget different]
    exact ⟨result.1, result.2.refines⟩
  · refine @Refines.same_memory _ _ (.spliceInit list head) _ _ refines
      allowed trivial rfl (refines.ensures_loop_within ?_)
    intro part partRefines
    refine (partRefines.ensures_listForEachPrevSafe isSource
      leaves).weaken ?_
    intro visited after result
    rw [← refines.foldl_move isSource isTarget different]
    exact ⟨result.1, result.2.refines⟩

/-- Three entries are spliced before or behind two others. -/
theorem splices_are_loops_of_moves_of_sample :
    ∃ memory after,
      ListsReach memory twoLists ∧
        (listSpliceTailInit 8 16).Returns memory () after ∧
        (listForEachSafe 8
          (visitNode fun _ => some (.moveTail 16)) []).Returns memory
            [24, 32, 40] after ∧
        Ring after 16 [48, 56, 24, 32, 40] ∧
        ∃ afterFront,
          (listSpliceInit 8 16).Returns memory () afterFront ∧
            (listForEachPrevSafe 8
              (visitNode fun _ => some (.move 16)) []).Returns memory
                [40, 32, 24] afterFront ∧
            Ring afterFront 16 [24, 32, 40, 48, 56] := by
  obtain ⟨memory, reached, -⟩ := twoLists_reached
  have isSource : twoLists 8 = some [24, 32, 40] :=
    rfl
  have different : (8 : Word) ≠ 16 := by
    decide
  obtain ⟨⟨after, spliced, looped⟩, afterFront, splicedFront,
    loopedFront⟩ :=
    splices_are_loops_of_moves reached isSource ⟨[48, 56], rfl⟩ different
  have allowed :
      twoLists.Live 8 ∧ twoLists.Live 16 ∧ (8 : Word) ≠ 16 :=
    ⟨⟨_, isSource⟩, ⟨[48, 56], rfl⟩, different⟩
  have refines :=
    (@Refines.operate _ _ (.spliceTailInit 8 16) reached.refines
      allowed).of_returns spliced
  have refinesFront :=
    (@Refines.operate _ _ (.spliceInit 8 16) reached.refines
      allowed).of_returns splicedFront
  exact ⟨memory, after, reached, spliced, looped,
    refines.holds 16 _ rfl, afterFront, splicedFront, loopedFront,
    refinesFront.holds 16 _ rfl⟩

end Splice

end LibKern.Lists
