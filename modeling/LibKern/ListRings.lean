import LibKern.LinkedChain
import LibKern.ListSource

namespace LibKern.Lists

/-!
# Rings of list nodes

A list is a ring of nodes that starts and ends at its head.  This module says
what the functions of `include/list.h` do to the rings they work on.
-/

open Program Wiring

/-- The pointers of a memory. -/
def wiring (memory : ListMemory) : Wiring Word Word where
  forward node := (memory.cell node).map ListHead.next
  backward node := (memory.cell node).map ListHead.prev

/-- A node that can be accessed. -/
def Allocated (memory : ListMemory) (node : Word) : Prop :=
  ∃ content, memory.cell node = some content

/-- The memory after an assignment to `next`. -/
def linkNext (node value : Word) (memory : ListMemory) : ListMemory :=
  memory.modify node (ListHead.withNext value)

/-- The memory after an assignment to `prev`. -/
def linkPrev (node value : Word) (memory : ListMemory) : ListMemory :=
  memory.modify node (ListHead.withPrev value)

section Access

variable {memory : ListMemory}
variable {node target value : Word}

theorem Allocated.ne_null
    (allocated : Allocated memory node) :
    node ≠ null := by
  obtain ⟨content, atNode⟩ := allocated
  exact Memory.ne_null atNode

theorem allocated_modify
    {change : ListHead → ListHead} :
    Allocated (memory.modify target change) node ↔
      Allocated memory node := by
  by_cases same : node = target
  · subst same
    simp [Allocated]
  · simp [Allocated, same]

@[simp] theorem allocated_linkNext :
    Allocated (linkNext target value memory) node ↔
      Allocated memory node :=
  allocated_modify

@[simp] theorem allocated_linkPrev :
    Allocated (linkPrev target value memory) node ↔
      Allocated memory node :=
  allocated_modify

theorem allocated_of_forward
    (leads : (wiring memory).forward node = some value) :
    Allocated memory node := by
  obtain ⟨content, atNode, -⟩ := Option.map_eq_some_iff.mp leads
  exact ⟨content, atNode⟩

/-- Where the slots lead after an assignment to `next`. -/
theorem forward_linkNext
    (allocated : Allocated memory target) :
    (wiring (linkNext target value memory)).forward node =
      if node = target then some value
      else (wiring memory).forward node := by
  obtain ⟨content, atTarget⟩ := allocated
  by_cases same : node = target
  · subst same
    simp [wiring, linkNext, atTarget, ListHead.withNext]
  · simp [wiring, linkNext, same]

@[simp] theorem forward_linkPrev :
    (wiring (linkPrev target value memory)).forward node =
      (wiring memory).forward node := by
  by_cases same : node = target
  · subst same
    cases found : memory.cell node <;>
      simp [wiring, linkPrev, found, ListHead.withPrev]
  · simp [wiring, linkPrev, same]

/-- Where the nodes point back to after an assignment to `prev`. -/
theorem backward_linkPrev
    (allocated : Allocated memory target) :
    (wiring (linkPrev target value memory)).backward node =
      if node = target then some value
      else (wiring memory).backward node := by
  obtain ⟨content, atTarget⟩ := allocated
  by_cases same : node = target
  · subst same
    simp [wiring, linkPrev, atTarget, ListHead.withPrev]
  · simp [wiring, linkPrev, same]

@[simp] theorem backward_linkNext :
    (wiring (linkNext target value memory)).backward node =
      (wiring memory).backward node := by
  by_cases same : node = target
  · subst same
    cases found : memory.cell node <;>
      simp [wiring, linkNext, found, ListHead.withNext]
  · simp [wiring, linkNext, same]

theorem ensures_next
    {post : Word → ListMemory → Prop} :
    (next node).Ensures memory post ↔
      ∃ value, (wiring memory).forward node = some value ∧
        post value memory := by
  rw [next, ensures_reads]
  rfl

theorem ensures_prev
    {post : Word → ListMemory → Prop} :
    (prev node).Ensures memory post ↔
      ∃ value, (wiring memory).backward node = some value ∧
        post value memory := by
  rw [prev, ensures_reads]
  rfl

private theorem ensures_store
    {change : ListHead → ListHead}
    {post : Unit → ListMemory → Prop} :
    (store node change).Ensures memory post ↔
      Allocated memory node ∧ post () (memory.modify node change) :=
  ensures_updates_map

theorem ensures_setNext
    {post : Unit → ListMemory → Prop} :
    (setNext node value).Ensures memory post ↔
      Allocated memory node ∧ post () (linkNext node value memory) :=
  ensures_store

theorem ensures_setPrev
    {post : Unit → ListMemory → Prop} :
    (setPrev node value).Ensures memory post ↔
      Allocated memory node ∧ post () (linkPrev node value memory) :=
  ensures_store

end Access

/-- Only these nodes were changed, and all nodes are still there. -/
structure Rewires
    (memory : ListMemory)
    (nodes : List Word)
    (after : ListMemory) : Prop where
  same : ∀ node ∉ nodes, after.cell node = memory.cell node
  allocated : ∀ node, Allocated memory node → Allocated after node

namespace Rewires

variable {memory between after : ListMemory}
variable {nodes : List Word}

theorem refl : Rewires memory nodes memory :=
  ⟨fun _ _ => rfl, fun _ allocated => allocated⟩

theorem trans
    (first : Rewires memory nodes between)
    (second : Rewires between nodes after) :
    Rewires memory nodes after where
  same node outside :=
    (second.same node outside).trans (first.same node outside)
  allocated node allocated :=
    second.allocated node (first.allocated node allocated)

theorem modify
    (rewires : Rewires memory nodes between)
    {target : Word}
    (isNode : target ∈ nodes)
    (change : ListHead → ListHead) :
    Rewires memory nodes (between.modify target change) where
  same node outside := by
    have different : node ≠ target := by
      rintro rfl
      exact outside isNode
    rw [Memory.modify_cell_of_ne _ _ different, rewires.same node outside]
  allocated node allocated :=
    allocated_modify.mpr (rewires.allocated node allocated)

theorem linkNext
    (rewires : Rewires memory nodes between)
    {target value : Word}
    (isNode : target ∈ nodes) :
    Rewires memory nodes (Lists.linkNext target value between) :=
  rewires.modify isNode _

theorem linkPrev
    (rewires : Rewires memory nodes between)
    {target value : Word}
    (isNode : target ∈ nodes) :
    Rewires memory nodes (Lists.linkPrev target value between) :=
  rewires.modify isNode _

theorem mono
    {more : List Word}
    (rewires : Rewires memory nodes after)
    (subset : nodes ⊆ more) :
    Rewires memory more after where
  same node outside := rewires.same node fun isNode => outside (subset isNode)
  allocated := rewires.allocated

end Rewires

/-- A list with this head and these entries. -/
structure Ring
    (memory : ListMemory)
    (head : Word)
    (entries : List Word) : Prop where
  distinct : (head :: entries).Nodup
  linked : Path id (wiring memory) head entries head

section Rings

variable {memory after : ListMemory}
variable {head node entry old new list : Word}
variable {entries front back items : List Word}

@[simp] theorem slots_id (start : Word) (nodes : List Word) :
    slots id start nodes = start :: nodes := by
  simp [slots]

/-- All nodes of a list can be accessed. -/
theorem Ring.allocated
    (ring : Ring memory head entries)
    (isNode : node ∈ head :: entries) :
    Allocated memory node := by
  obtain ⟨value, -, joins⟩ :=
    ring.linked.exists_joins (by simpa using isNode)
  exact allocated_of_forward joins.1

/-- A list only depends on its own nodes. -/
theorem Ring.congr
    (ring : Ring memory head entries)
    (same :
      ∀ one ∈ head :: entries, after.cell one = memory.cell one) :
    Ring after head entries := by
  refine ⟨ring.distinct, ring.linked.congr ?_ ?_⟩
  · intro one isSlot
    simp only [wiring, same one (by simpa using isSlot)]
  · intro one isNode _
    simp only [wiring, same one (by simpa [or_comm] using isNode)]

/-- The node before the back part of a list. -/
theorem lastSlot_mem (head : Word) (front : List Word) :
    lastSlot id head front ∈ head :: front := by
  simpa using @lastSlot_mem_slots _ _ id head front

/-- The nodes around a part of a list. -/
theorem Ring.around
    {removed : List Word}
    {before following : Word}
    (ring : Ring memory head (front ++ (removed ++ back)))
    (isBefore : lastSlot id head front = before)
    (isFollowing : back.headD head = following) :
    before ∈ head :: (front ++ back) ∧
      following ∈ head :: (front ++ back) ∧
      Allocated memory before ∧ Allocated memory following := by
  have inFront := isBefore ▸ lastSlot_mem head front
  have inBack := isFollowing ▸ @headD_mem _ head back
  refine ⟨by grind, by grind, ring.allocated ?_, ring.allocated ?_⟩
  · grind
  · grind

/-- A list of which one part is replaced. -/
theorem Ring.rejoin
    {removed middle : List Word}
    {before following : Word}
    (ring : Ring memory head (front ++ (removed ++ back)))
    (isBefore : lastSlot id head front = before)
    (isFollowing : back.headD head = following)
    (distinct : (head :: (front ++ (middle ++ back))).Nodup)
    (replaced : Path id (wiring after) before middle following)
    (sameNext :
      ∀ one ∈ head :: (front ++ back), one ≠ before →
        (wiring after).forward one = (wiring memory).forward one)
    (samePrev :
      ∀ one ∈ head :: (front ++ back), one ≠ following →
        (wiring after).backward one = (wiring memory).backward one) :
    Ring after head (front ++ (middle ++ back)) := by
  subst isBefore isFollowing
  have rest : (head :: (front ++ back)).Nodup := by
    refine distinct.sublist (.cons_cons _ (.append_left ?_ _))
    exact List.sublist_append_right _ _
  refine ⟨distinct, ring.linked.rejoin replaced ?_ ?_ ?_ ?_⟩
  · simpa using rest
  · rw [← List.append_assoc, List.nodup_append_comm]
    exact rest
  · simpa using sameNext
  · intro one isNode isInner _
    refine samePrev one ?_ isInner
    rw [← List.append_assoc] at isNode
    exact (List.mem_append.mp isNode).elim (List.mem_cons_of_mem _)
      fun isHead => by simp [List.mem_singleton.mp isHead]

/-- `__list_add` between two consecutive nodes of a list. -/
theorem Ring.ensures_listAddBetween
    {before following : Word}
    (ring : Ring memory head (front ++ back))
    (isBefore : lastSlot id head front = before)
    (isFollowing : back.headD head = following)
    (allocated : Allocated memory new)
    (fresh : new ∉ head :: (front ++ back)) :
    (listAddBetween new before following).Ensures memory fun _ after =>
      Ring after head (front ++ new :: back) ∧
        Rewires memory (new :: head :: (front ++ back)) after := by
  obtain ⟨beforeNode, followingNode, beforeAllocated,
    followingAllocated⟩ := @Ring.around _ _ _ _ [] _ _ ring isBefore
      isFollowing
  have notNew (one : Word) (isNode : one ∈ head :: (front ++ back)) :
      one ≠ new := by
    rintro rfl
    exact fresh isNode
  simp only [listAddBetween, ensures_bind, ensures_setNext,
    ensures_setPrev, allocated_linkNext, allocated_linkPrev, allocated,
    beforeAllocated, followingAllocated, true_and]
  refine ⟨@Ring.rejoin _ _ _ _ _ [] [new] _ _ ring isBefore isFollowing
    ?_ ?_ ?_ ?_, ?_⟩
  · have distinct := ring.distinct
    grind
  · simp [path_cons, path_nil, Joins, forward_linkNext,
      backward_linkPrev, allocated, beforeAllocated, followingAllocated,
      notNew following followingNode, (notNew before beforeNode).symm]
  · intro one isNode isInner
    simp [forward_linkNext, allocated, beforeAllocated, isInner,
      notNew one isNode]
  · intro one isNode isInner
    simp [backward_linkPrev, allocated, followingAllocated, isInner,
      notNew one isNode]
  · exact (((Rewires.refl.linkPrev (.tail _ followingNode)).linkNext
      (.head _)).linkPrev (.head _)).linkNext (.tail _ beforeNode)

/-- The neighbours of an entry. -/
theorem Ring.neighbours
    (ring : Ring memory head (front ++ entry :: back)) :
    (wiring memory).backward entry = some (lastSlot id head front) ∧
      (wiring memory).forward entry = some (back.headD head) := by
  obtain ⟨toEntry, fromEntry⟩ := path_append_cons.mp ring.linked
  have notNull : entry ≠ null := (ring.allocated (by simp)).ne_null
  exact ⟨toEntry.backward_stop notNull, fromEntry.forward_start⟩

/-- `__list_del(entry->prev, entry->next)` unlinks an entry. -/
theorem Ring.ensures_listUnlink
    (ring : Ring memory head (front ++ entry :: back)) :
    (listUnlink entry).Ensures memory fun _ after =>
      Ring after head (front ++ back) ∧
        Rewires memory (head :: (front ++ back)) after := by
  obtain ⟨isPrev, isNext⟩ := ring.neighbours
  generalize isBefore : lastSlot id head front = before at isPrev
  generalize isFollowing : back.headD head = following at isNext
  obtain ⟨beforeNode, followingNode, beforeAllocated,
    followingAllocated⟩ := @Ring.around _ _ _ _ [entry] _ _ ring isBefore
      isFollowing
  simp only [listUnlink, listDelBetween, ensures_bind, ensures_prev,
    ensures_next, ensures_setNext, ensures_setPrev, isPrev, isNext,
    Option.some.injEq, exists_eq_left', allocated_linkPrev,
    beforeAllocated, followingAllocated, true_and]
  refine ⟨@Ring.rejoin _ _ _ _ _ [entry] [] _ _ ring isBefore isFollowing
    ?_ ?_ ?_ ?_, ?_⟩
  · have distinct := ring.distinct
    grind
  · simp [path_nil, Joins, forward_linkNext, backward_linkPrev,
      beforeAllocated, followingAllocated]
  · intro one isNode isInner
    simp [forward_linkNext, beforeAllocated, isInner]
  · intro one isNode isInner
    simp [backward_linkPrev, followingAllocated, isInner]
  · exact (Rewires.refl.linkPrev followingNode).linkNext beforeNode

/-- `list_replace` puts a new entry in the place of an old one. -/
theorem Ring.ensures_listReplace
    (ring : Ring memory head (front ++ old :: back))
    (allocated : Allocated memory new)
    (fresh : new ∉ head :: (front ++ old :: back)) :
    (listReplace old new).Ensures memory fun _ after =>
      Ring after head (front ++ new :: back) ∧
        Rewires memory (new :: head :: (front ++ back)) after := by
  obtain ⟨isPrev, isNext⟩ := ring.neighbours
  generalize isBefore : lastSlot id head front = before at isPrev
  generalize isFollowing : back.headD head = following at isNext
  obtain ⟨beforeNode, followingNode, beforeAllocated,
    followingAllocated⟩ := @Ring.around _ _ _ _ [old] _ _ ring isBefore
      isFollowing
  have notNew (one : Word) (isNode : one ∈ head :: (front ++ back)) :
      one ≠ new := by
    grind
  have notOld : old ≠ following := by
    have distinct := ring.distinct
    grind
  simp only [listReplace, ensures_bind, ensures_prev, ensures_next,
    ensures_setNext, ensures_setPrev, forward_linkNext, backward_linkPrev,
    backward_linkNext, isPrev, isNext, notOld, allocated, ↓reduceIte,
    Option.some.injEq, exists_eq_left', allocated_linkPrev,
    allocated_linkNext, beforeAllocated, followingAllocated, true_and]
  refine ⟨@Ring.rejoin _ _ _ _ _ [old] [new] _ _ ring isBefore
    isFollowing ?_ ?_ ?_ ?_, ?_⟩
  · have distinct := ring.distinct
    grind
  · simp [path_cons, path_nil, Joins, forward_linkNext,
      backward_linkPrev, allocated, beforeAllocated, followingAllocated,
      notNew following followingNode, (notNew before beforeNode).symm]
  · intro one isNode isInner
    simp [forward_linkNext, allocated, beforeAllocated, isInner,
      notNew one isNode]
  · intro one isNode isInner
    simp [backward_linkPrev, allocated, followingAllocated, isInner,
      notNew one isNode]
  · exact (((Rewires.refl.linkNext (.head _)).linkPrev
      (.tail _ followingNode)).linkPrev (.head _)).linkNext
      (.tail _ beforeNode)

/-- The nodes of one part of a list between two other nodes. -/
theorem Ring.transplant
    {before following : Word}
    (ring : Ring memory list (items ++ back))
    (nonempty : items ≠ [])
    (first : (wiring after).Joins before (items.headD list))
    (last : (wiring after).Joins (lastSlot id list items) following)
    (sameNext :
      ∀ one ∈ items, one ≠ lastSlot id list items →
        (wiring after).forward one = (wiring memory).forward one)
    (samePrev :
      ∀ one ∈ items, one ≠ items.headD list →
        (wiring after).backward one = (wiring memory).backward one) :
    Path id (wiring after) before items following := by
  obtain ⟨node, nodes, rfl⟩ := List.exists_cons_of_ne_nil nonempty
  obtain ⟨-, distinct⟩ := List.nodup_cons.mp ring.distinct
  have distinctItems := (List.nodup_append.mp distinct).1
  obtain ⟨chained, -⟩ := path_append.mp ring.linked
  refine path_cons.mpr ⟨first, Chain.congr chained.2 ?_ ?_ ?_, last⟩
  · simpa using distinctItems
  · intro one isSlot isInner
    exact sameNext one (by simpa using isSlot) isInner
  · intro one isNode _
    refine samePrev one (List.mem_cons_of_mem _ isNode) ?_
    rintro rfl
    exact (List.nodup_cons.mp distinctItems).1 isNode

/-- `__list_splice` moves all entries between two consecutive nodes. -/
theorem Ring.ensures_listSpliceBetween
    {before following : Word}
    (source : Ring memory list items)
    (nonempty : items ≠ [])
    (ring : Ring memory head (front ++ back))
    (apart : List.Disjoint (list :: items) (head :: (front ++ back)))
    (isBefore : lastSlot id head front = before)
    (isFollowing : back.headD head = following) :
    (listSpliceBetween list before following).Ensures memory
      fun _ after =>
        Ring after head (front ++ (items ++ back)) ∧
          Rewires memory (items ++ head :: (front ++ back)) after := by
  obtain ⟨beforeNode, followingNode, beforeAllocated,
    followingAllocated⟩ := @Ring.around _ _ _ _ [] _ _ ring isBefore
      isFollowing
  have isFirst := source.linked.forward_start
  have isLast := source.linked.backward_stop
    (source.allocated (.head _)).ne_null
  generalize firstItem : items.headD list = first at isFirst
  generalize lastItem : lastSlot id list items = last at isLast
  have firstNode : first ∈ items := by
    cases items with
    | nil =>
        exact absurd rfl nonempty
    | cons item rest =>
        simp [← firstItem]
  have lastNode : last ∈ items := by
    cases items with
    | nil =>
        exact absurd rfl nonempty
    | cons item rest =>
        exact lastItem ▸ lastSlot_mem item rest
  have firstAllocated := source.allocated (.tail _ firstNode)
  have lastAllocated := source.allocated (.tail _ lastNode)
  have different
      (one other : Word)
      (isItem : one ∈ items)
      (isNode : other ∈ head :: (front ++ back)) :
      one ≠ other := by
    rintro rfl
    exact apart (.tail _ isItem) isNode
  simp only [listSpliceBetween, ensures_bind, ensures_prev, ensures_next,
    ensures_setNext, ensures_setPrev, isFirst, isLast, Option.some.injEq,
    exists_eq_left', allocated_linkPrev, allocated_linkNext,
    beforeAllocated, followingAllocated, firstAllocated, lastAllocated,
    true_and]
  refine ⟨@Ring.rejoin _ _ _ _ _ [] items _ _ ring isBefore isFollowing
    ?_ ?_ ?_ ?_, ?_⟩
  · have distinct := ring.distinct
    have distinctItems := (List.nodup_cons.mp source.distinct).2
    grind
  · refine @Ring.transplant _ _ _ [] _ _ _
      (by simpa using source) nonempty ?_ ?_ ?_ ?_
    · rw [firstItem]
      simp [Joins, forward_linkNext, backward_linkPrev, beforeAllocated,
        firstAllocated, followingAllocated, lastAllocated,
        (different last before lastNode beforeNode).symm,
        different first following firstNode followingNode]
    · rw [lastItem]
      simp [Joins, forward_linkNext, backward_linkPrev,
        followingAllocated, lastAllocated]
    · intro one isItem isInner
      rw [lastItem] at isInner
      simp [forward_linkNext, beforeAllocated, lastAllocated, isInner,
        different one before isItem beforeNode]
    · intro one isItem isInner
      rw [firstItem] at isInner
      simp [backward_linkPrev, firstAllocated, followingAllocated, isInner,
        different one following isItem followingNode]
  · intro one isNode isInner
    simp [forward_linkNext, beforeAllocated, lastAllocated, isInner,
      (different last one lastNode isNode).symm]
  · intro one isNode isInner
    simp [backward_linkPrev, firstAllocated, followingAllocated, isInner,
      (different first one firstNode isNode).symm]
  · have ofNode
        (one : Word)
        (isNode : one ∈ head :: (front ++ back)) :
        one ∈ items ++ head :: (front ++ back) :=
      List.mem_append_right _ isNode
    have ofItem
        (one : Word)
        (isItem : one ∈ items) :
        one ∈ items ++ head :: (front ++ back) :=
      List.mem_append_left _ isItem
    exact (((Rewires.refl.linkPrev (ofItem _ firstNode)).linkNext
      (ofNode _ beforeNode)).linkNext (ofItem _ lastNode)).linkPrev
      (ofNode _ followingNode)

/-- `__list_cut_position` moves the front part of a list to another head. -/
theorem Ring.ensures_listCutAt
    (ring : Ring memory head (front ++ entry :: back))
    (allocated : Allocated memory list)
    (fresh : list ∉ head :: (front ++ entry :: back)) :
    (listCutAt list head entry).Ensures memory fun _ after =>
      Ring after list (front ++ [entry]) ∧ Ring after head back ∧
        Rewires memory (list :: head :: (front ++ entry :: back))
          after := by
  obtain ⟨-, isNext⟩ := ring.neighbours
  have isFirst := ring.linked.forward_start
  generalize isFollowing : back.headD head = following at isNext
  have firstItem :
      (front ++ entry :: back).headD head =
        (front ++ [entry]).headD head := by
    cases front <;> rfl
  rw [firstItem] at isFirst
  generalize firstItem : (front ++ [entry]).headD head = first at isFirst
  have firstNode : first ∈ front ++ [entry] := by
    cases front <;> simp [← firstItem]
  have followingNode : following ∈ head :: back := by
    cases back <;> simp [← isFollowing]
  have firstAllocated : Allocated memory first :=
    ring.allocated (by grind)
  have followingAllocated : Allocated memory following :=
    ring.allocated (by grind)
  have entryAllocated : Allocated memory entry :=
    ring.allocated (by simp)
  have headAllocated : Allocated memory head :=
    ring.allocated (by simp)
  have distinct := ring.distinct
  have notList
      (one : Word)
      (isNode : one ∈ head :: (front ++ entry :: back)) :
      one ≠ list := by
    grind
  have notHead : head ≠ list := notList head (by simp)
  have notEntry : entry ≠ list := notList entry (by simp)
  have notFirst : first ≠ list := notList first (by grind)
  have notFollowing : following ≠ list := notList following (by grind)
  have different
      (one other : Word)
      (isItem : one ∈ front ++ [entry])
      (isNode : other ∈ head :: back) :
      one ≠ other := by
    grind
  simp only [listCutAt, ensures_bind, ensures_next, ensures_setNext,
    ensures_setPrev, forward_linkNext, isFirst, isNext, allocated,
    ↓reduceIte, Option.some.injEq, exists_eq_left', allocated_linkPrev,
    allocated_linkNext, followingAllocated, firstAllocated,
    entryAllocated, headAllocated, true_and]
  refine ⟨⟨?_, ?_⟩, ?_, ?_⟩
  · grind
  · refine @Ring.transplant _ _ _ back _ _ _ (by simpa using ring)
      (by simp) ?_ ?_ ?_ ?_
    · rw [firstItem]
      simp [Joins, forward_linkNext, backward_linkPrev, allocated,
        firstAllocated, followingAllocated, entryAllocated,
        headAllocated, notHead.symm, notEntry.symm, notFirst,
        different first following firstNode followingNode]
    · simp [Joins, forward_linkNext, backward_linkPrev, allocated,
        followingAllocated, entryAllocated, headAllocated,
        notFollowing.symm, different entry head (by simp) (.head _)]
    · intro one isItem isInner
      rw [lastSlot_append, lastSlot_cons, lastSlot_nil, id] at isInner
      simp [forward_linkNext, allocated, entryAllocated, headAllocated,
        isInner, notList one (by grind),
        different one head isItem (.head _)]
    · intro one isItem isInner
      rw [firstItem] at isInner
      simp [backward_linkPrev, allocated, firstAllocated,
        followingAllocated, isInner, notList one (by grind),
        different one following isItem followingNode]
  · refine @Ring.rejoin _ _ _ [] _ (front ++ [entry]) [] _ _
      (by simpa using ring) rfl isFollowing ?_ ?_ ?_ ?_
    · grind
    · simp [path_nil, Joins, forward_linkNext, backward_linkPrev,
        followingAllocated, headAllocated]
    · intro one isNode isInner
      have isInner : one ≠ head := isInner
      simp [forward_linkNext, allocated, entryAllocated, headAllocated,
        isInner, notList one (by grind),
        (different entry one (by simp) isNode).symm]
    · intro one isNode isInner
      simp [backward_linkPrev, allocated, firstAllocated,
        followingAllocated, isInner, notList one (by grind),
        (different first one firstNode isNode).symm]
  · exact (((((Rewires.refl.linkNext (.head _)).linkPrev
      (by grind)).linkPrev (.head _)).linkNext (by simp)).linkNext
      (by simp)).linkPrev (by grind)

/-- `INIT_LIST_HEAD` makes an empty list. -/
theorem ensures_initListHead
    (allocated : Allocated memory list) :
    (initListHead list).Ensures memory fun _ after =>
      Ring after list [] ∧ Rewires memory [list] after := by
  simp only [initListHead, ensures_bind, ensures_setNext, ensures_setPrev,
    allocated, allocated_linkNext, true_and]
  refine ⟨⟨by simp, ?_⟩, ?_⟩
  · simp [path_nil, Joins, forward_linkNext, backward_linkPrev,
      allocated]
  · exact (Rewires.refl.linkNext (.head _)).linkPrev (.head _)

/-- Every node is between its neighbours. -/
theorem Ring.exists_neighbours
    (ring : Ring memory head entries)
    (isNode : node ∈ head :: entries) :
    ∃ following before,
      memory.cell node = some ⟨following, before⟩ ∧
        (memory.cell following).map ListHead.prev = some node ∧
        (memory.cell before).map ListHead.next = some node := by
  obtain ⟨content, atNode⟩ := ring.allocated isNode
  obtain ⟨following, isFollowing, joins⟩ :=
    ring.linked.exists_joins (by simpa using isNode)
  obtain ⟨before, isBefore, joined⟩ :=
    @Path.exists_joined _ _ _ _ _ _ _ node _ ring.linked
      (by simpa [or_comm] using isNode)
  have notNull := (ring.allocated isNode).ne_null
  have followingNotNull : following ≠ null := by
    apply Allocated.ne_null
    exact ring.allocated (by simpa [or_comm] using isFollowing)
  have isNext := joins.1
  have isPrev := joined.2 notNull
  simp only [wiring, atNode, Option.map_some, Option.some.injEq]
    at isNext isPrev
  subst isNext isPrev
  exact ⟨_, _, atNode, joins.2 followingNotNull, joined.1⟩

section Queries

/-- `list_empty` tells whether a list has no entry. -/
theorem Ring.ensures_listEmpty
    (ring : Ring memory head entries) :
    (listEmpty head).Ensures memory fun value after =>
      after = memory ∧ value = decide (entries = []) := by
  have isFirst := ring.linked.forward_start
  simp only [listEmpty, ensures_bind, ensures_next, isFirst,
    Option.some.injEq, exists_eq_left', ensures_pure, true_and,
    decide_eq_decide]
  cases entries with
  | nil =>
      simp
  | cons first rest =>
      have distinct := ring.distinct
      simp only [List.headD_cons, reduceCtorEq, iff_false]
      grind

/-- `list_empty_careful` agrees with `list_empty` on a list. -/
theorem Ring.ensures_listEmptyCareful
    (ring : Ring memory head entries) :
    (listEmptyCareful head).Ensures memory fun value after =>
      after = memory ∧ value = decide (entries = []) := by
  have isFirst := ring.linked.forward_start
  have isLast := ring.linked.backward_stop
    (ring.allocated (.head _)).ne_null
  simp only [listEmptyCareful, ensures_bind, ensures_next, isFirst,
    Option.some.injEq, exists_eq_left']
  cases entries with
  | nil =>
      simp [ensures_prev, isLast, lastSlot]
  | cons first rest =>
      have distinct := ring.distinct
      have notHead : first ≠ head := by
        grind
      simp [notHead]

/-- `list_is_singular` tells whether a list has exactly one entry. -/
theorem Ring.ensures_listIsSingular
    (ring : Ring memory head entries) :
    (listIsSingular head).Ensures memory fun value after =>
      after = memory ∧ value = decide (entries.length = 1) := by
  have isFirst := ring.linked.forward_start
  have isLast := ring.linked.backward_stop
    (ring.allocated (.head _)).ne_null
  rw [listIsSingular, ensures_bind]
  refine ring.ensures_listEmpty.weaken ?_
  intro isEmpty after result
  obtain ⟨rfl, rfl⟩ := result
  cases entries with
  | nil =>
      simp
  | cons first rest =>
      simp only [reduceCtorEq, decide_false, Bool.false_eq_true,
        ↓reduceIte, ensures_bind, ensures_next, ensures_prev, isFirst,
        isLast, Option.some.injEq, exists_eq_left', ensures_pure,
        true_and, decide_eq_decide, List.headD_cons, lastSlot_cons, id]
      cases rest with
      | nil =>
          simp
      | cons second others =>
          have distinct := ring.distinct
          have isLater := lastSlot_mem second others
          simp only [lastSlot_cons, id, List.length_cons]
          grind

/-- `list_is_last` tells whether an entry is the last one. -/
theorem Ring.ensures_listIsLast
    (ring : Ring memory head entries)
    (isEntry : entry ∈ entries) :
    (listIsLast entry head).Ensures memory fun value after =>
      after = memory ∧
        value = decide (entries.getLast? = some entry) := by
  obtain ⟨front, back, rfl⟩ := List.append_of_mem isEntry
  obtain ⟨-, isNext⟩ := ring.neighbours
  simp only [listIsLast, ensures_bind, ensures_next, isNext,
    Option.some.injEq, exists_eq_left', ensures_pure, true_and,
    decide_eq_decide]
  have distinct := ring.distinct
  cases back with
  | nil =>
      simp
  | cons following rest =>
      have isLater : (following :: rest).getLast (by simp) ≠ entry := by
        have inside := List.getLast_mem (List.cons_ne_nil following rest)
        grind
      simp only [List.headD_cons]
      grind

/-- The loop of `list_length` from an entry on. -/
theorem ensures_listLengthFrom
    {start : Word}
    {count : BitVec 64}
    (path : Path id (wiring memory) start entries head)
    (outside : head ∉ entries) :
    (loop (listLengthFrom head) (entries.headD head, count)).Ensures
      memory fun value after =>
        after = memory ∧ value = count + .ofNat 64 entries.length := by
  induction entries generalizing start count with
  | nil =>
      rw [ensures_loop]
      simp [listLengthFrom]
  | cons first rest inductionHypothesis =>
      obtain ⟨-, following⟩ := path_cons.mp path
      have isNext :
          (wiring memory).forward first = some (rest.headD head) :=
        following.forward_start
      have notHead : first ≠ head := by
        grind
      rw [ensures_loop, List.headD_cons, listLengthFrom, if_pos notHead]
      simp only [ensures_bind, ensures_next, isNext, Option.some.injEq,
        exists_eq_left', ensures_pure]
      refine (inductionHypothesis following (by grind)).weaken ?_
      intro value after result
      obtain ⟨rfl, rfl⟩ := result
      refine ⟨rfl, ?_⟩
      rw [List.length_cons, BitVec.add_assoc, Nat.add_comm,
        BitVec.ofNat_add]
      rfl

/-- `list_length` counts the entries. -/
theorem Ring.ensures_listLength
    (ring : Ring memory head entries) :
    (listLength head).Ensures memory fun value after =>
      after = memory ∧ value.toNat = entries.length := by
  obtain ⟨outside, distinct⟩ := List.nodup_cons.mp ring.distinct
  have short : entries.length < 2 ^ 64 := by
    have bound := length_le_of_nodup ring.distinct
    rw [List.length_cons] at bound
    omega
  simp only [listLength, ensures_bind, ensures_next,
    ring.linked.forward_start, Option.some.injEq, exists_eq_left']
  refine (ensures_listLengthFrom ring.linked outside).weaken ?_
  intro value after result
  obtain ⟨rfl, rfl⟩ := result
  refine ⟨rfl, ?_⟩
  have fromZero :
      0 + BitVec.ofNat 64 entries.length =
        BitVec.ofNat 64 entries.length :=
    BitVec.zero_add _
  rw [fromZero, BitVec.toNat_ofNat, Nat.mod_eq_of_lt short]

end Queries

end Rings

end LibKern.Lists
