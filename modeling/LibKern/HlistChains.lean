import LibKern.HlistSource
import LibKern.LinkedChain

namespace LibKern.Hlists

/-!
# Chains of list nodes

A list is a chain of nodes that starts at `first` of its head and ends with
`NULL`.  This module says what the functions of `include/hlist.h` do to the
lists they work on.
-/

open Program Wiring

/-- The pointers of a memory. -/
def wiring (memory : HlistMemory) : Wiring Slot Word where
  forward
    | .null => none
    | .first head => memory.heads.cell head
    | .next node => (memory.nodes.cell node).map HlistNode.next
  backward node := (memory.nodes.cell node).map HlistNode.pprev

/-- A node that can be accessed. -/
def Allocated (memory : HlistMemory) (node : Word) : Prop :=
  ∃ content, memory.nodes.cell node = some content

/-- A pointer that can be accessed. -/
def Accessible (memory : HlistMemory) (slot : Slot) : Prop :=
  ∃ node, (wiring memory).forward slot = some node

/-- The memory after an assignment to `*slot`. -/
def linkSlot (slot : Slot) (value : Word) (memory : HlistMemory) :
    HlistMemory :=
  match slot with
  | .null => memory
  | .first head =>
      { memory with heads := memory.heads.modify head fun _ => value }
  | .next node =>
      { memory with
        nodes := memory.nodes.modify node fun content =>
          { content with next := value } }

/-- The memory after an assignment to `node->pprev`. -/
def linkPprev (node : Word) (slot : Slot) (memory : HlistMemory) :
    HlistMemory :=
  { memory with
    nodes := memory.nodes.modify node fun content =>
      { content with pprev := slot } }

section Access

variable {memory : HlistMemory}
variable {node other value : Word}
variable {slot target : Slot}

theorem Allocated.ne_null
    (allocated : Allocated memory node) :
    node ≠ null := by
  obtain ⟨content, atNode⟩ := allocated
  exact Memory.ne_null atNode

@[simp] theorem accessible_next :
    Accessible memory (.next node) ↔ Allocated memory node := by
  simp only [Accessible, wiring, Option.map_eq_some_iff, Allocated]
  constructor
  · intro accessible
    obtain ⟨_, content, atNode, -⟩ := accessible
    exact ⟨content, atNode⟩
  · intro allocated
    obtain ⟨content, atNode⟩ := allocated
    exact ⟨_, content, atNode, rfl⟩

/-- Where the slots lead after an assignment to a slot. -/
theorem forward_linkSlot
    (accessible : Accessible memory target) :
    (wiring (linkSlot target value memory)).forward slot =
      if slot = target then some value
      else (wiring memory).forward slot := by
  obtain ⟨old, leads⟩ := accessible
  cases target with
  | null =>
      simp [wiring] at leads
  | first head =>
      cases slot with
      | first other =>
          by_cases same : other = head
          · subst same
            have atHead : memory.heads.cell other = some old := leads
            simp [wiring, linkSlot, atHead]
          · simp [wiring, linkSlot, same]
      | null | next other =>
          rfl
  | next node =>
      obtain ⟨content, atNode, -⟩ := Option.map_eq_some_iff.mp leads
      cases slot with
      | next other =>
          by_cases same : other = node
          · subst same
            simp [wiring, linkSlot, atNode]
          · simp [wiring, linkSlot, same]
      | null | first other =>
          rfl

@[simp] theorem backward_linkSlot :
    (wiring (linkSlot target value memory)).backward node =
      (wiring memory).backward node := by
  cases target with
  | null | first head =>
      rfl
  | next other =>
      by_cases same : node = other
      · subst same
        cases found : memory.nodes.cell node <;>
          simp [wiring, linkSlot, found]
      · simp [wiring, linkSlot, same]

/-- Where the nodes point back to after an assignment to `pprev`. -/
theorem backward_linkPprev
    (allocated : other ≠ null → Allocated memory other)
    (notNull : node ≠ null) :
    (wiring (linkPprev other slot memory)).backward node =
      if node = other then some slot
      else (wiring memory).backward node := by
  by_cases same : node = other
  · subst same
    obtain ⟨content, atNode⟩ := allocated notNull
    simp [wiring, linkPprev, atNode]
  · simp [wiring, linkPprev, same]

@[simp] theorem forward_linkPprev :
    (wiring (linkPprev node slot memory)).forward target =
      (wiring memory).forward target := by
  cases target with
  | null | first head =>
      rfl
  | next other =>
      by_cases same : other = node
      · subst same
        cases found : memory.nodes.cell other <;>
          simp [wiring, linkPprev, found]
      · simp [wiring, linkPprev, same]

@[simp] theorem accessible_linkPprev :
    Accessible (linkPprev node slot memory) target ↔
      Accessible memory target := by
  simp [Accessible]

@[simp] theorem accessible_linkSlot :
    Accessible (linkSlot slot value memory) target ↔
      Accessible memory target := by
  cases slot with
  | null =>
      rfl
  | first head =>
      cases target with
      | first other =>
          by_cases same : other = head
          · subst same
            simp [Accessible, wiring, linkSlot]
          · simp [Accessible, wiring, linkSlot, same]
      | null | next other =>
          rfl
  | next node =>
      cases target with
      | next other =>
          by_cases same : other = node
          · subst same
            simp [Accessible, wiring, linkSlot]
          · simp [Accessible, wiring, linkSlot, same]
      | null | first other =>
          rfl

@[simp] theorem allocated_linkPprev :
    Allocated (linkPprev other slot memory) node ↔
      Allocated memory node := by
  rw [← accessible_next, accessible_linkPprev, accessible_next]

@[simp] theorem allocated_linkSlot :
    Allocated (linkSlot slot value memory) node ↔
      Allocated memory node := by
  rw [← accessible_next, accessible_linkSlot, accessible_next]

theorem ensures_first
    {post : Word → HlistMemory → Prop} :
    (first node).Ensures memory post ↔
      ∃ value, (wiring memory).forward (.first node) = some value ∧
        post value memory := by
  rw [first, ensures_reads]
  rfl

theorem ensures_next
    {post : Word → HlistMemory → Prop} :
    (next node).Ensures memory post ↔
      ∃ value, (wiring memory).forward (.next node) = some value ∧
        post value memory := by
  rw [next, ensures_reads]
  rfl

theorem ensures_pprev
    {post : Slot → HlistMemory → Prop} :
    (pprev node).Ensures memory post ↔
      ∃ slot, (wiring memory).backward node = some slot ∧
        post slot memory := by
  rw [pprev, ensures_reads]
  rfl

private theorem ensures_store
    {change : HlistNode → HlistNode}
    {post : Unit → HlistMemory → Prop} :
    (store node change).Ensures memory post ↔
      Allocated memory node ∧
        post ()
          { memory with nodes := memory.nodes.modify node change } :=
  ensures_updates_map

theorem ensures_setPprev
    {post : Unit → HlistMemory → Prop} :
    (setPprev node slot).Ensures memory post ↔
      Allocated memory node ∧ post () (linkPprev node slot memory) :=
  ensures_store

theorem ensures_setNext
    {post : Unit → HlistMemory → Prop} :
    (setNext node value).Ensures memory post ↔
      Allocated memory node ∧
        post () (linkSlot (.next node) value memory) :=
  ensures_store

theorem ensures_setFirst
    {post : Unit → HlistMemory → Prop} :
    (setFirst node value).Ensures memory post ↔
      Accessible memory (.first node) ∧
        post () (linkSlot (.first node) value memory) :=
  ensures_updates_map

theorem ensures_setSlot
    {post : Unit → HlistMemory → Prop} :
    (setSlot slot value).Ensures memory post ↔
      Accessible memory slot ∧ post () (linkSlot slot value memory) := by
  cases slot with
  | null =>
      simp [setSlot, Accessible, wiring]
  | first head =>
      exact ensures_setFirst
  | next node =>
      rw [accessible_next]
      exact ensures_setNext

/-- A node points back to a slot unless it is `NULL`. -/
theorem ensures_setPprev_of_present
    {post : Unit → HlistMemory → Prop} :
    (onlyIf (node ≠ null) (setPprev node slot)).Ensures memory post ↔
      (node ≠ null → Allocated memory node) ∧
        post () (linkPprev node slot memory) := by
  by_cases isNull : node = null
  · rw [ensures_onlyIf_of_not (by simpa using isNull)]
    simp [isNull, linkPprev]
  · rw [ensures_onlyIf_of isNull, ensures_setPprev]
    simp [isNull]

end Access

/-- Only these heads and nodes were changed, and all are still there. -/
structure Rewires
    (memory : HlistMemory)
    (heads nodes : List Word)
    (after : HlistMemory) : Prop where
  sameHeads :
    ∀ head ∉ heads, after.heads.cell head = memory.heads.cell head
  sameNodes :
    ∀ node ∉ nodes, after.nodes.cell node = memory.nodes.cell node
  accessible :
    ∀ slot, Accessible memory slot → Accessible after slot

namespace Rewires

variable {memory between after : HlistMemory}
variable {heads nodes : List Word}

theorem refl : Rewires memory heads nodes memory :=
  ⟨fun _ _ => rfl, fun _ _ => rfl, fun _ accessible => accessible⟩

theorem trans
    (first : Rewires memory heads nodes between)
    (second : Rewires between heads nodes after) :
    Rewires memory heads nodes after where
  sameHeads head outside :=
    (second.sameHeads head outside).trans (first.sameHeads head outside)
  sameNodes node outside :=
    (second.sameNodes node outside).trans (first.sameNodes node outside)
  accessible slot isAccessible :=
    second.accessible slot (first.accessible slot isAccessible)

theorem mono
    {moreHeads moreNodes : List Word}
    (rewires : Rewires memory heads nodes after)
    (subHeads : heads ⊆ moreHeads)
    (subNodes : nodes ⊆ moreNodes) :
    Rewires memory moreHeads moreNodes after where
  sameHeads head outside :=
    rewires.sameHeads head fun isHead => outside (subHeads isHead)
  sameNodes node outside :=
    rewires.sameNodes node fun isNode => outside (subNodes isNode)
  accessible := rewires.accessible

theorem linkPprev
    (rewires : Rewires memory heads nodes between)
    {node : Word}
    {slot : Slot}
    (isNode : node ≠ null → node ∈ nodes) :
    Rewires memory heads nodes (Hlists.linkPprev node slot between) where
  sameHeads := rewires.sameHeads
  sameNodes other outside := by
    rw [← rewires.sameNodes other outside, Hlists.linkPprev]
    by_cases isNull : node = null
    · simp [isNull]
    · have different : other ≠ node := by
        rintro rfl
        exact outside (isNode isNull)
      simp [different]
  accessible slot isAccessible :=
    accessible_linkPprev.mpr (rewires.accessible slot isAccessible)

theorem linkSlot
    (rewires : Rewires memory heads nodes between)
    {slot : Slot}
    {value : Word}
    (isHead : ∀ head, slot = .first head → head ∈ heads)
    (isNode : ∀ node, slot = .next node → node ∈ nodes) :
    Rewires memory heads nodes (Hlists.linkSlot slot value between) where
  sameHeads other outside := by
    rw [← rewires.sameHeads other outside]
    cases slot with
    | null | next node =>
        rfl
    | first head =>
        have different : other ≠ head := by
          rintro rfl
          exact outside (isHead other rfl)
        simp [Hlists.linkSlot, different]
  sameNodes other outside := by
    rw [← rewires.sameNodes other outside]
    cases slot with
    | null | first head =>
        rfl
    | next node =>
        have different : other ≠ node := by
          rintro rfl
          exact outside (isNode other rfl)
        simp [Hlists.linkSlot, different]
  accessible slot isAccessible :=
    accessible_linkSlot.mpr (rewires.accessible slot isAccessible)

end Rewires

/-- A list with this head and these nodes. -/
structure Hlist
    (memory : HlistMemory)
    (head : Word)
    (nodes : List Word) : Prop where
  distinct : nodes.Nodup
  linked : Path Slot.next (wiring memory) (.first head) nodes null

section Chains

variable {memory after : HlistMemory}
variable {head node new old : Word}
variable {nodes front back removed middle : List Word}
variable {slot : Slot}

theorem mem_slots_iff :
    slot ∈ slots Slot.next (.first head) nodes ↔
      slot = .first head ∨ ∃ node ∈ nodes, slot = .next node := by
  simp [slots, eq_comm]

/-- All slots of a list can be accessed. -/
theorem Hlist.accessible
    (hlist : Hlist memory head nodes)
    (isSlot : slot ∈ slots Slot.next (.first head) nodes) :
    Accessible memory slot := by
  obtain ⟨node, -, joins⟩ := hlist.linked.exists_joins isSlot
  exact ⟨node, joins.1⟩

/-- All nodes of a list can be accessed. -/
theorem Hlist.allocated
    (hlist : Hlist memory head nodes)
    (isNode : node ∈ nodes) :
    Allocated memory node :=
  accessible_next.mp (hlist.accessible
    (mem_slots_iff.mpr (.inr ⟨node, isNode, rfl⟩)))

/-- `NULL` is not a node of a list. -/
theorem Hlist.null_notMem
    (hlist : Hlist memory head nodes) :
    null ∉ nodes :=
  fun isNode => (hlist.allocated isNode).ne_null rfl

/-- A list only depends on its own head and nodes. -/
theorem Hlist.congr
    (hlist : Hlist memory head nodes)
    (sameHead : after.heads.cell head = memory.heads.cell head)
    (sameNodes :
      ∀ one ∈ nodes, after.nodes.cell one = memory.nodes.cell one) :
    Hlist after head nodes := by
  refine ⟨hlist.distinct, hlist.linked.congr ?_ ?_⟩
  · intro one isSlot
    rcases mem_slots_iff.mp isSlot with rfl | ⟨node, isNode, rfl⟩
    · exact sameHead
    · simp only [wiring, sameNodes node isNode]
  · intro one isNode notNull
    have inside : one ∈ nodes := by
      simpa [notNull] using isNode
    simp only [wiring, sameNodes one inside]

theorem nodup_slots
    (distinct : nodes.Nodup) :
    (slots Slot.next (.first head) nodes).Nodup := by
  refine List.nodup_cons.mpr ⟨by simp, distinct.map ?_⟩
  intro one other same
  exact Slot.next.inj same

/-- A list of which one part is replaced. -/
theorem Hlist.rejoin
    {following : Word}
    (hlist : Hlist memory head (front ++ (removed ++ back)))
    (isSlot : lastSlot Slot.next (.first head) front = slot)
    (isFollowing : back.headD null = following)
    (distinct : (front ++ (middle ++ back)).Nodup)
    (replaced : Path Slot.next (wiring after) slot middle following)
    (sameForward :
      ∀ one ∈ slots Slot.next (.first head) (front ++ back),
        one ≠ slot →
          (wiring after).forward one = (wiring memory).forward one)
    (sameBackward :
      ∀ one ∈ front ++ back, one ≠ following →
        (wiring after).backward one = (wiring memory).backward one) :
    Hlist after head (front ++ (middle ++ back)) := by
  subst isSlot isFollowing
  have notNull := hlist.null_notMem
  have rest : (front ++ back).Nodup := by
    refine distinct.sublist (.append_left ?_ _)
    exact List.sublist_append_right _ _
  refine ⟨distinct, hlist.linked.rejoin replaced (nodup_slots rest) ?_
    sameForward ?_⟩
  · rw [← List.append_assoc]
    grind
  · intro one isNode isInner isNode'
    refine sameBackward one ?_ isInner
    simpa [isNode'] using isNode

/-- The pointer and the node around a part of a list. -/
theorem Hlist.around
    {following : Word}
    (hlist : Hlist memory head (front ++ (removed ++ back)))
    (isSlot : lastSlot Slot.next (.first head) front = slot)
    (isFollowing : back.headD null = following) :
    (slot = .first head ∨ ∃ node ∈ front, slot = .next node) ∧
      Accessible memory slot ∧
      (following ≠ null → following ∈ back) ∧
      (following ≠ null → Allocated memory following) := by
  have inFront := isSlot ▸ @lastSlot_mem_slots _ _ Slot.next _ front
  have inBack : following ≠ null → following ∈ back := by
    intro notNull
    subst isFollowing
    cases back with
    | nil =>
        exact absurd rfl notNull
    | cons first rest =>
        simp
  refine ⟨mem_slots_iff.mp inFront, hlist.accessible ?_, inBack, ?_⟩
  · rcases mem_slots_iff.mp inFront with isHead | ⟨node, isNode, isNext⟩
    · exact mem_slots_iff.mpr (.inl isHead)
    · exact mem_slots_iff.mpr (.inr ⟨node, by simp [isNode], isNext⟩)
  · intro notNull
    exact hlist.allocated (by simp [inBack notNull])

/-- What is around a node of a list. -/
theorem Hlist.neighbours
    (hlist : Hlist memory head (front ++ node :: back)) :
    (wiring memory).backward node =
        some (lastSlot Slot.next (.first head) front) ∧
      (wiring memory).forward (.next node) = some (back.headD null) := by
  obtain ⟨toNode, fromNode⟩ := path_append_cons.mp hlist.linked
  have notNull : node ≠ null := (hlist.allocated (by simp)).ne_null
  exact ⟨toNode.backward_stop notNull, fromNode.forward_start⟩

/-- A new node between a pointer and the node it points to. -/
theorem Hlist.insert
    {following : Word}
    (hlist : Hlist memory head (front ++ back))
    (isSlot : lastSlot Slot.next (.first head) front = slot)
    (isFollowing : back.headD null = following)
    (fresh : new ∉ front ++ back)
    (toNew : (wiring after).Joins slot new)
    (fromNew : (wiring after).Joins (.next new) following)
    (sameForward :
      ∀ one, one ≠ slot → one ≠ .next new →
        (wiring after).forward one = (wiring memory).forward one)
    (sameBackward :
      ∀ one, one ≠ null → one ≠ new → one ≠ following →
        (wiring after).backward one = (wiring memory).backward one) :
    Hlist after head (front ++ new :: back) := by
  refine @Hlist.rejoin _ _ _ _ _ [] [new] _ _ hlist isSlot isFollowing
    ?_ ?_ ?_ ?_
  · have distinct := hlist.distinct
    grind
  · exact path_cons.mpr ⟨toNew, path_nil.mpr fromNew⟩
  · intro one isOne isInner
    refine sameForward one isInner ?_
    rintro rfl
    rcases mem_slots_iff.mp isOne with isHead | ⟨node, isNode, isNext⟩
    · exact absurd isHead (by simp)
    · exact fresh (Slot.next.inj isNext ▸ isNode)
  · intro one isNode isInner
    refine sameBackward one ?_ ?_ isInner
    · exact (@Hlist.allocated _ _ _ _ hlist isNode).ne_null
    · rintro rfl
      exact fresh isNode

/-- `__hlist_del` unlinks a node. -/
theorem Hlist.ensures_hlistDelNode
    (hlist : Hlist memory head (front ++ node :: back)) :
    (hlistDelNode node).Ensures memory fun _ after =>
      Hlist after head (front ++ back) ∧
        Rewires memory [head] (front ++ back) after := by
  obtain ⟨isPprev, isNext⟩ := hlist.neighbours
  generalize isSlot :
    lastSlot Slot.next (.first head) front = slot at isPprev
  generalize isFollowing : back.headD null = following at isNext
  obtain ⟨slotNode, accessible, followingNode, followingAllocated⟩ :=
    @Hlist.around _ _ _ _ [node] _ _ hlist isSlot isFollowing
  simp only [hlistDelNode, ensures_bind, ensures_next, ensures_pprev,
    isPprev, isNext, Option.some.injEq, exists_eq_left', ensures_setSlot,
    accessible, true_and, ensures_setPprev_of_present,
    allocated_linkSlot]
  refine ⟨followingAllocated, @Hlist.rejoin _ _ _ _ _ [node] [] _ _ hlist
    isSlot isFollowing ?_ ?_ ?_ ?_, ?_⟩
  · have distinct := hlist.distinct
    grind
  · refine path_nil.mpr ⟨?_, fun notNull => ?_⟩
    · simp [forward_linkSlot accessible]
    · rw [backward_linkPprev (by simpa using followingAllocated) notNull,
        if_pos rfl]
  · intro one _ isInner
    simp [forward_linkSlot accessible, isInner]
  · intro one isNode isInner
    have notNull : one ≠ null := (hlist.allocated (by grind)).ne_null
    rw [backward_linkPprev (by simpa using followingAllocated) notNull,
      if_neg isInner, backward_linkSlot]
  · refine (Rewires.refl.linkSlot ?_ ?_).linkPprev ?_
    · rintro other rfl
      simpa using slotNode
    · rintro other rfl
      exact List.mem_append_left _ (by simpa using slotNode)
    · intro notNull
      exact List.mem_append_right _ (followingNode notNull)

/-- `INIT_HLIST_NODE` only changes the node. -/
theorem ensures_initHlistNode
    (allocated : Allocated memory node) :
    (initHlistNode node).Ensures memory fun _ after =>
      Rewires memory [] [node] after := by
  simp only [initHlistNode, ensures_bind, ensures_setNext,
    ensures_setPprev, allocated, allocated_linkSlot, true_and]
  exact (Rewires.refl.linkSlot (by simp) (by simp)).linkPprev (by simp)

/-- `hlist_del` unlinks a node and clears it. -/
theorem Hlist.ensures_hlistDel
    (hlist : Hlist memory head (front ++ node :: back)) :
    (hlistDel node).Ensures memory fun _ after =>
      Hlist after head (front ++ back) ∧
        Rewires memory [head] (front ++ node :: back) after := by
  have distinct := hlist.distinct
  rw [hlistDel, ensures_bind]
  refine hlist.ensures_hlistDelNode.weaken ?_
  intro _ between result
  obtain ⟨unlinked, rewires⟩ := result
  have allocated : Allocated between node :=
    accessible_next.mp (rewires.accessible _
      (accessible_next.mpr (hlist.allocated (by simp))))
  refine (ensures_initHlistNode allocated).weaken ?_
  intro _ after cleared
  constructor
  · refine unlinked.congr (cleared.sameHeads head (by simp)) ?_
    intro one isNode
    exact cleared.sameNodes one (by grind)
  · refine (rewires.mono (by simp) ?_).trans (cleared.mono (by simp) ?_)
    · intro one isNode
      grind
    · simp

/-- The pointer that a node of a list points back to is not `NULL`. -/
theorem lastSlot_ne_null :
    lastSlot Slot.next (.first head) front ≠ .null := by
  rcases mem_slots_iff.mp
    (@lastSlot_mem_slots _ _ Slot.next (.first head) front)
    with isHead | ⟨other, -, isNext⟩
  · simp [isHead]
  · simp [isNext]

/-- `hlist_del_init` does the same to a node of a list. -/
theorem Hlist.ensures_hlistDelInit
    (hlist : Hlist memory head (front ++ node :: back)) :
    (hlistDelInit node).Ensures memory fun _ after =>
      Hlist after head (front ++ back) ∧
        Rewires memory [head] (front ++ node :: back) after := by
  obtain ⟨isPprev, -⟩ := hlist.neighbours
  rw [hlistDelInit, hlistUnhashed, ensures_bind, ensures_bind]
  simp only [ensures_pprev, isPprev, Option.some.injEq, exists_eq_left',
    ensures_pure]
  rw [ensures_onlyIf_of (by simpa using lastSlot_ne_null)]
  exact hlist.ensures_hlistDel

/-- `hlist_add_head` adds a node to the front of a list. -/
theorem Hlist.ensures_hlistAddHead
    (hlist : Hlist memory head nodes)
    (allocated : Allocated memory new)
    (fresh : new ∉ nodes) :
    (hlistAddHead new head).Ensures memory fun _ after =>
      Hlist after head (new :: nodes) ∧
        Rewires memory [head] (new :: nodes) after := by
  have isFirst := hlist.linked.forward_start
  generalize isFollowing : nodes.headD null = following at isFirst
  obtain ⟨-, accessible, followingNode, followingAllocated⟩ :=
    @Hlist.around _ _ [] _ [] _ _ hlist rfl isFollowing
  have notNull := allocated.ne_null
  have different : following ≠ new := by
    rintro rfl
    exact fresh (followingNode notNull)
  have accessible : Accessible memory (.first head) := accessible
  simp only [hlistAddHead, ensures_bind, ensures_first, isFirst,
    Option.some.injEq, exists_eq_left', ensures_setNext,
    ensures_setPprev_of_present, ensures_setFirst, ensures_setPprev,
    allocated, accessible, allocated_linkSlot, allocated_linkPprev,
    accessible_linkSlot, accessible_linkPprev, true_and]
  refine ⟨followingAllocated, @Hlist.insert _ _ _ _ [] _ _ _ hlist rfl
    isFollowing (by simpa using fresh) ⟨?_, ?_⟩ ⟨?_, ?_⟩ ?_ ?_, ?_⟩
  · simp [forward_linkSlot, accessible]
  · intro _
    rw [backward_linkPprev (by simp [allocated]) notNull, if_pos rfl,
      lastSlot_nil]
  · simp [forward_linkSlot, accessible, allocated]
  · intro followingNotNull
    rw [backward_linkPprev (by simp [allocated]) followingNotNull,
      if_neg different, backward_linkSlot, backward_linkPprev
        (by simpa using followingAllocated) followingNotNull, if_pos rfl]
  · intro one notFirst notNext
    have notFirst : one ≠ .first head := notFirst
    simp [forward_linkSlot, accessible, allocated, notFirst, notNext]
  · intro one oneNotNull notNew notFollowing
    rw [backward_linkPprev (by simp [allocated]) oneNotNull,
      if_neg notNew, backward_linkSlot, backward_linkPprev
        (by simpa using followingAllocated) oneNotNull,
      if_neg notFollowing, backward_linkSlot]
  · refine (((Rewires.refl.linkSlot ?_ ?_).linkPprev ?_).linkSlot
      ?_ ?_).linkPprev ?_
    · simp
    · simp
    · intro isNode
      exact .tail _ (followingNode isNode)
    · simp
    · simp
    · simp

/-- `hlist_add_before` adds a node before a node of a list. -/
theorem Hlist.ensures_hlistAddBefore
    (hlist : Hlist memory head (front ++ node :: back))
    (allocated : Allocated memory new)
    (fresh : new ∉ front ++ node :: back) :
    (hlistAddBefore new node).Ensures memory fun _ after =>
      Hlist after head (front ++ new :: node :: back) ∧
        Rewires memory [head] (new :: (front ++ node :: back)) after := by
  obtain ⟨isPprev, -⟩ := hlist.neighbours
  generalize isSlot :
    lastSlot Slot.next (.first head) front = slot at isPprev
  obtain ⟨slotNode, accessible, -, -⟩ :=
    @Hlist.around _ _ _ _ [] _ _ hlist isSlot rfl
  have notNull := allocated.ne_null
  have nodeAllocated : Allocated memory node :=
    hlist.allocated (by simp)
  have nodeNotNull := nodeAllocated.ne_null
  have different : node ≠ new := by
    grind
  have notNext : Slot.next new ≠ slot := by
    rintro rfl
    grind
  simp only [hlistAddBefore, ensures_bind, ensures_pprev, isPprev,
    Option.some.injEq, exists_eq_left', ensures_setNext,
    ensures_setPprev, ensures_setSlot, allocated, nodeAllocated,
    allocated_linkSlot, allocated_linkPprev, accessible_linkSlot,
    accessible_linkPprev, true_and]
  refine ⟨slot, ?_, accessible, @Hlist.insert _ _ _ _ _ (node :: back) _ _
    hlist isSlot rfl fresh ⟨?_, ?_⟩ ⟨?_, ?_⟩ ?_ ?_, ?_⟩
  · rw [backward_linkPprev (by simp [nodeAllocated]) notNull,
      if_neg different.symm, backward_linkSlot,
      backward_linkPprev (by simp [allocated]) notNull, if_pos rfl]
  · simp [forward_linkSlot, accessible]
  · intro _
    rw [backward_linkSlot, backward_linkPprev (by simp [nodeAllocated])
        notNull, if_neg different.symm, backward_linkSlot,
      backward_linkPprev (by simp [allocated]) notNull, if_pos rfl]
  · simp [forward_linkSlot, accessible, allocated, notNext]
  · intro _
    rw [List.headD_cons, backward_linkSlot,
      backward_linkPprev (by simp [nodeAllocated]) nodeNotNull,
      if_pos rfl]
  · intro one isInner notNew
    simp [forward_linkSlot, accessible, allocated, isInner, notNew]
  · intro one oneNotNull notNew notNode
    have notNode : one ≠ node := notNode
    rw [backward_linkSlot, backward_linkPprev (by simp [nodeAllocated])
        oneNotNull, if_neg notNode, backward_linkSlot,
      backward_linkPprev (by simp [allocated]) oneNotNull,
      if_neg notNew]
  · refine (((Rewires.refl.linkPprev ?_).linkSlot ?_ ?_).linkPprev
      ?_).linkSlot ?_ ?_
    · simp
    · simp
    · simp
    · simp
    · rintro other rfl
      simpa using slotNode
    · rintro other rfl
      exact .tail _ (List.mem_append_left _ (by simpa using slotNode))

/-- `hlist_add_after` adds a node after a node of a list. -/
theorem Hlist.ensures_hlistAddAfter
    (hlist : Hlist memory head (front ++ node :: back))
    (allocated : Allocated memory new)
    (fresh : new ∉ front ++ node :: back) :
    (hlistAddAfter node new).Ensures memory fun _ after =>
      Hlist after head (front ++ node :: new :: back) ∧
        Rewires memory [head] (new :: (front ++ node :: back)) after := by
  obtain ⟨-, isNext⟩ := hlist.neighbours
  generalize isFollowing : back.headD null = following at isNext
  have split : Hlist memory head ((front ++ [node]) ++ ([] ++ back)) := by
    simpa using hlist
  obtain ⟨-, -, followingNode, followingAllocated⟩ :=
    split.around rfl isFollowing
  have notNull := allocated.ne_null
  have nodeAllocated : Allocated memory node :=
    hlist.allocated (by simp)
  have different : node ≠ new := by
    grind
  have isLast :
      lastSlot Slot.next (.first head) (front ++ [node]) =
        .next node := by
    simp
  have notFollowing : new ≠ following := by
    rintro rfl
    exact fresh (by simp [followingNode notNull])
  have isStored :
      (wiring (linkPprev new (.next node) (linkSlot (.next node) new
        (linkSlot (.next new) following memory)))).forward (.next new) =
        some following := by
    simp [forward_linkSlot, allocated, nodeAllocated, different.symm]
  simp only [hlistAddAfter, ensures_bind, ensures_next, isNext,
    Option.some.injEq, exists_eq_left', ensures_setNext,
    ensures_setPprev, ensures_setPprev_of_present, allocated,
    nodeAllocated, allocated_linkSlot, allocated_linkPprev, isStored,
    true_and]
  have added : Hlist _ head ((front ++ [node]) ++ new :: back) :=
    @Hlist.insert _
      (linkPprev following (.next new) (linkPprev new (.next node)
        (linkSlot (.next node) new
          (linkSlot (.next new) following memory)))) _ _ _ _ _ _ split
      isLast isFollowing (by simpa using fresh) ⟨?_, ?_⟩ ⟨?_, ?_⟩ ?_ ?_
  · refine ⟨followingAllocated, by simpa using added, ?_⟩
    refine (((Rewires.refl.linkSlot ?_ ?_).linkSlot ?_ ?_).linkPprev
      ?_).linkPprev ?_
    · simp
    · simp
    · simp
    · simp
    · simp
    · intro isNode
      simp [followingNode isNode]
  · simp [forward_linkSlot, nodeAllocated]
  · intro _
    rw [backward_linkPprev (by simpa using followingAllocated) notNull,
      if_neg notFollowing, backward_linkPprev (by simp [allocated])
        notNull, if_pos rfl]
  · rw [forward_linkPprev, isStored]
  · intro followingNotNull
    rw [backward_linkPprev (by simpa using followingAllocated)
        followingNotNull, if_pos rfl]
  · intro one isInner notNew
    simp [forward_linkSlot, allocated, nodeAllocated, isInner, notNew]
  · intro one oneNotNull notNew isInner
    rw [backward_linkPprev (by simpa using followingAllocated) oneNotNull,
      if_neg isInner, backward_linkPprev (by simp [allocated]) oneNotNull,
      if_neg notNew, backward_linkSlot, backward_linkSlot]

/-- `INIT_HLIST_HEAD` makes an empty list. -/
theorem ensures_initHlistHead
    (accessible : Accessible memory (.first head)) :
    (initHlistHead head).Ensures memory fun _ after =>
      Hlist after head [] ∧ Rewires memory [head] [] after := by
  rw [initHlistHead, ensures_setFirst]
  refine ⟨accessible, ⟨.nil, path_nil.mpr ⟨?_, ?_⟩⟩, ?_⟩
  · simp [forward_linkSlot accessible]
  · exact fun notNull => absurd rfl notNull
  · exact Rewires.refl.linkSlot (by simp) (by simp)

/-- `hlist_move_list` gives all nodes of a list to another head. -/
theorem Hlist.ensures_hlistMoveList
    (hlist : Hlist memory old nodes)
    (accessible : Accessible memory (.first new))
    (different : old ≠ new) :
    (hlistMoveList old new).Ensures memory fun _ after =>
      Hlist after new nodes ∧ Hlist after old [] ∧
        Rewires memory [old, new] nodes after := by
  have isFirst := hlist.linked.forward_start
  generalize isFollowing : nodes.headD null = following at isFirst
  obtain ⟨-, oldAccessible, followingNode, followingAllocated⟩ :=
    @Hlist.around _ _ [] _ [] _ _ hlist rfl isFollowing
  have oldAccessible : Accessible memory (.first old) := oldAccessible
  simp only [hlistMoveList, ensures_bind, ensures_first, isFirst,
    Option.some.injEq, exists_eq_left', ensures_setFirst,
    ensures_setPprev_of_present, forward_linkSlot accessible, accessible,
    oldAccessible, ↓reduceIte, allocated_linkSlot, accessible_linkSlot,
    accessible_linkPprev, true_and]
  refine ⟨followingAllocated, ⟨hlist.distinct, ?_⟩,
    ⟨.nil, path_nil.mpr ⟨?_, ?_⟩⟩, ?_⟩
  · refine hlist.linked.restart ?_ ⟨?_, ?_⟩ ?_ ?_
    · have notNull := hlist.null_notMem
      have distinct := hlist.distinct
      grind
    · rw [isFollowing]
      simp [forward_linkSlot, accessible, oldAccessible, different.symm]
    · intro notNull
      rw [isFollowing] at notNull ⊢
      rw [backward_linkSlot, backward_linkPprev
          (by simpa using followingAllocated) notNull, if_pos rfl]
    · intro one isNode
      simp [forward_linkSlot, accessible, oldAccessible]
    · intro one isNode isInner notNull
      rw [isFollowing] at isInner
      rw [backward_linkSlot, backward_linkPprev
          (by simpa using followingAllocated) notNull, if_neg isInner,
        backward_linkSlot]
  · simp [forward_linkSlot, oldAccessible]
  · exact fun notNull => absurd rfl notNull
  · refine ((Rewires.refl.linkSlot ?_ ?_).linkPprev ?_).linkSlot ?_ ?_
    · simp
    · simp
    · exact followingNode
    · simp
    · simp

end Chains

end LibKern.Hlists
