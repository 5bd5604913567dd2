import LibKern.ListRings
import LibKern.SequenceMap
import Mathlib.Data.List.Rotate

namespace LibKern.Lists

/-!
# Lists as sequences

The live lists are sequences of entries that are named by their heads.  Every
function of `include/list.h` is compared with an operation on these sequences.
A node that is not part of a live list can be used as a new node.
-/

open Program Wiring SequenceMap

/-- The live lists, with the entries of every head. -/
abbrev ListMap := SequenceMap Word Word

/-- The memory holds the live lists, and they have no node in common. -/
structure Refines (memory : ListMemory) (lists : ListMap) : Prop
    extends lists.Held List.cons (Ring memory)

section Changes

variable {memory after : ListMemory}
variable {lists : ListMap}
variable {head entry new old list : Word}
variable {front back items nodes : List Word}

/-- All nodes of the live lists can be accessed. -/
theorem Refines.allocated
    (refines : Refines memory lists)
    {node : Word}
    (owns : lists.Owns List.cons head node) :
    Allocated memory node := by
  obtain ⟨items, isList, isNode⟩ := owns
  exact (refines.holds head items isList).allocated isNode

/-- Nodes that are not part of any list are changed. -/
theorem Refines.elsewhere
    (refines : Refines memory lists)
    (rewires : Rewires memory nodes after)
    (free : ∀ node ∈ nodes, lists.Free List.cons node) :
    Refines after lists :=
  ⟨refines.toHeld.elsewhere (fun _ _ _ ring untouched =>
    ring.congr fun node isNode => rewires.same node
      (untouched node isNode)) free⟩

/-- A list is given up. -/
theorem Refines.drop
    (refines : Refines memory lists)
    (head : Word) :
    Refines memory (lists.drop head) :=
  ⟨refines.toHeld.drop head⟩

/-- One list is changed; it only gets nodes that are free. -/
theorem Refines.set
    (refines : Refines memory lists)
    {before : List Word}
    (isList : lists head = some before)
    (rewires : Rewires memory nodes after)
    (touched :
      ∀ node ∈ nodes,
        node ∈ head :: before ∨ lists.Free List.cons node)
    (ring : Ring after head items)
    (added : ∀ node ∈ items, node ∈ before ∨ lists.Free List.cons node) :
    Refines after (lists.set head items) := by
  refine ⟨refines.toHeld.change (fun _ _ _ _ other untouched =>
    other.congr fun node isNode => rewires.same node
      (untouched node isNode)) ?_ ring ?_⟩
  · intro node isNode
    exact (touched node isNode).imp_left fun isOwned =>
      ⟨before, isList, isOwned⟩
  · intro node isNode
    rcases List.mem_cons.mp isNode with rfl | isItem
    · exact .inl ⟨before, isList, .head _⟩
    · exact (added node isItem).imp_left fun isOwned =>
        ⟨before, isList, List.mem_cons_of_mem _ isOwned⟩

/-- The head of a list is initialised. -/
theorem Refines.init
    (refines : Refines memory lists)
    (allocated : Allocated memory list)
    (free : (lists.drop list).Free List.cons list) :
    (initListHead list).Ensures memory fun _ after =>
      Refines after (lists.set list []) := by
  refine (ensures_initListHead allocated).weaken ?_
  intro _ after result
  obtain ⟨ring, rewires⟩ := result
  have others : Refines after (lists.drop list) :=
    (refines.drop list).elsewhere rewires (by simpa using free)
  have adopted := others.toHeld.set ring ?_
  · rw [set_drop] at adopted
    exact ⟨adopted⟩
  · intro node isNode
    obtain rfl : node = list := by simpa using isNode
    exact .inr free

/-- A new node is added between two nodes of a list. -/
theorem Refines.addBetween
    {before following : Word}
    (refines : Refines memory lists)
    (isList : lists head = some (front ++ back))
    (allocated : Allocated memory new)
    (free : lists.Free List.cons new)
    (isBefore : lastSlot id head front = before)
    (isFollowing : back.headD head = following) :
    (listAddBetween new before following).Ensures memory fun _ after =>
      Refines after (lists.set head (front ++ new :: back)) := by
  have ring := refines.holds head _ isList
  have fresh : new ∉ head :: (front ++ back) := by
    intro isNode
    exact free head ⟨_, isList, isNode⟩
  refine (ring.ensures_listAddBetween isBefore isFollowing allocated
    fresh).weaken ?_
  intro _ after result
  obtain ⟨added, rewires⟩ := result
  refine refines.set isList rewires ?_ added ?_
  · intro node isNode
    rcases List.mem_cons.mp isNode with rfl | isNode
    · exact .inr free
    · exact .inl isNode
  · intro node isNode
    rcases List.mem_append.mp isNode with inFront | isLater
    · exact .inl (List.mem_append_left _ inFront)
    · rcases List.mem_cons.mp isLater with rfl | inBack
      · exact .inr free
      · exact .inl (List.mem_append_right _ inBack)

/-- An entry is unlinked. -/
theorem Refines.unlink
    (refines : Refines memory lists)
    (isList : lists head = some (front ++ entry :: back)) :
    (listUnlink entry).Ensures memory fun _ after =>
      Refines after (lists.set head (front ++ back)) ∧
        (lists.set head (front ++ back)).Free List.cons entry ∧
        Allocated after entry := by
  have ring := refines.holds head _ isList
  have distinct := ring.distinct
  refine ring.ensures_listUnlink.weaken ?_
  intro _ after result
  obtain ⟨unlinked, rewires⟩ := result
  refine ⟨refines.set isList rewires ?_ unlinked ?_, ?_, ?_⟩
  · intro node isNode
    exact .inl (by grind)
  · intro node isNode
    exact .inl (by grind)
  · intro other owns
    rcases owns_set.mp owns with ⟨rfl, isNode⟩ | ⟨different, wasOwned⟩
    · grind
    · exact different (refines.unique other head entry wasOwned
        ⟨_, isList, by simp⟩)
  · exact rewires.allocated entry (ring.allocated (by simp))

/-- An entry is replaced by a new node. -/
theorem Refines.replace
    (refines : Refines memory lists)
    (isList : lists head = some (front ++ old :: back))
    (allocated : Allocated memory new)
    (free : lists.Free List.cons new) :
    (listReplace old new).Ensures memory fun _ after =>
      Refines after (lists.set head (front ++ new :: back)) ∧
        (lists.set head (front ++ new :: back)).Free List.cons old ∧
        Allocated after old := by
  have ring := refines.holds head _ isList
  have distinct := ring.distinct
  have fresh : new ∉ head :: (front ++ old :: back) := by
    intro isNode
    exact free head ⟨_, isList, isNode⟩
  refine (ring.ensures_listReplace allocated fresh).weaken ?_
  intro _ after result
  obtain ⟨replaced, rewires⟩ := result
  refine ⟨refines.set isList rewires ?_ replaced ?_, ?_, ?_⟩
  · intro node isNode
    by_cases isNew : node = new
    · exact .inr (isNew ▸ free)
    · exact .inl (by grind)
  · intro node isNode
    by_cases isNew : node = new
    · exact .inr (isNew ▸ free)
    · exact .inl (by grind)
  · intro other owns
    rcases owns_set.mp owns with ⟨rfl, isNode⟩ | ⟨different, wasOwned⟩
    · grind
    · exact different (refines.unique other head old wasOwned
        ⟨_, isList, by simp⟩)
  · exact rewires.allocated old (ring.allocated (by simp))

/-- The entries of one list are moved between two nodes of another one. -/
theorem Refines.spliceBetween
    {before following : Word}
    (refines : Refines memory lists)
    (isSource : lists list = some items)
    (isList : lists head = some (front ++ back))
    (different : list ≠ head)
    (nonempty : items ≠ [])
    (isBefore : lastSlot id head front = before)
    (isFollowing : back.headD head = following) :
    (listSpliceBetween list before following).Ensures memory
      fun _ after =>
        Refines after
            ((lists.drop list).set head (front ++ (items ++ back))) ∧
          ((lists.drop list).set head (front ++ (items ++ back))).Free
            List.cons list ∧
          Allocated after list := by
  have source := refines.holds list _ isSource
  have ring := refines.holds head _ isList
  have apart : List.Disjoint (list :: items) (head :: (front ++ back)) := by
    intro node inSource inList
    exact different (refines.unique list head node
      ⟨_, isSource, inSource⟩ ⟨_, isList, inList⟩)
  have free (node : Word) (isItem : node ∈ items) :
      (lists.drop list).Free List.cons node :=
    refines.toHeld.free_drop ⟨_, isSource, List.mem_cons_of_mem _ isItem⟩
  refine (source.ensures_listSpliceBetween nonempty ring apart isBefore
    isFollowing).weaken ?_
  intro _ after result
  obtain ⟨spliced, rewires⟩ := result
  have stillList : (lists.drop list) head = some (front ++ back) := by
    rw [drop_of_ne different.symm, isList]
  refine ⟨(refines.drop list).set stillList rewires ?_ spliced ?_, ?_,
    ?_⟩
  · intro node isNode
    rcases List.mem_append.mp isNode with isItem | isNode
    · exact .inr (free node isItem)
    · exact .inl isNode
  · intro node isNode
    by_cases isItem : node ∈ items
    · exact .inr (free node isItem)
    · exact .inl (by grind)
  · intro other owns
    rcases owns_set.mp owns with ⟨rfl, isNode⟩ | ⟨-, wasOwned⟩
    · have notItem := (List.nodup_cons.mp source.distinct).1
      have outside : list ∉ other :: (front ++ back) :=
        fun inList => apart (.head _) inList
      grind
    · exact refines.toHeld.free_drop ⟨_, isSource, .head _⟩ other wasOwned
  · exact rewires.allocated list (source.allocated (.head _))

/-- The front part of a list is moved to an empty list. -/
theorem Refines.cutAt
    (refines : Refines memory lists)
    (isTarget : lists list = some [])
    (isList : lists head = some (front ++ entry :: back))
    (different : list ≠ head) :
    (listCutAt list head entry).Ensures memory fun _ after =>
      Refines after
        ((lists.set list (front ++ [entry])).set head back) := by
  have ring := refines.holds head _ isList
  have distinct := ring.distinct
  have owned : lists.Owns List.cons list list := ⟨_, isTarget, .head _⟩
  have allocated := refines.allocated owned
  have fresh : list ∉ head :: (front ++ entry :: back) := by
    intro isNode
    exact different (refines.unique list head list owned
      ⟨_, isList, isNode⟩)
  refine (ring.ensures_listCutAt allocated fresh).weaken ?_
  intro _ after result
  obtain ⟨cut, rest, rewires⟩ := result
  have stillList :
      (lists.drop list) head = some (front ++ entry :: back) := by
    rw [drop_of_ne different.symm, isList]
  have others : Refines after ((lists.drop list).set head back) := by
    refine (refines.drop list).set stillList rewires ?_ rest ?_
    · intro node isNode
      rcases List.mem_cons.mp isNode with rfl | isNode
      · exact .inr (refines.toHeld.free_drop owned)
      · exact .inl isNode
    · intro node isNode
      exact .inl (by grind)
  have adopted := others.toHeld.set cut ?_
  · rw [set_comm different.symm, set_drop] at adopted
    exact ⟨adopted⟩
  · intro node isNode
    refine .inr fun other owns => ?_
    rcases owns_set.mp owns with ⟨rfl, inBack⟩ | ⟨notHead, wasOwned⟩
    · grind
    · rcases List.mem_cons.mp isNode with rfl | isItem
      · exact refines.toHeld.free_drop owned other wasOwned
      · refine notHead (refines.unique other head node
          (owns_drop.mp wasOwned).2 ⟨_, isList, ?_⟩)
        grind

end Changes

/-- A node that is in no list; it can be the head of an empty list. -/
structure Fresh
    (memory : ListMemory)
    (lists : ListMap)
    (node : Word) : Prop where
  allocated : Allocated memory node
  unused :
    ∀ head items, lists head = some items → node ∈ head :: items →
      node = head ∧ items = []

section Operations

variable {memory after : ListMemory}
variable {lists : ListMap}
variable {head entry new old list : Word}
variable {front back items : List Word}

/-- Substituting an entry only changes its own list. -/
theorem Refines.substituted_eq
    (refines : Refines memory lists)
    (isList : lists head = some (front ++ entry :: back)) :
    lists.substituted entry items =
      lists.set head (front ++ (items ++ back)) :=
  refines.toHeld.substituted_eq (fun _ _ _ => List.mem_cons_of_mem _)
    isList (List.nodup_cons.mp (refines.holds head _ isList).distinct).2

/-- A fresh node is free when it is not the head of a list any more. -/
theorem Fresh.free
    (fresh : Fresh memory lists new) :
    (lists.drop new).Free List.cons new := by
  intro head owns
  obtain ⟨different, items, isList, isNode⟩ := owns_drop.mp owns
  exact different (fresh.unused head items isList isNode).1.symm

/-- The list of an entry is still there without a fresh node. -/
theorem Fresh.drop_of_mem
    (fresh : Fresh memory lists new)
    (isList : lists head = some items)
    (isEntry : entry ∈ items) :
    (lists.drop new) head = some items := by
  have different : head ≠ new := by
    rintro rfl
    obtain ⟨-, rfl⟩ := fresh.unused head items isList (.head _)
    simp at isEntry
  rw [drop_of_ne different, isList]

/-- `list_add`. -/
theorem Refines.listAdd
    (refines : Refines memory lists)
    (isList : lists head = some items)
    (allocated : Allocated memory new)
    (free : lists.Free List.cons new) :
    (listAdd new head).Ensures memory fun _ after =>
      Refines after (lists.set head (new :: items)) := by
  have isFirst := (refines.holds head _ isList).linked.forward_start
  simp only [Lists.listAdd, ensures_bind, ensures_next, isFirst,
    Option.some.injEq, exists_eq_left']
  exact @Refines.addBetween _ _ _ _ [] items _ _ refines isList allocated
    free rfl rfl

/-- `list_add_tail`. -/
theorem Refines.listAddTail
    (refines : Refines memory lists)
    (isList : lists head = some items)
    (allocated : Allocated memory new)
    (free : lists.Free List.cons new) :
    (listAddTail new head).Ensures memory fun _ after =>
      Refines after (lists.set head (items ++ [new])) := by
  have ring := refines.holds head _ isList
  have isLast := ring.linked.backward_stop
    (ring.allocated (.head _)).ne_null
  simp only [Lists.listAddTail, ensures_bind, ensures_prev, isLast,
    Option.some.injEq, exists_eq_left']
  exact @Refines.addBetween _ _ _ _ items [] _ _ refines
    (by simpa using isList) allocated free rfl rfl

/-- `list_del`. -/
theorem Refines.listDel
    (refines : Refines memory lists)
    (isList : lists head = some (front ++ entry :: back)) :
    (listDel entry).Ensures memory fun _ after =>
      Refines after (lists.without entry) := by
  rw [without, refines.substituted_eq isList, Lists.listDel, ensures_bind]
  refine (refines.unlink isList).weaken ?_
  intro _ between result
  obtain ⟨unlinked, free, allocated⟩ := result
  simp only [ensures_bind, ensures_setNext, ensures_setPrev, allocated,
    allocated_linkNext, true_and]
  refine @Refines.elsewhere _ _ _ [entry] unlinked
    ((Rewires.refl.linkNext (.head _)).linkPrev (.head _)) ?_
  simpa using free

/-- `list_del_init`. -/
theorem Refines.listDelInit
    (refines : Refines memory lists)
    (isList : lists head = some (front ++ entry :: back)) :
    (listDelInit entry).Ensures memory fun _ after =>
      Refines after ((lists.without entry).set entry []) := by
  rw [without, refines.substituted_eq isList, Lists.listDelInit, ensures_bind]
  refine (refines.unlink isList).weaken ?_
  intro _ between result
  obtain ⟨unlinked, free, allocated⟩ := result
  exact unlinked.init allocated free.drop

/-- `list_replace_init`. -/
theorem Refines.listReplaceInit
    (refines : Refines memory lists)
    (isList : lists head = some (front ++ old :: back))
    (allocated : Allocated memory new)
    (free : lists.Free List.cons new) :
    (listReplaceInit old new).Ensures memory fun _ after =>
      Refines after ((lists.replaced old new).set old []) := by
  rw [replaced, refines.substituted_eq isList, Lists.listReplaceInit,
    ensures_bind]
  refine (refines.replace isList allocated free).weaken ?_
  intro _ between result
  obtain ⟨replaced, oldFree, oldAllocated⟩ := result
  exact replaced.init oldAllocated oldFree.drop

/-- `list_move`. -/
theorem Refines.listMove
    {target : Word}
    (refines : Refines memory lists)
    (isList : lists head = some (front ++ entry :: back))
    (live : lists.Live target) :
    (listMove entry target).Ensures memory fun _ after =>
      Refines after
        ((lists.without entry).set target
          (entry :: (lists.without entry).entries target)) := by
  have isRest := @without_of_live _ _ _ _ _ entry live
  rw [Lists.listMove, ensures_bind]
  rw [without, refines.substituted_eq isList] at isRest ⊢
  refine (refines.unlink isList).weaken ?_
  intro _ between result
  obtain ⟨unlinked, free, allocated⟩ := result
  exact unlinked.listAdd isRest allocated free

/-- `list_move_tail`. -/
theorem Refines.listMoveTail
    {target : Word}
    (refines : Refines memory lists)
    (isList : lists head = some (front ++ entry :: back))
    (live : lists.Live target) :
    (listMoveTail entry target).Ensures memory fun _ after =>
      Refines after
        ((lists.without entry).set target
          ((lists.without entry).entries target ++ [entry])) := by
  have isRest := @without_of_live _ _ _ _ _ entry live
  rw [Lists.listMoveTail, ensures_bind]
  rw [without, refines.substituted_eq isList] at isRest ⊢
  refine (refines.unlink isList).weaken ?_
  intro _ between result
  obtain ⟨unlinked, free, allocated⟩ := result
  exact unlinked.listAddTail isRest allocated free

/-- `list_rotate_left`. -/
theorem Refines.listRotateLeft
    (refines : Refines memory lists)
    (isList : lists head = some items) :
    (listRotateLeft head).Ensures memory fun _ after =>
      Refines after (lists.set head (items.rotate 1)) := by
  have ring := refines.holds head _ isList
  rw [Lists.listRotateLeft, ensures_bind]
  refine ring.ensures_listEmpty.weaken ?_
  intro isEmpty between result
  obtain ⟨rfl, rfl⟩ := result
  cases items with
  | nil =>
      rw [ensures_onlyIf_of_not (by simp), List.rotate_nil,
        set_eq_self isList]
      exact refines
  | cons first rest =>
      have isFirst := ring.linked.forward_start
      rw [ensures_onlyIf_of (by simp)]
      simp only [ensures_bind, ensures_next, isFirst, Option.some.injEq,
        exists_eq_left', List.headD_cons]
      refine (@Refines.listMoveTail _ _ _ _ [] _ _ refines isList
        ⟨_, isList⟩).weaken ?_
      intro _ after moved
      rw [without, @Refines.substituted_eq _ _ _ _ [] _ [] refines
        isList, set_set, entries_of set_same] at moved
      rwa [List.rotate_cons_succ, List.rotate_zero]

/-- The common part of `list_splice` and its variants. -/
theorem Refines.spliceNonempty
    {program : Program ListMemory Unit}
    {result : ListMap}
    (refines : Refines memory lists)
    (isSource : lists list = some items)
    (ifEmpty : items = [] → Refines memory result)
    (ifFull :
      items ≠ [] →
        program.Ensures memory fun _ after => Refines after result) :
    (do
      let isEmpty ← listEmpty list
      onlyIf (isEmpty = false) program).Ensures memory fun _ after =>
        Refines after result := by
  rw [ensures_bind]
  refine (refines.holds list _ isSource).ensures_listEmpty.weaken ?_
  intro isEmpty between outcome
  obtain ⟨rfl, rfl⟩ := outcome
  by_cases noItem : items = []
  · rw [ensures_onlyIf_of_not (by simp [noItem])]
    exact ifEmpty noItem
  · rw [ensures_onlyIf_of (by simp [noItem])]
    exact ifFull noItem

/-- `list_splice`. -/
theorem Refines.listSplice
    {others : List Word}
    (refines : Refines memory lists)
    (isSource : lists list = some items)
    (isList : lists head = some others)
    (different : list ≠ head) :
    (listSplice list head).Ensures memory fun _ after =>
      Refines after
        (if items = [] then lists
          else (lists.drop list).set head (items ++ others)) := by
  have isFirst := (refines.holds head _ isList).linked.forward_start
  refine refines.spliceNonempty isSource ?_ ?_
  · intro noItem
    rwa [if_pos noItem]
  · intro nonempty
    rw [if_neg nonempty]
    simp only [ensures_bind, ensures_next, isFirst, Option.some.injEq,
      exists_eq_left']
    refine (@Refines.spliceBetween _ _ _ _ [] _ _ _ _ refines isSource
      isList different nonempty rfl rfl).weaken ?_
    intro _ after result
    exact result.1

/-- `list_splice_tail`. -/
theorem Refines.listSpliceTail
    {others : List Word}
    (refines : Refines memory lists)
    (isSource : lists list = some items)
    (isList : lists head = some others)
    (different : list ≠ head) :
    (listSpliceTail list head).Ensures memory fun _ after =>
      Refines after
        (if items = [] then lists
          else (lists.drop list).set head (others ++ items)) := by
  have ring := refines.holds head _ isList
  have isLast := ring.linked.backward_stop
    (ring.allocated (.head _)).ne_null
  refine refines.spliceNonempty isSource ?_ ?_
  · intro noItem
    rwa [if_pos noItem]
  · intro nonempty
    rw [if_neg nonempty]
    simp only [ensures_bind, ensures_prev, isLast, Option.some.injEq,
      exists_eq_left']
    refine (@Refines.spliceBetween _ _ _ _ others [] _ _ _ refines
      isSource (by simpa using isList) different nonempty rfl
      rfl).weaken ?_
    intro _ after result
    simpa using result.1

/-- The head of a list whose entries were moved is initialised. -/
theorem Refines.initSpliced
    {results : List Word}
    (spliced : Refines memory ((lists.drop list).set head results))
    (allocated : Allocated memory list)
    (free : ((lists.drop list).set head results).Free List.cons list)
    (different : list ≠ head) :
    (initListHead list).Ensures memory fun _ after =>
      Refines after ((lists.set list []).set head results) := by
  refine (spliced.init allocated free.drop).weaken ?_
  intro _ after reinitialised
  rwa [set_comm different.symm, set_drop] at reinitialised

/-- A list without entries is spliced. -/
theorem Refines.set_nil
    {others : List Word}
    (refines : Refines memory lists)
    (isSource : lists list = some [])
    (isList : lists head = some others) :
    Refines memory ((lists.set list []).set head others) := by
  rwa [set_eq_self isSource, set_eq_self isList]

/-- `list_splice_init`. -/
theorem Refines.listSpliceInit
    {others : List Word}
    (refines : Refines memory lists)
    (isSource : lists list = some items)
    (isList : lists head = some others)
    (different : list ≠ head) :
    (listSpliceInit list head).Ensures memory fun _ after =>
      Refines after ((lists.set list []).set head (items ++ others)) := by
  have isFirst := (refines.holds head _ isList).linked.forward_start
  refine refines.spliceNonempty isSource ?_ ?_
  · intro noItem
    subst noItem
    exact refines.set_nil isSource isList
  · intro nonempty
    simp only [ensures_bind, ensures_next, isFirst, Option.some.injEq,
      exists_eq_left']
    refine (@Refines.spliceBetween _ _ _ _ [] _ _ _ _ refines isSource
      isList different nonempty rfl rfl).weaken ?_
    intro _ between result
    obtain ⟨moved, free, allocated⟩ := result
    exact moved.initSpliced allocated free different

/-- `list_splice_tail_init`. -/
theorem Refines.listSpliceTailInit
    {others : List Word}
    (refines : Refines memory lists)
    (isSource : lists list = some items)
    (isList : lists head = some others)
    (different : list ≠ head) :
    (listSpliceTailInit list head).Ensures memory fun _ after =>
      Refines after ((lists.set list []).set head (others ++ items)) := by
  have ring := refines.holds head _ isList
  have isLast := ring.linked.backward_stop
    (ring.allocated (.head _)).ne_null
  refine refines.spliceNonempty isSource ?_ ?_
  · intro noItem
    subst noItem
    simpa using refines.set_nil isSource isList
  · intro nonempty
    simp only [ensures_bind, ensures_prev, isLast, Option.some.injEq,
      exists_eq_left']
    refine (@Refines.spliceBetween _ _ _ _ others [] _ _ _ refines
      isSource (by simpa using isList) different nonempty rfl
      rfl).weaken ?_
    intro _ between result
    obtain ⟨moved, free, allocated⟩ := result
    rw [List.append_nil] at moved free
    exact moved.initSpliced allocated free different

/-- The place at which a list is cut. -/
theorem take_drop_idxOf
    (distinct : (front ++ entry :: back).Nodup) :
    (front ++ entry :: back).take
        ((front ++ entry :: back).idxOf entry + 1) =
      front ++ [entry] ∧
    (front ++ entry :: back).drop
        ((front ++ entry :: back).idxOf entry + 1) = back := by
  have notFront : entry ∉ front := by
    grind
  have position : (front ++ entry :: back).idxOf entry = front.length := by
    rw [List.idxOf_append_of_notMem notFront, List.idxOf_cons_self,
      Nat.add_zero]
  rw [position]
  constructor
  · simp [List.take_append]
  · simp [List.drop_append]

/-- `list_cut_position`. -/
theorem Refines.listCutPosition
    (refines : Refines memory lists)
    (isTarget : lists list = some [])
    (different : list ≠ head)
    (isList : lists head = some items)
    (isNode : entry ∈ head :: items) :
    (listCutPosition list head entry).Ensures memory fun _ after =>
      Refines after
        (if entry = head then lists.set list []
          else
            (lists.set list (items.take (items.idxOf entry + 1))).set head
              (items.drop (items.idxOf entry + 1))) := by
  have ring := refines.holds head _ isList
  have isFirst := ring.linked.forward_start
  have owned : lists.Owns List.cons list list := ⟨_, isTarget, .head _⟩
  rw [Lists.listCutPosition, ensures_bind]
  refine ring.ensures_listEmpty.weaken ?_
  intro isEmpty between result
  obtain ⟨rfl, rfl⟩ := result
  by_cases noItem : items = []
  · subst noItem
    obtain rfl : entry = head := by simpa using isNode
    simpa [set_eq_self isTarget] using refines
  · simp only [noItem, decide_false, Bool.false_eq_true, ↓reduceIte,
      ensures_bind]
    refine ring.ensures_listIsSingular.weaken ?_
    intro isSingular between result
    obtain ⟨rfl, rfl⟩ := result
    simp only [ensures_next, isFirst, Option.some.injEq, exists_eq_left']
    have onList :
        ¬(decide (items.length = 1) = true ∧
          items.headD head ≠ entry ∧ head ≠ entry) := by
      intro missed
      obtain ⟨isSingle, notFirst, notHead⟩ := missed
      obtain ⟨item, rfl⟩ :=
        List.length_eq_one_iff.mp (of_decide_eq_true isSingle)
      rcases List.mem_cons.mp isNode with isHead | isItem
      · exact notHead isHead.symm
      · exact notFirst (List.mem_singleton.mp isItem).symm
    rw [if_neg onList, ensures_ite]
    by_cases isHead : entry = head
    · rw [if_pos isHead, if_pos isHead]
      exact refines.init (refines.allocated owned)
        (refines.toHeld.free_drop owned)
    · rw [if_neg isHead, if_neg isHead]
      obtain ⟨front, back, rfl⟩ :=
        List.append_of_mem ((List.mem_cons.mp isNode).resolve_left isHead)
      obtain ⟨taken, dropped⟩ :=
        take_drop_idxOf (List.nodup_cons.mp ring.distinct).2
      rw [taken, dropped]
      exact refines.cutAt isTarget isList different

end Operations

end LibKern.Lists
