import LibKern.ListRuns

namespace LibKern.Lists

/-!
# Loops that remove entries

The loops of `include/list.h` that are safe against removal look up the next
entry before their body runs.  The body of the loops below removes some of the
entries, by a call that deletes the entry or moves it to another list, and notes
every visit.
-/

open Program Wiring SequenceMap

/-- The calls that remove an entry from its list. -/
inductive Removal where
  | del
  | delInit
  | move (head : Word)
  | moveTail (head : Word)
  deriving Repr, DecidableEq

namespace Removal

/-- The operation on an entry. -/
def operation (entry : Word) : Removal → ListOp
  | .del => .del entry
  | .delInit => .delInit entry
  | .move head => .move entry head
  | .moveTail head => .moveTail entry head

/-- An entry can only be moved to a different live list. -/
def Leaves (lists : ListMap) (head : Word) : Removal → Prop
  | .del | .delInit => True
  | .move target | .moveTail target => target ≠ head ∧ lists.Live target

section Effect

variable {removal : Removal}
variable {lists : ListMap}
variable {head entry target : Word}

/-- Only the entry leaves its list. -/
theorem apply_head
    (leaves : removal.Leaves lists head)
    (different : head ≠ entry)
    (now : ListMap) :
    ((removal.operation entry).apply now) head =
      (now.without entry) head := by
  cases removal with
  | del =>
      rfl
  | delInit =>
      exact set_of_ne different
  | move target | moveTail target =>
      exact set_of_ne leaves.1.symm

/-- A list stays live. -/
theorem live_apply
    (live : lists.Live target) :
    ((removal.operation entry).apply lists).Live target := by
  have stillLive : (lists.without entry).Live target :=
    ⟨_, without_of_live live⟩
  have setLive
      (key : Word)
      (items : List Word) :
      ((lists.without entry).set key items).Live target := by
    by_cases same : target = key
    · subst same
      exact ⟨items, set_same⟩
    · obtain ⟨others, isList⟩ := stillLive
      exact ⟨others, (set_of_ne same).trans isList⟩
  cases removal with
  | del =>
      exact stillLive
  | delInit =>
      exact setLive _ _
  | move head | moveTail head =>
      exact setLive _ _

end Effect

end Removal

/-- Remove a node, or leave it alone. -/
def removeNode (how : Option Removal) (node : Word) :
    Program ListMemory Unit :=
  match how with
  | none => pure ()
  | some removal => (removal.operation node).program

/-- The lists after a node was removed or left alone. -/
def removedNode
    (how : Word → Option Removal)
    (lists : ListMap)
    (node : Word) :
    ListMap :=
  match how node with
  | none => lists
  | some removal => (removal.operation node).apply lists

/-- The body of a loop over nodes. -/
def visitNode
    (how : Word → Option Removal)
    (pos : Word)
    (visited : List Word) :
    Program ListMemory (List Word) := do
  removeNode (how pos) pos
  pure (visited ++ [pos])

/-- The body of a loop over the structures around the nodes. -/
def visitEntry
    (how : Word → Option Removal)
    (member pos : Word)
    (visited : List Word) :
    Program ListMemory (List Word) := do
  removeNode (how (pos + member)) (pos + member)
  pure (visited ++ [pos])

/-- Some nodes were visited, and the others are still in the list. -/
structure Pruned
    (how : Word → Option Removal)
    (lists : ListMap)
    (head : Word)
    (items done rest : List Word)
    (memory : ListMemory) : Prop where
  refines : Refines memory (done.foldl (removedNode how) lists)
  isList :
    (done.foldl (removedNode how) lists) head =
      some (items.filter fun node => node ∈ rest ∨ how node = none)
  live :
    ∀ target, lists.Live target →
      (done.foldl (removedNode how) lists).Live target

section Visits

variable {how : Word → Option Removal}
variable {memory : ListMemory}
variable {lists : ListMap}
variable {head node entry member : Word}
variable {items done rest front back : List Word}

/-- One node is visited. -/
theorem Pruned.ensures_removeNode
    (pruned : Pruned how lists head items done (node :: rest) memory)
    (isItem : node ∈ items)
    (fresh : node ∉ rest)
    (leaves :
      ∀ removal, how node = some removal → removal.Leaves lists head) :
    (removeNode (how node) node).Ensures memory fun _ after =>
      Pruned how lists head items (done ++ [node]) rest after := by
  obtain ⟨refines, isList, live⟩ := pruned
  have isNext :
      (done ++ [node]).foldl (removedNode how) lists =
        removedNode how (done.foldl (removedNode how) lists) node := by
    rw [List.foldl_append, List.foldl_cons, List.foldl_nil]
  generalize done.foldl (removedNode how) lists = now at *
  cases isHow : how node with
  | none =>
      have same : (done ++ [node]).foldl (removedNode how) lists = now := by
        rw [isNext, removedNode, isHow]
      refine ensures_pure.mpr ⟨?_, ?_, ?_⟩
      · rw [same]
        exact refines
      · rw [same, isList, Option.some.injEq]
        refine List.filter_congr fun other _ => ?_
        by_cases isNode : other = node
        · simp [isNode, isHow]
        · simp [isNode]
      · rw [same]
        exact live
  | some removal =>
      have same :
          (done ++ [node]).foldl (removedNode how) lists =
            (removal.operation node).apply now := by
        rw [isNext, removedNode, isHow]
      have different : head ≠ node := by
        have ring := refines.holds head _ isList
        rintro rfl
        exact (List.nodup_cons.mp ring.distinct).1
          (List.mem_filter.mpr ⟨isItem, by simp⟩)
      have isEntry : now.Entry node :=
        ⟨head, _, isList, List.mem_filter.mpr ⟨isItem, by simp⟩⟩
      have isLeaving := leaves removal isHow
      have allowed : (removal.operation node).Allowed memory now := by
        cases removal with
        | del | delInit =>
            exact isEntry
        | move target | moveTail target =>
            exact ⟨isEntry, live target isLeaving.2⟩
      refine (refines.operate allowed).weaken ?_
      intro _ after removed
      refine ⟨?_, ?_, ?_⟩
      · rw [same]
        exact removed
      · rw [same, Removal.apply_head isLeaving different,
          without_eq_filter isList, Option.some.injEq, List.filter_filter]
        refine List.filter_congr fun other _ => ?_
        by_cases isNode : other = node
        · simp [isNode, isHow, fresh]
        · simp [isNode]
      · rw [same]
        intro target isLive
        exact Removal.live_apply (live target isLive)

/-- The entry after an entry. -/
theorem Ring.looksUp_next
    (ring : Ring memory head (front ++ entry :: back)) :
    LooksUp (next entry) back head memory := by
  rw [LooksUp, ensures_next]
  exact ⟨_, ring.neighbours.2, rfl, rfl⟩

/-- The first entry. -/
theorem Ring.looksUp_first
    (ring : Ring memory head items) :
    LooksUp (next head) items head memory := by
  rw [LooksUp, ensures_next]
  exact ⟨_, ring.linked.forward_start, rfl, rfl⟩

theorem lastSlot_reverse :
    lastSlot id head front.reverse = front.headD head := by
  cases front with
  | nil =>
      rfl
  | cons first rest =>
      simp

/-- The entry before an entry. -/
theorem Ring.looksUp_prev
    (ring : Ring memory head (front.reverse ++ entry :: back)) :
    LooksUp (prev entry) front head memory := by
  rw [LooksUp, ensures_prev]
  exact ⟨_, ring.neighbours.1, lastSlot_reverse, rfl⟩

/-- The last entry. -/
theorem Ring.looksUp_last
    (ring : Ring memory head items.reverse) :
    LooksUp (prev head) items head memory := by
  rw [LooksUp, ensures_prev]
  exact ⟨_, ring.linked.backward_stop
    (ring.allocated (.head _)).ne_null, lastSlot_reverse, rfl⟩

/-- The list around an entry that was not visited yet. -/
theorem Pruned.ring_next
    (pruned :
      Pruned how lists head (front ++ rest) done rest memory) :
    ∃ kept, Ring memory head (kept ++ rest) := by
  have ring := pruned.refines.holds head _ pruned.isList
  have all :
      (rest.filter fun node => node ∈ rest ∨ how node = none) = rest :=
    List.filter_eq_self.mpr fun node isRest => by simp [isRest]
  rw [List.filter_append, all] at ring
  exact ⟨_, ring⟩

theorem Pruned.ring_prev
    (pruned :
      Pruned how lists head (rest.reverse ++ back) done rest memory) :
    ∃ kept, Ring memory head (rest.reverse ++ kept) := by
  have ring := pruned.refines.holds head _ pruned.isList
  have all :
      (rest.reverse.filter fun node => node ∈ rest ∨ how node = none) =
        rest.reverse :=
    List.filter_eq_self.mpr fun node isRest => by
      simp [List.mem_reverse.mp isRest]
  rw [List.filter_append, all] at ring
  exact ⟨_, ring⟩

/-- Nothing was visited yet. -/
theorem Refines.pruned
    (refines : Refines memory lists)
    (isList : lists head = some items)
    (all : ∀ node ∈ items, node ∈ rest ∨ how node = none) :
    Pruned how lists head items [] rest memory := by
  refine ⟨refines, ?_, fun _ live => live⟩
  have unchanged :
      (items.filter fun node => node ∈ rest ∨ how node = none) = items :=
    List.filter_eq_self.mpr fun node isItem => by simp [all node isItem]
  rw [List.foldl_nil, isList, unchanged]

/-- The entries that are left when a loop ends, and the other lists. -/
structure LeavesRest
    (how : Word → Option Removal)
    (lists : ListMap)
    (head : Word)
    (items order : List Word)
    (memory : ListMemory) : Prop where
  refines : Refines memory (order.foldl (removedNode how) lists)
  isList :
    (order.foldl (removedNode how) lists) head =
      some (items.filter fun node => how node = none)

/--
The rule for loops over a part of the list; a position can be around its node.
-/
theorem Refines.ensures_visits_part
    {first : Program ListMemory Word}
    {follow : Word → Program ListMemory Word}
    {stop : Word → Bool}
    {body : Word → List Word → Program ListMemory (List Word)}
    {order : List Word}
    (refines : Refines memory lists)
    (isList : lists head = some items)
    (leaves :
      ∀ node ∈ items, ∀ removal, how node = some removal →
        removal.Leaves lists head)
    (distinctOrder : order.Nodup)
    (isPart : ∀ node ∈ order, node ∈ items)
    (isRest : ∀ node ∈ items, node ∈ order ∨ how node = none)
    (place : Word → Word)
    (isBody :
      ∀ node ∈ order, ∀ visited, body (place node) visited = do
        removeNode (how node) node
        pure (visited ++ [place node]))
    (stops : stop (place head) = true)
    (goesOn : ∀ node, node ≠ head → stop (place node) = false)
    (starts : LooksUp first (order.map place) (place head) memory)
    (looksUp :
      ∀ done node rest memory, done ++ node :: rest = order →
        Pruned how lists head items done (node :: rest) memory →
          LooksUp (follow (place node)) (rest.map place) (place head)
            memory)
    (ended :
      ∀ memory, Pruned how lists head items order [] memory →
        (follow (place head)).Ensures memory fun _ after =>
          after = memory) :
    (eachAhead first follow stop body []).Ensures memory
      fun visited after =>
        visited = order.map place ∧
          LeavesRest how lists head items order after := by
  have distinct := (refines.holds head items isList).distinct
  obtain ⟨notItem, -⟩ := List.nodup_cons.mp distinct
  refine (ensures_eachAhead (fun positions visited memory =>
    ∃ done rest, done ++ rest = order ∧ positions = rest.map place ∧
      visited = done.map place ∧
        Pruned how lists head items done rest memory)
    stops ?_ ?_ starts ?_).weaken ?_
  · intro pos positions visited state progress
    obtain ⟨done, rest, isOrder, isPositions, rfl, pruned⟩ := progress
    cases rest with
    | nil =>
        simp at isPositions
    | cons node rest =>
        obtain ⟨rfl, rfl⟩ := List.cons.inj isPositions
        have inOrder : node ∈ order := by
          simp [← isOrder]
        have isItem : node ∈ items := isPart node inOrder
        have fresh : node ∉ rest := by
          rw [← isOrder] at distinctOrder
          exact (List.nodup_cons.mp distinctOrder.of_append_right).1
        have different : node ≠ head := by
          rintro rfl
          exact notItem isItem
        refine ⟨goesOn node different,
          looksUp done node rest state isOrder pruned, ?_⟩
        rw [isBody node inOrder, ensures_bind]
        refine (pruned.ensures_removeNode isItem fresh
          (leaves node isItem)).weaken ?_
        intro _ after removed
        rw [ensures_pure]
        exact ⟨done ++ [node], rest, by simp [← isOrder], rfl, by simp,
          removed⟩
  · intro visited state progress
    obtain ⟨done, rest, isOrder, isPositions, -, pruned⟩ := progress
    obtain rfl : rest = [] := List.map_eq_nil_iff.mp isPositions.symm
    rw [List.append_nil] at isOrder
    subst isOrder
    exact ended state pruned
  · exact ⟨[], order, rfl, rfl, rfl, refines.pruned isList isRest⟩
  · intro visited after progress
    obtain ⟨done, rest, isOrder, isPositions, rfl, pruned⟩ := progress
    obtain rfl : rest = [] := List.map_eq_nil_iff.mp isPositions.symm
    rw [List.append_nil] at isOrder
    subst isOrder
    refine ⟨rfl, pruned.refines, ?_⟩
    rw [pruned.isList]
    simp

/-- The rule for loops over the whole list. -/
theorem Refines.ensures_visits
    {first : Program ListMemory Word}
    {follow : Word → Program ListMemory Word}
    {stop : Word → Bool}
    {body : Word → List Word → Program ListMemory (List Word)}
    {order : List Word}
    (refines : Refines memory lists)
    (isList : lists head = some items)
    (leaves :
      ∀ node ∈ items, ∀ removal, how node = some removal →
        removal.Leaves lists head)
    (sameItems : order.Perm items)
    (place : Word → Word)
    (isBody :
      ∀ node visited, body (place node) visited = do
        removeNode (how node) node
        pure (visited ++ [place node]))
    (stops : stop (place head) = true)
    (goesOn : ∀ node, node ≠ head → stop (place node) = false)
    (starts : LooksUp first (order.map place) (place head) memory)
    (looksUp :
      ∀ done node rest memory, done ++ node :: rest = order →
        Pruned how lists head items done (node :: rest) memory →
          LooksUp (follow (place node)) (rest.map place) (place head)
            memory)
    (ended :
      ∀ memory, Pruned how lists head items order [] memory →
        (follow (place head)).Ensures memory fun _ after =>
          after = memory) :
    (eachAhead first follow stop body []).Ensures memory
      fun visited after =>
        visited = order.map place ∧
          LeavesRest how lists head items order after := by
  have distinct := (refines.holds head items isList).distinct
  refine refines.ensures_visits_part isList leaves
    (sameItems.nodup_iff.mpr (List.nodup_cons.mp distinct).2)
    (fun _ => sameItems.mem_iff.mp)
    (fun node isItem => .inl (sameItems.mem_iff.mpr isItem)) place
    (fun node _ => isBody node) stops goesOn starts looksUp ended

/-- `list_for_each_safe` visits the entries in order. -/
theorem Refines.ensures_listForEachSafe
    (refines : Refines memory lists)
    (isList : lists head = some items)
    (leaves :
      ∀ node ∈ items, ∀ removal, how node = some removal →
        removal.Leaves lists head) :
    (listForEachSafe head (visitNode how) []).Ensures memory
      fun visited after =>
        visited = items ∧
          LeavesRest how lists head items items after := by
  have ring := refines.holds head items isList
  rw [listForEachSafe]
  refine Ensures.weaken (refines.ensures_visits isList leaves (.refl items)
    id (fun _ _ => rfl) (by simp) (fun node different => by
      simpa using different) ?_ ?_ ?_) ?_
  · rw [List.map_id]
    exact ring.looksUp_first
  · intro done node rest state isOrder pruned
    subst isOrder
    obtain ⟨kept, ring⟩ := pruned.ring_next
    rw [List.map_id]
    exact ring.looksUp_next
  · intro state pruned
    have ring := pruned.refines.holds head _ pruned.isList
    exact ring.looksUp_first.weaken fun _ _ result => result.2
  · intro visited after result
    rwa [List.map_id] at result

/-- `list_for_each_prev_safe` visits the entries in the reverse order. -/
theorem Refines.ensures_listForEachPrevSafe
    (refines : Refines memory lists)
    (isList : lists head = some items)
    (leaves :
      ∀ node ∈ items, ∀ removal, how node = some removal →
        removal.Leaves lists head) :
    (listForEachPrevSafe head (visitNode how) []).Ensures memory
      fun visited after =>
        visited = items.reverse ∧
          LeavesRest how lists head items items.reverse after := by
  have ring := refines.holds head items isList
  rw [listForEachPrevSafe]
  refine Ensures.weaken (refines.ensures_visits isList leaves
    items.reverse_perm id (fun _ _ => rfl) (by simp)
    (fun node different => by simpa using different) ?_ ?_ ?_) ?_
  · rw [List.map_id]
    refine Ring.looksUp_last ?_
    rw [List.reverse_reverse]
    exact ring
  · intro done node rest state isOrder pruned
    have isItems := List.reverse_eq_iff.mp isOrder.symm
    rw [List.reverse_append] at isItems
    subst isItems
    obtain ⟨kept, ring⟩ := pruned.ring_prev
    rw [List.reverse_cons, List.append_assoc] at ring
    rw [List.map_id]
    exact ring.looksUp_prev
  · intro state pruned
    have ring := pruned.refines.holds head _ pruned.isList
    rw [← List.reverse_reverse (List.filter _ items)] at ring
    exact ring.looksUp_last.weaken fun _ _ result => result.2
  · intro visited after result
    rwa [List.map_id] at result

/-- The structure around the next node. -/
theorem LooksUp.nextEntry
    (looksUp : LooksUp (next node) items head memory) :
    LooksUp (nextEntry node member) (items.map (listEntry · member))
      (listEntry head member) memory := by
  rw [LooksUp, Lists.nextEntry, ensures_bind]
  refine looksUp.ensures ?_
  rw [ensures_pure]
  cases items with
  | nil =>
      exact ⟨rfl, rfl⟩
  | cons first rest =>
      exact ⟨rfl, rfl⟩

/-- `list_for_each_entry_safe` visits the structures around the nodes. -/
theorem Refines.ensures_listForEachEntrySafe
    (refines : Refines memory lists)
    (isList : lists head = some items)
    (leaves :
      ∀ node ∈ items, ∀ removal, how node = some removal →
        removal.Leaves lists head)
    (member : Word) :
    (listForEachEntrySafe head member (visitEntry how member) []).Ensures
      memory fun visited after =>
        visited = items.map (listEntry · member) ∧
          LeavesRest how lists head items items after := by
  have ring := refines.holds head items isList
  have isNode (node : Word) : listEntry node member + member = node :=
    BitVec.sub_add_cancel node member
  rw [listForEachEntrySafe]
  refine refines.ensures_visits isList leaves (.refl items)
    (listEntry · member) ?_ ?_ ?_ ?_ ?_ ?_
  · intro node visited
    rw [visitEntry, isNode]
  · simp [isNode]
  · intro node different
    simpa [isNode] using different
  · exact LooksUp.nextEntry ring.looksUp_first
  · intro done node rest state isOrder pruned
    subst isOrder
    obtain ⟨kept, ring⟩ := pruned.ring_next
    rw [isNode]
    exact LooksUp.nextEntry ring.looksUp_next
  · intro state pruned
    have ring := pruned.refines.holds head _ pruned.isList
    rw [isNode]
    exact (LooksUp.nextEntry ring.looksUp_first).weaken
      fun _ _ result => result.2

end Visits

section Samples

/-- One entry is deleted, and another one goes to the list at 16. -/
def removalOf (deleted moved node : Word) : Option Removal :=
  if node = deleted then some .delInit
  else if node = moved then some (.moveTail 16)
  else none

/-- Both leave the list at 8. -/
theorem removalOf_leaves
    {deleted moved node : Word}
    {removal : Removal}
    (isRemoval : removalOf deleted moved node = some removal) :
    removal.Leaves twoLists 8 := by
  rw [removalOf] at isRemoval
  split at isRemoval
  · obtain rfl := Option.some.inj isRemoval
    exact trivial
  · split at isRemoval
    · obtain rfl := Option.some.inj isRemoval
      exact ⟨by decide, [48, 56], rfl⟩
    · cases isRemoval

end Samples

end LibKern.Lists
