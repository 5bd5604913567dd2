import LibKern.ListCanonical
import LibKern.Visits

namespace LibKern.Lists

/-!
# Loops that start anywhere

The loops of `include/list.h` can start at a given entry, go backwards, or go on
after an earlier loop was left.  Each of them visits exactly the entries that
are left in its direction.  The body of a plain loop may do anything to the
entries that were visited already, as long as the current entry still leads to
the others.  The body of a removal-safe loop may also remove the current entry.
-/

open Program Wiring SequenceMap

/-- The direction of a loop. -/
inductive Direction where
  | forward
  | backward
  deriving Repr, DecidableEq

/-- An entry leads to the entries that are left. -/
def Direction.Leads
    (direction : Direction)
    (head pos : Word)
    (rest : List Word)
    (memory : ListMemory) : Prop :=
  match direction with
  | .forward => ∃ others, Ring memory head (others ++ pos :: rest)
  | .backward => ∃ others, Ring memory head (rest.reverse ++ pos :: others)

section Plain

variable {memory : ListMemory}
variable {head member pos : Word}
variable {items order front back : List Word}

theorem listEntry_add (node member : Word) :
    listEntry node member + member = node :=
  BitVec.sub_add_cancel node member

/-- The structure around the previous node. -/
theorem LooksUp.prevEntry
    {node : Word}
    (looksUp : LooksUp (prev node) items head memory) :
    LooksUp (prevEntry node member) (items.map (listEntry · member))
      (listEntry head member) memory := by
  rw [LooksUp, Lists.prevEntry, ensures_bind]
  refine looksUp.ensures ?_
  rw [ensures_pure]
  cases items with
  | nil =>
      exact ⟨rfl, rfl⟩
  | cons first rest =>
      exact ⟨rfl, rfl⟩

/-- The last entry, and the others before it. -/
theorem Ring.looksUp_last_reverse
    (ring : Ring memory head items) :
    LooksUp (prev head) items.reverse head memory := by
  refine Ring.looksUp_last ?_
  rw [List.reverse_reverse]
  exact ring

end Plain

section Safe

variable {how : Word → Option Removal}
variable {memory : ListMemory}
variable {lists : ListMap}
variable {head member pos : Word}
variable {items order front back : List Word}

/-- Remove only some of the nodes. -/
def among
    (order : List Word)
    (how : Word → Option Removal)
    (node : Word) : Option Removal :=
  if node ∈ order then how node else none

/-- What is left when only nodes of one part are removed. -/
theorem filter_among
    (distinct : (front ++ back).Nodup) :
    ((front ++ back).filter fun node => among back how node = none) =
      front ++ back.filter fun node => how node = none := by
  have apart := List.disjoint_of_nodup_append distinct
  rw [List.filter_append]
  congr 1
  · refine List.filter_eq_self.mpr ?_
    intro node isFront
    have notBack : node ∉ back := fun isBack => apart isFront isBack
    simp [among, notBack]
  · refine List.filter_congr ?_
    intro node isBack
    simp [among, isBack]

theorem foldl_among :
    order.foldl (removedNode (among order how)) lists =
      order.foldl (removedNode how) lists := by
  refine List.foldl_ext _ _ _ ?_
  intro now node isNode
  simp [removedNode, among, isNode]

/-- The safe loops over structures from some point on. -/
theorem Refines.ensures_safe_rest
    {first : Program ListMemory Word}
    (refines : Refines memory lists)
    (isList : lists head = some (front ++ back))
    (leaves :
      ∀ node ∈ back, ∀ removal, how node = some removal →
        removal.Leaves lists head)
    (starts :
      LooksUp first (back.map (listEntry · member))
        (listEntry head member) memory) :
    (eachAhead first (fun pos => nextEntry (pos + member) member)
      (fun pos => pos + member = head) (visitEntry how member) []).Ensures
        memory fun visited after =>
          visited = back.map (listEntry · member) ∧
            Refines after (back.foldl (removedNode how) lists) ∧
            (back.foldl (removedNode how) lists) head =
              some (front ++ back.filter fun node => how node = none) := by
  have ring := refines.holds head _ isList
  have distinct := (List.nodup_cons.mp ring.distinct).2
  refine (@Refines.ensures_visits_part (among back how) _ _ _ _ _ _ _ _ _
    refines isList ?_ distinct.of_append_right
    (fun _ => List.mem_append_right front) ?_ (listEntry · member) ?_ ?_
    ?_ starts ?_ ?_).weaken ?_
  · intro node _ removal isRemoval
    by_cases isBack : node ∈ back
    · exact leaves node isBack removal (by simpa [among, isBack] using isRemoval)
    · simp [among, isBack] at isRemoval
  · intro node _
    by_cases isBack : node ∈ back
    · exact .inl isBack
    · exact .inr (by simp [among, isBack])
  · intro node isBack visited
    simp [visitEntry, listEntry_add, among, isBack]
  · simp [listEntry_add]
  · intro node different
    simpa [listEntry_add] using different
  · intro done node rest state isOrder pruned
    subst isOrder
    rw [← List.append_assoc] at pruned
    obtain ⟨kept, ring⟩ := pruned.ring_next
    rw [listEntry_add]
    exact LooksUp.nextEntry ring.looksUp_next
  · intro state pruned
    have ring := pruned.refines.holds head _ pruned.isList
    rw [listEntry_add]
    exact (LooksUp.nextEntry ring.looksUp_first).weaken
      fun _ _ result => result.2
  · intro visited after result
    obtain ⟨isVisited, left⟩ := result
    have isRefined := left.refines
    have isLeft := left.isList
    rw [foldl_among] at isRefined isLeft
    rw [filter_among distinct] at isLeft
    exact ⟨isVisited, isRefined, isLeft⟩

/-- `list_for_each_entry_safe_reverse` visits the structures backwards. -/
theorem Refines.ensures_listForEachEntrySafeReverse
    (refines : Refines memory lists)
    (isList : lists head = some items)
    (leaves :
      ∀ node ∈ items, ∀ removal, how node = some removal →
        removal.Leaves lists head)
    (member : Word) :
    (listForEachEntrySafeReverse head member (visitEntry how member)
      []).Ensures memory fun visited after =>
        visited = items.reverse.map (listEntry · member) ∧
          LeavesRest how lists head items items.reverse after := by
  have ring := refines.holds head items isList
  rw [listForEachEntrySafeReverse]
  refine refines.ensures_visits isList leaves items.reverse_perm
    (listEntry · member) ?_ ?_ ?_ ?_ ?_ ?_
  · intro node visited
    rw [visitEntry, listEntry_add]
  · simp [listEntry_add]
  · intro node different
    simpa [listEntry_add] using different
  · exact LooksUp.prevEntry ring.looksUp_last_reverse
  · intro done node rest state isOrder pruned
    have isItems := List.reverse_eq_iff.mp isOrder.symm
    rw [List.reverse_append] at isItems
    subst isItems
    obtain ⟨kept, ring⟩ := pruned.ring_prev
    rw [List.reverse_cons, List.append_assoc] at ring
    rw [listEntry_add]
    exact LooksUp.prevEntry ring.looksUp_prev
  · intro state pruned
    have ring := pruned.refines.holds head _ pruned.isList
    rw [listEntry_add]
    exact (LooksUp.prevEntry ring.looksUp_last_reverse).weaken
      fun _ _ result => result.2

/--
In every memory that a run reaches and for every live list, the removal-safe
loops that start at an entry, behind it, or at the end and go backwards end and
visit exactly the entries that are left in their direction, each once, where the
body removes any of them, by deleting it or by moving it to another list.  They
leave exactly the entries that were not removed, in order, and the other lists
with what was moved there.
-/
theorem safe_loops_visit_what_is_left
    (reached : ListsReach memory lists)
    (isList : lists head = some items)
    (leaves :
      ∀ node ∈ items, ∀ removal, how node = some removal →
        removal.Leaves lists head)
    (member : Word) :
    (listForEachEntrySafeReverse head member (visitEntry how member)
        []).Ensures memory
          (fun visited after =>
            visited = items.reverse.map (listEntry · member) ∧
              LeavesRest how lists head items items.reverse after) ∧
      ∀ front pos back, items = front ++ pos :: back →
        (listForEachEntrySafeContinue (listEntry pos member) head member
            (visitEntry how member) []).Ensures memory
              (fun visited after =>
                visited = back.map (listEntry · member) ∧
                  Refines after (back.foldl (removedNode how) lists) ∧
                  (back.foldl (removedNode how) lists) head =
                    some ((front ++ [pos]) ++
                      back.filter fun node => how node = none)) ∧
          (listForEachEntrySafeFrom (listEntry pos member) head member
            (visitEntry how member) []).Ensures memory
              fun visited after =>
                visited = (pos :: back).map (listEntry · member) ∧
                  Refines after
                    ((pos :: back).foldl (removedNode how) lists) ∧
                  ((pos :: back).foldl (removedNode how) lists) head =
                    some (front ++
                      (pos :: back).filter fun node => how node = none) := by
  have refines := reached.refines
  refine ⟨refines.ensures_listForEachEntrySafeReverse isList leaves member,
    ?_⟩
  rintro front pos back rfl
  have ring := refines.holds head _ isList
  have split :
      lists head = some ((front ++ [pos]) ++ back) := by
    rw [isList, List.append_assoc, List.singleton_append]
  constructor
  · refine refines.ensures_safe_rest split ?_ ?_
    · intro node isBack
      exact leaves node (by simp [isBack])
    · rw [listEntry_add]
      exact LooksUp.nextEntry ring.looksUp_next
  · refine refines.ensures_safe_rest isList ?_ ?_
    · intro node isRest
      exact leaves node (List.mem_append_right front isRest)
    · exact ensures_pure.mpr ⟨rfl, rfl⟩

/--
A list of three entries is visited from the one in the middle and from the end
by a body that removes the entries before and behind it.
-/
theorem safe_loops_visit_what_is_left_of_sample :
    ∃ memory,
      ListsReach memory twoLists ∧
        (listForEachEntrySafeReverse 8 4 (visitEntry (removalOf 24 40) 4)
          []).Ensures memory
            (fun visited after =>
              visited = [36, 28, 20] ∧
                Ring after 8 [32] ∧ Ring after 16 [48, 56, 40]) ∧
        (listForEachEntrySafeContinue (listEntry 32 4) 8 4
          (visitEntry (removalOf 24 40) 4) []).Ensures memory
            (fun visited after =>
              visited = [36] ∧
                Ring after 8 [24, 32] ∧ Ring after 16 [48, 56, 40]) ∧
        (listForEachEntrySafeFrom (listEntry 32 4) 8 4
          (visitEntry (removalOf 24 40) 4) []).Ensures memory
            fun visited after =>
              visited = [28, 36] ∧
                Ring after 8 [24, 32] ∧ Ring after 16 [48, 56, 40] := by
  obtain ⟨memory, reached, -⟩ := twoLists_reached
  obtain ⟨reverse, resumed⟩ :=
    safe_loops_visit_what_is_left reached
      (rfl : twoLists 8 = some [24, 32, 40])
      (fun _ _ _ => @removalOf_leaves 24 40 _ _) 4
  obtain ⟨continues, fromEntry⟩ := resumed [24] 32 [40] rfl
  refine ⟨memory, reached, reverse.weaken ?_, continues.weaken ?_,
    fromEntry.weaken ?_⟩
  · intro visited after result
    obtain ⟨rfl, rest⟩ := result
    exact ⟨rfl, rest.refines.holds 8 _ (by decide),
      rest.refines.holds 16 _ (by decide)⟩
  · intro visited after result
    obtain ⟨rfl, refines, -⟩ := result
    exact ⟨rfl, refines.holds 8 _ (by decide),
      refines.holds 16 _ (by decide)⟩
  · intro visited after result
    obtain ⟨rfl, refines, -⟩ := result
    exact ⟨rfl, refines.holds 8 _ (by decide),
      refines.holds 16 _ (by decide)⟩

end Safe

end LibKern.Lists
