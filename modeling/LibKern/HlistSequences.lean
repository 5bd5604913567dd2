import LibKern.HlistChains
import LibKern.SequenceMap

namespace LibKern.Hlists

/-!
# Runs over several lists

Every function of `include/hlist.h` is compared with an operation on sequences
of nodes that are named by their heads.  A run starts without any list; nodes
that are in no list can be changed in any way.
-/

open Program Wiring SequenceMap

/-- The live lists, with the nodes of every head. -/
abbrev HlistMap := SequenceMap Word Word

/-- A list occupies its nodes; its head is a memory of its own. -/
def ownNodes (_ : Word) (nodes : List Word) : List Word :=
  nodes

/-- The memory holds the live lists, and they have no node in common. -/
structure Refines (memory : HlistMemory) (lists : HlistMap) : Prop
    extends lists.Held ownNodes (Hlist memory)

section Changes

variable {memory after : HlistMemory}
variable {lists : HlistMap}
variable {head node new old : Word}
variable {front back nodes heads items : List Word}

/-- A node is free if it is not in a list. -/
theorem free_iff :
    lists.Free ownNodes node ↔ ¬lists.Entry node := by
  simp only [Free, Owns, Entry, ownNodes, not_exists]

/-- Nodes that are not part of any list are changed. -/
theorem Refines.elsewhere
    (refines : Refines memory lists)
    (rewires : Rewires memory [] nodes after)
    (free : ∀ node ∈ nodes, ¬lists.Entry node) :
    Refines after lists := by
  refine ⟨refines.toHeld.elsewhere (fun head items _ hlist untouched =>
    hlist.congr (rewires.sameHeads head (by simp))
      fun node isNode => rewires.sameNodes node
        (untouched node isNode)) ?_⟩
  intro node isNode
  exact free_iff.mpr (free node isNode)

/-- One list is changed; it only gets nodes that are free. -/
theorem Refines.set
    (refines : Refines memory lists)
    {before : List Word}
    (isList : lists head = some before)
    (rewires : Rewires memory [head] nodes after)
    (touched : ∀ node ∈ nodes, node ∈ before ∨ ¬lists.Entry node)
    (hlist : Hlist after head items)
    (added : ∀ node ∈ items, node ∈ before ∨ ¬lists.Entry node) :
    Refines after (lists.set head items) := by
  refine ⟨refines.toHeld.change (fun other items different _ same
    untouched => same.congr (rewires.sameHeads other (by simpa using
      different)) fun node isNode => rewires.sameNodes node
        (untouched node isNode)) ?_ hlist ?_⟩
  · intro node isNode
    exact (touched node isNode).imp
      (fun isOwned => ⟨before, isList, isOwned⟩) free_iff.mpr
  · intro node isNode
    exact (added node isNode).imp
      (fun isOwned => ⟨before, isList, isOwned⟩) free_iff.mpr

/-- A node that is in no list is added to a list. -/
theorem Refines.insert
    (refines : Refines memory lists)
    {before : List Word}
    (isList : lists head = some before)
    (free : ¬lists.Entry new)
    (rewires : Rewires memory [head] (new :: before) after)
    (hlist : Hlist after head items)
    (added : ∀ node ∈ items, node = new ∨ node ∈ before) :
    Refines after (lists.set head items) := by
  have isOld (node : Word) (isNode : node = new ∨ node ∈ before) :
      node ∈ before ∨ ¬lists.Entry node := by
    rcases isNode with rfl | isNode
    · exact .inr free
    · exact .inl isNode
  refine refines.set isList rewires ?_ hlist ?_
  · intro node isNode
    exact isOld node (List.mem_cons.mp isNode)
  · intro node isNode
    exact isOld node (added node isNode)

/-- Substituting a node only changes its own list. -/
theorem Refines.substituted_eq
    (refines : Refines memory lists)
    (isList : lists head = some (front ++ node :: back)) :
    lists.substituted node items =
      lists.set head (front ++ (items ++ back)) :=
  refines.toHeld.substituted_eq (fun _ _ _ isNode => isNode) isList
    (refines.holds head _ isList).distinct

/-- A node is removed from its list. -/
theorem Refines.remove
    {program : Program HlistMemory Unit}
    (refines : Refines memory lists)
    (isList : lists head = some (front ++ node :: back))
    (removes :
      program.Ensures memory fun _ after =>
        Hlist after head (front ++ back) ∧
          Rewires memory [head] (front ++ node :: back) after) :
    program.Ensures memory fun _ after =>
      Refines after (lists.without node) := by
  rw [without, refines.substituted_eq isList, List.nil_append]
  refine removes.weaken ?_
  intro _ after result
  obtain ⟨unlinked, rewires⟩ := result
  refine refines.set isList rewires ?_ unlinked ?_
  · intro other isNode
    exact .inl isNode
  · intro other isNode
    exact .inl (by grind)

/-- A node that is in no list is initialised. -/
theorem Refines.initHlistNode
    (refines : Refines memory lists)
    (allocated : Allocated memory node)
    (free : ¬lists.Entry node) :
    (initHlistNode node).Ensures memory fun _ after =>
      Refines after lists := by
  refine (ensures_initHlistNode allocated).weaken ?_
  intro _ after rewires
  exact refines.elsewhere rewires (by simpa using free)

/-- `hlist_del_init` of a node that is in no list. -/
theorem ensures_hlistDelInit_unhashed
    (isUnhashed : (wiring memory).backward node = some .null) :
    (hlistDelInit node).Ensures memory fun _ after => after = memory := by
  rw [Hlists.hlistDelInit, hlistUnhashed, ensures_bind, ensures_bind]
  simp only [ensures_pprev, isUnhashed, Option.some.injEq,
    exists_eq_left', ensures_pure]
  rw [ensures_onlyIf_of_not (by simp)]

/-- `hlist_add_head`. -/
theorem Refines.hlistAddHead
    (refines : Refines memory lists)
    (isList : lists head = some nodes)
    (allocated : Allocated memory new)
    (free : ¬lists.Entry new) :
    (hlistAddHead new head).Ensures memory fun _ after =>
      Refines after (lists.set head (new :: nodes)) := by
  have fresh : new ∉ nodes :=
    fun isNode => free ⟨head, nodes, isList, isNode⟩
  refine ((refines.holds head _ isList).ensures_hlistAddHead allocated
    fresh).weaken ?_
  intro _ after result
  obtain ⟨added, rewires⟩ := result
  exact refines.insert isList free rewires added fun node isNode =>
    List.mem_cons.mp isNode

/-- `hlist_add_before`. -/
theorem Refines.hlistAddBefore
    (refines : Refines memory lists)
    (isList : lists head = some (front ++ node :: back))
    (allocated : Allocated memory new)
    (free : ¬lists.Entry new) :
    (hlistAddBefore new node).Ensures memory fun _ after =>
      Refines after (lists.substituted node [new, node]) := by
  have fresh : new ∉ front ++ node :: back :=
    fun isNode => free ⟨head, _, isList, isNode⟩
  rw [refines.substituted_eq isList]
  refine ((refines.holds head _ isList).ensures_hlistAddBefore allocated
    fresh).weaken ?_
  intro _ after result
  obtain ⟨added, rewires⟩ := result
  refine refines.insert isList free rewires added fun other isNode => ?_
  grind

/-- `hlist_add_after`. -/
theorem Refines.hlistAddAfter
    (refines : Refines memory lists)
    (isList : lists head = some (front ++ node :: back))
    (allocated : Allocated memory new)
    (free : ¬lists.Entry new) :
    (hlistAddAfter node new).Ensures memory fun _ after =>
      Refines after (lists.substituted node [node, new]) := by
  have fresh : new ∉ front ++ node :: back :=
    fun isNode => free ⟨head, _, isList, isNode⟩
  rw [refines.substituted_eq isList]
  refine ((refines.holds head _ isList).ensures_hlistAddAfter allocated
    fresh).weaken ?_
  intro _ after result
  obtain ⟨added, rewires⟩ := result
  refine refines.insert isList free rewires added fun other isNode => ?_
  grind

/-- `INIT_HLIST_HEAD`. -/
theorem Refines.initHlistHead
    (refines : Refines memory lists)
    (accessible : Accessible memory (.first head)) :
    (initHlistHead head).Ensures memory fun _ after =>
      Refines after (lists.set head []) := by
  refine (ensures_initHlistHead accessible).weaken ?_
  intro _ after result
  obtain ⟨hlist, rewires⟩ := result
  refine ⟨@Held.change _ _ _ _ _ _ _ _ _ [] refines.toHeld (fun other
    items different _ same _ => same.congr (rewires.sameHeads other
      (by simpa using different)) fun node _ => rewires.sameNodes node
        (by simp)) (by simp) hlist ?_⟩
  simp [ownNodes]

/-- `hlist_move_list`. -/
theorem Refines.hlistMoveList
    (refines : Refines memory lists)
    (isList : lists old = some nodes)
    (isTarget : lists new = some [])
    (different : old ≠ new) :
    (hlistMoveList old new).Ensures memory fun _ after =>
      Refines after ((lists.set new nodes).set old []) := by
  have accessible : Accessible memory (.first new) :=
    (refines.holds new _ isTarget).accessible (by simp [slots])
  refine ((refines.holds old _ isList).ensures_hlistMoveList accessible
    different).weaken ?_
  intro _ after result
  obtain ⟨moved, emptied, rewires⟩ := result
  have isFree (node : Word) (isNode : node ∈ nodes) :
      (lists.drop old).Free ownNodes node :=
    refines.toHeld.free_drop ⟨nodes, isList, isNode⟩
  have others :
      ((lists.drop old).set new nodes).Held ownNodes (Hlist after) := by
    refine @Held.change _ _ _ _ _ _ _ _ _ nodes (refines.toHeld.drop old)
      ?_ ?_ moved ?_
    · intro other items notNew isOther same untouched
      have notOld : other ≠ old := by
        rintro rfl
        simp at isOther
      refine same.congr (rewires.sameHeads other (by simp [notOld,
        notNew])) ?_
      intro node isNode
      exact rewires.sameNodes node (untouched node isNode)
    · intro node isNode
      exact .inr (isFree node isNode)
    · intro node isNode
      exact .inr (isFree node isNode)
  have restored := others.set emptied (by simp [ownNodes])
  rw [set_comm different.symm, set_drop,
    set_comm different] at restored
  exact ⟨restored⟩

end Changes

end LibKern.Hlists
