import LibKern.HlistSequences

namespace LibKern.Hlists

/-!
# A loop that removes nodes

`hlist_for_each_safe` looks up the next node before its body runs.  The body of
the loop below deletes some of the nodes and notes every visit.
-/

open Program Wiring SequenceMap

/-- The calls that remove a node from its list. -/
inductive Removal where
  | del
  | delInit
  deriving Repr, DecidableEq

/-- The code of a removal. -/
def Removal.program (node : Word) : Removal → Program HlistMemory Unit
  | .del => hlistDel node
  | .delInit => hlistDelInit node

/-- Remove a node, or leave it alone. -/
def removeNode (how : Option Removal) (node : Word) :
    Program HlistMemory Unit :=
  match how with
  | none => pure ()
  | some removal => removal.program node

/-- The body of a loop over nodes. -/
def visitNode
    (how : Word → Option Removal)
    (pos : Word)
    (visited : List Word) :
    Program HlistMemory (List Word) := do
  removeNode (how pos) pos
  pure (visited ++ [pos])

/-- The nodes that are not removed. -/
def keptNodes (how : Word → Option Removal) (nodes : List Word) :
    List Word :=
  nodes.filter fun node => how node = none

section Visits

variable {how : Word → Option Removal}
variable {memory : HlistMemory}
variable {lists : HlistMap}
variable {head node : Word}
variable {nodes front back done rest : List Word}

/-- A node is removed in both ways. -/
theorem Hlist.ensures_removal
    (hlist : Hlist memory head (front ++ node :: back))
    (removal : Removal) :
    (removal.program node).Ensures memory fun _ after =>
      Hlist after head (front ++ back) ∧
        Rewires memory [head] (front ++ node :: back) after := by
  cases removal with
  | del =>
      exact hlist.ensures_hlistDel
  | delInit =>
      exact hlist.ensures_hlistDelInit

theorem keptNodes_append_of_none
    (isHow : how node = none) :
    keptNodes how (done ++ [node]) = keptNodes how done ++ [node] := by
  simp [keptNodes, isHow]

theorem keptNodes_append_of_some
    {removal : Removal}
    (isHow : how node = some removal) :
    keptNodes how (done ++ [node]) = keptNodes how done := by
  simp [keptNodes, isHow]

/-- One node is visited. -/
theorem Refines.ensures_removeNode
    (refines :
      Refines memory
        (lists.set head (keptNodes how done ++ node :: rest))) :
    (removeNode (how node) node).Ensures memory fun _ after =>
      Refines after
        (lists.set head (keptNodes how (done ++ [node]) ++ rest)) := by
  cases isHow : how node with
  | none =>
      refine ensures_pure.mpr ?_
      rw [keptNodes_append_of_none isHow, List.append_assoc]
      exact refines
  | some removal =>
      have hlist := refines.holds head _ set_same
      have removed :=
        refines.remove set_same (hlist.ensures_removal removal)
      rw [without, refines.substituted_eq set_same, set_set,
        List.nil_append] at removed
      rw [keptNodes_append_of_some isHow]
      exact removed

/-- The node after a node. -/
theorem Hlist.looksUp_next
    (hlist : Hlist memory head (front ++ node :: back)) :
    LooksUp (next node) back null memory := by
  rw [LooksUp, ensures_next]
  exact ⟨_, hlist.neighbours.2, rfl, rfl⟩

/-- The first node. -/
theorem Hlist.looksUp_first
    (hlist : Hlist memory head nodes) :
    LooksUp (first head) nodes null memory := by
  rw [LooksUp, ensures_first]
  exact ⟨_, hlist.linked.forward_start, rfl, rfl⟩

/-- `hlist_for_each_safe` visits the nodes in order. -/
theorem Refines.ensures_hlistForEachSafe
    (refines : Refines memory lists)
    (isList : lists head = some nodes)
    (how : Word → Option Removal) :
    (hlistForEachSafe head (visitNode how) []).Ensures memory
      fun visited after =>
        visited = nodes ∧
          Refines after (lists.set head (keptNodes how nodes)) := by
  rw [hlistForEachSafe]
  refine (ensures_eachSafe (fun rest visited memory =>
    visited ++ rest = nodes ∧
      Refines memory (lists.set head (keptNodes how visited ++ rest)))
    (by simp) ?_ (refines.holds head nodes isList).looksUp_first
    ⟨rfl, ?_⟩).weaken ?_
  · intro pos rest visited state progress
    obtain ⟨isNodes, refines⟩ := progress
    have hlist := refines.holds head _ set_same
    have notNull : pos ≠ null := (hlist.allocated (by simp)).ne_null
    refine ⟨by simpa using notNull, hlist.looksUp_next, ?_⟩
    rw [visitNode, ensures_bind]
    refine refines.ensures_removeNode.weaken ?_
    intro _ after removed
    exact ensures_pure.mpr ⟨by simp [← isNodes], removed⟩
  · change Refines memory (lists.set head nodes)
    rw [set_eq_self isList]
    exact refines
  · intro visited after progress
    obtain ⟨isNodes, refines⟩ := progress
    rw [List.append_nil] at isNodes refines
    subst isNodes
    exact ⟨rfl, refines⟩

end Visits

end LibKern.Hlists
