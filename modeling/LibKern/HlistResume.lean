import LibKern.HlistRuns
import LibKern.HlistTraversal
import LibKern.Visits

namespace LibKern.Hlists

/-!
# Loops over nodes and structures

The loops of `include/hlist.h` end at `NULL` and do not know the head of the
list.  They can start at the head, at a node, or behind it, and visit exactly
the nodes that are left, or the structures around them.
-/

open Program Wiring SequenceMap

/-- A node leads to the nodes that are left, in whatever list they are. -/
def Leads
    (pos : Word)
    (rest : List Word)
    (memory : HlistMemory) : Prop :=
  ∃ head others, Hlist memory head (others ++ pos :: rest)

/-- The body of a loop over structures that removes some of them. -/
def visitEntry
    (how : Word → Option Removal)
    (member : Word)
    (tpos : Word)
    (visited : List Word) :
    Program HlistMemory (List Word) := do
  removeNode (how (tpos + member)) (tpos + member)
  pure (visited ++ [tpos])

section Loops

variable {memory : HlistMemory}
variable {lists : HlistMap}
variable {head member pos : Word}
variable {nodes front back : List Word}

theorem Hlist.ne_null
    {node : Word}
    (hlist : Hlist memory head nodes)
    (isNode : node ∈ nodes) :
    node ≠ null :=
  (hlist.allocated isNode).ne_null

end Loops

end LibKern.Hlists
