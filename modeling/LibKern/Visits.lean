import LibKern.Traversal

namespace LibKern.Program

/-!
# Loops whose bodies keep the way open

The body of a plain loop may do anything to the positions that were visited
already, as long as the current position still leads to the ones that are left.
A loop visits an order if it gives its body exactly the places of these nodes,
one after the other, whatever the body does.
-/

variable {σ τ ν : Type}

/-- A loop body that works on the node at a place and notes the visit. -/
def noting
    (action : ν → Program σ Unit)
    (toNode : τ → ν)
    (place : τ)
    (visited : List τ) :
    Program σ (List τ) := do
  action (toNode place)
  pure (visited ++ [place])

end LibKern.Program
