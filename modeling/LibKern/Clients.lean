import LibKern.Program

namespace LibKern

/-!
# Clients of an interface

A client calls the operations of an interface one after the other and may
choose every call by the answers to the earlier ones.  It can be run on an
implementation, whose operations are programs, and on a specification, whose
operations are functions.  If each operation of the implementation does to its
state what the specification does to the abstract state, no client can tell
them apart.
-/

open Program

/-- A client stops, or makes a call and goes on with the answer. -/
inductive Client (γ ρ : Type) where
  | stop : Client γ ρ
  | call (request : γ) (next : ρ → Client γ ρ) : Client γ ρ

namespace Client

variable {γ ρ σ τ : Type}

/-- The answers that the client gets from an implementation. -/
def run (implementation : γ → Program σ ρ) :
    Client γ ρ → Program σ (List ρ)
  | .stop => pure []
  | .call request next => do
      let answer ← implementation request
      let answers ← (next answer).run implementation
      pure (answer :: answers)

/-- The answers that the client gets from a specification. -/
def meaning (specification : γ → τ → ρ × τ) :
    Client γ ρ → τ → List ρ × τ
  | .stop, abstract => ([], abstract)
  | .call request next, abstract =>
      let answered := specification request abstract
      let rest := (next answered.1).meaning specification answered.2
      (answered.1 :: rest.1, rest.2)

/-- Every call that the client makes is legal when it is made. -/
def Legal
    (specification : γ → τ → ρ × τ)
    (legal : τ → γ → Prop) :
    Client γ ρ → τ → Prop
  | .stop, _ => True
  | .call request next, abstract =>
      legal abstract request ∧
        (next (specification request abstract).1).Legal specification
          legal (specification request abstract).2

/--
The simulation rule: if every legal operation gives the answer of the
specification and keeps the relation between the states, then every run of a
legal client ends, gets the answers of the specification, and keeps it.
-/
theorem ensures_run
    {implementation : γ → Program σ ρ}
    {specification : γ → τ → ρ × τ}
    {legal : τ → γ → Prop}
    (related : σ → τ → Prop)
    (simulates :
      ∀ request state abstract,
        related state abstract →
        legal abstract request →
        (implementation request).Ensures state fun answer after =>
          answer = (specification request abstract).1 ∧
            related after (specification request abstract).2)
    {client : Client γ ρ}
    {state : σ}
    {abstract : τ}
    (start : related state abstract)
    (isLegal : client.Legal specification legal abstract) :
    (client.run implementation).Ensures state fun answers after =>
      answers = (client.meaning specification abstract).1 ∧
        related after (client.meaning specification abstract).2 := by
  induction client generalizing state abstract with
  | stop =>
      exact ensures_pure.mpr ⟨rfl, start⟩
  | call request next inductionHypothesis =>
      obtain ⟨first, rest⟩ := isLegal
      rw [run, ensures_bind]
      refine (simulates request state abstract start first).weaken ?_
      intro answer between answered
      obtain ⟨rfl, stillRelated⟩ := answered
      rw [ensures_bind]
      refine (inductionHypothesis _ stillRelated rest).weaken ?_
      intro answers after result
      obtain ⟨rfl, atEnd⟩ := result
      exact ensures_pure.mpr ⟨rfl, atEnd⟩

end Client

end LibKern
