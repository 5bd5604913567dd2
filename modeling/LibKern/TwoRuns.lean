import LibKern.Program

namespace LibKern.Program

/-!
# Comparing two runs of a program

A program is run from two states.  Both runs return the same value, and a
relation holds between the final states.  The rules follow the structure of the
program, so that the two runs take the same branches and leave a loop in the
same round.
-/

variable {σ α β : Type}

/-- Two runs return the same value, in states that are related. -/
def Twin
    (program : Program σ α)
    (one other : σ)
    (related : α → σ → σ → Prop) : Prop :=
  program.Ensures one fun value after =>
    program.Ensures other fun otherValue otherAfter =>
      value = otherValue ∧ related value after otherAfter

section Twin

variable {program : Program σ α}
variable {one other : σ}
variable {related weaker : α → σ → σ → Prop}

theorem Twin.weaken
    (twin : program.Twin one other related)
    (implies :
      ∀ value after otherAfter,
        related value after otherAfter → weaker value after otherAfter) :
    program.Twin one other weaker := by
  refine Ensures.weaken twin ?_
  intro value after ensured
  refine ensured.weaken ?_
  intro otherValue otherAfter result
  exact ⟨result.1, implies value after otherAfter result.2⟩

/-- A program does the same in two runs from the same state. -/
theorem Twin.ensures
    (twin : program.Twin one one related) :
    program.Ensures one fun value after => related value after after := by
  obtain ⟨value, after, returned, ensured⟩ := twin
  exact ⟨value, after, returned, (ensured.of_returns returned).2⟩

/-- Two runs from the same state end in the same state. -/
theorem Ensures.twin
    {post : α → σ → Prop}
    (ensured : program.Ensures one post) :
    program.Twin one one fun value after otherAfter =>
      after = otherAfter ∧ post value after := by
  obtain ⟨value, after, returned, holds⟩ := ensured
  exact ⟨value, after, returned, value, after, returned, rfl, rfl, holds⟩

/-- What is known about each run. -/
theorem Twin.of_ensures
    {post otherPost : α → σ → Prop}
    (ensured : program.Ensures one post)
    (otherEnsured : program.Ensures other otherPost)
    (implies :
      ∀ value after otherValue otherAfter,
        post value after → otherPost otherValue otherAfter →
        value = otherValue ∧ related value after otherAfter) :
    program.Twin one other related := by
  refine Ensures.weaken ensured ?_
  intro value after holds
  refine otherEnsured.weaken ?_
  intro otherValue otherAfter otherHolds
  exact implies value after otherValue otherAfter holds otherHolds

/-- Two runs that are compared, and what is known about each of them. -/
theorem Twin.both
    {post otherPost : α → σ → Prop}
    (twin : program.Twin one other related)
    (ensured : program.Ensures one post)
    (otherEnsured : program.Ensures other otherPost) :
    ∃ value after otherAfter,
      post value after ∧ otherPost value otherAfter ∧
        related value after otherAfter := by
  obtain ⟨value, after, returned, otherTwin⟩ := twin
  obtain ⟨_, otherAfter, otherReturned, rfl, areRelated⟩ := otherTwin
  exact ⟨value, after, otherAfter, ensured.of_returns returned,
    otherEnsured.of_returns otherReturned, areRelated⟩

@[simp] theorem twin_pure
    {value : α} :
    (pure value : Program σ α).Twin one other related ↔
      related value one other := by
  simp [Twin]

theorem Twin.bind
    {next : α → Program σ β}
    {final : β → σ → σ → Prop}
    (twin :
      program.Twin one other fun value after otherAfter =>
        (next value).Twin after otherAfter final) :
    (program >>= next).Twin one other final := by
  rw [Twin, ensures_bind]
  refine Ensures.weaken twin ?_
  intro value after ensured
  obtain ⟨otherValue, otherAfter, returned, rfl, following⟩ := ensured
  refine Ensures.weaken following ?_
  intro result final' ensuredFinally
  rw [ensures_bind]
  exact ⟨value, otherAfter, returned, ensuredFinally⟩

/-- What one round of a loop leads to. -/
def Flow.Leads
    (again : β → σ → σ → Prop)
    (related : α → σ → σ → Prop) :
    Flow β α → σ → σ → Prop
  | .next current, one, other => again current one other
  | .done value, one, other => related value one other

/-- A loop whose variables get smaller. -/
theorem Twin.loop
    {body : β → Program σ (Flow β α)}
    {start : β}
    (invariant : β → σ → σ → Prop)
    (measure : β → Nat)
    (step :
      ∀ current one other,
        invariant current one other →
        (body current).Twin one other
          (Flow.Leads
            (fun next after otherAfter =>
              measure next < measure current ∧
                invariant next after otherAfter)
            related))
    (initially : invariant start one other) :
    (loop body start).Twin one other related := by
  induction size : measure start using Nat.strongRecOn
    generalizing start one other with
  | _ size inductionHypothesis =>
      rw [Twin, ensures_loop]
      refine Ensures.weaken (step start one other initially) ?_
      intro flow after ensured
      obtain ⟨otherFlow, otherAfter, returned, rfl, leads⟩ := ensured
      cases flow with
      | done value =>
          exact ensures_loop.mpr ⟨_, otherAfter, returned, rfl, leads⟩
      | next current =>
          obtain ⟨less, holds⟩ := leads
          refine Ensures.weaken
            (inductionHypothesis _ (by omega) holds rfl) ?_
          intro value final ensuredFinally
          exact ensures_loop.mpr
            ⟨_, otherAfter, returned, ensuredFinally⟩

end Twin

end LibKern.Program
