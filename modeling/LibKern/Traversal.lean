import LibKern.Program

namespace LibKern.Program

/-!
# Loops over a sequence of positions

A loop visits positions until it comes to a final one, and its body computes a
value.  The next position is looked up after the body, right before the body, or
one round ahead.  In the last two cases the body may remove the position it is
called with.  The rules take an invariant of the positions that are left.
-/

variable {σ τ β : Type}

/-- Look up the next position after the body. -/
def each
    (first : Program σ τ)
    (follow : τ → Program σ τ)
    (stop : τ → Bool)
    (body : τ → β → Program σ β)
    (start : β) :
    Program σ β := do
  let pos ← first
  loop (fun vars : τ × β =>
    if stop vars.1 then
      pure (.done vars.2)
    else do
      let current ← body vars.1 vars.2
      let pos ← follow vars.1
      pure (.next (pos, current))) (pos, start)

/-- Look up the next position right before the body. -/
def eachSafe
    (first : Program σ τ)
    (follow : τ → Program σ τ)
    (stop : τ → Bool)
    (body : τ → β → Program σ β)
    (start : β) :
    Program σ β := do
  let pos ← first
  loop (fun vars : τ × β =>
    if stop vars.1 then
      pure (.done vars.2)
    else do
      let n ← follow vars.1
      let current ← body vars.1 vars.2
      pure (.next (n, current))) (pos, start)

/-- Look up the next position one round ahead, also at the final position. -/
def eachAhead
    (first : Program σ τ)
    (follow : τ → Program σ τ)
    (stop : τ → Bool)
    (body : τ → β → Program σ β)
    (start : β) :
    Program σ β := do
  let pos ← first
  let n ← follow pos
  loop (fun vars : (τ × τ) × β =>
    if stop vars.1.1 then
      pure (.done vars.2)
    else do
      let current ← body vars.1.1 vars.2
      let pos := vars.1.2
      let n ← follow pos
      pure (.next ((pos, n), current))) ((pos, n), start)

/-- A lookup gives the next one of these positions and changes nothing. -/
def LooksUp
    (lookup : Program σ τ)
    (positions : List τ)
    (final : τ)
    (state : σ) : Prop :=
  lookup.Ensures state fun pos after =>
    pos = positions.headD final ∧ after = state

section Rules

variable {first : Program σ τ}
variable {follow : τ → Program σ τ}
variable {stop : τ → Bool}
variable {body : τ → β → Program σ β}
variable {positions : List τ}
variable {final : τ}
variable {start : β}
variable {state : σ}

theorem LooksUp.ensures
    {lookup : Program σ τ}
    {post : τ → σ → Prop}
    (looksUp : LooksUp lookup positions final state)
    (holds : post (positions.headD final) state) :
    lookup.Ensures state post := by
  refine looksUp.weaken ?_
  intro pos after result
  obtain ⟨rfl, rfl⟩ := result
  exact holds

/-- The rule for a lookup after the body. -/
theorem ensures_each
    (invariant : List τ → β → σ → Prop)
    (stops : stop final = true)
    (step :
      ∀ pos rest current state, invariant (pos :: rest) current state →
        stop pos = false ∧
          (body pos current).Ensures state fun current after =>
            LooksUp (follow pos) rest final after ∧
              invariant rest current after)
    (starts : LooksUp first positions final state)
    (initially : invariant positions start state) :
    (each first follow stop body start).Ensures state
      (invariant []) := by
  rw [each, ensures_bind]
  refine starts.ensures ?_
  clear starts
  induction positions generalizing start state with
  | nil =>
      rw [ensures_loop, List.headD_nil, if_pos stops, ensures_pure]
      exact initially
  | cons pos rest inductionHypothesis =>
      obtain ⟨goesOn, ensured⟩ := step pos rest start state initially
      rw [ensures_loop, List.headD_cons, if_neg (by simp [goesOn]),
        ensures_bind]
      refine ensured.weaken ?_
      intro current after result
      rw [ensures_bind]
      refine result.1.ensures ?_
      rw [ensures_pure]
      exact inductionHypothesis result.2

/-- The rule for a lookup right before the body. -/
theorem ensures_eachSafe
    (invariant : List τ → β → σ → Prop)
    (stops : stop final = true)
    (step :
      ∀ pos rest current state, invariant (pos :: rest) current state →
        stop pos = false ∧ LooksUp (follow pos) rest final state ∧
          (body pos current).Ensures state (invariant rest))
    (starts : LooksUp first positions final state)
    (initially : invariant positions start state) :
    (eachSafe first follow stop body start).Ensures state
      (invariant []) := by
  rw [eachSafe, ensures_bind]
  refine starts.ensures ?_
  clear starts
  induction positions generalizing start state with
  | nil =>
      rw [ensures_loop, List.headD_nil, if_pos stops, ensures_pure]
      exact initially
  | cons pos rest inductionHypothesis =>
      obtain ⟨goesOn, looksUp, ensured⟩ :=
        step pos rest start state initially
      rw [ensures_loop, List.headD_cons, if_neg (by simp [goesOn]),
        ensures_bind]
      refine looksUp.ensures ?_
      rw [ensures_bind]
      refine ensured.weaken ?_
      intro current after holds
      rw [ensures_pure]
      exact inductionHypothesis holds

/-- The rule for a lookup one round ahead. -/
theorem ensures_eachAhead
    (invariant : List τ → β → σ → Prop)
    (stops : stop final = true)
    (step :
      ∀ pos rest current state, invariant (pos :: rest) current state →
        stop pos = false ∧ LooksUp (follow pos) rest final state ∧
          (body pos current).Ensures state (invariant rest))
    (ended :
      ∀ current state, invariant [] current state →
        (follow final).Ensures state fun _ after => after = state)
    (starts : LooksUp first positions final state)
    (initially : invariant positions start state) :
    (eachAhead first follow stop body start).Ensures state
      (invariant []) := by
  have follows
      {positions : List τ}
      {current : β}
      {state : σ}
      (holds : invariant positions current state) :
      (follow (positions.headD final)).Ensures state fun n after =>
        after = state ∧
          (positions ≠ [] → n = positions.tail.headD final) := by
    cases positions with
    | nil =>
        refine (ended current state holds).weaken ?_
        intro n after same
        exact ⟨same, by simp⟩
    | cons pos rest =>
        refine (step pos rest current state holds).2.1.weaken ?_
        intro n after result
        exact ⟨result.2, fun _ => result.1⟩
  rw [eachAhead, ensures_bind]
  refine starts.ensures ?_
  clear starts
  rw [ensures_bind]
  refine (follows initially).weaken ?_
  intro n after result
  obtain ⟨rfl, isNext⟩ := result
  induction positions generalizing start n after with
  | nil =>
      rw [ensures_loop, List.headD_nil, if_pos stops, ensures_pure]
      exact initially
  | cons pos rest inductionHypothesis =>
      obtain ⟨goesOn, -, ensured⟩ := step pos rest start after initially
      obtain rfl : n = rest.headD final := isNext (by simp)
      rw [ensures_loop, List.headD_cons, if_neg (by simp [goesOn]),
        ensures_bind]
      refine ensured.weaken ?_
      intro current between holds
      rw [ensures_bind]
      refine (follows holds).weaken ?_
      intro n after result
      obtain ⟨rfl, isNext⟩ := result
      rw [ensures_pure]
      exact inductionHypothesis n after isNext holds

end Rules

end LibKern.Program
