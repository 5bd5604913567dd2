import Mathlib.Data.Option.Basic

namespace LibKern

/-!
# Partial programs over an explicit state

A program reads and rewrites a state, may fail, and may loop.  Running out of
fuel and failing are both reported as `none`, and every program carries the
proof that additional fuel never changes a result it has already produced.
`Program.Ensures` is the resulting total-correctness judgment: it hides the
fuel, so that a proof about a loop is an ordinary induction on the data the
loop walks over.
-/

/-- A state transformer indexed by fuel, stable under additional fuel. -/
structure Program (σ α : Type) where
  exec : Nat → σ → Option (α × σ)
  stable :
    ∀ {fuel more : Nat} {state : σ} {result : α × σ},
      fuel ≤ more →
      exec fuel state = some result →
      exec more state = some result

/-- What one loop iteration decides: go on, or leave with a result. -/
inductive Flow (β α : Type) where
  | next : β → Flow β α
  | done : α → Flow β α

namespace Program

variable {σ α β : Type}

/-- Return a value and leave the state alone. -/
protected def pure (value : α) : Program σ α where
  exec _ state := some (value, state)
  stable _ same := same

/-- Run two programs one after the other with the same fuel. -/
protected def bind
    (first : Program σ α)
    (second : α → Program σ β) :
    Program σ β where
  exec fuel state :=
    (first.exec fuel state).bind fun result =>
      (second result.1).exec fuel result.2
  stable := by
    intro fuel more state result enough returned
    obtain ⟨middle, firstReturned, secondReturned⟩ :=
      Option.bind_eq_some_iff.mp returned
    exact Option.bind_eq_some_iff.mpr
      ⟨middle, first.stable enough firstReturned,
        (second middle.1).stable enough secondReturned⟩

instance : Monad (Program σ) where
  pure := Program.pure
  bind := Program.bind

/-- Read the state through a partial projection; fail where it is undefined. -/
def reads (project : σ → Option α) : Program σ α where
  exec _ state := (project state).map fun value => (value, state)
  stable _ same := same

/-- Rewrite the state by a partial function; fail where it is undefined. -/
def updates (change : σ → Option σ) : Program σ Unit where
  exec _ state := (change state).map fun changed => ((), changed)
  stable _ same := same

/-- Run a program on a part of a larger state. -/
def zoom
    {τ : Type}
    (part : τ → σ)
    (replace : σ → τ → τ)
    (program : Program σ α) :
    Program τ α where
  exec fuel state :=
    (program.exec fuel (part state)).map fun result =>
      (result.1, replace result.2 state)
  stable := by
    intro fuel more state result enough returned
    obtain ⟨inner, innerReturned, rfl⟩ :=
      Option.map_eq_some_iff.mp returned
    exact Option.map_eq_some_iff.mpr
      ⟨inner, program.stable enough innerReturned, rfl⟩

/-- A statement that is executed only under a condition. -/
def onlyIf
    (condition : Prop)
    [Decidable condition]
    (statement : Program σ Unit) :
    Program σ Unit :=
  if condition then statement else pure ()

/-- Iterate a loop body a bounded number of times. -/
def iterate
    (body : β → Program σ (Flow β α))
    (fuel : Nat) :
    Nat → β → σ → Option (α × σ)
  | 0, _, _ => none
  | rounds + 1, current, state =>
      match (body current).exec fuel state with
      | none => none
      | some (.done value, after) => some (value, after)
      | some (.next following, after) =>
          iterate body fuel rounds following after

/-- More fuel and more rounds never change a result of `iterate`. -/
theorem iterate_stable
    {body : β → Program σ (Flow β α)}
    {fuel more rounds moreRounds : Nat}
    {current : β}
    {state : σ}
    {result : α × σ}
    (enough : fuel ≤ more)
    (enoughRounds : rounds ≤ moreRounds)
    (returned :
      iterate body fuel rounds current state = some result) :
    iterate body more moreRounds current state = some result := by
  induction rounds generalizing moreRounds current state with
  | zero =>
      simp [iterate] at returned
  | succ rounds inductionHypothesis =>
      obtain ⟨extra, rfl⟩ : ∃ extra, moreRounds = extra + 1 :=
        ⟨moreRounds - 1, by omega⟩
      cases ran : (body current).exec fuel state with
      | none =>
          simp [iterate, ran] at returned
      | some outcome =>
          have ranMore := (body current).stable enough ran
          rcases outcome with ⟨flow, after⟩
          cases flow with
          | done value =>
              simpa [iterate, ran, ranMore] using returned
          | next following =>
              simp only [iterate, ran] at returned
              simp only [iterate, ranMore]
              exact inductionHypothesis (by omega) returned

/-- A loop: repeat the body until it decides to leave. -/
def loop
    (body : β → Program σ (Flow β α))
    (start : β) :
    Program σ α where
  exec fuel state := iterate body fuel fuel start state
  stable enough returned := iterate_stable enough enough returned

/-- A loop that counts up from zero. -/
def countUp
    (count : Nat)
    (body : Nat → Program σ Unit) :
    Program σ Unit :=
  match count with
  | 0 => pure ()
  | count + 1 => do
      countUp count body
      body count

/-- A loop that counts up from zero and computes a value. -/
def foldUp
    (count : Nat)
    (start : β)
    (body : Nat → β → Program σ β) :
    Program σ β :=
  match count with
  | 0 => pure start
  | count + 1 => do
      let current ← foldUp count start body
      body count current

/-- A loop that counts up from zero and leaves at the first success. -/
def anyUp
    (count : Nat)
    (test : Nat → Program σ Bool) :
    Program σ Bool :=
  match count with
  | 0 => pure false
  | count + 1 => do
      let found ← anyUp count test
      if found then pure true else test count

/-- A loop that counts down to zero. -/
def countDown
    (count : Nat)
    (body : Nat → Program σ Unit) :
    Program σ Unit :=
  match count with
  | 0 => pure ()
  | count + 1 => do
      body count
      countDown count body

/-- The program terminates without failing, with this result and state. -/
def Returns
    (program : Program σ α)
    (state : σ)
    (value : α)
    (after : σ) : Prop :=
  ∃ fuel, program.exec fuel state = some (value, after)

/-- A program has at most one outcome. -/
theorem Returns.unique
    {program : Program σ α}
    {state first second : σ}
    {firstValue secondValue : α}
    (one : program.Returns state firstValue first)
    (other : program.Returns state secondValue second) :
    firstValue = secondValue ∧ first = second := by
  obtain ⟨fuel, returned⟩ := one
  obtain ⟨more, returnedMore⟩ := other
  have same :
      some (firstValue, first) = some (secondValue, second) :=
    (program.stable (Nat.le_max_left fuel more) returned).symm.trans
      (program.stable (Nat.le_max_right fuel more) returnedMore)
  simpa using same

/--
Total correctness: the program terminates without failing and its outcome
satisfies the postcondition.
-/
def Ensures
    (program : Program σ α)
    (state : σ)
    (post : α → σ → Prop) : Prop :=
  ∃ value after, program.Returns state value after ∧ post value after

/-- Weaken the postcondition. -/
theorem Ensures.weaken
    {program : Program σ α}
    {state : σ}
    {post weaker : α → σ → Prop}
    (ensured : program.Ensures state post)
    (implies : ∀ value after, post value after → weaker value after) :
    program.Ensures state weaker := by
  obtain ⟨value, after, returned, holds⟩ := ensured
  exact ⟨value, after, returned, implies value after holds⟩

/-- Every outcome of a correct program satisfies its postcondition. -/
theorem Ensures.of_returns
    {program : Program σ α}
    {state after : σ}
    {value : α}
    {post : α → σ → Prop}
    (ensured : program.Ensures state post)
    (returned : program.Returns state value after) :
    post value after := by
  obtain ⟨ensuredValue, ensuredAfter, ensuredReturn, holds⟩ := ensured
  obtain ⟨rfl, rfl⟩ := returned.unique ensuredReturn
  exact holds

/-- The postcondition only matters for the outcome. -/
theorem Returns.ensures_iff
    {program : Program σ α}
    {state after : σ}
    {value : α}
    {post : α → σ → Prop}
    (returned : program.Returns state value after) :
    program.Ensures state post ↔ post value after := by
  constructor
  · intro ensured
    exact ensured.of_returns returned
  · intro holds
    exact ⟨value, after, returned, holds⟩

/-- The result of an execution with some fuel. -/
theorem Ensures.of_exec
    {program : Program σ α}
    {state : σ}
    {value : α}
    (fuel : Nat)
    (executed :
      (program.exec fuel state).map Prod.fst = some value) :
    program.Ensures state fun result _ => result = value := by
  obtain ⟨⟨result, after⟩, returned, isValue⟩ :=
    Option.map_eq_some_iff.mp executed
  exact ⟨result, after, ⟨fuel, returned⟩, isValue⟩

@[simp] theorem ensures_pure
    {value : α}
    {state : σ}
    {post : α → σ → Prop} :
    (pure value : Program σ α).Ensures state post ↔
      post value state := by
  constructor
  · rintro ⟨_, _, ⟨_, returned⟩, holds⟩
    cases returned
    exact holds
  · intro holds
    exact ⟨value, state, ⟨0, rfl⟩, holds⟩

@[simp] theorem ensures_bind
    {first : Program σ α}
    {second : α → Program σ β}
    {state : σ}
    {post : β → σ → Prop} :
    (first >>= second).Ensures state post ↔
      first.Ensures state fun value after =>
        (second value).Ensures after post := by
  constructor
  · rintro ⟨value, after, ⟨fuel, returned⟩, holds⟩
    obtain ⟨middle, firstReturned, secondReturned⟩ :=
      Option.bind_eq_some_iff.mp returned
    exact ⟨middle.1, middle.2, ⟨fuel, firstReturned⟩,
      value, after, ⟨fuel, secondReturned⟩, holds⟩
  · rintro ⟨middle, between, ⟨fuel, firstReturned⟩,
      value, after, ⟨more, secondReturned⟩, holds⟩
    refine ⟨value, after, ⟨max fuel more, ?_⟩, holds⟩
    exact Option.bind_eq_some_iff.mpr
      ⟨(middle, between),
        first.stable (Nat.le_max_left _ _) firstReturned,
        (second middle).stable (Nat.le_max_right _ _) secondReturned⟩

@[simp] theorem ensures_reads
    {project : σ → Option α}
    {state : σ}
    {post : α → σ → Prop} :
    (reads project).Ensures state post ↔
      ∃ value, project state = some value ∧ post value state := by
  constructor
  · rintro ⟨value, after, ⟨fuel, returned⟩, holds⟩
    obtain ⟨read, projected, same⟩ := Option.map_eq_some_iff.mp returned
    cases same
    exact ⟨_, projected, holds⟩
  · rintro ⟨value, projected, holds⟩
    exact ⟨value, state, ⟨0, by simp [reads, projected]⟩, holds⟩

@[simp] theorem ensures_updates
    {change : σ → Option σ}
    {state : σ}
    {post : Unit → σ → Prop} :
    (updates change).Ensures state post ↔
      ∃ after, change state = some after ∧ post () after := by
  constructor
  · rintro ⟨value, after, ⟨fuel, returned⟩, holds⟩
    obtain ⟨changed, updated, same⟩ := Option.map_eq_some_iff.mp returned
    cases same
    exact ⟨_, updated, holds⟩
  · rintro ⟨after, updated, holds⟩
    exact ⟨(), after, ⟨0, by simp [updates, updated]⟩, holds⟩

/-- A rewrite of something that has to be there. -/
theorem ensures_updates_map
    {γ : Type}
    {project : σ → Option γ}
    {change : σ → σ}
    {state : σ}
    {post : Unit → σ → Prop} :
    (updates fun state =>
        (project state).map fun _ => change state).Ensures state post ↔
      (∃ content, project state = some content) ∧
        post () (change state) := by
  simp only [ensures_updates, Option.map_eq_some_iff]
  constructor
  · intro stored
    obtain ⟨after, ⟨content, found, rfl⟩, holds⟩ := stored
    exact ⟨⟨content, found⟩, holds⟩
  · intro stored
    obtain ⟨⟨content, found⟩, holds⟩ := stored
    exact ⟨_, ⟨content, found, rfl⟩, holds⟩

@[simp] theorem ensures_zoom
    {τ : Type}
    {part : τ → σ}
    {replace : σ → τ → τ}
    {program : Program σ α}
    {state : τ}
    {post : α → τ → Prop} :
    (program.zoom part replace).Ensures state post ↔
      program.Ensures (part state) fun value after =>
        post value (replace after state) := by
  constructor
  · rintro ⟨value, after, ⟨fuel, returned⟩, holds⟩
    obtain ⟨inner, innerReturned, same⟩ :=
      Option.map_eq_some_iff.mp returned
    cases same
    exact ⟨inner.1, inner.2, ⟨fuel, innerReturned⟩, holds⟩
  · rintro ⟨value, after, ⟨fuel, returned⟩, holds⟩
    exact ⟨value, replace after state,
      ⟨fuel, by simp [zoom, returned]⟩, holds⟩

theorem ensures_onlyIf
    {condition : Prop}
    [Decidable condition]
    {statement : Program σ Unit}
    {state : σ}
    {post : Unit → σ → Prop} :
    (onlyIf condition statement).Ensures state post ↔
      if condition then statement.Ensures state post
      else post () state := by
  by_cases holds : condition <;> simp [onlyIf, holds]

theorem ensures_onlyIf_of
    {condition : Prop}
    [Decidable condition]
    {statement : Program σ Unit}
    {state : σ}
    {post : Unit → σ → Prop}
    (holds : condition) :
    (onlyIf condition statement).Ensures state post ↔
      statement.Ensures state post := by
  rw [ensures_onlyIf, if_pos holds]

theorem ensures_onlyIf_of_not
    {condition : Prop}
    [Decidable condition]
    {statement : Program σ Unit}
    {state : σ}
    {post : Unit → σ → Prop}
    (fails : ¬condition) :
    (onlyIf condition statement).Ensures state post ↔
      post () state := by
  rw [ensures_onlyIf, if_neg fails]

@[simp] theorem ensures_ite
    {condition : Prop}
    [Decidable condition]
    {first second : Program σ α}
    {state : σ}
    {post : α → σ → Prop} :
    (if condition then first else second).Ensures state post ↔
      if condition then first.Ensures state post
      else second.Ensures state post := by
  by_cases holds : condition <;> simp [holds]

/-- Unrolling a loop once. -/
theorem ensures_loop
    {body : β → Program σ (Flow β α)}
    {current : β}
    {state : σ}
    {post : α → σ → Prop} :
    (loop body current).Ensures state post ↔
      (body current).Ensures state fun flow after =>
        match flow with
        | .next following => (loop body following).Ensures after post
        | .done value => post value after := by
  constructor
  · rintro ⟨value, final, ⟨fuel, returned⟩, holds⟩
    cases fuel with
    | zero =>
        simp [loop, iterate] at returned
    | succ rounds =>
        simp only [loop, iterate] at returned
        cases ran : (body current).exec (rounds + 1) state with
        | none =>
            simp [ran] at returned
        | some outcome =>
            rcases outcome with ⟨flow, after⟩
            refine ⟨flow, after, ⟨rounds + 1, ran⟩, ?_⟩
            cases flow with
            | done result =>
                simp only [ran, Option.some.injEq, Prod.mk.injEq]
                  at returned
                obtain ⟨rfl, rfl⟩ := returned
                exact holds
            | next following =>
                simp only [ran] at returned
                refine ⟨value, final, ⟨rounds + 1, ?_⟩, holds⟩
                exact iterate_stable (Nat.le_refl _)
                  (Nat.le_succ rounds) returned
  · rintro ⟨flow, after, ⟨fuel, ran⟩, holds⟩
    cases flow with
    | done value =>
        refine ⟨value, after, ⟨fuel + 1, ?_⟩, holds⟩
        simp [loop, iterate, (body current).stable (Nat.le_succ fuel) ran]
    | next following =>
        obtain ⟨value, final, ⟨more, returned⟩, holdsFinally⟩ := holds
        refine ⟨value, final, ⟨max fuel more + 1, ?_⟩, holdsFinally⟩
        have ranMore :=
          (body current).stable
            (Nat.le_succ_of_le (Nat.le_max_left fuel more)) ran
        simp only [loop, iterate, ranMore]
        exact iterate_stable
          (Nat.le_succ_of_le (Nat.le_max_right fuel more))
          (Nat.le_max_right fuel more) returned

/-- The invariant rule for loops that count up. -/
theorem ensures_countUp
    {count : Nat}
    {body : Nat → Program σ Unit}
    {state : σ}
    (invariant : Nat → σ → Prop)
    (initially : invariant 0 state)
    (step :
      ∀ index < count, ∀ before,
        invariant index before →
        (body index).Ensures before fun _ => invariant (index + 1)) :
    (countUp count body).Ensures state fun _ => invariant count := by
  induction count with
  | zero =>
      exact ensures_pure.mpr initially
  | succ count inductionHypothesis =>
      rw [countUp, ensures_bind]
      refine (inductionHypothesis fun index below =>
        step index (by omega)).weaken ?_
      intro _ between holds
      exact step count (by omega) between holds

/-- The invariant rule for loops that count up and compute a value. -/
theorem ensures_foldUp
    {count : Nat}
    {start : β}
    {body : Nat → β → Program σ β}
    {state : σ}
    (invariant : Nat → β → σ → Prop)
    (initially : invariant 0 start state)
    (step :
      ∀ index < count, ∀ current before,
        invariant index current before →
        (body index current).Ensures before (invariant (index + 1))) :
    (foldUp count start body).Ensures state (invariant count) := by
  induction count with
  | zero =>
      exact ensures_pure.mpr initially
  | succ count inductionHypothesis =>
      rw [foldUp, ensures_bind]
      refine (inductionHypothesis fun index below =>
        step index (by omega)).weaken ?_
      intro current between holds
      exact step count (by omega) current between holds

/-- A fold over two lists is one fold after the other. -/
theorem ensures_foldlM_append
    {ι : Type}
    {step : β → ι → Program σ β}
    {start : β}
    {state : σ}
    {post : β → σ → Prop}
    (first second : List ι) :
    ((first ++ second).foldlM step start).Ensures state post ↔
      (first.foldlM step start).Ensures state fun current between =>
        (second.foldlM step current).Ensures between post := by
  induction first generalizing start state with
  | nil =>
      simp
  | cons position rest inductionHypothesis =>
      simp only [List.cons_append, List.foldlM_cons, ensures_bind,
        inductionHypothesis]

/-- A loop that counts up is a fold over the numbers. -/
theorem ensures_foldUp_iff
    {body : Nat → β → Program σ β}
    {start : β}
    {state : σ}
    {post : β → σ → Prop}
    (count : Nat) :
    (foldUp count start body).Ensures state post ↔
      ((List.range count).foldlM (fun current index => body index current)
        start).Ensures state post := by
  induction count generalizing post with
  | zero =>
      rfl
  | succ count inductionHypothesis =>
      rw [foldUp, ensures_bind, inductionHypothesis, List.range_succ,
        ensures_foldlM_append]
      simp

/-- A search that only reads the state. -/
theorem ensures_anyUp
    {count : Nat}
    {test : Nat → Program σ Bool}
    {state : σ}
    {success : Nat → Prop}
    (tests :
      ∀ index < count,
        (test index).Ensures state fun found after =>
          after = state ∧ (found = true ↔ success index)) :
    (anyUp count test).Ensures state fun found after =>
      after = state ∧ (found = true ↔ ∃ index < count, success index) := by
  induction count with
  | zero =>
      exact ensures_pure.mpr ⟨rfl, by simp⟩
  | succ count inductionHypothesis =>
      rw [anyUp, ensures_bind]
      refine (inductionHypothesis fun index below =>
        tests index (by omega)).weaken ?_
      intro found between result
      obtain ⟨rfl, isFound⟩ := result
      cases found with
      | true =>
          obtain ⟨index, below, succeeds⟩ := isFound.mp rfl
          rw [if_pos rfl, ensures_pure]
          exact ⟨rfl, iff_of_true rfl ⟨index, by omega, succeeds⟩⟩
      | false =>
          rw [if_neg (by simp)]
          refine (tests count (by omega)).weaken ?_
          intro found after result
          obtain ⟨rfl, isTest⟩ := result
          refine ⟨rfl, isTest.trans ?_⟩
          constructor
          · intro succeeds
            exact ⟨count, by omega, succeeds⟩
          · intro some
            obtain ⟨index, below, succeeds⟩ := some
            rcases Nat.lt_succ_iff_lt_or_eq.mp below with less | rfl
            · exact absurd (isFound.mpr ⟨index, less, succeeds⟩) (by simp)
            · exact succeeds

/-- A search that does not fail makes its first test. -/
theorem Ensures.anyUp_first
    {count : Nat}
    {test : Nat → Program σ Bool}
    {state : σ}
    {post : Bool → σ → Prop}
    (ensured : (anyUp count test).Ensures state post)
    (positive : 0 < count) :
    (test 0).Ensures state fun _ _ => True := by
  induction count generalizing post with
  | zero =>
      exact absurd positive (Nat.lt_irrefl 0)
  | succ count inductionHypothesis =>
      rw [anyUp, ensures_bind] at ensured
      cases count with
      | zero =>
          rw [anyUp, ensures_pure, if_neg Bool.false_ne_true] at ensured
          exact ensured.weaken fun _ _ _ => trivial
      | succ count =>
          exact inductionHypothesis ensured (Nat.succ_pos count)

/-- The invariant rule for loops that count down. -/
theorem ensures_countDown
    {count : Nat}
    {body : Nat → Program σ Unit}
    {state : σ}
    (invariant : Nat → σ → Prop)
    (initially : invariant count state)
    (step :
      ∀ index < count, ∀ before,
        invariant (index + 1) before →
        (body index).Ensures before fun _ => invariant index) :
    (countDown count body).Ensures state fun _ => invariant 0 := by
  induction count generalizing state with
  | zero =>
      exact ensures_pure.mpr initially
  | succ count inductionHypothesis =>
      rw [countDown, ensures_bind]
      refine (step count (by omega) state initially).weaken ?_
      intro _ between holds
      exact inductionHypothesis holds fun index below =>
        step index (by omega)

/--
Partial correctness: every outcome of the program satisfies the
postcondition.
-/
def Permits
    (program : Program σ α)
    (state : σ)
    (post : α → σ → Prop) : Prop :=
  ∀ value after, program.Returns state value after → post value after

section Permits

variable {state : σ} {post : α → σ → Prop}

/-- An outcome that is not permitted is no outcome. -/
theorem permits_iff
    {program : Program σ α} :
    program.Permits state post ↔
      ¬program.Ensures state fun value after => ¬post value after := by
  simp only [Permits, Ensures, not_exists, not_and, not_not]

/-- Total correctness implies partial correctness. -/
theorem Ensures.permits
    {program : Program σ α}
    (ensured : program.Ensures state post) :
    program.Permits state post :=
  fun _ _ returned => ensured.of_returns returned

/-- What total and partial correctness say about the outcome. -/
theorem Ensures.both
    {program : Program σ α}
    {other : α → σ → Prop}
    (ensured : program.Ensures state post)
    (permitted : program.Permits state other) :
    program.Ensures state fun value after =>
      post value after ∧ other value after := by
  obtain ⟨value, after, returned, holds⟩ := ensured
  exact ⟨value, after, returned, holds, permitted value after returned⟩

/-- Two postconditions that agree about every outcome. -/
theorem Permits.ensures_congr
    {program : Program σ α}
    {other : α → σ → Prop}
    (permitted :
      program.Permits state fun value after =>
        post value after ↔ other value after) :
    program.Ensures state post ↔ program.Ensures state other := by
  constructor
  · intro ensured
    exact (ensured.both permitted).weaken fun _ _ holds =>
      holds.2.mp holds.1
  · intro ensured
    exact (ensured.both permitted).weaken fun _ _ holds =>
      holds.2.mpr holds.1

/-- Weaken the postcondition. -/
theorem Permits.weaken
    {program : Program σ α}
    {weaker : α → σ → Prop}
    (permitted : program.Permits state post)
    (implies : ∀ value after, post value after → weaker value after) :
    program.Permits state weaker :=
  fun value after returned =>
    implies value after (permitted value after returned)

@[simp] theorem permits_pure
    {value : α} :
    (pure value : Program σ α).Permits state post ↔
      post value state := by
  rw [permits_iff, ensures_pure, not_not]

@[simp] theorem permits_bind
    {first : Program σ β}
    {second : β → Program σ α} :
    (first >>= second).Permits state post ↔
      first.Permits state fun value after =>
        (second value).Permits after post := by
  rw [permits_iff, ensures_bind, permits_iff]
  simp only [permits_iff, not_not]

@[simp] theorem permits_reads
    {project : σ → Option α} :
    (reads project).Permits state post ↔
      ∀ value, project state = some value → post value state := by
  rw [permits_iff, ensures_reads]
  simp

@[simp] theorem permits_updates
    {change : σ → Option σ}
    {post : Unit → σ → Prop} :
    (updates change).Permits state post ↔
      ∀ after, change state = some after → post () after := by
  rw [permits_iff, ensures_updates]
  simp

@[simp] theorem permits_ite
    {condition : Prop}
    [Decidable condition]
    {first second : Program σ α} :
    (if condition then first else second).Permits state post ↔
      if condition then first.Permits state post
      else second.Permits state post := by
  by_cases holds : condition <;> simp [holds]

/-- Partial correctness of a program that consists of two others. -/
theorem permits_of_ensures_iff
    {program : Program σ α}
    {first : Program σ β}
    {second : β → Program σ α}
    (same :
      ∀ post : α → σ → Prop,
        program.Ensures state post ↔
          first.Ensures state fun value after =>
            (second value).Ensures after post) :
    program.Permits state post ↔
      first.Permits state fun value after =>
        (second value).Permits after post := by
  rw [permits_iff, same, ← ensures_bind, ← permits_iff, permits_bind]

/-- Unrolling a loop once. -/
theorem permits_loop_iff
    {body : β → Program σ (Flow β α)}
    {current : β} :
    (loop body current).Permits state post ↔
      (body current).Permits state fun flow after =>
        match flow with
        | .next following => (loop body following).Permits after post
        | .done value => post value after := by
  rw [permits_iff, ensures_loop, permits_iff, not_iff_not]
  constructor
  · intro ensured
    refine ensured.weaken fun flow after holds => ?_
    cases flow with
    | next following =>
        exact fun permitted => permits_iff.mp permitted holds
    | done value =>
        exact holds
  · intro ensured
    refine ensured.weaken fun flow after holds => ?_
    cases flow with
    | next following =>
        exact not_not.mp fun notEnsured => holds (permits_iff.mpr notEnsured)
    | done value =>
        exact holds

/-- The invariant rule for loops. -/
theorem permits_loop
    {body : β → Program σ (Flow β α)}
    (invariant : β → σ → Prop)
    (step :
      ∀ current state,
        invariant current state →
        (body current).Permits state fun flow after =>
          match flow with
          | .next following => invariant following after
          | .done value => post value after)
    {start : β}
    (initially : invariant start state) :
    (loop body start).Permits state post := by
  have rounds
      (fuel rounds : Nat)
      (current : β)
      (between : σ)
      (value : α)
      (after : σ)
      (holds : invariant current between)
      (returned :
        iterate body fuel rounds current between = some (value, after)) :
      post value after := by
    induction rounds generalizing current between with
    | zero =>
        simp [iterate] at returned
    | succ rounds inductionHypothesis =>
        cases ran : (body current).exec fuel between with
        | none =>
            simp [iterate, ran] at returned
        | some outcome =>
            obtain ⟨flow, next⟩ := outcome
            have kept := step current between holds flow next ⟨fuel, ran⟩
            cases flow with
            | done result =>
                simp only [iterate, ran, Option.some.injEq,
                  Prod.mk.injEq] at returned
                rw [← returned.1, ← returned.2]
                exact kept
            | next following =>
                simp only [iterate, ran] at returned
                exact inductionHypothesis following next kept returned
  intro value after returned
  obtain ⟨fuel, executed⟩ := returned
  exact rounds fuel fuel start state value after initially executed

/-- The rule of partial correctness for loops that count up. -/
theorem permits_countUp
    {count : Nat}
    {body : Nat → Program σ Unit}
    (invariant : Nat → σ → Prop)
    (initially : invariant 0 state)
    (step :
      ∀ index < count, ∀ before,
        invariant index before →
        (body index).Permits before fun _ => invariant (index + 1)) :
    (countUp count body).Permits state fun _ => invariant count := by
  induction count with
  | zero =>
      exact permits_pure.mpr initially
  | succ count inductionHypothesis =>
      rw [countUp, permits_bind]
      refine (inductionHypothesis fun index below =>
        step index (by omega)).weaken ?_
      intro _ between holds
      exact step count (by omega) between holds

end Permits

/-- Every outcome of the program keeps the property of the state. -/
def Preserves
    (program : Program σ α)
    (property : σ → Prop) : Prop :=
  ∀ state,
    property state →
    program.Permits state fun _ after => property after

section Preserves

variable {property : σ → Prop}

theorem preserves_pure
    (value : α) :
    (pure value : Program σ α).Preserves property :=
  fun _ holds => permits_pure.mpr holds

theorem preserves_reads
    (project : σ → Option α) :
    (reads project).Preserves property :=
  fun _ holds => permits_reads.mpr fun _ _ => holds

theorem preserves_updates
    {change : σ → Option σ}
    (keeps :
      ∀ state after,
        property state → change state = some after → property after) :
    (updates change).Preserves property :=
  fun state holds =>
    permits_updates.mpr fun after changed =>
      keeps state after holds changed

/-- A program on a part keeps what does not depend on the part. -/
theorem preserves_zoom
    {τ : Type}
    {part : τ → σ}
    {replace : σ → τ → τ}
    {property : τ → Prop}
    (keeps :
      ∀ state changed, property state → property (replace changed state))
    (program : Program σ α) :
    (program.zoom part replace).Preserves property := by
  intro state holds
  rw [permits_iff, ensures_zoom]
  rintro ⟨_, changed, -, lost⟩
  exact lost (keeps state changed holds)

theorem Preserves.bind
    {first : Program σ α}
    {second : α → Program σ β}
    (firstKeeps : first.Preserves property)
    (secondKeeps : ∀ value, (second value).Preserves property) :
    (first >>= second).Preserves property := by
  intro state holds
  rw [permits_bind]
  refine (firstKeeps state holds).weaken ?_
  intro value between kept
  exact secondKeeps value between kept

theorem Preserves.ite
    {condition : Prop}
    [Decidable condition]
    {first second : Program σ α}
    (firstKeeps : condition → first.Preserves property)
    (secondKeeps : ¬condition → second.Preserves property) :
    (if condition then first else second).Preserves property := by
  split
  · exact firstKeeps ‹_›
  · exact secondKeeps ‹_›

/-- A search keeps what its tests keep. -/
theorem Preserves.anyUp
    {test : Nat → Program σ Bool}
    (keeps : ∀ index, (test index).Preserves property)
    (count : Nat) :
    (anyUp count test).Preserves property := by
  induction count with
  | zero =>
      exact preserves_pure _
  | succ count inductionHypothesis =>
      exact inductionHypothesis.bind fun found =>
        .ite (fun _ => preserves_pure _) fun _ => keeps count

theorem Preserves.onlyIf
    {condition : Prop}
    [Decidable condition]
    {statement : Program σ Unit}
    (keeps : condition → statement.Preserves property) :
    (onlyIf condition statement).Preserves property :=
  .ite keeps fun _ => preserves_pure _

/-- A loop that counts up keeps what its body keeps. -/
theorem Preserves.countUp
    {body : Nat → Program σ Unit}
    (keeps : ∀ index, (body index).Preserves property)
    (count : Nat) :
    (countUp count body).Preserves property := by
  induction count with
  | zero =>
      exact preserves_pure _
  | succ count inductionHypothesis =>
      exact inductionHypothesis.bind fun _ => keeps count

/-- A loop that counts down keeps what its body keeps. -/
theorem Preserves.countDown
    {body : Nat → Program σ Unit}
    (keeps : ∀ index, (body index).Preserves property)
    (count : Nat) :
    (countDown count body).Preserves property := by
  induction count with
  | zero =>
      exact preserves_pure _
  | succ count inductionHypothesis =>
      exact (keeps count).bind fun _ => inductionHypothesis

/-- A loop keeps what its body keeps. -/
theorem Preserves.loop
    {body : β → Program σ (Flow β α)}
    (keeps : ∀ current, (body current).Preserves property)
    (start : β) :
    (loop body start).Preserves property := by
  intro state holds
  refine permits_loop (fun _ => property) ?_ holds
  intro current between kept
  refine (keeps current between kept).weaken ?_
  intro flow after
  cases flow <;> exact id

end Preserves

end Program

end LibKern
