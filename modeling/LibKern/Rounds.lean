import LibKern.Program

namespace LibKern.Program

/-!
# The rounds that loops make

A program that is run with some fuel may make this number of rounds in each of
its loops.  The rules for total correctness within a number of rounds follow the
structure of the program, like the rules without it.  A program without loops
needs no rounds, and a loop needs a variant that gets smaller in every round.
-/

variable {σ α β : Type}

/--
Total correctness within a number of rounds: the program ends and satisfies the
postcondition if each of its loops may make this number of rounds.
-/
def EnsuresWithin
    (rounds : Nat)
    (program : Program σ α)
    (state : σ)
    (post : α → σ → Prop) : Prop :=
  ∃ value after,
    program.exec rounds state = some (value, after) ∧ post value after

/-- The program ends within this number of rounds. -/
def EndsWithin
    (rounds : Nat)
    (program : Program σ α)
    (state : σ) : Prop :=
  program.EnsuresWithin rounds state fun _ _ => True

/--
A program without loops does not depend on the fuel.  This is a class, so that
instances put the proof together along the structure of the program.
-/
class Loopless (program : Program σ α) : Prop where
  same :
    ∀ (fuel more : Nat) (state : σ),
      program.exec fuel state = program.exec more state

section Loopless

instance loopless_pure
    {value : α} :
    Loopless (pure value : Program σ α) :=
  ⟨fun _ _ _ => rfl⟩

instance loopless_bind
    {first : Program σ α}
    {second : α → Program σ β}
    [noLoop : Loopless first]
    [noLoopAfter : ∀ value, Loopless (second value)] :
    Loopless (first >>= second) := by
  constructor
  intro fuel more state
  show (first.exec fuel state).bind _ = (first.exec more state).bind _
  rw [noLoop.same fuel more]
  congr 1
  funext outcome
  exact (noLoopAfter outcome.1).same fuel more outcome.2

instance loopless_reads
    {project : σ → Option α} :
    Loopless (reads project) :=
  ⟨fun _ _ _ => rfl⟩

instance loopless_updates
    {change : σ → Option σ} :
    Loopless (updates change) :=
  ⟨fun _ _ _ => rfl⟩

instance loopless_ite
    {condition : Prop}
    [Decidable condition]
    {first second : Program σ α}
    [firstNoLoop : Loopless first]
    [secondNoLoop : Loopless second] :
    Loopless (if condition then first else second) := by
  split
  · exact firstNoLoop
  · exact secondNoLoop

instance loopless_onlyIf
    {condition : Prop}
    [Decidable condition]
    {statement : Program σ Unit}
    [Loopless statement] :
    Loopless (onlyIf condition statement) :=
  loopless_ite

instance loopless_zoom
    {τ : Type}
    {part : τ → σ}
    {replace : σ → τ → τ}
    {program : Program σ α}
    [noLoop : Loopless program] :
    Loopless (program.zoom part replace) := by
  constructor
  intro fuel more state
  simp only [zoom, noLoop.same fuel more]

end Loopless

section Rules

variable {rounds : Nat}
variable {state : σ}

/-- Correctness within a number of rounds is total correctness. -/
theorem EnsuresWithin.ensures
    {program : Program σ α}
    {post : α → σ → Prop}
    (ensured : program.EnsuresWithin rounds state post) :
    program.Ensures state post := by
  obtain ⟨value, after, executed, holds⟩ := ensured
  exact ⟨value, after, ⟨rounds, executed⟩, holds⟩

/-- Weaken the postcondition. -/
theorem EnsuresWithin.weaken
    {program : Program σ α}
    {post weaker : α → σ → Prop}
    (ensured : program.EnsuresWithin rounds state post)
    (implies : ∀ value after, post value after → weaker value after) :
    program.EnsuresWithin rounds state weaker := by
  obtain ⟨value, after, executed, holds⟩ := ensured
  exact ⟨value, after, executed, implies value after holds⟩

/-- What is known without the rounds also holds within them. -/
theorem EndsWithin.ensuresWithin
    {program : Program σ α}
    {post : α → σ → Prop}
    (ends : program.EndsWithin rounds state)
    (ensured : program.Ensures state post) :
    program.EnsuresWithin rounds state post := by
  obtain ⟨value, after, executed, -⟩ := ends
  exact ⟨value, after, executed, ensured.of_returns ⟨rounds, executed⟩⟩

theorem EnsuresWithin.endsWithin
    {program : Program σ α}
    {post : α → σ → Prop}
    (ensured : program.EnsuresWithin rounds state post) :
    program.EndsWithin rounds state :=
  ensured.weaken fun _ _ _ => trivial

/-- More rounds do no harm. -/
theorem EnsuresWithin.mono
    {program : Program σ α}
    {post : α → σ → Prop}
    {more : Nat}
    (ensured : program.EnsuresWithin rounds state post)
    (enough : rounds ≤ more) :
    program.EnsuresWithin more state post := by
  obtain ⟨value, after, executed, holds⟩ := ensured
  exact ⟨value, after, program.stable enough executed, holds⟩

/-- A program without loops needs no rounds. -/
theorem ensuresWithin_loopless
    {program : Program σ α}
    [noLoop : Loopless program]
    {post : α → σ → Prop} :
    program.EnsuresWithin rounds state post ↔
      program.Ensures state post := by
  constructor
  · exact EnsuresWithin.ensures
  · rintro ⟨value, after, ⟨fuel, executed⟩, holds⟩
    rw [noLoop.same fuel rounds] at executed
    exact ⟨value, after, executed, holds⟩

theorem ensuresWithin_bind
    {first : Program σ α}
    {second : α → Program σ β}
    {post : β → σ → Prop} :
    (first >>= second).EnsuresWithin rounds state post ↔
      first.EnsuresWithin rounds state fun value after =>
        (second value).EnsuresWithin rounds after post := by
  constructor
  · rintro ⟨value, final, executed, holds⟩
    obtain ⟨⟨middle, after⟩, firstRan, secondRan⟩ :=
      Option.bind_eq_some_iff.mp executed
    exact ⟨middle, after, firstRan, value, final, secondRan, holds⟩
  · rintro ⟨middle, after, firstRan, value, final, secondRan, holds⟩
    exact ⟨value, final,
      Option.bind_eq_some_iff.mpr ⟨(middle, after), firstRan, secondRan⟩,
      holds⟩

/-- The first of two programs has no loop. -/
theorem ensuresWithin_loopless_bind
    {first : Program σ α}
    [Loopless first]
    {second : α → Program σ β}
    {post : β → σ → Prop} :
    (first >>= second).EnsuresWithin rounds state post ↔
      first.Ensures state fun value after =>
        (second value).EnsuresWithin rounds after post := by
  rw [ensuresWithin_bind, ensuresWithin_loopless]

/-- A program without loops that ends. -/
theorem Ensures.endsWithin
    {program : Program σ α}
    [Loopless program]
    {post : α → σ → Prop}
    (ensured : program.Ensures state post) :
    program.EndsWithin rounds state :=
  (ensuresWithin_loopless.mpr ensured).endsWithin

/-- One program that ends after the other. -/
theorem EndsWithin.bind
    {first : Program σ α}
    {second : α → Program σ β}
    (ends : first.EndsWithin rounds state)
    (endsAfter :
      first.Permits state fun value after =>
        (second value).EndsWithin rounds after) :
    (first >>= second).EndsWithin rounds state := by
  obtain ⟨value, after, executed, -⟩ := ends
  rw [EndsWithin, ensuresWithin_bind]
  exact ⟨value, after, executed, endsAfter value after ⟨rounds, executed⟩⟩

/-- The program after the first one has no loop. -/
theorem EndsWithin.bind_loopless
    {first : Program σ α}
    {second : α → Program σ β}
    [∀ value, Loopless (second value)]
    {post : β → σ → Prop}
    (ends : first.EndsWithin rounds state)
    (ensured : (first >>= second).Ensures state post) :
    (first >>= second).EndsWithin rounds state := by
  refine ends.bind ?_
  rw [ensures_bind] at ensured
  exact ensured.permits.weaken fun _ _ => Ensures.endsWithin

/-- A statement that is executed only under a condition. -/
theorem endsWithin_onlyIf
    {condition : Prop}
    [Decidable condition]
    {statement : Program σ Unit}
    (ends : condition → statement.EndsWithin rounds state) :
    (onlyIf condition statement).EndsWithin rounds state := by
  rw [onlyIf]
  split
  · exact ends ‹_›
  · exact ensuresWithin_loopless.mpr (ensures_pure.mpr trivial)

/-- A program on a part of the state makes the same rounds. -/
theorem ensuresWithin_zoom
    {τ : Type}
    {part : τ → σ}
    {replace : σ → τ → τ}
    {program : Program σ α}
    {state : τ}
    {post : α → τ → Prop} :
    (program.zoom part replace).EnsuresWithin rounds state post ↔
      program.EnsuresWithin rounds (part state) fun value after =>
        post value (replace after state) := by
  constructor
  · rintro ⟨value, after, executed, holds⟩
    obtain ⟨inner, innerExecuted, same⟩ :=
      Option.map_eq_some_iff.mp executed
    cases same
    exact ⟨inner.1, inner.2, innerExecuted, holds⟩
  · rintro ⟨value, after, executed, holds⟩
    exact ⟨value, replace after state, by simp [zoom, executed], holds⟩

/--
The rule for loops: the variant bounds the rounds that are left, and every
round that goes on makes it smaller.
-/
theorem ensuresWithin_loop
    {body : β → Program σ (Flow β α)}
    [∀ current, Loopless (body current)]
    {post : α → σ → Prop}
    (variant : Nat → β → σ → Prop)
    (step :
      ∀ left current state,
        variant left current state →
        (body current).Ensures state fun flow after =>
          (∀ value, flow = .done value → post value after) ∧
            ∀ following, flow = .next following →
              ∃ fewer < left, variant fewer following after)
    {start : β}
    {left : Nat}
    (initially : variant left start state)
    (enough : left < rounds) :
    (loop body start).EnsuresWithin rounds state post := by
  have iterates :
      ∀ allowed left current between,
        variant left current between →
        left < allowed →
        ∃ value final,
          iterate body rounds allowed current between =
              some (value, final) ∧
            post value final := by
    intro allowed
    induction allowed with
    | zero =>
        intro left current between _ impossible
        omega
    | succ allowed inductionHypothesis =>
        intro left current between holds enough
        obtain ⟨flow, after, ran, ends, goesOn⟩ :=
          (@ensuresWithin_loopless _ _ rounds _ _ _ _).mpr
            (step left current between holds)
        cases flow with
        | done value =>
            exact ⟨value, after, by simp [iterate, ran], ends value rfl⟩
        | next following =>
            obtain ⟨fewer, less, stillHolds⟩ := goesOn following rfl
            obtain ⟨value, final, executed, reached⟩ :=
              inductionHypothesis fewer following after stillHolds
                (by omega)
            exact ⟨value, final, by simp [iterate, ran, executed], reached⟩
  exact iterates rounds left start state initially enough

/-- The rule for loops without a postcondition. -/
theorem endsWithin_loop
    {body : β → Program σ (Flow β α)}
    [∀ current, Loopless (body current)]
    (variant : Nat → β → σ → Prop)
    (step :
      ∀ left current state,
        variant left current state →
        (body current).Ensures state fun flow after =>
          ∀ following, flow = .next following →
            ∃ fewer < left, variant fewer following after)
    {start : β}
    {left : Nat}
    (initially : variant left start state)
    (enough : left < rounds) :
    (loop body start).EndsWithin rounds state := by
  refine ensuresWithin_loop variant ?_ initially enough
  intro left current state holds
  refine (step left current state holds).weaken ?_
  intro flow after goesOn
  exact ⟨fun _ _ => trivial, goesOn⟩

end Rules

end LibKern.Program
