import LibKern.Memory
import LibKern.Traversal

namespace LibKern

/-!
# Locality of programs

A program that fails on every access to an unmapped cell cannot tell a memory
from a larger one: what it does in the small memory it also does in the large
one, and it leaves the rest of the large memory alone.  A program that is known
to end in the part of the memory that belongs to one data structure therefore
respects all others.
-/

namespace Program

variable {σ α β : Type}

/--
Every run can be repeated from every related state.  This is a class, so that
instances put the proof together along the structure of the program.
-/
class Follows
    (program : Program σ α)
    (related : σ → σ → Prop) : Prop where
  repeats :
    ∀ {fuel : Nat} {one other : σ} {result : α × σ},
      related one other →
      program.exec fuel one = some result →
      ∃ otherAfter,
        program.exec fuel other = some (result.1, otherAfter) ∧
          related result.2 otherAfter

section Follows

variable {related : σ → σ → Prop}

instance follows_pure
    {value : α} :
    (pure value : Program σ α).Follows related := by
  constructor
  intro fuel one other result areRelated returned
  obtain rfl : (value, one) = result := Option.some.inj returned
  exact ⟨other, rfl, areRelated⟩

instance follows_bind
    {first : Program σ α}
    {second : α → Program σ β}
    [firstFollows : first.Follows related]
    [secondFollows : ∀ value, (second value).Follows related] :
    (first >>= second).Follows related := by
  constructor
  intro fuel one other result areRelated returned
  obtain ⟨middle, firstReturned, secondReturned⟩ :=
    Option.bind_eq_some_iff.mp returned
  obtain ⟨between, otherFirst, stillRelated⟩ :=
    firstFollows.repeats areRelated firstReturned
  obtain ⟨after, otherSecond, atEnd⟩ :=
    (secondFollows middle.1).repeats stillRelated secondReturned
  exact ⟨after, Option.bind_eq_some_iff.mpr ⟨_, otherFirst, otherSecond⟩,
    atEnd⟩

instance follows_ite
    {condition : Prop}
    [Decidable condition]
    {first second : Program σ α}
    [firstFollows : first.Follows related]
    [secondFollows : second.Follows related] :
    (if condition then first else second).Follows related := by
  split
  · exact firstFollows
  · exact secondFollows

instance follows_onlyIf
    {condition : Prop}
    [Decidable condition]
    {statement : Program σ Unit}
    [statement.Follows related] :
    (onlyIf condition statement).Follows related :=
  follows_ite

/-- A projection that related states agree about. -/
theorem follows_reads
    {project : σ → Option α}
    (agrees :
      ∀ {one other : σ} {value : α},
        related one other →
        project one = some value →
        project other = some value) :
    (reads project).Follows related := by
  constructor
  intro fuel one other result areRelated returned
  obtain ⟨value, isValue, rfl⟩ := Option.map_eq_some_iff.mp returned
  exact ⟨other,
    Option.map_eq_some_iff.mpr ⟨value, agrees areRelated isValue, rfl⟩,
    areRelated⟩

/-- A change that takes related states to related states. -/
theorem follows_updates
    {change : σ → Option σ}
    (agrees :
      ∀ {one other after : σ},
        related one other →
        change one = some after →
        ∃ otherAfter,
          change other = some otherAfter ∧ related after otherAfter) :
    (updates change).Follows related := by
  constructor
  intro fuel one other result areRelated returned
  obtain ⟨after, isAfter, rfl⟩ := Option.map_eq_some_iff.mp returned
  obtain ⟨otherAfter, isOtherAfter, stillRelated⟩ :=
    agrees areRelated isAfter
  exact ⟨otherAfter,
    Option.map_eq_some_iff.mpr ⟨otherAfter, isOtherAfter, rfl⟩,
    stillRelated⟩

instance follows_loop
    {body : β → Program σ (Flow β α)}
    {start : β}
    [follows : ∀ current, (body current).Follows related] :
    (loop body start).Follows related := by
  constructor
  intro fuel one other result areRelated returned
  have rounds (count : Nat) :
      ∀ {current : β} {one other : σ},
        related one other →
        iterate body fuel count current one = some result →
        ∃ otherAfter,
          iterate body fuel count current other =
              some (result.1, otherAfter) ∧
            related result.2 otherAfter := by
    induction count with
    | zero =>
        intro current one other _ returned
        simp [iterate] at returned
    | succ count inductionHypothesis =>
        intro current one other areRelated returned
        cases ran : (body current).exec fuel one with
        | none =>
            simp [iterate, ran] at returned
        | some outcome =>
            obtain ⟨between, otherRan, stillRelated⟩ :=
              (follows current).repeats areRelated ran
            rcases outcome with ⟨flow, after⟩
            cases flow with
            | done value =>
                obtain rfl : (value, after) = result := by
                  simpa [iterate, ran] using returned
                exact ⟨between, by simp [iterate, otherRan],
                  stillRelated⟩
            | next following =>
                simp only [iterate, ran] at returned
                simp only [iterate, otherRan]
                exact inductionHypothesis stillRelated returned
  exact rounds fuel areRelated returned

instance follows_eachAhead
    {τ : Type}
    {first : Program σ τ}
    {follow : τ → Program σ τ}
    {stop : τ → Bool}
    {body : τ → β → Program σ β}
    {start : β}
    [first.Follows related]
    [∀ pos, (follow pos).Follows related]
    [∀ pos current, (body pos current).Follows related] :
    (eachAhead first follow stop body start).Follows related := by
  unfold eachAhead
  infer_instance

/-- What a program ensures in one state it ensures in every related one. -/
theorem Ensures.follows
    {program : Program σ α}
    {one other : σ}
    {post : α → σ → Prop}
    [follows : program.Follows related]
    (areRelated : related one other)
    (ensured : program.Ensures one post) :
    program.Ensures other fun value after =>
      ∃ smaller, post value smaller ∧ related smaller after := by
  obtain ⟨value, after, ⟨fuel, returned⟩, holds⟩ := ensured
  obtain ⟨otherAfter, otherReturned, stillRelated⟩ :=
    follows.repeats areRelated returned
  exact ⟨value, otherAfter, ⟨fuel, otherReturned⟩, after, holds,
    stillRelated⟩

end Follows

end Program

namespace Memory

variable {α γ : Type} [Null α]

/-- The part of a memory at some of the addresses. -/
def restrict
    (memory : Memory α γ)
    (inside : α → Prop)
    [DecidablePred inside] :
    Memory α γ where
  cell address := if inside address then memory.cell address else none
  null_unmapped := by simp [memory.null_unmapped]

/--
One memory is the part of another at some addresses, all of them mapped, and
the rest of the other memory is the rest of a fixed one.
-/
structure Framed
    (inside : α → Prop)
    (frame small big : Memory α γ) : Prop where
  mapped : ∀ address, inside address → small.cell address ≠ none
  same :
    ∀ address, inside address → big.cell address = small.cell address
  unmapped : ∀ address, ¬inside address → small.cell address = none
  rest :
    ∀ address, ¬inside address → big.cell address = frame.cell address

variable {inside : α → Prop} {frame small big : Memory α γ}

/-- A memory is a part of itself together with the rest of itself. -/
theorem framed_restrict
    [DecidablePred inside]
    (mapped : ∀ address, inside address → big.cell address ≠ none) :
    Framed inside big (big.restrict inside) big where
  mapped address isInside := by
    simpa [restrict, isInside] using mapped address isInside
  same address isInside := by
    simp [restrict, isInside]
  unmapped address isOutside := by
    simp [restrict, isOutside]
  rest _ _ := rfl

/-- What is mapped in the part is mapped in the whole. -/
theorem Framed.cell
    {address : α}
    {content : γ}
    (framed : Framed inside frame small big)
    (found : small.cell address = some content) :
    big.cell address = some content := by
  by_cases isInside : inside address
  · rw [framed.same address isInside, found]
  · rw [framed.unmapped address isInside] at found
    exact absurd found (by simp)

/-- A mapped cell of the part can be rewritten in both. -/
theorem Framed.modify
    [DecidableEq α]
    {target : α}
    {content : γ}
    (framed : Framed inside frame small big)
    (found : small.cell target = some content)
    (change : γ → γ) :
    Framed inside frame (small.modify target change)
      (big.modify target change) := by
  have isInside : inside target := by
    by_contra isOutside
    rw [framed.unmapped target isOutside] at found
    exact absurd found (by simp)
  have different
      {address : α}
      (isOutside : ¬inside address) :
      address ≠ target := by
    rintro rfl
    exact isOutside isInside
  constructor
  · intro address addressInside
    by_cases same : address = target
    · subst same
      simp [found]
    · simpa [same] using framed.mapped address addressInside
  · intro address addressInside
    by_cases same : address = target
    · subst same
      simp [framed.same address addressInside]
    · simpa [same] using framed.same address addressInside
  · intro address isOutside
    simpa [different isOutside] using framed.unmapped address isOutside
  · intro address isOutside
    simpa [different isOutside] using framed.rest address isOutside

/--
The frame rule: a program that ends in a part of the memory ends in the whole
memory, with the same result, and keeps everything outside of this part.
-/
theorem ensures_of_restrict
    {β : Type}
    [DecidablePred inside]
    {program : Program (Memory α γ) β}
    [program.Follows (Framed inside big)]
    {post : β → Memory α γ → Prop}
    (mapped : ∀ address, inside address → big.cell address ≠ none)
    (ensured : program.Ensures (big.restrict inside) post) :
    program.Ensures big fun value after =>
      ∃ part, post value part ∧ Framed inside big part after :=
  ensured.follows (framed_restrict mapped)

end Memory

end LibKern
