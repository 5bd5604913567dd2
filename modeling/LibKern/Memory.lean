import Mathlib.Algebra.Group.Nat.Defs
import Mathlib.Data.Fintype.Card
import Mathlib.Data.Option.Basic

namespace LibKern

/-!
# Partial memories with a null address

A memory maps finitely or infinitely many addresses to typed cells.  The null
address is never mapped, so that following a null pointer is an access to an
unmapped cell.
-/

/-- A type of addresses with a distinguished null address. -/
class Null (α : Type) where
  null : α

export Null (null)

/-- A partial map from addresses to cells that leaves null unmapped. -/
@[ext] structure Memory (α γ : Type) [Null α] where
  cell : α → Option γ
  null_unmapped : cell null = none

namespace Memory

variable {α γ δ : Type} [Null α]

/-- Look at every cell through a projection. -/
def map (project : γ → δ) (memory : Memory α γ) : Memory α δ where
  cell address := (memory.cell address).map project
  null_unmapped := by simp [memory.null_unmapped]

@[simp] theorem map_cell
    (project : γ → δ)
    (memory : Memory α γ)
    (address : α) :
    (memory.map project).cell address =
      (memory.cell address).map project :=
  rfl

/-- A mapped address is not null. -/
theorem ne_null
    {memory : Memory α γ}
    {address : α}
    {content : γ}
    (mapped : memory.cell address = some content) :
    address ≠ null := by
  rintro rfl
  simp [memory.null_unmapped] at mapped

variable [DecidableEq α]

/-- Rewrite one cell in place; an unmapped address stays unmapped. -/
def modify
    (memory : Memory α γ)
    (target : α)
    (change : γ → γ) :
    Memory α γ where
  cell address :=
    if address = target then (memory.cell target).map change
    else memory.cell address
  null_unmapped := by
    by_cases isTarget : null = target
    · simp [← isTarget, memory.null_unmapped]
    · simp [isTarget, memory.null_unmapped]

theorem modify_cell
    (memory : Memory α γ)
    (target address : α)
    (change : γ → γ) :
    (memory.modify target change).cell address =
      if address = target then (memory.cell target).map change
      else memory.cell address :=
  rfl

@[simp] theorem modify_cell_same
    (memory : Memory α γ)
    (target : α)
    (change : γ → γ) :
    (memory.modify target change).cell target =
      (memory.cell target).map change := by
  simp [modify_cell]

@[simp] theorem modify_cell_of_ne
    (memory : Memory α γ)
    {target address : α}
    (change : γ → γ)
    (different : address ≠ target) :
    (memory.modify target change).cell address =
      memory.cell address := by
  simp [modify_cell, different]

/-- Two rewrites of one cell are one rewrite. -/
@[simp] theorem modify_modify
    (memory : Memory α γ)
    (target : α)
    (change other : γ → γ) :
    (memory.modify target change).modify target other =
      memory.modify target fun content => other (change content) := by
  ext1
  funext address
  by_cases same : address = target
  · subst same
    simp [Function.comp_def]
  · simp [same]

/-- Rewrites of different cells commute. -/
theorem modify_comm
    (memory : Memory α γ)
    {first second : α}
    (different : first ≠ second)
    (change other : γ → γ) :
    (memory.modify first change).modify second other =
      (memory.modify second other).modify first change := by
  ext1
  funext address
  by_cases isFirst : address = first
  · subst isFirst
    simp [different]
  · by_cases isSecond : address = second
    · subst isSecond
      simp [isFirst]
    · simp [isFirst, isSecond]

/-- Rewriting the null address changes nothing. -/
@[simp] theorem modify_null
    (memory : Memory α γ)
    (change : γ → γ) :
    memory.modify null change = memory := by
  ext1
  funext address
  by_cases isNull : address = null
  · simp [isNull, memory.null_unmapped]
  · simp [isNull]

/-- A projection commutes with a rewrite that it tracks. -/
theorem map_modify
    (memory : Memory α γ)
    (project : γ → δ)
    (target : α)
    {change : γ → γ}
    {tracked : δ → δ}
    (tracks :
      ∀ content, project (change content) = tracked (project content)) :
    (memory.modify target change).map project =
      (memory.map project).modify target tracked := by
  ext1
  funext address
  by_cases same : address = target
  · subst same
    cases memory.cell address <;> simp [Function.comp_def, tracks]
  · simp [same]

/-- Map one address to a new cell; the null address stays unmapped. -/
def allocate
    (memory : Memory α γ)
    (target : α)
    (content : γ) :
    Memory α γ where
  cell address :=
    if address = null then none
    else if address = target then some content
    else memory.cell address
  null_unmapped := if_pos rfl

theorem allocate_cell_same
    (memory : Memory α γ)
    {target : α}
    (content : γ)
    (notNull : target ≠ null) :
    (memory.allocate target content).cell target = some content := by
  simp [allocate, notNull]

theorem allocate_cell_of_ne
    (memory : Memory α γ)
    {target address : α}
    (content : γ)
    (different : address ≠ target) :
    (memory.allocate target content).cell address =
      memory.cell address := by
  by_cases isNull : address = null
  · rw [isNull, (memory.allocate target content).null_unmapped,
      memory.null_unmapped]
  · simp [allocate, isNull, different]

/-- A memory with finitely many mapped cells, given as a list. -/
def ofList (cells : List (α × γ)) : Memory α γ where
  cell address := if address = null then none else cells.lookup address
  null_unmapped := by simp

end Memory

/-- A 64-bit machine word; also the type of addresses. -/
abbrev Word := BitVec 64

/-- `NULL`. -/
instance : Null Word where
  null := 0

/-- There are at most `2 ^ 64` different addresses. -/
theorem length_le_of_nodup
    {words : List Word}
    (distinct : words.Nodup) :
    words.length ≤ 2 ^ 64 := by
  have injective : Function.Injective (BitVec.toFin : Word → _) :=
    fun _ _ same => BitVec.eq_of_toFin_eq same
  have bound := (distinct.map injective).length_le_card
  rwa [List.length_map, Fintype.card_fin] at bound

end LibKern
