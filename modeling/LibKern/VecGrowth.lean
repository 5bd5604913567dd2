import LibKern.VecCalls
import LibKern.VecRuns
import Mathlib.Data.Nat.Log

namespace LibKern.Vec

/-!
# What growing costs over a whole run

Every call of `realloc` carries the elements of the vector over to the new
block.  Since `__vec_growf` more than doubles the capacity, a run carries only
few elements in total, whatever its operations are and in whatever order they
come.  Popping and erasing give no memory back, but the capacity stays
proportional to the greatest number of elements.
-/

open Program

section Lists

variable {γ : Type}

/-- The elements that an operation asks `__vec_maybegrow` to make room for. -/
def VecOp.request : VecOp γ → Option Nat
  | .push _ => some 1
  | .add values => some values.length
  | .pop => none
  | .erase _ => none

/-- The capacity that a run starts with, or one for a vector without memory. -/
def VecStart.room : VecStart → Int
  | .null => 1
  | .init k => k + 1

/-- What the calls of `realloc` at the start of a run carry over. -/
def VecStart.carried : VecStart → List Int
  | .null => []
  | .init _ => [0]

/--
What `__vec_maybegrow(a, n)` has `realloc` carry over, if it calls `realloc`.
-/
def VecModel.call (model : VecModel γ) (n : Nat) : Option Int :=
  match model.capacity with
  | none => some 0
  | some m =>
      if m ≤ model.items.length + n then some model.items.length else none

/-- The greatest number of elements during a run. -/
def VecModel.peak : VecModel γ → List (VecOp γ) → Nat
  | model, [] => model.items.length
  | model, op :: ops =>
      max model.items.length (VecModel.peak (op.apply model) ops)

/-- The three ways to make room for new elements. -/
theorem VecModel.grown_call_cases
    (model : VecModel γ)
    (n : Nat) :
    (model.capacity = none ∧ model.grown n = n + 1 ∧
        model.call n = some 0) ∨
      (∃ m, model.capacity = some m ∧ m ≤ model.items.length + n ∧
        model.grown n = 2 * m + n ∧
        model.call n = some (model.items.length : Int)) ∨
      ∃ m, model.capacity = some m ∧ model.items.length + n < m ∧
        model.grown n = m ∧ model.call n = none := by
  cases isCapacity : model.capacity with
  | none =>
      simp [VecModel.grown, VecModel.call, isCapacity]
  | some m =>
      right
      by_cases grows : m ≤ model.items.length + n
      · exact .inl ⟨m, rfl, grows, by simp [VecModel.grown, isCapacity, grows],
          by simp [VecModel.call, isCapacity, grows]⟩
      · exact .inr ⟨m, rfl, not_le.mp grows,
          by simp [VecModel.grown, isCapacity, grows],
          by simp [VecModel.call, isCapacity, grows]⟩

end Lists

/-- What the calls of `realloc` so far have cost. -/
structure Accounted
    {γ : Type}
    (room : Int)
    (model : VecModel γ)
    (calls : List Int)
    (peak : Nat) : Prop where
  length_le : model.items.length ≤ peak
  vacant : model.capacity = none → calls = [] ∧ 0 < room
  capacity_le : ∀ m ∈ model.capacity, m ≤ max room (3 * peak)
  carried_le : calls.sum ≤ 2 * peak
  carried_le_capacity : ∀ m ∈ model.capacity, calls.sum ≤ m
  doubled :
    0 < room → ∀ m ∈ model.capacity, (2 : Int) ^ calls.length ≤ 2 * m

namespace Accounted

variable {γ : Type}
variable {room : Int}
variable {model : VecModel γ}
variable {calls : List Int}
variable {peak : Nat}

/-- A greater peak allows for more. -/
theorem mono
    {more : Nat}
    (accounted : Accounted room model calls peak)
    (atMost : peak ≤ more) :
    Accounted room model calls more where
  length_le := accounted.length_le.trans atMost
  vacant := accounted.vacant
  capacity_le m isCapacity := by
    have bound := accounted.capacity_le m isCapacity
    omega
  carried_le := by
    have bound := accounted.carried_le
    omega
  carried_le_capacity := accounted.carried_le_capacity
  doubled := accounted.doubled

/-- Fewer elements in the same memory. -/
theorem shrink
    {items : List γ}
    (accounted : Accounted room model calls peak)
    (shorter : items.length ≤ model.items.length) :
    Accounted room ⟨items, model.capacity⟩ calls peak where
  length_le := shorter.trans accounted.length_le
  vacant := accounted.vacant
  capacity_le := accounted.capacity_le
  carried_le := accounted.carried_le
  carried_le_capacity := accounted.carried_le_capacity
  doubled := accounted.doubled

/-- More elements, with a call of `realloc` if they need room. -/
theorem extend
    (values : List γ)
    (accounted : Accounted room model calls peak)
    (empty : model.capacity = none → model.items = [])
    (bounded : ∀ m ∈ model.capacity, model.items.length ≤ m) :
    Accounted room
      ⟨model.items ++ values, some (model.grown values.length)⟩
      (calls ++ (model.call values.length).toList)
      (max peak (model.items ++ values).length) := by
  obtain ⟨length_le, vacant, capacity_le, carried_le,
    carried_le_capacity, doubled⟩ := accounted
  rw [List.length_append]
  rcases model.grown_call_cases values.length with
    ⟨isNone, grown, call⟩ | ⟨m, isCapacity, grows, grown, call⟩ |
      ⟨m, isCapacity, fits, grown, call⟩
  · obtain ⟨rfl, positive⟩ := vacant isNone
    have noItems := empty isNone
    rw [grown, call]
    constructor
    · simp
    · simp
    · simp only [Option.mem_def, Option.some.injEq, forall_eq', noItems,
        List.length_nil]
      omega
    · simp
    · simp only [Option.mem_def, Option.some.injEq, forall_eq',
        List.nil_append, Option.toList_some, List.sum_singleton]
      omega
    · intro _
      simp only [Option.mem_def, Option.some.injEq, forall_eq',
        List.nil_append, Option.toList_some, List.length_singleton]
      omega
  · have sum_le := carried_le_capacity m isCapacity
    have fits := bounded m isCapacity
    rw [grown, call, Option.toList_some]
    constructor
    · simp
    · simp
    · simp only [Option.mem_def, Option.some.injEq, forall_eq']
      omega
    · rw [List.sum_append, List.sum_singleton]
      omega
    · simp only [Option.mem_def, Option.some.injEq, forall_eq',
        List.sum_append, List.sum_singleton]
      omega
    · intro positive
      have power := doubled positive m isCapacity
      simp only [Option.mem_def, Option.some.injEq, forall_eq',
        List.length_append, List.length_singleton, pow_succ]
      omega
  · have room_le := capacity_le m isCapacity
    rw [grown, call, Option.toList_none, List.append_nil, ← isCapacity]
    refine ⟨by simp, by simp [isCapacity], ?_, ?_, carried_le_capacity,
      doubled⟩
    · simp only [isCapacity, Option.mem_def, Option.some.injEq,
        forall_eq']
      omega
    · omega

end Accounted

section Runs

variable {γ : Type}
  {realloc : Word → Word → Program (VecBlocks γ) Word}
  {overflow : Overflow} {size : Nat} {state : VecState γ}
  {model : VecModel γ} {room : Int} {calls : List Int} {peak : Nat}

/-- A vector without memory has no elements. -/
theorem Represents.empty
    (represents : Represents size state model)
    (isNone : model.capacity = none) :
    model.items = [] := by
  simp only [Represents, isNone] at represents
  exact represents.2

/-- A vector has no more elements than its capacity. -/
theorem Represents.bounded
    (represents : Represents size state model)
    (m : Int)
    (isCapacity : m ∈ model.capacity) :
    (model.items.length : Int) ≤ m := by
  rw [Option.mem_def] at isCapacity
  simp only [Represents, isCapacity] at represents
  obtain ⟨_, -, holds⟩ := represents
  exact holds.bounded

/-- A vector with memory has a capacity. -/
theorem Represents.exists_capacity
    (represents : Represents size state model)
    (present : state.arr ≠ null) :
    ∃ m ∈ model.capacity,
      vecM.Ensures state fun capacity _ => capacity = m := by
  cases isCapacity : model.capacity with
  | none =>
      simp only [Represents, isCapacity] at represents
      exact absurd represents.1 present
  | some m =>
      simp only [Represents, isCapacity] at represents
      obtain ⟨block, has, holds⟩ := represents
      exact ⟨m, rfl, by rw [ensures_vecM has holds]⟩

/-- `__vec_needgrow(a, n)` says whether `realloc` is called. -/
theorem ensures_vecNeedgrow
    {n : Nat}
    (represents : Represents size state model)
    (within : WithinInt size (model.grown n)) :
    (vecNeedgrow overflow n).Ensures state fun grows after =>
      after = state ∧ grows = (model.call n).isSome := by
  have room := represents.room n
  have overflowFree := within.1
  rw [vecNeedgrow, ensures_bind, ensures_vecArr]
  cases isCapacity : model.capacity with
  | none =>
      simp only [Represents, isCapacity] at represents
      rw [if_pos represents.1, ensures_pure]
      exact ⟨rfl, by simp [VecModel.call, isCapacity]⟩
  | some m =>
      simp only [Represents, isCapacity] at represents
      obtain ⟨block, has, holds⟩ := represents
      rw [if_neg has.not_null, ensures_bind,
        ensures_vecN has holds.header_le holds.count_eq, ensures_bind,
        ensures_toInt (by omega) (by omega), ensures_bind,
        ensures_vecM has holds, ensures_pure]
      refine ⟨rfl, ?_⟩
      by_cases grows : m ≤ model.items.length + n
      · simp [VecModel.call, isCapacity, grows]
      · simp [VecModel.call, isCapacity, grows]

/-- The elements of the block that `__vec_growf` passes to `realloc`. -/
theorem Represents.elementsAt
    (represents : Represents size state model) :
    elementsAt state.blocks (growPtr state.arr) =
      model.items.length := by
  cases isCapacity : model.capacity with
  | none =>
      simp only [Represents, isCapacity] at represents
      rw [growPtr, if_neg (not_not.mpr represents.1), represents.2,
        Vec.elementsAt, Memory.null_unmapped]
      rfl
  | some m =>
      simp only [Represents, isCapacity] at represents
      obtain ⟨block, has, holds⟩ := represents
      rw [growPtr, if_pos has.not_null, Vec.elementsAt, has.block_eq,
        Option.bind_some, holds.count_eq, Option.getD_some]

/-- These calls of `realloc` were made, and carried over these elements. -/
def Carried
    (state after : VecState γ)
    (elements : List Int) : Prop :=
  ∃ made,
    after.calls = state.calls ++ made ∧
      made.map VecCall.carried = elements

/-- No call of `realloc` was made. -/
theorem Carried.refl : Carried state state [] :=
  ⟨[], (List.append_nil _).symm, rfl⟩

/-- A program without calls of `realloc` adds none. -/
theorem Carried.permits
    {α : Type}
    {between : VecState γ}
    {elements : List Int}
    {program : Program (VecState γ) α}
    (carried : Carried state between elements)
    (keeps :
      ∀ calls, program.Preserves fun state => state.calls = calls) :
    program.Permits between fun _ after =>
      Carried state after elements := by
  obtain ⟨made, recorded, rfl⟩ := carried
  refine (keeps _ between recorded).weaken ?_
  intro _ after same
  exact ⟨made, same, rfl⟩

/-- The calls of one part of a run and those of the next. -/
theorem Carried.trans
    {between after : VecState γ}
    {elements more : List Int}
    (first : Carried state between elements)
    (next : Carried between after more) :
    Carried state after (elements ++ more) := by
  obtain ⟨made, recorded, rfl⟩ := first
  obtain ⟨others, alsoRecorded, rfl⟩ := next
  refine ⟨made ++ others, ?_, List.map_append⟩
  rw [alsoRecorded, recorded, List.append_assoc]

/-- `__vec_maybegrow(a, n)` calls `realloc` at most once. -/
theorem permits_vecMaybegrow
    {n : Nat}
    (represents : Represents size state model)
    (within : WithinInt size (model.grown n)) :
    (vecMaybegrow realloc overflow size n).Permits state fun _ after =>
      Carried state after (model.call n).toList := by
  rw [vecMaybegrow, permits_bind]
  refine (ensures_vecNeedgrow represents within).permits.weaken ?_
  rintro _ _ ⟨rfl, rfl⟩
  cases isCall : model.call n with
  | none =>
      rw [Option.isSome_none, if_neg Bool.false_ne_true, permits_pure]
      exact .refl
  | some count =>
      rw [Option.isSome_some, if_pos rfl, vecGrow]
      refine permits_vecGrowf.weaken ?_
      rintro _ after ⟨m, length, -, -, recorded⟩
      have isCount : (model.items.length : Int) = count := by
        rcases model.grown_call_cases n with
          ⟨isNone, -, call⟩ | ⟨m, -, -, -, call⟩ | ⟨m, -, -, -, call⟩
        · rw [represents.empty isNone]
          exact Option.some.inj (call.symm.trans isCall)
        · exact Option.some.inj (call.symm.trans isCall)
        · cases call.symm.trans isCall
      exact ⟨_, recorded, by simp [represents.elementsAt, isCount]⟩

/-- The calls of `realloc` of a macro that first makes room. -/
theorem permits_of_vecMaybegrow
    {α : Type}
    {n : Nat}
    {rest : Bool → Program (VecState γ) α}
    (represents : Represents size state model)
    (within : WithinInt size (model.grown n))
    (keeps :
      ∀ done calls, (rest done).Preserves fun state =>
        state.calls = calls) :
    (vecMaybegrow realloc overflow size n >>= rest).Permits state
      fun _ after => Carried state after (model.call n).toList := by
  rw [permits_bind]
  refine (permits_vecMaybegrow represents within).weaken ?_
  intro done grown carried
  exact carried.permits (keeps done)

/-- The calls of `realloc` that an operation makes. -/
theorem permits_op
    {op : VecOp γ}
    (represents : Represents size state model)
    (allowed : op.Allowed size model) :
    (op.program realloc overflow size).Permits state fun _ after =>
      Carried state after (op.request.bind model.call).toList := by
  cases op with
  | push v =>
      refine permits_of_vecMaybegrow represents allowed ?_
      intro done calls
      refine .ite (fun _ => ?_) fun _ => preserves_pure _
      exact .bind preserves_vecN fun _ =>
        .bind (preserves_toInt _ _) fun _ =>
          .bind (preserves_setVecN _) fun _ =>
            .bind (preserves_setVecItem _ _) fun _ => preserves_pure _
  | add values =>
      rw [VecOp.program, permits_bind]
      refine (permits_of_vecMaybegrow represents allowed ?_).weaken ?_
      · intro done calls
        refine .ite (fun _ => ?_) fun _ => preserves_pure _
        exact .bind preserves_vecN fun _ =>
          .bind (preserves_toInt _ _) fun _ =>
            .bind (preserves_setVecN _) fun _ =>
              .bind preserves_vecN fun _ =>
                .bind (preserves_toInt _ _) fun _ => preserves_pure _
      · intro pointer grown carried
        cases pointer with
        | none =>
            exact permits_pure.mpr carried
        | some first =>
            exact carried.permits fun _ =>
              .bind (preserves_setVecItems _ _) fun _ => preserves_pure _
  | pop =>
      exact Carried.refl.permits fun _ =>
        .bind preserves_vecPop fun _ => preserves_pure _
  | erase i =>
      exact Carried.refl.permits fun _ =>
        .bind (preserves_vecErase _) fun _ => preserves_pure _

/-- The calls of `realloc` at the start of a run. -/
theorem permits_start
    {start : VecStart} :
    (start.program realloc overflow size).Permits state fun _ after =>
      Carried state after start.carried := by
  cases start with
  | null =>
      exact Carried.refl.permits fun _ =>
        .bind (preserves_setArr _) fun _ => preserves_pure _
  | init k =>
      rw [VecStart.program, vecInit, permits_bind, setArr,
        permits_updates]
      rintro _ ⟨rfl⟩
      refine permits_vecGrowf.weaken ?_
      rintro _ after ⟨m, length, -, -, recorded⟩
      refine ⟨_, recorded, ?_⟩
      simp [VecStart.carried, growPtr, elementsAt, Memory.null_unmapped]

/-- What an operation adds to the cost of a run. -/
theorem Accounted.apply
    (op : VecOp γ)
    (accounted : Accounted room model calls peak)
    (represents : Represents size state model) :
    Accounted room (op.apply model)
      (calls ++ (op.request.bind model.call).toList)
      (max peak (op.apply model).items.length) := by
  have extended (values : List γ) :=
    accounted.extend values represents.empty represents.bounded
  have shrunk
      {items : List γ}
      (shorter : items.length ≤ model.items.length) :
      Accounted room ⟨items, model.capacity⟩ (calls ++ [])
        (max peak items.length) := by
    rw [List.append_nil]
    exact (accounted.shrink shorter).mono (le_max_left _ _)
  cases op with
  | push v =>
      exact extended [v]
  | add values =>
      exact extended values
  | pop =>
      exact shrunk (by simp)
  | erase i =>
      exact shrunk (List.length_eraseIdx_le _ _)

/-- What the calls of `realloc` of a run cost. -/
theorem ensures_runOps_accounted
    (ops : List (VecOp γ))
    (reallocates : Reallocates size realloc)
    (refines : Refines size state model)
    (allowed : model.Allows size ops)
    (accounted : Accounted room model calls peak) :
    (runOps realloc overflow size ops).Ensures state fun done after =>
      ∃ elements reached,
        Carried state after elements ∧
          Accounted room reached (calls ++ elements)
            (max peak (model.peak ops)) ∧
          (done = true → Refines size after reached) := by
  induction ops generalizing state model calls peak with
  | nil =>
      rw [runOps, ensures_pure]
      refine ⟨[], model, .refl, ?_, fun _ => refines⟩
      rw [List.append_nil]
      exact accounted.mono (le_max_left _ _)
  | cons op ops inductionHypothesis =>
      have cost := accounted.apply op refines.represents
      have atMost :
          max (max peak (op.apply model).items.length)
              ((op.apply model).peak ops) ≤
            max peak (model.peak (op :: ops)) := by
        have first : (op.apply model).items.length ≤
            (op.apply model).peak ops := by
          cases ops with
          | nil => exact le_rfl
          | cons next rest => exact le_max_left _ _
        simp only [VecModel.peak]
        omega
      rw [runOps, ensures_bind]
      refine ((ensures_op reallocates refines allowed.1).both
        (permits_op refines.represents allowed.1)).weaken ?_
      rintro done between ⟨completes, carried⟩
      cases done with
      | false =>
          rw [if_neg Bool.false_ne_true, ensures_pure]
          exact ⟨_, op.apply model, carried,
            cost.mono ((le_max_left _ _).trans atMost), by simp⟩
      | true =>
          rw [if_pos rfl]
          refine (inductionHypothesis completes allowed.2 cost).weaken ?_
          rintro finished after
            ⟨elements, reached, more, total, refinesReached⟩
          refine ⟨_, reached, carried.trans more, ?_, refinesReached⟩
          rw [← List.append_assoc]
          exact total.mono atMost

/-- The start of a run carries nothing over. -/
theorem VecStart.accounted
    {start : VecStart}
    (allowed : start.Allowed size) :
    Accounted start.room (start.model : VecModel γ) start.carried 0 := by
  cases start with
  | null =>
      constructor <;> simp [VecStart.room, VecStart.model, VecStart.carried]
  | init k =>
      have nonneg := allowed.1
      constructor
      · simp [VecStart.model]
      · simp [VecStart.model]
      · simp [VecStart.model, VecStart.room]
      · simp [VecStart.carried]
      · simpa [VecStart.model, VecStart.carried] using nonneg
      · intro positive
        simp only [VecStart.room] at positive
        simp only [VecStart.model, VecStart.carried, Option.mem_def,
          Option.some.injEq, forall_eq', List.length_singleton, pow_one]
        omega

/-- Doubling makes the number of calls logarithmic. -/
theorem Accounted.length_le_log
    (accounted : Accounted room model calls peak)
    (positive : 0 < room) :
    calls.length ≤ Nat.log 2 (max room (3 * peak)).toNat + 1 := by
  cases isCapacity : model.capacity with
  | none =>
      simp [(accounted.vacant isCapacity).1]
  | some m =>
      have doubled := accounted.doubled positive m isCapacity
      have bound := accounted.capacity_le m isCapacity
      by_cases none : calls.length = 0
      · omega
      · obtain ⟨count, isCount⟩ := Nat.exists_eq_succ_of_ne_zero none
        rw [isCount, pow_succ] at doubled
        have power : 2 ^ count ≤ (max room (3 * peak)).toNat := by
          zify
          omega
        have atMost :=
          Nat.le_log_of_pow_le (by decide : 1 < 2) power
        omega

end Runs

/--
In every run all calls of `realloc` together carry over at most twice as many
elements as the vector had at its peak.  There are logarithmically many calls,
unless the vector starts without room, and the capacity is never more than
three times the peak if the run did not start with more.
-/
theorem vectors_carry_few_elements
    {γ : Type}
    {realloc : Word → Word → Program (VecBlocks γ) Word}
    {overflow : Overflow}
    {size : Nat}
    {state : VecState γ}
    {start : VecStart}
    {ops : List (VecOp γ)}
    (reallocates : Reallocates size realloc)
    (noStores : state.stored = [])
    (startAllowed : start.Allowed size)
    (allowed : start.model.Allows size ops) :
    (vecRun realloc overflow size start ops).Ensures state
      fun done after =>
        ∃ made,
          after.calls = state.calls ++ made ∧
            (made.map VecCall.carried).sum ≤
              2 * start.model.peak ops ∧
            (0 < start.room →
              made.length ≤
                Nat.log 2
                  (max start.room (3 * start.model.peak ops)).toNat + 1) ∧
            (done = true →
              after.arr ≠ null →
              vecM.Ensures after fun capacity _ =>
                capacity ≤ max start.room (3 * start.model.peak ops)) := by
  have accounted : Accounted start.room (start.model : VecModel γ)
      start.carried 0 :=
    VecStart.accounted startAllowed
  rw [vecRun, ensures_bind]
  refine ((ensures_start reallocates noStores startAllowed).both
    permits_start).weaken ?_
  rintro done between ⟨completes, started⟩
  cases done with
  | false =>
      obtain ⟨made, recorded, carried⟩ := started
      rw [← carried] at accounted
      have total :=
        accounted.mono (Nat.zero_le (start.model.peak ops))
      have isLog := total.length_le_log
      rw [List.length_map] at isLog
      rw [if_neg Bool.false_ne_true, ensures_pure]
      exact ⟨made, recorded, total.carried_le, isLog, by simp⟩
  | true =>
      rw [if_pos rfl]
      refine (ensures_runOps_accounted ops reallocates completes allowed
        accounted).weaken ?_
      rintro finished after ⟨elements, reached, more, total, refines⟩
      obtain ⟨made, recorded, carried⟩ := started.trans more
      rw [Nat.zero_max, ← carried] at total
      have isLog := total.length_le_log
      rw [List.length_map] at isLog
      refine ⟨made, recorded, total.carried_le, isLog, ?_⟩
      intro isFinished present
      obtain ⟨m, isCapacity, reads⟩ :=
        (refines isFinished).represents.exists_capacity present
      refine reads.weaken ?_
      rintro _ _ rfl
      exact total.capacity_le _ isCapacity

/-- A run that needs room for its first element and for its third. -/
def growingOps : List (VecOp Nat) :=
  [.push 1, .push 2, .pop, .push 3, .push 4, .push 5]

/--
After the call of `vec_init` the run calls `realloc` twice, and it carries over
two elements.
-/
theorem vectors_carry_few_elements_of_sample :
    (VecStart.model (.init 0)).peak growingOps = 4 ∧
      (vecRun sampleRealloc .undefined 4 (.init 0) growingOps).Ensures
        sampleVector fun done after =>
          done = true ∧
            after.calls.map VecCall.carried = [0, 0, 2] ∧
            after.calls.length ≤ 4 ∧
            vecM.Ensures after fun capacity _ => capacity ≤ 12 := by
  refine ⟨rfl, ?_⟩
  have startAllowed : (VecStart.init 0).Allowed 4 := by
    norm_num [VecStart.Allowed, WithinInt]
  have allowed :
      (VecStart.model (.init 0) : VecModel Nat).Allows 4 growingOps := by
    norm_num [VecModel.Allows, growingOps, VecStart.model, VecOp.Allowed,
      VecOp.apply, VecModel.grown, WithinInt]
    exact List.cons_ne_nil _ _
  have returns :
      (do
        let done ←
          vecRun sampleRealloc .undefined 4 (.init 0) growingOps
        let arr ← vecArr
        let calls ← reads fun state => some state.calls
        pure (done, arr, calls.map VecCall.carried)).Ensures sampleVector
          fun outcome _ => outcome = (true, 4104, [0, 0, 2]) :=
    .of_exec 1 (by decide)
  simp only [ensures_bind, ensures_vecArr, ensures_reads, ensures_pure,
    Option.some.injEq, exists_eq_left', Prod.mk.injEq] at returns
  refine
    ((vectors_carry_few_elements sampleRealloc_reallocates rfl
      startAllowed allowed).both returns.permits).weaken ?_
  rintro done after
    ⟨⟨made, recorded, -, isLog, bounded⟩, isDone, isArr, isCarried⟩
  obtain rfl : after.calls = made := recorded
  refine ⟨isDone, isCarried, ?_, bounded isDone ?_⟩
  · exact isLog (by decide)
  · rw [isArr]
    decide

end LibKern.Vec
