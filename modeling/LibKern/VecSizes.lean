import LibKern.VecInsert
import LibKern.VecRequests

namespace LibKern.Vec

/-!
# The size of a vector

`vec_pop` guards against `NULL` only.  A vector with memory but without elements
has the size minus one after it, and the next `vec_push` stores in front of the
elements.  The size stays within the capacity in every run that pops elements
only from `NULL` and from vectors that have elements.
-/

open Program

/-- The macros that change the size of a vector. -/
inductive VecMacro (γ : Type) where
  | init (n : Int)
  | push (v : γ)
  | add (n : Int)
  | pop

section Macros

variable {γ : Type}
  (realloc : Word → Word → Program (VecBlocks γ) Word)
  (size : Nat)

/-- The code of a macro, which is undefined if an `int` overflows. -/
def VecMacro.program : VecMacro γ → Program (VecState γ) Bool
  | .init n => vecInit realloc .undefined size n
  | .push v => vecPush realloc .undefined size v
  | .add n => do
      let pointer ← vecAdd realloc .undefined size n
      pure pointer.isSome
  | .pop => do
      let _ ← vecPop .undefined
      pure true

/-- The macro does not ask for a negative capacity or size. -/
def VecMacro.KeepsSize (state : VecState γ) : VecMacro γ → Prop
  | .init n => 0 ≤ n + 1
  | .push _ => True
  | .add n => vecSize.Ensures state fun count _ => 0 ≤ count + n
  | .pop => state.arr ≠ null → vecSize.Ensures state fun count _ => 1 ≤ count

/-- The vectors that are reached from `NULL` by macros that keep the size. -/
inductive SizeReach : VecState γ → Prop where
  | null
      {state : VecState γ}
      (isNull : state.arr = Null.null) :
      SizeReach state
  | step
      {state after : VecState γ}
      {op : VecMacro γ}
      (reached : SizeReach state)
      (keeps : op.KeepsSize state)
      (returned : (op.program realloc size).Returns state true after) :
      SizeReach after

/-- `0 <= vec_size(a) <= __vec_m(a)`, and the next store is in range. -/
structure SizeInRange
    (state : VecState γ)
    (n m : Int) : Prop where
  isSize : vecSize.Ensures state fun count after =>
    count = n ∧ after = state
  isCapacity : vecM.Ensures state fun capacity after =>
    capacity = m ∧ after = state
  nonneg : 0 ≤ n
  bounded : n ≤ m
  pushes :
    ∀ v, WithinInt size (VecRoom.grown ⟨n, some m⟩ 1) →
      (vecPush realloc .undefined size v).Ensures state fun done after =>
        Completes after done
          (∃ entry : VecStore,
            after.stored = state.stored ++ [entry] ∧ entry.Inside)
  overflows :
    ∀ v post,
      (vecPush realloc .undefined size v).Ensures state post →
        WithinInt size (VecRoom.grown ⟨n, some m⟩ 1)

end Macros

section Sizes

variable {γ : Type}
  {realloc : Word → Word → Program (VecBlocks γ) Word}
  {size : Nat} {state after : VecState γ} {room : VecRoom} {n : Int}
  {post : Bool → VecState γ → Prop}

/-- The vector has room for its capacity, which is within `int`. -/
structure HasIntRoom
    (size : Nat)
    (state : VecState γ)
    (room : VecRoom) : Prop where
  hasRoom : HasRoom size state room
  within : ∀ m, room.capacity = some m → WithinInt size m

/-- A vector with memory has a block. -/
theorem HasIntRoom.exists_block
    (hasIntRoom : HasIntRoom size state room)
    (notNull : state.arr ≠ null) :
    ∃ m block, room.capacity = some m ∧ Has state block state.stored ∧
      Fits size block room.count m ∧ WithinInt size m := by
  obtain ⟨m, block, isCapacity, has, fits⟩ :=
    hasIntRoom.hasRoom.exists_block notNull
  exact ⟨m, block, isCapacity, has, fits, hasIntRoom.within m isCapacity⟩

/-- `vec_size(a)` is the number of elements. -/
theorem HasIntRoom.ensures_vecSize
    {result : Int → VecState γ → Prop}
    (hasIntRoom : HasIntRoom size state room) :
    vecSize.Ensures state result ↔ result room.count state := by
  rw [vecSize, ensures_bind, ensures_vecArr]
  by_cases isNull : state.arr = null
  · have hasRoom := hasIntRoom.hasRoom
    cases isCapacity : room.capacity with
    | none =>
        simp only [HasRoom, isCapacity] at hasRoom
        rw [if_neg (not_not.mpr isNull), ensures_pure, hasRoom.2]
    | some m =>
        simp only [HasRoom, isCapacity] at hasRoom
        obtain ⟨block, has, -⟩ := hasRoom
        exact absurd isNull has.not_null
  · obtain ⟨m, block, -, has, fits, -⟩ := hasIntRoom.exists_block isNull
    rw [if_pos isNull, ensures_vecN has fits.header_le fits.count_eq]

/-- `__vec_maybegrow` is undefined unless the capacity is within `int`. -/
theorem HasIntRoom.within_of_vecMaybegrow
    (hasIntRoom : HasIntRoom size state room)
    (ensured :
      (vecMaybegrow realloc .undefined size n).Ensures state post) :
    WithinInt size (room.grown n) := by
  obtain ⟨hasRoom, within⟩ := hasIntRoom
  rw [vecMaybegrow, ensures_bind, vecNeedgrow, ensures_bind,
    ensures_vecArr] at ensured
  cases isCapacity : room.capacity with
  | none =>
      simp only [HasRoom, isCapacity] at hasRoom
      simp only [VecRoom.grown, isCapacity]
      rw [if_pos hasRoom.1, ensures_pure, if_pos rfl, vecGrow] at ensured
      exact within_of_vecGrowf_null hasRoom.1 ensured
  | some m =>
      simp only [HasRoom, isCapacity] at hasRoom
      simp only [VecRoom.grown, isCapacity]
      obtain ⟨block, has, fits⟩ := hasRoom
      rw [if_neg has.not_null, ensures_bind,
        ensures_vecN has fits.header_le fits.count_eq, ensures_bind,
        ensures_toInt_undefined, ensures_bind,
        has.ensures_vecM fits.header_le fits.capacity_eq,
        ensures_pure] at ensured
      by_cases grows : m ≤ room.count + n
      · rw [if_pos (decide_eq_true grows), vecGrow] at ensured
        rw [if_pos grows]
        exact within_of_vecGrowf_has has fits.header_le fits.capacity_eq
          ensured.2
      · rw [if_neg grows]
        exact within m isCapacity

/-- `vec_pop` of `NULL` does nothing. -/
theorem ensures_vecPop_of_null
    (isNull : state.arr = null) :
    (vecPop .undefined).Ensures state fun count after =>
      count = 0 ∧ after = state := by
  rw [vecPop, ensures_bind, ensures_vecArr, if_neg (not_not.mpr isNull),
    ensures_pure]
  exact ⟨rfl, rfl⟩

/-- `vec_pop` takes one from the number of elements, also from zero. -/
theorem HasIntRoom.ensures_vecPop
    (hasIntRoom : HasIntRoom size state room)
    (notNull : state.arr ≠ null) :
    (vecPop .undefined).Ensures state fun _ after =>
      ∃ m block, room.capacity = some m ∧
        Has after { block with count := some (room.count - 1) }
          state.stored ∧
        Fits size block room.count m ∧ WithinInt size m := by
  obtain ⟨m, block, isCapacity, has, fits, within⟩ :=
    hasIntRoom.exists_block notNull
  have nonneg := fits.nonneg
  have bounded := fits.bounded
  have isInt := fits.isInt
  rw [vecPop, ensures_bind, ensures_vecArr, if_pos notNull, ensures_bind,
    ensures_vecN has fits.header_le fits.count_eq, ensures_bind,
    ensures_toInt (by omega) (by omega), ensures_bind]
  refine (ensures_setVecN _ has fits.header_le).weaken ?_
  intro _ after hasAfter
  rw [ensures_pure]
  exact ⟨m, block, isCapacity, hasAfter, fits, within⟩

/-- A vector with room for a capacity within `int`. -/
theorem HasRoom.hasIntRoom
    {count m : Int}
    (hasRoom : HasRoom size state ⟨count, some m⟩)
    (within : WithinInt size m) :
    HasIntRoom size state ⟨count, some m⟩ := by
  refine ⟨hasRoom, ?_⟩
  rintro _ ⟨rfl⟩
  exact within

/-- A vector that `vec_init` has built. -/
theorem HasIntRoom.of_vecInit
    (reallocates : Reallocates size realloc)
    (nonneg : 0 ≤ n + 1)
    (returned :
      (vecInit realloc .undefined size n).Returns state true after) :
    HasIntRoom size after ⟨0, some (n + 1)⟩ := by
  have ensured :
      (vecInit realloc .undefined size n).Ensures state fun _ _ => True :=
    ⟨true, after, returned, trivial⟩
  rw [vecInit, ensures_bind, setArr, ensures_updates] at ensured
  obtain ⟨cleared, ⟨rfl⟩, ensured⟩ := ensured
  have within := within_of_vecGrowf_null rfl ensured
  have granted : Overflow.undefined.Grants size (n + 1) := within
  have hasRoom : HasRoom size after ⟨0, some (n + 1)⟩ :=
    (ensures_vecInit_room reallocates nonneg granted).of_returns returned
  exact hasRoom.hasIntRoom within

/-- A vector to which an element was pushed. -/
theorem HasIntRoom.of_vecPush
    {v : γ}
    (reallocates : Reallocates size realloc)
    (hasIntRoom : HasIntRoom size state room)
    (returned :
      (vecPush realloc .undefined size v).Returns state true after) :
    HasIntRoom size after ⟨room.count + 1, some (room.grown 1)⟩ := by
  have ensured :
      (vecPush realloc .undefined size v).Ensures state fun _ _ => True :=
    ⟨true, after, returned, trivial⟩
  rw [vecPush, ensures_bind] at ensured
  have within := hasIntRoom.within_of_vecMaybegrow ensured
  have granted : Overflow.undefined.Grants size (room.grown 1) := within
  have pushed :=
    (ensures_vecPush_room v reallocates hasIntRoom.hasRoom
      granted).of_returns returned
  exact HasRoom.hasIntRoom pushed.1 within

/-- A vector to which elements were added. -/
theorem HasIntRoom.of_vecAdd
    {first : Int}
    (reallocates : Reallocates size realloc)
    (hasIntRoom : HasIntRoom size state room)
    (nonneg : 0 ≤ room.count + n)
    (returned :
      (vecAdd realloc .undefined size n).Returns state (some first)
        after) :
    HasIntRoom size after ⟨room.count + n, some (room.grown n)⟩ := by
  have ensured :
      (vecAdd realloc .undefined size n).Ensures state fun _ _ => True :=
    ⟨some first, after, returned, trivial⟩
  rw [vecAdd, ensures_bind] at ensured
  have within := hasIntRoom.within_of_vecMaybegrow ensured
  have granted : Overflow.undefined.Grants size (room.grown n) := within
  have hasRoom :
      HasRoom size after ⟨room.count + n, some (room.grown n)⟩ :=
    (ensures_vecAdd_room reallocates hasIntRoom.hasRoom nonneg
      granted).of_returns returned
  exact hasRoom.hasIntRoom within

/-- A vector from which an element was popped. -/
theorem HasIntRoom.ensures_vecPop_of_pos
    (hasIntRoom : HasIntRoom size state room)
    (notNull : state.arr ≠ null)
    (positive : 1 ≤ room.count) :
    (vecPop .undefined).Ensures state fun _ after =>
      HasIntRoom size after ⟨room.count - 1, room.capacity⟩ := by
  refine (hasIntRoom.ensures_vecPop notNull).weaken ?_
  intro _ after popped
  obtain ⟨m, block, isCapacity, has, fits, within⟩ := popped
  have fewer :=
    @Fits.more _ _ _ _ _ block.items (-1) fits (by omega)
      (by have bounded := fits.bounded; omega)
  rw [← Int.sub_eq_add_neg] at fewer
  rw [isCapacity]
  exact (has.hasRoom fewer).hasIntRoom within

/-- A macro that keeps the size leaves room for its capacity. -/
theorem HasIntRoom.step
    {op : VecMacro γ}
    (reallocates : Reallocates size realloc)
    (hasIntRoom : HasIntRoom size state room)
    (keeps : op.KeepsSize state)
    (returned : (op.program realloc size).Returns state true after) :
    ∃ next, HasIntRoom size after next := by
  have ended :
      (op.program realloc size).Ensures state fun done final =>
        done = true ∧ final = after :=
    ⟨true, after, returned, rfl, rfl⟩
  cases op with
  | init n =>
      exact ⟨_, .of_vecInit reallocates keeps returned⟩
  | push v =>
      exact ⟨_, hasIntRoom.of_vecPush reallocates returned⟩
  | add n =>
      rw [VecMacro.program, ensures_bind] at ended
      obtain ⟨pointer, between, added, ended⟩ := ended
      rw [ensures_pure] at ended
      obtain ⟨isDone, rfl⟩ := ended
      obtain ⟨first, rfl⟩ := Option.isSome_iff_exists.mp isDone
      have nonneg : 0 ≤ room.count + n :=
        hasIntRoom.ensures_vecSize.mp keeps
      exact ⟨_, hasIntRoom.of_vecAdd reallocates nonneg added⟩
  | pop =>
      rw [VecMacro.program, ensures_bind] at ended
      obtain ⟨count, between, popped, ended⟩ := ended
      rw [ensures_pure] at ended
      obtain ⟨-, rfl⟩ := ended
      by_cases isNull : state.arr = null
      · obtain ⟨-, rfl⟩ :=
          (ensures_vecPop_of_null isNull).of_returns popped
        exact ⟨room, hasIntRoom⟩
      · have positive : 1 ≤ room.count :=
          hasIntRoom.ensures_vecSize.mp (keeps isNull)
        exact ⟨_, (hasIntRoom.ensures_vecPop_of_pos isNull
          positive).of_returns popped⟩

/-- The invariant of the runs. -/
theorem SizeReach.hasIntRoom
    (reallocates : Reallocates size realloc)
    (reached : SizeReach realloc size state) :
    ∃ room, HasIntRoom size state room := by
  induction reached with
  | null isNull =>
      exact ⟨⟨0, none⟩, ⟨isNull, rfl⟩, by simp⟩
  | step reached keeps returned inductionHypothesis =>
      obtain ⟨room, hasIntRoom⟩ := inductionHypothesis
      exact hasIntRoom.step reallocates keeps returned

/-- The size of a vector with room for its capacity is in range. -/
theorem HasIntRoom.sizeInRange
    (reallocates : Reallocates size realloc)
    (hasIntRoom : HasIntRoom size state room)
    (notNull : state.arr ≠ null) :
    ∃ m, room.capacity = some m ∧
      SizeInRange realloc size state room.count m := by
  obtain ⟨m, block, isCapacity, has, fits, within⟩ :=
    hasIntRoom.exists_block notNull
  have isGrown : VecRoom.grown ⟨room.count, some m⟩ 1 = room.grown 1 := by
    rw [← isCapacity]
  have below : room.count < room.grown 1 := by
    have needed := hasIntRoom.hasRoom.room 1
    omega
  refine ⟨m, isCapacity, hasIntRoom.ensures_vecSize.mpr ⟨rfl, rfl⟩,
    (has.ensures_vecM fits.header_le fits.capacity_eq).mpr ⟨rfl, rfl⟩,
    fits.nonneg, fits.bounded, ?_, ?_⟩
  · intro v isInt
    rw [isGrown] at isInt
    have granted : Overflow.undefined.Grants size (room.grown 1) := isInt
    refine (ensures_vecPush_room v reallocates hasIntRoom.hasRoom
      granted).weaken ?_
    intro done after result
    cases done with
    | false =>
        exact result
    | true =>
        exact ⟨_, result.2, _, rfl, fits.nonneg, below⟩
  · intro v post ensured
    rw [vecPush, ensures_bind] at ensured
    rw [isGrown]
    exact hasIntRoom.within_of_vecMaybegrow ensured

/-- The size is in range after `vec_pop` if the vector had an element. -/
theorem HasIntRoom.pop_sizeInRange_iff
    (reallocates : Reallocates size realloc)
    (hasIntRoom : HasIntRoom size state room) :
    ((vecPop .undefined).Ensures state fun _ after =>
        after.arr ≠ null → ∃ n m, SizeInRange realloc size after n m) ↔
      VecMacro.KeepsSize state (.pop : VecMacro γ) := by
  by_cases isNull : state.arr = null
  · refine iff_of_true ?_ fun notNull => absurd isNull notNull
    refine (ensures_vecPop_of_null isNull).weaken ?_
    intro _ after result
    obtain ⟨-, rfl⟩ := result
    exact fun notNull => absurd isNull notNull
  · constructor
    · intro inRange _
      obtain ⟨_, after, popped, inRange⟩ := inRange
      obtain ⟨m, block, -, has, fits, -⟩ :=
        (hasIntRoom.ensures_vecPop isNull).of_returns popped
      obtain ⟨n, m, inRange⟩ := inRange has.not_null
      have isSize := inRange.isSize
      rw [vecSize, ensures_bind, ensures_vecArr, if_pos has.not_null,
        ensures_vecN has fits.header_le rfl] at isSize
      have nonneg := inRange.nonneg
      rw [hasIntRoom.ensures_vecSize]
      omega
    · intro keeps
      have positive : 1 ≤ room.count :=
        hasIntRoom.ensures_vecSize.mp (keeps isNull)
      refine (hasIntRoom.ensures_vecPop_of_pos isNull positive).weaken ?_
      intro _ after popped notNull
      obtain ⟨m, -, inRange⟩ := popped.sizeInRange reallocates notNull
      exact ⟨_, m, inRange⟩

/--
In every run that pops only from `NULL` and from vectors with elements, the size
of a vector is between zero and its capacity, and the next `vec_push` stores
below the capacity.  After one more `vec_pop` this is so exactly if it meets the
condition.
-/
theorem vec_sizes_stay_in_range
    (reallocates : Reallocates size realloc)
    (reached : SizeReach realloc size state) :
    (state.arr ≠ null → ∃ n m, SizeInRange realloc size state n m) ∧
      (((vecPop .undefined).Ensures state fun _ after =>
          after.arr ≠ null → ∃ n m, SizeInRange realloc size after n m) ↔
        VecMacro.KeepsSize state (.pop : VecMacro γ)) := by
  obtain ⟨room, hasIntRoom⟩ := reached.hasIntRoom reallocates
  refine ⟨?_, hasIntRoom.pop_sizeInRange_iff reallocates⟩
  intro notNull
  obtain ⟨m, -, inRange⟩ := hasIntRoom.sizeInRange reallocates notNull
  exact ⟨_, m, inRange⟩

end Sizes

section Samples

/-- A run with every macro, and the sizes that it reads on the way. -/
def sizedRun : Program (VecState Nat) (List Bool × List Int × Word) := do
  let started ← (VecMacro.init 0).program sampleRealloc 4
  let pushed ← (VecMacro.push 7).program sampleRealloc 4
  let one ← vecSize
  let added ← (VecMacro.add 2).program sampleRealloc 4
  let three ← vecSize
  let popped ← VecMacro.pop.program sampleRealloc 4
  let two ← vecSize
  let arr ← vecArr
  pure ([started, pushed, added, popped], [one, three, two], arr)

/-- The run reaches a vector with two elements. -/
theorem exists_sizeReach :
    ∃ state,
      SizeReach sampleRealloc 4 state ∧
        state.arr ≠ null ∧
        vecSize.Ensures state fun count _ => count = 2 := by
  have returns :
      sizedRun.Ensures sampleVector fun outcome _ =>
        outcome = ([true, true, true, true], [1, 3, 2], 4104) :=
    .of_exec 1 (by decide)
  have sizeKeeps (state : VecState Nat) :
      (vecSize : Program (VecState Nat) Int).Preserves (· = state) :=
    preserves_vecSize
  simp only [sizedRun, ensures_bind, ensures_vecArr, ensures_pure,
    Prod.mk.injEq, List.cons.injEq, and_true] at returns
  obtain ⟨started, init, ranInit, pushed, push, ranPush,
    one, afterOne, isOne, added, add, ranAdd,
    three, afterThree, isThree, popped, pop, ranPop,
    two, afterTwo, isTwo, outcome⟩ := returns
  obtain rfl := sizeKeeps _ _ rfl _ _ isOne
  obtain rfl := sizeKeeps _ _ rfl _ _ isThree
  obtain rfl := sizeKeeps _ _ rfl _ _ isTwo
  obtain ⟨⟨rfl, rfl, rfl, rfl⟩, ⟨rfl, rfl, rfl⟩, isArr⟩ := outcome
  have keepsInit :
      (VecMacro.init 0 : VecMacro Nat).KeepsSize sampleVector :=
    (by decide : (0 : Int) ≤ 0 + 1)
  have keepsPush : (VecMacro.push 7).KeepsSize init := trivial
  have keepsAdd : (VecMacro.add 2 : VecMacro Nat).KeepsSize afterOne :=
    ⟨1, _, isOne, by norm_num⟩
  have keepsPop : (VecMacro.pop : VecMacro Nat).KeepsSize afterThree :=
    fun _ => ⟨3, _, isThree, by norm_num⟩
  have reached : SizeReach sampleRealloc 4 afterTwo :=
    .step (.step (.step (.step (.null rfl) keepsInit ranInit) keepsPush
      ranPush) keepsAdd ranAdd) keepsPop ranPop
  refine ⟨afterTwo, reached, ?_, 2, _, isTwo, rfl⟩
  rw [isArr]
  decide

/--
The size of the vector at the end of the run is in range, and it stays in range
if one more element is popped.
-/
theorem vec_sizes_stay_in_range_of_sample :
    ∃ state : VecState Nat,
      SizeReach sampleRealloc 4 state ∧
        state.arr ≠ null ∧
        (∃ n m, SizeInRange sampleRealloc 4 state n m) ∧
        (vecPop .undefined).Ensures state fun _ after =>
          after.arr ≠ null →
            ∃ n m, SizeInRange sampleRealloc 4 after n m := by
  obtain ⟨state, reached, notNull, isTwo⟩ := exists_sizeReach
  obtain ⟨inRange, popsInRange⟩ :=
    vec_sizes_stay_in_range sampleRealloc_reallocates reached
  refine ⟨state, reached, notNull, inRange notNull, popsInRange.mpr ?_⟩
  intro _
  refine isTwo.weaken ?_
  rintro _ _ rfl
  decide

/-- A vector without elements from which one is popped. -/
def poppedEmpty : Program (VecState Nat) Unit := do
  let _ ← vecInit sampleRealloc .undefined 4 0
  let _ ← vecPop .undefined
  pure ()

/-- The size is minus one, and the next element is stored out of bounds. -/
theorem popped_below_zero :
    ((poppedEmpty >>= fun _ => vecSize).Ensures sampleVector
      fun count _ => count = -1) ∧
      ¬(poppedEmpty >>= fun _ =>
        vecPush sampleRealloc .undefined 4 7).Ensures sampleVector
          fun _ _ => True := by
  refine ⟨.of_exec 1 (by decide), ?_⟩
  intro ensured
  obtain ⟨done, after, ⟨fuel, ran⟩, -⟩ := ensured
  cases ran

end Samples

end LibKern.Vec
