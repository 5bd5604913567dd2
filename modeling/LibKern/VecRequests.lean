import LibKern.VecCalls
import LibKern.VecRuns

namespace LibKern.Vec

/-!
# The bytes that a vector requests

`__vec_growf` computes the byte count of a new capacity as an `int`, where it may
wrap around, and converts it to `size_t`.  A negative count becomes a very large
one, but a count that wraps to a smaller number requests too little memory for
the capacity that is recorded.
-/

open Program

section Bytes

variable {size : Nat} {m : Int}

/-- The bytes that `__vec_growf` requests for a capacity. -/
def requestedBytes (size : Nat) (m : Int) : Nat :=
  (BitVec.ofInt 64 ((size * m).bmod (2 ^ 32)) + 8 : Word).toNat

/--
The byte count of a capacity is within `int`, or it wraps to a negative number
that is far enough from zero.
-/
def Covered (size : Nat) (m : Int) : Prop :=
  size * m < 2 ^ 31 ∨
    2 ^ 31 ≤ size * m % 2 ^ 32 ∧ size * m % 2 ^ 32 < 2 ^ 32 - 8 ∧
      size * m < 2 ^ 64

/-- When the requested bytes are enough. -/
theorem le_requestedBytes_iff (nonneg : 0 ≤ m) :
    size * m + 8 ≤ (requestedBytes size m : Int) ↔ Covered size m := by
  have scaled : 0 ≤ (size : Int) * m := mul_nonneg (by omega) nonneg
  rw [Covered, requestedBytes]
  generalize (size : Int) * m = length at scaled
  have eight : (8 : Word).toNat = 8 := rfl
  rw [BitVec.toNat_add, BitVec.toNat_ofInt, eight]
  rw [Int.bmod_def]
  split
  · omega
  · omega

end Bytes

section Room

variable {γ : Type}

/-- The number of elements of a vector, and its capacity if it has memory. -/
structure VecRoom where
  count : Int
  capacity : Option Int

/-- The capacity after `__vec_maybegrow(a, n)`. -/
def VecRoom.grown (room : VecRoom) (n : Int) : Int :=
  match room.capacity with
  | none => n + 1
  | some m => if m ≤ room.count + n then 2 * m + n else m

/-- The macros that may request memory. -/
inductive VecRequest (γ : Type) where
  | init (k : Nat)
  | push (v : γ)
  | add (k : Nat)

/-- The capacity after a macro. -/
def VecRequest.capacity (room : VecRoom) : VecRequest γ → Int
  | .init k => k + 1
  | .push _ => room.grown 1
  | .add k => room.grown k

/-- The number of elements and the capacity after a macro. -/
def VecRequest.apply (room : VecRoom) (op : VecRequest γ) : VecRoom :=
  match op with
  | .init _ => ⟨0, some (op.capacity room)⟩
  | .push _ => ⟨room.count + 1, some (op.capacity room)⟩
  | .add k => ⟨room.count + k, some (op.capacity room)⟩

/-- The capacity after a macro is an `int`, and its byte count is covered. -/
def VecRequest.Allowed
    (size : Nat)
    (room : VecRoom)
    (op : VecRequest γ) : Prop :=
  op.capacity room < 2 ^ 31 ∧ Covered size (op.capacity room)

/-- Every macro of a run is allowed. -/
def VecRoom.Allows (size : Nat) :
    VecRoom → List (VecRequest γ) → Prop
  | _, [] => True
  | room, op :: ops =>
      op.Allowed size room ∧ VecRoom.Allows size (op.apply room) ops

/-- A block has room for its capacity. -/
structure Fits
    (size : Nat)
    (block : VecBlock γ)
    (count capacity : Int) : Prop where
  capacity_eq : block.capacity = some capacity
  count_eq : block.count = some count
  nonneg : 0 ≤ count
  bounded : count ≤ capacity
  isInt : capacity < 2 ^ 31
  enough : size * capacity + 8 ≤ (block.bytes : Int)

/-- The vector has this number of elements and room for its capacity. -/
def HasRoom
    (size : Nat)
    (state : VecState γ)
    (room : VecRoom) : Prop :=
  match room.capacity with
  | none => state.arr = null ∧ room.count = 0
  | some m =>
      ∃ block, Has state block state.stored ∧
        Fits size block room.count m

end Room

section Programs

variable {γ : Type}
  (realloc : Word → Word → Program (VecBlocks γ) Word)
  (size : Nat)

/-- The code of a macro, with `int` arithmetic modulo `2 ^ 32`. -/
def VecRequest.program : VecRequest γ → Program (VecState γ) Bool
  | .init k => vecInit realloc .wraps size k
  | .push v => vecPush realloc .wraps size v
  | .add k => do
      let pointer ← vecAdd realloc .wraps size k
      pure pointer.isSome

/-- Macros one after the other, until one aborts. -/
def runRequests : List (VecRequest γ) → Program (VecState γ) Bool
  | [] => pure true
  | op :: ops => do
      let done ← op.program realloc size
      if done = true then runRequests ops else pure false

end Programs

section Growth

variable {γ : Type}
  {realloc : Word → Word → Program (VecBlocks γ) Word}
  {overflow : Overflow} {size : Nat} {state : VecState γ}
  {block : VecBlock γ} {stored : List VecStore} {count capacity : Int}

namespace Fits

/-- Both `int` values are in the block. -/
theorem header_le
    (fits : Fits size block count capacity) :
    8 ≤ block.bytes := by
  have enough := fits.enough
  have nonneg : 0 ≤ (size : Int) * capacity :=
    mul_nonneg (by omega) (fits.nonneg.trans fits.bounded)
  omega

/-- The indices up to the capacity are in the block. -/
theorem inBounds
    (fits : Fits size block count capacity)
    (first last : Int)
    (lower : 0 ≤ first)
    (upper : last ≤ capacity) :
    block.InBounds size first last := by
  have enough := fits.enough
  have scaled : (size : Int) * last ≤ size * capacity :=
    mul_le_mul_of_nonneg_left upper (by omega)
  exact ⟨lower, by omega⟩

/-- More elements within the capacity. -/
theorem more
    {items : Int → Option γ}
    {n : Int}
    (fits : Fits size block count capacity)
    (nonneg : 0 ≤ count + n)
    (room : count + n ≤ capacity) :
    Fits size { block with count := some (count + n), items := items }
      (count + n) capacity where
  capacity_eq := fits.capacity_eq
  count_eq := rfl
  nonneg := nonneg
  bounded := room
  isInt := fits.isInt
  enough := fits.enough

end Fits

/-- The capacities for which enough is requested. -/
def Overflow.Grants
    (overflow : Overflow)
    (size : Nat)
    (m : Int) : Prop :=
  match overflow with
  | .undefined => WithinInt size m
  | .wraps => m < 2 ^ 31 ∧ Covered size m

theorem Overflow.Grants.isInt
    {overflow : Overflow}
    {m : Int}
    (granted : overflow.Grants size m) :
    m < 2 ^ 31 := by
  cases overflow with
  | undefined =>
      exact granted.1
  | wraps =>
      exact granted.1

/-- The byte count is computed, and enough is requested. -/
theorem Overflow.Grants.ensures_toInt
    {σ : Type}
    {current : σ}
    {overflow : Overflow}
    {m : Int}
    (granted : overflow.Grants size m)
    (nonneg : 0 ≤ m) :
    (overflow.toInt (size * m) : Program σ Int).Ensures current
      fun length after =>
        after = current ∧
          size * m + 8 ≤
            ((BitVec.ofInt 64 length + 8 : Word).toNat : Int) := by
  have scaled : 0 ≤ (size : Int) * m := mul_nonneg (by omega) nonneg
  cases overflow with
  | undefined =>
      rw [Vec.ensures_toInt (by omega) granted.2,
        toNat_bytes scaled granted.2]
      exact ⟨rfl, by omega⟩
  | wraps =>
      rw [Overflow.toInt, ensures_pure]
      exact ⟨rfl, (le_requestedBytes_iff nonneg).mpr granted.2⟩

/-- The first call of `__vec_growf` requests enough for its capacity. -/
theorem ensures_vecGrowf_null
    {n : Int}
    (reallocates : Reallocates size realloc)
    (isNull : state.arr = null)
    (nonneg : 0 ≤ n + 1)
    (granted : overflow.Grants size (n + 1)) :
    (vecGrowf realloc overflow size n).Ensures state fun done after =>
      Completes after done
        (∃ block, Has after block state.stored ∧
          Fits size block 0 (n + 1)) := by
  have isInt := granted.isInt
  have scaled : 0 ≤ (size : Int) * (n + 1) :=
    mul_nonneg (by omega) nonneg
  rw [vecGrowf_eq, ensures_bind, ensures_vecArr, ensures_bind, vecNextM,
    if_neg (by simp [isNull]), ensures_toInt (by omega) isInt,
    ensures_bind]
  refine (granted.ensures_toInt nonneg).weaken ?_
  intro length between computed
  obtain ⟨rfl, enough⟩ := computed
  refine (ensures_growTo_of_null reallocates isNull (by omega)).weaken ?_
  intro done after result
  cases done with
  | false =>
      exact result
  | true =>
      obtain ⟨block, has, isCapacity, isCount, isLarge⟩ := result
      refine ⟨block, has, ?_⟩
      exact
        { capacity_eq := isCapacity
          count_eq := isCount
          nonneg := le_rfl
          bounded := by omega
          isInt := isInt
          enough := by rw [isLarge]; exact enough }

/-- A further call of `__vec_growf` requests enough for its capacity. -/
theorem ensures_vecGrowf_has
    {n : Int}
    (reallocates : Reallocates size realloc)
    (has : Has state block stored)
    (fits : Fits size block count capacity)
    (nonneg : 0 ≤ n)
    (granted : overflow.Grants size (2 * capacity + n)) :
    (vecGrowf realloc overflow size n).Ensures state fun done after =>
      Completes after done
        (∃ block, Has after block stored ∧
          Fits size block count (2 * capacity + n)) := by
  have positive := fits.nonneg
  have bounded := fits.bounded
  have isInt := granted.isInt
  have scaled : 0 ≤ (size : Int) * (2 * capacity + n) :=
    mul_nonneg (by omega) (by omega)
  have header := fits.header_le
  rw [vecGrowf_eq, ensures_bind, ensures_vecArr, ensures_bind, vecNextM,
    if_pos has.not_null, ensures_bind,
    has.ensures_vecM header fits.capacity_eq, ensures_bind,
    ensures_toInt (by omega) (by omega), ensures_toInt (by omega) isInt,
    ensures_bind]
  refine (granted.ensures_toInt (by omega)).weaken ?_
  intro length between computed
  obtain ⟨rfl, enough⟩ := computed
  refine
    (ensures_growTo_of_has reallocates has header (by omega)).weaken ?_
  intro done after result
  cases done with
  | false =>
      exact result
  | true =>
      obtain ⟨grown, hasGrown, isCapacity, sameCount, isLarge, -⟩ := result
      refine ⟨grown, hasGrown, ?_⟩
      exact
        { capacity_eq := isCapacity
          count_eq := sameCount.trans fits.count_eq
          nonneg := fits.nonneg
          bounded := by omega
          isInt := isInt
          enough := by rw [isLarge]; exact enough }

/-- Growing leaves room for the new elements. -/
theorem HasRoom.room
    {room : VecRoom}
    (n : Int)
    (hasRoom : HasRoom size state room) :
    room.count + n ≤ room.grown n := by
  cases isCapacity : room.capacity with
  | none =>
      simp only [HasRoom, isCapacity] at hasRoom
      simp [VecRoom.grown, isCapacity, hasRoom.2]
  | some m =>
      simp only [HasRoom, isCapacity] at hasRoom
      obtain ⟨block, -, fits⟩ := hasRoom
      have bounded := fits.bounded
      have nonneg := fits.nonneg
      simp only [VecRoom.grown, isCapacity]
      split
      · omega
      · omega

/-- `__vec_maybegrow(a, n)` requests enough for its capacity. -/
theorem ensures_vecMaybegrow_room
    {room : VecRoom}
    {n : Int}
    (reallocates : Reallocates size realloc)
    (hasRoom : HasRoom size state room)
    (nonneg : 0 ≤ room.count + n)
    (granted : overflow.Grants size (room.grown n)) :
    (vecMaybegrow realloc overflow size n).Ensures state fun done after =>
      Completes after done
        (∃ block, Has after block state.stored ∧
          Fits size block room.count (room.grown n)) := by
  have needed := hasRoom.room n
  have isInt := granted.isInt
  rw [vecMaybegrow, ensures_bind, vecNeedgrow, ensures_bind,
    ensures_vecArr]
  cases isCapacity : room.capacity with
  | none =>
      simp only [HasRoom, isCapacity] at hasRoom
      simp only [VecRoom.grown, isCapacity] at granted ⊢
      obtain ⟨isNull, isEmpty⟩ := hasRoom
      rw [if_pos isNull, ensures_pure, if_pos rfl, vecGrow, isEmpty]
      exact ensures_vecGrowf_null reallocates isNull (by omega) granted
  | some m =>
      simp only [HasRoom, isCapacity] at hasRoom
      simp only [VecRoom.grown, isCapacity] at isInt granted needed ⊢
      obtain ⟨block, has, fits⟩ := hasRoom
      have bounded := fits.bounded
      rw [if_neg has.not_null, ensures_bind,
        ensures_vecN has fits.header_le fits.count_eq, ensures_bind,
        ensures_toInt (by omega) (by omega), ensures_bind,
        has.ensures_vecM fits.header_le fits.capacity_eq, ensures_pure]
      by_cases grows : m ≤ room.count + n
      · rw [if_pos (decide_eq_true grows), vecGrow]
        rw [if_pos grows] at granted ⊢
        exact ensures_vecGrowf_has reallocates has fits (by omega)
          granted
      · rw [if_neg (by simp [grows]), ensures_pure]
        rw [if_neg grows]
        exact ⟨block, has, fits⟩

/-- The vector has a block with room for its capacity. -/
theorem Has.hasRoom
    (has : Has state block stored)
    (fits : Fits size block count capacity) :
    HasRoom size state ⟨count, some capacity⟩ :=
  ⟨block, has.stored_eq ▸ has, fits⟩

/-- `vec_init(a, n)` leaves room for its capacity. -/
theorem ensures_vecInit_room
    {n : Int}
    (reallocates : Reallocates size realloc)
    (nonneg : 0 ≤ n + 1)
    (granted : overflow.Grants size (n + 1)) :
    (vecInit realloc overflow size n).Ensures state fun done after =>
      Completes after done (HasRoom size after ⟨0, some (n + 1)⟩) := by
  rw [vecInit, ensures_bind, setArr, ensures_updates]
  refine ⟨_, rfl, ?_⟩
  refine
    (ensures_vecGrowf_null reallocates rfl nonneg granted).weaken ?_
  intro done after grown
  cases done with
  | false =>
      exact grown
  | true =>
      obtain ⟨block, has, fits⟩ := grown
      exact has.hasRoom fits

/-- A vector has no fewer than zero elements. -/
theorem HasRoom.nonneg
    {room : VecRoom}
    (hasRoom : HasRoom size state room) :
    0 ≤ room.count := by
  cases isCapacity : room.capacity with
  | none =>
      simp only [HasRoom, isCapacity] at hasRoom
      exact hasRoom.2.ge
  | some m =>
      simp only [HasRoom, isCapacity] at hasRoom
      obtain ⟨block, -, fits⟩ := hasRoom
      exact fits.nonneg

/-- `vec_push(a, v)` stores within its capacity and leaves room for it. -/
theorem ensures_vecPush_room
    {room : VecRoom}
    (v : γ)
    (reallocates : Reallocates size realloc)
    (hasRoom : HasRoom size state room)
    (granted : overflow.Grants size (room.grown 1)) :
    (vecPush realloc overflow size v).Ensures state fun done after =>
      Completes after done
        (HasRoom size after ⟨room.count + 1, some (room.grown 1)⟩ ∧
          after.stored =
            state.stored ++ [⟨room.count, some (room.grown 1)⟩]) := by
  have needed := hasRoom.room 1
  have isInt := granted.isInt
  have nonneg := hasRoom.nonneg
  rw [vecPush, ensures_bind]
  refine
    (ensures_vecMaybegrow_room reallocates hasRoom (by omega)
      granted).weaken ?_
  intro done after grown
  apply grown.ensures_ite
  intro fitsBlock
  obtain ⟨block, has, fits⟩ := fitsBlock
  rw [ensures_bind, ensures_vecN has fits.header_le fits.count_eq,
    ensures_bind, ensures_toInt (by omega) (by omega), ensures_bind]
  refine (ensures_setVecN _ has fits.header_le).weaken ?_
  intro _ counted hasCounted
  rw [ensures_bind]
  refine
    (ensures_setVecItem v hasCounted
      (fits.inBounds _ _ nonneg needed)).weaken ?_
  intro _ stored hasStored
  rw [ensures_pure]
  have isCapacity := hasStored.stored_eq
  rw [fits.capacity_eq] at isCapacity
  exact ⟨hasStored.hasRoom (fits.more (by omega) needed), isCapacity⟩

/-- `vec_add(a, n)` leaves room for its capacity. -/
theorem ensures_vecAdd_room
    {n : Int}
    {room : VecRoom}
    (reallocates : Reallocates size realloc)
    (hasRoom : HasRoom size state room)
    (nonneg : 0 ≤ room.count + n)
    (granted : overflow.Grants size (room.grown n)) :
    (vecAdd realloc overflow size n).Ensures state fun pointer after =>
      Completes after pointer.isSome
        (HasRoom size after
          ⟨room.count + n, some (room.grown n)⟩) := by
  have needed := hasRoom.room n
  have isInt := granted.isInt
  have positive := hasRoom.nonneg
  rw [vecAdd, ensures_bind]
  refine
    (ensures_vecMaybegrow_room reallocates hasRoom nonneg
      granted).weaken ?_
  intro done after grown
  cases done with
  | false =>
      rw [if_neg Bool.false_ne_true, ensures_pure]
      exact grown
  | true =>
      obtain ⟨block, has, fits⟩ := grown
      have bounded := fits.bounded
      rw [if_pos rfl, ensures_bind,
        ensures_vecN has fits.header_le fits.count_eq, ensures_bind,
        ensures_toInt (by omega) (by omega), ensures_bind]
      refine (ensures_setVecN _ has fits.header_le).weaken ?_
      intro _ counted hasCounted
      rw [ensures_bind, ensures_vecN hasCounted fits.header_le rfl,
        ensures_bind, ensures_toInt (by omega) (by omega), ensures_pure]
      exact hasCounted.hasRoom (fits.more nonneg needed)

/-- Every macro leaves room for its capacity. -/
theorem ensures_request
    {room : VecRoom}
    {op : VecRequest γ}
    (reallocates : Reallocates size realloc)
    (hasRoom : HasRoom size state room)
    (allowed : op.Allowed size room) :
    (op.program realloc size).Ensures state fun done after =>
      Completes after done (HasRoom size after (op.apply room)) := by
  have positive := hasRoom.nonneg
  cases op with
  | init k =>
      exact ensures_vecInit_room reallocates (by omega) allowed
  | push v =>
      have granted : Overflow.wraps.Grants size (room.grown 1) := allowed
      refine
        (ensures_vecPush_room v reallocates hasRoom granted).weaken ?_
      intro done after result
      cases done with
      | false =>
          exact result
      | true =>
          exact result.1
  | add k =>
      have granted : Overflow.wraps.Grants size (room.grown k) := allowed
      rw [VecRequest.program, ensures_bind]
      refine
        (ensures_vecAdd_room reallocates hasRoom (by omega)
          granted).weaken ?_
      intro pointer after result
      rw [ensures_pure]
      exact result

/-- A run leaves room for every capacity on the way. -/
theorem ensures_runRequests
    {room : VecRoom}
    (ops : List (VecRequest γ))
    (reallocates : Reallocates size realloc)
    (hasRoom : HasRoom size state room)
    (allowed : room.Allows size ops) :
    (runRequests realloc size ops).Ensures state fun done after =>
      Completes after done
        (HasRoom size after (ops.foldl VecRequest.apply room)) := by
  induction ops generalizing state room with
  | nil =>
      rw [runRequests, ensures_pure]
      exact hasRoom
  | cons op ops inductionHypothesis =>
      rw [runRequests, ensures_bind]
      refine (ensures_request reallocates hasRoom allowed.1).weaken ?_
      intro done after result
      apply result.ensures_ite
      intro hasRoomNext
      exact inductionHypothesis hasRoomNext allowed.2

end Growth

/-- The memory of a vector was requested with enough bytes for its capacity. -/
def EnoughRequested
    {γ : Type}
    (size : Nat)
    (state : VecState γ) : Prop :=
  state.arr ≠ null →
  ∃ block m,
    state.blocks.cell (vecRaw state.arr) = some block ∧
      block.capacity = some m ∧
      size * m + 8 ≤ (block.bytes : Int)

/-- A vector with memory has a block for its capacity. -/
theorem HasRoom.exists_block
    {γ : Type}
    {size : Nat}
    {state : VecState γ}
    {room : VecRoom}
    (hasRoom : HasRoom size state room)
    (notNull : state.arr ≠ null) :
    ∃ m block, room.capacity = some m ∧ Has state block state.stored ∧
      Fits size block room.count m := by
  cases isCapacity : room.capacity with
  | none =>
      simp only [HasRoom, isCapacity] at hasRoom
      exact absurd hasRoom.1 notNull
  | some m =>
      simp only [HasRoom, isCapacity] at hasRoom
      obtain ⟨block, has, fits⟩ := hasRoom
      exact ⟨m, block, rfl, has, fits⟩

/-- A vector with room for its capacity has requested enough. -/
theorem HasRoom.enoughRequested
    {γ : Type}
    {size : Nat}
    {state : VecState γ}
    {room : VecRoom}
    (hasRoom : HasRoom size state room) :
    EnoughRequested size state := by
  intro notNull
  obtain ⟨m, block, -, has, fits⟩ := hasRoom.exists_block notNull
  exact ⟨block, m, has.block_eq, fits.capacity_eq, fits.enough⟩

/-- `__vec_growf` passes these bytes to `realloc`. -/
theorem permits_vecGrowf_wraps
    {γ : Type}
    {realloc : Word → Word → Program (VecBlocks γ) Word}
    {size : Nat}
    {state : VecState γ}
    {m n : Int}
    (isNext :
      (vecNextM .wraps state.arr n).Ensures state fun next _ => next = m) :
    (vecGrowf realloc .wraps size n).Permits state fun _ after =>
      ∃ call,
        after.calls = state.calls ++ [call] ∧
          call.bytes.toNat = requestedBytes size m := by
  refine permits_vecGrowf.weaken ?_
  rintro _ after ⟨next, length, returned, computed, recorded⟩
  obtain rfl : next = m := isNext.of_returns returned
  have isWrapped :
      (Overflow.wraps.toInt (size * next)).Ensures state
        fun value _ => value = (size * next).bmod (2 ^ 32) := by
    rw [Overflow.toInt, ensures_pure]
  refine ⟨_, recorded, ?_⟩
  rw [isWrapped.of_returns computed, requestedBytes]

/--
The bytes that are requested for a capacity are enough exactly if its byte count
is covered, and these are the bytes that `__vec_growf` passes to `realloc`.  In
every run whose capacities are covered, the memory of the vector was requested
with enough bytes for its capacity.
-/
theorem requests_are_enough
    {γ : Type}
    {realloc : Word → Word → Program (VecBlocks γ) Word}
    {size : Nat}
    {state : VecState γ}
    {ops : List (VecRequest γ)}
    (reallocates : Reallocates size realloc)
    (isNull : state.arr = null)
    (allowed : VecRoom.Allows size ⟨0, none⟩ ops) :
    (∀ m : Int, 0 ≤ m →
      (size * m + 8 ≤ (requestedBytes size m : Int) ↔
        Covered size m) ∧
        ∀ (current : VecState γ) (n : Int),
          (vecNextM .wraps current.arr n).Ensures current
              (fun next _ => next = m) →
            (vecGrowf realloc .wraps size n).Permits current
              fun _ after =>
                ∃ call,
                  after.calls = current.calls ++ [call] ∧
                    call.bytes.toNat = requestedBytes size m) ∧
      (runRequests realloc size ops).Ensures state fun done after =>
        Completes after done (EnoughRequested size after) := by
  refine ⟨fun m nonneg => ⟨le_requestedBytes_iff nonneg, ?_⟩, ?_⟩
  · intro current n isNext
    exact permits_vecGrowf_wraps isNext
  · have hasRoom : HasRoom size state ⟨0, none⟩ := ⟨isNull, rfl⟩
    refine (ensures_runRequests ops reallocates hasRoom allowed).weaken ?_
    intro done after result
    cases done with
    | false =>
        exact result
    | true =>
        exact HasRoom.enoughRequested result

section Samples

/-- A run that grows a vector several times. -/
def sampleRequests : List (VecRequest Nat) :=
  [.init 0, .push 1, .add 3, .push 2]

/-- The sample run requests enough bytes for elements of four bytes. -/
theorem requests_are_enough_of_sample :
    (runRequests sampleRealloc 4 sampleRequests).Ensures sampleVector
      fun done after =>
        Completes after done (EnoughRequested 4 after) := by
  have allowed : VecRoom.Allows 4 ⟨0, none⟩ sampleRequests := by
    norm_num [VecRoom.Allows, sampleRequests, VecRequest.Allowed,
      VecRequest.apply, VecRequest.capacity, VecRoom.grown, Covered]
  exact (requests_are_enough sampleRealloc_reallocates rfl allowed).2

/-- The variable `a`, the bytes that were requested and the capacity. -/
def requestOf : Program (VecState Nat) (Word × Nat × Option Int) :=
  reads fun state =>
    (state.blocks.cell (vecRaw state.arr)).map fun block =>
      (state.arr, block.bytes, block.capacity)

/--
Elements of 65536 bytes and a capacity of 65536: the byte count wraps to zero,
and eight bytes are requested.
-/
theorem requests_too_little :
    ¬(runRequests sampleRealloc 65536 [.init 65535]).Ensures sampleVector
      fun done after =>
        Completes after done (EnoughRequested 65536 after) := by
  intro ensured
  have returns :
      (runRequests sampleRealloc 65536 [.init 65535]).Ensures
        sampleVector fun done _ => done = true :=
    .of_exec 1 (by decide)
  have isSmall :
      (runRequests sampleRealloc 65536 [.init 65535] >>= fun _ =>
        requestOf).Ensures sampleVector
          fun request _ => request = (4104, 8, some 65536) :=
    .of_exec 1 (by decide)
  obtain ⟨done, after, returned, completes, rfl⟩ :=
    ensured.both returns.permits
  rw [ensures_bind, returned.ensures_iff, requestOf,
    ensures_reads] at isSmall
  obtain ⟨request, isRequest, rfl⟩ := isSmall
  obtain ⟨found, isFound, isRequest⟩ := Option.map_eq_some_iff.mp isRequest
  simp only [Prod.mk.injEq] at isRequest
  obtain ⟨isArr, isBytes, isRecorded⟩ := isRequest
  have enough : EnoughRequested 65536 after := completes
  obtain ⟨block, m, isCell, isCapacity, isEnough⟩ :=
    enough (by rw [isArr]; decide)
  obtain rfl : found = block :=
    Option.some.inj (isFound.symm.trans isCell)
  obtain rfl : m = 65536 :=
    Option.some.inj (isCapacity.symm.trans isRecorded)
  rw [isBytes] at isEnough
  norm_num at isEnough

end Samples

end LibKern.Vec
