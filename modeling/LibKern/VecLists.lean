import LibKern.VecSource
import Mathlib.Tactic.Linarith
import Mathlib.Tactic.Positivity
import Mathlib.Tactic.Ring

namespace LibKern.Vec

/-!
# Vectors as lists

A vector stands for the list of its elements, and for its capacity once it has
memory.  `Holds` relates a block to both.  Growing keeps the elements and leaves
room for the new ones, and the macros then change the list at its end or move
the elements behind an index.
-/

open Program

/-- The elements of a vector, and its capacity if it has memory. -/
structure VecModel (γ : Type) where
  items : List γ
  capacity : Option Int

/-- The capacity after `__vec_maybegrow(a, n)`. -/
def VecModel.grown
    {γ : Type}
    (model : VecModel γ)
    (n : Int) : Int :=
  match model.capacity with
  | none => n + 1
  | some m => if m ≤ model.items.length + n then 2 * m + n else m

/-- A capacity and its byte count are within `int`. -/
def WithinInt (size : Nat) (capacity : Int) : Prop :=
  capacity < 2 ^ 31 ∧ size * capacity < 2 ^ 31

/-- A block holds these elements with this capacity. -/
structure Holds
    {γ : Type}
    (size : Nat)
    (block : VecBlock γ)
    (items : List γ)
    (capacity : Int) : Prop where
  capacity_eq : block.capacity = some capacity
  count_eq : block.count = some (items.length : Int)
  bounded : (items.length : Int) ≤ capacity
  within : WithinInt size capacity
  bytes_eq : (block.bytes : Int) = 8 + size * capacity
  items_eq :
    ∀ (index : Nat) value, items[index]? = some value →
      block.items index = some value

/-- The vector has this block, and these are the stores so far. -/
structure Has
    {γ : Type}
    (state : VecState γ)
    (block : VecBlock γ)
    (stored : List VecStore) : Prop where
  not_null : state.arr ≠ null
  block_eq : state.blocks.cell (vecRaw state.arr) = some block
  stored_eq : state.stored = stored

/-- A store has an index below the capacity. -/
def VecStore.Inside (entry : VecStore) : Prop :=
  ∃ m, entry.capacity = some m ∧ 0 ≤ entry.index ∧ entry.index < m

/-- The variable `a` stands for a list. -/
def Represents
    {γ : Type}
    (size : Nat)
    (state : VecState γ)
    (model : VecModel γ) : Prop :=
  match model.capacity with
  | none => state.arr = null ∧ model.items = []
  | some m =>
      ∃ block, Has state block state.stored ∧
        Holds size block model.items m

/--
A call of `realloc` that does not fail returns a block of the requested bytes
whose end is an address.  It keeps what the old block had in as many bytes.
-/
structure Reallocates
    {γ : Type}
    (size : Nat)
    (realloc : Word → Word → Program (VecBlocks γ) Word) : Prop where
  fresh :
    ∀ blocks bytes,
      (realloc null bytes).Ensures blocks fun p after =>
        p ≠ null →
        p.toNat + bytes.toNat < 2 ^ 64 ∧
        ∃ block, after.cell p = some block ∧ block.bytes = bytes.toNat
  moved :
    ∀ blocks ptr old bytes,
      blocks.cell ptr = some old →
      8 ≤ min old.bytes bytes.toNat →
      (realloc ptr bytes).Ensures blocks fun p after =>
        p ≠ null →
        p.toNat + bytes.toNat < 2 ^ 64 ∧
        ∃ block, after.cell p = some block ∧
          block.bytes = bytes.toNat ∧
          block.capacity = old.capacity ∧
          block.count = old.count ∧
          ∀ index, 0 ≤ index →
            8 + size * (index + 1) ≤
              ((min old.bytes bytes.toNat : Nat) : Int) →
            block.items index = old.items index

/--
What a macro that may grow the vector ensures: it goes on with the result, or it
aborts because a call of `realloc` has returned `NULL`.
-/
def Completes
    {γ : Type}
    (after : VecState γ)
    (done : Bool)
    (result : Prop) : Prop :=
  match done with
  | true => result
  | false => after.failed = true

section Integers

variable {σ : Type} {overflow : Overflow} {value : Int} {state : σ}
  {post : Int → σ → Prop}

/-- A value within `int` is computed exactly. -/
theorem ensures_toInt
    (lower : -2 ^ 31 ≤ value)
    (upper : value < 2 ^ 31) :
    (overflow.toInt value : Program σ Int).Ensures state post ↔
      post value state := by
  cases overflow with
  | undefined =>
      rw [Overflow.toInt, ensures_reads, if_pos ⟨lower, upper⟩]
      simp
  | wraps =>
      have same : value.bmod (2 ^ 32) = value := by
        apply Int.bmod_eq_of_le
        · norm_num at lower ⊢
          exact lower
        · norm_num at upper ⊢
          exact upper
      rw [Overflow.toInt, ensures_pure, same]

end Integers

section Accesses

variable {γ : Type} {size : Nat} {state : VecState γ} {block : VecBlock γ}
  {stored : List VecStore}

@[simp] theorem ensures_vecArr
    {post : Word → VecState γ → Prop} :
    vecArr.Ensures state post ↔ post state.arr state := by
  simp [vecArr]

/-- Read the block of the vector. -/
theorem Has.ensures_load
    {α : Type}
    {read : VecBlock γ → Option α}
    {value : α}
    {post : α → VecState γ → Prop}
    (has : Has state block stored)
    (isValue : read block = some value) :
    (load (vecRaw state.arr) read).Ensures state post ↔
      post value state := by
  simp [load, has.block_eq, isValue]

/-- Rewrite a block. -/
theorem ensures_store
    {raw : Word}
    {allowed : VecBlock γ → Bool}
    {change : VecBlock γ → VecBlock γ}
    {indices : List Int}
    {post : Unit → VecState γ → Prop}
    (isBlock : state.blocks.cell raw = some block)
    (isAllowed : allowed block = true) :
    (store raw allowed change indices).Ensures state post ↔
      post ()
        { state with
          blocks := state.blocks.modify raw change
          stored :=
            state.stored ++
              indices.map fun index => ⟨index, block.capacity⟩ } := by
  rw [store, ensures_updates, isBlock, Option.bind_some, if_pos isAllowed]
  simp

/-- Rewrite the block of the vector. -/
theorem Has.ensures_store
    {allowed : VecBlock γ → Bool}
    {change : VecBlock γ → VecBlock γ}
    {indices : List Int}
    (has : Has state block stored)
    (isAllowed : allowed block = true) :
    (store (vecRaw state.arr) allowed change indices).Ensures state
      fun _ after =>
        Has after (change block)
          (stored ++ indices.map fun index => ⟨index, block.capacity⟩) := by
  rw [Vec.ensures_store has.block_eq isAllowed]
  exact
    { not_null := has.not_null
      block_eq := by simp [has.block_eq]
      stored_eq := by rw [has.stored_eq] }

variable {items : List γ} {capacity : Int}

namespace Holds

/-- Both `int` values are in the block. -/
theorem header_le
    (holds : Holds size block items capacity) :
    8 ≤ block.bytes := by
  have bytes := holds.bytes_eq
  have bounded := holds.bounded
  have nonneg : 0 ≤ (size : Int) * capacity := by
    apply mul_nonneg
    · omega
    · omega
  omega

/-- The indices up to the capacity are in the block. -/
theorem inBounds
    (holds : Holds size block items capacity)
    (first last : Int)
    (lower : 0 ≤ first)
    (upper : last ≤ capacity) :
    block.InBounds size first last := by
  have scaled : (size : Int) * last ≤ size * capacity :=
    mul_le_mul_of_nonneg_left upper (by omega)
  exact ⟨lower, by rw [holds.bytes_eq]; omega⟩

end Holds

/-- `__vec_m(a)` is the first `int` of the block. -/
theorem Has.ensures_vecM
    {post : Int → VecState γ → Prop}
    (has : Has state block stored)
    (header : 8 ≤ block.bytes)
    (isCapacity : block.capacity = some capacity) :
    vecM.Ensures state post ↔ post capacity state := by
  rw [vecM, ensures_bind, ensures_vecArr, rawM]
  apply has.ensures_load
  rw [if_pos (by omega), isCapacity]

/-- `__vec_m(a)` is the capacity. -/
theorem ensures_vecM
    {post : Int → VecState γ → Prop}
    (has : Has state block stored)
    (holds : Holds size block items capacity) :
    vecM.Ensures state post ↔ post capacity state :=
  has.ensures_vecM holds.header_le holds.capacity_eq

/-- `__vec_n(a)` is the number of elements. -/
theorem ensures_vecN
    {count : Int}
    {post : Int → VecState γ → Prop}
    (has : Has state block stored)
    (header : 8 ≤ block.bytes)
    (isCount : block.count = some count) :
    vecN.Ensures state post ↔ post count state := by
  rw [vecN, ensures_bind, ensures_vecArr, rawN]
  apply has.ensures_load
  rw [if_pos header, isCount]

/-- Assignment to `__vec_n(a)`. -/
theorem ensures_setVecN
    (count : Int)
    (has : Has state block stored)
    (header : 8 ≤ block.bytes) :
    (setVecN count).Ensures state fun _ after =>
      Has after { block with count := some count } stored := by
  rw [setVecN, ensures_bind, ensures_vecArr, setRawN]
  refine (has.ensures_store (by simpa using header)).weaken ?_
  intro _ after hasAfter
  simpa using hasAfter

/-- `(a)[index] = value`. -/
theorem ensures_setVecItem
    {index : Int}
    (value : γ)
    (has : Has state block stored)
    (inBounds : block.InBounds size index (index + 1)) :
    (setVecItem size index value).Ensures state fun _ after =>
      Has after
        { block with
          items := Function.update block.items index (some value) }
        (stored ++ [⟨index, block.capacity⟩]) := by
  rw [setVecItem, ensures_bind, ensures_vecArr]
  exact has.ensures_store (by simpa using inBounds)

end Accesses

section Growth

variable {γ : Type}
  {realloc : Word → Word → Program (VecBlocks γ) Word}
  {overflow : Overflow} {size : Nat} {state : VecState γ}
  {block : VecBlock γ} {stored : List VecStore} {items : List γ}
  {capacity : Int}

theorem vecRaw_add (p : Word) : vecRaw (p + 8) = p := by
  exact BitVec.add_sub_cancel p 8

/-- The elements are behind an address. -/
theorem add_ne_null
    {p bytes : Word}
    (header : 8 ≤ bytes.toNat)
    (ends : p.toNat + bytes.toNat < 2 ^ 64) :
    p + 8 ≠ null := by
  intro isNull
  have zero : (p + 8).toNat = 0 := by
    rw [isNull]
    rfl
  have eight : (8 : Word).toNat = 8 := rfl
  rw [BitVec.toNat_add, eight] at zero
  omega

/-- The number of bytes that are requested. -/
theorem toNat_bytes
    {length : Int}
    (lower : 0 ≤ length)
    (upper : length < 2 ^ 31) :
    (((BitVec.ofInt 64 length + 8 : Word).toNat : Nat) : Int) =
      8 + length := by
  obtain ⟨count, rfl⟩ := Int.eq_ofNat_of_zero_le lower
  have eight : (8 : Word).toNat = 8 := rfl
  rw [BitVec.ofInt_natCast, BitVec.toNat_add, BitVec.toNat_ofNat, eight]
  omega

/-- The capacity is recorded in the new block. -/
theorem ensures_adopt
    {p bytes : Word}
    (m : Int)
    (header : 8 ≤ bytes.toNat)
    (ends : p.toNat + bytes.toNat < 2 ^ 64)
    (isBlock : state.blocks.cell p = some block)
    (isLarge : block.bytes = bytes.toNat) :
    (do
      setArr (p + 8)
      setVecM m
      pure true : Program (VecState γ) Bool).Ensures state fun done after =>
        done = true ∧
        Has after { block with capacity := some m } state.stored := by
  have isBlockAfter :
      ({ state with arr := p + 8 } : VecState γ).blocks.cell p =
        some block :=
    isBlock
  have isAllowed : decide (4 ≤ block.bytes) = true := by
    rw [decide_eq_true_eq]
    omega
  rw [ensures_bind, setArr, ensures_updates]
  refine ⟨_, rfl, ?_⟩
  rw [ensures_bind, setVecM, ensures_bind, ensures_vecArr, vecRaw_add,
    setRawM, ensures_store isBlockAfter isAllowed, ensures_pure]
  refine ⟨rfl, ?_⟩
  exact
    { not_null := add_ne_null header ends
      block_eq := by
        rw [vecRaw_add, Memory.modify_cell_same, isBlock, Option.map_some]
      stored_eq := by simp }

/-- A call of `realloc` fails, or it changes the blocks only. -/
theorem ensures_callRealloc
    {ptr bytes : Word}
    {allocated : Word → VecBlocks γ → Prop}
    (reallocates :
      (realloc ptr bytes).Ensures state.blocks fun p blocks =>
        p ≠ null → allocated p blocks) :
    (callRealloc realloc ptr bytes).Ensures state fun p after =>
      p = null ∧ after.failed = true ∨
      ∃ blocks calls,
        after = { state with blocks := blocks, calls := calls } ∧
          p ≠ null ∧ allocated p blocks := by
  rw [callRealloc, ensures_bind, ensures_updates]
  refine ⟨_, rfl, ?_⟩
  rw [ensures_bind, ensures_zoom]
  refine reallocates.weaken ?_
  intro p blocks result
  rw [ensures_bind]
  by_cases isFailed : p = null
  · rw [ensures_onlyIf_of isFailed, ensures_updates]
    refine ⟨_, rfl, ?_⟩
    rw [ensures_pure]
    exact Or.inl ⟨isFailed, rfl⟩
  · rw [ensures_onlyIf_of_not isFailed, ensures_pure]
    exact Or.inr ⟨blocks, _, rfl, isFailed, result isFailed⟩

/-- The end of `__vec_growf`, for a capacity and a number of bytes. -/
def growTo
    (realloc : Word → Word → Program (VecBlocks γ) Word)
    (arr : Word)
    (m : Int)
    (bytes : Word) :
    Program (VecState γ) Bool := do
  let p ← callRealloc realloc (if arr ≠ null then vecRaw arr else null)
    bytes
  if p = null then
    pure false
  else do
    onlyIf (arr = null) (setRawN p 0)
    setArr (p + 8)
    setVecM m
    pure true

/-- `__vec_growf` computes a capacity and its bytes first. -/
theorem vecGrowf_eq (n : Int) :
    vecGrowf realloc overflow size n = (do
      let arr ← vecArr
      let m ← vecNextM overflow arr n
      let length ← overflow.toInt (size * m)
      growTo realloc arr m (BitVec.ofInt 64 length + 8)) :=
  rfl

/-- The first growth starts to count from zero. -/
theorem ensures_growTo_of_null
    {m : Int}
    {bytes : Word}
    (reallocates : Reallocates size realloc)
    (isNull : state.arr = null)
    (header : 8 ≤ bytes.toNat) :
    (growTo realloc state.arr m bytes).Ensures state fun done after =>
      Completes after done
        (∃ block, Has after block state.stored ∧
          block.capacity = some m ∧
          block.count = some 0 ∧
          block.bytes = bytes.toNat) := by
  rw [growTo, ensures_bind, if_neg (by simp [isNull])]
  refine
    (ensures_callRealloc (reallocates.fresh state.blocks _)).weaken ?_
  intro p after result
  rcases result with
    ⟨isFailed, failed⟩ | ⟨blocks, calls, rfl, notNull, allocated⟩
  · rw [if_pos isFailed, ensures_pure]
    exact failed
  · obtain ⟨ends, block, isBlock, isLarge⟩ := allocated
    have isAllowed : decide (8 ≤ block.bytes) = true :=
      decide_eq_true (by omega)
    rw [if_neg notNull, ensures_bind, ensures_onlyIf_of isNull, setRawN,
      ensures_store isBlock isAllowed]
    let started : VecBlock γ := { block with count := some 0 }
    have isStarted :
        (blocks.modify p fun block =>
          { block with count := some 0 }).cell p = some started := by
      rw [Memory.modify_cell_same, isBlock, Option.map_some]
    have isLargeStarted : started.bytes = _ := isLarge
    refine
      (ensures_adopt m header ends isStarted isLargeStarted).weaken ?_
    intro done after result
    obtain ⟨rfl, has⟩ := result
    exact ⟨{ started with capacity := some m }, by simpa using has, rfl,
      rfl, isLarge⟩

/-- A further growth keeps the number of elements and the elements. -/
theorem ensures_growTo_of_has
    {m : Int}
    {bytes : Word}
    (reallocates : Reallocates size realloc)
    (has : Has state block stored)
    (oldHeader : 8 ≤ block.bytes)
    (header : 8 ≤ bytes.toNat) :
    (growTo realloc state.arr m bytes).Ensures state fun done after =>
      Completes after done
        (∃ grown, Has after grown stored ∧
          grown.capacity = some m ∧
          grown.count = block.count ∧
          grown.bytes = bytes.toNat ∧
          ∀ index, 0 ≤ index →
            8 + size * (index + 1) ≤
              ((min block.bytes bytes.toNat : Nat) : Int) →
            grown.items index = block.items index) := by
  rw [growTo, ensures_bind, if_pos has.not_null]
  refine
    (ensures_callRealloc
      (reallocates.moved state.blocks _ block _ has.block_eq
        (by omega))).weaken ?_
  intro p after result
  rcases result with
    ⟨isFailed, failed⟩ | ⟨blocks, calls, rfl, notNull, allocated⟩
  · rw [if_pos isFailed, ensures_pure]
    exact failed
  · obtain ⟨ends, grown, isGrown, isLarge, _, sameCount, sameItems⟩ :=
      allocated
    rw [if_neg notNull, ensures_bind, ensures_onlyIf_of_not has.not_null]
    refine (ensures_adopt m header ends isGrown isLarge).weaken ?_
    intro done after result
    obtain ⟨rfl, hasGrown⟩ := result
    exact ⟨{ grown with capacity := some m }, has.stored_eq ▸ hasGrown,
      rfl, sameCount, isLarge, sameItems⟩

/-- The first call of `__vec_growf` allocates an empty vector. -/
theorem ensures_vecGrowf_of_null
    {n : Int}
    (reallocates : Reallocates size realloc)
    (isNull : state.arr = null)
    (nonneg : 0 ≤ n + 1)
    (within : WithinInt size (n + 1)) :
    (vecGrowf realloc overflow size n).Ensures state fun done after =>
      Completes after done
        (∃ block, Has after block state.stored ∧
          Holds size block [] (n + 1)) := by
  have scaled : 0 ≤ (size : Int) * (n + 1) :=
    mul_nonneg (by omega) nonneg
  have bytes := toNat_bytes scaled within.2
  have overflowFree := within.1
  rw [vecGrowf_eq, ensures_bind, ensures_vecArr, ensures_bind, vecNextM,
    if_neg (by simp [isNull]), ensures_toInt (by omega) within.1,
    ensures_bind, ensures_toInt (by omega) within.2]
  refine (ensures_growTo_of_null reallocates isNull (by omega)).weaken ?_
  intro done after result
  cases done with
  | false =>
      exact result
  | true =>
      obtain ⟨block, has, isCapacity, isCount, isLarge⟩ := result
      refine ⟨block, has, ?_⟩
      exact
        { capacity_eq := isCapacity
          count_eq := isCount
          bounded := by simpa using nonneg
          within := within
          bytes_eq := by rw [← bytes, isLarge]
          items_eq := by simp }

/-- A further call of `__vec_growf` keeps the elements. -/
theorem ensures_vecGrowf_of_has
    {n : Int}
    (reallocates : Reallocates size realloc)
    (has : Has state block stored)
    (holds : Holds size block items capacity)
    (nonneg : 0 ≤ n)
    (within : WithinInt size (2 * capacity + n)) :
    (vecGrowf realloc overflow size n).Ensures state fun done after =>
      Completes after done
        (∃ block, Has after block stored ∧
          Holds size block items (2 * capacity + n)) := by
  have bounded := holds.bounded
  have overflowFree := within.1
  have scaled : (size : Int) * capacity ≤ size * (2 * capacity + n) :=
    mul_le_mul_of_nonneg_left (by omega) (by omega)
  have scaledNonneg : 0 ≤ (size : Int) * capacity :=
    mul_nonneg (by omega) (by omega)
  have bytes := toNat_bytes (by omega) within.2
  have oldBytes := holds.bytes_eq
  rw [vecGrowf_eq, ensures_bind, ensures_vecArr, ensures_bind, vecNextM,
    if_pos has.not_null, ensures_bind, ensures_vecM has holds,
    ensures_bind, ensures_toInt (by omega) (by omega),
    ensures_toInt (by omega) within.1, ensures_bind,
    ensures_toInt (by omega) within.2]
  refine
    (ensures_growTo_of_has reallocates has holds.header_le
      (by omega)).weaken ?_
  intro done after result
  cases done with
  | false =>
      exact result
  | true =>
      obtain ⟨grown, hasGrown, isCapacity, sameCount, isLarge,
        sameItems⟩ := result
      refine ⟨grown, hasGrown, ?_⟩
      exact
        { capacity_eq := isCapacity
          count_eq := sameCount.trans holds.count_eq
          bounded := by omega
          within := within
          bytes_eq := by rw [← bytes, isLarge]
          items_eq := by
            intro index value isItem
            have below : index < items.length :=
              (List.getElem?_eq_some_iff.mp isItem).1
            have inOld :=
              (holds.inBounds index (index + 1) (by omega) (by omega)).2
            rw [sameItems index (by omega) (by omega)]
            exact holds.items_eq index value isItem }

/-- Growing leaves room for the new elements. -/
theorem Represents.room
    {model : VecModel γ}
    (n : Int)
    (represents : Represents size state model) :
    model.items.length + n ≤ model.grown n := by
  cases isCapacity : model.capacity with
  | none =>
      simp only [Represents, isCapacity] at represents
      simp [VecModel.grown, isCapacity, represents.2]
  | some m =>
      simp only [Represents, isCapacity] at represents
      obtain ⟨block, -, holds⟩ := represents
      have bounded := holds.bounded
      simp only [VecModel.grown, isCapacity]
      split
      · omega
      · omega

/-- `__vec_maybegrow(a, n)` keeps the elements. -/
theorem ensures_vecMaybegrow
    {model : VecModel γ}
    {n : Int}
    (reallocates : Reallocates size realloc)
    (represents : Represents size state model)
    (nonneg : 0 ≤ n)
    (within : WithinInt size (model.grown n)) :
    (vecMaybegrow realloc overflow size n).Ensures state fun done after =>
      Completes after done
        (∃ block, Has after block state.stored ∧
          Holds size block model.items (model.grown n)) := by
  rw [vecMaybegrow, ensures_bind, vecNeedgrow, ensures_bind,
    ensures_vecArr]
  cases isCapacity : model.capacity with
  | none =>
      simp only [Represents, isCapacity] at represents
      simp only [VecModel.grown, isCapacity] at within ⊢
      obtain ⟨isNull, isEmpty⟩ := represents
      rw [if_pos isNull, ensures_pure, if_pos rfl, vecGrow, isEmpty]
      exact ensures_vecGrowf_of_null reallocates isNull (by omega) within
  | some m =>
      simp only [Represents, isCapacity] at represents
      simp only [VecModel.grown, isCapacity] at within ⊢
      obtain ⟨block, has, holds⟩ := represents
      have bounded := holds.bounded
      have overflowFree := holds.within.1
      have needed : model.items.length + n < 2 ^ 31 := by
        split at within
        · have overflowFreeGrown := within.1
          omega
        · omega
      rw [if_neg has.not_null, ensures_bind,
        ensures_vecN has holds.header_le holds.count_eq, ensures_bind,
        ensures_toInt (by omega) needed, ensures_bind,
        ensures_vecM has holds, ensures_pure]
      by_cases grows : m ≤ model.items.length + n
      · rw [if_pos (decide_eq_true grows), vecGrow]
        rw [if_pos grows] at within ⊢
        exact ensures_vecGrowf_of_has reallocates has holds nonneg within
      · rw [if_neg (by simp [grows]), ensures_pure]
        rw [if_neg grows]
        exact ⟨block, has, holds⟩

end Growth

section Operations

variable {γ : Type}
  {realloc : Word → Word → Program (VecBlocks γ) Word}
  {overflow : Overflow} {size : Nat} {state : VecState γ}
  {block : VecBlock γ} {stored : List VecStore} {items : List γ}
  {capacity : Int}

/-- One more element, stored behind the others. -/
theorem Holds.push
    (value : γ)
    (holds : Holds size block items capacity)
    (room : (items.length : Int) + 1 ≤ capacity) :
    Holds size
      { block with
        count := some ((items.length : Int) + 1)
        items := Function.update block.items items.length (some value) }
      (items ++ [value]) capacity where
  capacity_eq := holds.capacity_eq
  count_eq := by simp
  bounded := by simpa using room
  within := holds.within
  bytes_eq := holds.bytes_eq
  items_eq := by
    intro index found isItem
    change Function.update block.items items.length (some value) index = _
    rcases Nat.lt_trichotomy index items.length with before | rfl | behind
    · rw [List.getElem?_append_left before] at isItem
      rw [Function.update_of_ne (by simpa using before.ne)]
      exact holds.items_eq index found isItem
    · simpa using isItem
    · rw [List.getElem?_eq_none (by simp; omega)] at isItem
      cases isItem

/-- The elements before the last one stay. -/
theorem Holds.pop
    (holds : Holds size block items capacity)
    (nonempty : items ≠ []) :
    Holds size { block with count := some ((items.length : Int) - 1) }
      items.dropLast capacity where
  capacity_eq := holds.capacity_eq
  count_eq := by
    have positive := List.length_pos_iff.mpr nonempty
    rw [List.length_dropLast, Nat.cast_sub positive, Nat.cast_one]
  bounded := by
    have bounded := holds.bounded
    rw [List.length_dropLast]
    omega
  within := holds.within
  bytes_eq := holds.bytes_eq
  items_eq := by
    intro index value isItem
    rw [List.getElem?_dropLast] at isItem
    split at isItem
    · exact holds.items_eq index value isItem
    · cases isItem

/-- The elements behind an index move one place to the front. -/
theorem Holds.erase
    {i : Nat}
    (holds : Holds size block items capacity)
    (below : i < items.length) :
    Holds size
      { block with
        count := some ((items.length : Int) - 1)
        items := fun index =>
          if (i : Int) ≤ index ∧
              index < i + ((items.length : Int) - 1 - i) then
            block.items (index - i + (i + 1))
          else block.items index }
      (items.eraseIdx i) capacity where
  capacity_eq := holds.capacity_eq
  count_eq := by
    rw [List.length_eraseIdx_of_lt below]
    simp only [Option.some.injEq]
    omega
  bounded := by
    have bounded := holds.bounded
    rw [List.length_eraseIdx_of_lt below]
    omega
  within := holds.within
  bytes_eq := holds.bytes_eq
  items_eq := by
    intro index value isItem
    have inside : index < (items.eraseIdx i).length :=
      (List.getElem?_eq_some_iff.mp isItem).1
    rw [List.length_eraseIdx_of_lt below] at inside
    change ite _ _ _ = _
    rcases Nat.lt_or_ge index i with before | behind
    · rw [List.getElem?_eraseIdx_of_lt before] at isItem
      rw [if_neg (by omega)]
      exact holds.items_eq index value isItem
    · rw [List.getElem?_eraseIdx_of_ge behind] at isItem
      have moved : (index : Int) - i + (i + 1) = (index + 1 : Nat) := by
        omega
      rw [if_pos (by omega), moved]
      exact holds.items_eq (index + 1) value isItem

/-- What comes after a macro that may abort. -/
theorem Completes.ensures_ite
    {done : Bool}
    {result : Prop}
    {next : Program (VecState γ) Bool}
    {post : VecState γ → Prop}
    (completes : Completes state done result)
    (continues :
      result →
      next.Ensures state fun done after => Completes after done (post after)) :
    (if done = true then next else pure false).Ensures state
      fun done after => Completes after done (post after) := by
  cases done with
  | false =>
      rw [if_neg Bool.false_ne_true, ensures_pure]
      exact completes
  | true =>
      rw [if_pos rfl]
      exact continues completes

/-- A store below the capacity. -/
theorem Holds.inside
    {index : Int}
    (holds : Holds size block items capacity)
    (nonneg : 0 ≤ index)
    (below : index < capacity) :
    VecStore.Inside ⟨index, block.capacity⟩ :=
  ⟨capacity, holds.capacity_eq, nonneg, below⟩

/-- Further stores below the capacity. -/
theorem inside_append
    {others : List VecStore}
    (inside : ∀ entry ∈ stored, entry.Inside)
    (othersInside : ∀ entry ∈ others, entry.Inside) :
    ∀ entry ∈ stored ++ others, entry.Inside := by
  intro entry isEntry
  rcases List.mem_append.mp isEntry with isOld | isNew
  · exact inside entry isOld
  · exact othersInside entry isNew

/-- The vector stands for a list, and all stores were below the capacity. -/
structure Refines
    (size : Nat)
    (state : VecState γ)
    (model : VecModel γ) : Prop where
  represents : Represents size state model
  inside : ∀ entry ∈ state.stored, entry.Inside

/-- The vector has a block that holds these elements. -/
theorem Has.refines
    (has : Has state block stored)
    (holds : Holds size block items capacity)
    (inside : ∀ entry ∈ stored, entry.Inside) :
    Refines size state ⟨items, some capacity⟩ where
  represents := ⟨block, has.stored_eq ▸ has, holds⟩
  inside := has.stored_eq ▸ inside

/-- A vector with elements has a block. -/
theorem Refines.exists_block
    {model : VecModel γ}
    (refines : Refines size state model)
    (nonempty : model.items ≠ []) :
    ∃ m block, model.capacity = some m ∧
      Has state block state.stored ∧ Holds size block model.items m := by
  have represents := refines.represents
  cases isCapacity : model.capacity with
  | none =>
      simp only [Represents, isCapacity] at represents
      exact absurd represents.2 nonempty
  | some m =>
      simp only [Represents, isCapacity] at represents
      obtain ⟨block, has, holds⟩ := represents
      exact ⟨m, block, rfl, has, holds⟩

/-- `vec_init(a, n)` leaves an empty vector. -/
theorem ensures_vecInit
    {n : Int}
    (reallocates : Reallocates size realloc)
    (nonneg : 0 ≤ n + 1)
    (within : WithinInt size (n + 1))
    (inside : ∀ entry ∈ state.stored, entry.Inside) :
    (vecInit realloc overflow size n).Ensures state fun done after =>
      Completes after done
        (Refines size after ⟨[], some (n + 1)⟩) := by
  rw [vecInit, ensures_bind, setArr, ensures_updates]
  refine ⟨_, rfl, ?_⟩
  refine
    (ensures_vecGrowf_of_null reallocates rfl nonneg within).weaken ?_
  intro done after grown
  cases done with
  | false =>
      exact grown
  | true =>
      obtain ⟨block, has, holds⟩ := grown
      exact has.refines holds inside

/-- `vec_push(a, v)` appends an element. -/
theorem ensures_vecPush
    {model : VecModel γ}
    (v : γ)
    (reallocates : Reallocates size realloc)
    (refines : Refines size state model)
    (within : WithinInt size (model.grown 1)) :
    (vecPush realloc overflow size v).Ensures state fun done after =>
      Completes after done
        (Refines size after
          ⟨model.items ++ [v], some (model.grown 1)⟩) := by
  have room := refines.represents.room 1
  rw [vecPush, ensures_bind]
  refine
    (ensures_vecMaybegrow reallocates refines.represents (by omega)
      within).weaken ?_
  intro done after grown
  apply grown.ensures_ite
  intro holdsBlock
  obtain ⟨block, has, holds⟩ := holdsBlock
  have overflowFree := within.1
  rw [ensures_bind, ensures_vecN has holds.header_le holds.count_eq,
    ensures_bind, ensures_toInt (by omega) (by omega), ensures_bind]
  refine (ensures_setVecN _ has holds.header_le).weaken ?_
  intro _ counted hasCounted
  rw [ensures_bind]
  refine
    (ensures_setVecItem v hasCounted
      (holds.inBounds _ _ (by omega) room)).weaken ?_
  intro _ stored hasStored
  rw [ensures_pure]
  apply hasStored.refines (holds.push v room)
  apply inside_append refines.inside
  intro entry isEntry
  rw [List.mem_singleton.mp isEntry]
  exact holds.inside (by omega) (by omega)

/-- `vec_pop(a)` removes the last element. -/
theorem ensures_vecPop
    {model : VecModel γ}
    (refines : Refines size state model)
    (nonempty : model.items ≠ []) :
    (vecPop overflow).Ensures state fun count after =>
      count = model.items.length ∧
      Refines size after ⟨model.items.dropLast, model.capacity⟩ := by
  obtain ⟨m, block, isCapacity, has, holds⟩ :=
    refines.exists_block nonempty
  have bounded := holds.bounded
  have overflowFree := holds.within.1
  rw [vecPop, isCapacity, ensures_bind, ensures_vecArr,
    if_pos has.not_null, ensures_bind,
    ensures_vecN has holds.header_le holds.count_eq, ensures_bind,
    ensures_toInt (by omega) (by omega), ensures_bind]
  refine (ensures_setVecN _ has holds.header_le).weaken ?_
  intro _ after hasAfter
  rw [ensures_pure]
  exact ⟨rfl, hasAfter.refines (holds.pop nonempty) refines.inside⟩

/-- Move elements of the vector. -/
theorem ensures_memmove
    {target source count : Int}
    (has : Has state block stored)
    (nonneg : 0 ≤ count)
    (targetInBounds : block.InBounds size target (target + count))
    (sourceInBounds : block.InBounds size source (source + count)) :
    (memmove size target source count).Ensures state fun _ after =>
      Has after
        { block with
          items := fun index =>
            if target ≤ index ∧ index < target + count then
              block.items (index - target + source)
            else block.items index }
        (stored ++
          ((List.range count.toNat).map fun index : Nat =>
            target + (index : Int)).map
              fun index => ⟨index, block.capacity⟩) := by
  rw [memmove, ensures_bind, ensures_vecArr]
  apply has.ensures_store
  exact decide_eq_true ⟨nonneg, targetInBounds, sourceInBounds⟩

/-- `vec_erase(a, i)` deletes the element at an index. -/
theorem ensures_vecErase
    {model : VecModel γ}
    {i : Nat}
    (refines : Refines size state model)
    (below : i < model.items.length) :
    (vecErase overflow size i).Ensures state fun _ after =>
      Refines size after ⟨model.items.eraseIdx i, model.capacity⟩ := by
  obtain ⟨m, block, isCapacity, has, holds⟩ :=
    refines.exists_block (List.ne_nil_of_length_pos (by omega))
  have bounded := holds.bounded
  have overflowFree := holds.within.1
  rw [vecErase, isCapacity, ensures_bind, ensures_vecArr,
    if_pos has.not_null, ensures_bind,
    ensures_vecN has holds.header_le holds.count_eq, ensures_bind,
    ensures_toInt (by omega) (by omega), ensures_bind]
  refine (ensures_setVecN _ has holds.header_le).weaken ?_
  intro _ counted hasCounted
  rw [ensures_bind, ensures_toInt (by omega) (by omega), vecLshift,
    ensures_bind, ensures_toInt (by omega) (by omega)]
  refine
    (ensures_memmove hasCounted (by omega)
      (holds.inBounds _ _ (by omega) (by omega))
      (holds.inBounds _ _ (by omega) (by omega))).weaken ?_
  intro _ after hasAfter
  apply hasAfter.refines (holds.erase below)
  apply inside_append refines.inside
  intro entry isEntry
  simp only [List.map_map, List.mem_map, List.mem_range,
    Function.comp_apply] at isEntry
  obtain ⟨offset, isOffset, rfl⟩ := isEntry
  exact holds.inside (by omega) (by omega)

/-- Writing the number of elements again changes nothing. -/
theorem holds_count_iff
    (isCount : block.count = some (items.length : Int)) :
    Holds size { block with count := some (items.length : Int) } items
        capacity ↔
      Holds size block items capacity := by
  rw [← isCount]

/-- Storing through the pointer that `vec_add` returned. -/
theorem ensures_setVecItems
    (values : List γ)
    (has : Has state block stored)
    (holds :
      Holds size { block with count := some (items.length : Int) } items
        capacity)
    (room : (items.length : Int) + values.length ≤ capacity)
    (inside : ∀ entry ∈ stored, entry.Inside) :
    (setVecItems size items.length values).Ensures state fun _ after =>
      ∃ filled written, Has after filled written ∧
        filled.count = block.count ∧
        Holds size
          { filled with count := some ((items ++ values).length : Int) }
          (items ++ values) capacity ∧
        ∀ entry ∈ written, entry.Inside := by
  induction values generalizing state block stored items with
  | nil =>
      rw [setVecItems, ensures_pure, List.append_nil]
      exact ⟨block, stored, has, rfl, holds, inside⟩
  | cons value values inductionHypothesis =>
      rw [List.length_cons] at room
      rw [setVecItems, ensures_bind]
      refine
        (ensures_setVecItem value has
          (holds.inBounds _ _ (by omega) (by omega))).weaken ?_
      intro _ after hasAfter
      have isInside : VecStore.Inside ⟨items.length, block.capacity⟩ :=
        holds.inside (by omega) (by omega)
      have pushed := holds.push value (by omega)
      have length :
          ((items ++ [value]).length : Int) = items.length + 1 := by
        simp
      rw [← length] at pushed ⊢
      have next :=
        inductionHypothesis hasAfter pushed (by omega)
          (inside_append inside (List.forall_mem_singleton.mpr isInside))
      rwa [List.append_assoc, List.singleton_append] at next

/-- `vec_add(a, k)` and `k` stores append the stored elements. -/
theorem ensures_vecAdd
    {model : VecModel γ}
    (values : List γ)
    (reallocates : Reallocates size realloc)
    (refines : Refines size state model)
    (within : WithinInt size (model.grown values.length)) :
    (vecAdd realloc overflow size values.length).Ensures state
      fun pointer after =>
        Completes after pointer.isSome
          (∃ first, pointer = some first ∧
            (setVecItems size first values).Ensures after fun _ after =>
              Refines size after
                ⟨model.items ++ values,
                  some (model.grown values.length)⟩) := by
  have room := refines.represents.room values.length
  rw [vecAdd, ensures_bind]
  refine
    (ensures_vecMaybegrow reallocates refines.represents (by omega)
      within).weaken ?_
  intro done after grown
  cases done with
  | false =>
      rw [if_neg Bool.false_ne_true, ensures_pure]
      exact grown
  | true =>
      obtain ⟨block, has, holds⟩ := grown
      have overflowFree := within.1
      rw [if_pos rfl, ensures_bind,
        ensures_vecN has holds.header_le holds.count_eq, ensures_bind,
        ensures_toInt (by omega) (by omega), ensures_bind]
      refine (ensures_setVecN _ has holds.header_le).weaken ?_
      intro _ counted hasCounted
      rw [ensures_bind, ensures_vecN hasCounted holds.header_le rfl,
        ensures_bind, ensures_toInt (by omega) (by omega), ensures_pure]
      refine ⟨_, rfl, ?_⟩
      rw [Int.add_sub_cancel]
      have counts := (holds_count_iff holds.count_eq).mpr holds
      refine
        (ensures_setVecItems values hasCounted counts room
          refines.inside).weaken ?_
      intro _ after result
      obtain ⟨filled, stored, hasFilled, sameCount, holdsFilled, inside⟩ :=
        result
      have isCount :
          filled.count = some ((model.items ++ values).length : Int) := by
        rw [sameCount, List.length_append, Nat.cast_add]
      exact hasFilled.refines ((holds_count_iff isCount).mp holdsFilled)
        inside

end Operations

end LibKern.Vec
