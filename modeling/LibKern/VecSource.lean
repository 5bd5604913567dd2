import LibKern.Memory
import LibKern.Program
import Mathlib.Algebra.Group.Int.Defs

namespace LibKern.Vec

/-!
# Growable vectors

This module transcribes the macros of `include/vec.h`.  The elements of a
vector follow two `int` values that hold the capacity and the number of
elements, and `a` points behind these two.  `NULL` is the empty vector without
memory.

A block is what one call of `realloc` returns.  An access outside of the bytes
of its block fails.  The overflow of an `int` is undefined in C, and most
machines wrap around; the macros are transcribed for both.  The state records
every store to an element together with the capacity at this moment, every call
of `realloc`, and whether `realloc` has failed.
-/

open Program

/-- The memory that one call of `realloc` returns. -/
structure VecBlock (γ : Type) where
  /-- The number of bytes that were requested. -/
  bytes : Nat
  /-- The first `int`, if it was written. -/
  capacity : Option Int
  /-- The second `int`, if it was written. -/
  count : Option Int
  /-- The elements behind the two `int` values that were written. -/
  items : Int → Option γ

/-- The address of a block is the value of `__vec_raw(a)`. -/
abbrev VecBlocks (γ : Type) := Memory Word (VecBlock γ)

/-- A store to an element, with `__vec_m(a)` at the time of the store. -/
structure VecStore where
  index : Int
  capacity : Option Int

/-- A call of `realloc`, with the number of elements in the block it is for. -/
structure VecCall where
  ptr : Word
  bytes : Word
  carried : Int

/-- The number of elements in a block, which is zero for `NULL`. -/
def elementsAt
    {γ : Type}
    (blocks : VecBlocks γ)
    (ptr : Word) : Int :=
  ((blocks.cell ptr).bind VecBlock.count).getD 0

/-- The allocated blocks, the variable `a`, and what has happened so far. -/
structure VecState (γ : Type) where
  blocks : VecBlocks γ
  arr : Word
  stored : List VecStore
  calls : List VecCall
  failed : Bool

/-- The elements of this size from one index to another are in a block. -/
def VecBlock.InBounds
    {γ : Type}
    (block : VecBlock γ)
    (size : Nat)
    (first last : Int) : Prop :=
  0 ≤ first ∧ 8 + size * last ≤ (block.bytes : Int)

instance
    {γ : Type}
    (block : VecBlock γ)
    (size : Nat)
    (first last : Int) :
    Decidable (block.InBounds size first last) :=
  inferInstanceAs (Decidable (_ ∧ _))

/-- What the overflow of an `int` does. -/
inductive Overflow where
  | undefined
  | wraps
  deriving DecidableEq, Repr

/-- The value of an `int` expression. -/
def Overflow.toInt
    {σ : Type}
    (overflow : Overflow)
    (value : Int) :
    Program σ Int :=
  match overflow with
  | .undefined =>
      reads fun _ =>
        if -2 ^ 31 ≤ value ∧ value < 2 ^ 31 then some value else none
  | .wraps => pure (value.bmod (2 ^ 32))

section Accesses

variable {γ : Type}

/-- `__vec_raw(a)`. -/
def vecRaw (arr : Word) : Word :=
  arr - 8

/-- The variable `a`. -/
def vecArr : Program (VecState γ) Word :=
  reads fun state => some state.arr

/-- Assignment to `a`. -/
def setArr (arr : Word) : Program (VecState γ) Unit :=
  updates fun state => some { state with arr := arr }

/-- Read a block. -/
def load
    {α : Type}
    (raw : Word)
    (read : VecBlock γ → Option α) :
    Program (VecState γ) α :=
  reads fun state => (state.blocks.cell raw).bind read

/-- Rewrite a block, and record stores to elements. -/
def store
    (raw : Word)
    (allowed : VecBlock γ → Bool)
    (change : VecBlock γ → VecBlock γ)
    (indices : List Int) :
    Program (VecState γ) Unit :=
  updates fun state =>
    (state.blocks.cell raw).bind fun block =>
      if allowed block then
        some
          { state with
            blocks := state.blocks.modify raw change
            stored :=
              state.stored ++
                indices.map fun index => ⟨index, block.capacity⟩ }
      else none

/-- `raw[0]`. -/
def rawM (raw : Word) : Program (VecState γ) Int :=
  load raw fun block =>
    if 4 ≤ block.bytes then block.capacity else none

/-- `raw[1]`. -/
def rawN (raw : Word) : Program (VecState γ) Int :=
  load raw fun block =>
    if 8 ≤ block.bytes then block.count else none

/-- Assignment to `raw[0]`. -/
def setRawM (raw : Word) (capacity : Int) : Program (VecState γ) Unit :=
  store raw (fun block => decide (4 ≤ block.bytes))
    (fun block => { block with capacity := some capacity }) []

/-- Assignment to `raw[1]`. -/
def setRawN (raw : Word) (count : Int) : Program (VecState γ) Unit :=
  store raw (fun block => decide (8 ≤ block.bytes))
    (fun block => { block with count := some count }) []

/-- `__vec_m(a)`. -/
def vecM : Program (VecState γ) Int := do
  let arr ← vecArr
  rawM (vecRaw arr)

/-- `__vec_n(a)`. -/
def vecN : Program (VecState γ) Int := do
  let arr ← vecArr
  rawN (vecRaw arr)

/-- Assignment to `__vec_m(a)`. -/
def setVecM (capacity : Int) : Program (VecState γ) Unit := do
  let arr ← vecArr
  setRawM (vecRaw arr) capacity

/-- Assignment to `__vec_n(a)`. -/
def setVecN (count : Int) : Program (VecState γ) Unit := do
  let arr ← vecArr
  setRawN (vecRaw arr) count

section Elements

variable (size : Nat)

/-- `(a)[index]`. -/
def vecItem (index : Int) : Program (VecState γ) γ := do
  let arr ← vecArr
  load (vecRaw arr) fun block =>
    if block.InBounds size index (index + 1) then block.items index
    else none

/-- `(a)[index] = value`. -/
def setVecItem (index : Int) (value : γ) : Program (VecState γ) Unit := do
  let arr ← vecArr
  store (vecRaw arr)
    (fun block => decide (block.InBounds size index (index + 1)))
    (fun block =>
      { block with items := Function.update block.items index (some value) })
    [index]

/--
`memmove(&(a)[target], &(a)[source], count * sizeof(*(a)))`, which reads all
elements before it writes the first one.
-/
def memmove (target source count : Int) : Program (VecState γ) Unit := do
  let arr ← vecArr
  store (vecRaw arr)
    (fun block =>
      decide (0 ≤ count ∧
        block.InBounds size target (target + count) ∧
        block.InBounds size source (source + count)))
    (fun block =>
      { block with
        items := fun index =>
          if target ≤ index ∧ index < target + count then
            block.items (index - target + source)
          else block.items index })
    ((List.range count.toNat).map fun index : Nat =>
      target + (index : Int))

/-- Store values one after the other through `&(a)[first]`. -/
def setVecItems (first : Int) : List γ → Program (VecState γ) Unit
  | [] => pure ()
  | value :: values => do
      setVecItem size first value
      setVecItems (first + 1) values

end Elements

end Accesses

section Macros

variable {γ : Type}
  (realloc : Word → Word → Program (VecBlocks γ) Word)
  (overflow : Overflow)
  (size : Nat)

/-- A call of `realloc`. -/
def callRealloc (ptr bytes : Word) : Program (VecState γ) Word := do
  updates fun state =>
    some
      { state with
        calls :=
          state.calls ++ [⟨ptr, bytes, elementsAt state.blocks ptr⟩] }
  let p ← (realloc ptr bytes).zoom VecState.blocks fun blocks state =>
    { state with blocks := blocks }
  onlyIf (p = null) (updates fun state =>
    some { state with failed := true })
  pure p

/-- The capacity that `__vec_growf` requests. -/
def vecNextM (arr : Word) (incr : Int) : Program (VecState γ) Int :=
  if arr ≠ null then do
    let m ← vecM
    let doubled ← overflow.toInt (2 * m)
    overflow.toInt (doubled + incr)
  else
    overflow.toInt (incr + 1)

/--
`__vec_growf(&a, incr, size)`.  The result is false if `assert(p)` aborts the
program.
-/
def vecGrowf (incr : Int) : Program (VecState γ) Bool := do
  let arr ← vecArr
  let m ← vecNextM overflow arr incr
  let length ← overflow.toInt (size * m)
  let p ← callRealloc realloc
    (if arr ≠ null then vecRaw arr else null)
    (BitVec.ofInt 64 length + 8)
  if p = null then
    pure false
  else do
    onlyIf (arr = null) (setRawN p 0)
    setArr (p + 8)
    setVecM m
    pure true

/-- `__vec_grow(a, n)`. -/
def vecGrow (n : Int) : Program (VecState γ) Bool :=
  vecGrowf realloc overflow size n

/-- `__vec_needgrow(a, n)`. -/
def vecNeedgrow (n : Int) : Program (VecState γ) Bool := do
  let arr ← vecArr
  if arr = null then
    pure true
  else do
    let count ← vecN
    let needed ← overflow.toInt (count + n)
    let m ← vecM
    pure (decide (m ≤ needed))

/-- `__vec_maybegrow(a, n)`. -/
def vecMaybegrow (n : Int) : Program (VecState γ) Bool := do
  let grows ← vecNeedgrow overflow n
  if grows = true then vecGrow realloc overflow size n else pure true

/-- `vec_init(a, n)`. -/
def vecInit (n : Int) : Program (VecState γ) Bool := do
  setArr null
  vecGrow realloc overflow size n

/-- `vec_size(a)`. -/
def vecSize : Program (VecState γ) Int := do
  let arr ← vecArr
  if arr ≠ null then vecN else pure 0

/-- `vec_push(a, v)`. -/
def vecPush (v : γ) : Program (VecState γ) Bool := do
  let grown ← vecMaybegrow realloc overflow size 1
  if grown = true then do
    let index ← vecN
    let count ← overflow.toInt (index + 1)
    setVecN count
    setVecItem size index v
    pure true
  else
    pure false

/-- `vec_pop(a)`. -/
def vecPop : Program (VecState γ) Int := do
  let arr ← vecArr
  if arr ≠ null then do
    let count ← vecN
    let less ← overflow.toInt (count - 1)
    setVecN less
    pure count
  else
    pure 0

/-- `vec_add(a, n)`; the result is the index of the returned pointer. -/
def vecAdd (n : Int) : Program (VecState γ) (Option Int) := do
  let grown ← vecMaybegrow realloc overflow size n
  if grown = true then do
    let count ← vecN
    let more ← overflow.toInt (count + n)
    setVecN more
    let now ← vecN
    let first ← overflow.toInt (now - n)
    pure (some first)
  else
    pure none

/-- `__vec_lshift(a, i, n)`. -/
def vecLshift (i n : Int) : Program (VecState γ) Unit := do
  let next ← overflow.toInt (i + 1)
  memmove size i next n

/-- `__vec_rshift(a, i, n)`. -/
def vecRshift (i n : Int) : Program (VecState γ) Unit := do
  let next ← overflow.toInt (i + 1)
  memmove size next i n

/-- `vec_insert(a, i, v)`. -/
def vecInsert (i : Int) (v : γ) : Program (VecState γ) Bool := do
  let grown ← vecMaybegrow realloc overflow size 1
  if grown = true then do
    let count ← vecN
    let moved ← overflow.toInt (count - i)
    vecRshift overflow size i moved
    let index ← vecN
    let count ← overflow.toInt (index + 1)
    setVecN count
    setVecItem size index v
    pure true
  else
    pure false

/-- `vec_erase(a, i)`. -/
def vecErase (i : Int) : Program (VecState γ) Unit := do
  let arr ← vecArr
  if arr ≠ null then do
    let count ← vecN
    let less ← overflow.toInt (count - 1)
    setVecN less
    let moved ← overflow.toInt (less - i)
    vecLshift overflow size i moved
  else
    pure ()

end Macros

end LibKern.Vec
