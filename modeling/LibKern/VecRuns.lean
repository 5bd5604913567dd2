import LibKern.VecLists

namespace LibKern.Vec

/-!
# Runs of vector operations

A run starts with `NULL` or with `vec_init`, and calls the macros that change
the elements in any order.  The list operations say when a call is allowed: the
vector is not empty when an element is popped, the index of an erased element
is below the size, and capacities and byte counts are within `int`.
-/

open Program

/-- How a vector comes to exist. -/
inductive VecStart where
  | null
  | init (k : Int)

/-- The macros that change the elements of a vector. -/
inductive VecOp (γ : Type) where
  | push (v : γ)
  | add (values : List γ)
  | pop
  | erase (i : Nat)

section Lists

variable {γ : Type}

/-- The vector at the start of a run. -/
def VecStart.model : VecStart → VecModel γ
  | .null => ⟨[], none⟩
  | .init k => ⟨[], some (k + 1)⟩

/-- The first capacity is within `int`, and not negative. -/
def VecStart.Allowed (size : Nat) : VecStart → Prop
  | .null => True
  | .init k => 0 ≤ k + 1 ∧ WithinInt size (k + 1)

/-- The operation on lists. -/
def VecOp.apply (model : VecModel γ) : VecOp γ → VecModel γ
  | .push v => ⟨model.items ++ [v], some (model.grown 1)⟩
  | .add values =>
      ⟨model.items ++ values, some (model.grown values.length)⟩
  | .pop => ⟨model.items.dropLast, model.capacity⟩
  | .erase i => ⟨model.items.eraseIdx i, model.capacity⟩

/-- When an operation may be called. -/
def VecOp.Allowed (size : Nat) (model : VecModel γ) : VecOp γ → Prop
  | .push _ => WithinInt size (model.grown 1)
  | .add values => WithinInt size (model.grown values.length)
  | .pop => model.items ≠ []
  | .erase i => i < model.items.length

/-- The list operations one after the other. -/
def VecModel.run (model : VecModel γ) (ops : List (VecOp γ)) :
    VecModel γ :=
  ops.foldl VecOp.apply model

/-- Every operation of a run may be called. -/
def VecModel.Allows (size : Nat) :
    VecModel γ → List (VecOp γ) → Prop
  | _, [] => True
  | model, op :: ops =>
      op.Allowed size model ∧ VecModel.Allows size (op.apply model) ops

end Lists

section Programs

variable {γ : Type}
  (realloc : Word → Word → Program (VecBlocks γ) Word)
  (overflow : Overflow)
  (size : Nat)

/-- The code at the start of a run. -/
def VecStart.program : VecStart → Program (VecState γ) Bool
  | .null => do
      setArr Null.null
      pure true
  | .init k => vecInit realloc overflow size k

/--
The code of an operation.  `vec_add` is followed by the stores through the
pointer that it returns.
-/
def VecOp.program : VecOp γ → Program (VecState γ) Bool
  | .push v => vecPush realloc overflow size v
  | .add values => do
      let pointer ← vecAdd realloc overflow size values.length
      match pointer with
      | none => pure false
      | some first => do
          setVecItems size first values
          pure true
  | .pop => do
      let _ ← vecPop overflow
      pure true
  | .erase i => do
      vecErase overflow size i
      pure true

/-- Operations one after the other, until one aborts. -/
def runOps : List (VecOp γ) → Program (VecState γ) Bool
  | [] => pure true
  | op :: ops => do
      let done ← op.program realloc overflow size
      if done = true then runOps ops else pure false

/-- A run from its start. -/
def vecRun (start : VecStart) (ops : List (VecOp γ)) :
    Program (VecState γ) Bool := do
  let done ← start.program realloc overflow size
  if done = true then runOps realloc overflow size ops else pure false

end Programs

/-- What a vector has to do with a list. -/
structure Matches
    {γ : Type}
    (size : Nat)
    (state : VecState γ)
    (items : List γ) : Prop where
  /-- `vec_size(a)` is the length of the list. -/
  size_eq :
    vecSize.Ensures state fun count after =>
      count = items.length ∧ after = state
  /-- The elements are those of the list. -/
  items_eq :
    ∀ (i : Nat) (below : i < items.length),
      (vecItem size i).Ensures state fun value after =>
        value = items[i] ∧ after = state
  /-- `0 <= __vec_n(a) <= __vec_m(a)`. -/
  bounds :
    state.arr ≠ null →
    ∃ n m,
      (vecN.Ensures state fun count _ => count = n) ∧
      (vecM.Ensures state fun capacity _ => capacity = m) ∧
      0 ≤ n ∧ n ≤ m
  /-- Every store had an index below the capacity. -/
  inside : ∀ entry ∈ state.stored, entry.Inside

section Steps

variable {γ : Type}
  {realloc : Word → Word → Program (VecBlocks γ) Word}
  {overflow : Overflow} {size : Nat} {state : VecState γ}
  {model : VecModel γ}

/-- A vector that stands for a list matches it. -/
theorem Refines.matches
    (refines : Refines size state model) :
    Matches size state model.items := by
  obtain ⟨represents, inside⟩ := refines
  cases isCapacity : model.capacity with
  | none =>
      simp only [Represents, isCapacity] at represents
      obtain ⟨isNull, isEmpty⟩ := represents
      exact
        { size_eq := by
            rw [vecSize, ensures_bind, ensures_vecArr,
              if_neg (by simp [isNull]), ensures_pure, isEmpty]
            simp
          items_eq := by
            intro i below
            simp [isEmpty] at below
          bounds := fun notNull => absurd isNull notNull
          inside := inside }
  | some m =>
      simp only [Represents, isCapacity] at represents
      obtain ⟨block, has, holds⟩ := represents
      have bounded := holds.bounded
      exact
        { size_eq := by
            rw [vecSize, ensures_bind, ensures_vecArr,
              if_pos has.not_null,
              ensures_vecN has holds.header_le holds.count_eq]
            exact ⟨rfl, rfl⟩
          items_eq := by
            intro i below
            have isItem :=
              holds.items_eq i _ (List.getElem?_eq_getElem below)
            have inBounds :=
              holds.inBounds i (i + 1) (by omega) (by omega)
            rw [vecItem, ensures_bind, ensures_vecArr,
              has.ensures_load ((if_pos inBounds).trans isItem)]
            exact ⟨rfl, rfl⟩
          bounds := by
            intro _
            refine ⟨model.items.length, m, ?_, ?_, by omega, bounded⟩
            · rw [ensures_vecN has holds.header_le holds.count_eq]
            · rw [ensures_vecM has holds]
          inside := inside }

/-- A run starts with an empty list. -/
theorem ensures_start
    {start : VecStart}
    (reallocates : Reallocates size realloc)
    (noStores : state.stored = [])
    (allowed : start.Allowed size) :
    (start.program realloc overflow size).Ensures state fun done after =>
      Completes after done (Refines size after start.model) := by
  have inside : ∀ entry ∈ state.stored, entry.Inside := by
    simp [noStores]
  cases start with
  | null =>
      rw [VecStart.program, ensures_bind, setArr, ensures_updates]
      refine ⟨_, rfl, ?_⟩
      rw [ensures_pure]
      exact
        { represents := ⟨rfl, rfl⟩
          inside := inside }
  | init k =>
      exact ensures_vecInit reallocates allowed.1 allowed.2 inside

/-- Every operation does what the operation on lists does. -/
theorem ensures_op
    {op : VecOp γ}
    (reallocates : Reallocates size realloc)
    (refines : Refines size state model)
    (allowed : op.Allowed size model) :
    (op.program realloc overflow size).Ensures state fun done after =>
      Completes after done (Refines size after (op.apply model)) := by
  cases op with
  | push v =>
      exact ensures_vecPush v reallocates refines allowed
  | add values =>
      rw [VecOp.program, ensures_bind]
      refine
        (ensures_vecAdd values reallocates refines allowed).weaken ?_
      intro pointer after result
      cases pointer with
      | none =>
          rw [ensures_pure]
          exact result
      | some first =>
          obtain ⟨_, isFirst, stores⟩ := result
          cases isFirst
          rw [ensures_bind]
          refine stores.weaken ?_
          intro _ stored refinesStored
          rw [ensures_pure]
          exact refinesStored
  | pop =>
      rw [VecOp.program, ensures_bind]
      refine (ensures_vecPop refines allowed).weaken ?_
      intro _ after result
      rw [ensures_pure]
      exact result.2
  | erase i =>
      rw [VecOp.program, ensures_bind]
      refine (ensures_vecErase refines allowed).weaken ?_
      intro _ after result
      rw [ensures_pure]
      exact result

/-- A run keeps the relation between the vector and its list. -/
theorem ensures_runOps
    (ops : List (VecOp γ))
    (reallocates : Reallocates size realloc)
    (refines : Refines size state model)
    (allowed : model.Allows size ops) :
    (runOps realloc overflow size ops).Ensures state fun done after =>
      Completes after done (Refines size after (model.run ops)) := by
  induction ops generalizing state model with
  | nil =>
      rw [runOps, ensures_pure]
      exact refines
  | cons op ops inductionHypothesis =>
      rw [runOps, ensures_bind]
      refine (ensures_op reallocates refines allowed.1).weaken ?_
      intro done after result
      apply result.ensures_ite
      intro refinesNext
      exact inductionHypothesis refinesNext allowed.2

/-- A run relates the vector to the list at its end. -/
theorem ensures_vecRun
    {start : VecStart}
    (ops : List (VecOp γ))
    (reallocates : Reallocates size realloc)
    (noStores : state.stored = [])
    (startAllowed : start.Allowed size)
    (allowed : start.model.Allows size ops) :
    (vecRun realloc overflow size start ops).Ensures state
      fun done after =>
        Completes after done
          (Refines size after (start.model.run ops)) := by
  rw [vecRun, ensures_bind]
  refine (ensures_start reallocates noStores startAllowed).weaken ?_
  intro done after result
  apply result.ensures_ite
  intro refinesStart
  exact ensures_runOps ops reallocates refinesStart allowed

end Steps

/--
Growable vectors refine lists.  A run returns, and unless `realloc` fails the
vector has the elements of the list, its size is between zero and its capacity,
and every store to an element had an index below the capacity.
-/
theorem vectors_refine_lists
    {γ : Type}
    {realloc : Word → Word → Program (VecBlocks γ) Word}
    {overflow : Overflow}
    {size : Nat}
    {state : VecState γ}
    {start : VecStart}
    {ops : List (VecOp γ)}
    (reallocates : Reallocates size realloc)
    (noStores : state.stored = [])
    (startAllowed : start.Allowed size)
    (allowed : start.model.Allows size ops) :
    (vecRun realloc overflow size start ops).Ensures state
      fun done after =>
        Completes after done
          (Matches size after (start.model.run ops).items) := by
  refine (ensures_vecRun ops reallocates noStores startAllowed
    allowed).weaken ?_
  intro done after refines
  cases done with
  | false => exact refines
  | true => exact Refines.matches refines

section Samples

/-- A block of this many bytes with the contents of another one. -/
def copied
    (blocks : VecBlocks Nat)
    (ptr bytes : Word) :
    VecBlock Nat where
  bytes := bytes.toNat
  capacity := (blocks.cell ptr).bind VecBlock.capacity
  count := (blocks.cell ptr).bind VecBlock.count
  items index := (blocks.cell ptr).bind fun block => block.items index

/-- Put a copy of a block at an address. -/
def extended
    (blocks : VecBlocks Nat)
    (ptr p bytes : Word) :
    VecBlocks Nat where
  cell address :=
    if address = p ∧ p ≠ null then some (copied blocks ptr bytes)
    else blocks.cell address
  null_unmapped := by
    rw [if_neg (fun both => both.2 both.1.symm), blocks.null_unmapped]

/-- The copy is at its address. -/
theorem extended_cell
    (blocks : VecBlocks Nat)
    (ptr bytes : Word)
    {p : Word}
    (notNull : p ≠ null) :
    (extended blocks ptr p bytes).cell p =
      some (copied blocks ptr bytes) :=
  if_pos ⟨rfl, notNull⟩

/--
A `realloc` that extends a block where it is, and fails when it does not fit.
New blocks are at one fixed address.
-/
def sampleRealloc (ptr bytes : Word) : Program (VecBlocks Nat) Word :=
  let p := if ptr = null then 4096 else ptr
  if p.toNat + bytes.toNat < 2 ^ 64 then do
    updates fun blocks => some (extended blocks ptr p bytes)
    pure p
  else
    pure null

/-- The sample behaves as documented. -/
theorem sampleRealloc_reallocates :
    Reallocates 4 sampleRealloc where
  fresh := by
    intro blocks bytes
    rw [sampleRealloc, if_pos rfl]
    by_cases fits : (4096 : Word).toNat + bytes.toNat < 2 ^ 64
    · rw [if_pos fits, ensures_bind, ensures_updates]
      refine ⟨_, rfl, ?_⟩
      rw [ensures_pure]
      intro notNull
      exact ⟨fits, _, extended_cell blocks null bytes notNull, rfl⟩
    · rw [if_neg fits, ensures_pure]
      intro notNull
      exact absurd rfl notNull
  moved := by
    intro blocks ptr old bytes isOld _
    have notNull := Memory.ne_null isOld
    rw [sampleRealloc, if_neg notNull]
    by_cases fits : ptr.toNat + bytes.toNat < 2 ^ 64
    · rw [if_pos fits, ensures_bind, ensures_updates]
      refine ⟨_, rfl, ?_⟩
      rw [ensures_pure]
      intro _
      refine ⟨fits, _, extended_cell blocks ptr bytes notNull, rfl,
        ?_, ?_, ?_⟩
      · simp [copied, isOld]
      · simp [copied, isOld]
      · intro index _ _
        simp [copied, isOld]
    · rw [if_neg fits, ensures_pure]
      intro isNull
      exact absurd rfl isNull

/-- No block is allocated. -/
def sampleVector : VecState Nat where
  blocks := Memory.ofList []
  arr := null
  stored := []
  calls := []
  failed := false

/-- A run with every operation. -/
def sampleOps : List (VecOp Nat) :=
  [.push 1, .add [2, 3], .pop, .erase 0, .push 4]

/-- The vector of the sample run has the elements of the list. -/
theorem vectors_refine_lists_of_sample :
    (sampleOps.foldl VecOp.apply (VecStart.model (.init 0))).items =
        [2, 4] ∧
      (vecRun sampleRealloc .undefined 4 (.init 0) sampleOps).Ensures
        sampleVector fun _ after => Matches 4 after [2, 4] := by
  refine ⟨rfl, ?_⟩
  have startAllowed : (VecStart.init 0).Allowed 4 := by
    norm_num [VecStart.Allowed, WithinInt]
  have allowed :
      (VecStart.model (.init 0) : VecModel Nat).Allows 4 sampleOps := by
    norm_num [VecModel.Allows, sampleOps, VecStart.model, VecOp.Allowed,
      VecOp.apply, VecModel.grown, WithinInt]
    exact List.cons_ne_nil _ _
  have returns :
      (vecRun sampleRealloc .undefined 4 (.init 0) sampleOps).Ensures
        sampleVector fun done _ => done = true :=
    .of_exec 1 (by decide)
  refine
    ((vectors_refine_lists sampleRealloc_reallocates rfl startAllowed
      allowed).both returns.permits).weaken ?_
  intro done after result
  obtain ⟨completes, rfl⟩ := result
  exact completes

end Samples

end LibKern.Vec
