import LibKern.VecLists

namespace LibKern.Vec

/-!
# The calls of `realloc`

`__vec_growf` calls `realloc` once, for the block of the vector and the bytes
that it has computed.  All other macros of a vector only read and write its
block.
-/

open Program

section Accesses

variable {γ : Type} {size : Nat} {calls : List VecCall}

theorem preserves_toInt
    {σ : Type}
    {property : σ → Prop}
    (overflow : Overflow)
    (value : Int) :
    (overflow.toInt value : Program σ Int).Preserves property := by
  cases overflow with
  | undefined =>
      exact preserves_reads _
  | wraps =>
      exact preserves_pure _

theorem preserves_vecN
    {property : VecState γ → Prop} :
    (vecN : Program (VecState γ) Int).Preserves property :=
  .bind (preserves_reads _) fun _ => preserves_reads _

theorem preserves_vecM
    {property : VecState γ → Prop} :
    (vecM : Program (VecState γ) Int).Preserves property :=
  .bind (preserves_reads _) fun _ => preserves_reads _

theorem preserves_vecSize
    {property : VecState γ → Prop} :
    (vecSize : Program (VecState γ) Int).Preserves property :=
  .bind (preserves_reads _) fun _ =>
    .ite (fun _ => preserves_vecN) fun _ => preserves_pure _

/-- A store to a block is not a call of `realloc`. -/
theorem preserves_store
    (raw : Word)
    (allowed : VecBlock γ → Bool)
    (change : VecBlock γ → VecBlock γ)
    (indices : List Int) :
    (store raw allowed change indices).Preserves fun state =>
      state.calls = calls := by
  refine preserves_updates ?_
  intro state after same stored
  obtain ⟨block, -, stored⟩ := Option.bind_eq_some_iff.mp stored
  split at stored
  · cases stored
    exact same
  · cases stored

theorem preserves_setArr
    (arr : Word) :
    (setArr arr : Program (VecState γ) Unit).Preserves fun state =>
      state.calls = calls := by
  refine preserves_updates ?_
  rintro state _ same ⟨rfl⟩
  exact same

theorem preserves_setVecM
    (capacity : Int) :
    (setVecM capacity : Program (VecState γ) Unit).Preserves fun state =>
      state.calls = calls :=
  .bind (preserves_reads _) fun _ => preserves_store _ _ _ _

theorem preserves_setVecN
    (count : Int) :
    (setVecN count : Program (VecState γ) Unit).Preserves fun state =>
      state.calls = calls :=
  .bind (preserves_reads _) fun _ => preserves_store _ _ _ _

theorem preserves_setVecItem
    (index : Int)
    (value : γ) :
    (setVecItem size index value).Preserves fun state =>
      state.calls = calls :=
  .bind (preserves_reads _) fun _ => preserves_store _ _ _ _

theorem preserves_setVecItems
    (first : Int)
    (values : List γ) :
    (setVecItems size first values).Preserves fun state =>
      state.calls = calls := by
  induction values generalizing first with
  | nil =>
      exact preserves_pure _
  | cons value values inductionHypothesis =>
      exact (preserves_setVecItem first value).bind fun _ =>
        inductionHypothesis (first + 1)

theorem preserves_memmove
    (target source count : Int) :
    (memmove size target source count :
      Program (VecState γ) Unit).Preserves fun state =>
        state.calls = calls :=
  .bind (preserves_reads _) fun _ => preserves_store _ _ _ _

theorem preserves_vecPop
    {overflow : Overflow} :
    (vecPop overflow : Program (VecState γ) Int).Preserves fun state =>
      state.calls = calls := by
  refine .bind (preserves_reads _) fun _ =>
    .ite (fun _ => ?_) fun _ => preserves_pure _
  exact .bind preserves_vecN fun _ =>
    .bind (preserves_toInt _ _) fun _ =>
      .bind (preserves_setVecN _) fun _ => preserves_pure _

theorem preserves_vecErase
    {overflow : Overflow}
    (i : Int) :
    (vecErase overflow size i : Program (VecState γ) Unit).Preserves
      fun state => state.calls = calls := by
  refine .bind (preserves_reads _) fun _ =>
    .ite (fun _ => ?_) fun _ => preserves_pure _
  exact .bind preserves_vecN fun _ =>
    .bind (preserves_toInt _ _) fun _ =>
      .bind (preserves_setVecN _) fun _ =>
        .bind (preserves_toInt _ _) fun _ =>
          .bind (preserves_toInt _ _) fun _ => preserves_memmove _ _ _

end Accesses

section Growth

variable {γ : Type}
  {realloc : Word → Word → Program (VecBlocks γ) Word}
  {overflow : Overflow} {size : Nat} {state : VecState γ}

/-- The block that `__vec_growf` passes to `realloc`. -/
def growPtr (arr : Word) : Word :=
  if arr ≠ null then vecRaw arr else null

/-- A call of `realloc` is recorded. -/
theorem permits_callRealloc
    {ptr bytes : Word} :
    (callRealloc realloc ptr bytes).Permits state fun _ after =>
      after.calls =
        state.calls ++ [⟨ptr, bytes, elementsAt state.blocks ptr⟩] := by
  rw [callRealloc, permits_bind, permits_updates]
  rintro _ ⟨rfl⟩
  refine Preserves.bind ?_ (fun p => ?_) _ ?_
  · refine preserves_zoom ?_ _
    intro _ _ same
    exact same
  · refine Preserves.bind (.onlyIf fun _ => preserves_updates ?_)
      fun _ => preserves_pure _
    rintro _ _ same ⟨rfl⟩
    exact same
  · rfl

theorem permits_growTo
    {arr bytes : Word}
    {m : Int} :
    (growTo realloc arr m bytes).Permits state fun _ after =>
      after.calls =
        state.calls ++
          [⟨growPtr arr, bytes, elementsAt state.blocks (growPtr arr)⟩] := by
  rw [growTo, permits_bind]
  refine permits_callRealloc.weaken ?_
  intro p called recorded
  refine Preserves.ite (fun _ => preserves_pure _) (fun _ => ?_) called
    recorded
  exact .bind (.onlyIf fun _ => preserves_store _ _ _ _) fun _ =>
    .bind (preserves_setArr _) fun _ =>
      .bind (preserves_setVecM _) fun _ => preserves_pure _

theorem preserves_vecNextM
    {property : VecState γ → Prop}
    (arr : Word)
    (n : Int) :
    (vecNextM overflow arr n).Preserves property :=
  .ite
    (fun _ => .bind preserves_vecM fun _ =>
      .bind (preserves_toInt _ _) fun _ => preserves_toInt _ _)
    fun _ => preserves_toInt _ _

/-- `__vec_growf` calls `realloc` once, for the bytes of the new capacity. -/
theorem permits_vecGrowf
    {n : Int} :
    (vecGrowf realloc overflow size n).Permits state fun _ after =>
      ∃ m length,
        (vecNextM overflow state.arr n).Returns state m state ∧
          (overflow.toInt (size * m)).Returns state length state ∧
          after.calls =
            state.calls ++
              [⟨growPtr state.arr, BitVec.ofInt 64 length + 8,
                elementsAt state.blocks (growPtr state.arr)⟩] := by
  rw [vecGrowf_eq, permits_bind, vecArr, permits_reads]
  rintro _ ⟨rfl⟩
  have keepsState :
      (vecNextM overflow state.arr n).Preserves (· = state) :=
    preserves_vecNextM _ _
  rw [permits_bind]
  intro m between next
  obtain rfl := keepsState _ rfl _ _ next
  have keepsBetween :
      (overflow.toInt (size * m)).Preserves (· = between) :=
    preserves_toInt _ _
  rw [permits_bind]
  intro length computed product
  obtain rfl := keepsBetween _ rfl _ _ product
  refine permits_growTo.weaken ?_
  intro _ after recorded
  exact ⟨m, length, next, product, recorded⟩

end Growth

end LibKern.Vec
