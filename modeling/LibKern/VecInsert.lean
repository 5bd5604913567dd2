import LibKern.VecRuns

namespace LibKern.Vec

/-!
# Inserting into a vector

`vec_insert` moves the elements from an index on one place to the back, but it
stores the new element behind all others.  So the element at the index is there
twice, the last one is lost, and the result only is right at the end of the
vector, or if both of these elements happen to be equal to the new one.
-/

open Program

section Lists

variable {γ : Type} {items : List γ} {i : Nat} {v : γ}

/-- The elements after `vec_insert(a, i, v)`. -/
def misplaced (items : List γ) (i : Nat) (v : γ) : List γ :=
  items.take (i + 1) ++ (items.drop i).dropLast ++ [v]

/-- The elements that `vec_insert(a, i, v)` should leave. -/
def inserted (items : List γ) (i : Nat) (v : γ) : List γ :=
  items.take i ++ v :: items.drop i

/--
The index is the end of the vector, or the elements at the index and at the end
are equal to the new one.
-/
def Insertable (items : List γ) (i : Nat) (v : γ) : Prop :=
  i = items.length ∨
    items[i]? = some v ∧ items.getLast? = some v

/-- Replacing the last element by itself. -/
theorem dropLast_append_eq_iff :
    items.dropLast ++ [v] = items ↔ items.getLast? = some v := by
  rw [List.getLast?_eq_some_iff]
  constructor
  · intro same
    exact ⟨items.dropLast, same.symm⟩
  · intro isLast
    obtain ⟨front, rfl⟩ := isLast
    rw [List.dropLast_concat]

/-- When the result of `vec_insert` is right. -/
theorem misplaced_eq_inserted_iff (atMost : i ≤ items.length) :
    misplaced items i v = inserted items i v ↔ Insertable items i v := by
  have isHead : items[i]? = (items.drop i).head? := by
    rw [List.head?_drop]
  rw [misplaced, inserted, Insertable, List.take_add_one, isHead,
    List.append_assoc, List.append_assoc, List.append_cancel_left_eq]
  cases isMoved : items.drop i with
  | nil =>
      have isEnd : i = items.length := by
        rw [List.drop_eq_nil_iff] at isMoved
        omega
      simp [isEnd]
  | cons moved rest =>
      have below : i < items.length := by
        have length := congrArg List.length isMoved
        rw [List.length_drop, List.length_cons] at length
        omega
      have isLast : items.getLast? = (moved :: rest).getLast? := by
        rw [← isMoved, List.getLast?_drop, if_neg (by omega)]
      rw [or_iff_right (by omega), isLast, ← dropLast_append_eq_iff,
        List.head?_cons, Option.toList_some, List.singleton_append,
        List.cons.injEq, Option.some.injEq]

/-- The number of elements grows by one. -/
theorem length_misplaced (atMost : i ≤ items.length) :
    (misplaced items i v).length = items.length + 1 := by
  rw [misplaced, List.length_append, List.length_append, List.length_take,
    List.length_dropLast, List.length_drop, List.length_singleton]
  omega

/-- Erasing the inserted element restores the vector. -/
theorem eraseIdx_inserted (atMost : i ≤ items.length) :
    (inserted items i v).eraseIdx i = items := by
  have isLength : (items.take i).length = i := by
    rw [List.length_take]
    omega
  rw [inserted, List.eraseIdx_append_of_length_le (by omega), isLength,
    Nat.sub_self, List.eraseIdx_zero, List.tail_cons,
    List.take_append_drop]

/-- The elements of the result, place by place. -/
theorem getElem?_misplaced
    {index : Nat}
    (atMost : i ≤ items.length)
    (below : index < items.length) :
    (misplaced items i v)[index]? =
      if i < index then items[index - 1]? else items[index]? := by
  have front : (items.take (i + 1)).length = min (i + 1) items.length :=
    List.length_take
  have middle : (items.drop i).dropLast.length = items.length - i - 1 := by
    rw [List.length_dropLast, List.length_drop]
  rw [misplaced, List.getElem?_append_left (by
    rw [List.length_append]
    omega)]
  split
  · rename_i behind
    rw [List.getElem?_append_right (by omega), List.getElem?_dropLast,
      if_pos (by rw [List.length_drop]; omega), List.getElem?_drop]
    congr 1
    omega
  · rename_i notBehind
    rw [List.getElem?_append_left (by omega),
      List.getElem?_take_of_lt (by omega)]

end Lists

section Insert

variable {γ : Type}
  {realloc : Word → Word → Program (VecBlocks γ) Word}
  {overflow : Overflow} {size : Nat} {state : VecState γ}
  {block : VecBlock γ} {items : List γ} {capacity : Int}

/-- The elements from an index on are moved, and one is stored at the end. -/
theorem Holds.insert
    {i : Nat}
    (v : γ)
    (holds : Holds size block items capacity)
    (atMost : i ≤ items.length)
    (room : (items.length : Int) + 1 ≤ capacity) :
    Holds size
      { block with
        count := some ((items.length : Int) + 1)
        items :=
          Function.update
            (fun index =>
              if (i : Int) + 1 ≤ index ∧
                  index < i + 1 + ((items.length : Int) - i) then
                block.items (index - (i + 1) + i)
              else block.items index)
            items.length (some v) }
      (misplaced items i v) capacity where
  capacity_eq := holds.capacity_eq
  count_eq := by
    rw [length_misplaced atMost]
    rfl
  bounded := by
    rw [length_misplaced atMost]
    omega
  within := holds.within
  bytes_eq := holds.bytes_eq
  items_eq := by
    intro index value isItem
    have inside : index < (misplaced items i v).length :=
      (List.getElem?_eq_some_iff.mp isItem).1
    rw [length_misplaced atMost] at inside
    dsimp only
    rcases Nat.lt_or_eq_of_le (Nat.le_of_lt_succ inside) with below | isEnd
    · rw [getElem?_misplaced atMost below] at isItem
      rw [Function.update_of_ne (by omega)]
      split at isItem
      · rename_i behind
        have moved : (index : Int) - (i + 1) + i = (index - 1 : Nat) := by
          omega
        rw [if_pos (by omega), moved]
        exact holds.items_eq (index - 1) value isItem
      · rename_i notBehind
        rw [if_neg (by omega)]
        exact holds.items_eq index value isItem
    · subst isEnd
      have front :
          (items.take (i + 1) ++ (items.drop i).dropLast).length =
            items.length := by
        have total := length_misplaced (v := v) atMost
        rw [misplaced, List.length_append, List.length_singleton] at total
        omega
      rw [misplaced, List.getElem?_append_right (by omega), front,
        Nat.sub_self] at isItem
      rw [Function.update_self]
      exact isItem

/-- `vec_insert(a, i, v)` leaves the elements in this order. -/
theorem ensures_vecInsert
    {model : VecModel γ}
    {i : Nat}
    (v : γ)
    (reallocates : Reallocates size realloc)
    (refines : Refines size state model)
    (atMost : i ≤ model.items.length)
    (within : WithinInt size (model.grown 1)) :
    (vecInsert realloc overflow size i v).Ensures state fun done after =>
      Completes after done
        (Refines size after
          ⟨misplaced model.items i v, some (model.grown 1)⟩) := by
  have room := refines.represents.room 1
  rw [vecInsert, ensures_bind]
  refine
    (ensures_vecMaybegrow reallocates refines.represents (by omega)
      within).weaken ?_
  intro done after grown
  apply grown.ensures_ite
  intro holdsBlock
  obtain ⟨block, has, holds⟩ := holdsBlock
  have overflowFree := within.1
  rw [ensures_bind, ensures_vecN has holds.header_le holds.count_eq,
    ensures_bind, ensures_toInt (by omega) (by omega), vecRshift,
    ensures_bind, ensures_bind, ensures_toInt (by omega) (by omega)]
  refine
    (ensures_memmove has (by omega)
      (holds.inBounds _ _ (by omega) (by omega))
      (holds.inBounds _ _ (by omega) (by omega))).weaken ?_
  intro _ moved hasMoved
  rw [ensures_bind, ensures_vecN hasMoved holds.header_le holds.count_eq,
    ensures_bind, ensures_toInt (by omega) (by omega), ensures_bind]
  refine (ensures_setVecN _ hasMoved holds.header_le).weaken ?_
  intro _ counted hasCounted
  rw [ensures_bind]
  refine
    (ensures_setVecItem v hasCounted
      (holds.inBounds _ _ (by omega) room)).weaken ?_
  intro _ stored hasStored
  rw [ensures_pure]
  apply hasStored.refines (holds.insert v atMost room)
  apply inside_append
  · apply inside_append refines.inside
    intro entry isEntry
    simp only [List.map_map, List.mem_map, List.mem_range,
      Function.comp_apply] at isEntry
    obtain ⟨offset, isOffset, rfl⟩ := isEntry
    exact holds.inside (by omega) (by omega)
  · intro entry isEntry
    rw [List.mem_singleton.mp isEntry]
    exact holds.inside (by omega) (by omega)

/-- The elements of a vector are determined. -/
theorem Matches.unique
    {others : List γ}
    (isItems : Matches size state items)
    (isOthers : Matches size state others) :
    items = others := by
  obtain ⟨count, after, returned, isCount, -⟩ := isItems.size_eq
  have otherCount := (isOthers.size_eq.of_returns returned).1
  have sameLength : items.length = others.length := by
    omega
  apply List.ext_getElem sameLength
  intro index below otherBelow
  obtain ⟨value, after, found, isValue, -⟩ :=
    isItems.items_eq index below
  have otherValue :=
    ((isOthers.items_eq index otherBelow).of_returns found).1
  rw [← isValue, otherValue]

/--
The new element is at its index between the old ones, and erasing it restores the
vector.
-/
def Inserted
    (overflow : Overflow)
    (size : Nat)
    (after : VecState γ)
    (items : List γ)
    (i : Nat)
    (v : γ) : Prop :=
  Matches size after (inserted items i v) ∧
    (vecErase overflow size i).Ensures after fun _ restored =>
      Matches size restored items

/-- When the state after `vec_insert` is right. -/
theorem Refines.inserted_iff
    {model : VecModel γ}
    {i : Nat}
    {v : γ}
    {grown : Option Int}
    (refines : Refines size state ⟨misplaced model.items i v, grown⟩)
    (atMost : i ≤ model.items.length) :
    Inserted overflow size state model.items i v ↔
      Insertable model.items i v := by
  rw [← misplaced_eq_inserted_iff atMost]
  constructor
  · intro isInserted
    exact refines.matches.unique isInserted.1
  · intro same
    rw [same] at refines
    have below : i < (inserted model.items i v).length := by
      rw [← same, length_misplaced atMost]
      omega
    refine ⟨refines.matches, ?_⟩
    refine (ensures_vecErase refines below).weaken ?_
    intro _ restored refinesRestored
    have isRestored := refinesRestored.matches
    rwa [eraseIdx_inserted atMost] at isRestored

end Insert

section Undefined

variable {γ : Type}
  {realloc : Word → Word → Program (VecBlocks γ) Word}
  {size : Nat} {state : VecState γ} {model : VecModel γ} {n : Int}
  {post : Bool → VecState γ → Prop}

/-- A value that is not within `int` is undefined. -/
theorem ensures_toInt_undefined
    {σ : Type}
    {current : σ}
    {value : Int}
    {result : Int → σ → Prop} :
    (Overflow.undefined.toInt value : Program σ Int).Ensures current
        result ↔
      (-2 ^ 31 ≤ value ∧ value < 2 ^ 31) ∧ result value current := by
  rw [Overflow.toInt, ensures_reads]
  by_cases within : -2 ^ 31 ≤ value ∧ value < 2 ^ 31
  · rw [if_pos within, and_iff_right within]
    simp only [Option.some.injEq, exists_eq_left']
  · rw [if_neg within]
    constructor
    · intro isValue
      obtain ⟨found, isNone, -⟩ := isValue
      cases isNone
    · intro isValue
      exact absurd isValue.1 within

/-- A first growth is undefined unless the capacity is within `int`. -/
theorem within_of_vecGrowf_null
    (isNull : state.arr = null)
    (ensured : (vecGrowf realloc .undefined size n).Ensures state post) :
    WithinInt size (n + 1) := by
  rw [vecGrowf, ensures_bind, ensures_vecArr, ensures_bind, vecNextM,
    if_neg (by simp [isNull]), ensures_toInt_undefined, ensures_bind,
    ensures_toInt_undefined] at ensured
  exact ⟨ensured.1.2, ensured.2.1.2⟩

/-- A further growth is undefined unless the capacity is within `int`. -/
theorem within_of_vecGrowf_has
    {block : VecBlock γ}
    {stored : List VecStore}
    {capacity : Int}
    (has : Has state block stored)
    (header : 8 ≤ block.bytes)
    (isCapacity : block.capacity = some capacity)
    (ensured : (vecGrowf realloc .undefined size n).Ensures state post) :
    WithinInt size (2 * capacity + n) := by
  rw [vecGrowf, ensures_bind, ensures_vecArr, ensures_bind, vecNextM,
    if_pos has.not_null, ensures_bind,
    has.ensures_vecM header isCapacity, ensures_bind,
    ensures_toInt_undefined, ensures_toInt_undefined, ensures_bind,
    ensures_toInt_undefined] at ensured
  exact ⟨ensured.2.1.2, ensured.2.2.1.2⟩

/-- `__vec_maybegrow` is undefined unless the capacity is within `int`. -/
theorem within_of_vecMaybegrow
    (represents : Represents size state model)
    (ensured :
      (vecMaybegrow realloc .undefined size n).Ensures state post) :
    WithinInt size (model.grown n) := by
  rw [vecMaybegrow, ensures_bind, vecNeedgrow, ensures_bind,
    ensures_vecArr] at ensured
  cases isCapacity : model.capacity with
  | none =>
      simp only [Represents, isCapacity] at represents
      simp only [VecModel.grown, isCapacity]
      rw [if_pos represents.1, ensures_pure, if_pos rfl, vecGrow]
        at ensured
      exact within_of_vecGrowf_null represents.1 ensured
  | some m =>
      simp only [Represents, isCapacity] at represents
      simp only [VecModel.grown, isCapacity]
      obtain ⟨block, has, holds⟩ := represents
      rw [if_neg has.not_null, ensures_bind,
        ensures_vecN has holds.header_le holds.count_eq, ensures_bind,
        ensures_toInt_undefined, ensures_bind, ensures_vecM has holds,
        ensures_pure] at ensured
      by_cases grows : m ≤ model.items.length + n
      · rw [if_pos (decide_eq_true grows), vecGrow] at ensured
        rw [if_pos grows]
        exact within_of_vecGrowf_has has holds.header_le
          holds.capacity_eq ensured.2
      · rw [if_neg grows]
        exact holds.within

end Undefined

/--
`vec_insert` inserts at its index exactly if the index is the end of the vector,
or if the elements at the index and at the end are equal to the new one.  This is
so whenever the new capacity is within `int`, without which the macro is
undefined.
-/
theorem vecInsert_inserts_iff
    {γ : Type}
    {realloc : Word → Word → Program (VecBlocks γ) Word}
    {overflow : Overflow}
    {size : Nat}
    {state : VecState γ}
    {model : VecModel γ}
    {i : Nat}
    {v : γ}
    (reallocates : Reallocates size realloc)
    (refines : Refines size state model)
    (atMost : i ≤ model.items.length) :
    (WithinInt size (model.grown 1) →
      (vecInsert realloc overflow size i v).Ensures state
        fun done after =>
          Completes after done
            (Inserted overflow size after model.items i v ↔
              Insertable model.items i v)) ∧
      ∀ post,
        (vecInsert realloc .undefined size i v).Ensures state post →
        WithinInt size (model.grown 1) := by
  constructor
  · intro within
    refine
      (ensures_vecInsert v reallocates refines atMost within).weaken ?_
    intro done after result
    cases done with
    | false =>
        exact result
    | true =>
        have refinesAfter :
            Refines size after
              ⟨misplaced model.items i v, some (model.grown 1)⟩ := result
        exact refinesAfter.inserted_iff atMost
  · intro post ensured
    rw [vecInsert, ensures_bind] at ensured
    exact within_of_vecMaybegrow refines.represents ensured

section Samples

/-- A vector with two elements, into which one is inserted. -/
def insertInto (first second i v : Nat) :
    Program (VecState Nat) Bool := do
  let _ ←
    vecRun sampleRealloc .undefined 4 .null [.push first, .push second]
  vecInsert sampleRealloc .undefined 4 i v

/-- The vector with two elements has room for five. -/
theorem ensures_twoPushed (first second : Nat) :
    (vecRun sampleRealloc .undefined 4 .null
      [.push first, .push second]).Ensures sampleVector fun done after =>
        Completes after done
          (Refines 4 after ⟨[first, second], some 5⟩) := by
  have allowed :
      (VecStart.model .null : VecModel Nat).Allows 4
        [.push first, .push second] := by
    norm_num [VecModel.Allows, VecStart.model, VecOp.Allowed,
      VecOp.apply, VecModel.grown, WithinInt]
  exact ensures_vecRun _ sampleRealloc_reallocates rfl trivial allowed

/--
Inserting 9 in front of 9 and 9 is right, and so is inserting 9 behind 1 and 2.
-/
theorem vecInsert_inserts_iff_of_sample :
    (insertInto 9 9 0 9).Ensures sampleVector (fun done after =>
      done = true ∧ Inserted .undefined 4 after [9, 9] 0 9) ∧
      (insertInto 1 2 2 9).Ensures sampleVector fun done after =>
        done = true ∧ Inserted .undefined 4 after [1, 2] 2 9 := by
  have inserts
      {first second i v : Nat}
      (atMost : i ≤ 2)
      (insertable : Insertable [first, second] i v)
      (pushes :
        (vecRun sampleRealloc .undefined 4 .null
          [.push first, .push second]).Ensures sampleVector
            fun done _ => done = true)
      (returns :
        (insertInto first second i v).Ensures sampleVector
          fun done _ => done = true) :
      (insertInto first second i v).Ensures sampleVector fun done after =>
        done = true ∧
          Inserted .undefined 4 after [first, second] i v := by
    rw [insertInto, ensures_bind] at returns ⊢
    obtain ⟨_, pushed, ran, completes, rfl⟩ :=
      (ensures_twoPushed first second).both pushes.permits
    rw [ran.ensures_iff] at returns ⊢
    have refines : Refines 4 pushed ⟨[first, second], some 5⟩ := completes
    refine
      (((vecInsert_inserts_iff sampleRealloc_reallocates refines atMost).1
        (by norm_num [WithinInt, VecModel.grown])).both
          returns.permits).weaken ?_
    rintro _ after ⟨result, rfl⟩
    exact ⟨rfl, Iff.mpr result insertable⟩
  exact ⟨inserts (by decide) (.inr ⟨rfl, rfl⟩) (.of_exec 1 (by decide))
      (.of_exec 1 (by decide)),
    inserts (by decide) (.inl rfl) (.of_exec 1 (by decide))
      (.of_exec 1 (by decide))⟩

/-- A vector with the elements 1 and 2, into which 9 is inserted in front. -/
def insertInFront : Program (VecState Nat) Bool :=
  insertInto 1 2 0 9

/-- Inserting 9 in front of 1 and 2 does not insert it there. -/
theorem vecInsert_misplaces :
    ¬insertInFront.Ensures sampleVector fun done after =>
      Completes after done (Inserted .undefined 4 after [1, 2] 0 9) := by
  intro ensured
  have returns :
      insertInFront.Ensures sampleVector fun done _ => done = true :=
    .of_exec 1 (by decide)
  have isFirst :
      (insertInFront >>= fun _ => vecItem 4 0).Ensures sampleVector
        fun value _ => value = 1 :=
    .of_exec 1 (by decide)
  obtain ⟨done, after, returned, completes, rfl⟩ :=
    ensured.both returns.permits
  rw [ensures_bind, returned.ensures_iff] at isFirst
  have isInserted : Inserted .undefined 4 after [1, 2] 0 9 := completes
  have isNine := isInserted.1.items_eq 0 (by decide)
  obtain ⟨value, final, found, rfl⟩ := isFirst
  have different := (isNine.of_returns found).1
  exact absurd different (by decide)

end Samples

end LibKern.Vec
