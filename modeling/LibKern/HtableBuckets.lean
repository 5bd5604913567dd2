import LibKern.HlistTraversal
import LibKern.HtableSource

namespace LibKern.Htables

/-!
# The bucket array

The buckets of a table are lists whose heads stand in an array.  The loops over
a table visit one bucket after the other.
-/

open Program Hlists SequenceMap Wiring

/-- The address of the head of a bucket. -/
def bucketAddress (bucks : Word) (index : Nat) : Word :=
  bucketAt bucks (BitVec.ofNat 64 index)

/-- Different buckets have different heads. -/
theorem bucketAddress_injOn
    {bucks : Word}
    {count : Nat}
    (bounded : count ≤ 2 ^ 31) :
    Set.InjOn (bucketAddress bucks) {index | index < count} := by
  intro one isOne other isOther same
  have isOne : one < count := isOne
  have isOther : other < count := isOther
  rw [bucketAddress, bucketAddress, bucketAt, bucketAt,
    BitVec.add_right_inj] at same
  have sameNumber := congrArg BitVec.toNat same
  simp only [BitVec.ofNat_eq_ofNat, BitVec.toNat_mul,
    BitVec.toNat_ofNat] at sameNumber
  omega

section Access

variable {memory : HtableMemory}
variable {table entry address value : Word}
variable {α : Type}

@[simp] theorem ensures_onLists
    {program : Program HlistMemory α}
    {post : α → HtableMemory → Prop} :
    (onLists program).Ensures memory post ↔
      program.Ensures memory.lists fun value after =>
        post value { memory with lists := after } :=
  ensures_zoom

@[simp] theorem ensures_onKeys
    {program : Program Jhash.ByteMemory α}
    {post : α → HtableMemory → Prop} :
    (onKeys program).Ensures memory post ↔
      program.Ensures memory.keys fun value after =>
        post value { memory with keys := after } :=
  ensures_zoom

theorem ensures_field
    {project : Htable → Word}
    {fields : Htable}
    {post : Word → HtableMemory → Prop}
    (atTable : memory.tables.cell table = some fields) :
    (field project table).Ensures memory post ↔
      post (project fields) memory := by
  rw [field, ensures_reads, atTable]
  simp

theorem ensures_setField
    {change : Htable → Htable}
    {fields : Htable}
    {post : Unit → HtableMemory → Prop}
    (atTable : memory.tables.cell table = some fields) :
    (setField table change).Ensures memory post ↔
      post () { memory with tables := memory.tables.modify table change } :=
    by
  rw [setField, ensures_updates, atTable]
  simp

theorem ensures_assertPointer
    {post : Unit → HtableMemory → Prop}
    (notNull : value ≠ null) :
    (assertPointer value).Ensures memory post ↔ post () memory := by
  rw [assertPointer, ensures_updates, if_neg notNull]
  simp

end Access

section Loops

variable {β : Type}
variable {memory : HtableMemory}
variable {table : Word}
variable {count : Nat}
variable {body : Word → β → Program HtableMemory β}
variable {start : β}

theorem signExtend_ofNat
    {index : Nat}
    (small : index < 2 ^ 31) :
    (BitVec.ofNat 32 index).signExtend 64 = BitVec.ofNat 64 index := by
  have isPositive : (BitVec.ofNat 32 index).msb = false := by
    rw [BitVec.msb_eq_false_iff_two_mul_lt, BitVec.toNat_ofNat]
    omega
  rw [BitVec.signExtend_eq_setWidth_of_msb_false isPositive]
  refine BitVec.eq_of_toNat_eq ?_
  rw [BitVec.toNat_setWidth, BitVec.toNat_ofNat, BitVec.toNat_ofNat]
  omega

/-- The invariant rule for a loop over the buckets. -/
theorem ensures_forEachBucket
    (invariant : Nat → β → HtableMemory → Prop)
    (bounded : count < 2 ^ 31)
    (isSize :
      ∀ index current memory, invariant index current memory →
        (memory.tables.cell table).map Htable.size =
          some (BitVec.ofNat 64 count))
    (step :
      ∀ index < count, ∀ current memory,
        invariant index current memory →
          (body (BitVec.ofNat 64 index) current).Ensures memory
            (invariant (index + 1)))
    (initially : invariant 0 start memory) :
    (forEachBucket table body start).Ensures memory (invariant count) := by
  rw [forEachBucket]
  have rounds
      (left index : Nat)
      (isLeft : index + left = count)
      (current : β)
      (memory : HtableMemory)
      (holds : invariant index current memory) :
      (loop (fun vars : BitVec 32 × β => do
        let size ← field Htable.size table
        if vars.1.signExtend 64 < size then do
          let current ← body (vars.1.signExtend 64) vars.2
          let i ← increment vars.1
          pure (.next (i, current))
        else
          pure (.done vars.2)) (BitVec.ofNat 32 index, current)).Ensures
        memory (invariant count) := by
    induction left generalizing index current memory with
    | zero =>
        obtain rfl : index = count := isLeft
        rw [ensures_loop, ensures_bind, field, ensures_reads,
          isSize index current memory holds]
        refine ⟨_, rfl, ?_⟩
        rw [signExtend_ofNat bounded, if_neg (BitVec.lt_irrefl _),
          ensures_pure]
        exact holds
    | succ left inductionHypothesis =>
        have below : index < count := by omega
        have isBelow :
            BitVec.ofNat 64 index < BitVec.ofNat 64 count := by
          rw [BitVec.lt_def, BitVec.toNat_ofNat, BitVec.toNat_ofNat]
          omega
        have notLast : BitVec.ofNat 32 index ≠ 0x7fffffff := by
          intro isLast
          have isNumber := congrArg BitVec.toNat isLast
          simp only [BitVec.ofNat_eq_ofNat, BitVec.toNat_ofNat] at isNumber
          omega
        rw [ensures_loop, ensures_bind, field, ensures_reads,
          isSize index current memory holds]
        refine ⟨_, rfl, ?_⟩
        rw [signExtend_ofNat (by omega), if_pos isBelow, ensures_bind]
        refine (step index below current memory holds).weaken ?_
        intro following after stepped
        rw [ensures_bind, increment, ensures_reads, if_neg notLast]
        refine ⟨_, rfl, ?_⟩
        rw [ensures_pure]
        have counted :=
          inductionHypothesis (index + 1) (by omega) following after stepped
        rw [BitVec.ofNat_add] at counted
        exact counted
  exact rounds count 0 (Nat.zero_add count) start memory initially

end Loops

/-- A table whose buckets hold these nodes. -/
structure Buckets
    (memory : HtableMemory)
    (table : Word)
    (fields : Htable)
    (contents : Nat → List Word) : Prop where
  atTable : memory.tables.cell table = some fields
  bounded : fields.size.toNat < 2 ^ 31
  held :
    Refines memory.lists
      (indexed fields.size.toNat (bucketAddress fields.bucks) contents)

section Buckets

variable {memory : HtableMemory}
variable {table node : Word}
variable {fields : Htable}
variable {contents : Nat → List Word}
variable {front back : List Word}
variable {index : Nat}

theorem Buckets.injOn
    (buckets : Buckets memory table fields contents) :
    Set.InjOn (bucketAddress fields.bucks)
      {index | index < fields.size.toNat} :=
  bucketAddress_injOn (Nat.le_of_lt buckets.bounded)

theorem Buckets.isList
    (buckets : Buckets memory table fields contents)
    (inside : index < fields.size.toNat) :
    indexed fields.size.toNat (bucketAddress fields.bucks) contents
        (bucketAddress fields.bucks index) =
      some (contents index) :=
  indexed_address buckets.injOn inside

theorem Buckets.hlist
    (buckets : Buckets memory table fields contents)
    (inside : index < fields.size.toNat) :
    Hlist memory.lists (bucketAddress fields.bucks index)
      (contents index) :=
  buckets.held.holds _ _ (buckets.isList inside)

/-- The first entry of a bucket. -/
theorem Buckets.looksUp_firstEntry
    (buckets : Buckets memory table fields contents)
    (inside : index < fields.size.toNat) :
    LooksUp (firstEntry table (BitVec.ofNat 64 index)) (contents index)
      null memory := by
  rw [LooksUp, firstEntry, ensures_bind,
    ensures_field buckets.atTable]
  rw [ensures_bind, ensures_onLists]
  refine (buckets.hlist inside).looksUp_first.ensures ?_
  exact ensures_pure.mpr ⟨BitVec.sub_zero _, rfl⟩

/-- The entry after an entry of a bucket. -/
theorem Buckets.looksUp_nextEntry
    (buckets : Buckets memory table fields contents)
    (inside : index < fields.size.toNat)
    (isBucket : contents index = front ++ node :: back) :
    LooksUp (nextEntry node) back null memory := by
  have hlist := buckets.hlist inside
  rw [isBucket] at hlist
  rw [LooksUp, nextEntry, nodeOf, nodeOffset, BitVec.ofNat_eq_ofNat,
    BitVec.add_zero, ensures_bind, ensures_onLists]
  refine hlist.looksUp_next.ensures ?_
  exact ensures_pure.mpr ⟨BitVec.sub_zero _, rfl⟩

/-- A list program that changes one bucket. -/
theorem Buckets.change
    {program : Program HlistMemory Unit}
    {nodes : List Word}
    (buckets : Buckets memory table fields contents)
    (inside : index < fields.size.toNat)
    (changes :
      program.Ensures memory.lists fun _ after =>
        Refines after
          ((indexed fields.size.toNat (bucketAddress fields.bucks)
            contents).set (bucketAddress fields.bucks index) nodes)) :
    (onLists program).Ensures memory fun _ after =>
      Buckets after table fields (Function.update contents index nodes) ∧
        after = { memory with lists := after.lists } := by
  rw [indexed_set buckets.injOn inside] at changes
  rw [ensures_onLists]
  refine changes.weaken ?_
  intro _ after refines
  exact ⟨⟨buckets.atTable, buckets.bounded, refines⟩, rfl⟩

/-- A list program that removes a node from its bucket. -/
theorem Buckets.remove
    {program : Program HlistMemory Unit}
    (buckets : Buckets memory table fields contents)
    (inside : index < fields.size.toNat)
    (isBucket : contents index = front ++ node :: back)
    (removes :
      program.Ensures memory.lists fun _ after =>
        Hlist after (bucketAddress fields.bucks index) (front ++ back) ∧
          Rewires memory.lists [bucketAddress fields.bucks index]
            (front ++ node :: back) after) :
    (onLists program).Ensures memory fun _ after =>
      Buckets after table fields
          (Function.update contents index (front ++ back)) ∧
        after = { memory with lists := after.lists } := by
  have isList := buckets.isList inside
  rw [isBucket] at isList
  have removed := buckets.held.remove isList removes
  rw [without, buckets.held.substituted_eq isList,
    List.nil_append] at removed
  exact buckets.change inside removed

/-- `htable_for_each` visits the buckets one after the other. -/
theorem Buckets.ensures_htableForEach
    (buckets : Buckets memory table fields contents) :
    (htableForEach table (fun pos visited => pure (visited ++ [pos]))
      []).Ensures memory fun visited after =>
        after = memory ∧
          visited = (List.range fields.size.toNat).flatMap contents := by
  rw [htableForEach]
  refine (ensures_forEachBucket (fun index visited after =>
    after = memory ∧ visited = (List.range index).flatMap contents)
    buckets.bounded ?_ ?_ ?_)
  · intro index visited after result
    rw [result.1, buckets.atTable, BitVec.ofNat_toNat,
      BitVec.setWidth_eq]
    rfl
  · intro index inside visited between result
    obtain ⟨rfl, rfl⟩ := result
    refine (ensures_each (fun rest visited after =>
      after = between ∧ ∃ front, contents index = front ++ rest ∧
        visited = (List.range index).flatMap contents ++ front)
      (by simp) ?_ (buckets.looksUp_firstEntry inside)
      ⟨rfl, [], rfl, by simp⟩).weaken ?_
    · intro pos rest visited after result
      obtain ⟨rfl, front, isBucket, rfl⟩ := result
      have hlist := buckets.hlist inside
      have notNull : pos ≠ null :=
        (hlist.allocated (by simp [isBucket])).ne_null
      refine ⟨by simpa using notNull, ensures_pure.mpr ⟨?_, rfl, ?_⟩⟩
      · exact buckets.looksUp_nextEntry inside isBucket
      · exact ⟨front ++ [pos], by simp [isBucket], by simp⟩
    · intro visited after result
      obtain ⟨rfl, front, isBucket, rfl⟩ := result
      rw [List.range_succ, List.flatMap_append, List.flatMap_singleton,
        isBucket, List.append_nil]
      exact ⟨rfl, rfl⟩
  · exact ⟨rfl, rfl⟩

end Buckets

end LibKern.Htables
