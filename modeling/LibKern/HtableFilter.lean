import LibKern.HtableEntries

namespace LibKern.Htables

/-!
# The bit vector is the history of a table

`htable_add` sets the bit of its key and nothing clears it.  After any run the
bit of a key is set exactly if some key with the same lowest bits of the hash
was added, deleted or not.  `htable_find` visits a bucket for these keys only,
and always returns what a search without the bit vector returns.
-/

open Program Hlists Jhash SequenceMap KeyedStacks

/-- The bit of a key. -/
def filterIndex (bytes : List Byte) : BitVec 32 :=
  bloomIndex (keyHash bytes)

/-- `htable_find` without the test of the bit vector. -/
def searchBucket (h key len : Word) : Program HtableMemory Word := do
  let hash ← onKeys (jhash key (len.setWidth 32) 0)
  let size ← field Htable.size h
  let buck := htableWhichBucket size hash
  let bucks ← field Htable.bucks h
  let n ← onLists (first (bucketAt bucks (buck.setWidth 64)))
  findFrom key len n

/-- The memory without the buckets and the entries. -/
def withoutBuckets (memory : HtableMemory) : HtableMemory :=
  { memory with
    lists := ⟨.ofList [], .ofList []⟩
    entries := .ofList [] }

/--
The states that are reached, with the live entries and with the keys of all
entries that were added, the last one first.
-/
inductive FilterReach (table : Word) :
    HtableMemory → LiveEntries → List (List Byte) → Prop where
  | init
      {memory after : HtableMemory}
      {bucks bitvect : Word}
      (provided : Provided memory table bucks hashNumBuckets bitvect)
      (returned :
        (htableInit table bucks bitvect).Returns memory 0 after) :
      FilterReach table after [] []
  | initN
      {memory after : HtableMemory}
      {n bucks bitvect : Word}
      (bounded : n.toNat ≤ 2 ^ 31 - 1)
      (provided : Provided memory table bucks (sizeFor n) bitvect)
      (returned :
        (htableInitN table n bucks bitvect).Returns memory 0 after) :
      FilterReach table after [] []
  | elsewhere
      {memory after : HtableMemory}
      {live : LiveEntries}
      {added : List (List Byte)}
      (reached : FilterReach table memory live added)
      (untouched : Untouched memory table live after) :
      FilterReach table after live added
  | add
      {memory after : HtableMemory}
      {live : LiveEntries}
      {added : List (List Byte)}
      {entry key len : Word}
      {bytes : List Byte}
      (reached : FilterReach table memory live added)
      (addable : Addable memory live entry)
      (keyOf : KeyOf memory.keys key len bytes)
      (returned : (htableAdd table entry key len).Returns memory () after) :
      FilterReach table after (live.push bytes entry) (bytes :: added)
  | find
      {memory after : HtableMemory}
      {live : LiveEntries}
      {added : List (List Byte)}
      {entry key len : Word}
      {bytes : List Byte}
      (reached : FilterReach table memory live added)
      (keyOf : KeyOf memory.keys key len bytes)
      (returned : (htableFind table key len).Returns memory entry after) :
      FilterReach table after live added
  | delKey
      {memory after : HtableMemory}
      {live : LiveEntries}
      {added : List (List Byte)}
      {entry key len : Word}
      {bytes : List Byte}
      (reached : FilterReach table memory live added)
      (keyOf : KeyOf memory.keys key len bytes)
      (returned : (htableDelKey table key len).Returns memory entry after) :
      FilterReach table after (live.pop bytes) added
  | delEntry
      {memory after : HtableMemory}
      {live : LiveEntries}
      {added : List (List Byte)}
      {one : Keyed (List Byte) Word}
      {entry : Word}
      (reached : FilterReach table memory live added)
      (isLive : one ∈ live)
      (returned :
        (htableDelEntry table one.item).Returns memory entry after) :
      FilterReach table after (live.pop one.key) added

section Bits

variable {memory : HtableMemory}
variable {bitvect table : Word}
variable {fields : Htable}

/-- The bytes of a bit vector are apart. -/
theorem bloomBytes_injective
    {one other : Nat}
    (below : one < bloomBytes)
    (otherBelow : other < bloomBytes)
    (same :
      bitvect + BitVec.ofNat 64 one = bitvect + BitVec.ofNat 64 other) :
    one = other := by
  have isSame := congrArg BitVec.toNat ((BitVec.add_right_inj _).mp same)
  have isBytes : bloomBytes = 32 := rfl
  simp only [BitVec.toNat_ofNat] at isSame
  omega

/-- Two bits with the same byte and the same place in it. -/
theorem bloomIndex_eq_of_byte
    {hash other : BitVec 32}
    (sameByte :
      bloomByte bitvect (bloomIndex hash) =
        bloomByte bitvect (bloomIndex other))
    (samePlace :
      (bloomIndex hash).toNat % 8 = (bloomIndex other).toNat % 8) :
    bloomIndex hash = bloomIndex other := by
  have isByte :=
    bloomBytes_injective (bloomIndex_div_lt hash)
      (bloomIndex_div_lt other) sameByte
  have divided := Nat.div_add_mod (bloomIndex hash).toNat 8
  have otherDivided := Nat.div_add_mod (bloomIndex other).toNat 8
  apply BitVec.eq_of_toNat_eq
  rw [← divided, ← otherDivided, samePlace]
  exact congrArg (8 * · + _) isByte

/-- `bloom_set` sets the bit of a hash and no other. -/
theorem BloomMapped.ensures_bloomSet_exact
    (mapped : BloomMapped memory.bits bitvect)
    (hash : BitVec 32) :
    (bloomSet bitvect hash).Ensures memory fun _ after =>
      after.tables = memory.tables ∧
        ∀ other, Passes after.bits bitvect other ↔
          Passes memory.bits bitvect other ∨
            bloomIndex other = bloomIndex hash := by
  obtain ⟨byte, isByte⟩ := mapped.exists_byte hash
  rw [bloomSet, ensures_bind, loadBits, ensures_reads]
  refine ⟨byte, isByte, ?_⟩
  rw [storeBits, ensures_updates, isByte]
  refine ⟨_, rfl, rfl, ?_⟩
  intro other
  by_cases same :
      bloomByte bitvect (bloomIndex other) =
        bloomByte bitvect (bloomIndex hash)
  · have small : (bloomIndex other).toNat % 8 < 8 :=
      Nat.mod_lt _ (by decide)
    simp only [Passes, same, Memory.modify_cell_same, isByte,
      Option.map_some, Option.some.injEq, exists_eq_left',
      and_bloomMask_ne_zero_iff, getLsbD_setBit small]
    refine or_congr_right ⟨bloomIndex_eq_of_byte same, ?_⟩
    intro isSame
    rw [isSame]
  · have different : bloomIndex other ≠ bloomIndex hash := by
      intro isSame
      exact same (congrArg _ isSame)
    simp only [Passes, Memory.modify_cell_of_ne _ _ same, different,
      or_false]

/-- `bloom_init` leaves no bit set. -/
theorem permits_bloomInit :
    (bloomInit table bitvect).Permits memory fun _ after =>
      (after.tables.cell table).map Htable.bitvect = some bitvect ∧
        ∀ hash, ¬Passes after.bits bitvect hash := by
  rw [bloomInit, permits_bind, setField, permits_updates]
  intro between stored
  obtain ⟨fields, atTable, rfl⟩ := Option.map_eq_some_iff.mp stored
  rw [permits_bind, assertPointer, permits_updates]
  intro checked isChecked
  obtain ⟨-, isSame⟩ := Option.ite_none_left_eq_some.mp isChecked
  cases isSame
  refine Permits.weaken (permits_countUp
    (fun count (after : HtableMemory) =>
      (after.tables.cell table).map Htable.bitvect = some bitvect ∧
        ∀ index < count,
          after.bits.cell (bitvect + BitVec.ofNat 64 index) = some 0)
    ?_ ?_) ?_
  · refine ⟨?_, by simp⟩
    rw [modify_cell_table atTable]
    rfl
  · intro index inside before result
    obtain ⟨isTable, cleared⟩ := result
    rw [storeBits, permits_updates]
    intro after written
    obtain ⟨byte, isByte, rfl⟩ := Option.map_eq_some_iff.mp written
    refine ⟨isTable, ?_⟩
    intro earlier notLater
    by_cases isLast : earlier = index
    · rw [isLast, Memory.modify_cell_same, isByte]
      rfl
    · have different :
          bitvect + BitVec.ofNat 64 earlier ≠
            bitvect + BitVec.ofNat 64 index := by
        intro same
        exact isLast (bloomBytes_injective (by omega) inside same)
      rw [Memory.modify_cell_of_ne _ _ different]
      exact cleared earlier (by omega)
  · intro _ after result
    obtain ⟨isTable, cleared⟩ := result
    refine ⟨isTable, ?_⟩
    rintro hash ⟨byte, isByte, isSet⟩
    rw [bloomByte, cleared _ (bloomIndex_div_lt hash)] at isByte
    cases isByte
    simp at isSet

/-- No bit is set after the initialisation of a table. -/
theorem permits_htableInitSize
    {size bucks : Word} :
    (htableInitSize table size bucks bitvect).Permits memory
      fun result after =>
        result = 0 →
          (after.tables.cell table).map Htable.bitvect = some bitvect ∧
            ∀ hash, ¬Passes after.bits bitvect hash := by
  rw [htableInitSize, permits_ite]
  split
  · rw [permits_pure]
    simp
  · simp only [permits_bind]
    intro _ _ _ _ _ _ _ _ _ _ _ _ _ _ _
    refine permits_bloomInit.weaken ?_
    intro _ after clear
    exact permits_pure.mpr fun _ => clear

end Bits

section Frame

variable {memory : HtableMemory}
variable {table entry key len bitvect : Word}
variable {bits : Memory Word Byte}
variable {fields : Htable}
variable {live : LiveEntries}
variable {bytes : List Byte}
variable {α : Type}

/-- The place and the bytes of the bit vector of a table. -/
def FilterIs
    (table : Word)
    (bits : Memory Word Byte)
    (bitvect : Word)
    (memory : HtableMemory) : Prop :=
  memory.bits = bits ∧
    (memory.tables.cell table).map Htable.bitvect = some bitvect

/-- Computing the hash of a key changes nothing. -/
theorem KeyOf.ensures_onKeys_jhash
    (keyOf : KeyOf memory.keys key len bytes) :
    (onKeys (jhash key (len.setWidth 32) 0)).Ensures memory
      fun hash after => after = memory ∧ hash = keyHash bytes := by
  rw [ensures_onKeys]
  refine keyOf.ensures_jhash.weaken ?_
  intro hash keys result
  obtain ⟨rfl, rfl⟩ := result
  exact ⟨rfl, rfl⟩

/-- A change of the lists does not concern the bit vector. -/
theorem preserves_filterIs_onLists
    (program : Program HlistMemory α) :
    (onLists program).Preserves (FilterIs table bits bitvect) := by
  refine preserves_zoom ?_ program
  intro _ _ holds
  exact holds

theorem preserves_filterIs_setEntryField
    {change : HtableEntry → HtableEntry} :
    (setEntryField entry change).Preserves
      (FilterIs table bits bitvect) := by
  refine preserves_updates ?_
  intro before after holds stored
  obtain ⟨_, -, rfl⟩ := Option.map_eq_some_iff.mp stored
  exact holds

/-- A change of the number of entries does not concern the bit vector. -/
theorem preserves_filterIs_setField
    {change : Htable → Htable}
    (keeps : ∀ fields, (change fields).bitvect = fields.bitvect) :
    (setField table change).Preserves (FilterIs table bits bitvect) := by
  refine preserves_updates ?_
  intro before after holds stored
  obtain ⟨fields, atTable, rfl⟩ := Option.map_eq_some_iff.mp stored
  refine ⟨holds.1, ?_⟩
  have isBitvect := holds.2
  rw [atTable] at isBitvect
  rw [modify_cell_table atTable, Option.map_some, keeps]
  exact isBitvect

theorem preserves_filterIs_initHtableEntry :
    (initHtableEntry entry key len).Preserves
      (FilterIs table bits bitvect) :=
  (preserves_filterIs_onLists _).bind fun _ =>
    preserves_filterIs_setEntryField.bind fun _ =>
      preserves_filterIs_setEntryField

/-- `htable_find` changes nothing, and `htable_del_key` not the bits. -/
theorem Holds.permits_htableDelKey
    (holds : Holds memory table fields live)
    (keyOf : KeyOf memory.keys key len bytes) :
    (htableDelKey table key len).Permits memory fun _ =>
      FilterIs table memory.bits fields.bitvect := by
  have isFilter : FilterIs table memory.bits fields.bitvect memory :=
    ⟨rfl, by rw [holds.atTable]; rfl⟩
  rw [htableDelKey, permits_bind]
  refine (holds.ensures_htableFind keyOf).permits.weaken ?_
  intro found after result
  obtain ⟨rfl, -⟩ := result
  refine Preserves.ite ?_ ?_ after isFilter
  · intro _
    exact preserves_pure _
  · intro _
    refine (preserves_filterIs_onLists _).bind fun _ => ?_
    refine (preserves_filterIs_setField ?_).bind fun _ => ?_
    · intro _
      rfl
    · exact preserves_pure _

theorem Holds.permits_htableDelEntry
    {one : Keyed (List Byte) Word}
    (holds : Holds memory table fields live)
    (isLive : one ∈ live) :
    (htableDelEntry table one.item).Permits memory fun _ =>
      FilterIs table memory.bits fields.bitvect := by
  obtain ⟨stored, atEntry, keyOf⟩ := holds.stores one isLive
  simp only [htableDelEntry, permits_bind, entryField, permits_reads,
    atEntry, Option.map_some, Option.some.injEq, forall_eq']
  exact holds.permits_htableDelKey keyOf

/-- `htable_add` sets the bit of its key and no other. -/
theorem Holds.permits_htableAdd
    (holds : Holds memory table fields live)
    (addable : Addable memory live entry)
    (keyOf : KeyOf memory.keys key len bytes) :
    (htableAdd table entry key len).Permits memory fun _ after =>
      (after.tables.cell table).map Htable.bitvect =
          some fields.bitvect ∧
        ∀ hash, Passes after.bits fields.bitvect hash ↔
          Passes memory.bits fields.bitvect hash ∨
            bloomIndex hash = filterIndex bytes := by
  have isFilter : FilterIs table memory.bits fields.bitvect memory :=
    ⟨rfl, by rw [holds.atTable]; rfl⟩
  have mapped := holds.mapped
  rw [htableAdd, permits_bind]
  refine ((holds.ensures_initHtableEntry addable keyOf).both
    (preserves_filterIs_initHtableEntry _ isFilter)).permits.weaken ?_
  intro _ memory result
  obtain ⟨⟨-, sameKeys, -, -⟩, isFilter⟩ := result
  rw [← sameKeys] at keyOf
  rw [permits_bind]
  refine keyOf.ensures_onKeys_jhash.permits.weaken ?_
  intro hash after result
  obtain ⟨rfl, rfl⟩ := result
  rw [permits_bind, field, permits_reads]
  intro size _
  rw [permits_bind, field, permits_reads]
  intro bucks _
  rw [permits_bind]
  refine (preserves_filterIs_onLists _ _ isFilter).weaken ?_
  intro _ between isFilter
  rw [permits_bind, field, permits_reads]
  intro bitvect isBitvect
  obtain rfl : fields.bitvect = bitvect :=
    Option.some.inj (isFilter.2.symm.trans isBitvect)
  rw [← isFilter.1] at mapped ⊢
  rw [permits_bind]
  refine (mapped.ensures_bloomSet_exact _).permits.weaken ?_
  intro _ after result
  obtain ⟨sameTables, isSet⟩ := result
  rw [← sameTables] at isBitvect
  refine (preserves_filterIs_setField ?_ after
    ⟨rfl, isBitvect⟩).weaken ?_
  · intro _
    rfl
  · intro _ final isFinal
    rw [isFinal.1]
    exact ⟨isFinal.2, isSet⟩

end Frame

section History

variable {memory after : HtableMemory}
variable {table key len : Word}
variable {fields : Htable}
variable {live : LiveEntries}
variable {added : List (List Byte)}
variable {bytes : List Byte}

/-- The bits of the added keys are set, and no others. -/
structure FilterHolds
    (memory : HtableMemory)
    (table : Word)
    (fields : Htable)
    (live : LiveEntries)
    (added : List (List Byte)) : Prop
    extends Holds memory table fields live where
  liveAdded : ∀ one ∈ live, one.key ∈ added
  history :
    ∀ hash,
      Passes memory.bits fields.bitvect hash ↔
        ∃ earlier ∈ added, filterIndex earlier = bloomIndex hash

/-- The invariant after an operation that sets no bits. -/
theorem FilterHolds.of_filterIs
    {changed : Htable}
    {fewer : LiveEntries}
    (filterHolds : FilterHolds memory table fields live added)
    (holds : Holds after table changed fewer)
    (stillLive : ∀ one ∈ fewer, one ∈ live)
    (isFilter : FilterIs table memory.bits fields.bitvect after) :
    FilterHolds after table changed fewer added := by
  have sameBitvect : changed.bitvect = fields.bitvect := by
    have isBitvect := isFilter.2
    rw [holds.atTable] at isBitvect
    exact Option.some.inj isBitvect
  refine ⟨holds, ?_, ?_⟩
  · intro one isLive
    exact filterHolds.liveAdded one (stillLive one isLive)
  · rw [isFilter.1, sameBitvect]
    exact filterHolds.history

/-- The invariant after the initialisation. -/
theorem Provided.filterHolds
    {size bucks bitvect : Word}
    (provided : Provided memory table bucks size bitvect)
    (nonempty : 0 < size.toNat)
    (bounded : size.toNat < 2 ^ 31)
    (returned :
      (htableInitSize table size bucks bitvect).Returns memory 0 after) :
    ∃ fields, FilterHolds after table fields [] [] := by
  obtain ⟨-, fields, -, holds⟩ :=
    (provided.ensures_htableInitSize nonempty bounded).of_returns returned
  obtain ⟨isBitvect, clear⟩ := permits_htableInitSize 0 after returned rfl
  rw [holds.atTable] at isBitvect
  cases isBitvect
  refine ⟨fields, holds, by simp, ?_⟩
  intro hash
  simp [clear hash]

/-- Live entries after a deletion were live before it. -/
private theorem mem_of_mem_pop
    {one : Keyed (List Byte) Word}
    (stays : one ∈ live.pop bytes) :
    one ∈ live := by
  cases isTop : live.top bytes with
  | none =>
      rwa [pop_of_top_eq_none isTop] at stays
  | some entry =>
      obtain ⟨front, back, rfl, isPop⟩ := exists_of_top isTop
      rw [isPop] at stays
      rcases List.mem_append.mp stays with inFront | inBack
      · simp [inFront]
      · simp [inBack]

/-- The invariant of the runs. -/
theorem FilterReach.filterHolds
    (reached : FilterReach table memory live added) :
    ∃ fields, FilterHolds memory table fields live added := by
  induction reached with
  | init provided returned =>
      exact provided.filterHolds (by decide) (by decide) returned
  | initN bounded provided returned =>
      obtain ⟨nonempty, inRange⟩ := sizeFor_bounds bounded
      exact provided.filterHolds nonempty inRange returned
  | elsewhere reached untouched inductionHypothesis =>
      obtain ⟨fields, filterHolds⟩ := inductionHypothesis
      have sameBits := untouched.sameBits fields filterHolds.atTable
      refine ⟨fields, filterHolds.toHolds.elsewhere untouched,
        filterHolds.liveAdded, ?_⟩
      intro hash
      rw [← filterHolds.history, Passes, Passes, bloomByte,
        sameBits _ (bloomIndex_div_lt hash)]
  | @add _ after live added _ _ _ bytes reached addable keyOf returned
      inductionHypothesis =>
      obtain ⟨fields, filterHolds⟩ := inductionHypothesis
      have holds :=
        (filterHolds.ensures_htableAdd addable keyOf).of_returns returned
      obtain ⟨-, isSet⟩ :=
        filterHolds.permits_htableAdd addable keyOf _ _ returned
      refine ⟨_, holds, ?_, ?_⟩
      · intro one isLive
        rcases List.mem_cons.mp isLive with rfl | isOld
        · exact List.mem_cons_self
        · exact List.mem_cons_of_mem _ (filterHolds.liveAdded one isOld)
      · intro hash
        rw [isSet, filterHolds.history, List.exists_mem_cons_iff,
          or_comm, eq_comm]
  | find reached keyOf returned inductionHypothesis =>
      obtain ⟨fields, filterHolds⟩ := inductionHypothesis
      obtain ⟨rfl, -⟩ :=
        (filterHolds.ensures_htableFind keyOf).of_returns returned
      exact ⟨fields, filterHolds⟩
  | delKey reached keyOf returned inductionHypothesis =>
      obtain ⟨fields, filterHolds⟩ := inductionHypothesis
      obtain ⟨-, changed, -, -, popped⟩ :=
        (filterHolds.ensures_htableDelKey keyOf).of_returns returned
      exact ⟨changed, filterHolds.of_filterIs popped
        (fun _ => mem_of_mem_pop)
        (filterHolds.permits_htableDelKey keyOf _ _ returned)⟩
  | @delEntry _ _ _ _ one _ reached isLive returned inductionHypothesis =>
      obtain ⟨fields, filterHolds⟩ := inductionHypothesis
      obtain ⟨-, changed, -, -, popped⟩ :=
        (filterHolds.ensures_htableDelEntry isLive).of_returns returned
      exact ⟨changed, filterHolds.of_filterIs popped
        (fun _ => mem_of_mem_pop)
        (filterHolds.permits_htableDelEntry isLive _ _ returned)⟩

/-- The search without the bit vector finds the most recent entry. -/
theorem Holds.ensures_searchBucket
    (holds : Holds memory table fields live)
    (keyOf : KeyOf memory.keys key len bytes) :
    (searchBucket table key len).Ensures memory fun entry after =>
      after = memory ∧ entry = (live.top bytes).getD null := by
  rw [searchBucket, ensures_bind]
  refine keyOf.ensures_onKeys_jhash.weaken ?_
  intro hash after result
  obtain ⟨rfl, rfl⟩ := result
  have hlist := holds.hlist (holds.bucketOf_lt bytes)
  rw [ensures_bind, ensures_field holds.atTable, ensures_bind,
    ensures_field holds.atTable, bucketAt_htableWhichBucket]
  simp only [ensures_bind, ensures_onLists, ensures_first]
  refine ⟨_, hlist.linked.forward_start, ?_⟩
  rw [← @top_bucket _ _ _ _ _ (bucketOf fields.size)]
  refine @ensures_findFrom _ _ _ _ _ [] _ hlist ?_ keyOf
  intro one isOne
  exact holds.stores one (mem_bucket.mp isOne).1

/-- `htable_find` needs the buckets only for a key that passes. -/
theorem Holds.ensures_withoutBuckets_iff
    {post : Word → HtableMemory → Prop}
    (holds : Holds memory table fields live)
    (keyOf : KeyOf memory.keys key len bytes) :
    (htableFind table key len).Ensures (withoutBuckets memory) post ↔
      ¬Passes memory.bits fields.bitvect (keyHash bytes) ∧
        post null (withoutBuckets memory) := by
  have atTable :
      (withoutBuckets memory).tables.cell table = some fields :=
    holds.atTable
  have sameKeys : KeyOf (withoutBuckets memory).keys key len bytes := keyOf
  have mapped :
      BloomMapped (withoutBuckets memory).bits fields.bitvect :=
    holds.mapped
  obtain ⟨hash, after, hashed, rfl, rfl⟩ :=
    sameKeys.ensures_onKeys_jhash
  obtain ⟨present, after, tested, rfl, isPresent⟩ :=
    mapped.ensures_bloomTest (keyHash bytes)
  rw [htableFind, ensures_bind, hashed.ensures_iff, ensures_bind,
    ensures_field atTable, ensures_bind, ensures_field atTable,
    ensures_bind, tested.ensures_iff]
  by_cases passes : present = true
  · have noHead (address : Word) :
        (withoutBuckets memory).lists.heads.cell address = none :=
      ite_self none
    rw [if_pos passes, ensures_bind, ensures_field atTable]
    simp only [ensures_bind, ensures_onLists, hlistEmpty, first,
      ensures_reads, noHead, reduceCtorEq, false_and, exists_false,
      false_iff, not_and]
    intro fails
    exact absurd (isPresent.mp passes) fails
  · rw [if_neg passes, ensures_pure]
    refine (and_iff_right ?_).symm
    intro isSet
    exact passes (isPresent.mpr isSet)

end History

/--
After any run the bit vector lets a key pass exactly if a key with the same
lowest bits of the hash was added, whether or not it was deleted.  The other
keys are looked up without the buckets, and every key gives what the search
without the bit vector gives.
-/
theorem filter_is_history
    {memory : HtableMemory}
    {table : Word}
    {live : LiveEntries}
    {added : List (List Byte)}
    (reached : FilterReach table memory live added) :
    ∃ fields,
      memory.tables.cell table = some fields ∧
        (∀ one ∈ live, one.key ∈ added) ∧
        ∀ key len bytes, KeyOf memory.keys key len bytes →
          ((bloomTest fields.bitvect (keyHash bytes)).Ensures memory
            fun present after =>
              after = memory ∧
                (present = true ↔
                  ∃ earlier ∈ added,
                    filterIndex earlier = filterIndex bytes)) ∧
          (∀ post,
            (htableFind table key len).Ensures (withoutBuckets memory)
                post ↔
              (∀ earlier ∈ added,
                filterIndex earlier ≠ filterIndex bytes) ∧
                post null (withoutBuckets memory)) ∧
          ∀ post,
            (htableFind table key len).Ensures memory post ↔
              (searchBucket table key len).Ensures memory post := by
  obtain ⟨fields, filterHolds⟩ := reached.filterHolds
  refine ⟨fields, filterHolds.atTable, filterHolds.liveAdded, ?_⟩
  intro key len bytes keyOf
  refine ⟨?_, ?_, ?_⟩
  · refine (filterHolds.mapped.ensures_bloomTest (keyHash bytes)).weaken ?_
    intro present after result
    rw [filterHolds.history] at result
    exact result
  · intro post
    rw [filterHolds.ensures_withoutBuckets_iff keyOf,
      filterHolds.history]
    simp only [not_exists, not_and]
    rfl
  · intro post
    obtain ⟨entry, after, found, rfl, rfl⟩ :=
      filterHolds.ensures_htableFind keyOf
    obtain ⟨entry, after, searched, rfl, rfl⟩ :=
      filterHolds.ensures_searchBucket keyOf
    rw [found.ensures_iff, searched.ensures_iff]

/-- A table in which the only entry was added and deleted again. -/
theorem exists_filterReach :
    ∃ memory, FilterReach 16 memory [] [[ascii 'a']] ∧
      KeyOf memory.keys 128 1 [ascii 'a'] := by
  obtain ⟨nonempty, inRange⟩ := @sizeFor_bounds 1 (by decide)
  obtain ⟨result, empty, returned, rfl, -⟩ :=
    oneBucket_provided.ensures_htableInitSize nonempty inRange
  have initialised : FilterReach 16 empty [] [] :=
    .initN (by decide) oneBucket_provided returned
  have allocated : FilterReach 16 (withEntry empty) [] [] :=
    initialised.elsewhere (withEntry_untouched empty 16)
  have addable := withEntry_addable empty
  have keyOf := withEntry_keyOf empty
  obtain ⟨fields, filterHolds⟩ := allocated.filterHolds
  obtain ⟨_, memory, returned, -⟩ :=
    filterHolds.ensures_htableAdd addable keyOf
  have added := allocated.add addable keyOf returned
  obtain ⟨fields, filterHolds⟩ := added.filterHolds
  obtain ⟨stored, atEntry, storedKey⟩ :=
    filterHolds.stores ⟨[ascii 'a'], 24⟩ (by simp [push])
  obtain ⟨entry, memory, returned, -⟩ :=
    filterHolds.ensures_htableDelKey storedKey
  have deleted : FilterReach 16 memory [] [[ascii 'a']] :=
    added.delKey storedKey returned
  exact ⟨withEntry memory,
    deleted.elsewhere (withEntry_untouched memory 16),
    withEntry_keyOf memory⟩

/-- The key of the deleted entry still passes. -/
theorem filter_is_history_of_sample :
    ∃ memory fields,
      FilterReach 16 memory [] [[ascii 'a']] ∧
        memory.tables.cell 16 = some fields ∧
        (bloomTest fields.bitvect (keyHash [ascii 'a'])).Ensures memory
          fun present _ => present = true := by
  obtain ⟨memory, reached, keyOf⟩ := exists_filterReach
  obtain ⟨fields, atTable, -, passes⟩ := filter_is_history reached
  obtain ⟨tested, -, -⟩ := passes _ _ _ keyOf
  refine ⟨memory, fields, reached, atTable, tested.weaken ?_⟩
  intro present after result
  exact result.2.mpr ⟨_, by simp, rfl⟩

end LibKern.Htables
