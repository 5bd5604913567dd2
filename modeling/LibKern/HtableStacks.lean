import LibKern.HtableKeys

namespace LibKern.Htables

/-!
# A hash table holds stacks

A table holds entries under keys, the most recent entry of a key on top.  Every
bucket holds the entries whose keys belong to it, every live key passes the bit
vector, and `count` is the number of entries.
-/

open Program Hlists Jhash SequenceMap Wiring KeyedStacks

/-- The live entries with the bytes of their keys, the most recent first. -/
abbrev LiveEntries := KeyedStacks (List Byte) Word

/-- An entry points to the bytes of its key. -/
def Stores (memory : HtableMemory) (one : Keyed (List Byte) Word) : Prop :=
  ∃ fields, memory.entries.cell one.item = some fields ∧
    KeyOf memory.keys fields.key fields.len one.key

/-- What holds of a table with these live entries. -/
structure Holds
    (memory : HtableMemory)
    (table : Word)
    (fields : Htable)
    (live : LiveEntries) : Prop
    extends Buckets memory table fields
      (live.itemsIn (bucketOf fields.size)) where
  nonempty : 0 < fields.size.toNat
  distinct : live.items.Nodup
  stores : ∀ one ∈ live, Stores memory one
  mapped : BloomMapped memory.bits fields.bitvect
  passes :
    ∀ one ∈ live,
      Passes memory.bits fields.bitvect (keyHash one.key)
  counted : fields.count = BitVec.ofNat 64 live.length

section Find

variable {memory : HtableMemory}
variable {table key len head : Word}
variable {fields : Htable}
variable {live rest : LiveEntries}
variable {one : Keyed (List Byte) Word}
variable {front : List Word}
variable {bytes : List Byte}

/-- The comparison of `htable_find` compares the bytes of the keys. -/
theorem Stores.ensures_hasKey
    (stores : Stores memory one)
    (keyOf : KeyOf memory.keys key len bytes) :
    (hasKey one.item key len).Ensures memory fun found after =>
      after = memory ∧ found = decide (one.key = bytes) := by
  obtain ⟨fields, atEntry, entryKeyOf⟩ := stores
  rw [hasKey, ensures_bind, entryField, ensures_reads, atEntry]
  refine ⟨_, rfl, ?_⟩
  by_cases sameLength : fields.len = len
  · subst sameLength
    rw [if_pos rfl, ensures_bind, entryField, ensures_reads, atEntry]
    refine ⟨_, rfl, ?_⟩
    rw [ensures_onKeys]
    refine (entryKeyOf.ensures_memcmpEqual keyOf).weaken ?_
    intro same after result
    obtain ⟨rfl, rfl⟩ := result
    exact ⟨rfl, rfl⟩
  · have different : one.key ≠ bytes := by
      rintro rfl
      refine sameLength (BitVec.eq_of_toNat_eq ?_)
      rw [entryKeyOf.isLength, keyOf.isLength]
    rw [if_neg sameLength, ensures_pure]
    exact ⟨rfl, (decide_eq_false different).symm⟩

/-- The loop of `htable_find` finds the first entry with the key. -/
theorem ensures_findFrom
    (hlist : Hlist memory.lists head (front ++ rest.items))
    (stores : ∀ one ∈ rest, Stores memory one)
    (keyOf : KeyOf memory.keys key len bytes) :
    (findFrom key len (rest.items.headD null)).Ensures memory
      fun entry after =>
        after = memory ∧ entry = (rest.top bytes).getD null := by
  rw [findFrom]
  induction rest generalizing front with
  | nil =>
      rw [ensures_loop]
      exact ensures_pure.mpr ⟨rfl, rfl⟩
  | cons one rest inductionHypothesis =>
      have isNode : one.item ∈ front ++ items (one :: rest) := by
        simp [items]
      have notNull : one.item ≠ null := (hlist.allocated isNode).ne_null
      have isEntry : hlistEntry one.item = one.item := BitVec.sub_zero _
      rw [ensures_loop]
      simp only [items, List.map_cons, List.headD_cons]
      rw [if_neg notNull, ensures_bind, isEntry]
      refine ((stores one (by simp)).ensures_hasKey keyOf).weaken ?_
      intro found after result
      obtain ⟨rfl, rfl⟩ := result
      rw [top_cons]
      by_cases same : one.key = bytes
      · rw [if_pos (decide_eq_true same), ensures_pure, if_pos same]
        exact ⟨rfl, rfl⟩
      · rw [if_neg (by simp [same]), if_neg same]
        simp only [ensures_bind, ensures_onLists, ensures_next,
          ensures_pure]
        have linked : Hlist after.lists head
            (front ++ one.item :: items rest) := hlist
        refine ⟨_, linked.neighbours.2, ?_⟩
        refine @inductionHypothesis (front ++ [one.item]) ?_ ?_
        · simpa using linked
        · intro other isOther
          exact stores other (by simp [isOther])

/-- The head of the bucket of a key. -/
theorem bucketAt_htableWhichBucket :
    bucketAt fields.bucks
        ((htableWhichBucket fields.size (keyHash bytes)).setWidth 64) =
      bucketAddress fields.bucks (bucketOf fields.size bytes) := by
  rw [bucketAddress, bucketOf, BitVec.ofNat_toNat]

/-- Every key has a bucket. -/
theorem Holds.bucketOf_lt
    (holds : Holds memory table fields live)
    (bytes : List Byte) :
    bucketOf fields.size bytes < fields.size.toNat :=
  htableWhichBucket_lt holds.nonempty holds.bounded

/-- `htable_find` returns the most recent entry of the key, or `NULL`. -/
theorem Holds.ensures_htableFind
    (holds : Holds memory table fields live)
    (keyOf : KeyOf memory.keys key len bytes) :
    (htableFind table key len).Ensures memory fun entry after =>
      after = memory ∧ entry = (live.top bytes).getD null := by
  rw [htableFind, ensures_bind, ensures_onKeys]
  refine keyOf.ensures_jhash.weaken ?_
  intro hash keys result
  obtain ⟨rfl, rfl⟩ := result
  have atTable := holds.atTable
  rw [ensures_bind, ensures_field atTable, ensures_bind,
    ensures_field atTable, ensures_bind]
  refine (holds.mapped.ensures_bloomTest (keyHash bytes)).weaken ?_
  intro present after result
  obtain ⟨rfl, isPresent⟩ := result
  by_cases passes : present = true
  · have hlist := holds.hlist (holds.bucketOf_lt bytes)
    have isFirst := hlist.linked.forward_start
    rw [if_pos passes, ensures_bind, ensures_field atTable,
      bucketAt_htableWhichBucket]
    simp only [ensures_bind, ensures_onLists, hlistEmpty, ensures_first,
      ensures_pure]
    refine ⟨_, isFirst, ?_⟩
    rw [← @top_bucket _ _ _ _ _ (bucketOf fields.size)]
    by_cases isEmpty :
        (live.itemsIn (bucketOf fields.size)
          (bucketOf fields.size bytes)).headD null = null
    · have nothing :
          live.bucket (bucketOf fields.size)
            (bucketOf fields.size bytes) = [] := by
        cases isBucket : live.bucket (bucketOf fields.size)
            (bucketOf fields.size bytes) with
        | nil =>
            rfl
        | cons one rest =>
            rw [itemsIn, isBucket] at isEmpty hlist
            exact absurd isEmpty
              (hlist.allocated (by simp [items])).ne_null
      rw [if_pos (decide_eq_true isEmpty), ensures_pure, nothing]
      exact ⟨rfl, rfl⟩
    · rw [if_neg (by simpa using isEmpty), ensures_bind,
        ensures_field atTable, bucketAt_htableWhichBucket]
      simp only [ensures_bind, ensures_onLists, ensures_first]
      refine ⟨_, isFirst, ?_⟩
      refine @ensures_findFrom _ _ _ _ _ [] _ hlist ?_ keyOf
      intro one isOne
      exact holds.stores one (mem_bucket.mp isOne).1
  · have isNone : live.top bytes = none := by
      rw [top_eq_none_iff]
      rintro one isLive rfl
      exact passes (isPresent.mpr (holds.passes one isLive))
    rw [if_neg passes, ensures_pure, isNone]
    exact ⟨rfl, rfl⟩

end Find

section Changes

variable {memory after : HtableMemory}
variable {table entry key len : Word}
variable {fields : Htable}
variable {live : LiveEntries}
variable {bytes : List Byte}

/-- The entries of a table are not `NULL`. -/
theorem Holds.ne_null
    {one : Keyed (List Byte) Word}
    (holds : Holds memory table fields live)
    (isLive : one ∈ live) :
    one.item ≠ null := by
  have inBucket :
      one.item ∈ live.itemsIn (bucketOf fields.size)
        (bucketOf fields.size one.key) :=
    List.mem_map.mpr ⟨one, mem_bucket.mpr ⟨isLive, rfl⟩, rfl⟩
  exact ((holds.hlist (holds.bucketOf_lt one.key)).allocated
    inBucket).ne_null

/-- An entry that can be added: it is in no bucket of the table. -/
structure Addable
    (memory : HtableMemory)
    (live : LiveEntries)
    (entry : Word) : Prop where
  allocated : Allocated memory.lists entry
  hasFields : ∃ fields, memory.entries.cell entry = some fields
  fresh : entry ∉ live.items

/-- An entry that is not live is in no bucket. -/
theorem Holds.notEntry
    (holds : Holds memory table fields live)
    (fresh : entry ∉ live.items) :
    ¬(indexed fields.size.toNat (bucketAddress fields.bucks)
      (live.itemsIn (bucketOf fields.size))).Entry entry := by
  intro isEntry
  obtain ⟨head, nodes, isList, isNode⟩ := isEntry
  obtain ⟨index, -, -, rfl⟩ :=
    (indexed_eq_some_iff holds.injOn).mp isList
  obtain ⟨one, isOne, rfl⟩ := List.mem_map.mp isNode
  exact fresh (List.mem_map.mpr ⟨one, (mem_bucket.mp isOne).1, rfl⟩)

/-- `INIT_HTABLE_ENTRY` of an entry that is not live. -/
theorem Holds.ensures_initHtableEntry
    (holds : Holds memory table fields live)
    (addable : Addable memory live entry)
    (keyOf : KeyOf memory.keys key len bytes) :
    (initHtableEntry entry key len).Ensures memory fun _ after =>
      Holds after table fields live ∧ after.keys = memory.keys ∧
        Allocated after.lists entry ∧ Stores after ⟨bytes, entry⟩ := by
  obtain ⟨allocated, ⟨content, atEntry⟩, fresh⟩ := addable
  have isNode : nodeOf entry = entry := BitVec.add_zero _
  rw [initHtableEntry, ensures_bind, ensures_onLists, isNode]
  refine (ensures_initHlistNode allocated).weaken ?_
  intro _ lists rewires
  rw [ensures_bind, setEntryField, ensures_updates, atEntry]
  refine ⟨_, rfl, ?_⟩
  rw [setEntryField, ensures_updates, Memory.modify_cell_same, atEntry]
  refine ⟨_, rfl, ?_⟩
  have stored :
      ((memory.entries.modify entry fun fields =>
        { fields with key := key }).modify entry fun fields =>
          { fields with len := len }).cell entry = some ⟨key, len⟩ := by
    rw [Memory.modify_cell_same, Memory.modify_cell_same, atEntry]
    rfl
  have refines :=
    holds.held.elsewhere rewires (by simpa using holds.notEntry fresh)
  have isAllocated : Allocated lists entry :=
    accessible_next.mp
      (rewires.accessible _ (accessible_next.mpr allocated))
  refine ⟨⟨⟨holds.atTable, holds.bounded, refines⟩, holds.nonempty,
    holds.distinct, ?_, holds.mapped, holds.passes, holds.counted⟩,
    rfl, isAllocated, ⟨key, len⟩, stored, keyOf⟩
  intro one isLive
  obtain ⟨fields, atOne, oneKeyOf⟩ := holds.stores one isLive
  have different : one.item ≠ entry := by
    rintro rfl
    exact fresh (List.mem_map.mpr ⟨one, isLive, rfl⟩)
  refine ⟨fields, ?_, oneKeyOf⟩
  rw [Memory.modify_cell_of_ne _ _ different,
    Memory.modify_cell_of_ne _ _ different, atOne]

/-- The fields of a table when its number of entries is changed. -/
theorem modify_cell_table
    {change : Htable → Htable}
    (atTable : memory.tables.cell table = some fields) :
    (memory.tables.modify table change).cell table =
      some (change fields) := by
  rw [Memory.modify_cell_same, atTable, Option.map_some]

/-- `htable_add` puts an entry on top of the stack of its key. -/
theorem Holds.ensures_htableAdd
    (holds : Holds memory table fields live)
    (addable : Addable memory live entry)
    (keyOf : KeyOf memory.keys key len bytes) :
    (htableAdd table entry key len).Ensures memory fun _ after =>
      Holds after table { fields with count := fields.count + 1 }
        (live.push bytes entry) := by
  rw [htableAdd, ensures_bind]
  refine (holds.ensures_initHtableEntry addable keyOf).weaken ?_
  clear holds
  intro _ memory result
  obtain ⟨holds, sameKeys, allocated, stores⟩ := result
  rw [← sameKeys] at keyOf
  rw [ensures_bind, ensures_onKeys]
  refine keyOf.ensures_jhash.weaken ?_
  intro hash keys result
  obtain ⟨rfl, rfl⟩ := result
  rw [ensures_bind, ensures_field holds.atTable, ensures_bind,
    ensures_field holds.atTable, bucketAt_htableWhichBucket, ensures_bind]
  have inside := holds.bucketOf_lt bytes
  have isNode : nodeOf entry = entry := BitVec.add_zero _
  rw [isNode]
  refine (holds.change inside (holds.held.hlistAddHead
    (holds.isList inside) allocated
    (holds.notEntry addable.fresh))).weaken ?_
  intro _ between result
  obtain ⟨buckets, isBetween⟩ := result
  rw [ensures_bind, ensures_field buckets.atTable, ensures_bind]
  have sameBits : between.bits = memory.bits := by rw [isBetween]
  have mapped := holds.mapped
  rw [← sameBits] at mapped
  refine (mapped.ensures_bloomSet (keyHash bytes)).weaken ?_
  intro _ after result
  obtain ⟨isAfter, mapped, passes, keepsPassing⟩ := result
  have atTable : after.tables.cell table = some fields := by
    rw [isAfter]
    exact buckets.atTable
  have sameEntries : after.entries = memory.entries := by
    rw [isAfter, isBetween]
  have sameKeys : after.keys = memory.keys := by
    rw [isAfter, isBetween]
  have sameLists : after.lists = between.lists := by
    rw [isAfter]
  have isContents :
      itemsIn (bucketOf fields.size) (live.push bytes entry) =
        Function.update (live.itemsIn (bucketOf fields.size))
          (bucketOf fields.size bytes)
          (entry :: live.itemsIn (bucketOf fields.size)
            (bucketOf fields.size bytes)) :=
    @itemsIn_insert _ _ _ [] live ⟨bytes, entry⟩
  have refines := buckets.held
  rw [← sameLists, ← isContents] at refines
  rw [ensures_setField atTable]
  refine ⟨⟨modify_cell_table atTable, holds.bounded, refines⟩,
    holds.nonempty, List.nodup_cons.mpr ⟨addable.fresh, holds.distinct⟩,
    ?_, mapped, ?_, ?_⟩
  · intro one isLive
    rw [Stores, sameEntries, sameKeys]
    rcases List.mem_cons.mp isLive with rfl | isOld
    · exact stores
    · exact holds.stores one isOld
  · intro one isLive
    rcases List.mem_cons.mp isLive with rfl | isOld
    · exact passes
    · refine keepsPassing _ ?_
      rw [sameBits]
      exact holds.passes one isOld
  · rw [holds.counted, push, List.length_cons, BitVec.ofNat_add]
    rfl

/-- `htable_del_key` removes the entry that `htable_find` returns. -/
theorem Holds.ensures_htableDelKey
    (holds : Holds memory table fields live)
    (keyOf : KeyOf memory.keys key len bytes) :
    (htableDelKey table key len).Ensures memory fun entry after =>
      entry = (live.top bytes).getD null ∧
        ∃ changed, changed.bucks = fields.bucks ∧
          changed.size = fields.size ∧
          Holds after table changed (live.pop bytes) := by
  rw [htableDelKey, ensures_bind]
  refine (holds.ensures_htableFind keyOf).weaken ?_
  intro entry after result
  obtain ⟨rfl, rfl⟩ := result
  cases isTop : live.top bytes with
  | none =>
      rw [Option.getD_none, if_pos rfl, ensures_pure,
        pop_of_top_eq_none isTop]
      exact ⟨rfl, fields, rfl, rfl, holds⟩
  | some entry =>
      obtain ⟨front, back, rfl, isPop⟩ := exists_of_top isTop
      have notNull : entry ≠ null :=
        @Holds.ne_null _ _ _ _ ⟨bytes, entry⟩ holds (by simp)
      have isNode : nodeOf entry = entry := BitVec.add_zero _
      have inside := holds.bucketOf_lt bytes
      have isBucket :
          itemsIn (bucketOf fields.size) (front ++ ⟨bytes, entry⟩ :: back)
              (bucketOf fields.size bytes) =
            itemsIn (bucketOf fields.size) front
                (bucketOf fields.size bytes) ++
              entry :: itemsIn (bucketOf fields.size) back
                (bucketOf fields.size bytes) := by
        rw [itemsIn_append]
        exact congrArg _ (@itemsIn_cons_same _ _ _ _ ⟨bytes, entry⟩)
      have hlist := holds.hlist inside
      rw [isBucket] at hlist
      rw [Option.getD_some, if_neg notNull, ensures_bind, isNode, isPop]
      refine (holds.remove inside isBucket
        hlist.ensures_hlistDelInit).weaken ?_
      intro _ between result
      obtain ⟨buckets, isBetween⟩ := result
      rw [ensures_bind, ensures_setField buckets.atTable, ensures_pure]
      have refines := buckets.held
      rw [← @itemsIn_remove _ _ _ front back ⟨bytes, entry⟩] at refines
      have fewer :
          List.Sublist (front ++ back)
            (front ++ ⟨bytes, entry⟩ :: back) :=
        (List.sublist_cons_self _ _).append_left front
      refine ⟨rfl, { fields with count := fields.count - 1 }, rfl, rfl,
        ⟨modify_cell_table buckets.atTable, holds.bounded, refines⟩,
        holds.nonempty, holds.distinct.sublist (fewer.map Keyed.item),
        ?_, ?_, ?_, ?_⟩
      · intro one isLive
        rw [isBetween]
        exact holds.stores one (fewer.subset isLive)
      · rw [isBetween]
        exact holds.mapped
      · intro one isLive
        rw [isBetween]
        exact holds.passes one (fewer.subset isLive)
      · rw [holds.counted, List.length_append, List.length_append,
          List.length_cons, ← Nat.add_assoc, BitVec.ofNat_add]
        exact BitVec.add_sub_cancel _ _

end Changes

/-- The memory of a table, with the arrays that `malloc` returned. -/
structure Provided
    (memory : HtableMemory)
    (table bucks size bitvect : Word) : Prop where
  hasFields : ∃ fields, memory.tables.cell table = some fields
  heads :
    ∀ index < size.toNat,
      Accessible memory.lists (.first (bucketAddress bucks index))
  mapped : BloomMapped memory.bits bitvect

section Init

variable {memory : HtableMemory}
variable {table bucks size bitvect : Word}
variable {fields : Htable}

/-- The first buckets were initialised. -/
structure Initialised
    (memory : HtableMemory)
    (table : Word)
    (fields : Htable)
    (count : Nat)
    (after : HtableMemory) : Prop where
  atTable : after.tables.cell table = some fields
  heads :
    ∀ index < fields.size.toNat,
      Accessible after.lists (.first (bucketAddress fields.bucks index))
  sameBits : after.bits = memory.bits
  held :
    Refines after.lists
      (indexed count (bucketAddress fields.bucks) fun _ => [])

/-- The loop of the initialisation makes all buckets empty. -/
theorem ensures_initBuckets
    (bounded : fields.size.toNat < 2 ^ 31)
    (atTable : memory.tables.cell table = some fields)
    (heads :
      ∀ index < fields.size.toNat,
        Accessible memory.lists
          (.first (bucketAddress fields.bucks index))) :
    (initBuckets table).Ensures memory fun _ =>
      Initialised memory table fields fields.size.toNat := by
  rw [initBuckets]
  refine ensures_forEachBucket (fun index _ =>
    Initialised memory table fields index) bounded ?_ ?_ ?_
  · intro index _ after initialised
    rw [initialised.atTable, BitVec.ofNat_toNat, BitVec.setWidth_eq]
    rfl
  · intro index inside _ between initialised
    have accessible := initialised.heads index inside
    rw [ensures_bind, ensures_field initialised.atTable, ensures_onLists]
    refine ((initialised.held.initHlistHead accessible).both
      (ensures_initHlistHead accessible).permits).weaken ?_
    intro _ lists result
    obtain ⟨refines, -, rewires⟩ := result
    have injective :
        Set.InjOn (bucketAddress fields.bucks)
          {other | other < index + 1} :=
      bucketAddress_injOn (by omega)
    rw [indexed_succ injective] at refines
    refine ⟨initialised.atTable, ?_, initialised.sameBits, refines⟩
    intro other otherInside
    exact rewires.accessible _ (initialised.heads other otherInside)
  · refine ⟨atTable, heads, rfl, ⟨?_, ?_⟩⟩
    · intro head nodes isList
      simp [indexed] at isList
    · intro one other node ownsOne
      obtain ⟨nodes, isList, -⟩ := ownsOne
      simp [indexed] at isList

/-- `bloom_init` keeps everything but the bit vector. -/
theorem ensures_bloomInit
    (atTable : memory.tables.cell table = some fields)
    (mapped : BloomMapped memory.bits bitvect) :
    (bloomInit table bitvect).Ensures memory fun _ after =>
      after.tables.cell table = some { fields with bitvect := bitvect } ∧
        after.lists = memory.lists ∧ BloomMapped after.bits bitvect := by
  have notNull : bitvect ≠ null := by
    obtain ⟨byte, isByte⟩ := mapped 0 (by decide)
    rw [BitVec.add_zero] at isByte
    exact Memory.ne_null isByte
  rw [bloomInit, ensures_bind, ensures_setField atTable, ensures_bind,
    ensures_assertPointer notNull]
  refine ensures_countUp (fun _ (after : HtableMemory) =>
    after.tables.cell table = some { fields with bitvect := bitvect } ∧
      after.lists = memory.lists ∧ BloomMapped after.bits bitvect)
    ⟨modify_cell_table atTable, rfl, mapped⟩ ?_
  intro index inside between result
  obtain ⟨isTable, sameLists, mapped⟩ := result
  obtain ⟨byte, isByte⟩ := mapped index inside
  rw [storeBits, ensures_updates, isByte]
  exact ⟨_, rfl, isTable, sameLists, mapped.modify⟩

/-- The initialisation makes a table without entries. -/
theorem Provided.ensures_htableInitSize
    (provided : Provided memory table bucks size bitvect)
    (nonempty : 0 < size.toNat)
    (bounded : size.toNat < 2 ^ 31) :
    (htableInitSize table size bucks bitvect).Ensures memory
      fun result after =>
        result = 0 ∧
          ∃ fields, fields.size = size ∧ Holds after table fields [] := by
  obtain ⟨⟨fields, atTable⟩, heads, mapped⟩ := provided
  have notNull : bucks ≠ null := by
    obtain ⟨node, isNode⟩ := heads 0 nonempty
    rw [bucketAddress, bucketAt, BitVec.mul_zero,
      BitVec.add_zero] at isNode
    exact Memory.ne_null isNode
  rw [htableInitSize, if_neg (Memory.ne_null atTable), ensures_bind,
    ensures_setField atTable, ensures_bind,
    ensures_setField (modify_cell_table atTable), ensures_bind,
    ensures_assertPointer notNull, ensures_bind]
  refine (ensures_initBuckets bounded (modify_cell_table
    (modify_cell_table atTable)) heads).weaken ?_
  intro _ between initialised
  rw [ensures_bind, ensures_setField initialised.atTable, ensures_bind]
  rw [← initialised.sameBits] at mapped
  refine Ensures.weaken (ensures_bloomInit
    (modify_cell_table initialised.atTable) mapped) ?_
  intro _ after result
  obtain ⟨isTable, sameLists, mapped⟩ := result
  rw [ensures_pure]
  refine ⟨rfl, _, rfl, ⟨isTable, bounded, ?_⟩, nonempty, .nil, by simp,
    mapped, by simp, rfl⟩
  rw [sameLists]
  exact initialised.held

end Init

end LibKern.Htables
