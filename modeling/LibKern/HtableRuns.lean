import LibKern.HtableStacks

namespace LibKern.Htables

/-!
# Runs of a hash table

A run initialises a table and then adds entries, looks up keys and deletes keys
in any order.  Everything that does not belong to the table can change at any
time; the keys of the live entries belong to it.
-/

open Program Hlists Jhash SequenceMap KeyedStacks

/-- The table, its live entries and their keys are left alone. -/
structure Untouched
    (memory : HtableMemory)
    (table : Word)
    (live : LiveEntries)
    (after : HtableMemory) : Prop where
  sameTable : after.tables.cell table = memory.tables.cell table
  sameHeads :
    ∀ fields, memory.tables.cell table = some fields →
      ∀ index < fields.size.toNat,
        after.lists.heads.cell (bucketAddress fields.bucks index) =
          memory.lists.heads.cell (bucketAddress fields.bucks index)
  sameBits :
    ∀ fields, memory.tables.cell table = some fields →
      ∀ index < bloomBytes,
        after.bits.cell (fields.bitvect + BitVec.ofNat 64 index) =
          memory.bits.cell (fields.bitvect + BitVec.ofNat 64 index)
  sameNodes :
    ∀ entry ∈ live.items,
      after.lists.nodes.cell entry = memory.lists.nodes.cell entry
  sameEntries :
    ∀ entry ∈ live.items,
      after.entries.cell entry = memory.entries.cell entry
  sameKeys :
    ∀ entry ∈ live.items, ∀ fields,
      memory.entries.cell entry = some fields →
        ∀ index < fields.len.toNat,
          after.keys.cell (fields.key + BitVec.ofNat 64 index) =
            memory.keys.cell (fields.key + BitVec.ofNat 64 index)

/-- The states that are reached, with the live entries of the table. -/
inductive HtableReach (table : Word) :
    HtableMemory → LiveEntries → Prop where
  | init
      {memory after : HtableMemory}
      {bucks bitvect : Word}
      (provided : Provided memory table bucks hashNumBuckets bitvect)
      (returned :
        (htableInit table bucks bitvect).Returns memory 0 after) :
      HtableReach table after []
  | initN
      {memory after : HtableMemory}
      {n bucks bitvect : Word}
      (bounded : n.toNat ≤ 2 ^ 31 - 1)
      (provided : Provided memory table bucks (sizeFor n) bitvect)
      (returned :
        (htableInitN table n bucks bitvect).Returns memory 0 after) :
      HtableReach table after []
  | elsewhere
      {memory after : HtableMemory}
      {live : LiveEntries}
      (reached : HtableReach table memory live)
      (untouched : Untouched memory table live after) :
      HtableReach table after live
  | add
      {memory after : HtableMemory}
      {live : LiveEntries}
      {entry key len : Word}
      {bytes : List Byte}
      (reached : HtableReach table memory live)
      (addable : Addable memory live entry)
      (keyOf : KeyOf memory.keys key len bytes)
      (returned : (htableAdd table entry key len).Returns memory () after) :
      HtableReach table after (live.push bytes entry)
  | find
      {memory after : HtableMemory}
      {live : LiveEntries}
      {entry key len : Word}
      {bytes : List Byte}
      (reached : HtableReach table memory live)
      (keyOf : KeyOf memory.keys key len bytes)
      (returned : (htableFind table key len).Returns memory entry after) :
      HtableReach table after live
  | delKey
      {memory after : HtableMemory}
      {live : LiveEntries}
      {entry key len : Word}
      {bytes : List Byte}
      (reached : HtableReach table memory live)
      (keyOf : KeyOf memory.keys key len bytes)
      (returned : (htableDelKey table key len).Returns memory entry after) :
      HtableReach table after (live.pop bytes)

/-- A state in which the live entries are the entries of the table. -/
structure HoldsStacks
    (memory : HtableMemory)
    (table : Word)
    (live : LiveEntries)
    (fields : Htable) : Prop where
  atTable : memory.tables.cell table = some fields
  count : fields.count.toNat = live.length
  distinct : live.items.Nodup
  bucketBelow :
    ∀ hash, (htableWhichBucket fields.size hash).toNat < fields.size.toNat
  bucket :
    ∀ index < fields.size.toNat,
      Hlist memory.lists (bucketAddress fields.bucks index)
        (live.itemsIn (bucketOf fields.size) index)

/-- The functions work on the stacks of live entries. -/
structure ServesStacks
    (memory : HtableMemory)
    (table : Word)
    (live : LiveEntries) : Prop where
  holds : ∃ fields, HoldsStacks memory table live fields
  find :
    ∀ key len bytes, KeyOf memory.keys key len bytes →
      (htableFind table key len).Ensures memory fun entry after =>
        after = memory ∧ entry = (live.stack bytes).headD null ∧
          (entry = null ↔ ∀ one ∈ live, one.key ≠ bytes)
  delKey :
    ∀ key len bytes, KeyOf memory.keys key len bytes →
      (htableDelKey table key len).Ensures memory fun entry after =>
        entry = (live.stack bytes).headD null ∧
          ∃ fields, HoldsStacks after table (live.pop bytes) fields
  add :
    ∀ entry key len bytes, Addable memory live entry →
      KeyOf memory.keys key len bytes →
        (htableAdd table entry key len).Ensures memory fun _ after =>
          ∃ fields, HoldsStacks after table (live.push bytes entry) fields
  forEach :
    (htableForEach table (fun pos visited => pure (visited ++ [pos]))
      []).Ensures memory fun visited after =>
        after = memory ∧ visited.Perm live.items

section Runs

variable {memory after : HtableMemory}
variable {table : Word}
variable {fields : Htable}
variable {live : LiveEntries}

/-- The number of buckets is in range. -/
theorem sizeFor_bounds
    {n : Word}
    (bounded : n.toNat ≤ 2 ^ 31 - 1) :
    0 < (sizeFor n).toNat ∧ (sizeFor n).toNat < 2 ^ 31 := by
  rw [sizeFor]
  by_cases positive : n > 0
  · rw [if_pos positive]
    exact ⟨positive, by omega⟩
  · rw [if_neg positive]
    decide

/-- A table does not depend on what it does not use. -/
theorem Holds.elsewhere
    (holds : Holds memory table fields live)
    (untouched : Untouched memory table live after) :
    Holds after table fields live := by
  have sameItem
      {one : Keyed (List Byte) Word}
      (isLive : one ∈ live) :
      one.item ∈ live.items :=
    List.mem_map.mpr ⟨one, isLive, rfl⟩
  have sameBits := untouched.sameBits fields holds.atTable
  refine ⟨⟨untouched.sameTable.trans holds.atTable, holds.bounded,
    ⟨⟨?_, holds.held.unique⟩⟩⟩, holds.nonempty, holds.distinct, ?_, ?_,
    ?_, holds.counted⟩
  · intro head nodes isList
    obtain ⟨index, inside, rfl, rfl⟩ :=
      (indexed_eq_some_iff holds.injOn).mp isList
    refine (holds.hlist inside).congr
      (untouched.sameHeads fields holds.atTable index inside) ?_
    intro node isNode
    obtain ⟨one, isOne, rfl⟩ := List.mem_map.mp isNode
    exact untouched.sameNodes _ (sameItem (mem_bucket.mp isOne).1)
  · intro one isLive
    obtain ⟨content, atEntry, keyOf⟩ := holds.stores one isLive
    refine ⟨content, ?_, keyOf.isLength, ?_⟩
    · rw [untouched.sameEntries _ (sameItem isLive), atEntry]
    · intro index inside
      rw [untouched.sameKeys _ (sameItem isLive) content atEntry index
        (by rw [keyOf.isLength]; exact inside)]
      exact keyOf.keyAt index inside
  · intro index inside
    rw [sameBits index inside]
    exact holds.mapped index inside
  · intro one isLive
    obtain ⟨byte, isByte, isSet⟩ := holds.passes one isLive
    refine ⟨byte, ?_, isSet⟩
    rw [← isByte]
    exact sameBits _ (bloomIndex_div_lt _)

/-- The invariant of the runs. -/
theorem HtableReach.holds
    (reached : HtableReach table memory live) :
    ∃ fields, Holds memory table fields live := by
  induction reached with
  | init provided returned =>
      obtain ⟨-, fields, -, holds⟩ :=
        (provided.ensures_htableInitSize (by decide)
          (by decide)).of_returns returned
      exact ⟨fields, holds⟩
  | initN bounded provided returned =>
      obtain ⟨nonempty, inRange⟩ := sizeFor_bounds bounded
      obtain ⟨-, fields, -, holds⟩ :=
        (provided.ensures_htableInitSize nonempty
          inRange).of_returns returned
      exact ⟨fields, holds⟩
  | elsewhere reached untouched inductionHypothesis =>
      obtain ⟨fields, holds⟩ := inductionHypothesis
      exact ⟨fields, holds.elsewhere untouched⟩
  | add reached addable keyOf returned inductionHypothesis =>
      obtain ⟨fields, holds⟩ := inductionHypothesis
      exact ⟨_, (holds.ensures_htableAdd addable keyOf).of_returns
        returned⟩
  | find reached keyOf returned inductionHypothesis =>
      obtain ⟨fields, holds⟩ := inductionHypothesis
      obtain ⟨rfl, -⟩ :=
        (holds.ensures_htableFind keyOf).of_returns returned
      exact ⟨fields, holds⟩
  | delKey reached keyOf returned inductionHypothesis =>
      obtain ⟨fields, holds⟩ := inductionHypothesis
      obtain ⟨-, changed, -, -, popped⟩ :=
        (holds.ensures_htableDelKey keyOf).of_returns returned
      exact ⟨changed, popped⟩

/-- There are fewer entries than addresses. -/
theorem Holds.length_lt
    (holds : Holds memory table fields live) :
    live.length < 2 ^ 64 := by
  have notNull : null ∉ live.items := by
    intro isItem
    obtain ⟨one, isLive, isNull⟩ := List.mem_map.mp isItem
    exact holds.ne_null isLive isNull
  have bound :=
    length_le_of_nodup (List.nodup_cons.mpr ⟨notNull, holds.distinct⟩)
  rw [List.length_cons, items, List.length_map] at bound
  exact bound

theorem Holds.holdsStacks
    (holds : Holds memory table fields live) :
    HoldsStacks memory table live fields where
  atTable := holds.atTable
  count := by
    rw [holds.counted, BitVec.toNat_ofNat,
      Nat.mod_eq_of_lt holds.length_lt]
  distinct := holds.distinct
  bucketBelow _ := htableWhichBucket_lt holds.nonempty holds.bounded
  bucket _ inside := holds.hlist inside

/-- After any run the functions work on the stacks of live entries. -/
theorem HtableReach.servesStacks
    (reached : HtableReach table memory live) :
    ServesStacks memory table live := by
  obtain ⟨fields, holds⟩ := reached.holds
  have isTop (bytes : List Byte) :
      (live.top bytes).getD null = (live.stack bytes).headD null := by
    rw [top, List.headD_eq_head?_getD]
  refine ⟨⟨fields, holds.holdsStacks⟩, ?_, ?_, ?_, ?_⟩
  · intro key len bytes keyOf
    refine (holds.ensures_htableFind keyOf).weaken ?_
    intro entry after result
    obtain ⟨rfl, rfl⟩ := result
    refine ⟨rfl, isTop bytes, ?_⟩
    rw [← top_eq_none_iff]
    cases found : live.top bytes with
    | none =>
        simp
    | some entry =>
        obtain ⟨front, back, rfl, -⟩ := exists_of_top found
        have notNull : entry ≠ null :=
          @Holds.ne_null _ _ _ _ ⟨bytes, entry⟩ holds (by simp)
        simpa using notNull
  · intro key len bytes keyOf
    refine (holds.ensures_htableDelKey keyOf).weaken ?_
    intro entry after result
    obtain ⟨rfl, changed, -, -, popped⟩ := result
    exact ⟨isTop bytes, changed, popped.holdsStacks⟩
  · intro entry key len bytes addable keyOf
    refine (holds.ensures_htableAdd addable keyOf).weaken ?_
    intro _ after pushed
    exact ⟨_, pushed.holdsStacks⟩
  · refine holds.ensures_htableForEach.weaken ?_
    intro visited after result
    obtain ⟨rfl, rfl⟩ := result
    exact ⟨rfl, flatMap_bucket_perm fun one _ =>
      holds.bucketOf_lt one.key⟩

/-- The memory of a table with one bucket. -/
def oneBucket : HtableMemory where
  lists := ⟨.ofList [(8, 0)], .ofList []⟩
  entries := .ofList []
  tables := .ofList [(16, ⟨0, 0, 0, 0⟩)]
  bits := .ofList ((List.range 32).map fun index => (64 + index, 0))
  keys := .ofList []

/-- An entry and the key `a` are allocated. -/
def withEntry (memory : HtableMemory) : HtableMemory :=
  { memory with
    lists := { memory.lists with nodes := .ofList [(24, ⟨0, .null⟩)] }
    entries := .ofList [(24, ⟨0, 0⟩)]
    keys := .ofList [(128, ascii 'a')] }

/-- A memory in which all that a table needs can be found by evaluation. -/
theorem provided_of_isSome
    {table bucks size bitvect : Word}
    (hasFields : (memory.tables.cell table).isSome)
    (heads :
      ∀ index < size.toNat,
        (memory.lists.heads.cell (bucketAddress bucks index)).isSome)
    (mapped :
      ∀ index < bloomBytes,
        (memory.bits.cell (bitvect + BitVec.ofNat 64 index)).isSome) :
    Provided memory table bucks size bitvect :=
  ⟨Option.isSome_iff_exists.mp hasFields,
    fun index inside => Option.isSome_iff_exists.mp (heads index inside),
    fun index inside => Option.isSome_iff_exists.mp (mapped index inside)⟩

/-- The memory of a table with one bucket is enough for it. -/
theorem oneBucket_provided : Provided oneBucket 16 8 (sizeFor 1) 64 :=
  provided_of_isSome (by decide) (by decide) (by decide)

/-- Allocating them does not concern an empty table. -/
theorem withEntry_untouched
    (memory : HtableMemory)
    (table : Word) :
    Untouched memory table [] (withEntry memory) :=
  ⟨rfl, fun _ _ _ _ => rfl, fun _ _ _ _ => rfl,
    by simp [items], by simp [items], by simp [items]⟩

/-- The entry can be added to an empty table. -/
theorem withEntry_addable
    (memory : HtableMemory) :
    Addable (withEntry memory) [] 24 :=
  ⟨⟨_, rfl⟩, ⟨_, rfl⟩, by simp [items]⟩

/-- The key is in memory. -/
theorem withEntry_keyOf
    (memory : HtableMemory) :
    KeyOf (withEntry memory).keys 128 1 [ascii 'a'] := by
  refine ⟨by decide, ?_⟩
  intro index inside
  obtain rfl : index = 0 := Nat.lt_one_iff.mp inside
  rfl

end Runs

section Samples

variable {table entry key : Word}
variable {memory after : HtableMemory}
variable {live : LiveEntries}

/-- The memory of a table with two buckets, of four entries and of keys. -/
def looseTable : HtableMemory where
  lists :=
    ⟨.ofList [(8, 0), (16, 0)],
      .ofList
        [(24, ⟨0, .null⟩), (40, ⟨0, .null⟩), (56, ⟨0, .null⟩),
          (72, ⟨0, .null⟩)]⟩
  entries :=
    .ofList [(24, ⟨0, 0⟩), (40, ⟨0, 0⟩), (56, ⟨0, 0⟩), (72, ⟨0, 0⟩)]
  tables := .ofList [(16, ⟨0, 0, 0, 0⟩)]
  bits := .ofList ((List.range 32).map fun index => (64 + index, 0))
  keys :=
    .ofList
      [(128, ascii 'a'), (129, ascii 'b'), (130, ascii 'c'),
        (131, ascii 'd')]

/-- A key of one byte, and whether an entry occupies memory. -/
def isReady (entry key : Word) :
    Program HtableMemory (Bool × Bool × Option Byte) :=
  reads fun memory =>
    some ((memory.lists.nodes.cell entry).isSome,
      (memory.entries.cell entry).isSome, memory.keys.cell key)

/-- Memory with a key of one byte. -/
theorem keyOf_byte
    {byte : Byte}
    (isByte : memory.keys.cell key = some byte) :
    KeyOf memory.keys key 1 [byte] := by
  refine ⟨rfl, ?_⟩
  intro index inside
  obtain rfl : index = 0 := Nat.lt_one_iff.mp inside
  simpa using isByte

/-- A ready entry is added under its key. -/
theorem HtableReach.add_ready
    {byte : Byte}
    (reached : HtableReach table memory live)
    (ready :
      (∃ node, memory.lists.nodes.cell entry = some node) ∧
        (∃ fields, memory.entries.cell entry = some fields) ∧
        memory.keys.cell key = some byte)
    (fresh : entry ∉ live.items)
    (returned : (htableAdd table entry key 1).Returns memory () after) :
    HtableReach table after (live.push [byte] entry) :=
  reached.add ⟨ready.1, ready.2.1, fresh⟩ (keyOf_byte ready.2.2) returned

/--
Four entries are added, two of them under one key, and one of these is deleted.
The keys `b` and `c` have the same bucket, and the key `a` has the other one.
The answers are what is ready when it is needed, the deleted entry, the first
entries of the buckets, and the keys at the end.
-/
def fillTable :
    Program HtableMemory
      (List (Bool × Bool × Option Byte) × List Word ×
        List (Option Byte)) := do
  let _ ← htableInitN 16 2 8 64
  let first ← isReady 24 129
  htableAdd 16 24 129 1
  let second ← isReady 40 130
  htableAdd 16 40 130 1
  let third ← isReady 56 129
  htableAdd 16 56 129 1
  let fourth ← isReady 72 128
  htableAdd 16 72 128 1
  let fifth ← isReady 56 129
  let deleted ← htableDelKey 16 129 1
  let alone ← reads fun memory => memory.lists.heads.cell 8
  let common ← reads fun memory => memory.lists.heads.cell 16
  let keys ← reads fun memory =>
    some ([128, 129, 130, 131].map memory.keys.cell)
  pure ([first, second, third, fourth, fifth], [deleted, alone, common],
    keys)

/-- The entries of the table after these calls. -/
def threeEntries : LiveEntries :=
  [⟨[ascii 'a'], 72⟩, ⟨[ascii 'c'], 40⟩, ⟨[ascii 'b'], 24⟩]

/-- The calls are a run. -/
theorem exists_threeEntries :
    ∃ memory,
      HtableReach 16 memory threeEntries ∧
        memory.keys.cell 128 = some (ascii 'a') ∧
        memory.keys.cell 129 = some (ascii 'b') ∧
        memory.keys.cell 130 = some (ascii 'c') ∧
        memory.keys.cell 131 = some (ascii 'd') := by
  have provided : Provided looseTable 16 8 (sizeFor 2) 64 :=
    provided_of_isSome (by decide) (by decide) (by decide)
  have returns :
      fillTable.Ensures looseTable fun answers _ =>
        answers =
          ([(true, true, some (ascii 'b')), (true, true, some (ascii 'c')),
              (true, true, some (ascii 'b')),
              (true, true, some (ascii 'a')),
              (true, true, some (ascii 'b'))],
            [56, 72, 40],
            [some (ascii 'a'), some (ascii 'b'), some (ascii 'c'),
              some (ascii 'd')]) :=
    .of_exec 9 (by decide +kernel)
  simp only [fillTable, isReady, ensures_bind, ensures_reads, ensures_pure,
    Option.some.injEq, exists_eq_left', List.map_cons, List.map_nil,
    Prod.mk.injEq, List.cons.injEq, Option.isSome_iff_exists, and_true]
    at returns
  obtain ⟨status, empty, ranInit, _, one, ranOne, _, two, ranTwo, _, three,
    ranThree, _, four, ranFour, _, memory, ranDelete,
    _, -, _, -, ⟨first, second, third, fourth, -, -, isKey⟩,
    ⟨rfl, -⟩, keys⟩ := returns
  obtain ⟨rfl, -⟩ :=
    (provided.ensures_htableInitSize (by decide)
      (by decide)).of_returns ranInit
  have initialised : HtableReach 16 empty [] :=
    .initN (by decide) provided ranInit
  have added :=
    (((initialised.add_ready first (by decide) ranOne).add_ready second
      (by decide) ranTwo).add_ready third (by decide) ranThree).add_ready
        fourth (by decide) ranFour
  exact ⟨memory, added.delKey (keyOf_byte isKey) ranDelete, keys⟩

/--
In the table that the run has filled, the older entry of a key is found after
the more recent one was deleted, a key without an entry is not found, and an
entry behind another one of its bucket is deleted.
-/
theorem HtableReach.servesStacks_of_sample :
    ∃ memory,
      HtableReach 16 memory threeEntries ∧
        (htableFind 16 129 1).Ensures memory
          (fun entry after => after = memory ∧ entry = 24) ∧
        (htableFind 16 131 1).Ensures memory
          (fun entry after => after = memory ∧ entry = null) ∧
        (htableDelKey 16 129 1).Ensures memory
          (fun entry after =>
            entry = 24 ∧
              ∃ fields,
                HoldsStacks after 16
                  [⟨[ascii 'a'], 72⟩, ⟨[ascii 'c'], 40⟩] fields) ∧
        (htableForEach 16 (fun pos visited => pure (visited ++ [pos]))
          []).Ensures memory fun visited after =>
            after = memory ∧ visited.Perm [72, 40, 24] := by
  obtain ⟨memory, reached, -, isB, -, isD⟩ := exists_threeEntries
  have serves := HtableReach.servesStacks reached
  refine ⟨memory, reached, (serves.find 129 1 _ (keyOf_byte isB)).weaken ?_,
    (serves.find 131 1 _ (keyOf_byte isD)).weaken ?_,
    serves.delKey 129 1 _ (keyOf_byte isB), serves.forEach⟩
  · intro entry after found
    exact ⟨found.1, found.2.1⟩
  · intro entry after found
    exact ⟨found.1, found.2.1⟩

end Samples

end LibKern.Htables
