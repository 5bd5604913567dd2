import LibKern.HtableRuns

namespace LibKern.Htables

/-!
# Deletion of an entry

`htable_del_entry` looks up the key of the entry and deletes what it finds.
This is the entry itself exactly if the entry is the most recent one of its
key.
-/

open Program Hlists Jhash SequenceMap KeyedStacks

/-- The states that are reached, with deletions by key and by entry. -/
inductive EntryReach (table : Word) :
    HtableMemory → LiveEntries → Prop where
  | init
      {memory after : HtableMemory}
      {bucks bitvect : Word}
      (provided : Provided memory table bucks hashNumBuckets bitvect)
      (returned :
        (htableInit table bucks bitvect).Returns memory 0 after) :
      EntryReach table after []
  | initN
      {memory after : HtableMemory}
      {n bucks bitvect : Word}
      (bounded : n.toNat ≤ 2 ^ 31 - 1)
      (provided : Provided memory table bucks (sizeFor n) bitvect)
      (returned :
        (htableInitN table n bucks bitvect).Returns memory 0 after) :
      EntryReach table after []
  | elsewhere
      {memory after : HtableMemory}
      {live : LiveEntries}
      (reached : EntryReach table memory live)
      (untouched : Untouched memory table live after) :
      EntryReach table after live
  | add
      {memory after : HtableMemory}
      {live : LiveEntries}
      {entry key len : Word}
      {bytes : List Byte}
      (reached : EntryReach table memory live)
      (addable : Addable memory live entry)
      (keyOf : KeyOf memory.keys key len bytes)
      (returned : (htableAdd table entry key len).Returns memory () after) :
      EntryReach table after (live.push bytes entry)
  | delKey
      {memory after : HtableMemory}
      {live : LiveEntries}
      {entry key len : Word}
      {bytes : List Byte}
      (reached : EntryReach table memory live)
      (keyOf : KeyOf memory.keys key len bytes)
      (returned : (htableDelKey table key len).Returns memory entry after) :
      EntryReach table after (live.pop bytes)
  | delEntry
      {memory after : HtableMemory}
      {live : LiveEntries}
      {one : Keyed (List Byte) Word}
      {entry : Word}
      (reached : EntryReach table memory live)
      (isLive : one ∈ live)
      (returned :
        (htableDelEntry table one.item).Returns memory entry after) :
      EntryReach table after (live.pop one.key)

/-- Exactly this entry is unlinked, and the others keep their order. -/
structure Unlinks
    (memory : HtableMemory)
    (table entry : Word)
    (live : LiveEntries)
    (after : HtableMemory)
    (fields changed : Htable) : Prop where
  isBefore : memory.tables.cell table = some fields
  isAfter : after.tables.cell table = some changed
  sameBucks : changed.bucks = fields.bucks
  sameSize : changed.size = fields.size
  fewer : fields.count.toNat = changed.count.toNat + 1
  linked :
    ∀ index < fields.size.toNat,
      Hlist memory.lists (bucketAddress fields.bucks index)
        (live.itemsIn (bucketOf fields.size) index)
  unlinked :
    ∀ index < fields.size.toNat,
      Hlist after.lists (bucketAddress fields.bucks index)
        ((live.itemsIn (bucketOf fields.size) index).erase entry)

/-- `htable_del_entry` deletes the entry that it is given. -/
def DeletesEntry
    (memory : HtableMemory)
    (table entry : Word)
    (live : LiveEntries) : Prop :=
  (htableDelEntry table entry).Ensures memory fun deleted after =>
    deleted = entry ∧
      ∃ fields changed,
        Unlinks memory table entry live after fields changed

section Entries

variable {memory after : HtableMemory}
variable {table entry : Word}
variable {fields : Htable}
variable {live : LiveEntries}
variable {one : Keyed (List Byte) Word}

/-- `htable_del_entry` deletes the most recent entry of the key. -/
theorem Holds.ensures_htableDelEntry
    (holds : Holds memory table fields live)
    (isLive : one ∈ live) :
    (htableDelEntry table one.item).Ensures memory fun deleted after =>
      deleted = (live.top one.key).getD null ∧
        ∃ changed, changed.bucks = fields.bucks ∧
          changed.size = fields.size ∧
          Holds after table changed (live.pop one.key) := by
  obtain ⟨stored, atEntry, keyOf⟩ := holds.stores one isLive
  rw [htableDelEntry, ensures_bind, entryField, ensures_reads, atEntry]
  refine ⟨_, rfl, ?_⟩
  rw [ensures_bind, entryField, ensures_reads, atEntry]
  refine ⟨_, rfl, ?_⟩
  exact holds.ensures_htableDelKey keyOf

/-- The invariant of the runs. -/
theorem EntryReach.holds
    (reached : EntryReach table memory live) :
    ∃ fields, Holds memory table fields live := by
  induction reached with
  | init provided returned =>
      exact (HtableReach.init provided returned).holds
  | initN bounded provided returned =>
      exact (HtableReach.initN bounded provided returned).holds
  | elsewhere reached untouched inductionHypothesis =>
      obtain ⟨fields, holds⟩ := inductionHypothesis
      exact ⟨fields, holds.elsewhere untouched⟩
  | add reached addable keyOf returned inductionHypothesis =>
      obtain ⟨fields, holds⟩ := inductionHypothesis
      exact ⟨_, (holds.ensures_htableAdd addable keyOf).of_returns
        returned⟩
  | delKey reached keyOf returned inductionHypothesis =>
      obtain ⟨fields, holds⟩ := inductionHypothesis
      obtain ⟨-, changed, -, -, popped⟩ :=
        (holds.ensures_htableDelKey keyOf).of_returns returned
      exact ⟨changed, popped⟩
  | delEntry reached isLive returned inductionHypothesis =>
      obtain ⟨fields, holds⟩ := inductionHypothesis
      obtain ⟨-, changed, -, -, popped⟩ :=
        (holds.ensures_htableDelEntry isLive).of_returns returned
      exact ⟨changed, popped⟩

/-- The most recent entry of a key is unlinked when the key is popped. -/
theorem Holds.unlinks
    {changed : Htable}
    {bytes : List Byte}
    (holds : Holds memory table fields live)
    (isTop : live.top bytes = some entry)
    (sameBucks : changed.bucks = fields.bucks)
    (sameSize : changed.size = fields.size)
    (popped : Holds after table changed (live.pop bytes)) :
    Unlinks memory table entry live after fields changed := by
  obtain ⟨front, back, rfl, isPop⟩ := exists_of_top isTop
  rw [isPop] at popped
  have counted := holds.holdsStacks.count
  have countedAfter := popped.holdsStacks.count
  refine ⟨holds.atTable, popped.atTable, sameBucks, sameSize, ?_,
    fun index inside => holds.hlist inside, ?_⟩
  · simp only [List.length_append, List.length_cons] at counted
    simp only [List.length_append] at countedAfter
    omega
  · intro index inside
    have erased :=
      @itemsIn_remove_eq_erase _ _ (bucketOf fields.size) front back
        ⟨bytes, entry⟩ _ holds.distinct index
    rw [← erased, ← sameBucks, ← sameSize]
    rw [← sameSize] at inside
    exact popped.hlist inside

/--
In every state of a run, `htable_del_entry` deletes a live entry exactly if the
entry is the most recent one of its key.
-/
theorem deletes_entry_iff_most_recent
    (reached : EntryReach table memory live)
    (isLive : one ∈ live) :
    DeletesEntry memory table one.item live ↔
      live.top one.key = some one.item := by
  obtain ⟨fields, holds⟩ := reached.holds
  have deletes := holds.ensures_htableDelEntry isLive
  constructor
  · intro deletesEntry
    obtain ⟨deleted, after, returned, isTop, -⟩ := deletes
    obtain ⟨rfl, -⟩ := deletesEntry.of_returns returned
    cases found : live.top one.key with
    | none =>
        exact absurd rfl (top_eq_none_iff.mp found one isLive)
    | some entry =>
        rw [found, Option.getD_some] at isTop
        rw [isTop]
  · intro isTop
    refine deletes.weaken ?_
    intro deleted after result
    obtain ⟨isDeleted, changed, sameBucks, sameSize, popped⟩ := result
    rw [isTop, Option.getD_some] at isDeleted
    exact ⟨isDeleted, fields, changed,
      holds.unlinks isTop sameBucks sameSize popped⟩

/-- An entry is allocated. -/
def withEntryAt (entry : Word) (memory : HtableMemory) : HtableMemory :=
  { memory with
    lists :=
      { memory.lists with
        nodes := memory.lists.nodes.allocate entry ⟨0, .null⟩ }
    entries := memory.entries.allocate entry ⟨0, 0⟩ }

/-- An entry that is not live can be allocated and then added. -/
theorem EntryReach.allocate
    (reached : EntryReach table memory live)
    (notNull : entry ≠ null)
    (fresh : entry ∉ live.items) :
    EntryReach table (withEntryAt entry memory) live ∧
      Addable (withEntryAt entry memory) live entry := by
  have different
      {other : Word}
      (isLive : other ∈ live.items) :
      other ≠ entry := by
    rintro rfl
    exact fresh isLive
  refine ⟨reached.elsewhere ⟨rfl, fun _ _ _ _ => rfl, fun _ _ _ _ => rfl,
    ?_, ?_, fun _ _ _ _ _ _ => rfl⟩,
    ⟨_, Memory.allocate_cell_same _ _ notNull⟩,
    ⟨_, Memory.allocate_cell_same _ _ notNull⟩, fresh⟩
  · intro other isLive
    exact Memory.allocate_cell_of_ne _ _ (different isLive)
  · intro other isLive
    exact Memory.allocate_cell_of_ne _ _ (different isLive)

/-- Two entries with the key `a`, of which the second is more recent. -/
def twoOfOneKey : LiveEntries :=
  [⟨[ascii 'a'], 40⟩, ⟨[ascii 'a'], 24⟩]

/-- A table with one bucket and two entries with the same key. -/
theorem exists_twoOfOneKey :
    ∃ memory, EntryReach 16 memory twoOfOneKey := by
  obtain ⟨nonempty, inRange⟩ := @sizeFor_bounds 1 (by decide)
  obtain ⟨result, empty, returned, rfl, -⟩ :=
    oneBucket_provided.ensures_htableInitSize nonempty inRange
  have initialised : EntryReach 16 empty [] :=
    .initN (by decide) oneBucket_provided returned
  have allocated : EntryReach 16 (withEntry empty) [] :=
    initialised.elsewhere (withEntry_untouched empty 16)
  have addable := withEntry_addable empty
  have keyOf := withEntry_keyOf empty
  obtain ⟨fields, holds⟩ := allocated.holds
  obtain ⟨_, memory, added, holds⟩ := holds.ensures_htableAdd addable keyOf
  have reached := allocated.add addable keyOf added
  obtain ⟨reached, addable⟩ :=
    @EntryReach.allocate _ _ 40 _ reached (by decide) (by decide)
  obtain ⟨fields, holds⟩ := reached.holds
  obtain ⟨stored, -, keyOf⟩ := holds.stores ⟨[ascii 'a'], 24⟩ (by simp [push])
  obtain ⟨_, memory, added, -⟩ := holds.ensures_htableAdd addable keyOf
  exact ⟨memory, reached.add addable keyOf added⟩

/-- The more recent one of two entries with the same key is deleted. -/
theorem deletes_entry_iff_most_recent_of_sample :
    ∃ memory, EntryReach 16 memory twoOfOneKey ∧
      DeletesEntry memory 16 40 twoOfOneKey := by
  obtain ⟨memory, reached⟩ := exists_twoOfOneKey
  exact ⟨memory, reached,
    (@deletes_entry_iff_most_recent _ _ _ ⟨[ascii 'a'], 40⟩ reached
      (by simp [twoOfOneKey])).mpr (by decide)⟩

/-- If the older one of two entries is given, the other one is deleted. -/
theorem other_entry_deleted :
    ∃ memory, EntryReach 16 memory twoOfOneKey ∧
      (htableDelEntry 16 24).Ensures memory (fun deleted _ =>
        deleted = 40) ∧
      ¬DeletesEntry memory 16 24 twoOfOneKey := by
  obtain ⟨memory, reached⟩ := exists_twoOfOneKey
  obtain ⟨fields, holds⟩ := reached.holds
  have deletes :=
    @Holds.ensures_htableDelEntry _ _ _ _ ⟨[ascii 'a'], 24⟩ holds
      (by simp [twoOfOneKey])
  refine ⟨memory, reached, deletes.weaken ?_, ?_⟩
  · intro deleted after result
    rw [result.1]
    decide
  · intro deletesEntry
    obtain ⟨deleted, after, returned, isOther, -⟩ := deletes
    obtain ⟨isOlder, -⟩ := deletesEntry.of_returns returned
    rw [isOther] at isOlder
    exact absurd isOlder (by decide)

end Entries

end LibKern.Htables
