import LibKern.HtableEntries
import LibKern.StackPurge

namespace LibKern.Htables

/-!
# Deleting chosen entries of a table

A loop over a table with `htable_for_each_safe` may delete the entry that it
visits with `htable_del_entry`.  Since this deletes the most recent entry of the
key, the loop deletes the chosen entries only if they are the most recent ones
of their keys.  It visits every entry once in any case.
-/

open Program Hlists SequenceMap KeyedStacks

/-- The body of a loop that deletes the chosen entries. -/
def purgeEntry
    (table : Word)
    (chosen : Word → Bool)
    (pos : Word)
    (visited : List Word) :
    Program HtableMemory (List Word) := do
  onlyIf (chosen pos = true) (do
    let _ ← htableDelEntry table pos
    pure ())
  pure (visited ++ [pos])

/-- A loop over a table that deletes the chosen entries. -/
def htablePurge (table : Word) (chosen : Word → Bool) :
    Program HtableMemory (List Word) :=
  htableForEachSafe table (purgeEntry table chosen) []

section Purge

variable {memory state : HtableMemory}
variable {table : Word}
variable {fields : Htable}
variable {chosen : Word → Bool}
variable {live seen : LiveEntries}
variable {one : Keyed (List Byte) Word}
variable {index : Nat}

/-- The state of the loop after these entries. -/
structure Purging
    (table : Word)
    (fields : Htable)
    (chosen : Word → Bool)
    (live seen : LiveEntries)
    (state : HtableMemory) : Prop where
  reached : EntryReach table state (live.purge chosen seen)
  holds :
    ∃ changed, changed.bucks = fields.bucks ∧
      changed.size = fields.size ∧
      Holds state table changed (live.purge chosen seen)

/-- One entry is visited. -/
theorem Purging.ensures_purgeEntry
    (purging : Purging table fields chosen live seen state)
    (isLive : one ∈ live.purge chosen seen)
    (visited : List Word) :
    (purgeEntry table chosen one.item visited).Ensures state
      fun result after =>
        result = visited ++ [one.item] ∧
          Purging table fields chosen live (seen ++ [one]) after := by
  obtain ⟨reached, changed, sameBucks, sameSize, holds⟩ := purging
  rw [purgeEntry, ensures_bind]
  by_cases isChosen : chosen one.item = true
  · rw [ensures_onlyIf_of isChosen, ensures_bind]
    obtain ⟨deleted, after, returned, -, smaller, stillBucks, stillSize,
      popped⟩ := holds.ensures_htableDelEntry isLive
    have isPurge :
        live.purge chosen (seen ++ [one]) =
          (live.purge chosen seen).pop one.key := by
      rw [purge_append_singleton, if_pos isChosen]
    refine ⟨deleted, after, returned,
      ensures_pure.mpr (ensures_pure.mpr ⟨rfl, ?_, smaller,
        stillBucks.trans sameBucks, stillSize.trans sameSize, ?_⟩)⟩
    · rw [isPurge]
      exact reached.delEntry isLive returned
    · rw [isPurge]
      exact popped
  · have isPurge :
        live.purge chosen (seen ++ [one]) = live.purge chosen seen := by
      rw [purge_append_singleton, if_neg isChosen]
    rw [ensures_onlyIf_of_not isChosen, ensures_pure]
    refine ⟨rfl, ?_, changed, sameBucks, sameSize, ?_⟩
    · rw [isPurge]
      exact reached
    · rw [isPurge]
      exact holds

/-- The entries of the first buckets. -/
def entriesBelow
    (fields : Htable)
    (live : LiveEntries)
    (count : Nat) : LiveEntries :=
  (List.range count).flatMap (live.bucket (bucketOf fields.size))

/-- The loop is at the start of a bucket. -/
structure AtBucket
    (table : Word)
    (fields : Htable)
    (chosen : Word → Bool)
    (live : LiveEntries)
    (index : Nat)
    (visited : List Word)
    (state : HtableMemory) : Prop where
  isVisited : visited = (entriesBelow fields live index).items
  purging :
    Purging table fields chosen live (entriesBelow fields live index) state
  later :
    ∀ other, index ≤ other →
      (live.purge chosen (entriesBelow fields live index)).bucket
          (bucketOf fields.size) other =
        live.bucket (bucketOf fields.size) other

/-- The loop is inside of a bucket. -/
structure InBucket
    (table : Word)
    (fields : Htable)
    (chosen : Word → Bool)
    (live : LiveEntries)
    (index : Nat)
    (done todo : LiveEntries)
    (visited : List Word)
    (state : HtableMemory) : Prop where
  isBucket : live.bucket (bucketOf fields.size) index = done ++ todo
  isVisited :
    visited = items (entriesBelow fields live index ++ done)
  purging :
    Purging table fields chosen live
      (entriesBelow fields live index ++ done) state
  isLeft :
    ∃ kept,
      (live.purge chosen (entriesBelow fields live index ++ done)).bucket
          (bucketOf fields.size) index =
        kept ++ todo
  later :
    ∀ other, index < other →
      (live.purge chosen (entriesBelow fields live index ++ done)).bucket
          (bucketOf fields.size) other =
        live.bucket (bucketOf fields.size) other

/-- The next entry of a bucket is visited. -/
theorem InBucket.ensures_next
    {done todo : LiveEntries}
    {visited : List Word}
    (inBucket :
      InBucket table fields chosen live index done (one :: todo) visited
        state)
    (inside : index < fields.size.toNat) :
    one.item ≠ null ∧ LooksUp (nextEntry one.item) todo.items null state ∧
      (purgeEntry table chosen one.item visited).Ensures state
        fun visited after =>
          InBucket table fields chosen live index (done ++ [one]) todo
            visited after := by
  obtain ⟨isBucket, rfl, purging, ⟨kept, isLeft⟩, later⟩ := inBucket
  have place : bucketOf fields.size one.key = index := by
    have isMember : one ∈ live.bucket (bucketOf fields.size) index := by
      simp [isBucket]
    exact (mem_bucket.mp isMember).2
  have isLive :
      one ∈ live.purge chosen (entriesBelow fields live index ++ done) := by
    have isMember :
        one ∈
          (live.purge chosen
            (entriesBelow fields live index ++ done)).bucket
              (bucketOf fields.size) index := by
      simp [isLeft]
    exact (mem_bucket.mp isMember).1
  obtain ⟨reached, changed, sameBucks, sameSize, holds⟩ := purging
  have isContents :
      (live.purge chosen
        (entriesBelow fields live index ++ done)).itemsIn
          (bucketOf changed.size) index =
        items kept ++ one.item :: todo.items := by
    rw [itemsIn, sameSize, isLeft]
    simp [items]
  refine ⟨holds.ne_null isLive,
    holds.looksUp_nextEntry (sameSize ▸ inside) isContents, ?_⟩
  refine (Purging.ensures_purgeEntry
    ⟨reached, changed, sameBucks, sameSize, holds⟩ isLive _).weaken ?_
  intro visited after result
  obtain ⟨rfl, purged⟩ := result
  rw [List.append_assoc] at purged
  refine ⟨by simp [isBucket], by simp [items], purged, ?_, ?_⟩
  · rw [← List.append_assoc, purge_append_singleton]
    split
    · exact exists_bucket_pop isLeft place
    · exact ⟨kept ++ [one], by simp [isLeft]⟩
  · intro other above
    have different : bucketOf fields.size one.key ≠ other := by
      omega
    rw [← List.append_assoc, purge_append_singleton, ← later other above]
    split
    · rw [bucket_pop, if_neg different]
    · rfl

/-- The entries of one more bucket. -/
theorem entriesBelow_succ :
    entriesBelow fields live (index + 1) =
      entriesBelow fields live index ++
        live.bucket (bucketOf fields.size) index := by
  simp [entriesBelow, List.range_succ]

/-- A bucket is visited. -/
theorem AtBucket.ensures_bucket
    {visited : List Word}
    (atBucket : AtBucket table fields chosen live index visited state)
    (inside : index < fields.size.toNat) :
    (eachSafe (firstEntry table (BitVec.ofNat 64 index)) nextEntry
      (· = null) (purgeEntry table chosen) visited).Ensures state
        (AtBucket table fields chosen live (index + 1)) := by
  obtain ⟨rfl, purging, later⟩ := atBucket
  have isLeft := later index le_rfl
  obtain ⟨changed, sameBucks, sameSize, holds⟩ := purging.holds
  have starts := holds.looksUp_firstEntry (sameSize ▸ inside)
  rw [itemsIn, sameSize, isLeft] at starts
  refine (ensures_eachSafe (fun rest visited state =>
    ∃ done todo, rest = items todo ∧
      InBucket table fields chosen live index done todo visited state)
    (by simp) ?_ starts
    ⟨[], live.bucket (bucketOf fields.size) index, rfl, ?_⟩).weaken ?_
  · intro pos rest visited state progress
    obtain ⟨done, todo, isRest, inBucket⟩ := progress
    cases todo with
    | nil =>
        simp [items] at isRest
    | cons one todo =>
        simp only [items, List.map_cons, List.cons.injEq] at isRest
        obtain ⟨rfl, rfl⟩ := isRest
        obtain ⟨notNull, looksUp, visits⟩ := inBucket.ensures_next inside
        refine ⟨by simpa using notNull, looksUp, visits.weaken ?_⟩
        intro visited after inNext
        exact ⟨done ++ [one], todo, rfl, inNext⟩
  · refine ⟨rfl, by simp, by simpa using purging, ⟨[], ?_⟩, ?_⟩
    · simpa using isLeft
    · intro other above
      simpa using later other (by omega)
  · intro visited after progress
    obtain ⟨done, todo, isNil, inBucket⟩ := progress
    obtain rfl : todo = [] := List.map_eq_nil_iff.mp isNil.symm
    obtain ⟨isBucket, rfl, purged, -, laterStill⟩ := inBucket
    rw [List.append_nil] at isBucket
    rw [← isBucket, ← entriesBelow_succ] at purged laterStill ⊢
    exact ⟨rfl, purged, fun other above => laterStill other (by omega)⟩

/-- The loop visits all buckets. -/
theorem EntryReach.ensures_htablePurge
    (reached : EntryReach table memory live)
    (holds : Holds memory table fields live)
    (chosen : Word → Bool) :
    (htablePurge table chosen).Ensures memory
      (AtBucket table fields chosen live fields.size.toNat) := by
  rw [htablePurge, htableForEachSafe]
  refine ensures_forEachBucket
    (AtBucket table fields chosen live) holds.bounded ?_ ?_ ?_
  · intro index visited state atBucket
    obtain ⟨changed, -, sameSize, holdsState⟩ := atBucket.purging.holds
    rw [holdsState.atTable, BitVec.ofNat_toNat, BitVec.setWidth_eq,
      Option.map_some, sameSize]
  · intro index inside visited state atBucket
    exact atBucket.ensures_bucket inside
  · exact ⟨rfl, ⟨reached, fields, rfl, rfl, holds⟩, fun _ _ => rfl⟩

/-- The entries of all buckets are the live entries. -/
theorem Holds.entriesBelow_perm
    (holds : Holds memory table fields live) :
    (entriesBelow fields live fields.size.toNat).Perm live := by
  have all :
      (live.filter fun one =>
        bucketOf fields.size one.key < fields.size.toNat) = live :=
    List.filter_eq_self.mpr fun one _ => by
      simp [holds.bucketOf_lt one.key]
  have divided :=
    @flatMap_bucket_perm_filter _ _ (bucketOf fields.size)
      fields.size.toNat live
  rw [all] at divided
  exact divided

/--
A loop over a table that calls `htable_del_entry` for the chosen entries visits
every entry once and ends in a state of the table again.  Every key loses as
many of its most recent entries as were chosen.  What is left are the entries
that were not chosen exactly if no chosen entry has a more recent one of its key
that is kept; in particular, the table is emptied if all entries are chosen.
-/
theorem purge_leaves_unchosen_iff_newest_first
    (reached : EntryReach table memory live)
    (chosen : Word → Bool) :
    (htablePurge table chosen).Ensures memory fun visited after =>
      visited.Perm live.items ∧
        ∃ remaining, EntryReach table after remaining ∧
          (∀ key,
            remaining.stack key =
              (live.stack key).drop ((live.stack key).countP chosen)) ∧
          ((∀ key,
            remaining.stack key =
              (live.stack key).filter fun entry => !chosen entry) ↔
            live.NewestFirst chosen) ∧
          ((∀ entry ∈ live.items, chosen entry = true) →
            remaining = []) := by
  obtain ⟨fields, holds⟩ := reached.holds
  refine (reached.ensures_htablePurge holds chosen).weaken ?_
  intro visited after atEnd
  obtain ⟨rfl, purging, -⟩ := atEnd
  have everyEntry := holds.entriesBelow_perm
  have once (key : List Byte) :
      (stack (entriesBelow fields live fields.size.toNat) key).Perm
        (live.stack key) :=
    (everyEntry.filter _).map _
  refine ⟨everyEntry.map _, _, purging.reached, ?_,
    stack_purge_eq_filter_iff once, purge_eq_nil once⟩
  intro key
  rw [stack_purge, (once key).countP_eq]

/-- The more recent one of two entries with the same key is chosen. -/
theorem purge_leaves_unchosen_iff_newest_first_of_sample :
    ∃ memory, EntryReach 16 memory twoOfOneKey ∧
      (htablePurge 16 fun entry => entry = 40).Ensures memory
        fun _ after =>
          ∃ remaining, EntryReach 16 after remaining ∧
            remaining.stack [ascii 'a'] = [24] := by
  obtain ⟨memory, reached⟩ := exists_twoOfOneKey
  refine ⟨memory, reached, ?_⟩
  refine (purge_leaves_unchosen_iff_newest_first reached
    fun entry => entry = 40).weaken ?_
  intro visited after result
  obtain ⟨-, remaining, stillReached, isStack, -⟩ := result
  refine ⟨remaining, stillReached, ?_⟩
  rw [isStack]
  decide

end Purge

end LibKern.Htables
