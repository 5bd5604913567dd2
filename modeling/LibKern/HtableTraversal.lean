import LibKern.HtableBuckets

namespace LibKern.Htables

/-!
# A loop over a table that removes entries

`htable_for_each_safe` visits the buckets one after the other and looks up the
next entry of a bucket before its body runs.  The body of the loop below deletes
some of the entries and notes every visit.
-/

open Program Hlists SequenceMap

/-- The body of a loop over the entries of a table. -/
def visitEntry
    (how : Word → Option Removal)
    (pos : Word)
    (visited : List Word) :
    Program HtableMemory (List Word) := do
  onLists (removeNode (how pos) (nodeOf pos))
  pure (visited ++ [pos])

/-- The nodes of the buckets when the first buckets were visited. -/
def keptBefore
    (how : Word → Option Removal)
    (contents : Nat → List Word)
    (count index : Nat) :
    List Word :=
  if index < count then keptNodes how (contents index) else contents index

section Visits

variable {how : Word → Option Removal}
variable {memory : HtableMemory}
variable {table node : Word}
variable {fields : Htable}
variable {contents : Nat → List Word}
variable {done rest : List Word}
variable {index : Nat}

/-- One entry is visited. -/
theorem Buckets.ensures_removeNode
    (buckets :
      Buckets memory table fields
        (Function.update contents index
          (keptNodes how done ++ node :: rest)))
    (inside : index < fields.size.toNat) :
    (onLists (removeNode (how node) node)).Ensures memory fun _ after =>
      Buckets after table fields
        (Function.update contents index
          (keptNodes how (done ++ [node]) ++ rest)) := by
  cases isHow : how node with
  | none =>
      rw [ensures_onLists]
      refine ensures_pure.mpr ?_
      rw [keptNodes_append_of_none isHow, List.append_assoc]
      exact buckets
  | some removal =>
      have hlist := buckets.hlist inside
      rw [Function.update_self] at hlist
      refine (buckets.remove inside (Function.update_self _ _ _)
        (hlist.ensures_removal removal)).weaken ?_
      intro _ after result
      rw [keptNodes_append_of_some isHow]
      rw [Function.update_idem] at result
      exact result.1

/-- A bucket that was visited. -/
theorem update_keptBefore_succ :
    Function.update (keptBefore how contents index) index
        (keptNodes how (contents index)) =
      keptBefore how contents (index + 1) := by
  refine Function.update_eq_iff.mpr ⟨?_, ?_⟩
  · rw [keptBefore, if_pos (Nat.lt_succ_self index)]
  · intro other different
    rw [keptBefore, keptBefore]
    have sameSide : other < index ↔ other < index + 1 := by omega
    simp only [sameSide]

/-- `htable_for_each_safe` visits the buckets one after the other. -/
theorem Buckets.ensures_htableForEachSafe
    (buckets : Buckets memory table fields contents)
    (how : Word → Option Removal) :
    (htableForEachSafe table (visitEntry how) []).Ensures memory
      fun visited after =>
        visited = (List.range fields.size.toNat).flatMap contents ∧
          Buckets after table fields fun index =>
            keptNodes how (contents index) := by
  rw [htableForEachSafe]
  refine (ensures_forEachBucket (fun index visited state =>
    visited = (List.range index).flatMap contents ∧
      Buckets state table fields (keptBefore how contents index))
    buckets.bounded ?_ ?_ ⟨rfl, ?_⟩).weaken ?_
  · intro index visited state progress
    rw [progress.2.atTable, BitVec.ofNat_toNat, BitVec.setWidth_eq]
    rfl
  · intro index inside visited state progress
    obtain ⟨rfl, visitedBefore⟩ := progress
    refine (ensures_eachSafe (fun rest visited state =>
      ∃ done, done ++ rest = contents index ∧
        visited = (List.range index).flatMap contents ++ done ∧
          Buckets state table fields
            (Function.update (keptBefore how contents index) index
              (keptNodes how done ++ rest)))
      (by simp) ?_ (visitedBefore.looksUp_firstEntry inside)
      ⟨[], ?_, by simp, ?_⟩).weaken ?_
    · intro pos rest visited state progress
      obtain ⟨done, isBucket, rfl, current⟩ := progress
      have hlist := current.hlist inside
      have notNull : pos ≠ null :=
        (hlist.allocated (by simp)).ne_null
      refine ⟨by simpa using notNull,
        current.looksUp_nextEntry inside (Function.update_self _ _ _), ?_⟩
      have isNode : nodeOf pos = pos := BitVec.add_zero _
      rw [visitEntry, ensures_bind, isNode]
      refine (current.ensures_removeNode inside).weaken ?_
      intro _ after removed
      exact ensures_pure.mpr ⟨done ++ [pos], by simp [← isBucket],
        by simp, removed⟩
    · rw [List.nil_append, keptBefore, if_neg (Nat.lt_irrefl index)]
    · change Buckets state table fields (Function.update
        (keptBefore how contents index) index
        (keptBefore how contents index index))
      rw [Function.update_eq_self]
      exact visitedBefore
    · intro visited after progress
      obtain ⟨done, isBucket, rfl, current⟩ := progress
      rw [List.append_nil] at isBucket current
      subst isBucket
      rw [update_keptBefore_succ] at current
      rw [List.range_succ, List.flatMap_append, List.flatMap_singleton]
      exact ⟨rfl, current⟩
  · exact buckets
  · intro visited after progress
    obtain ⟨rfl, visitedAll⟩ := progress
    refine ⟨rfl, visitedAll.atTable, visitedAll.bounded, ?_⟩
    have same :=
      @indexed_congr _ _ _ fields.size.toNat
        (bucketAddress fields.bucks) _
        (fun index => keptNodes how (contents index)) buckets.injOn
        (fun index (inside : index < fields.size.toNat) =>
          (if_pos inside :
            keptBefore how contents fields.size.toNat index = _))
    rw [← same]
    exact visitedAll.held

end Visits

end LibKern.Htables
