import LibKern.HlistRuns
import LibKern.HtableTraversal
import LibKern.ListTraversal

namespace LibKern

/-!
# Loops that are safe against removal

The loops over lists, over lists with a single pointer head and over hash tables
visit every entry once, whatever their bodies remove.
-/

open Program SequenceMap Wiring

/-- What the loops over a list do when their bodies remove entries. -/
structure Lists.TraversesSafely
    (how : Word → Option Lists.Removal)
    (memory : Lists.ListMemory)
    (lists : Lists.ListMap)
    (head : Word)
    (items : List Word) : Prop where
  forward :
    (Lists.listForEachSafe head (Lists.visitNode how) []).Ensures memory
      fun visited after =>
        visited = items ∧
          Lists.LeavesRest how lists head items items after
  backward :
    (Lists.listForEachPrevSafe head (Lists.visitNode how) []).Ensures
      memory fun visited after =>
        visited = items.reverse ∧
          Lists.LeavesRest how lists head items items.reverse after
  entries :
    ∀ member,
      (Lists.listForEachEntrySafe head member
        (Lists.visitEntry how member) []).Ensures memory
        fun visited after =>
          visited = items.map (Lists.listEntry · member) ∧
            Lists.LeavesRest how lists head items items after

/--
Every loop terminates, visits every entry once and in order, and leaves a list
of exactly the entries that its body does not remove.
-/
theorem traversesSafely :
    (∀ how memory lists head items, Lists.Refines memory lists →
      lists head = some items →
      (∀ node ∈ items, ∀ removal, how node = some removal →
        removal.Leaves lists head) →
        Lists.TraversesSafely how memory lists head items) ∧
    (∀ how memory lists head nodes, Hlists.Refines memory lists →
      lists head = some nodes →
        (Hlists.hlistForEachSafe head (Hlists.visitNode how) []).Ensures
          memory fun visited after =>
            visited = nodes ∧
              Hlists.Refines after
                (lists.set head (Hlists.keptNodes how nodes))) ∧
    ∀ how memory table fields contents,
      Htables.Buckets memory table fields contents →
        (Htables.htableForEachSafe table
          (Htables.visitEntry how) []).Ensures memory
          fun visited after =>
            visited = (List.range fields.size.toNat).flatMap contents ∧
              Htables.Buckets after table fields fun index =>
                Hlists.keptNodes how (contents index) := by
  refine ⟨?_, ?_, ?_⟩
  · intro how memory lists head items refines isList leaves
    exact ⟨refines.ensures_listForEachSafe isList leaves,
      refines.ensures_listForEachPrevSafe isList leaves,
      refines.ensures_listForEachEntrySafe isList leaves⟩
  · intro how memory lists head nodes refines isList
    exact refines.ensures_hlistForEachSafe isList how
  · intro how memory table fields contents buckets
    exact buckets.ensures_htableForEachSafe how

/-- A table with two buckets and four entries. -/
def fourEntryTable : Htables.HtableMemory where
  lists :=
    ⟨.ofList [(8, 24), (16, 48)],
      .ofList
        [(24, ⟨32, .first 8⟩), (32, ⟨40, .next 24⟩), (40, ⟨0, .next 32⟩),
          (48, ⟨0, .first 16⟩)]⟩
  entries := .ofList [(24, ⟨0, 0⟩), (32, ⟨0, 0⟩), (40, ⟨0, 0⟩), (48, ⟨0, 0⟩)]
  tables := .ofList [(64, ⟨8, 2, 4, 0⟩)]
  bits := .ofList []
  keys := .ofList []

/-- The entries in these buckets. -/
def fourEntries (index : Nat) : List Word :=
  if index = 0 then [24, 32, 40] else [48]

/-- The buckets have these entries. -/
theorem fourEntryTable_buckets :
    Htables.Buckets fourEntryTable 64 ⟨8, 2, 4, 0⟩ fourEntries := by
  have first : Hlists.Hlist fourEntryTable.lists 8 [24, 32, 40] :=
    ⟨by decide, path_cons.mpr ⟨⟨rfl, fun _ => rfl⟩,
      path_cons.mpr ⟨⟨rfl, fun _ => rfl⟩,
        path_cons.mpr ⟨⟨rfl, fun _ => rfl⟩,
          path_nil.mpr ⟨rfl, fun notNull => absurd rfl notNull⟩⟩⟩⟩⟩
  have second : Hlists.Hlist fourEntryTable.lists 16 [48] :=
    ⟨by decide, path_cons.mpr ⟨⟨rfl, fun _ => rfl⟩,
      path_nil.mpr ⟨rfl, fun notNull => absurd rfl notNull⟩⟩⟩
  have refines :
      Hlists.Refines fourEntryTable.lists
        (two 8 [24, 32, 40] 16 [48]) :=
    ⟨Held.two first second (by simp [Hlists.ownNodes])⟩
  have injective :
      Set.InjOn (Htables.bucketAddress 8) {index | index < 2} :=
    Htables.bucketAddress_injOn (by decide)
  refine ⟨rfl, by decide, ?_⟩
  change Hlists.Refines _ (indexed 2 _ _)
  rw [← indexed_succ injective,
    ← indexed_succ (injective.mono fun _ inside =>
      Nat.lt_succ_of_lt inside)]
  exact refines

/-- All entries but the one at 24 are deleted. -/
def removalBut24 (node : Word) : Option Hlists.Removal :=
  if node = 24 then none else some .delInit

/--
The loops remove adjacent entries and keep others.  In the table they also
remove the only entry of a bucket.
-/
theorem traversesSafely_of_sample :
    (∃ memory,
      Lists.ListsReach memory Lists.twoLists ∧
        Lists.TraversesSafely (Lists.removalOf 24 32) memory
          Lists.twoLists 8 [24, 32, 40] ∧
        (Lists.listForEachPrevSafe 8
          (Lists.visitNode (Lists.removalOf 24 32)) []).Ensures memory
            fun visited after =>
              visited = [40, 32, 24] ∧
                Lists.Ring after 8 [40] ∧
                Lists.Ring after 16 [48, 56, 32]) ∧
      (∃ memory,
        Hlists.HlistsReach memory Hlists.twoHlists ∧
          (Hlists.hlistForEachSafe 8 (Hlists.visitNode removalBut24)
            []).Ensures memory fun visited after =>
              visited = [24, 40, 32] ∧ Hlists.Hlist after 8 [24]) ∧
      (Htables.htableForEachSafe 64 (Htables.visitEntry removalBut24)
        []).Ensures fourEntryTable fun visited after =>
          visited = [24, 32, 40, 48] ∧
            Hlists.Hlist after.lists 8 [24] ∧
            Hlists.Hlist after.lists 16 [] := by
  obtain ⟨lists, hlists, tables⟩ := traversesSafely
  refine ⟨?_, ?_, ?_⟩
  · obtain ⟨memory, reached, -⟩ := Lists.twoLists_reached
    have traverses :=
      lists (Lists.removalOf 24 32) _ _ 8 [24, 32, 40] reached.refines rfl
        fun _ _ _ => Lists.removalOf_leaves
    refine ⟨memory, reached, traverses, traverses.backward.weaken ?_⟩
    intro visited after result
    obtain ⟨rfl, rest⟩ := result
    exact ⟨rfl, rest.refines.holds 8 _ (by decide),
      rest.refines.holds 16 _ (by decide)⟩
  · obtain ⟨memory, reached, -⟩ := Hlists.twoHlists_reached
    refine ⟨memory, reached,
      (hlists _ _ _ 8 [24, 40, 32] reached.refines rfl).weaken ?_⟩
    intro visited after result
    obtain ⟨rfl, refines⟩ := result
    exact ⟨rfl, refines.holds 8 _ rfl⟩
  · refine (tables _ _ _ _ _ fourEntryTable_buckets).weaken ?_
    intro visited after result
    obtain ⟨rfl, buckets⟩ := result
    exact ⟨rfl, @Htables.Buckets.hlist _ _ _ _ 0 buckets (by decide),
      @Htables.Buckets.hlist _ _ _ _ 1 buckets (by decide)⟩

end LibKern
