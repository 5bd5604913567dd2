import LibKern.LHeapRuns
import LibKern.RbTreeIteration
import LibKern.RbTreeMap
import Mathlib.Data.List.Pairwise

namespace LibKern

/-!
# The direction of the comparisons

With a comparison function in the manner of `strcmp`, the comparisons of
`lh_merge` move the larger of two keys up, and the descents of `rb_find` and
`rb_insert` go left to the larger keys.  The documented minimum is therefore a
maximum, and the traversal goes down.  Both agree with the documentation only
as long as no two keys differ.
-/

open Program

section Heaps

open LHeap

variable {κ : Type} [Preorder κ] {member : Word} {cmp : κ → κ → Int}
variable {state : HeapState κ}

/-- `lh_min` returns a node of the heap with a minimal key. -/
def MinIsMinimal (member : Word) (state : HeapState κ) : Prop :=
  lhMin.Ensures state.heap fun least after =>
    after = state.heap ∧
      ∀ node ∈ state.members,
        least ∈ state.members ∧
          state.key (lhEntry member least) ≤
            state.key (lhEntry member node)

/-- No node of the heap has a smaller key than another one. -/
def HeapKeysEqual (member : Word) (state : HeapState κ) : Prop :=
  ∀ first ∈ state.members,
    ∀ second ∈ state.members,
      ¬state.key (lhEntry member first) <
        state.key (lhEntry member second)

/-- `lh_min` returns a node with a maximal key. -/
theorem lhNode_maximal
    {tree : Tree Word Int}
    (usual : UsualComparison cmp)
    (holds : state.Holds member cmp tree)
    {node : Word}
    (isMember : node ∈ state.members) :
    state.heap.lhNode ∈ state.members ∧
      state.key (lhEntry member node) ≤
        state.key (lhEntry member state.heap.lhNode) := by
  obtain ⟨isRoot, precedes⟩ :=
    holds.lhNode_precedes usual.threeWay isMember
  exact ⟨isRoot, (usual.nonneg_iff _ _).mp precedes⟩

/-- A maximal key is minimal exactly if no two keys differ. -/
theorem minIsMinimal_iff
    {tree : Tree Word Int}
    (usual : UsualComparison cmp)
    (holds : state.Holds member cmp tree) :
    MinIsMinimal member state ↔ HeapKeysEqual member state := by
  rw [MinIsMinimal, ensures_lhMin]
  constructor
  · intro minimal first isFirst second isSecond below
    have leFirst := (minimal.2 first isFirst).2
    have leRoot := (lhNode_maximal usual holds isSecond).2
    exact below.not_ge (leRoot.trans leFirst)
  · intro equal
    refine ⟨rfl, ?_⟩
    intro node isMember
    have isRoot := (lhNode_maximal usual holds isMember).1
    exact ⟨isRoot, usual.le_of_not_lt (equal node isMember _ isRoot)⟩

end Heaps

section Trees

open RbTree

variable {κ : Type} {member : Word} {cmp : κ → κ → Int}
variable {state : MapState κ} {tree : Tree Word Color}

/-- The nodes that `rb_for_each` visits. -/
theorem ensures_visited
    (refines : state.Refines member cmp tree) :
    (rbForEach (fun visited pos => pure (visited ++ [pos])) []).Ensures
      state.tree fun visited after =>
        visited = tree.inorder ∧ after = state.tree := by
  refine (ensures_rbTraverse .right _ [] refines.valid.holds).weaken ?_
  intro visited after result
  refine ⟨result.1.trans ?_, result.2⟩
  rw [List.foldl_append_eq_append, List.nil_append]
  exact List.flatMap_singleton' _

variable [Preorder κ]

/--
`rb_for_each` visits the nodes in ascending order of their keys, and `rb_first`
returns a node with a smallest key.
-/
def VisitsAscending (member : Word) (state : MapState κ) : Prop :=
  (rbForEach (fun visited pos => pure (visited ++ [pos])) []).Ensures
      state.tree (fun visited after =>
        after = state.tree ∧
          (∀ node,
            node ∈ visited ↔ ∃ value, state.map value = some node) ∧
          visited.Pairwise fun first second =>
            entryKey member state.key first <
              entryKey member state.key second) ∧
    rbFirst.Ensures state.tree fun first after =>
      after = state.tree ∧
        ∀ value node,
          state.map value = some node →
          (∃ own, state.map own = some first) ∧
            entryKey member state.key first ≤
              entryKey member state.key node

/-- No key of the tree is smaller than another one. -/
def TreeKeysEqual (state : MapState κ) : Prop :=
  ∀ first second,
    state.map first ≠ none →
    state.map second ≠ none →
    ¬first < second

/-- The tree is listed in descending order. -/
theorem inorder_descending
    (usual : UsualComparison cmp)
    (refines : state.Refines member cmp tree) :
    tree.inorder.Pairwise fun first second =>
      entryKey member state.key second <
        entryKey member state.key first := by
  refine refines.sorted.imp ?_
  intro first second above
  exact (usual.pos_iff _ _).mp above

/-- Every node of the tree is the entry of its own key. -/
theorem map_entryKey
    (usual : UsualComparison cmp)
    (refines : state.Refines member cmp tree)
    {node : Word}
    (isNode : node ∈ tree.inorder) :
    state.map (entryKey member state.key node) = some node :=
  (refines.lookup _ node).mpr
    ⟨isNode, usual.threeWay.equivalence.refl _⟩

/-- Only a tree with one key is listed in both directions. -/
theorem treeKeysEqual_of_ascending
    (usual : UsualComparison cmp)
    (refines : state.Refines member cmp tree)
    (ascending :
      tree.inorder.Pairwise fun first second =>
        entryKey member state.key first <
          entryKey member state.key second) :
    TreeKeysEqual state := by
  intro first second hasFirst hasSecond below
  obtain ⟨node, isNode⟩ := Option.ne_none_iff_exists'.mp hasFirst
  obtain ⟨other, isOther⟩ := Option.ne_none_iff_exists'.mp hasSecond
  have atNode := (refines.lookup first node).mp isNode
  have atOther := (refines.lookup second other).mp isOther
  have single :
      tree.inorder.Pairwise fun first second => first = second :=
    (ascending.and (inorder_descending usual refines)).imp fun both =>
      absurd both.1 both.2.asymm
  have same : node = other := by
    by_contra different
    exact different (single.forall atNode.1 atOther.1 different)
  subst same
  rw [usual.zero_iff] at atNode atOther
  exact below.not_ge (atOther.2.2.trans atNode.2.1)

/-- No node has a smaller key than another one. -/
theorem TreeKeysEqual.not_lt
    (equal : TreeKeysEqual state)
    (usual : UsualComparison cmp)
    (refines : state.Refines member cmp tree)
    {first second : Word}
    (isFirst : first ∈ tree.inorder)
    (isSecond : second ∈ tree.inorder) :
    ¬entryKey member state.key first <
      entryKey member state.key second := by
  apply equal
  · rw [map_entryKey usual refines isFirst]
    exact Option.some_ne_none _
  · rw [map_entryKey usual refines isSecond]
    exact Option.some_ne_none _

/-- The nodes of the tree are the entries of the map. -/
theorem mem_inorder_iff
    (usual : UsualComparison cmp)
    (refines : state.Refines member cmp tree)
    (node : Word) :
    node ∈ tree.inorder ↔ ∃ value, state.map value = some node := by
  constructor
  · intro isNode
    exact ⟨_, map_entryKey usual refines isNode⟩
  · intro isEntry
    obtain ⟨value, isEntry⟩ := isEntry
    exact ((refines.lookup value node).mp isEntry).1

/-- A descending listing ascends exactly if no two keys differ. -/
theorem visitsAscending_iff
    (usual : UsualComparison cmp)
    (refines : state.Refines member cmp tree) :
    VisitsAscending member state ↔ TreeKeysEqual state := by
  constructor
  · intro ascends
    obtain ⟨visited, after, returned, -, -, ascending⟩ := ascends.1
    obtain ⟨rfl, -⟩ := (ensures_visited refines).of_returns returned
    exact treeKeysEqual_of_ascending usual refines ascending
  · intro equal
    constructor
    · refine (ensures_visited refines).weaken ?_
      intro visited after result
      obtain ⟨rfl, rfl⟩ := result
      refine ⟨rfl, mem_inorder_iff usual refines, ?_⟩
      refine (inorder_descending usual refines).imp_of_mem ?_
      intro first second isFirst isSecond below
      exact absurd below (equal.not_lt usual refines isSecond isFirst)
    · refine (ensures_rbEdge .right refines.valid.holds).weaken ?_
      intro first after result
      obtain ⟨rfl, rfl⟩ := result
      refine ⟨rfl, ?_⟩
      intro value node isEntry
      have isNode := (mem_inorder_iff usual refines node).mpr ⟨_, isEntry⟩
      have isFirst :
          (tree.along .right).headD null ∈ tree.inorder := by
        obtain ⟨head, tail, order⟩ :=
          List.exists_cons_of_ne_nil (List.ne_nil_of_mem isNode)
        simp [Tree.along, order]
      exact ⟨⟨_, map_entryKey usual refines isFirst⟩,
        usual.le_of_not_lt (equal.not_lt usual refines isNode isFirst)⟩

end Trees

/--
In every state of every run `lh_min` returns a node with a minimal key exactly
if no two keys of the heap differ, and `rb_for_each` visits the nodes in
ascending order from the smallest exactly if no two keys of the tree differ.
-/
theorem minimum_and_traversal_iff
    {κ : Type}
    [Preorder κ]
    {cmp : κ → κ → Int}
    (usual : UsualComparison cmp) :
    (∀ (member : Word) (state : LHeap.HeapState κ),
      LHeap.HeapRun member cmp (fun _ => False) state →
      (MinIsMinimal member state ↔ HeapKeysEqual member state)) ∧
      ∀ (member : Word) (state : RbTree.MapState κ),
        RbTree.MapRun member cmp state →
        (VisitsAscending member state ↔ TreeKeysEqual state) := by
  constructor
  · intro member state run
    obtain ⟨tree, holds⟩ := run.exists_holds usual.threeWay (by simp)
    exact minIsMinimal_iff usual holds
  · intro member state run
    obtain ⟨tree, refines⟩ := run.exists_refines usual.threeWay
    exact visitsAscending_iff usual refines

section Samples

open LHeap RbTree

/-- The sample comparison is the usual one. -/
theorem sampleCmp_usual : UsualComparison sampleCmp :=
  usualComparison_sub

/-- The map with one key. -/
def sampleMap : KeyMap Int :=
  KeyMap.insert sampleCmp KeyMap.empty 32 32

/-- One node is inserted into an empty tree. -/
theorem sampleState_after_insertion :
    ∃ after,
      (rbInsert 0 sampleKey sampleCmp 32).Returns
          (sampleState.setRoot null) () after ∧
        after.Allocated 16 ∧
        MapRun 0 sampleCmp ⟨after, sampleKey, sampleMap⟩ := by
  have valid : (sampleState.setRoot null).Valid .nil :=
    RbState.valid_nil rfl
  have allocated : (sampleState.setRoot null).Allocated 32 :=
    sampleState_allocated
  have executed :
      ((rbInsert 0 sampleKey sampleCmp 32).exec 9
        (sampleState.setRoot null)).map (fun result =>
          (result.2.view.cell 16).isSome) = some true := by
    decide
  obtain ⟨⟨_, after⟩, returned, isAllocated⟩ :=
    Option.map_eq_some_iff.mp executed
  exact ⟨after, ⟨9, returned⟩, Option.isSome_iff_exists.mp isAllocated,
    .step (.start rfl)
      (.insert valid.holds allocated List.not_mem_nil ⟨9, returned⟩)⟩

/-- Another node is inserted into the tree. -/
theorem sampleState_after_two_insertions :
    ∃ after,
      MapRun 0 sampleCmp
        ⟨after, sampleKey, KeyMap.insert sampleCmp sampleMap 16 16⟩ := by
  obtain ⟨between, -, allocated, run⟩ := sampleState_after_insertion
  obtain ⟨tree, refines⟩ := run.exists_refines sampleCmp_usual.threeWay
  have fresh : (16 : Word) ∉ tree.inorder := by
    intro isNode
    have entry : sampleMap (entryKey 0 sampleKey 16) = some 16 :=
      map_entryKey sampleCmp_usual refines isNode
    have noEntry : sampleMap (entryKey 0 sampleKey 16) = none := by
      decide
    rw [noEntry] at entry
    cases entry
  obtain ⟨_, after, returned, -⟩ :=
    ensures_rbInsert sampleCmp_usual.threeWay refines.valid
      refines.sorted allocated fresh
  exact ⟨after,
    .step run (.insert refines.valid.holds allocated fresh returned)⟩

/--
Three insertions of nodes with one key.  The answers are the nodes that occupy
memory when they are needed.
-/
def equalCalls : Program LhState (List Bool) := do
  insertInitialised sameKey 16
  let second ← isMapped 32
  insertInitialised sameKey 32
  let third ← isMapped 48
  insertInitialised sameKey 48
  pure [second, third]

/-- The calls are a run. -/
theorem exists_equalRun :
    ∃ heap,
      HeapRun 0 sampleCmp (fun _ => False)
        ⟨heap, sameKey, [48, 32, 16]⟩ := by
  have returns :
      equalCalls.Ensures looseHeap fun answers _ =>
        answers = [true, true] :=
    .of_exec 9 (by decide)
  simp only [equalCalls, isMapped, ensures_bind, ensures_reads,
    ensures_pure, Option.some.injEq, exists_eq_left', List.cons.injEq,
    Option.isSome_iff_exists, and_true] at returns
  obtain ⟨_, one, ranOne, _, two, ranTwo, _, heap, ranThree, second,
    third⟩ := returns
  have first : looseHeap.Allocated 16 :=
    ⟨⟨0, 0, 0, 0⟩, by decide⟩
  exact ⟨heap,
    .step
      (.step
        (.step (.start rfl) (.insert first (by decide) ranOne))
        (.insert second (by decide) ranTwo))
      (.insert third (by decide) ranThree)⟩

/-- With one key both containers meet the documentation. -/
theorem minimum_and_traversal_of_single :
    (∃ heap,
      HeapRun 0 sampleCmp (fun _ => False)
          ⟨heap, sameKey, [48, 32, 16]⟩ ∧
        MinIsMinimal 0 ⟨heap, sameKey, [48, 32, 16]⟩) ∧
      ∃ tree,
        (rbInsert 0 sampleKey sampleCmp 32).Returns
            (sampleState.setRoot null) () tree ∧
          VisitsAscending 0 ⟨tree, sampleKey, sampleMap⟩ := by
  obtain ⟨heaps, trees⟩ := minimum_and_traversal_iff sampleCmp_usual
  constructor
  · obtain ⟨heap, run⟩ := exists_equalRun
    refine ⟨heap, run, (heaps 0 _ run).mpr ?_⟩
    intro one _ other _ below
    exact lt_irrefl _ below
  · obtain ⟨after, returned, -, run⟩ := sampleState_after_insertion
    refine ⟨after, returned, (trees 0 _ run).mpr ?_⟩
    have only
        (value : Int)
        (isKey : sampleMap value ≠ none) :
        value = 32 := by
      by_contra different
      apply isKey
      have apart : (32 : Int) - value ≠ 0 := by
        omega
      simp [sampleMap, KeyMap.insert, KeyMap.assign, KeyMap.empty,
        sampleCmp, apart]
    intro first second isFirst isSecond below
    rw [only first isFirst, only second isSecond] at below
    exact lt_irrefl _ below

/-- With the keys 16 and 32 neither container meets the documentation. -/
theorem minimum_and_traversal_not_ascending :
    UsualComparison sampleCmp ∧
      (∃ heap,
        HeapRun 0 sampleCmp (fun _ => False)
            ⟨heap, sampleKey, [32, 16]⟩ ∧
          ¬MinIsMinimal 0 ⟨heap, sampleKey, [32, 16]⟩) ∧
      ∃ tree,
        MapRun 0 sampleCmp
            ⟨tree, sampleKey, KeyMap.insert sampleCmp sampleMap 16 16⟩ ∧
          ¬VisitsAscending 0
            ⟨tree, sampleKey,
              KeyMap.insert sampleCmp sampleMap 16 16⟩ := by
  refine ⟨sampleCmp_usual, ?_, ?_⟩
  · obtain ⟨-, heap, tree, -, -, run, holds⟩ :=
      sampleHeap_after_two_insertions fun _ => False
    refine ⟨heap, run, ?_⟩
    rw [minIsMinimal_iff sampleCmp_usual holds]
    intro equal
    have below :
        sampleKey (lhEntry 0 16) < sampleKey (lhEntry 0 32) := by
      decide
    exact equal 16 (by simp) 32 (by simp) below
  · obtain ⟨after, run⟩ := sampleState_after_two_insertions
    obtain ⟨tree, refines⟩ := run.exists_refines sampleCmp_usual.threeWay
    refine ⟨after, run, ?_⟩
    rw [visitsAscending_iff sampleCmp_usual refines]
    intro equal
    have isFirst :
        KeyMap.insert sampleCmp sampleMap 16 16 16 ≠ none := by
      decide
    have isSecond :
        KeyMap.insert sampleCmp sampleMap 16 16 32 ≠ none := by
      decide
    exact equal 16 32 isFirst isSecond (by decide)

end Samples

end LibKern
