import LibKern.LHeapRuns
import Mathlib.Data.List.Permutation

namespace LibKern.LHeap

/-!
# Several heaps in one memory

The nodes of all heaps of a client lie in one memory, and `lh_merge` moves the
nodes of one heap into another one.  A run starts with empty heaps; every
operation names the heaps it works on.  No operation lets two heaps share a
node, and each heap keeps its own leftist heap whatever happens to the others.
-/

open Program

/-- The memory of `struct lh_node` objects and `heap->lh_node` of each heap. -/
structure LhForest (ι : Type) where
  nodes : Memory Word LhNode
  lhNode : ι → Word

section Forest

variable {ι α : Type} [DecidableEq ι]

/-- One of the heaps. -/
def LhForest.heap (forest : LhForest ι) (name : ι) : LhState :=
  ⟨forest.nodes, forest.lhNode name⟩

/-- The heaps after one of them and the memory changed. -/
def LhForest.replace
    (name : ι)
    (after : LhState)
    (forest : LhForest ι) : LhForest ι :=
  ⟨after.nodes, Function.update forest.lhNode name after.lhNode⟩

/-- A heap that did not change. -/
theorem LhForest.replace_heap
    (forest : LhForest ι)
    (name : ι) :
    LhForest.replace name (forest.heap name) forest = forest := by
  simp [LhForest.replace, LhForest.heap]

/-- Apply an operation to one of the heaps. -/
def onHeap
    (name : ι)
    (program : Program LhState α) :
    Program (LhForest ι) α :=
  program.zoom (fun forest => forest.heap name) (LhForest.replace name)

/-- `lh_heap_init(heap)`. -/
def lhHeapInit : Program LhState Unit :=
  setHeap null

/-- `lh_heap_empty(heap)`. -/
def lhHeapEmpty : Program LhState Bool := do
  let root ← lhMin
  pure (decide (root = null))

section Drain

variable {κ : Type} (member : Word) (key : Word → κ) (cmp : κ → κ → Int)

/-- Take out `lh_min(heap)` unless `lh_heap_empty(heap)`. -/
def lhDrainStep
    (drained : List Word) :
    Program LhState (Flow (List Word) (List Word)) := do
  let empty ← lhHeapEmpty
  if empty then
    pure (.done drained)
  else do
    let item ← lhMin
    lhDel member key cmp item
    pure (.next (drained ++ [item]))

/-- Empty a heap and list the nodes in the order they are taken out. -/
def lhDrain : Program LhState (List Word) :=
  loop (lhDrainStep member key cmp) []

end Drain

/-- An operation that a client applies to its heaps. -/
inductive ForestOp (ι : Type) where
  | init (heap : ι)
  | insert (heap : ι) (item : Word)
  | delete (heap : ι) (item : Word)
  | merge (heap1 heap2 : ι)

/-- The client's record of its heaps: memory, keys, and contents. -/
structure ForestState (ι κ : Type) where
  forest : LhForest ι
  key : Word → κ
  members : ι → List Word

variable {κ : Type} (member : Word) (key : Word → κ) (cmp : κ → κ → Int)

/--
The statements of an operation.  A node is initialised before it is inserted,
and the heap that was merged into another one is initialised again.
-/
def ForestOp.program : ForestOp ι → Program (LhForest ι) Unit
  | .init heap =>
      onHeap heap lhHeapInit
  | .insert heap item =>
      onHeap heap (do
        lhNodeInit item
        lhInsert member key cmp item)
  | .delete heap item =>
      onHeap heap (lhDel member key cmp item)
  | .merge heap1 heap2 => do
      let first ← onHeap heap1 lhMin
      let second ← onHeap heap2 lhMin
      onHeap heap1 (do
        let merged ← lhMerge member key cmp first second
        setHeap merged)
      onHeap heap2 lhHeapInit

/-- What an operation does to the contents of the heaps. -/
def ForestOp.effect
    (members : ι → List Word) : ForestOp ι → ι → List Word
  | .init heap =>
      Function.update members heap []
  | .insert heap item =>
      Function.update members heap (item :: members heap)
  | .delete heap item =>
      Function.update members heap ((members heap).erase item)
  | .merge heap1 heap2 =>
      Function.update
        (Function.update members heap1 (members heap1 ++ members heap2))
        heap2 []

/-- The nodes that an operation may change. -/
def ForestOp.touched
    (members : ι → List Word) : ForestOp ι → List Word
  | .init _ => []
  | .insert heap item => item :: members heap
  | .delete heap _ => members heap
  | .merge heap1 heap2 => members heap1 ++ members heap2

/--
What a caller promises: a new node is accessible and in no heap, a deleted
node is in the named heap, and a heap is not merged with itself.
-/
def ForestOp.Legal (state : ForestState ι κ) : ForestOp ι → Prop
  | .init _ => True
  | .insert heap item =>
      (state.forest.heap heap).Allocated item ∧
        ∀ other, item ∉ state.members other
  | .delete heap item => item ∈ state.members heap
  | .merge heap1 heap2 => heap1 ≠ heap2

/-- The states reached from empty heaps. -/
inductive ForestRun : ForestState ι κ → Prop where
  | start
      {forest : LhForest ι}
      {key : Word → κ} :
      (∀ heap, forest.lhNode heap = null) →
      ForestRun ⟨forest, key, fun _ => []⟩
  | elsewhere
      {forest after : LhForest ι}
      {key newKey : Word → κ}
      {members : ι → List Word} :
      ForestRun ⟨forest, key, members⟩ →
      after.lhNode = forest.lhNode →
      (∀ heap, ∀ node ∈ members heap,
        after.nodes.cell node = forest.nodes.cell node ∧
          newKey (lhEntry member node) = key (lhEntry member node)) →
      ForestRun ⟨after, newKey, members⟩
  | operation
      {state : ForestState ι κ}
      {op : ForestOp ι}
      {after : LhForest ι} :
      ForestRun state →
      op.Legal state →
      (op.program member state.key cmp).Returns state.forest () after →
      ForestRun ⟨after, state.key, op.effect state.members⟩

/-- The view of one heap. -/
def ForestState.one
    (state : ForestState ι κ)
    (heap : ι) : HeapState κ :=
  ⟨state.forest.heap heap, state.key, state.members heap⟩

/-- Every heap is valid and no two of them share a node. -/
structure ForestState.Holds (state : ForestState ι κ) : Prop where
  heaps : ∀ heap, ∃ tree, (state.one heap).Holds member cmp tree
  apart :
    ∀ first second, first ≠ second →
      (state.members first).Disjoint (state.members second)

end Forest

section Steps

variable {ι κ : Type} [DecidableEq ι]
variable {member : Word} {cmp : κ → κ → Int}
variable {state : ForestState ι κ}

/-- Nodes of one heap keep their content when another one changes. -/
theorem ForestState.Holds.replaced
    (holds : state.Holds member cmp)
    (heap : ι)
    {after : LhState}
    {members : List Word}
    (changed :
      ∃ tree,
        (⟨after, state.key, members⟩ : HeapState κ).Holds member cmp tree)
    (apart :
      ∀ other, other ≠ heap → members.Disjoint (state.members other))
    (frame :
      ∀ other, other ≠ heap → ∀ node ∈ state.members other,
        after.nodes.cell node = state.forest.nodes.cell node) :
    (⟨state.forest.replace heap after, state.key,
      Function.update state.members heap members⟩ :
        ForestState ι κ).Holds member cmp where
  heaps other := by
    by_cases same : other = heap
    · subst same
      simpa [one, LhForest.heap, LhForest.replace] using changed
    · obtain ⟨tree, otherHolds⟩ := holds.heaps other
      refine ⟨tree, ?_⟩
      have kept :
          (⟨⟨after.nodes, state.forest.lhNode other⟩, state.key,
            state.members other⟩ : HeapState κ).Holds member cmp tree :=
        otherHolds.elsewhere rfl fun node isMember =>
          ⟨frame other same node isMember, rfl⟩
      simpa [one, LhForest.heap, LhForest.replace, same] using kept
  apart first second different := by
    by_cases isFirst : first = heap
    · subst isFirst
      simpa [Function.update_of_ne (Ne.symm different)] using
        apart second (Ne.symm different)
    · by_cases isSecond : second = heap
      · subst isSecond
        simpa [Function.update_of_ne isFirst] using
          (apart first isFirst).symm
      · simpa [Function.update_of_ne isFirst,
          Function.update_of_ne isSecond] using
          holds.apart first second different

/-- An operation on one heap keeps all of them. -/
theorem ForestState.Holds.ensures_onHeap
    (holds : state.Holds member cmp)
    (heap : ι)
    {program : Program LhState Unit}
    {members touched : List Word}
    (ensured :
      program.Ensures (state.forest.heap heap) fun _ after =>
        (∃ tree,
          (⟨after, state.key, members⟩ :
            HeapState κ).Holds member cmp tree) ∧
          ∀ node ∉ touched,
            after.nodes.cell node = state.forest.nodes.cell node)
    (inside : ∀ node ∈ members, node ∈ touched)
    (apart :
      ∀ other, other ≠ heap → touched.Disjoint (state.members other)) :
    (onHeap heap program).Ensures state.forest fun _ after =>
      (⟨after, state.key, Function.update state.members heap members⟩ :
        ForestState ι κ).Holds member cmp ∧
        ∀ node ∉ touched,
          after.nodes.cell node = state.forest.nodes.cell node := by
  rw [onHeap, ensures_zoom]
  refine ensured.weaken ?_
  intro _ after result
  obtain ⟨changed, frame⟩ := result
  refine ⟨holds.replaced heap changed ?_ ?_, frame⟩
  · intro other different node isMember
    exact apart other different (inside node isMember)
  · intro other different node isMember
    exact frame node fun isTouched => apart other different isTouched isMember

omit [DecidableEq ι] in
/-- Two heaps of a forest are merged into the first one. -/
theorem ForestState.Holds.ensures_merged
    (consistent : ThreeWay cmp)
    (holds : state.Holds member cmp)
    {heap1 heap2 : ι}
    (different : heap1 ≠ heap2) :
    (do
      let merged ←
        lhMerge member state.key cmp (state.forest.lhNode heap1)
          (state.forest.lhNode heap2)
      setHeap merged).Ensures (state.forest.heap heap1) fun _ after =>
        (∃ tree,
          (⟨after, state.key,
            state.members heap1 ++ state.members heap2⟩ :
              HeapState κ).Holds member cmp tree) ∧
          ∀ node ∉ state.members heap1 ++ state.members heap2,
            after.nodes.cell node = state.forest.nodes.cell node := by
  obtain ⟨first, ⟨firstHeap, firstRooted⟩, firstListing⟩ :=
    holds.heaps heap1
  obtain ⟨second, ⟨secondHeap, secondRooted⟩, secondListing⟩ :=
    holds.heaps heap2
  have firstRoot : state.forest.lhNode heap1 = first.root := firstRooted
  have secondRoot : state.forest.lhNode heap2 = second.root :=
    secondRooted
  have disjoint : first.inorder.Disjoint second.inorder := by
    intro node inFirst inSecond
    exact holds.apart heap1 heap2 different
      (firstListing.mem_iff.mp inFirst) (secondListing.mem_iff.mp inSecond)
  rw [firstRoot, secondRoot, ensures_bind]
  refine (ensures_lhMerge consistent firstHeap secondHeap
    disjoint).weaken ?_
  intro value after merged
  obtain ⟨tree, rfl, heap, listing, same⟩ := merged
  have contents := firstListing.append secondListing
  rw [ensures_setHeap]
  refine ⟨⟨tree, ⟨heap, rfl⟩, listing.trans contents⟩, ?_⟩
  intro node outside
  exact same.cell node (contents.mem_iff.not.mpr outside)

/-- An empty heap holds whatever the memory contains. -/
theorem holds_of_null
    (heap : LhState)
    (key : Word → κ)
    (isNull : heap.lhNode = null) :
    (⟨heap, key, []⟩ : HeapState κ).Holds member cmp .nil :=
  ⟨⟨⟨trivial, .nil, trivial, trivial⟩, isNull⟩, .nil⟩

/-- A heap that is emptied leaves the other ones alone. -/
theorem ForestState.Holds.emptied
    (holds : state.Holds member cmp)
    (heap : ι) :
    (⟨state.forest.replace heap ⟨state.forest.nodes, null⟩, state.key,
      Function.update state.members heap []⟩ :
        ForestState ι κ).Holds member cmp :=
  holds.replaced heap ⟨.nil, holds_of_null _ _ rfl⟩ (by simp)
    fun _ _ _ _ => rfl

/-- The first heap takes over the nodes of the second one. -/
theorem ForestState.Holds.taken
    (holds : state.Holds member cmp)
    {heap1 heap2 : ι}
    (different : heap1 ≠ heap2)
    {after : LhState}
    (changed :
      ∃ tree,
        (⟨after, state.key, state.members heap1 ++ state.members heap2⟩ :
          HeapState κ).Holds member cmp tree)
    (frame :
      ∀ node ∉ state.members heap1 ++ state.members heap2,
        after.nodes.cell node = state.forest.nodes.cell node) :
    (⟨(state.forest.replace heap1 after).replace heap2
        ⟨after.nodes, null⟩,
      state.key,
      (ForestOp.merge heap1 heap2).effect state.members⟩ :
        ForestState ι κ).Holds member cmp := by
  have remaining
      {other : ι}
      {node : Word}
      (notFirst : other ≠ heap1)
      (isMember :
        node ∈ Function.update state.members heap2 [] other) :
      node ∈ state.members other ∧
        node ∉ state.members heap1 ++ state.members heap2 := by
    by_cases isSecond : other = heap2
    · subst isSecond
      simp at isMember
    · rw [Function.update_of_ne isSecond] at isMember
      refine ⟨isMember, ?_⟩
      rw [List.mem_append, not_or]
      exact ⟨holds.apart other heap1 notFirst isMember,
        holds.apart other heap2 isSecond isMember⟩
  have merged :=
    (holds.emptied heap2).replaced heap1 changed
      (fun other notFirst node inBoth isMember =>
        (remaining notFirst isMember).2 inBoth)
      (fun other notFirst node isMember =>
        frame node (remaining notFirst isMember).2)
  simpa only [LhForest.replace, ForestOp.effect,
    Function.update_comm different] using merged

/-- Every legal operation ends and keeps all heaps. -/
theorem ForestState.Holds.ensures_program
    (consistent : ThreeWay cmp)
    (holds : state.Holds member cmp)
    {op : ForestOp ι}
    (legal : op.Legal state) :
    (op.program member state.key cmp).Ensures state.forest
      fun _ after =>
        (⟨after, state.key, op.effect state.members⟩ :
          ForestState ι κ).Holds member cmp ∧
          ∀ node ∉ op.touched state.members,
            after.nodes.cell node = state.forest.nodes.cell node := by
  cases op with
  | init heap =>
      simp only [ForestOp.program, onHeap, ensures_zoom, lhHeapInit,
        ensures_setHeap]
      exact ⟨holds.emptied heap, fun _ _ => rfl⟩
  | insert heap item =>
      obtain ⟨allocated, fresh⟩ := legal
      obtain ⟨tree, holdsHeap⟩ := holds.heaps heap
      refine holds.ensures_onHeap heap
        (holdsHeap.ensures_insert consistent allocated (fresh heap))
        (fun _ isMember => isMember) ?_
      intro other different
      exact List.disjoint_cons_left.mpr
        ⟨fresh other, holds.apart heap other (Ne.symm different)⟩
  | delete heap item =>
      obtain ⟨tree, holdsHeap⟩ := holds.heaps heap
      refine holds.ensures_onHeap heap ?_
        (fun _ isMember => List.mem_of_mem_erase isMember)
        (fun other different => holds.apart heap other (Ne.symm different))
      refine (holdsHeap.ensures_delete consistent legal).weaken ?_
      intro _ after deleted
      obtain ⟨changed, -, frame⟩ := deleted
      exact ⟨changed, frame⟩
  | merge heap1 heap2 =>
      simp only [ForestOp.program, onHeap, ensures_bind, ensures_zoom,
        ensures_lhMin, lhHeapInit, ensures_setHeap,
        LhForest.replace_heap]
      have merged := holds.ensures_merged consistent legal
      simp only [ensures_bind, ensures_setHeap] at merged
      refine merged.weaken ?_
      intro root after result
      obtain ⟨changed, frame⟩ := result
      exact ⟨holds.taken legal changed frame, frame⟩

/-- Every state of a run keeps all heaps. -/
theorem ForestRun.holds
    (consistent : ThreeWay cmp)
    (run : ForestRun member cmp state) :
    state.Holds member cmp := by
  induction run with
  | start isNull =>
      refine ⟨fun heap => ⟨.nil, holds_of_null _ _ (isNull heap)⟩, ?_⟩
      simp
  | elsewhere _ sameRoots same inductionHypothesis =>
      refine ⟨?_, inductionHypothesis.apart⟩
      intro heap
      obtain ⟨tree, holds⟩ := inductionHypothesis.heaps heap
      exact ⟨tree, holds.elsewhere (congrFun sameRoots heap) (same heap)⟩
  | operation _ legal returned inductionHypothesis =>
      exact ((inductionHypothesis.ensures_program consistent
        legal).of_returns returned).1

/-- What emptying a heap leaves behind. -/
structure Drained
    (above : Word → Word → Prop)
    (members : List Word)
    (before : LhState)
    (order : List Word)
    (after : LhState) : Prop where
  listing : order.Perm members
  ordered : order.Pairwise above
  empty : after.lhNode = null
  unlinked : ∀ node ∈ members, after.Unlinked node
  frame :
    ∀ node ∉ members, after.nodes.cell node = before.nodes.cell node

/-- The first node that is taken out precedes all others. -/
theorem Drained.cons
    {above : Word → Word → Prop}
    {members order : List Word}
    {before between after : LhState}
    {item : Word}
    (drained : Drained above (members.erase item) between order after)
    (isMember : item ∈ members)
    (precedes : ∀ node ∈ members, above item node)
    (distinct : members.Nodup)
    (unlinked : between.Unlinked item)
    (frame :
      ∀ node ∉ members,
        between.nodes.cell node = before.nodes.cell node) :
    Drained above members before (item :: order) after where
  listing :=
    (drained.listing.cons item).trans
      (List.perm_cons_erase isMember).symm
  ordered := by
    refine List.pairwise_cons.mpr ⟨?_, drained.ordered⟩
    intro node inOrder
    exact precedes node
      (List.mem_of_mem_erase (drained.listing.mem_iff.mp inOrder))
  empty := drained.empty
  unlinked node inside := by
    by_cases isItem : node = item
    · subst isItem
      obtain ⟨npl, nonnegative, atNode⟩ := unlinked
      refine ⟨npl, nonnegative, ?_⟩
      rw [drained.frame node (distinct.not_mem_erase), atNode]
    · exact drained.unlinked node
        ((List.mem_erase_of_ne isItem).mpr inside)
  frame node outside := by
    rw [drained.frame node fun inside =>
      outside (List.mem_of_mem_erase inside)]
    exact frame node outside

/-- Emptying a heap takes out its nodes in their order. -/
theorem HeapState.Holds.ensures_drain
    (consistent : ThreeWay cmp)
    {state : HeapState κ}
    {tree : Tree Word Int}
    (holds : state.Holds member cmp tree)
    (drained : List Word) :
    (loop (lhDrainStep member state.key cmp) drained).Ensures state.heap
      fun order after =>
        ∃ rest, order = drained ++ rest ∧
          Drained (Precedes member state.key cmp) state.members
            state.heap rest after := by
  induction size : state.members.length
      generalizing state tree drained with
  | zero =>
      have noMember := List.length_eq_zero_iff.mp size
      have isNull := holds.lhNode_eq_null_iff.mpr noMember
      rw [ensures_loop]
      simp only [lhDrainStep, lhHeapEmpty, ensures_bind, ensures_lhMin,
        ensures_pure, isNull, decide_true, ↓reduceIte]
      refine ⟨[], by simp, ?_⟩
      rw [noMember]
      exact ⟨.nil, .nil, isNull, by simp, fun _ _ => rfl⟩
  | succ count inductionHypothesis =>
      have present : state.members ≠ [] := by
        intro noMember
        simp [noMember] at size
      have notNull := holds.lhNode_eq_null_iff.not.mpr present
      obtain ⟨node, isNode⟩ := List.exists_mem_of_ne_nil _ present
      have isMember := (holds.lhNode_precedes consistent isNode).1
      have distinct : state.members.Nodup :=
        holds.listing.nodup_iff.mp holds.valid.heap.distinct
      rw [ensures_loop]
      simp only [lhDrainStep, lhHeapEmpty, ensures_bind, ensures_lhMin,
        ensures_pure, notNull, decide_false, Bool.false_eq_true,
        ↓reduceIte]
      refine (holds.ensures_delete consistent isMember).weaken ?_
      intro _ between deleted
      obtain ⟨⟨smaller, holdsBetween⟩, unlinked, frame⟩ := deleted
      have oneLess :
          (state.members.erase state.heap.lhNode).length = count := by
        rw [List.length_erase_of_mem isMember, size, Nat.add_sub_cancel]
      refine (inductionHypothesis holdsBetween
        (drained ++ [state.heap.lhNode]) oneLess).weaken ?_
      intro order after result
      obtain ⟨rest, rfl, emptied⟩ := result
      refine ⟨state.heap.lhNode :: rest, by simp, ?_⟩
      exact emptied.cons isMember
        (fun other inside => (holds.lhNode_precedes consistent inside).2)
        distinct unlinked frame

/--
In every state that is reached by initialising heaps, inserting, deleting and
merging, in any order and on any number of heaps, each heap is a leftist heap
of exactly its own nodes.  No two heaps share a node.  Every further operation
ends, reaches the state that its contents describe, and writes no node of any
other heap.
-/
theorem forestRun_keeps_heaps_apart
    (consistent : ThreeWay cmp)
    {reached : ForestState ι κ}
    (run : ForestRun member cmp reached) :
    (∀ heap, ∃ tree,
      Linked reached.forest.nodes (reached.forest.lhNode heap) tree ∧
        tree.inorder.Perm (reached.members heap) ∧
        tree.Ordered (Precedes member reached.key cmp) ∧
        tree.Leftist) ∧
      (∀ heap,
        (onHeap heap lhHeapEmpty).Ensures reached.forest
          fun empty after =>
            after = reached.forest ∧
              (empty = true ↔ reached.members heap = [])) ∧
      (∀ heap, ∀ node ∈ reached.members heap,
        (onHeap heap lhMin).Ensures reached.forest fun least after =>
          after = reached.forest ∧
            least ∈ reached.members heap ∧
            Precedes member reached.key cmp least node) ∧
      (∀ first second, first ≠ second →
        (reached.members first).Disjoint (reached.members second)) ∧
      ∀ op : ForestOp ι, op.Legal reached →
        (op.program member reached.key cmp).Ensures reached.forest
          fun _ after =>
            ForestRun member cmp
              ⟨after, reached.key, op.effect reached.members⟩ ∧
              ∀ node ∉ op.touched reached.members,
                after.nodes.cell node =
                  reached.forest.nodes.cell node := by
  have holds := run.holds consistent
  refine ⟨?_, ?_, ?_, holds.apart, ?_⟩
  · intro heap
    obtain ⟨tree, ⟨valid, rooted⟩, listing⟩ := holds.heaps heap
    exact ⟨tree, ⟨valid.represents, rooted, valid.distinct⟩, listing,
      valid.ordered, valid.leftist⟩
  · intro heap
    obtain ⟨tree, holdsHeap⟩ := holds.heaps heap
    simp only [onHeap, ensures_zoom, lhHeapEmpty, ensures_bind,
      ensures_lhMin, ensures_pure, decide_eq_true_eq]
    exact ⟨reached.forest.replace_heap heap, holdsHeap.lhNode_eq_null_iff⟩
  · intro heap node isMember
    obtain ⟨tree, holdsHeap⟩ := holds.heaps heap
    simp only [onHeap, ensures_zoom, ensures_lhMin]
    exact ⟨reached.forest.replace_heap heap,
      holdsHeap.lhNode_precedes consistent isMember⟩
  · intro op legal
    obtain ⟨_, after, returned, -, frame⟩ :=
      holds.ensures_program consistent legal
    exact ⟨_, after, returned, .operation run legal returned, frame⟩

/-- Two empty heaps next to the nodes of `sampleHeap`. -/
def sampleForest : LhForest Bool :=
  ⟨sampleHeap.nodes, fun _ => null⟩

/-- One node in each of the two heaps. -/
def sampleContents : Bool → List Word :=
  (ForestOp.insert false 32).effect
    ((ForestOp.insert true 16).effect fun _ => [])

/-- One node is inserted into each of the heaps. -/
theorem sampleForest_after_insertions :
    ∃ first second,
      ((ForestOp.insert true 16).program 0 sampleKey sampleCmp).Returns
        sampleForest () first ∧
        ((ForestOp.insert false 32).program 0 sampleKey sampleCmp).Returns
          first () second ∧
        ForestRun 0 sampleCmp ⟨second, sampleKey, sampleContents⟩ := by
  have start :
      ForestRun 0 sampleCmp ⟨sampleForest, sampleKey, fun _ => []⟩ :=
    .start fun _ => rfl
  have legal :
      (ForestOp.insert true 16).Legal
        ⟨sampleForest, sampleKey, fun _ => []⟩ :=
    ⟨sampleHeap_allocated.1, fun _ => List.not_mem_nil⟩
  obtain ⟨_, first, returned, holds, frame⟩ :=
    (start.holds threeWay_sub).ensures_program threeWay_sub legal
  have run := start.operation legal returned
  have fresh :
      ∀ other : Bool,
        (32 : Word) ∉
          (ForestOp.insert true 16).effect (fun _ => []) other := by
    decide
  have allocated : (first.heap false).Allocated 32 := by
    obtain ⟨content, atNode⟩ := sampleHeap_allocated.2
    exact ⟨content, (frame 32 (by decide)).trans atNode⟩
  have legalSecond :
      (ForestOp.insert false 32).Legal
        ⟨first, sampleKey,
          (ForestOp.insert true 16).effect fun _ => []⟩ :=
    ⟨allocated, fresh⟩
  obtain ⟨_, second, returnedSecond, -⟩ :=
    holds.ensures_program threeWay_sub legalSecond
  exact ⟨first, second, returned, returnedSecond,
    run.operation legalSecond returnedSecond⟩

/-- A node with the larger key comes out first. -/
theorem not_precedes_sample : ¬Precedes 0 sampleKey sampleCmp 16 32 := by
  unfold Precedes
  decide

theorem forestRun_keeps_heaps_apart_of_sample :
    ∃ first second merged,
      ((ForestOp.insert true 16).program 0 sampleKey sampleCmp).Returns
        sampleForest () first ∧
        ((ForestOp.insert false 32).program 0 sampleKey sampleCmp).Returns
          first () second ∧
        ((ForestOp.merge true false).program 0 sampleKey sampleCmp).Returns
          second () merged ∧
        (onHeap false lhHeapEmpty).Ensures merged
          (fun empty _ => empty = true) ∧
        (onHeap true lhMin).Ensures merged fun least _ => least = 32 := by
  obtain ⟨first, second, returned, returnedSecond, run⟩ :=
    sampleForest_after_insertions
  obtain ⟨-, -, -, -, operations⟩ :=
    forestRun_keeps_heaps_apart threeWay_sub run
  obtain ⟨_, merged, returnedMerged, mergedRun, -⟩ :=
    operations (.merge true false) Bool.noConfusion
  obtain ⟨-, empties, leasts, -⟩ :=
    forestRun_keeps_heaps_apart threeWay_sub mergedRun
  refine ⟨first, second, merged, returned, returnedSecond, returnedMerged,
    ?_, ?_⟩
  · refine (empties false).weaken ?_
    intro empty _ result
    exact result.2.mpr rfl
  · refine (leasts true 32 (.tail _ (.head _))).weaken ?_
    intro least _ result
    obtain ⟨-, isMember, precedes⟩ := result
    have either : least = 16 ∨ least = 32 := by
      simpa [ForestOp.effect, sampleContents] using isMember
    rcases either with rfl | rfl
    · exact absurd precedes not_precedes_sample
    · rfl

/--
In every state that is reached, taking `lh_min` out of a heap with `lh_del`
until `lh_heap_empty` holds ends.  It takes out each node of the heap once, no
node before one that precedes it, leaves all of them without links, and keeps
the contents of every other heap.
-/
theorem forestRun_drains_in_order
    (consistent : ThreeWay cmp)
    {reached : ForestState ι κ}
    (run : ForestRun member cmp reached)
    (heap : ι) :
    (onHeap heap (lhDrain member reached.key cmp)).Ensures
      reached.forest fun order after =>
        order.Perm (reached.members heap) ∧
          order.Pairwise (Precedes member reached.key cmp) ∧
          (∀ node ∈ reached.members heap,
            (after.heap heap).Unlinked node) ∧
          (⟨after, reached.key,
            Function.update reached.members heap []⟩ :
              ForestState ι κ).Holds member cmp := by
  have holds := run.holds consistent
  obtain ⟨tree, holdsHeap⟩ := holds.heaps heap
  rw [onHeap, ensures_zoom]
  refine (holdsHeap.ensures_drain consistent []).weaken ?_
  intro order after result
  obtain ⟨rest, rfl, drained⟩ := result
  refine ⟨drained.listing, drained.ordered, drained.unlinked, ?_⟩
  refine holds.replaced heap
    ⟨.nil, holds_of_null after reached.key drained.empty⟩ (by simp) ?_
  intro other different node isMember
  exact drained.frame node
    (holds.apart other heap different isMember)

theorem forestRun_drains_in_order_of_sample :
    ∃ first second merged,
      ((ForestOp.insert true 16).program 0 sampleKey sampleCmp).Returns
        sampleForest () first ∧
        ((ForestOp.insert false 32).program 0 sampleKey sampleCmp).Returns
          first () second ∧
        ((ForestOp.merge true false).program 0 sampleKey sampleCmp).Returns
          second () merged ∧
        (onHeap true (lhDrain 0 sampleKey sampleCmp)).Ensures merged
          fun order _ => order = [32, 16] := by
  obtain ⟨first, second, returned, returnedSecond, run⟩ :=
    sampleForest_after_insertions
  have legal :
      (ForestOp.merge true false).Legal
        ⟨second, sampleKey, sampleContents⟩ :=
    Bool.noConfusion
  obtain ⟨_, merged, returnedMerged, -⟩ :=
    (run.holds threeWay_sub).ensures_program threeWay_sub legal
  have mergedRun := run.operation legal returnedMerged
  refine ⟨first, second, merged, returned, returnedSecond, returnedMerged,
    ?_⟩
  refine (forestRun_drains_in_order threeWay_sub mergedRun true).weaken ?_
  intro order _ result
  obtain ⟨listing, ordered, -⟩ := result
  have listed : order.Perm [16, 32] := listing
  rcases List.perm_pair.mp listed with rfl | rfl
  · exact absurd (List.rel_of_pairwise_cons ordered (.head _))
      not_precedes_sample
  · rfl

end Steps

end LibKern.LHeap
