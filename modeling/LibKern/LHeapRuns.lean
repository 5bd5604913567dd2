import LibKern.LHeapDelete

namespace LibKern.LHeap

/-!
# Runs of the heap operations

A run starts with an empty heap, inserts initialised nodes, and deletes nodes
of the heap.  The nodes that were inserted and not deleted are recorded next to
the heap.  `lh_del_min` does not work in general: it leaves the children of the
root with their parent when it merges them, so that it only removes the root
of a heap that has no other node.
-/

open Program Context

/-- A heap, the keys in memory, and the inserted and not deleted nodes. -/
structure HeapState (κ : Type) where
  heap : LhState
  key : Word → κ
  members : List Word

section Runs

variable {κ : Type} (member : Word) (cmp : κ → κ → Int)

/-- One operation on the heap, or a change that does not concern it. -/
inductive HeapStep : HeapState κ → HeapState κ → Prop where
  | elsewhere
      {heap after : LhState}
      {key newKey : Word → κ}
      {members : List Word} :
      after.lhNode = heap.lhNode →
      (∀ node ∈ members,
        after.nodes.cell node = heap.nodes.cell node ∧
          newKey (lhEntry member node) = key (lhEntry member node)) →
      HeapStep ⟨heap, key, members⟩ ⟨after, newKey, members⟩
  | insert
      {heap after : LhState}
      {key : Word → κ}
      {members : List Word}
      {item : Word} :
      heap.Allocated item →
      item ∉ members →
      (do
        lhNodeInit item
        lhInsert member key cmp item).Returns heap () after →
      HeapStep ⟨heap, key, members⟩ ⟨after, key, item :: members⟩
  | delete
      {heap after : LhState}
      {key : Word → κ}
      {members : List Word}
      {item : Word} :
      item ∈ members →
      (lhDel member key cmp item).Returns heap () after →
      HeapStep ⟨heap, key, members⟩ ⟨after, key, members.erase item⟩

/--
The states reached from an empty heap when `lh_del_min` is only called on a
non-empty heap in a state where it is `callable`.
-/
inductive HeapRun
    (callable : HeapState κ → Prop) : HeapState κ → Prop where
  | start
      {heap : LhState}
      {key : Word → κ} :
      heap.lhNode = null →
      HeapRun callable ⟨heap, key, []⟩
  | step
      {before after : HeapState κ} :
      HeapRun callable before →
      HeapStep member cmp before after →
      HeapRun callable after
  | deleteMin
      {before : HeapState κ}
      {after : LhState} :
      HeapRun callable before →
      callable before →
      before.members ≠ [] →
      (lhDelMin member before.key cmp).Returns before.heap () after →
      HeapRun callable
        ⟨after, before.key, before.members.erase before.heap.lhNode⟩

/-- The heap is valid and has exactly the recorded nodes. -/
structure HeapState.Holds
    (state : HeapState κ)
    (tree : Tree Word Int) : Prop where
  valid : state.heap.Valid (Precedes member state.key cmp) tree
  listing : tree.inorder.Perm state.members

/-- `lh_del_min` removes the root and nothing else. -/
def HeapState.RemovesRoot (state : HeapState κ) : Prop :=
  (lhDelMin member state.key cmp).Ensures state.heap fun _ after =>
    ∃ result,
      after.Valid (Precedes member state.key cmp) result ∧
        result.inorder.Perm
          (state.members.erase state.heap.lhNode)

end Runs

section Invariant

variable {κ : Type} {member : Word} {cmp : κ → κ → Int}
variable {state : HeapState κ}
variable {tree : Tree Word Int}

/-- The heap only depends on its own nodes and their keys. -/
theorem HeapState.Holds.elsewhere
    {heap after : LhState}
    {key newKey : Word → κ}
    {members : List Word}
    (holds :
      (⟨heap, key, members⟩ : HeapState κ).Holds member cmp tree)
    (sameRoot : after.lhNode = heap.lhNode)
    (same :
      ∀ node ∈ members,
        after.nodes.cell node = heap.nodes.cell node ∧
          newKey (lhEntry member node) = key (lhEntry member node)) :
    (⟨after, newKey, members⟩ : HeapState κ).Holds member cmp tree := by
  obtain ⟨⟨⟨represents, distinct, leftist, ordered⟩, rooted⟩, listing⟩ :=
    holds
  have sameInside
      (node : Word)
      (inside : node ∈ tree.inorder) :=
    same node (listing.mem_iff.mp inside)
  refine ⟨⟨⟨?_, distinct, leftist, ?_⟩, sameRoot.trans rooted⟩, listing⟩
  · exact represents.congr fun node inside => (sameInside node inside).1
  · apply ordered.congr
    intro first inFirst second inSecond precedes
    simpa [Precedes, compare, (sameInside first inFirst).2,
      (sameInside second inSecond).2] using precedes

/-- A heap that gained one node. -/
theorem HeapState.Holds.inserted
    (holds : state.Holds member cmp tree)
    {after : LhState}
    {item : Word}
    {result : Tree Word Int}
    (valid : after.Valid (Precedes member state.key cmp) result)
    (listing : result.inorder.Perm (item :: tree.inorder))
    (frame :
      ∀ node ∉ item :: tree.inorder,
        after.nodes.cell node = state.heap.nodes.cell node) :
    (∃ result,
      (⟨after, state.key, item :: state.members⟩ :
        HeapState κ).Holds member cmp result) ∧
      ∀ node ∉ item :: state.members,
        after.nodes.cell node = state.heap.nodes.cell node := by
  have members := holds.listing.cons item
  refine ⟨⟨result, valid, listing.trans members⟩, ?_⟩
  intro node outside
  exact frame node (members.mem_iff.not.mpr outside)

/-- Inserting an initialised node. -/
theorem HeapState.Holds.ensures_insert
    (consistent : ThreeWay cmp)
    (holds : state.Holds member cmp tree)
    {item : Word}
    (allocated : state.heap.Allocated item)
    (fresh : item ∉ state.members) :
    (do
      lhNodeInit item
      lhInsert member state.key cmp item).Ensures state.heap
        fun _ after =>
          (∃ result,
            (⟨after, state.key, item :: state.members⟩ :
              HeapState κ).Holds member cmp result) ∧
            ∀ node ∉ item :: state.members,
              after.nodes.cell node = state.heap.nodes.cell node := by
  have outside : item ∉ tree.inorder := holds.listing.mem_iff.not.mpr fresh
  refine (ensures_lhInsert_fresh consistent holds.valid allocated
    outside).weaken ?_
  intro _ after inserted
  obtain ⟨result, valid, listing, frame⟩ := inserted
  exact holds.inserted valid listing frame

/-- Deleting any node. -/
theorem HeapState.Holds.ensures_delete
    (consistent : ThreeWay cmp)
    (holds : state.Holds member cmp tree)
    {item : Word}
    (isMember : item ∈ state.members) :
    (lhDel member state.key cmp item).Ensures state.heap fun _ after =>
      (∃ result,
        (⟨after, state.key, state.members.erase item⟩ :
          HeapState κ).Holds member cmp result) ∧
        after.Unlinked item ∧
        ∀ node ∉ state.members,
          after.nodes.cell node = state.heap.nodes.cell node := by
  refine (ensures_lhDel consistent holds.valid
    (holds.listing.mem_iff.mpr isMember)).weaken ?_
  intro _ after deleted
  obtain ⟨result, valid, listing, unlinked, frame⟩ := deleted
  refine ⟨⟨result, valid, listing.trans (holds.listing.erase item)⟩,
    unlinked, ?_⟩
  intro node outside
  exact frame node (holds.listing.mem_iff.not.mpr outside)

/-- One step keeps the heap valid. -/
theorem HeapState.Holds.step
    (consistent : ThreeWay cmp)
    {after : HeapState κ}
    (holds : state.Holds member cmp tree)
    (step : HeapStep member cmp state after) :
    ∃ result, after.Holds member cmp result := by
  cases step with
  | elsewhere sameRoot same =>
      exact ⟨tree, holds.elsewhere sameRoot same⟩
  | insert allocated fresh returned =>
      exact ((holds.ensures_insert consistent allocated
        fresh).of_returns returned).1
  | delete isMember returned =>
      exact ((holds.ensures_delete consistent isMember).of_returns
        returned).1

/-- `heap->lh_node` is null exactly when the heap has no node. -/
theorem HeapState.Holds.lhNode_eq_null_iff
    (holds : state.Holds member cmp tree) :
    state.heap.lhNode = null ↔ state.members = [] := by
  rw [holds.valid.rooted,
    holds.valid.heap.represents.root_eq_null_iff]
  constructor
  · rintro rfl
    exact List.nil_perm.mp holds.listing
  · intro noMember
    have listing := holds.listing
    rw [noMember, List.perm_nil] at listing
    cases tree with
    | nil =>
        rfl
    | node left address npl right =>
        simp at listing

/-- No node precedes the root. -/
theorem HeapState.Holds.lhNode_precedes
    (consistent : ThreeWay cmp)
    (holds : state.Holds member cmp tree)
    {node : Word}
    (isMember : node ∈ state.members) :
    state.heap.lhNode ∈ state.members ∧
      Precedes member state.key cmp state.heap.lhNode node := by
  have inside := holds.listing.mem_iff.mpr isMember
  rw [holds.valid.rooted]
  cases tree with
  | nil =>
      simp at inside
  | node left root npl right =>
      constructor
      · exact holds.listing.mem_iff.mp (by simp)
      · refine holds.valid.heap.ordered.root_above ?_ ?_ rfl inside
        · intro address
          exact (consistent.equivalence.refl _).ge
        · intro first second third above below
          exact consistent.nonneg_trans above below

/-- In a heap with one node the root has no child. -/
theorem HeapState.Holds.exists_single
    (holds : state.Holds member cmp tree)
    (single : state.members.length = 1) :
    ∃ root npl,
      tree = .node .nil root npl .nil ∧ state.members = [root] := by
  have size : tree.size = 1 := by
    rw [← Tree.length_inorder, holds.listing.length_eq, single]
  have missing
      {child : Tree Word Int}
      (isEmpty : child.size = 0) :
      child = .nil := by
    cases child with
    | nil =>
        rfl
    | node left address npl right =>
        simp [Tree.size] at isEmpty
  cases tree with
  | nil =>
      simp [Tree.size] at size
  | node left root npl right =>
      simp only [Tree.size] at size
      obtain rfl : left = .nil := missing (by omega)
      obtain rfl : right = .nil := missing (by omega)
      have listing := holds.listing
      simp only [Tree.inorder_node, Tree.inorder_nil, List.nil_append]
        at listing
      exact ⟨root, npl, rfl, (List.singleton_perm.mp listing).symm⟩

/-- `lh_del_min` removes the only node of a heap. -/
theorem HeapState.Holds.removesRoot_of_single
    (holds : state.Holds member cmp tree)
    (single : state.members.length = 1) :
    state.RemovesRoot member cmp := by
  obtain ⟨root, npl, rfl, members⟩ := holds.exists_single single
  have rooted : state.heap.lhNode = root := holds.valid.rooted
  have atRoot := holds.valid.heap.represents.1
  simp only [HeapState.RemovesRoot, lhDelMin, lhLeft, lhRight, lhMerge,
    ensures_bind, ensures_lhMin, rooted, ensures_load, atRoot,
    Option.some.injEq, exists_eq_left', Tree.root_nil, ↓reduceIte,
    ensures_pure, ensures_setHeap, members, List.erase_cons_head]
  refine ⟨.nil, ⟨⟨trivial, ?_, trivial, trivial⟩, rfl⟩, .refl _⟩
  simp

section Parents

variable {nodes : List Word}

/-- None of these nodes has a null parent. -/
def LhState.Parented
    (nodes : List Word)
    (state : LhState) : Prop :=
  ∀ node ∈ nodes, ∀ content,
    state.nodes.cell node = some content → content.parent ≠ null

private theorem parented_store
    {node : Word}
    {change : LhNode → LhNode}
    (keeps :
      ∀ content, content.parent ≠ null → (change content).parent ≠ null) :
    (store node change).Preserves (LhState.Parented nodes) := by
  apply preserves_updates
  intro state after parented stored
  obtain ⟨content, atNode, rfl⟩ := Option.map_eq_some_iff.mp stored
  intro other isMember otherContent atOther
  by_cases same : other = node
  · subst same
    simp only [LhState.nodes_modify, Memory.modify_cell_same, atNode,
      Option.map_some, Option.some.injEq] at atOther
    subst atOther
    exact keeps content (parented other isMember content atNode)
  · apply parented other isMember otherContent
    simpa [same] using atOther

private theorem parented_load
    {α : Type}
    (node : Word)
    (field : LhNode → α) :
    (load node field).Preserves (LhState.Parented nodes) :=
  preserves_reads _

private theorem parented_setChild
    (node child : Word)
    (side : Side) :
    (store node (Cell.withChild side child)).Preserves
      (LhState.Parented nodes) := by
  apply parented_store
  intro content hasParent
  cases side <;> exact hasParent

private theorem parented_setNpl
    (node : Word)
    (npl : Int) :
    (setNpl node npl).Preserves (LhState.Parented nodes) :=
  parented_store fun _ hasParent => hasParent

private theorem parented_lhMergeDown
    (key : Word → κ)
    (current : Word × Word) :
    (lhMergeDown member key cmp current).Preserves
      (LhState.Parented nodes) := by
  obtain ⟨merged, mergee⟩ := current
  refine .ite ?_ fun _ => preserves_pure _
  intro present
  apply (parented_load merged Cell.right).bind
  intro right
  refine .ite ?_ ?_
  · intro _
    apply (parented_setChild merged mergee .right).bind
    intro _
    apply (parented_load merged Cell.right).bind
    intro attached
    refine .bind (parented_store fun _ _ => present.1) ?_
    intro _
    refine .ite (fun _ => preserves_pure _) ?_
    intro _
    exact (parented_load merged Cell.right).bind
      fun _ => preserves_pure _
  · intro _
    exact (parented_load merged Cell.right).bind
      fun _ => preserves_pure _

private theorem parented_lhUpdateNpl
    (node : Word) :
    (lhUpdateNpl node).Preserves (LhState.Parented nodes) := by
  apply (parented_load node Cell.right).bind
  intro right
  refine .ite ?_ fun _ => parented_setNpl node 0
  intro _
  exact (parented_load right Cell.tag).bind
    fun npl => parented_setNpl node (npl + 1)

private theorem parented_lhSwapChildren
    (node : Word) :
    (lhSwapChildren node).Preserves (LhState.Parented nodes) := by
  apply (parented_load node Cell.left).bind
  intro left
  apply (parented_load node Cell.right).bind
  intro right
  exact (parented_setChild node right .left).bind
    fun _ => parented_setChild node left .right

private theorem parented_lhRebuild
    (node : Word)
    (swaps : Bool) :
    (lhRebuild node swaps).Preserves (LhState.Parented nodes) := by
  refine .bind ?_ fun _ => parented_lhUpdateNpl node
  exact .ite (fun _ => parented_lhSwapChildren node)
    fun _ => preserves_pure _

private theorem parented_lhMergeSwaps
    (node : Word) :
    (lhMergeSwaps node).Preserves (LhState.Parented nodes) := by
  apply (parented_load node Cell.left).bind
  intro left
  refine .ite (fun _ => preserves_pure _) ?_
  intro _
  apply (parented_load node Cell.right).bind
  intro right
  refine .ite ?_ fun _ => preserves_pure _
  intro _
  apply (parented_load left Cell.tag).bind
  intro _
  exact (parented_load right Cell.tag).bind fun _ => preserves_pure _

private theorem parented_lhMergeUp
    (current : Word) :
    (lhMergeUp current).Preserves (LhState.Parented nodes) := by
  refine .ite ?_ fun _ => preserves_pure _
  intro _
  apply (parented_lhMergeSwaps current).bind
  intro swaps
  apply (parented_lhRebuild current swaps).bind
  intro _
  apply (parented_load current Cell.parent).bind
  intro parent
  exact .ite (fun _ => preserves_pure _) fun _ => preserves_pure _

private theorem parented_lhMerge
    (key : Word → κ)
    (first second : Word) :
    (lhMerge member key cmp first second).Preserves
      (LhState.Parented nodes) := by
  have both
      (merged mergee : Word) :
      (lhMergeBoth member key cmp merged mergee).Preserves
        (LhState.Parented nodes) :=
    (Preserves.loop (parented_lhMergeDown key) (merged, mergee)).bind
      fun lowest => Preserves.loop parented_lhMergeUp lowest
  refine .ite (fun _ => preserves_pure _) ?_
  intro _
  refine .ite ?_ fun _ => preserves_pure _
  intro _
  exact .ite (fun _ => both second first) fun _ => both first second

/-- `lh_del_min` never clears a parent. -/
theorem lhDelMin_preserves_parented
    (key : Word → κ) :
    (lhDelMin member key cmp).Preserves (LhState.Parented nodes) := by
  refine .bind (preserves_reads _) ?_
  intro root
  apply (parented_load root Cell.left).bind
  intro left
  apply (parented_load root Cell.right).bind
  intro right
  apply (parented_lhMerge key left right).bind
  intro merged
  apply preserves_updates
  intro state after parented changed
  cases changed
  exact parented

/-- Only the root of a heap has a null parent. -/
theorem LhState.Valid.parented
    {heap : LhState}
    {above : Word → Word → Prop}
    (valid : heap.Valid above tree) :
    heap.Parented (tree.inorder.erase heap.lhNode) := by
  intro node isMember content atNode
  rw [valid.heap.distinct.mem_erase_iff, valid.rooted] at isMember
  obtain ⟨notRoot, inside⟩ := isMember
  obtain ⟨context, left, npl, right, rfl⟩ := Tree.exists_plug_of_mem inside
  obtain ⟨around, atFocus, -, -⟩ :=
    represents_plug.mp valid.heap.represents
  rw [atNode, Option.some.injEq] at atFocus
  subst atFocus
  apply around.parent_eq_null_iff.not.mpr
  rintro rfl
  exact notRoot rfl

end Parents

/-- `lh_del_min` removes the root of no heap with more than one node. -/
theorem HeapState.Holds.single_of_removesRoot
    (holds : state.Holds member cmp tree)
    (nonempty : state.members ≠ [])
    (removes : state.RemovesRoot member cmp) :
    state.members.length = 1 := by
  obtain ⟨_, after, returned, result, valid, listing⟩ := removes
  have remaining :
      (tree.inorder.erase state.heap.lhNode).Perm
        (state.members.erase state.heap.lhNode) :=
    holds.listing.erase _
  have parented :
      after.Parented (tree.inorder.erase state.heap.lhNode) :=
    lhDelMin_preserves_parented state.key _ holds.valid.parented _ _
      returned
  have emptied : result = .nil := by
    by_contra present
    obtain ⟨content, atRoot, isNull⟩ :=
      exists_cell_parent valid.heap.represents present
    have isMember :=
      remaining.mem_iff.mpr (listing.mem_iff.mp (Tree.root_mem present))
    exact parented result.root isMember content atRoot isNull
  have treePresent : tree ≠ .nil := by
    rintro rfl
    exact nonempty (List.nil_perm.mp holds.listing)
  have rootMember : state.heap.lhNode ∈ state.members := by
    rw [holds.valid.rooted]
    exact holds.listing.mem_iff.mp (Tree.root_mem treePresent)
  have count := List.length_erase_of_mem rootMember
  have present := List.length_pos_of_mem rootMember
  rw [← listing.length_eq, emptied] at count
  simp only [Tree.inorder_nil, List.length_nil] at count
  omega

/-- Every state of a run is valid if `lh_del_min` only meets single nodes. -/
theorem HeapRun.exists_holds
    (consistent : ThreeWay cmp)
    {callable : HeapState κ → Prop}
    (single :
      ∀ state : HeapState κ, callable state → state.members.length = 1)
    (run : HeapRun member cmp callable state) :
    ∃ tree, state.Holds member cmp tree := by
  induction run with
  | start isNull =>
      exact ⟨.nil, ⟨⟨trivial, .nil, trivial, trivial⟩, isNull⟩, .nil⟩
  | step _ step inductionHypothesis =>
      obtain ⟨tree, holds⟩ := inductionHypothesis
      exact holds.step consistent step
  | deleteMin _ isCallable _ returned inductionHypothesis =>
      obtain ⟨tree, holds⟩ := inductionHypothesis
      obtain ⟨result, valid, listing⟩ :=
        (holds.removesRoot_of_single
          (single _ isCallable)).of_returns returned
      exact ⟨result, valid, listing⟩

/-- An empty heap next to two nodes in memory. -/
def sampleHeap : LhState where
  nodes :=
    { cell := fun address =>
        if address = 16 ∨ address = 32 then some ⟨null, null, null, 0⟩
        else none
      null_unmapped := by decide }
  lhNode := null

theorem sampleHeap_allocated :
    sampleHeap.Allocated 16 ∧ sampleHeap.Allocated 32 :=
  ⟨⟨_, rfl⟩, ⟨_, rfl⟩⟩

/-- The difference of two keys. -/
def sampleCmp (first second : Int) : Int :=
  first - second

/-- The key of a structure is its address. -/
def sampleKey (address : Word) : Int :=
  address.toNat

/--
After any sequence of `lh_insert` and `lh_del` the heap is a binary tree with
consistent parents that has exactly the inserted and not deleted nodes.  No
node is preceded by its parent, so `lh_min` returns a node that no node
precedes.  Every null-path length is the true one and no left one is below the
right one, so the right spine is logarithmically short.  Both operations
terminate without an access to an unmapped address and leave all other memory
alone.
-/
theorem heapRun_keeps_leftist_heap
    (consistent : ThreeWay cmp)
    {reached : HeapState κ}
    (run : HeapRun member cmp (fun _ => False) reached) :
    ∃ tree,
      Linked reached.heap.nodes reached.heap.lhNode tree ∧
        tree.inorder.Perm reached.members ∧
        tree.Ordered (Precedes member reached.key cmp) ∧
        lhMin.Ensures reached.heap (fun least after =>
          after = reached.heap ∧
            (least = null ↔ reached.members = []) ∧
            ∀ node ∈ reached.members,
              least ∈ reached.members ∧
                0 ≤ cmp (reached.key (lhEntry member least))
                  (reached.key (lhEntry member node))) ∧
        tree.Leftist ∧
        tree.rightSpine ≤ Nat.log 2 (reached.members.length + 1) ∧
        (∀ item,
          reached.heap.Allocated item →
          item ∉ reached.members →
          (do
            lhNodeInit item
            lhInsert member reached.key cmp item).Ensures reached.heap
              fun _ after =>
                (∃ result,
                  (⟨after, reached.key, item :: reached.members⟩ :
                    HeapState κ).Holds member cmp result) ∧
                  ∀ node ∉ item :: reached.members,
                    after.nodes.cell node =
                      reached.heap.nodes.cell node) ∧
        ∀ item ∈ reached.members,
          (lhDel member reached.key cmp item).Ensures reached.heap
            fun _ after =>
              (∃ result,
                (⟨after, reached.key, reached.members.erase item⟩ :
                  HeapState κ).Holds member cmp result) ∧
                ∀ node ∉ reached.members,
                  after.nodes.cell node =
                    reached.heap.nodes.cell node := by
  obtain ⟨tree, holds⟩ := run.exists_holds consistent (by simp)
  obtain ⟨heap, rooted⟩ := holds.valid
  have size : tree.size = reached.members.length := by
    rw [← Tree.length_inorder, holds.listing.length_eq]
  refine ⟨tree, ⟨heap.represents, rooted, heap.distinct⟩, holds.listing,
    heap.ordered, ?_, heap.leftist, size ▸ heap.leftist.rightSpine_le,
    ?_, ?_⟩
  · rw [ensures_lhMin]
    exact ⟨rfl, holds.lhNode_eq_null_iff, fun node isMember =>
      holds.lhNode_precedes consistent isMember⟩
  · intro item allocated fresh
    exact holds.ensures_insert consistent allocated fresh
  · intro item isMember
    refine (holds.ensures_delete consistent isMember).weaken ?_
    intro _ after deleted
    obtain ⟨holdsAfter, -, frame⟩ := deleted
    exact ⟨holdsAfter, frame⟩

/-- Five nodes outside of any heap. -/
def looseHeap : LhState where
  nodes :=
    .ofList
      [(16, ⟨0, 0, 0, 0⟩), (32, ⟨0, 0, 0, 0⟩), (48, ⟨0, 0, 0, 0⟩),
        (64, ⟨0, 0, 0, 0⟩), (80, ⟨0, 0, 0, 0⟩)]
  lhNode := null

/-- All structures have the same key. -/
def sameKey (_ : Word) : Int :=
  0

/-- Initialise and insert a node. -/
def insertInitialised
    (key : Word → Int)
    (item : Word) : Program LhState Unit := do
  lhNodeInit item
  lhInsert 0 key sampleCmp item

/-- Whether a node occupies memory. -/
def isMapped (node : Word) : Program LhState Bool :=
  reads fun state => some (state.nodes.cell node).isSome

/--
Five insertions and the deletion of a node with a child.  The answers are the
nodes that occupy memory when they are needed, and the heap at the end.
-/
def looseHeapCalls :
    Program LhState (List Bool × Word × List (Option LhNode)) := do
  insertInitialised sampleKey 64
  let second ← isMapped 32
  insertInitialised sampleKey 32
  let third ← isMapped 48
  insertInitialised sampleKey 48
  let fourth ← isMapped 16
  insertInitialised sampleKey 16
  let fifth ← isMapped 80
  insertInitialised sampleKey 80
  lhDel 0 sampleKey sampleCmp 48
  let deleted ← isMapped 48
  let root ← lhMin
  let cells ← reads fun state =>
    some ([80, 64, 32, 16].map state.nodes.cell)
  pure ([second, third, fourth, fifth, deleted], root, cells)

/-- The heap after these calls. -/
def looseHeapTree : Tree Word Int :=
  .node (.node (.node .nil 32 0 .nil) 64 0 .nil) 80 1
    (.node .nil 16 0 .nil)

/-- The calls are a run. -/
theorem exists_looseHeapRun :
    ∃ heap,
      HeapRun 0 sampleCmp (fun _ => False)
        ⟨heap, sampleKey, [80, 16, 32, 64]⟩ ∧
        Linked heap.nodes heap.lhNode looseHeapTree ∧
        heap.Allocated 48 := by
  have returns :
      looseHeapCalls.Ensures looseHeap fun answers _ =>
        answers =
          ([true, true, true, true, true], 80,
            [some ⟨0, 64, 16, 1⟩, some ⟨80, 32, 0, 0⟩,
              some ⟨64, 0, 0, 0⟩, some ⟨80, 0, 0, 0⟩]) :=
    .of_exec 20 (by decide)
  simp only [looseHeapCalls, isMapped, lhMin, ensures_bind, ensures_reads,
    ensures_pure, Option.some.injEq, exists_eq_left', List.map_cons,
    List.map_nil, Prod.mk.injEq, List.cons.injEq, Option.isSome_iff_exists,
    and_true] at returns
  obtain ⟨_, one, ranOne, _, two, ranTwo, _, three, ranThree,
    _, four, ranFour, _, five, ranFive, _, six, ranSix,
    ⟨second, third, fourth, fifth, deleted⟩,
    root, top, left, below, right⟩ := returns
  have first : looseHeap.Allocated 64 :=
    ⟨⟨0, 0, 0, 0⟩, by decide⟩
  have run :
      HeapRun 0 sampleCmp (fun _ => False)
        ⟨five, sampleKey, [80, 16, 48, 32, 64]⟩ :=
    .step
      (.step
        (.step
          (.step
            (.step (.start rfl) (.insert first (by decide) ranOne))
            (.insert second (by decide) ranTwo))
          (.insert third (by decide) ranThree))
        (.insert fourth (by decide) ranFour))
      (.insert fifth (by decide) ranFive)
  have isMember : (48 : Word) ∈ [(80 : Word), 16, 48, 32, 64] := by
    decide
  have linked : Linked six.nodes six.lhNode looseHeapTree :=
    { represents :=
        ⟨top, ⟨left, ⟨below, trivial, trivial⟩, trivial⟩, right, trivial,
          trivial⟩
      rooted := root
      distinct := by decide }
  exact ⟨six, .step run (.delete isMember ranSix), linked, deleted⟩

/--
In the heap that the run has built, the root is the node with the largest key,
the deleted node is inserted again, and a node with a parent and a child is
deleted.
-/
theorem heapRun_keeps_leftist_heap_of_sample :
    ∃ heap,
      HeapRun 0 sampleCmp (fun _ => False)
        ⟨heap, sampleKey, [80, 16, 32, 64]⟩ ∧
        Linked heap.nodes heap.lhNode looseHeapTree ∧
        looseHeapTree.Leftist ∧
        lhMin.Ensures heap
          (fun least after => after = heap ∧ least = 80) ∧
        (insertInitialised sampleKey 48).Ensures heap
          (fun _ after =>
            ∃ result,
              (⟨after, sampleKey, [48, 80, 16, 32, 64]⟩ :
                HeapState Int).Holds 0 sampleCmp result) ∧
        (lhDel 0 sampleKey sampleCmp 64).Ensures heap fun _ after =>
          (∃ result,
            (⟨after, sampleKey, [80, 16, 32]⟩ : HeapState Int).Holds 0
              sampleCmp result) ∧
            after.nodes.cell 48 = heap.nodes.cell 48 := by
  obtain ⟨heap, run, linked, allocated⟩ := exists_looseHeapRun
  obtain ⟨tree, linkedTree, -, -, least, leftist, -, inserts, deletes⟩ :=
    heapRun_keeps_leftist_heap threeWay_sub run
  obtain rfl := linkedTree.unique linked
  have fresh : (48 : Word) ∉ [(80 : Word), 16, 32, 64] := by
    decide
  have isInner : (64 : Word) ∈ [(80 : Word), 16, 32, 64] := by
    decide
  have isLargest : (80 : Word) ∈ [(80 : Word), 16, 32, 64] := by
    decide
  have last :
      ∀ node ∈ [(80 : Word), 16, 32, 64],
        0 ≤ sampleCmp (sampleKey (lhEntry 0 node))
          (sampleKey (lhEntry 0 80)) →
        node = 80 := by
    simp [sampleCmp, sampleKey, lhEntry]
  refine ⟨heap, run, linked, leftist, least.weaken ?_,
    (inserts 48 allocated fresh).weaken ?_,
    (deletes 64 isInner).weaken ?_⟩
  · intro node after smallest
    obtain ⟨same, -, precedes⟩ := smallest
    obtain ⟨isMember, notSmaller⟩ := precedes 80 isLargest
    exact ⟨same, last node isMember notSmaller⟩
  · intro _ after inserted
    exact inserted.1
  · intro _ after deleted
    obtain ⟨holds, frame⟩ := deleted
    exact ⟨holds, frame 48 fresh⟩

/--
In every run that calls `lh_del_min` on heaps of one node only, all states are
valid, and `lh_del_min` removes exactly the root of a non-empty heap if and
only if that heap has no other node.
-/
theorem heapRun_lhDelMin_removesRoot_iff_single
    (consistent : ThreeWay cmp)
    {reached : HeapState κ}
    (run :
      HeapRun member cmp (fun state => state.members.length = 1)
        reached) :
    (∃ tree, reached.Holds member cmp tree) ∧
      (reached.members ≠ [] →
        (reached.RemovesRoot member cmp ↔
          reached.members.length = 1)) := by
  obtain ⟨tree, holds⟩ :=
    run.exists_holds consistent fun _ single => single
  refine ⟨⟨tree, holds⟩, ?_⟩
  intro nonempty
  exact ⟨holds.single_of_removesRoot nonempty, holds.removesRoot_of_single⟩

theorem heapRun_lhDelMin_removesRoot_iff_single_of_sample :
    ∃ after,
      (do
        lhNodeInit 16
        lhInsert 0 sampleKey sampleCmp 16).Returns sampleHeap () after ∧
        (⟨after, sampleKey, [16]⟩ : HeapState Int).RemovesRoot 0
          sampleCmp := by
  have start :
      HeapRun 0 sampleCmp (fun state => state.members.length = 1)
        ⟨sampleHeap, sampleKey, []⟩ :=
    .start rfl
  obtain ⟨⟨tree, holds⟩, -⟩ :=
    heapRun_lhDelMin_removesRoot_iff_single threeWay_sub start
  obtain ⟨_, after, returned, -⟩ :=
    holds.ensures_insert threeWay_sub sampleHeap_allocated.1
      List.not_mem_nil
  have run :
      HeapRun 0 sampleCmp (fun state => state.members.length = 1)
        ⟨after, sampleKey, [16]⟩ :=
    .step start
      (.insert sampleHeap_allocated.1 List.not_mem_nil returned)
  obtain ⟨-, removes⟩ :=
    heapRun_lhDelMin_removesRoot_iff_single threeWay_sub run
  exact ⟨after, returned, (removes (by simp)).mpr rfl⟩

/-- Two nodes are inserted into the sample heap. -/
theorem sampleHeap_after_two_insertions
    (callable : HeapState Int → Prop) :
    ∃ first second tree,
      (do
        lhNodeInit 16
        lhInsert 0 sampleKey sampleCmp 16).Returns sampleHeap () first ∧
        (do
          lhNodeInit 32
          lhInsert 0 sampleKey sampleCmp 32).Returns first () second ∧
        HeapRun 0 sampleCmp callable ⟨second, sampleKey, [32, 16]⟩ ∧
        (⟨second, sampleKey, [32, 16]⟩ : HeapState Int).Holds 0 sampleCmp
          tree := by
  have holds :
      (⟨sampleHeap, sampleKey, []⟩ : HeapState Int).Holds 0 sampleCmp
        .nil :=
    ⟨⟨⟨trivial, .nil, trivial, trivial⟩, rfl⟩, .nil⟩
  obtain ⟨_, first, firstReturned, ⟨firstTree, firstHolds⟩, frame⟩ :=
    holds.ensures_insert threeWay_sub sampleHeap_allocated.1
      List.not_mem_nil
  have allocated : first.Allocated 32 := by
    obtain ⟨content, atNode⟩ := sampleHeap_allocated.2
    exact ⟨content, (frame 32 (by decide)).trans atNode⟩
  have fresh : (32 : Word) ∉ [(16 : Word)] := by
    decide
  obtain ⟨_, second, secondReturned, ⟨secondTree, secondHolds⟩, -⟩ :=
    firstHolds.ensures_insert threeWay_sub allocated fresh
  refine ⟨first, second, secondTree, firstReturned, secondReturned, ?_,
    secondHolds⟩
  exact .step
    (.step (.start rfl) (.insert sampleHeap_allocated.1
      List.not_mem_nil firstReturned))
    (.insert allocated fresh secondReturned)

/--
After two insertions `lh_del_min` does not leave a valid heap without the old
root, since the new root still has the old one as its parent.
-/
theorem lhDelMin_fails_after_two_insertions :
    ∃ first second,
      (do
        lhNodeInit 16
        lhInsert 0 sampleKey sampleCmp 16).Returns sampleHeap () first ∧
        (do
          lhNodeInit 32
          lhInsert 0 sampleKey sampleCmp 32).Returns first () second ∧
        HeapRun 0 sampleCmp (fun _ => True)
          ⟨second, sampleKey, [32, 16]⟩ ∧
        ¬(⟨second, sampleKey, [32, 16]⟩ : HeapState Int).RemovesRoot 0
          sampleCmp := by
  obtain ⟨first, second, tree, firstReturned, secondReturned, run, holds⟩ :=
    sampleHeap_after_two_insertions (fun _ => True)
  refine ⟨first, second, firstReturned, secondReturned, run, ?_⟩
  intro removes
  have single := holds.single_of_removesRoot (by simp) removes
  simp at single

end Invariant

end LibKern.LHeap
