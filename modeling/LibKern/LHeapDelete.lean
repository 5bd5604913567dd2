import LibKern.LHeapMerge

namespace LibKern.LHeap

/-!
# `lh_insert` and `lh_del` keep a leftist heap

Inserting a node merges the heap with a heap of one node.  Deleting a node
first merges its children, then cuts it off its parent, repairs the path to
the root, and merges the two heaps that are left.
-/

open Program Context

/-- `heap->lh_node` leads to this leftist heap. -/
structure LhState.Valid
    (above : Word → Word → Prop)
    (state : LhState)
    (tree : Tree Word Int) : Prop where
  heap : Heap above state.nodes tree
  rooted : state.lhNode = tree.root

/-- A node without links, whose `lh_npl` may be left from earlier use. -/
def LhState.Unlinked (state : LhState) (node : Word) : Prop :=
  ∃ npl, 0 ≤ npl ∧
    state.nodes.cell node = some ⟨null, null, null, npl⟩

/-- A node can be accessed. -/
def LhState.Allocated (state : LhState) (node : Word) : Prop :=
  ∃ content, state.nodes.cell node = some content

section Insert

variable {κ : Type}
variable {member : Word} {key : Word → κ} {cmp : κ → κ → Int}
variable {state : LhState}
variable {tree : Tree Word Int}
variable {item : Word}

/-- With a null-path length of zero, a node without links is a heap. -/
theorem heap_of_unlinked
    {memory : Memory Word LhNode}
    (above : Word → Word → Prop)
    (atItem : memory.cell item = some ⟨null, null, null, 0⟩) :
    Heap above memory (.node .nil item 0 .nil) where
  represents := by simp [atItem]
  distinct := by simp
  leftist := by simp [Tree.Leftist, Tree.nullPath]
  ordered := by simp [Tree.Ordered]

/-- `lh_node_init` makes a heap of one node. -/
theorem ensures_lhNodeInit
    (above : Word → Word → Prop)
    (allocated : state.Allocated item) :
    (lhNodeInit item).Ensures state fun _ after =>
      Heap above after.nodes (.node .nil item 0 .nil) ∧
        state.SameOutside [item] after := by
  obtain ⟨content, atItem⟩ := allocated
  simp only [lhNodeInit, setParent, setRight, setLeft, setNpl,
    ensures_bind, ensures_store, LhState.nodes_modify,
    Memory.modify_cell_same, atItem, Option.map_some,
    Option.some.injEq, exists_eq', true_and]
  constructor
  · apply heap_of_unlinked
    simp [atItem, Cell.withParent, Cell.withChild, Cell.withTag]
  · have changed
        (before : LhState)
        (change : LhNode → LhNode) :
        before.SameOutside [item] (before.modify item change) :=
      .modify (by simp) change
    exact (((changed _ _).trans (changed _ _)).trans
      (changed _ _)).trans (changed _ _)

/-- `lh_insert` adds an initialised node. -/
theorem ensures_lhInsert
    (consistent : ThreeWay cmp)
    (valid : state.Valid (Precedes member key cmp) tree)
    (single :
      Heap (Precedes member key cmp) state.nodes
        (.node .nil item 0 .nil))
    (fresh : item ∉ tree.inorder) :
    (lhInsert member key cmp item).Ensures state fun _ after =>
      ∃ result, after.Valid (Precedes member key cmp) result ∧
        result.inorder.Perm (item :: tree.inorder) ∧
        ∀ node ∉ item :: tree.inorder,
          after.nodes.cell node = state.nodes.cell node := by
  have disjoint :
      tree.inorder.Disjoint
        (Tree.node .nil item (0 : Int) .nil).inorder := by
    simpa using fresh
  simp only [lhInsert, ensures_bind, ensures_lhMin, valid.rooted]
  refine (ensures_lhMerge consistent valid.heap single disjoint).weaken ?_
  intro merged after result
  obtain ⟨result, rfl, heap, listing, same⟩ := result
  rw [ensures_setHeap]
  refine ⟨result, ⟨heap, rfl⟩, listing.trans List.perm_append_comm, ?_⟩
  intro node outside
  apply same.cell
  simpa [or_comm] using outside

/-- Initialising and inserting a node that is not in the heap. -/
theorem ensures_lhInsert_fresh
    (consistent : ThreeWay cmp)
    (valid : state.Valid (Precedes member key cmp) tree)
    (allocated : state.Allocated item)
    (fresh : item ∉ tree.inorder) :
    (do
      lhNodeInit item
      lhInsert member key cmp item).Ensures state fun _ after =>
        ∃ result, after.Valid (Precedes member key cmp) result ∧
          result.inorder.Perm (item :: tree.inorder) ∧
          ∀ node ∉ item :: tree.inorder,
            after.nodes.cell node = state.nodes.cell node := by
  rw [ensures_bind]
  refine (ensures_lhNodeInit (Precedes member key cmp)
    allocated).weaken ?_
  intro _ after initialised
  obtain ⟨single, same⟩ := initialised
  have afterValid : after.Valid (Precedes member key cmp) tree :=
    ⟨valid.heap.sameOutside same (by simpa using fresh),
      same.lhNode.trans valid.rooted⟩
  refine (ensures_lhInsert consistent afterValid single fresh).weaken ?_
  intro _ final inserted
  obtain ⟨result, finalValid, listing, frame⟩ := inserted
  refine ⟨result, finalValid, listing, ?_⟩
  intro node outside
  rw [frame node outside]
  exact same.cell node fun isItem =>
    outside (List.mem_cons.mpr (.inl (List.mem_singleton.mp isItem)))

end Insert

section Path

variable {state : LhState}
variable {context : Context Word Int}
variable {left right : Tree Word Int}
variable {address : Word}
variable {npl : Int}

/-- A child of the deleted node becomes a root. -/
theorem ensures_lhOrphan
    {parent : Word}
    {tree : Tree Word Int}
    (represents : Represents state.nodes parent tree)
    (distinct : tree.inorder.Nodup) :
    (lhOrphan tree.root).Ensures state fun _ after =>
      Represents after.nodes null tree ∧
        state.SameOutside tree.inorder after := by
  by_cases empty : tree = .nil
  · subst empty
    exact (ensures_onlyIf_of_not (by simp)).mpr ⟨trivial, .refl⟩
  · have present := represents.root_eq_null_iff.not.mpr empty
    refine (ensures_onlyIf_of present).mpr ?_
    rw [setParent, ensures_store]
    exact ⟨represents.mapped (Tree.root_mem empty),
      represents.reparent distinct null,
      .modify (Tree.root_mem empty) _⟩

/-- `node->lh_parent` at the root of a subtree that is present. -/
theorem exists_cell_parent
    {memory : Memory Word LhNode}
    {parent : Word}
    {tree : Tree Word Int}
    (represented : Represents memory parent tree)
    (nonempty : tree ≠ .nil) :
    ∃ content, memory.cell tree.root = some content ∧
      content.parent = parent := by
  cases tree with
  | nil =>
      exact absurd rfl nonempty
  | node left here npl right =>
      exact ⟨_, represented.1, rfl⟩

/-- The decision of `lh_del` follows the null-path lengths. -/
theorem ensures_lhDelSwaps
    (leftLeftist : left.Leftist)
    (leftNonempty : left ≠ .nil)
    (represented :
      Represents state.nodes null
        (context.plug (.node left address npl right))) :
    (lhDelSwaps address).Ensures state fun swaps after =>
      after = state ∧ swaps = decide (left.rank < right.rank) := by
  obtain ⟨-, atAddress, leftRep, rightRep⟩ :=
    represents_plug.mp represented
  simp only [lhDelSwaps, lhLeft, lhRight, lhNpl, ensures_bind,
    ensures_load, atAddress, Option.some.injEq, exists_eq_left']
  by_cases rightEmpty : right = .nil
  · subst rightEmpty
    have longer : ¬left.rank < -1 :=
      not_lt.mpr leftLeftist.ranked.neg_one_le_rank
    simp [longer]
  · have present := rightRep.root_eq_null_iff.not.mpr rightEmpty
    obtain ⟨leftContent, atLeft, isLeftRank⟩ :=
      exists_cell_rank leftRep leftNonempty
    obtain ⟨rightContent, atRight, isRightRank⟩ :=
      exists_cell_rank rightRep rightEmpty
    simp [atAddress, present, atLeft, isLeftRank, atRight, isRightRank]

/-- The deleted node is cut off, and its parent keeps only the sibling. -/
theorem ensures_lhCut
    {side : Side}
    {item parent : Word}
    {sibling : Tree Word Int}
    (around :
      RepresentsContext state.nodes
        (⟨side, parent, npl, sibling⟩ :: context) item)
    (different : sibling.root ≠ item)
    (outside : parent ∉ context.addresses)
    (outsideSibling : parent ∉ sibling.inorder) :
    (lhCut item parent).Ensures state fun _ after =>
      Represents after.nodes null
          (context.plug (.node sibling parent 0 .nil)) ∧
        state.SameOutside [parent] after := by
  obtain ⟨atParent, siblingRep, restRep⟩ := around
  have changed
      (before : LhState)
      (change : LhNode → LhNode) :
      before.SameOutside [parent] (before.modify parent change) :=
    .modify (by simp) change
  have finished
      {after : LhState}
      (same : state.SameOutside [parent] after)
      (atAfter :
        after.nodes.cell parent =
          some ⟨context.parent, sibling.root, null, 0⟩) :
      Represents after.nodes null
          (context.plug (.node sibling parent 0 .nil)) ∧
        state.SameOutside [parent] after := by
    refine ⟨represents_plug.mpr ⟨?_, atAfter, ?_, trivial⟩, same⟩
    · refine restRep.congr fun other inContext => same.cell other ?_
      simp only [List.mem_singleton]
      exact ne_of_mem_of_not_mem inContext outside
    · exact same.represents siblingRep (by simpa using outsideSibling)
  simp only [lhCut, setNpl, ensures_bind, ensures_store, lhRight,
    ensures_load, LhState.nodes_modify, Memory.modify_cell_same, atParent,
    Option.map_some, Option.some.injEq, exists_eq', true_and,
    exists_eq_left']
  cases side with
  | left =>
      refine (ensures_onlyIf_of
        (by simpa [Cell.make, Cell.withTag] using different)).mpr ?_
      simp only [setLeft, setRight, ensures_bind, ensures_load,
        ensures_store, LhState.nodes_modify, Memory.modify_cell_same,
        atParent, Option.map_some, Option.some.injEq, exists_eq',
        true_and, exists_eq_left']
      refine finished (((changed _ _).trans (changed _ _)).trans
        (changed _ _)) ?_
      simp [atParent, Cell.make, Cell.withTag, Cell.withChild]
  | right =>
      refine (ensures_onlyIf_of_not
        (by simp [Cell.make, Cell.withTag])).mpr ?_
      simp only [setRight, ensures_store, LhState.nodes_modify,
        Memory.modify_cell_same, atParent, Option.map_some,
        Option.some.injEq, exists_eq', true_and]
      refine finished ((changed _ _).trans (changed _ _)) ?_
      simp [atParent, Cell.make, Cell.withTag, Cell.withChild]

/-- One round of the loop of `lh_del` rebuilds the parent of a node. -/
theorem ensures_lhDelUpStep
    {child : Word}
    {content : LhNode}
    (atChild : state.nodes.cell child = some content)
    (isParent : content.parent = address)
    (leftLeftist : left.Leftist)
    (leftNonempty : left ≠ .nil)
    (represented :
      Represents state.nodes null
        (context.plug (.node left address npl right)))
    (distinct :
      (context.plug (.node left address npl right)).inorder.Nodup) :
    (lhDelUp child).Ensures state fun flow after =>
      flow = .next address ∧
        Represents after.nodes null
          (context.plug (.rebuild left address right)) ∧
        state.SameOutside [address] after := by
  obtain ⟨-, atAddress, -, -⟩ := represents_plug.mp represented
  have present : address ≠ null := Memory.ne_null atAddress
  simp only [lhDelUp, lhParent, ensures_bind, ensures_load, atChild,
    Option.some.injEq, exists_eq_left', isParent, ne_eq, present,
    not_false_eq_true, ↓reduceIte]
  refine (ensures_lhDelSwaps leftLeftist leftNonempty
    represented).weaken ?_
  intro swaps same decides
  obtain ⟨rfl, decides⟩ := decides
  refine (ensures_lhRebuild (.inl decides) represented
    (nodup_plug_node.mp distinct)).weaken ?_
  intro _ after rebuilt
  exact ensures_pure.mpr ⟨rfl, rebuilt⟩

/-- The loop of `lh_del` rebuilds all nodes on the path to the root. -/
theorem ensures_lhDelUp
    {tree : Tree Word Int}
    (nonempty : tree ≠ .nil)
    (leftist : tree.Leftist)
    (siblings :
      ∀ frame ∈ context,
        frame.sibling.Leftist ∧
          (frame.side = .right → frame.sibling ≠ .nil))
    (represented : Represents state.nodes null (context.plug tree))
    (distinct : (context.plug tree).inorder.Nodup) :
    (loop lhDelUp tree.root).Ensures state fun _ after =>
      Represents after.nodes null (context.rebuild tree) ∧
        state.SameOutside (context.plug tree).inorder after := by
  induction context generalizing tree state with
  | nil =>
      obtain ⟨content, atRoot, isParent⟩ :=
        exists_cell_parent represented nonempty
      rw [ensures_loop]
      simp only [lhDelUp, lhParent, ensures_bind, ensures_load]
      refine ⟨content, atRoot, ?_⟩
      rw [isParent, ensures_ite, if_neg (by simp), ensures_pure]
      exact ⟨represented, .refl⟩
  | cons frame rest inductionHypothesis =>
      obtain ⟨side, parent, npl, sibling⟩ := frame
      rw [List.forall_mem_cons] at siblings
      obtain ⟨⟨siblingLeftist, siblingPresent⟩, restSiblings⟩ := siblings
      obtain ⟨content, atRoot, isParent⟩ :=
        exists_cell_parent (represents_plug.mp represented).2 nonempty
      have included :
          ∀ other ∈ [parent],
            other ∈
              (plug (⟨side, parent, npl, sibling⟩ :: rest)
                tree).inorder := by
        simp [mem_inorder_plug]
      have continues
          {left right : Tree Word Int}
          (leftLeftist : left.Leftist)
          (rightLeftist : right.Leftist)
          (leftNonempty : left ≠ .nil)
          (shape :
            plug (⟨side, parent, npl, sibling⟩ :: rest) tree =
              plug rest (.node left parent npl right)) :
          (loop lhDelUp tree.root).Ensures state fun _ after =>
            Represents after.nodes null
                (Context.rebuild rest (.rebuild left parent right)) ∧
              state.SameOutside
                (plug rest (.node left parent npl right)).inorder
                after := by
        rw [shape] at represented distinct included
        have rearranged :
            (plug rest (.rebuild left parent right)).inorder.Perm
              (plug rest (.node left parent npl right)).inorder := by
          apply inorder_plug_perm_of_perm
          exact (Tree.inorder_rebuild_perm _ _ _).trans
            List.perm_middle.symm
        rw [ensures_loop]
        refine (ensures_lhDelUpStep atRoot isParent leftLeftist
          leftNonempty represented distinct).weaken ?_
        intro flow first step
        obtain ⟨rfl, firstRep, firstSame⟩ := step
        have following :=
          inductionHypothesis (Tree.rebuild_ne_nil _ _ _)
            (leftLeftist.rebuild rightLeftist parent) restSiblings
            firstRep (rearranged.nodup_iff.mpr distinct)
        rw [Tree.root_rebuild] at following
        refine following.weaken ?_
        intro _ after result
        exact ⟨result.1, (firstSame.mono included).trans
          (result.2.mono fun _ => rearranged.mem_iff.mp)⟩
      cases side with
      | left =>
          exact continues leftist siblingLeftist nonempty rfl
      | right =>
          exact continues siblingLeftist leftist (siblingPresent rfl) rfl

end Path

section Delete

variable {κ : Type}
variable {member : Word} {key : Word → κ} {cmp : κ → κ → Int}
variable {state : LhState}
variable {context : Context Word Int}
variable {left right : Tree Word Int}
variable {item : Word}
variable {npl : Int}

/-- The children of the deleted node are merged. -/
theorem ensures_lhDelChildren
    (consistent : ThreeWay cmp)
    (heap :
      Heap (Precedes member key cmp) state.nodes
        (context.plug (.node left item npl right))) :
    (lhDelChildren member key cmp item).Ensures state fun value after =>
      ∃ new, value = new.root ∧
        Heap (Precedes member key cmp) after.nodes new ∧
        new.inorder.Perm (left.inorder ++ right.inorder) ∧
        state.SameOutside (left.inorder ++ right.inorder) after := by
  obtain ⟨-, atItem, leftRep, rightRep⟩ :=
    represents_plug.mp heap.represents
  have apart := nodup_plug_node.mp heap.distinct
  have leftist := leftist_of_plug heap.leftist
  have ordered := (ordered_plug.mp heap.ordered).1
  simp only [lhDelChildren, lhLeft, lhRight, ensures_bind, ensures_load]
  refine ⟨_, atItem, ?_⟩
  refine (ensures_lhOrphan leftRep apart.leftNodup).weaken ?_
  intro _ first orphaned
  obtain ⟨firstLeft, firstSame⟩ := orphaned
  have firstRight : Represents first.nodes item right :=
    firstSame.represents rightRep (List.disjoint_comm.mp apart.leftRight)
  have atFirst :=
    (firstSame.cell item apart.addressLeft).trans atItem
  refine ⟨_, atFirst, ?_⟩
  refine (ensures_lhOrphan firstRight apart.rightNodup).weaken ?_
  intro _ second orphaned
  obtain ⟨secondRight, secondSame⟩ := orphaned
  have secondLeft : Represents second.nodes null left :=
    secondSame.represents firstLeft apart.leftRight
  have atSecond :=
    (secondSame.cell item apart.addressRight).trans atFirst
  refine ⟨_, atSecond, _, atSecond, ?_⟩
  have leftHeap : Heap (Precedes member key cmp) second.nodes left :=
    ⟨secondLeft, apart.leftNodup, leftist.2.2.1, ordered.2.2.1⟩
  have rightHeap : Heap (Precedes member key cmp) second.nodes right :=
    ⟨secondRight, apart.rightNodup, leftist.2.2.2, ordered.2.2.2⟩
  refine (ensures_lhMerge consistent leftHeap rightHeap
    apart.leftRight).weaken ?_
  intro value after merged
  obtain ⟨new, isRoot, newHeap, listing, afterSame⟩ := merged
  refine ⟨new, isRoot, newHeap, listing, ?_⟩
  exact ((firstSame.mono fun _ => List.mem_append_left _).trans
    (secondSame.mono fun _ => List.mem_append_right _)).trans afterSame

/-- The deleted node has no links afterwards, but keeps its `lh_npl`. -/
theorem ensures_lhIsolate
    {content : LhNode}
    (atItem : state.nodes.cell item = some content) :
    (lhIsolate item).Ensures state fun parent after =>
      parent = content.parent ∧
        after.nodes.cell item =
          some ⟨null, null, null, content.tag⟩ ∧
        state.SameOutside [item] after := by
  simp only [lhIsolate, setRight, setLeft, setParent, lhParent,
    ensures_bind, ensures_store, ensures_load, LhState.nodes_modify,
    Memory.modify_cell_same, atItem, Option.map_some,
    Option.some.injEq, exists_eq', true_and, exists_eq_left',
    ensures_pure]
  have changed
      (before : LhState)
      (change : LhNode → LhNode) :
      before.SameOutside [item] (before.modify item change) :=
    .modify (by simp) change
  refine ⟨rfl, ?_, ((changed _ _).trans (changed _ _)).trans
    (changed _ _)⟩
  simp [Cell.withParent, Cell.withChild]

/-- The nodes that are left after an inner node was cut off. -/
theorem inorder_cut_perm
    (context : Context Word Int)
    (side : Side)
    (parent : Word)
    (sibling : Tree Word Int)
    (npl : Int) :
    (context.plug (.node sibling parent 0 .nil)).inorder.Perm
      (addresses (⟨side, parent, npl, sibling⟩ :: context)) := by
  refine (inorder_plug_perm _ _).trans ?_
  simp [List.perm_middle]

/-- The heap around a node that was cut off, before its repair. -/
structure CutOff
    (above : Word → Word → Prop)
    (memory : Memory Word LhNode)
    (context : Context Word Int)
    (parent : Word)
    (sibling : Tree Word Int) : Prop where
  represents :
    Represents memory null (context.plug (.node sibling parent 0 .nil))
  distinct :
    (context.plug (.node sibling parent 0 .nil)).inorder.Nodup
  leftist : (Tree.node sibling parent 0 .nil).Leftist
  ordered : (context.plug (.node sibling parent 0 .nil)).Ordered above

/-- An inner node is cut off. -/
theorem ensures_lhCut_cutOff
    {side : Side}
    {parent : Word}
    {sibling : Tree Word Int}
    {above : Word → Word → Prop}
    (around :
      RepresentsContext state.nodes
        (⟨side, parent, npl, sibling⟩ :: context) item)
    (distinct :
      (addresses (⟨side, parent, npl, sibling⟩ :: context)).Nodup)
    (outside : item ∉ addresses (⟨side, parent, npl, sibling⟩ :: context))
    (present : item ≠ null)
    (siblingLeftist : sibling.Leftist)
    (ordered :
      Context.Ordered above (⟨side, parent, npl, sibling⟩ :: context)) :
    (lhCut item parent).Ensures state fun _ after =>
      CutOff above after.nodes context parent sibling ∧
        state.SameOutside [parent] after := by
  have apart : context.Apart sibling parent .nil := by
    simp only [addresses_cons, List.nodup_cons, List.mem_append, not_or,
      List.nodup_append'] at distinct
    exact
      { addressLeft := distinct.1.1
        addressRight := by simp
        addressContext := distinct.1.2
        leftNodup := distinct.2.1
        rightNodup := by simp
        contextNodup := distinct.2.2.1
        leftRight := by simp
        leftContext := distinct.2.2.2
        rightContext := by simp }
  have different : sibling.root ≠ item := by
    intro same
    by_cases empty : sibling = .nil
    · subst empty
      exact present same.symm
    · apply outside
      simp [← same, Tree.root_mem empty]
  obtain ⟨siblingBelow, siblingOrdered, parentFits, restOrdered⟩ := ordered
  refine (ensures_lhCut around different apart.addressContext
    apart.addressLeft).weaken ?_
  intro _ cut cutResult
  obtain ⟨cutRep, cutSame⟩ := cutResult
  refine ⟨⟨cutRep, nodup_plug_node.mpr apart, ?_, ?_⟩, cutSame⟩
  · have bound := sibling.neg_one_le_nullPath
    refine ⟨?_, bound, siblingLeftist, trivial⟩
    simp only [Tree.nullPath]
    omega
  · exact ordered_plug.mpr
      ⟨⟨siblingBelow, by simp, siblingOrdered, trivial⟩, restOrdered,
        by simpa using parentFits⟩

/-- What is left of the heap after an inner node was cut off. -/
theorem ensures_lhCut_repaired
    {side : Side}
    {parent : Word}
    {sibling : Tree Word Int}
    {above : Word → Word → Prop}
    (around :
      RepresentsContext state.nodes
        (⟨side, parent, npl, sibling⟩ :: context) item)
    (distinct :
      (addresses (⟨side, parent, npl, sibling⟩ :: context)).Nodup)
    (outside : item ∉ addresses (⟨side, parent, npl, sibling⟩ :: context))
    (present : item ≠ null)
    (siblings :
      ∀ frame ∈ (⟨side, parent, npl, sibling⟩ :: context :
          Context Word Int),
        frame.sibling.Leftist ∧
          (frame.side = .right → frame.sibling ≠ .nil))
    (ordered :
      Context.Ordered above (⟨side, parent, npl, sibling⟩ :: context)) :
    (do
      lhCut item parent
      loop lhDelUp parent).Ensures state fun _ after =>
        Heap above after.nodes
            (context.rebuild (.node sibling parent 0 .nil)) ∧
          state.SameOutside
            (addresses (⟨side, parent, npl, sibling⟩ :: context))
            after := by
  rw [List.forall_mem_cons] at siblings
  obtain ⟨⟨siblingLeftist, -⟩, restSiblings⟩ := siblings
  have listing := inorder_cut_perm context side parent sibling npl
  rw [ensures_bind]
  refine (ensures_lhCut_cutOff around distinct outside present
    siblingLeftist ordered).weaken ?_
  intro _ cut cutResult
  obtain ⟨cutOff, cutSame⟩ := cutResult
  have repaired :=
    ensures_lhDelUp (by simp) cutOff.leftist restSiblings
      cutOff.represents cutOff.distinct
  refine repaired.weaken ?_
  intro _ after result
  obtain ⟨represents, afterSame⟩ := result
  refine ⟨⟨represents, ?_, ?_, ordered_rebuild cutOff.ordered⟩, ?_⟩
  · exact (inorder_rebuild_perm _ _).nodup_iff.mpr cutOff.distinct
  · exact leftist_rebuild cutOff.leftist
      fun frame isFrame => (restSiblings frame isFrame).1
  · refine (cutSame.mono ?_).trans (afterSame.mono ?_)
    · simp
    · exact fun _ => listing.mem_iff.mp

/-- The nodes that stay when a node is removed. -/
private theorem inorder_erase_perm
    (context : Context Word Int)
    (left right : Tree Word Int)
    (item : Word)
    (npl : Int) :
    ((left.inorder ++ right.inorder) ++ context.addresses).Perm
      ((context.plug (.node left item npl right)).inorder.erase
        item) := by
  have listing :
      (context.plug (.node left item npl right)).inorder.Perm
        (item :: ((left.inorder ++ right.inorder) ++
          context.addresses)) := by
    refine (inorder_plug_perm _ _).trans ?_
    exact List.perm_middle.append_right _
  simpa using (listing.erase item).symm

/-- The children of a node are merged, and the node is cut off below. -/
structure Isolated
    (above : Word → Word → Prop)
    (state isolated : LhState)
    (context : Context Word Int)
    (item : Word)
    (whole new : Tree Word Int) : Prop where
  heap : Heap above isolated.nodes new
  around : RepresentsContext isolated.nodes context item
  sameRoot : isolated.lhNode = state.lhNode
  sameOutside :
    ∀ node ∉ whole.inorder,
      isolated.nodes.cell node = state.nodes.cell node

/-- Merging the children and isolating the node leaves the rest alone. -/
theorem isolated_of_sameOutside
    {above : Word → Word → Prop}
    {merged isolated : LhState}
    {new : Tree Word Int}
    (represents :
      Represents state.nodes null
        (context.plug (.node left item npl right)))
    (distinct :
      (context.plug (.node left item npl right)).inorder.Nodup)
    (newHeap : Heap above merged.nodes new)
    (newListing : new.inorder.Perm (left.inorder ++ right.inorder))
    (mergedSame :
      state.SameOutside (left.inorder ++ right.inorder) merged)
    (isolatedSame : merged.SameOutside [item] isolated) :
    Isolated above state isolated context item
      (context.plug (.node left item npl right)) new := by
  have apart := nodup_plug_node.mp distinct
  obtain ⟨around, -, -, -⟩ := represents_plug.mp represents
  refine ⟨?_, ?_, isolatedSame.lhNode.trans mergedSame.lhNode, ?_⟩
  · apply newHeap.sameOutside isolatedSame
    rw [List.disjoint_singleton]
    intro inside
    rcases List.mem_append.mp (newListing.mem_iff.mp inside) with
      inLeft | inRight
    · exact apart.addressLeft inLeft
    · exact apart.addressRight inRight
  · refine around.congr fun other inContext => ?_
    have notItem : other ∉ [item] := by
      rw [List.mem_singleton]
      exact ne_of_mem_of_not_mem inContext apart.addressContext
    have notChild : other ∉ left.inorder ++ right.inorder := by
      rw [List.mem_append, not_or]
      exact ⟨fun inLeft => apart.leftContext inLeft inContext,
        fun inRight => apart.rightContext inRight inContext⟩
    exact (isolatedSame.cell other notItem).trans
      (mergedSame.cell other notChild)
  · intro node outside
    obtain ⟨notItem, notLeft, notRight, -⟩ := notMem_plug_node.mp outside
    rw [isolatedSame.cell node (by simpa using notItem)]
    exact mergedSame.cell node (by simp [notLeft, notRight])

/-- `lh_del` removes any node of the heap. -/
theorem ensures_lhDel
    (consistent : ThreeWay cmp)
    {tree : Tree Word Int}
    (valid : state.Valid (Precedes member key cmp) tree)
    (isMember : item ∈ tree.inorder) :
    (lhDel member key cmp item).Ensures state fun _ after =>
      ∃ result, after.Valid (Precedes member key cmp) result ∧
        result.inorder.Perm (tree.inorder.erase item) ∧
        after.Unlinked item ∧
        ∀ node ∉ tree.inorder,
          after.nodes.cell node = state.nodes.cell node := by
  obtain ⟨context, left, npl, right, rfl⟩ :=
    Tree.exists_plug_of_mem isMember
  have apart := nodup_plug_node.mp valid.heap.distinct
  obtain ⟨around, atItem, -, -⟩ :=
    represents_plug.mp valid.heap.represents
  have remaining := inorder_erase_perm context left right item npl
  rw [lhDel, ensures_bind]
  refine (ensures_lhDelChildren consistent valid.heap).weaken ?_
  intro value merged children
  obtain ⟨new, rfl, newHeap, newListing, mergedSame⟩ := children
  have outsideChildren : item ∉ left.inorder ++ right.inorder := by
    simp [apart.addressLeft, apart.addressRight]
  have atMerged := (mergedSame.cell item outsideChildren).trans atItem
  have nonnegative : 0 ≤ npl :=
    (leftist_of_plug valid.heap.leftist).ranked.rank_nonneg (by simp)
  rw [ensures_bind]
  refine (ensures_lhIsolate atMerged).weaken ?_
  intro parent isolated result
  obtain ⟨rfl, atIsolated, isolatedSame⟩ := result
  obtain ⟨newIsolated, aroundIsolated, sameRoot, sameOutside⟩ :=
    isolated_of_sameOutside valid.heap.represents valid.heap.distinct
      newHeap newListing mergedSame isolatedSame
  cases context with
  | nil =>
      rw [ensures_ite, if_neg (by simp), ensures_setHeap]
      refine ⟨new, ⟨newIsolated, rfl⟩, newListing.trans ?_,
        ⟨npl, nonnegative, atIsolated⟩, sameOutside⟩
      simpa [addresses] using remaining
  | cons frame rest =>
      obtain ⟨side, parent, parentNpl, sibling⟩ := frame
      have parentPresent : parent ≠ null := Memory.ne_null around.1
      have itemPresent : item ≠ null := Memory.ne_null atItem
      have siblings :=
        siblings_of_leftist_plug valid.heap.leftist (by simp)
      have ordered := (ordered_plug.mp valid.heap.ordered).2.1
      have repaired :=
        ensures_lhCut_repaired aroundIsolated apart.contextNodup
          apart.addressContext itemPresent siblings ordered
      rw [ensures_bind] at repaired
      rw [ensures_ite, if_pos (by simpa using parentPresent), ensures_bind]
      refine repaired.weaken ?_
      intro _ cut looped
      rw [ensures_bind]
      refine looped.weaken ?_
      intro _ after result
      obtain ⟨restHeap, restSame⟩ := result
      have restListing :
          (Context.rebuild rest (.node sibling parent 0 .nil)).inorder.Perm
            (addresses (⟨side, parent, parentNpl, sibling⟩ :: rest)) :=
        (inorder_rebuild_perm _ _).trans
          (inorder_cut_perm rest side parent sibling parentNpl)
      have separate :
          (addresses (⟨side, parent, parentNpl, sibling⟩ ::
            rest)).Disjoint new.inorder := by
        intro other inContext inNew
        rcases List.mem_append.mp (newListing.mem_iff.mp inNew) with
          inLeft | inRight
        · exact apart.leftContext inLeft inContext
        · exact apart.rightContext inRight inContext
      have newAfter : Heap (Precedes member key cmp) after.nodes new :=
        newIsolated.sameOutside restSame (List.disjoint_comm.mp separate)
      have isRoot :
          after.lhNode =
            (Context.rebuild rest (.node sibling parent 0 .nil)).root := by
        rw [restSame.lhNode, sameRoot, valid.rooted, plug_cons]
        exact (root_rebuild rest (by simp)).symm
      rw [ensures_bind, ensures_lhMin, isRoot, ensures_bind]
      refine (ensures_lhMerge consistent restHeap newAfter
        (fun _ inRest =>
          separate (restListing.mem_iff.mp inRest))).weaken ?_
      intro root final result
      obtain ⟨result, rfl, resultHeap, listing, finalSame⟩ := result
      rw [ensures_setHeap]
      have rearranged :=
        (restListing.append newListing).trans
          (List.perm_append_comm.trans remaining)
      have sameFinal
          (node : Word)
          (notContext :
            node ∉ addresses (⟨side, parent, parentNpl, sibling⟩ :: rest))
          (notNew : node ∉ new.inorder) :
          final.nodes.cell node = isolated.nodes.cell node := by
        rw [← restSame.cell node notContext]
        apply finalSame.cell
        rw [List.mem_append, not_or]
        exact ⟨restListing.mem_iff.not.mpr notContext, notNew⟩
      refine ⟨result, ⟨resultHeap, rfl⟩, listing.trans rearranged,
        ⟨npl, nonnegative, ?_⟩, ?_⟩
      · exact (sameFinal item apart.addressContext
          (newListing.mem_iff.not.mpr outsideChildren)).trans atIsolated
      · intro node outside
        obtain ⟨-, notLeft, notRight, notContext⟩ :=
          notMem_plug_node.mp outside
        rw [← sameOutside node outside]
        apply sameFinal node notContext
        rw [newListing.mem_iff, List.mem_append, not_or]
        exact ⟨notLeft, notRight⟩

end Delete

end LibKern.LHeap
