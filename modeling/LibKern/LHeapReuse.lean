import LibKern.LHeapRuns

namespace LibKern.LHeap

/-!
# Inserting a deleted node again

`lh_del` clears the links of the node it removes and leaves its null-path
length.  `lh_insert` does not look at the node it inserts: it sets the
null-path length of this node only if the node gets a child on the way.  So a
deleted node can be inserted again without `lh_node_init` exactly if its
null-path length is zero, or if it goes above a node of the right spine.
-/

open Program Context

/-- The nodes on the path from the root of the heap that always goes right. -/
inductive LhState.OnSpine (state : LhState) : Word → Prop where
  | root :
      state.lhNode ≠ null →
      state.OnSpine state.lhNode
  | right
      {node : Word}
      {content : LhNode} :
      state.OnSpine node →
      state.nodes.cell node = some content →
      content.right ≠ null →
      state.OnSpine content.right

/-- The null-path length of a node is zero, or `lh_insert` sets it again. -/
def LhState.Reusable
    {κ : Type}
    (member : Word)
    (key : Word → κ)
    (cmp : κ → κ → Int)
    (state : LhState)
    (item : Word) : Prop :=
  (∃ content,
    state.nodes.cell item = some content ∧ content.tag = 0) ∨
    ∃ node, state.OnSpine node ∧ compare member key cmp node item < 0

section Spine

variable {state : LhState}
variable {tree : Tree Word Int}
variable {node : Word}

/-- A right spine starts at the root. -/
theorem root_mem_spine
    (nonempty : tree ≠ .nil) :
    tree.root ∈ tree.spine := by
  cases tree with
  | nil =>
      exact absurd rfl nonempty
  | node left address npl right =>
      simp [Tree.spine]

/-- A right spine goes on with right children. -/
theorem right_mem_spine
    {memory : Memory Word LhNode}
    {parent : Word}
    {content : LhNode}
    (represents : Represents memory parent tree)
    (onSpine : node ∈ tree.spine)
    (atNode : memory.cell node = some content)
    (present : content.right ≠ null) :
    content.right ∈ tree.spine := by
  induction tree generalizing parent with
  | nil =>
      simp [Tree.spine] at onSpine
  | node left address npl right _ rightHypothesis =>
      obtain ⟨atAddress, -, rightRep⟩ := represents
      apply List.mem_cons_of_mem
      rcases List.mem_cons.mp onSpine with rfl | further
      · rw [atAddress, Option.some.injEq] at atNode
        subst atNode
        exact root_mem_spine (rightRep.root_eq_null_iff.not.mp present)
      · exact rightHypothesis rightRep further

/-- A tree below the right spine has its own right spine on it. -/
theorem LhState.OnSpine.of_mem_spine
    {parent : Word}
    (represents : Represents state.nodes parent tree)
    (starts : tree ≠ .nil → state.OnSpine tree.root)
    (inSpine : node ∈ tree.spine) :
    state.OnSpine node := by
  induction tree generalizing parent with
  | nil =>
      simp [Tree.spine] at inSpine
  | node left address npl right _ rightHypothesis =>
      obtain ⟨atAddress, -, rightRep⟩ := represents
      have onSpine : state.OnSpine address := starts (by simp)
      rcases List.mem_cons.mp inSpine with rfl | further
      · exact onSpine
      · refine rightHypothesis rightRep ?_ further
        intro nonempty
        exact onSpine.right atAddress
          (rightRep.root_eq_null_iff.not.mpr nonempty)

/-- The right spine of the heap is that of its tree. -/
theorem LhState.Valid.onSpine_iff
    {above : Word → Word → Prop}
    (valid : state.Valid above tree) :
    state.OnSpine node ↔ node ∈ tree.spine := by
  have represents := valid.heap.represents
  have rooted := valid.rooted
  constructor
  · intro onSpine
    induction onSpine with
    | root present =>
        rw [rooted] at present ⊢
        exact root_mem_spine (represents.root_eq_null_iff.not.mp present)
    | right _ atNode present inductionHypothesis =>
        exact right_mem_spine represents inductionHypothesis atNode present
  · apply LhState.OnSpine.of_mem_spine represents
    intro nonempty
    rw [← rooted]
    apply LhState.OnSpine.root
    rw [rooted]
    exact represents.root_eq_null_iff.not.mpr nonempty

end Spine

section Retag

variable {state : LhState}
variable {item : Word}
variable {npl : Int}

/-- Links can be rewritten before or after a null-path length. -/
theorem LhState.modify_withTag_comm
    (change : LhNode → LhNode)
    (commutes :
      ∀ content : LhNode,
        change (content.withTag npl) = (change content).withTag npl)
    (target : Word) :
    (state.modify item (Cell.withTag npl)).modify target change =
      (state.modify target change).modify item (Cell.withTag npl) := by
  simp only [LhState.modify, LhState.mk.injEq, and_true]
  by_cases same : item = target
  · subst same
    simp [commutes]
  · exact state.nodes.modify_comm same _ _

/-- Attaching a tree does not look at null-path lengths. -/
theorem attached_withTag
    (address mergee : Word) :
    Merging.attached (state.modify item (Cell.withTag npl)) address
        mergee =
      (Merging.attached state address mergee).modify item
        (Cell.withTag npl) := by
  unfold Merging.attached
  rw [LhState.modify_withTag_comm (Cell.withChild .right mergee)
      fun _ => rfl,
    LhState.modify_withTag_comm (Cell.withParent address) fun _ => rfl]

/-- The lowest node of the downward loop with any null-path length. -/
theorem Interleaved.withTag
    {above : Word → Word → Prop}
    {nodes : List Word}
    {context : Context Word Int}
    {left right : Tree Word Int}
    {stored : Int}
    (interleaved :
      Interleaved above nodes state context left item stored right) :
    Interleaved above nodes (state.modify item (Cell.withTag npl))
      context left item npl right := by
  have apart :=
    nodup_plug_node.mp
      (interleaved.listing.nodup_iff.mpr interleaved.distinct)
  obtain ⟨-, -, leftRep, rightRep⟩ :=
    represents_plug.mp interleaved.represents
  refine { interleaved with
    represents := ?_
    listing := ?_
    ordered := ?_ }
  · exact represents_refocus interleaved.represents apart.addressContext
      leftRep rightRep apart.addressLeft apart.addressRight rfl
  · refine (inorder_plug_perm_of_perm _ ?_).trans interleaved.listing
    exact .refl _
  · obtain ⟨inside, outside, fits⟩ :=
      ordered_plug.mp interleaved.ordered
    exact ordered_plug.mpr ⟨inside, outside, fits⟩

end Retag

section Down

variable {κ : Type}
variable {member : Word} {key : Word → κ} {cmp : κ → κ → Int}
variable {nodes : List Word}
variable {state : LhState}
variable {context : Context Word Int}
variable {left right : Tree Word Int}
variable {address item : Word}
variable {tag npl : Int}

/-- A tree is attached to the inserted node, which then has a child. -/
theorem ensures_lhMergeDown_below
    {mergee : Tree Word Int}
    (npl : Int)
    (nonempty : mergee ≠ .nil)
    (merging :
      Merging (Precedes member key cmp) nodes state context
        (.node .nil item 0 .nil) mergee) :
    (loop (lhMergeDown member key cmp) (item, mergee.root)).Ensures
      (state.modify item (Cell.withTag npl)) fun lowest after =>
        lowest = item ∧
          Interleaved (Precedes member key cmp) nodes after context .nil
            item npl mergee ∧
          (state.modify item (Cell.withTag npl)).SameOutside nodes
            after := by
  obtain ⟨-, atItem, -, -⟩ := represents_plug.mp merging.represents
  obtain ⟨parent, mergeeRep⟩ := merging.detached
  have rootMember := Tree.root_mem nonempty
  have different : item ≠ mergee.root := by
    intro same
    refine merging.apart.2.2 ?_ (same ▸ rootMember)
    simp [mem_inorder_plug]
  obtain ⟨content, atMergee⟩ := mergeeRep.mapped rootMember
  have atStale :
      (state.modify item (Cell.withTag npl)).nodes.cell item =
        some ⟨context.parent, null, null, npl⟩ := by
    simp [atItem, Cell.withTag]
  have atOther :
      (state.modify item (Cell.withTag npl)).nodes.cell mergee.root =
        some content := by
    simp [different.symm, atMergee]
  rw [ensures_loop]
  refine (ensures_lhMergeDownStep atStale atOther different).weaken ?_
  intro flow after step
  simp only [true_or, ↓reduceIte] at step
  obtain ⟨rfl, rfl⟩ := step
  refine ⟨rfl, ?_, merging.sameOutside_attached nonempty _⟩
  rw [attached_withTag]
  exact merging.interleaved.withTag

/-- What is above the inserted node when it became the lowest right child. -/
structure Stranded
    (state : LhState)
    (context : Context Word Int)
    (left : Tree Word Int)
    (lowest : Word)
    (tag : Int)
    (item : Word)
    (npl : Int) : Prop where
  represents :
    Represents state.nodes null
      (context.plug
        (.node left lowest tag (.node .nil item npl .nil)))
  distinct :
    (context.plug
      (.node left lowest tag (.node .nil item npl .nil))).inorder.Nodup
  leftLeftist : left.Leftist
  siblings : ∀ frame ∈ context, frame.sibling.Leftist

/-- The inserted node is attached to a node without a right child. -/
theorem Merging.stranded
    {above : Word → Word → Prop}
    (merging :
      Merging above nodes state context (.node left address tag .nil)
        (.node .nil item 0 .nil)) :
    Stranded
      (attached (state.modify item (Cell.withTag npl)) address item)
      context left address tag item npl := by
  have last := merging.attach (by simp)
  have around :
      Interleaved above nodes (attached state address item)
        (⟨.right, address, tag, left⟩ :: context) .nil item 0 .nil :=
    { represents := last.represents
      listing := by simpa using last.listing
      distinct := last.distinct
      siblings := last.siblings
      leftLeftist := trivial
      rightLeftist := trivial
      ordered := last.ordered }
  have retagged :
      Interleaved above nodes
        (attached (state.modify item (Cell.withTag npl)) address item)
        (⟨.right, address, tag, left⟩ :: context) .nil item npl .nil := by
    rw [attached_withTag]
    exact around.withTag
  exact
    { represents := retagged.represents
      distinct := retagged.listing.nodup_iff.mpr retagged.distinct
      leftLeftist := merging.leftist.2.2.1
      siblings := merging.siblings }

/-- A node on the right spine of this tree comes after the inserted one. -/
def Passes
    (member : Word)
    (key : Word → κ)
    (cmp : κ → κ → Int)
    (tree : Tree Word Int)
    (item : Word) : Prop :=
  ∃ node ∈ tree.spine, compare member key cmp node item < 0

/-- One round of the downward loop for the inserted node. -/
private theorem ensures_lhMergeDown_round
    {above : Word → Word → Prop}
    (merging :
      Merging above nodes state context (.node left address tag right)
        (.node .nil item 0 .nil)) :
    (lhMergeDown member key cmp (address, item)).Ensures
      (state.modify item (Cell.withTag npl)) fun flow after =>
        if right.root = null ∨
            compare member key cmp right.root item < 0 then
          after =
              Merging.attached (state.modify item (Cell.withTag npl))
                address item ∧
            flow =
              if right.root = null then .done address
              else .next (item, right.root)
        else
          after = state.modify item (Cell.withTag npl) ∧
            flow = .next (right.root, item) := by
  obtain ⟨-, atAddress, -, -⟩ := represents_plug.mp merging.represents
  obtain ⟨parent, atItem, -, -⟩ := merging.detached
  have inside :
      address ∈
        (context.plug (.node left address tag right)).inorder := by
    simp [mem_inorder_plug]
  have different : address ≠ item := by
    rintro rfl
    exact merging.apart.2.2 inside (by simp)
  have atStale :
      (state.modify item (Cell.withTag npl)).nodes.cell address =
        some ⟨context.parent, left.root, right.root, tag⟩ := by
    simp [different, atAddress]
  have atOther :
      (state.modify item (Cell.withTag npl)).nodes.cell item =
        some ⟨parent, null, null, npl⟩ := by
    simp [atItem, Cell.withTag]
  exact ensures_lhMergeDownStep atStale atOther different

/-- The inserted node goes down the right spine of the heap. -/
theorem ensures_lhMergeDown_unlinked
    (consistent : ThreeWay cmp)
    (npl : Int)
    (merging :
      Merging (Precedes member key cmp) nodes state context
        (.node left address tag right) (.node .nil item 0 .nil)) :
    (loop (lhMergeDown member key cmp) (address, item)).Ensures
      (state.modify item (Cell.withTag npl)) fun lowest after =>
        (Passes member key cmp right item →
          lowest = item ∧
            (∃ around below,
              Interleaved (Precedes member key cmp) nodes after around
                .nil item npl below) ∧
            (state.modify item (Cell.withTag npl)).SameOutside nodes
              after) ∧
          (¬Passes member key cmp right item →
            ∃ around left tag,
              Stranded after around left lowest tag item npl) := by
  induction right generalizing context left address tag with
  | nil =>
      rw [ensures_loop]
      refine (ensures_lhMergeDown_round merging).weaken ?_
      intro flow after step
      simp only [Tree.root_nil, true_or, ↓reduceIte] at step
      obtain ⟨rfl, rfl⟩ := step
      refine ⟨?_, fun _ => ⟨context, left, tag, merging.stranded⟩⟩
      simp [Passes, Tree.spine]
  | node inner root rootTag outer _ outerHypothesis =>
      obtain ⟨-, -, -, atRoot, -, -⟩ :=
        represents_plug.mp merging.represents
      have present : root ≠ null := Memory.ne_null atRoot
      rw [ensures_loop]
      refine (ensures_lhMergeDown_round merging).weaken ?_
      intro flow after step
      simp only [Tree.root_node, present, false_or, ↓reduceIte] at step
      by_cases less : compare member key cmp root item < 0
      · rw [if_pos less] at step
        obtain ⟨rfl, rfl⟩ := step
        have passes :
            Passes member key cmp (.node inner root rootTag outer) item :=
          ⟨root, by simp [Tree.spine], less⟩
        have precedes :
            ∀ first ∈ (Tree.node .nil item (0 : Int) .nil).top,
              ∀ second ∈ (Tree.node inner root rootTag outer).top,
                Precedes member key cmp first second := by
          simpa using Precedes.of_neg consistent less
        have below := merging.attach precedes
        rw [attached_withTag]
        refine (ensures_lhMergeDown_below npl (by simp) below).weaken ?_
        intro lowest final result
        obtain ⟨isItem, interleaved, same⟩ := result
        refine ⟨fun _ => ⟨isItem, ⟨_, _, interleaved⟩, ?_⟩,
          fun stops => absurd passes stops⟩
        rw [← attached_withTag] at same
        exact (merging.sameOutside_attached (by simp) _).trans same
      · rw [if_neg less] at step
        obtain ⟨rfl, rfl⟩ := step
        have passes_iff :
            Passes member key cmp (.node inner root rootTag outer) item ↔
              Passes member key cmp outer item := by
          simp [Passes, Tree.spine, less]
        have precedes :
            ∀ first ∈ (Tree.node inner root rootTag outer).top,
              ∀ second ∈ (Tree.node .nil item (0 : Int) .nil).top,
                Precedes member key cmp first second := by
          simpa [Precedes] using less
        rw [passes_iff]
        exact outerHypothesis (merging.descend precedes)

/-- The upward loop does not reach the inserted node below it. -/
theorem Stranded.ensures_lhMergeUp
    {lowest : Word}
    (stranded : Stranded state context left lowest tag item npl)
    (nonnegative : 0 ≤ npl) :
    (loop lhMergeUp lowest).Ensures state fun _ after =>
      after.nodes.cell item = some ⟨lowest, null, null, npl⟩ := by
  have apart := nodup_plug_node.mp stranded.distinct
  obtain ⟨-, -, -, atItem, -, -⟩ :=
    represents_plug.mp stranded.represents
  have ranked : (Tree.node .nil item npl .nil).Ranked :=
    fun negative => absurd negative (not_lt.mpr nonnegative)
  have outside : item ∉ lowest :: context.map Frame.address := by
    rw [List.mem_cons, not_or]
    constructor
    · rintro rfl
      exact apart.addressRight (by simp)
    · intro onPath
      exact apart.rightContext (by simp)
        (mem_addresses_of_mem_path onPath)
  refine (LHeap.ensures_lhMergeUp stranded.leftLeftist.ranked ranked
    (fun frame isFrame => (stranded.siblings frame isFrame).ranked)
    stranded.represents stranded.distinct).weaken ?_
  intro _ after upward
  obtain ⟨-, -, same⟩ := upward
  exact (same.cell item outside).trans atItem

end Down

section Insert

variable {κ : Type}
variable {member : Word} {key : Word → κ} {cmp : κ → κ → Int}
variable {state : LhState}
variable {tree : Tree Word Int}
variable {item : Word}
variable {npl : Int}

/-- With a null-path length of zero, the inserted node is a second heap. -/
theorem heaps_withTag_zero
    {above : Word → Word → Prop}
    (valid : state.Valid above tree)
    (atItem : state.nodes.cell item = some ⟨null, null, null, npl⟩)
    (fresh : item ∉ tree.inorder) :
    Heap above (state.modify item (Cell.withTag 0)).nodes tree ∧
      Heap above (state.modify item (Cell.withTag 0)).nodes
        (.node .nil item 0 .nil) := by
  have unchanged :
      state.SameOutside [item] (state.modify item (Cell.withTag 0)) :=
    .modify (by simp) _
  refine ⟨valid.heap.sameOutside unchanged (by simpa using fresh), ?_⟩
  apply heap_of_unlinked
  simp [atItem, Cell.withTag]

/-- Writing the stored null-path length back. -/
theorem modify_withTag_back
    (atItem : state.nodes.cell item = some ⟨null, null, null, npl⟩) :
    (state.modify item (Cell.withTag 0)).modify item (Cell.withTag npl) =
      state := by
  cases state with
  | mk nodes lhNode =>
      simp only [LhState.modify, LhState.mk.injEq, and_true]
      ext1
      funext address
      by_cases same : address = item
      · subst same
        have atAddress :
            nodes.cell address = some ⟨null, null, null, npl⟩ :=
          atItem
        simp [atAddress, Cell.withTag]
      · simp [same]

/-- The upward loop from the inserted node leaves a heap that has it. -/
private theorem Interleaved.ensures_inserted
    {above : Word → Word → Prop}
    {nodes : List Word}
    {middle : LhState}
    {around : Context Word Int}
    {left below : Tree Word Int}
    (interleaved :
      Interleaved above nodes middle around left item npl below)
    (listing : nodes.Perm (item :: tree.inorder))
    (same : state.SameOutside nodes middle) :
    (loop lhMergeUp item).Ensures middle fun merged after =>
      (setHeap merged).Ensures after fun _ final =>
        ∃ result, final.Valid above result ∧
          result.inorder.Perm (item :: tree.inorder) ∧
          ∀ node ∉ item :: tree.inorder,
            final.nodes.cell node = state.nodes.cell node := by
  refine interleaved.ensures_lhMergeUp.weaken ?_
  intro merged after upward
  obtain ⟨result, rfl, heap, resultListing, afterSame⟩ := upward
  rw [ensures_setHeap]
  refine ⟨result, ⟨heap, rfl⟩, resultListing.trans listing, ?_⟩
  intro node outside
  exact (same.trans afterSame).cell node
    (listing.mem_iff.not.mpr outside)

/-- A node that goes above a node of the right spine can be inserted. -/
theorem ensures_lhInsert_passing
    (consistent : ThreeWay cmp)
    (valid : state.Valid (Precedes member key cmp) tree)
    (atItem : state.nodes.cell item = some ⟨null, null, null, npl⟩)
    (fresh : item ∉ tree.inorder)
    (passes : Passes member key cmp tree item) :
    (lhInsert member key cmp item).Ensures state fun _ after =>
      ∃ result, after.Valid (Precedes member key cmp) result ∧
        result.inorder.Perm (item :: tree.inorder) ∧
        ∀ node ∉ item :: tree.inorder,
          after.nodes.cell node = state.nodes.cell node := by
  have itemPresent : item ≠ null := Memory.ne_null atItem
  obtain ⟨heap, single⟩ := heaps_withTag_zero valid atItem fresh
  have back := modify_withTag_back atItem
  cases tree with
  | nil =>
      simp [Passes, Tree.spine] at passes
  | node left root tag right =>
      have rootPresent : root ≠ null :=
        Memory.ne_null valid.heap.represents.1
      simp only [lhInsert, lhMerge, ensures_bind, ensures_lhMin,
        valid.rooted, Tree.root_node, rootPresent, ↓reduceIte, ne_eq,
        itemPresent, not_false_eq_true, ensures_ite]
      by_cases less : compare member key cmp root item < 0
      · have merging :=
          single.merging heap (by simpa using fresh)
            (by simpa using Precedes.of_neg consistent less)
        have down := ensures_lhMergeDown_below npl (by simp) merging
        rw [back] at down
        rw [if_pos less, lhMergeBoth, ensures_bind]
        refine down.weaken ?_
        intro lowest middle result
        obtain ⟨rfl, interleaved, same⟩ := result
        exact interleaved.ensures_inserted (.refl _) same
      · have merging :=
          heap.merging single (by simpa using fresh)
            (by simpa [Precedes] using less)
        have down := ensures_lhMergeDown_unlinked consistent npl merging
        rw [back] at down
        have further : Passes member key cmp right item := by
          simpa [Passes, Tree.spine, less] using passes
        rw [if_neg less, lhMergeBoth, ensures_bind]
        refine down.weaken ?_
        intro lowest middle result
        obtain ⟨rfl, ⟨around, below, interleaved⟩, same⟩ :=
          result.1 further
        exact interleaved.ensures_inserted List.perm_append_comm same

/-- A node that goes below the right spine keeps its null-path length. -/
theorem ensures_lhInsert_stranded
    (consistent : ThreeWay cmp)
    (valid : state.Valid (Precedes member key cmp) tree)
    (atItem : state.nodes.cell item = some ⟨null, null, null, npl⟩)
    (nonnegative : 0 ≤ npl)
    (fresh : item ∉ tree.inorder)
    (stops : ¬Passes member key cmp tree item) :
    (lhInsert member key cmp item).Ensures state fun _ after =>
      ∃ parent,
        after.nodes.cell item = some ⟨parent, null, null, npl⟩ := by
  have itemPresent : item ≠ null := Memory.ne_null atItem
  cases tree with
  | nil =>
      simp only [lhInsert, lhMerge, ensures_bind, ensures_lhMin,
        valid.rooted, Tree.root_nil, ↓reduceIte, ensures_pure,
        ensures_setHeap]
      exact ⟨null, atItem⟩
  | node left root tag right =>
      obtain ⟨heap, single⟩ := heaps_withTag_zero valid atItem fresh
      have rootPresent : root ≠ null :=
        Memory.ne_null valid.heap.represents.1
      have notLess : ¬compare member key cmp root item < 0 :=
        fun less => stops ⟨root, by simp [Tree.spine], less⟩
      have stopsBelow : ¬Passes member key cmp right item := by
        simpa [Passes, Tree.spine, notLess] using stops
      have merging :=
        heap.merging single (by simpa using fresh)
          (by simpa [Precedes] using notLess)
      have down := ensures_lhMergeDown_unlinked consistent npl merging
      rw [modify_withTag_back atItem] at down
      simp only [lhInsert, lhMerge, ensures_bind, ensures_lhMin,
        valid.rooted, Tree.root_node, rootPresent, ↓reduceIte, ne_eq,
        itemPresent, not_false_eq_true, notLess, lhMergeBoth]
      refine down.weaken ?_
      intro lowest middle result
      obtain ⟨around, left, tag, stranded⟩ := result.2 stopsBelow
      refine (stranded.ensures_lhMergeUp nonnegative).weaken ?_
      intro merged after atAfter
      rw [ensures_setHeap]
      exact ⟨lowest, atAfter⟩

/-- A node without children in a leftist heap has a null-path length of 0. -/
theorem npl_eq_zero_of_leftist
    {parent : Word}
    (represents : Represents state.nodes null tree)
    (leftist : tree.Leftist)
    (isMember : item ∈ tree.inorder)
    (atItem : state.nodes.cell item = some ⟨parent, null, null, npl⟩) :
    npl = 0 := by
  obtain ⟨context, left, stored, right, rfl⟩ :=
    Tree.exists_plug_of_mem isMember
  obtain ⟨-, atFocus, leftRep, rightRep⟩ := represents_plug.mp represents
  have focusLeftist := leftist_of_plug leftist
  rw [atItem] at atFocus
  simp only [Option.some.injEq, Cell.mk.injEq] at atFocus
  obtain ⟨-, leftEmpty, rightEmpty, rfl⟩ := atFocus
  obtain rfl := leftRep.root_eq_null_iff.mp leftEmpty.symm
  obtain rfl := rightRep.root_eq_null_iff.mp rightEmpty.symm
  simpa [Tree.nullPath] using focusLeftist.1

/-- What makes a node without links reusable, seen from the tree. -/
theorem LhState.Valid.reusable_iff
    (valid : state.Valid (Precedes member key cmp) tree)
    (atItem : state.nodes.cell item = some ⟨null, null, null, npl⟩) :
    state.Reusable member key cmp item ↔
      npl = 0 ∨ Passes member key cmp tree item := by
  simp [LhState.Reusable, Passes, atItem, valid.onSpine_iff]

/-- A reusable node can be inserted without `lh_node_init`. -/
theorem ensures_lhInsert_reusable
    (consistent : ThreeWay cmp)
    (valid : state.Valid (Precedes member key cmp) tree)
    (unlinked : state.Unlinked item)
    (fresh : item ∉ tree.inorder)
    (reusable : state.Reusable member key cmp item) :
    (lhInsert member key cmp item).Ensures state fun _ after =>
      ∃ result, after.Valid (Precedes member key cmp) result ∧
        result.inorder.Perm (item :: tree.inorder) ∧
        ∀ node ∉ item :: tree.inorder,
          after.nodes.cell node = state.nodes.cell node := by
  obtain ⟨npl, -, atItem⟩ := unlinked
  rcases (valid.reusable_iff atItem).mp reusable with rfl | passes
  · exact ensures_lhInsert consistent valid
      (heap_of_unlinked (Precedes member key cmp) atItem) fresh
  · exact ensures_lhInsert_passing consistent valid atItem fresh passes

end Insert

/-- The heap has these nodes, and all null-path lengths are the true ones. -/
def LhState.LeftistOf (state : LhState) (members : List Word) : Prop :=
  ∃ tree,
    Linked state.nodes state.lhNode tree ∧
      tree.inorder.Perm members ∧ tree.Leftist

/-- A heap and the nodes removed by `lh_del` and not initialised since. -/
structure ReuseState (κ : Type) extends HeapState κ where
  removed : Set Word

section Runs

variable {κ : Type} (member : Word) (cmp : κ → κ → Int)

/--
One operation on the heap, or a change that does not concern it.  Removed nodes
are inserted again where this is `permitted`.
-/
inductive ReuseStep
    (permitted : HeapState κ → Word → Prop) :
    ReuseState κ → ReuseState κ → Prop where
  | elsewhere
      {heap after : LhState}
      {key newKey : Word → κ}
      {members : List Word}
      {removed kept : Set Word} :
      after.lhNode = heap.lhNode →
      (∀ node ∈ members,
        after.nodes.cell node = heap.nodes.cell node ∧
          newKey (lhEntry member node) = key (lhEntry member node)) →
      (∀ node ∈ kept,
        node ∈ removed ∧
          after.nodes.cell node = heap.nodes.cell node) →
      ReuseStep permitted ⟨⟨heap, key, members⟩, removed⟩
        ⟨⟨after, newKey, members⟩, kept⟩
  | insert
      {heap after : LhState}
      {key : Word → κ}
      {members : List Word}
      {removed : Set Word}
      {item : Word} :
      heap.Allocated item →
      item ∉ members →
      (do
        lhNodeInit item
        lhInsert member key cmp item).Returns heap () after →
      ReuseStep permitted ⟨⟨heap, key, members⟩, removed⟩
        ⟨⟨after, key, item :: members⟩, removed \ {item}⟩
  | reinsert
      {heap after : LhState}
      {key : Word → κ}
      {members : List Word}
      {removed : Set Word}
      {item : Word} :
      item ∈ removed →
      permitted ⟨heap, key, members⟩ item →
      (lhInsert member key cmp item).Returns heap () after →
      ReuseStep permitted ⟨⟨heap, key, members⟩, removed⟩
        ⟨⟨after, key, item :: members⟩, removed \ {item}⟩
  | delete
      {heap after : LhState}
      {key : Word → κ}
      {members : List Word}
      {removed : Set Word}
      {item : Word} :
      item ∈ members →
      (lhDel member key cmp item).Returns heap () after →
      ReuseStep permitted ⟨⟨heap, key, members⟩, removed⟩
        ⟨⟨after, key, members.erase item⟩, insert item removed⟩

/-- The states reached from an empty heap. -/
inductive ReuseRun
    (permitted : HeapState κ → Word → Prop) : ReuseState κ → Prop where
  | start
      {heap : LhState}
      {key : Word → κ} :
      heap.lhNode = null →
      ReuseRun permitted ⟨⟨heap, key, []⟩, ∅⟩
  | step
      {before after : ReuseState κ} :
      ReuseRun permitted before →
      ReuseStep member cmp permitted before after →
      ReuseRun permitted after

/-- The heap is valid, and the removed nodes are outside and unlinked. -/
structure ReuseState.Holds
    (state : ReuseState κ)
    (tree : Tree Word Int) : Prop where
  heap : state.toHeapState.Holds member cmp tree
  removed :
    ∀ node ∈ state.removed,
      node ∉ state.members ∧ state.heap.Unlinked node

end Runs

section Invariant

variable {κ : Type} {member : Word} {cmp : κ → κ → Int}
variable {state : ReuseState κ}
variable {tree : Tree Word Int}

/-- A valid heap is leftist. -/
theorem HeapState.Holds.leftistOf
    {state : HeapState κ}
    (holds : state.Holds member cmp tree) :
    state.heap.LeftistOf state.members := by
  obtain ⟨⟨⟨represents, distinct, leftist, -⟩, rooted⟩, listing⟩ := holds
  exact ⟨tree, ⟨represents, rooted, distinct⟩, listing, leftist⟩

/-- An unlinked node stays unlinked while it is not accessed. -/
theorem LhState.Unlinked.congr
    {heap after : LhState}
    {node : Word}
    (unlinked : heap.Unlinked node)
    (same : after.nodes.cell node = heap.nodes.cell node) :
    after.Unlinked node := by
  obtain ⟨npl, nonnegative, atNode⟩ := unlinked
  exact ⟨npl, nonnegative, same.trans atNode⟩

/-- Inserting a reusable node. -/
theorem ReuseState.Holds.ensures_reinsert
    (consistent : ThreeWay cmp)
    (holds : state.Holds member cmp tree)
    {item : Word}
    (isRemoved : item ∈ state.removed)
    (reusable : state.heap.Reusable member state.key cmp item) :
    (lhInsert member state.key cmp item).Ensures state.heap
      fun _ after =>
        (∃ result,
          (⟨after, state.key, item :: state.members⟩ :
            HeapState κ).Holds member cmp result) ∧
          ∀ node ∉ item :: state.members,
            after.nodes.cell node = state.heap.nodes.cell node := by
  obtain ⟨outside, unlinked⟩ := holds.removed item isRemoved
  have fresh : item ∉ tree.inorder :=
    holds.heap.listing.mem_iff.not.mpr outside
  refine (ensures_lhInsert_reusable consistent holds.heap.valid unlinked
    fresh reusable).weaken ?_
  intro _ after inserted
  obtain ⟨result, valid, listing, frame⟩ := inserted
  exact holds.heap.inserted valid listing frame

/-- After an insertion the other removed nodes are still unlinked. -/
theorem ReuseState.Holds.inserted
    {after : LhState}
    {item : Word}
    {result : Tree Word Int}
    (holds : state.Holds member cmp tree)
    (holdsAfter :
      (⟨after, state.key, item :: state.members⟩ :
        HeapState κ).Holds member cmp result)
    (frame :
      ∀ node ∉ item :: state.members,
        after.nodes.cell node = state.heap.nodes.cell node) :
    (⟨⟨after, state.key, item :: state.members⟩,
      state.removed \ {item}⟩ : ReuseState κ).Holds member cmp
        result := by
  refine ⟨holdsAfter, ?_⟩
  intro node isRemoved
  obtain ⟨isRemoved, notItem⟩ := isRemoved
  obtain ⟨outside, unlinked⟩ := holds.removed node isRemoved
  have outsideAfter : node ∉ item :: state.members := by
    rw [List.mem_cons, not_or]
    exact ⟨notItem, outside⟩
  exact ⟨outsideAfter, unlinked.congr (frame node outsideAfter)⟩

/-- One step keeps the heap valid if only reusable nodes are permitted. -/
theorem ReuseState.Holds.step
    (consistent : ThreeWay cmp)
    {after : ReuseState κ}
    (holds : state.Holds member cmp tree)
    (step :
      ReuseStep member cmp
        (fun before => before.heap.Reusable member before.key cmp)
        state after) :
    ∃ result, after.Holds member cmp result := by
  cases step with
  | elsewhere sameRoot same sameRemoved =>
      refine ⟨tree, holds.heap.elsewhere sameRoot same, ?_⟩
      intro node isKept
      obtain ⟨isRemoved, sameCell⟩ := sameRemoved node isKept
      obtain ⟨outside, unlinked⟩ := holds.removed node isRemoved
      exact ⟨outside, unlinked.congr sameCell⟩
  | insert allocated fresh returned =>
      obtain ⟨⟨result, holdsAfter⟩, frame⟩ :=
        (holds.heap.ensures_insert consistent allocated
          fresh).of_returns returned
      exact ⟨result, holds.inserted holdsAfter frame⟩
  | reinsert isRemoved reusable returned =>
      obtain ⟨⟨result, holdsAfter⟩, frame⟩ :=
        (holds.ensures_reinsert consistent isRemoved
          reusable).of_returns returned
      exact ⟨result, holds.inserted holdsAfter frame⟩
  | @delete heap after key members removed item isMember returned =>
      obtain ⟨⟨result, holdsAfter⟩, unlinked, frame⟩ :=
        (holds.heap.ensures_delete consistent isMember).of_returns
          returned
      refine ⟨result, holdsAfter, ?_⟩
      have distinct : members.Nodup :=
        holds.heap.listing.nodup_iff.mp holds.heap.valid.heap.distinct
      intro node isRemoved
      rcases isRemoved with rfl | wasRemoved
      · exact ⟨distinct.not_mem_erase, unlinked⟩
      · obtain ⟨outside, wasUnlinked⟩ := holds.removed node wasRemoved
        exact ⟨fun inside => outside (List.mem_of_mem_erase inside),
          wasUnlinked.congr (frame node outside)⟩

/-- Every state of a run that inserts only reusable nodes again is valid. -/
theorem ReuseRun.exists_holds
    (consistent : ThreeWay cmp)
    (run :
      ReuseRun member cmp
        (fun before => before.heap.Reusable member before.key cmp)
        state) :
    ∃ tree, state.Holds member cmp tree := by
  induction run with
  | start isNull =>
      refine ⟨.nil, ⟨⟨⟨trivial, .nil, trivial, trivial⟩, isNull⟩, .nil⟩,
        ?_⟩
      simp
  | step _ step inductionHypothesis =>
      obtain ⟨tree, holds⟩ := inductionHypothesis
      exact holds.step consistent step

/-- A removed node that is not reusable spoils the heap. -/
theorem ReuseState.Holds.reusable_of_leftistOf
    (consistent : ThreeWay cmp)
    (holds : state.Holds member cmp tree)
    {item : Word}
    (isRemoved : item ∈ state.removed)
    (inserted :
      (lhInsert member state.key cmp item).Ensures state.heap
        fun _ after => after.LeftistOf (item :: state.members)) :
    state.heap.Reusable member state.key cmp item := by
  obtain ⟨outside, npl, nonnegative, atItem⟩ :=
    holds.removed item isRemoved
  have fresh : item ∉ tree.inorder :=
    holds.heap.listing.mem_iff.not.mpr outside
  rw [holds.heap.valid.reusable_iff atItem]
  by_cases passes : Passes member state.key cmp tree item
  · exact .inr passes
  · left
    obtain ⟨_, after, returned, result, linked, listing, leftist⟩ :=
      inserted
    obtain ⟨parent, atAfter⟩ :=
      (ensures_lhInsert_stranded consistent holds.heap.valid atItem
        nonnegative fresh passes).of_returns returned
    exact npl_eq_zero_of_leftist linked.represents leftist
      (listing.mem_iff.mpr (by simp)) atAfter

/--
In every run that inserts a removed node without `lh_node_init` only where it
is reusable, the heap has exactly the inserted and not deleted nodes, and its
null-path lengths are the true ones with no left one below the right one.  This
is kept by the insertion of an initialised node and by `lh_del`.  The insertion
of a removed node keeps it if and only if the node is reusable.
-/
theorem reuse_keeps_leftist_iff_reusable
    (consistent : ThreeWay cmp)
    {reached : ReuseState κ}
    (run :
      ReuseRun member cmp
        (fun before => before.heap.Reusable member before.key cmp)
        reached) :
    reached.heap.LeftistOf reached.members ∧
      (∀ item,
        reached.heap.Allocated item →
        item ∉ reached.members →
        (do
          lhNodeInit item
          lhInsert member reached.key cmp item).Ensures reached.heap
            fun _ after => after.LeftistOf (item :: reached.members)) ∧
      (∀ item ∈ reached.members,
        (lhDel member reached.key cmp item).Ensures reached.heap
          fun _ after => after.LeftistOf (reached.members.erase item)) ∧
      ∀ item ∈ reached.removed,
        ((lhInsert member reached.key cmp item).Ensures reached.heap
            (fun _ after => after.LeftistOf (item :: reached.members)) ↔
          reached.heap.Reusable member reached.key cmp item) := by
  obtain ⟨tree, holds⟩ := run.exists_holds consistent
  refine ⟨holds.heap.leftistOf, ?_, ?_, ?_⟩
  · intro item allocated fresh
    refine (holds.heap.ensures_insert consistent allocated
      fresh).weaken ?_
    intro _ after inserted
    obtain ⟨⟨result, holdsAfter⟩, -⟩ := inserted
    exact holdsAfter.leftistOf
  · intro item isMember
    refine (holds.heap.ensures_delete consistent isMember).weaken ?_
    intro _ after deleted
    obtain ⟨⟨result, holdsAfter⟩, -, -⟩ := deleted
    exact holdsAfter.leftistOf
  · intro item isRemoved
    constructor
    · exact holds.reusable_of_leftistOf consistent isRemoved
    · intro reusable
      refine (holds.ensures_reinsert consistent isRemoved
        reusable).weaken ?_
      intro _ after inserted
      obtain ⟨⟨result, holdsAfter⟩, -⟩ := inserted
      exact holdsAfter.leftistOf

end Invariant

section Samples

/-- An empty heap next to three nodes in memory. -/
def reuseHeap : LhState where
  nodes :=
    { cell := fun address =>
        if address = 16 ∨ address = 32 ∨ address = 48 then
          some ⟨null, null, null, 0⟩
        else none
      null_unmapped := by decide }
  lhNode := null

/-- The node that had two children is deleted and inserted again. -/
def reuseRoot : Program LhState LhNode := do
  insertInitialised sameKey 16
  insertInitialised sameKey 32
  insertInitialised sameKey 48
  lhDel 0 sameKey sampleCmp 16
  lhInsert 0 sameKey sampleCmp 16
  load 16 id

theorem reuseHeap_allocated :
    reuseHeap.Allocated 16 ∧ reuseHeap.Allocated 32 ∧
      reuseHeap.Allocated 48 :=
  ⟨⟨_, rfl⟩, ⟨_, rfl⟩, ⟨_, rfl⟩⟩

theorem reuseHeap_holds :
    (⟨reuseHeap, sameKey, []⟩ : HeapState Int).Holds 0 sampleCmp .nil :=
  ⟨⟨⟨trivial, .nil, trivial, trivial⟩, rfl⟩, .nil⟩

/--
Three insertions and the deletion of the root, which has two children.  The
answers are the nodes that occupy memory when they are needed, the new root,
and the deleted node.
-/
def deleteRoot : Program LhState (List Bool × Word × LhNode) := do
  insertInitialised sampleKey 64
  let second ← isMapped 32
  insertInitialised sampleKey 32
  let third ← isMapped 48
  insertInitialised sampleKey 48
  lhDel 0 sampleKey sampleCmp 64
  let root ← lhMin
  let deleted ← load 64 id
  pure ([second, third], root, deleted)

/-- The calls are a run that inserts no deleted node. -/
theorem exists_deletedRoot :
    ∃ heap,
      ReuseRun 0 sampleCmp
        (fun before => before.heap.Reusable 0 before.key sampleCmp)
        ⟨⟨heap, sampleKey, [48, 32]⟩,
          insert 64 (((∅ \ {64}) \ {32}) \ {48})⟩ ∧
        heap.lhNode = 48 ∧
        heap.nodes.cell 64 = some ⟨null, null, null, 1⟩ := by
  have returns :
      deleteRoot.Ensures looseHeap fun answers _ =>
        answers = ([true, true], 48, ⟨0, 0, 0, 1⟩) :=
    .of_exec 9 (by decide)
  simp only [deleteRoot, isMapped, lhMin, load, ensures_bind,
    ensures_reads, ensures_pure, Option.some.injEq, exists_eq_left',
    Option.map_id, id_eq, Prod.mk.injEq, List.cons.injEq,
    Option.isSome_iff_exists, and_true] at returns
  obtain ⟨_, one, ranOne, _, two, ranTwo, _, three, ranThree, _, heap,
    ranFour, content, atDeleted, ⟨second, third⟩, root, rfl⟩ := returns
  have first : looseHeap.Allocated 64 :=
    ⟨⟨0, 0, 0, 0⟩, by decide⟩
  have built :
      ReuseRun 0 sampleCmp
        (fun before => before.heap.Reusable 0 before.key sampleCmp)
        ⟨⟨three, sampleKey, [48, 32, 64]⟩,
          ((∅ \ {64}) \ {32}) \ {48}⟩ :=
    .step
      (.step
        (.step (.start rfl) (.insert first (by decide) ranOne))
        (.insert second (by decide) ranTwo))
      (.insert third (by decide) ranThree)
  have isMember : (64 : Word) ∈ [(48 : Word), 32, 64] := by
    decide
  exact ⟨heap, .step built (.delete isMember ranFour), root, atDeleted⟩

/--
A node that was deleted without children is inserted again.  So is a node that
was deleted with two children and goes above the root, although its null-path
length is not zero.
-/
theorem reuse_keeps_leftist_iff_reusable_of_sample :
    (∃ first second,
      (insertInitialised sameKey 16).Returns reuseHeap () first ∧
        (lhDel 0 sameKey sampleCmp 16).Returns first () second ∧
        (lhInsert 0 sameKey sampleCmp 16).Ensures second
          fun _ after => after.LeftistOf [16]) ∧
      ∃ heap,
        ReuseRun 0 sampleCmp
          (fun before => before.heap.Reusable 0 before.key sampleCmp)
          ⟨⟨heap, sampleKey, [48, 32]⟩,
            insert 64 (((∅ \ {64}) \ {32}) \ {48})⟩ ∧
          heap.nodes.cell 64 = some ⟨null, null, null, 1⟩ ∧
          heap.LeftistOf [48, 32] ∧
          (lhInsert 0 sampleKey sampleCmp 64).Ensures heap
            fun _ after => after.LeftistOf [64, 48, 32] := by
  constructor
  · have executed :
        (do
          insertInitialised sameKey 16
          lhDel 0 sameKey sampleCmp 16
          load 16 Cell.tag).Ensures reuseHeap fun npl _ => npl = 0 :=
      .of_exec 2 (by decide)
    simp only [ensures_bind, ensures_load] at executed
    obtain ⟨_, first, inserted, _, second, deleted, content, atNode,
      isZero⟩ := executed
    have run :
        ReuseRun 0 sampleCmp
          (fun before => before.heap.Reusable 0 before.key sampleCmp)
          ⟨⟨second, sameKey, []⟩, insert 16 (∅ \ {16})⟩ :=
      .step
        (.step (.start rfl)
          (.insert reuseHeap_allocated.1 List.not_mem_nil inserted))
        (.delete List.mem_cons_self deleted)
    obtain ⟨-, -, -, reused⟩ :=
      reuse_keeps_leftist_iff_reusable threeWay_sub run
    refine
      ⟨first, second, inserted, deleted, (reused 16 (by simp)).mpr ?_⟩
    exact .inl ⟨content, atNode, isZero⟩
  · obtain ⟨heap, run, root, atDeleted⟩ := exists_deletedRoot
    obtain ⟨leftist, -, -, reused⟩ :=
      reuse_keeps_leftist_iff_reusable threeWay_sub run
    refine ⟨heap, run, atDeleted, leftist,
      (reused 64 (Set.mem_insert _ _)).mpr ?_⟩
    have present : heap.lhNode ≠ null := by
      rw [root]
      decide
    have goesAbove : compare 0 sampleKey sampleCmp 48 64 < 0 := by
      decide
    exact .inr ⟨heap.lhNode, .root present, root ▸ goesAbove⟩

/--
A node with two children is deleted and inserted again below another node.  It
has no child there, but its null-path length is still 1.
-/
theorem reused_node_keeps_npl :
    ∃ reached,
      ReuseRun 0 sampleCmp (fun _ _ => True) reached ∧
        reached.members = [16, 48, 32] ∧
        reached.heap.nodes.cell 16 = some ⟨32, null, null, 1⟩ ∧
        ¬reached.heap.LeftistOf reached.members := by
  have executed :
      reuseRoot.Ensures reuseHeap
        fun content _ => content = ⟨32, null, null, 1⟩ :=
    .of_exec 4 (by decide)
  simp only [reuseRoot, ensures_bind, ensures_load] at executed
  obtain ⟨_, first, firstInserted, _, second, secondInserted, _, third,
    thirdInserted, _, fourth, deleted, _, reached, reinserted, _, atNode,
    rfl⟩ := executed
  obtain ⟨⟨firstTree, firstHolds⟩, firstFrame⟩ :=
    (reuseHeap_holds.ensures_insert threeWay_sub reuseHeap_allocated.1
      List.not_mem_nil).of_returns firstInserted
  have firstAllocated
      {node : Word}
      (outside : node ∉ [(16 : Word)])
      (allocated : reuseHeap.Allocated node) :
      first.Allocated node := by
    obtain ⟨content, atNode⟩ := allocated
    exact ⟨content, (firstFrame node outside).trans atNode⟩
  have secondFresh : (32 : Word) ∉ [(16 : Word)] := by
    decide
  have thirdFresh : (48 : Word) ∉ [(32 : Word), 16] := by
    decide
  have allocated : first.Allocated 32 :=
    firstAllocated secondFresh reuseHeap_allocated.2.1
  obtain ⟨-, secondFrame⟩ :=
    (firstHolds.ensures_insert threeWay_sub allocated
      secondFresh).of_returns secondInserted
  have lastAllocated : second.Allocated 48 := by
    obtain ⟨content, atLast⟩ :=
      firstAllocated (by decide) reuseHeap_allocated.2.2
    exact ⟨content, (secondFrame 48 thirdFresh).trans atLast⟩
  have built :
      ReuseRun 0 sampleCmp (fun _ _ => True)
        ⟨⟨third, sameKey, [48, 32, 16]⟩, ((∅ \ {16}) \ {32}) \ {48}⟩ :=
    .step
      (.step
        (.step (.start rfl)
          (.insert reuseHeap_allocated.1 List.not_mem_nil firstInserted))
        (.insert allocated secondFresh secondInserted))
      (.insert lastAllocated thirdFresh thirdInserted)
  have run :=
    (built.step (.delete (by simp) deleted)).step
      (.reinsert (Set.mem_insert _ _) trivial reinserted)
  refine ⟨_, run, rfl, atNode, ?_⟩
  intro leftist
  obtain ⟨tree, linked, listing, leftist⟩ := leftist
  have isZero :=
    npl_eq_zero_of_leftist linked.represents leftist
      (listing.mem_iff.mpr List.mem_cons_self) atNode
  simp at isZero

end Samples

end LibKern.LHeap
