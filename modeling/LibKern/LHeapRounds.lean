import LibKern.LHeapForest
import LibKern.Rounds

namespace LibKern.LHeap

/-!
# Merging makes logarithmically many rounds

`lh_merge` goes down along the right spines of two heaps, and back up along the
nodes it came by.  Since the right spines of leftist heaps are short, merging,
inserting, and taking out the root make at most a logarithmic number of rounds.
Deleting another node first repairs the path to the root, which may be longer.
-/

open Program Context

section Loopless

set_option synthInstance.maxSize 2000

instance loopless_load
    {α : Type}
    {node : Word}
    {field : LhNode → α} :
    Loopless (load node field) := by
  unfold load
  infer_instance

instance loopless_store
    {node : Word}
    {change : LhNode → LhNode} :
    Loopless (store node change) := by
  unfold store
  infer_instance

instance loopless_lhParent
    {node : Word} :
    Loopless (lhParent node) := by
  unfold lhParent
  infer_instance

instance loopless_lhLeft
    {node : Word} :
    Loopless (lhLeft node) := by
  unfold lhLeft
  infer_instance

instance loopless_lhRight
    {node : Word} :
    Loopless (lhRight node) := by
  unfold lhRight
  infer_instance

instance loopless_lhNpl
    {node : Word} :
    Loopless (lhNpl node) := by
  unfold lhNpl
  infer_instance

instance loopless_setParent
    {node parent : Word} :
    Loopless (setParent node parent) := by
  unfold setParent
  infer_instance

instance loopless_setLeft
    {node child : Word} :
    Loopless (setLeft node child) := by
  unfold setLeft
  infer_instance

instance loopless_setRight
    {node child : Word} :
    Loopless (setRight node child) := by
  unfold setRight
  infer_instance

instance loopless_setNpl
    {node : Word}
    {npl : Int} :
    Loopless (setNpl node npl) := by
  unfold setNpl
  infer_instance

instance loopless_lhMin :
    Loopless lhMin := by
  unfold lhMin
  infer_instance

instance loopless_setHeap
    {node : Word} :
    Loopless (setHeap node) := by
  unfold setHeap
  infer_instance

instance loopless_lhNodeInit
    {node : Word} :
    Loopless (lhNodeInit node) := by
  unfold lhNodeInit
  infer_instance

instance loopless_lhSwapChildren
    {node : Word} :
    Loopless (lhSwapChildren node) := by
  unfold lhSwapChildren
  infer_instance

instance loopless_lhUpdateNpl
    {node : Word} :
    Loopless (lhUpdateNpl node) := by
  unfold lhUpdateNpl
  infer_instance

instance loopless_lhRebuild
    {node : Word}
    {swaps : Bool} :
    Loopless (lhRebuild node swaps) := by
  unfold lhRebuild
  infer_instance

instance loopless_lhMergeDown
    {κ : Type}
    {member : Word}
    {key : Word → κ}
    {cmp : κ → κ → Int}
    {place : Word × Word} :
    Loopless (lhMergeDown member key cmp place) := by
  unfold lhMergeDown
  infer_instance

instance loopless_lhMergeSwaps
    {node : Word} :
    Loopless (lhMergeSwaps node) := by
  unfold lhMergeSwaps
  infer_instance

instance loopless_lhMergeUp
    {node : Word} :
    Loopless (lhMergeUp node) := by
  unfold lhMergeUp
  infer_instance

instance loopless_lhOrphan
    {child : Word} :
    Loopless (lhOrphan child) := by
  unfold lhOrphan
  infer_instance

instance loopless_lhIsolate
    {item : Word} :
    Loopless (lhIsolate item) := by
  unfold lhIsolate
  infer_instance

instance loopless_lhCut
    {item parent : Word} :
    Loopless (lhCut item parent) := by
  unfold lhCut
  infer_instance

instance loopless_lhDelSwaps
    {parent : Word} :
    Loopless (lhDelSwaps parent) := by
  unfold lhDelSwaps
  infer_instance

instance loopless_lhDelUp
    {parent : Word} :
    Loopless (lhDelUp parent) := by
  unfold lhDelUp
  infer_instance

end Loopless

section Merge

variable {κ : Type}
variable {member : Word} {key : Word → κ} {cmp : κ → κ → Int}
variable {nodes : List Word}
variable {state : LhState}
variable {rounds : Nat}

/--
The downward loop makes no more rounds than there are nodes on both right
spines, and all of these nodes may be above the place that it reaches.
-/
theorem ensuresWithin_lhMergeDown
    (consistent : ThreeWay cmp)
    {context : Context Word Int}
    {merged mergee : Tree Word Int}
    (nonempty : merged ≠ .nil)
    (mergeeNonempty : mergee ≠ .nil)
    (merging :
      Merging (Precedes member key cmp) nodes state context merged mergee)
    (short : merged.rightSpine + mergee.rightSpine < rounds) :
    (loop (lhMergeDown member key cmp)
      (merged.root, mergee.root)).EnsuresWithin rounds state
        fun lowest after =>
          ∃ around left npl right,
            Interleaved (Precedes member key cmp) nodes after around left
                lowest npl right ∧
              around.length ≤
                context.length + merged.rightSpine +
                  mergee.rightSpine := by
  refine ensuresWithin_loop (fun left place between =>
    ∃ (around : Context Word Int) (first second : Tree Word Int),
      place = (first.root, second.root) ∧ first ≠ .nil ∧ second ≠ .nil ∧
        Merging (Precedes member key cmp) nodes between around first
          second ∧
        first.rightSpine + second.rightSpine ≤ left ∧
        around.length + first.rightSpine + second.rightSpine ≤
          context.length + merged.rightSpine + mergee.rightSpine)
    ?_ ⟨context, merged, mergee, rfl, nonempty, mergeeNonempty, merging,
      le_rfl, le_rfl⟩ short
  rintro left _ between
    ⟨around, first, second, rfl, present, secondPresent, holds, bound,
      total⟩
  refine (ensures_lhMergeDownRound consistent present secondPresent
    holds).weaken ?_
  rintro _ after ⟨round, -⟩
  cases round with
  | last interleaved =>
      refine ⟨?_, by simp⟩
      rintro _ ⟨⟩
      exact ⟨around, _, _, _, interleaved, by omega⟩
  | further goesOn newPresent newSecondPresent longer shorter =>
      refine ⟨by simp, ?_⟩
      rintro _ ⟨⟩
      exact ⟨left - 1, by omega, _, _, _, rfl, newPresent,
        newSecondPresent, goesOn, by omega, by omega⟩

/-- The upward loop makes one round for each node on the path. -/
theorem endsWithin_lhMergeUp
    {context : Context Word Int}
    {left right : Tree Word Int}
    {address : Word}
    {npl : Int}
    (leftRanked : left.Ranked)
    (rightRanked : right.Ranked)
    (siblings : ∀ frame ∈ context, frame.sibling.Ranked)
    (represented :
      Represents state.nodes null
        (context.plug (.node left address npl right)))
    (distinct :
      (context.plug (.node left address npl right)).inorder.Nodup)
    (low : context.length < rounds) :
    (loop lhMergeUp address).EndsWithin rounds state := by
  refine endsWithin_loop (fun allowed node between =>
    ∃ (around : Context Word Int) (inner outer : Tree Word Int)
      (length : Int),
      inner.Ranked ∧ outer.Ranked ∧
        (∀ frame ∈ around, frame.sibling.Ranked) ∧
        Represents between.nodes null
          (around.plug (.node inner node length outer)) ∧
        (around.plug (.node inner node length outer)).inorder.Nodup ∧
        around.length ≤ allowed)
    ?_ ⟨context, left, right, npl, leftRanked, rightRanked, siblings,
      represented, distinct, le_rfl⟩ low
  rintro allowed node between
    ⟨around, inner, outer, length, innerRanked, outerRanked, ranked,
      holds, different, bound⟩
  refine (ensures_lhMergeUpStep innerRanked outerRanked holds
    different).weaken ?_
  rintro _ after ⟨rfl, rebuilt, -⟩
  have newRanked : (Tree.rebuild inner node outer).Ranked :=
    innerRanked.rebuild outerRanked node
  have rearranged :
      (around.plug (.rebuild inner node outer)).inorder.Nodup := by
    refine (inorder_plug_perm_of_perm _ ?_).nodup_iff.mpr different
    exact (Tree.inorder_rebuild_perm _ _ _).trans List.perm_middle.symm
  intro following isNext
  cases around with
  | nil =>
      simp at isNext
  | cons frame rest =>
      obtain ⟨side, parent, parentNpl, sibling⟩ := frame
      rw [List.forall_mem_cons] at ranked
      obtain ⟨siblingRanked, restRanked⟩ := ranked
      have present : parent ≠ null :=
        Memory.ne_null (represents_plug.mp holds).1.1
      simp only [parent_cons, present, ↓reduceIte] at isNext
      cases isNext
      rw [List.length_cons] at bound
      cases side with
      | left =>
          exact ⟨allowed - 1, by omega, rest, _, _, _, newRanked,
            siblingRanked, restRanked, rebuilt, rearranged, by omega⟩
      | right =>
          exact ⟨allowed - 1, by omega, rest, _, _, _, siblingRanked,
            newRanked, restRanked, rebuilt, rearranged, by omega⟩

/-- Both loops follow the right spines. -/
theorem endsWithin_lhMergeBoth
    (consistent : ThreeWay cmp)
    {first second : Tree Word Int}
    (firstHeap : Heap (Precedes member key cmp) state.nodes first)
    (secondHeap : Heap (Precedes member key cmp) state.nodes second)
    (disjoint : first.inorder.Disjoint second.inorder)
    (nonempty : first ≠ .nil)
    (secondNonempty : second ≠ .nil)
    (precedes : Precedes member key cmp first.root second.root)
    (short : first.rightSpine + second.rightSpine < rounds) :
    (lhMergeBoth member key cmp first.root second.root).EndsWithin rounds
      state := by
  have tops :
      ∀ top ∈ first.top, ∀ secondTop ∈ second.top,
        Precedes member key cmp top secondTop := by
    intro top isTop secondTop isSecondTop
    rw [← Tree.root_eq_of_mem_top isTop,
      ← Tree.root_eq_of_mem_top isSecondTop]
    exact precedes
  have merging := firstHeap.merging secondHeap disjoint tops
  rw [lhMergeBoth, EndsWithin, ensuresWithin_bind]
  refine (ensuresWithin_lhMergeDown consistent nonempty secondNonempty
    merging short).weaken ?_
  rintro lowest middle ⟨around, left, npl, right, interleaved, length⟩
  rw [List.length_nil] at length
  exact endsWithin_lhMergeUp interleaved.leftLeftist.ranked
    interleaved.rightLeftist.ranked
    (fun frame isFrame => (interleaved.siblings frame isFrame).ranked)
    interleaved.represents
    (interleaved.listing.nodup_iff.mpr interleaved.distinct) (by omega)

/-- `lh_merge` makes no more rounds than the right spines have nodes. -/
theorem endsWithin_lhMerge
    (consistent : ThreeWay cmp)
    {first second : Tree Word Int}
    (firstHeap : Heap (Precedes member key cmp) state.nodes first)
    (secondHeap : Heap (Precedes member key cmp) state.nodes second)
    (disjoint : first.inorder.Disjoint second.inorder)
    (short : first.rightSpine + second.rightSpine < rounds) :
    (lhMerge member key cmp first.root second.root).EndsWithin rounds
      state := by
  have ends
      (value : Word) :
      (pure value : Program LhState Word).EndsWithin rounds state :=
    ensuresWithin_loopless.mpr (ensures_pure.mpr trivial)
  rw [lhMerge]
  split
  · exact ends _
  · rename_i present
    have nonempty := firstHeap.represents.root_eq_null_iff.not.mp present
    split
    · rename_i secondPresent
      have secondNonempty :=
        secondHeap.represents.root_eq_null_iff.not.mp secondPresent
      split
      · rename_i less
        exact endsWithin_lhMergeBoth consistent secondHeap firstHeap
          (List.disjoint_comm.mp disjoint) secondNonempty nonempty
          (Precedes.of_neg consistent less) (by omega)
      · rename_i notLess
        exact endsWithin_lhMergeBoth consistent firstHeap secondHeap
          disjoint nonempty secondNonempty (not_lt.mp notLess) short
    · exact ends _

/-- The merged heap becomes the heap. -/
theorem endsWithin_lhMerge_setHeap
    (consistent : ThreeWay cmp)
    {first second : Tree Word Int}
    (firstHeap : Heap (Precedes member key cmp) state.nodes first)
    (secondHeap : Heap (Precedes member key cmp) state.nodes second)
    (disjoint : first.inorder.Disjoint second.inorder)
    (short : first.rightSpine + second.rightSpine < rounds) :
    (do
      let merged ← lhMerge member key cmp first.root second.root
      setHeap merged).EndsWithin rounds state := by
  rw [EndsWithin, ensuresWithin_bind]
  refine (endsWithin_lhMerge consistent firstHeap secondHeap disjoint
    short).weaken ?_
  intro _ _ _
  exact ensuresWithin_loopless.mpr (ensures_setHeap.mpr trivial)

/-- The rounds that are enough for heaps with this number of nodes. -/
def mergeRounds (size : Nat) : Nat :=
  2 * Nat.log 2 (size + 1) + 1

/-- Two right spines are short. -/
theorem rightSpines_lt_mergeRounds
    {first second : Tree Word Int}
    {size : Nat}
    (leftist : first.Leftist)
    (secondLeftist : second.Leftist)
    (bound : first.size ≤ size)
    (secondBound : second.size ≤ size) :
    first.rightSpine + second.rightSpine < mergeRounds size := by
  have spine := leftist.rightSpine_le
  have secondSpine := secondLeftist.rightSpine_le
  have less : Nat.log 2 (first.size + 1) ≤ Nat.log 2 (size + 1) :=
    Nat.log_mono_right (by omega)
  have secondLess : Nat.log 2 (second.size + 1) ≤ Nat.log 2 (size + 1) :=
    Nat.log_mono_right (by omega)
  rw [mergeRounds]
  omega

end Merge

section Delete

variable {κ : Type}
variable {member : Word} {key : Word → κ} {cmp : κ → κ → Int}
variable {state : LhState}
variable {tree : Tree Word Int}
variable {item : Word}
variable {rounds : Nat}

/-- `lh_insert` merges. -/
theorem endsWithin_lhInsert
    (consistent : ThreeWay cmp)
    (valid : state.Valid (Precedes member key cmp) tree)
    (allocated : state.Allocated item)
    (fresh : item ∉ tree.inorder) :
    (do
      lhNodeInit item
      lhInsert member key cmp item).EndsWithin
        (mergeRounds (tree.size + 1)) state := by
  rw [EndsWithin, ensuresWithin_loopless_bind]
  refine (ensures_lhNodeInit (Precedes member key cmp)
    allocated).weaken ?_
  rintro _ between ⟨single, same⟩
  have heap : Heap (Precedes member key cmp) between.nodes tree :=
    valid.heap.sameOutside same (by simpa using fresh)
  have isRoot : between.lhNode = tree.root :=
    same.lhNode.trans valid.rooted
  have disjoint :
      tree.inorder.Disjoint
        (Tree.node .nil item (0 : Int) .nil).inorder := by
    simpa using fresh
  simp only [lhInsert, ensuresWithin_loopless_bind, ensures_lhMin, isRoot]
  exact endsWithin_lhMerge_setHeap consistent heap single disjoint
    (rightSpines_lt_mergeRounds heap.leftist single.leftist
      (Nat.le_add_right _ 1) (by simp [Tree.size]))

/-- The loop of `lh_del` makes one round for each node on the path. -/
theorem endsWithin_lhDelUp
    {context : Context Word Int}
    (nonempty : tree ≠ .nil)
    (leftist : tree.Leftist)
    (siblings :
      ∀ frame ∈ context,
        frame.sibling.Leftist ∧
          (frame.side = .right → frame.sibling ≠ .nil))
    (represented : Represents state.nodes null (context.plug tree))
    (distinct : (context.plug tree).inorder.Nodup)
    (low : context.length < rounds) :
    (loop lhDelUp tree.root).EndsWithin rounds state := by
  refine endsWithin_loop (fun allowed node between =>
    ∃ (around : Context Word Int) (below : Tree Word Int),
      node = below.root ∧ below ≠ .nil ∧ below.Leftist ∧
        (∀ frame ∈ around,
          frame.sibling.Leftist ∧
            (frame.side = .right → frame.sibling ≠ .nil)) ∧
        Represents between.nodes null (around.plug below) ∧
        (around.plug below).inorder.Nodup ∧
        around.length ≤ allowed)
    ?_ ⟨context, tree, rfl, nonempty, leftist, siblings, represented,
      distinct, le_rfl⟩ low
  rintro allowed _ between
    ⟨around, below, rfl, present, isLeftist, others, holds, different,
      bound⟩
  obtain ⟨content, atRoot, isParent⟩ :=
    exists_cell_parent (represents_plug.mp holds).2 present
  cases around with
  | nil =>
      simp only [lhDelUp, lhParent, ensures_bind, ensures_load]
      refine ⟨content, atRoot, ?_⟩
      rw [isParent, ensures_ite, if_neg (by simp), ensures_pure]
      simp
  | cons frame rest =>
      obtain ⟨side, parent, npl, sibling⟩ := frame
      rw [List.forall_mem_cons] at others
      obtain ⟨⟨siblingLeftist, siblingPresent⟩, restSiblings⟩ := others
      rw [List.length_cons] at bound
      have climbs
          {left right : Tree Word Int}
          (leftLeftist : left.Leftist)
          (rightLeftist : right.Leftist)
          (leftNonempty : left ≠ .nil)
          (shape :
            plug (⟨side, parent, npl, sibling⟩ :: rest) below =
              plug rest (.node left parent npl right)) :
          (lhDelUp below.root).Ensures between fun flow after =>
            ∀ following, flow = .next following →
              ∃ fewer < allowed,
                ∃ (around : Context Word Int) (below : Tree Word Int),
                  following = below.root ∧ below ≠ .nil ∧
                    below.Leftist ∧
                    (∀ frame ∈ around,
                      frame.sibling.Leftist ∧
                        (frame.side = .right → frame.sibling ≠ .nil)) ∧
                    Represents after.nodes null (around.plug below) ∧
                    (around.plug below).inorder.Nodup ∧
                    around.length ≤ fewer := by
        rw [shape] at holds different
        refine (ensures_lhDelUpStep atRoot isParent leftLeftist
          leftNonempty holds different).weaken ?_
        rintro _ after ⟨rfl, rebuilt, -⟩ _ ⟨⟩
        have rearranged :
            (plug rest (.rebuild left parent right)).inorder.Perm
              (plug rest (.node left parent npl right)).inorder := by
          apply inorder_plug_perm_of_perm
          exact (Tree.inorder_rebuild_perm _ _ _).trans
            List.perm_middle.symm
        exact ⟨allowed - 1, by omega, rest, _,
          (Tree.root_rebuild _ _ _).symm, Tree.rebuild_ne_nil _ _ _,
          leftLeftist.rebuild rightLeftist parent, restSiblings, rebuilt,
          rearranged.nodup_iff.mpr different, by omega⟩
      cases side with
      | left =>
          exact climbs isLeftist siblingLeftist present rfl
      | right =>
          exact climbs siblingLeftist isLeftist (siblingPresent rfl) rfl

/-- The children of the deleted node are merged. -/
theorem endsWithin_lhDelChildren
    (consistent : ThreeWay cmp)
    {context : Context Word Int}
    {left right : Tree Word Int}
    {npl : Int}
    (heap :
      Heap (Precedes member key cmp) state.nodes
        (context.plug (.node left item npl right)))
    (short : left.rightSpine + right.rightSpine < rounds) :
    (lhDelChildren member key cmp item).EndsWithin rounds state := by
  obtain ⟨-, atItem, leftRep, rightRep⟩ :=
    represents_plug.mp heap.represents
  have apart := nodup_plug_node.mp heap.distinct
  have leftist := leftist_of_plug heap.leftist
  have ordered := (ordered_plug.mp heap.ordered).1
  simp only [lhDelChildren, lhLeft, lhRight, EndsWithin,
    ensuresWithin_loopless_bind, ensures_load]
  refine ⟨_, atItem, ?_⟩
  refine (ensures_lhOrphan leftRep apart.leftNodup).weaken ?_
  rintro _ first ⟨firstLeft, firstSame⟩
  have firstRight : Represents first.nodes item right :=
    firstSame.represents rightRep (List.disjoint_comm.mp apart.leftRight)
  have atFirst :=
    (firstSame.cell item apart.addressLeft).trans atItem
  refine ⟨_, atFirst, ?_⟩
  refine (ensures_lhOrphan firstRight apart.rightNodup).weaken ?_
  rintro _ second ⟨secondRight, secondSame⟩
  have secondLeft : Represents second.nodes null left :=
    secondSame.represents firstLeft apart.leftRight
  have atSecond :=
    (secondSame.cell item apart.addressRight).trans atFirst
  refine ⟨_, atSecond, _, atSecond, ?_⟩
  exact endsWithin_lhMerge consistent
    ⟨secondLeft, apart.leftNodup, leftist.2.2.1, ordered.2.2.1⟩
    ⟨secondRight, apart.rightNodup, leftist.2.2.2, ordered.2.2.2⟩
    apart.leftRight short

/--
`lh_del` merges twice and repairs the path to the root, which has as many
nodes as the deleted node is deep.
-/
theorem endsWithin_lhDel
    (consistent : ThreeWay cmp)
    {context : Context Word Int}
    {left right : Tree Word Int}
    {npl : Int}
    (valid :
      state.Valid (Precedes member key cmp)
        (context.plug (.node left item npl right)))
    (low : context.length ≤ rounds)
    (enough :
      mergeRounds (context.plug (.node left item npl right)).size ≤
        rounds) :
    (lhDel member key cmp item).EndsWithin rounds state := by
  have apart := nodup_plug_node.mp valid.heap.distinct
  obtain ⟨around, atItem, -, -⟩ :=
    represents_plug.mp valid.heap.represents
  have leftist := leftist_of_plug valid.heap.leftist
  have length :=
    (inorder_plug_perm context (.node left item npl right)).length_eq
  simp only [Tree.length_inorder, List.length_append, Tree.size] at length
  have short :=
    @rightSpines_lt_mergeRounds _ _
      (context.plug (.node left item npl right)).size leftist.2.2.1
      leftist.2.2.2 (by omega) (by omega)
  rw [lhDel, EndsWithin, ensuresWithin_bind]
  refine ((endsWithin_lhDelChildren consistent valid.heap
    (by omega)).ensuresWithin
      (ensures_lhDelChildren consistent valid.heap)).weaken ?_
  rintro value merged ⟨new, rfl, newHeap, newListing, mergedSame⟩
  have outsideChildren : item ∉ left.inorder ++ right.inorder := by
    simp [apart.addressLeft, apart.addressRight]
  have atMerged := (mergedSame.cell item outsideChildren).trans atItem
  have newSize := newListing.length_eq
  simp only [Tree.length_inorder, List.length_append] at newSize
  rw [ensuresWithin_loopless_bind]
  refine (ensures_lhIsolate atMerged).weaken ?_
  rintro parent isolated ⟨rfl, atIsolated, isolatedSame⟩
  obtain ⟨newIsolated, aroundIsolated, sameRoot, -⟩ :=
    isolated_of_sameOutside valid.heap.represents valid.heap.distinct
      newHeap newListing mergedSame isolatedSame
  cases context with
  | nil =>
      rw [if_neg (by simp)]
      exact ensuresWithin_loopless.mpr (ensures_setHeap.mpr trivial)
  | cons frame rest =>
      obtain ⟨side, parent, parentNpl, sibling⟩ := frame
      have parentPresent : parent ≠ null := Memory.ne_null around.1
      have itemPresent : item ≠ null := Memory.ne_null atItem
      have siblings :=
        siblings_of_leftist_plug valid.heap.leftist (by simp)
      have ordered := (ordered_plug.mp valid.heap.ordered).2.1
      have repaired :=
        ensures_lhCut_repaired aroundIsolated apart.contextNodup
          apart.addressContext itemPresent siblings ordered
      rw [ensures_bind] at repaired
      obtain ⟨⟨siblingLeftist, -⟩, restSiblings⟩ :=
        List.forall_mem_cons.mp siblings
      have cuts :=
        ensures_lhCut_cutOff aroundIsolated apart.contextNodup
          apart.addressContext itemPresent siblingLeftist ordered
      rw [if_pos (by simpa using parentPresent),
        ensuresWithin_loopless_bind]
      refine (repaired.both cuts.permits).weaken ?_
      rintro _ cut ⟨looped, cutOff, -⟩
      have climbs :=
        endsWithin_lhDelUp (by simp) cutOff.leftist restSiblings
          cutOff.represents cutOff.distinct low
      rw [ensuresWithin_bind]
      refine (climbs.ensuresWithin looped).weaken ?_
      rintro _ after ⟨restHeap, restSame⟩
      have isRoot :
          after.lhNode =
            (Context.rebuild rest (.node sibling parent 0 .nil)).root := by
        rw [restSame.lhNode, sameRoot, valid.rooted, plug_cons]
        exact (root_rebuild rest (by simp)).symm
      have restListing :
          (Context.rebuild rest (.node sibling parent 0 .nil)).inorder.Perm
            (addresses (⟨side, parent, parentNpl, sibling⟩ :: rest)) :=
        (inorder_rebuild_perm _ _).trans
          (inorder_cut_perm rest side parent sibling parentNpl)
      have separate :
          (addresses (⟨side, parent, parentNpl, sibling⟩ ::
            rest)).Disjoint new.inorder := by
        intro other inContext inNew
        rcases List.mem_append.mp (newListing.mem_iff.mp inNew) with
          inLeft | inRight
        · exact apart.leftContext inLeft inContext
        · exact apart.rightContext inRight inContext
      have newAfter : Heap (Precedes member key cmp) after.nodes new :=
        newIsolated.sameOutside restSame (List.disjoint_comm.mp separate)
      have restSize := restListing.length_eq
      rw [Tree.length_inorder] at restSize
      have restShort :=
        @rightSpines_lt_mergeRounds _ _
          (plug (⟨side, parent, parentNpl, sibling⟩ :: rest)
            (.node left item npl right)).size
          restHeap.leftist newAfter.leftist (by omega) (by omega)
      rw [ensuresWithin_loopless_bind, ensures_lhMin, isRoot]
      exact endsWithin_lhMerge_setHeap consistent restHeap newAfter
        (fun _ inRest => separate (restListing.mem_iff.mp inRest))
        (by omega)

end Delete

section Runs

variable {ι κ : Type} [DecidableEq ι]
variable {member : Word} {cmp : κ → κ → Int}

omit [DecidableEq ι] in
/-- The number of nodes of one heap. -/
theorem HeapState.Holds.size_eq
    {state : HeapState κ}
    {tree : Tree Word Int}
    (holds : state.Holds member cmp tree) :
    tree.size = state.members.length := by
  rw [← Tree.length_inorder, holds.listing.length_eq]

/-- Two heaps are merged in logarithmically many rounds. -/
theorem ForestState.Holds.endsWithin_merge
    (consistent : ThreeWay cmp)
    {state : ForestState ι κ}
    (holds : state.Holds member cmp)
    {heap1 heap2 : ι}
    (different : heap1 ≠ heap2) :
    ((ForestOp.merge heap1 heap2).program member state.key
      cmp).EndsWithin
        (mergeRounds
          (state.members heap1 ++ state.members heap2).length)
        state.forest := by
  obtain ⟨first, firstHolds⟩ := holds.heaps heap1
  obtain ⟨second, secondHolds⟩ := holds.heaps heap2
  have firstSize := firstHolds.size_eq
  have secondSize := secondHolds.size_eq
  obtain ⟨⟨firstHeap, firstRooted⟩, firstListing⟩ := firstHolds
  obtain ⟨⟨secondHeap, secondRooted⟩, secondListing⟩ := secondHolds
  have firstRoot : (state.forest.heap heap1).lhNode = first.root :=
    firstRooted
  have secondRoot : (state.forest.heap heap2).lhNode = second.root :=
    secondRooted
  have disjoint : first.inorder.Disjoint second.inorder := by
    intro node inFirst inSecond
    exact holds.apart heap1 heap2 different
      (firstListing.mem_iff.mp inFirst) (secondListing.mem_iff.mp inSecond)
  have short :=
    @rightSpines_lt_mergeRounds _ _
      (state.members heap1 ++ state.members heap2).length
      firstHeap.leftist secondHeap.leftist
      (by simp [firstSize, ForestState.one])
      (by simp [secondSize, ForestState.one])
  have merges :=
    @endsWithin_lhMerge_setHeap _ _ _ _ (state.forest.heap heap1) _
      consistent _ _ firstHeap secondHeap disjoint short
  simp only [ForestOp.program, onHeap, EndsWithin,
    ensuresWithin_loopless_bind, ensures_zoom, ensures_lhMin,
    LhForest.replace_heap, firstRoot, secondRoot]
  rw [ensuresWithin_bind, ensuresWithin_zoom]
  refine merges.weaken ?_
  intro _ after _
  rw [ensuresWithin_zoom, lhHeapInit]
  exact ensuresWithin_loopless.mpr (ensures_setHeap.mpr trivial)

/--
After every run, initialising, inserting, taking out the root, and merging make
only logarithmically many rounds in each of their loops.  A deletion of any
other node makes at most as many rounds more as the node is deep.
-/
theorem forestRun_makes_logarithmic_rounds
    (consistent : ThreeWay cmp)
    {reached : ForestState ι κ}
    (run : ForestRun member cmp reached) :
    (∀ op : ForestOp ι,
      op.Legal reached →
      (∀ heap item,
        op = .delete heap item → item = reached.forest.lhNode heap) →
      (op.program member reached.key cmp).EndsWithin
        (mergeRounds (op.touched reached.members).length)
        reached.forest) ∧
      ∀ (heap : ι) (context : Context Word Int) (item : Word)
        (left right : Tree Word Int) (npl : Int),
        Linked reached.forest.nodes (reached.forest.lhNode heap)
          (context.plug (.node left item npl right)) →
        ((ForestOp.delete heap item).program member reached.key
          cmp).EndsWithin
            (max context.length
              (mergeRounds (reached.members heap).length))
            reached.forest := by
  have holds := run.holds consistent
  have deletes
      {heap : ι}
      {context : Context Word Int}
      {item : Word}
      {left right : Tree Word Int}
      {npl : Int}
      {rounds : Nat}
      (found :
        (reached.one heap).Holds member cmp
          (context.plug (.node left item npl right)))
      (low : context.length ≤ rounds)
      (enough : mergeRounds (reached.members heap).length ≤ rounds) :
      ((ForestOp.delete heap item).program member reached.key
        cmp).EndsWithin rounds reached.forest := by
    rw [ForestOp.program, onHeap, EndsWithin, ensuresWithin_zoom]
    refine endsWithin_lhDel consistent found.valid low ?_
    rw [found.size_eq]
    exact enough
  constructor
  · intro op legal takesRoot
    cases op with
    | init heap =>
        rw [ForestOp.program, onHeap, EndsWithin, ensuresWithin_zoom,
          lhHeapInit]
        exact ensuresWithin_loopless.mpr (ensures_setHeap.mpr trivial)
    | insert heap item =>
        obtain ⟨allocated, fresh⟩ := legal
        obtain ⟨tree, found⟩ := holds.heaps heap
        have outside : item ∉ tree.inorder :=
          found.listing.mem_iff.not.mpr (fresh heap)
        have inserts :=
          endsWithin_lhInsert consistent found.valid allocated outside
        rw [found.size_eq] at inserts
        rw [ForestOp.program, onHeap, EndsWithin, ensuresWithin_zoom]
        exact inserts
    | delete heap item =>
        obtain rfl := takesRoot heap item rfl
        obtain ⟨tree, found⟩ := holds.heaps heap
        cases tree with
        | nil =>
            have none := found.listing.nil_eq
            have inside : reached.forest.lhNode heap ∈ [] := none ▸ legal
            simp at inside
        | node left here npl right =>
            obtain rfl : reached.forest.lhNode heap = here :=
              found.valid.rooted
            exact @deletes _ [] _ _ _ _ _ found (Nat.zero_le _) le_rfl
    | merge heap1 heap2 =>
        exact holds.endsWithin_merge consistent legal
  · intro heap context item left right npl linked
    obtain ⟨tree, found⟩ := holds.heaps heap
    obtain rfl :=
      linked.unique
        ⟨found.valid.heap.represents, found.valid.rooted,
          found.valid.heap.distinct⟩
    exact deletes found (le_max_left _ _) (le_max_right _ _)

/-- Two heaps of one node are merged within three rounds. -/
theorem forestRun_makes_logarithmic_rounds_of_sample :
    ∃ first second,
      ((ForestOp.insert true 16).program 0 sampleKey sampleCmp).Returns
        sampleForest () first ∧
        ((ForestOp.insert false 32).program 0 sampleKey sampleCmp).Returns
          first () second ∧
        ((ForestOp.merge true false).program 0 sampleKey
          sampleCmp).EndsWithin 3 second := by
  obtain ⟨first, second, returned, returnedSecond, run⟩ :=
    sampleForest_after_insertions
  obtain ⟨operations, -⟩ :=
    forestRun_makes_logarithmic_rounds threeWay_sub run
  have ends :=
    operations (.merge true false) Bool.noConfusion (by simp)
  have enough :
      mergeRounds (sampleContents true ++ sampleContents false).length ≤
        3 := by
    decide
  exact ⟨first, second, returned, returnedSecond, ends.mono enough⟩

end Runs

end LibKern.LHeap
