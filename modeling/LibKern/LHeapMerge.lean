import LibKern.Comparison
import LibKern.LHeapSource

namespace LibKern.LHeap

/-!
# `lh_merge` merges two leftist heaps

The downward loop interleaves the right spines of the two heaps.  Throughout,
the part that is already merged is a tree seen from the node the loop has
reached, and the other part is a second tree whose root may have a stale
parent.  The upward loop then rebuilds the nodes on the path to the root.
-/

open Program Context

/-- Two states that differ at most in the given nodes. -/
structure LhState.SameOutside
    (nodes : List Word)
    (state after : LhState) : Prop where
  lhNode : after.lhNode = state.lhNode
  cell :
    ∀ address ∉ nodes,
      after.nodes.cell address = state.nodes.cell address

namespace LhState.SameOutside

variable {nodes more : List Word} {state between after : LhState}

theorem refl : SameOutside nodes state state :=
  ⟨rfl, fun _ _ => rfl⟩

theorem trans
    (first : SameOutside nodes state between)
    (second : SameOutside nodes between after) :
    SameOutside nodes state after where
  lhNode := second.lhNode.trans first.lhNode
  cell address outside :=
    (second.cell address outside).trans (first.cell address outside)

theorem mono
    (same : SameOutside nodes state after)
    (included : ∀ address ∈ nodes, address ∈ more) :
    SameOutside more state after where
  lhNode := same.lhNode
  cell address outside :=
    same.cell address fun member => outside (included address member)

theorem modify
    {target : Word}
    (member : target ∈ nodes)
    (change : LhNode → LhNode) :
    SameOutside nodes state (state.modify target change) where
  lhNode := rfl
  cell address outside := by
    have different : address ≠ target := by
      rintro rfl
      exact outside member
    simp [different]

/-- A tree outside of the changed nodes is still there. -/
theorem represents
    {parent : Word}
    {tree : Tree Word Int}
    (same : SameOutside nodes state after)
    (represented : Represents state.nodes parent tree)
    (disjoint : tree.inorder.Disjoint nodes) :
    Represents after.nodes parent tree :=
  represented.congr fun address member =>
    same.cell address (disjoint member)

end LhState.SameOutside

section Rebuild

variable {state : LhState}
variable {context : Context Word Int}
variable {left right : Tree Word Int}
variable {address : Word}
variable {npl : Int}

/-- Rewriting the node in focus. -/
theorem represents_refocus
    {memory : Memory Word LhNode}
    {newLeft newRight : Tree Word Int}
    {newNpl : Int}
    {change : LhNode → LhNode}
    (represented :
      Represents memory null
        (context.plug (.node left address npl right)))
    (outside : address ∉ context.addresses)
    (leftRep : Represents memory address newLeft)
    (rightRep : Represents memory address newRight)
    (outsideLeft : address ∉ newLeft.inorder)
    (outsideRight : address ∉ newRight.inorder)
    (changed :
      change ⟨context.parent, left.root, right.root, npl⟩ =
        ⟨context.parent, newLeft.root, newRight.root, newNpl⟩) :
    Represents (memory.modify address change) null
      (context.plug (.node newLeft address newNpl newRight)) := by
  obtain ⟨around, atAddress, -, -⟩ := represents_plug.mp represented
  refine represents_plug.mpr
    ⟨around.modify_outside outside _, ?_,
      leftRep.modify_outside outsideLeft _,
      rightRep.modify_outside outsideRight _⟩
  simp [atAddress, changed]

/-- `node->lh_npl` at the root of a subtree that is present. -/
theorem exists_cell_rank
    {memory : Memory Word LhNode}
    {parent : Word}
    {tree : Tree Word Int}
    (represented : Represents memory parent tree)
    (nonempty : tree ≠ .nil) :
    ∃ content, memory.cell tree.root = some content ∧
      content.tag = tree.rank := by
  cases tree with
  | nil =>
      exact absurd rfl nonempty
  | node left here npl right =>
      exact ⟨_, represented.1, rfl⟩

/-- Updating `lh_npl` takes it from the right child. -/
theorem ensures_lhUpdateNpl
    (represented :
      Represents state.nodes null
        (context.plug (.node left address npl right)))
    (apart : context.Apart left address right) :
    (lhUpdateNpl address).Ensures state fun _ after =>
      Represents after.nodes null
          (context.plug
            (.node left address (right.rank + 1) right)) ∧
        state.SameOutside [address] after := by
  obtain ⟨-, atAddress, leftRep, rightRep⟩ :=
    represents_plug.mp represented
  have updated
      {value : Int}
      (isRank : value = right.rank + 1) :
      (setNpl address value).Ensures state fun _ after =>
        Represents after.nodes null
            (context.plug
              (.node left address (right.rank + 1) right)) ∧
          state.SameOutside [address] after := by
    rw [setNpl, ensures_store]
    refine ⟨⟨_, atAddress⟩, ?_, .modify (by simp) _⟩
    exact represents_refocus represented apart.addressContext leftRep
      rightRep apart.addressLeft apart.addressRight
      (by simp [Cell.withTag, isRank])
  simp only [lhUpdateNpl, lhRight, lhNpl, ensures_bind, ensures_load,
    atAddress, Option.some.injEq, exists_eq_left']
  by_cases empty : right = .nil
  · subst empty
    simpa using updated rfl
  · have present := rightRep.root_eq_null_iff.not.mpr empty
    obtain ⟨content, atRight, isRank⟩ := exists_cell_rank rightRep empty
    simp only [ne_eq, present, not_false_eq_true, ↓reduceIte,
      ensures_bind, ensures_load, atRight, Option.some.injEq,
      exists_eq_left', isRank]
    exact updated rfl

/-- Swapping the children of the node in focus. -/
theorem ensures_lhSwapChildren
    (represented :
      Represents state.nodes null
        (context.plug (.node left address npl right)))
    (apart : context.Apart left address right) :
    (lhSwapChildren address).Ensures state fun _ after =>
      Represents after.nodes null
          (context.plug (.node right address npl left)) ∧
        state.SameOutside [address] after := by
  obtain ⟨-, atAddress, leftRep, rightRep⟩ :=
    represents_plug.mp represented
  simp only [lhSwapChildren, lhLeft, lhRight, setLeft, setRight,
    ensures_bind, ensures_load, ensures_store, atAddress,
    Option.some.injEq, exists_eq_left', exists_eq', true_and,
    LhState.nodes_modify, Memory.modify_cell_same, Option.map_some]
  refine ⟨?_, (LhState.SameOutside.modify (by simp) _).trans
    (.modify (by simp) _)⟩
  rw [Memory.modify_modify]
  exact represents_refocus represented apart.addressContext rightRep
    leftRep apart.addressRight apart.addressLeft
    (by simp [Cell.withChild])

/--
Rebuilding the node in focus, when the decision to swap its children follows
their null-path lengths.
-/
theorem ensures_lhRebuild
    {swaps : Bool}
    (decides :
      swaps = decide (left.rank < right.rank) ∨
        (left = .nil ∧ right = .nil))
    (represented :
      Represents state.nodes null
        (context.plug (.node left address npl right)))
    (apart : context.Apart left address right) :
    (lhRebuild address swaps).Ensures state fun _ after =>
      Represents after.nodes null
          (context.plug (.rebuild left address right)) ∧
        state.SameOutside [address] after := by
  rw [lhRebuild, ensures_bind]
  cases swaps with
  | true =>
      refine (ensures_onlyIf_of rfl).mpr
        ((ensures_lhSwapChildren represented apart).weaken ?_)
      intro _ first firstStep
      obtain ⟨firstRep, firstSame⟩ := firstStep
      refine (ensures_lhUpdateNpl firstRep apart.swap).weaken ?_
      intro _ after secondStep
      obtain ⟨afterRep, afterSame⟩ := secondStep
      refine ⟨?_, firstSame.trans afterSame⟩
      rcases decides with shorter | ⟨rfl, rfl⟩
      · rw [Tree.rebuild, if_pos (by simpa using shorter.symm)]
        exact afterRep
      · simpa [Tree.rebuild] using afterRep
  | false =>
      refine (ensures_onlyIf_of_not (by simp)).mpr
        ((ensures_lhUpdateNpl represented apart).weaken ?_)
      intro _ after step
      obtain ⟨afterRep, afterSame⟩ := step
      refine ⟨?_, afterSame⟩
      rcases decides with notShorter | ⟨rfl, rfl⟩
      · rw [Tree.rebuild, if_neg (by simpa using notShorter.symm)]
        exact afterRep
      · simpa [Tree.rebuild] using afterRep

/-- The decision of `lh_merge` follows the null-path lengths. -/
theorem ensures_lhMergeSwaps
    (leftRanked : left.Ranked)
    (rightRanked : right.Ranked)
    (represented :
      Represents state.nodes null
        (context.plug (.node left address npl right))) :
    (lhMergeSwaps address).Ensures state fun swaps after =>
      after = state ∧
        (swaps = decide (left.rank < right.rank) ∨
          (left = .nil ∧ right = .nil)) := by
  obtain ⟨-, atAddress, leftRep, rightRep⟩ :=
    represents_plug.mp represented
  simp only [lhMergeSwaps, lhLeft, lhRight, lhNpl, ensures_bind,
    ensures_load, atAddress, Option.some.injEq, exists_eq_left']
  by_cases leftEmpty : left = .nil
  · subst leftEmpty
    simp only [Tree.root_nil, ↓reduceIte, ensures_pure, true_and]
    by_cases rightEmpty : right = .nil
    · exact .inr rightEmpty
    · left
      have longer : -1 < right.rank :=
        lt_of_lt_of_le (by decide) (rightRanked.rank_nonneg rightEmpty)
      simp [longer]
  · have leftPresent := leftRep.root_eq_null_iff.not.mpr leftEmpty
    simp only [leftPresent, ↓reduceIte]
    by_cases rightEmpty : right = .nil
    · subst rightEmpty
      have longer : ¬left.rank < -1 :=
        not_lt.mpr leftRanked.neg_one_le_rank
      simp [atAddress, longer]
    · have rightPresent := rightRep.root_eq_null_iff.not.mpr rightEmpty
      obtain ⟨leftContent, atLeft, isLeftRank⟩ :=
        exists_cell_rank leftRep leftEmpty
      obtain ⟨rightContent, atRight, isRightRank⟩ :=
        exists_cell_rank rightRep rightEmpty
      simp [atAddress, rightPresent, atLeft, isLeftRank, atRight,
        isRightRank]

/-- One round of the upward loop rebuilds a node. -/
theorem ensures_lhMergeUpStep
    (leftRanked : left.Ranked)
    (rightRanked : right.Ranked)
    (represented :
      Represents state.nodes null
        (context.plug (.node left address npl right)))
    (distinct :
      (context.plug (.node left address npl right)).inorder.Nodup) :
    (lhMergeUp address).Ensures state fun flow after =>
      flow =
          (if context.parent = null then .done address
          else .next context.parent) ∧
        Represents after.nodes null
          (context.plug (.rebuild left address right)) ∧
        state.SameOutside [address] after := by
  have apart := nodup_plug_node.mp distinct
  obtain ⟨-, atAddress, -, -⟩ := represents_plug.mp represented
  have present : address ≠ null := Memory.ne_null atAddress
  simp only [lhMergeUp, ne_eq, present, not_false_eq_true, ↓reduceIte,
    ensures_bind]
  refine (ensures_lhMergeSwaps leftRanked rightRanked
    represented).weaken ?_
  rintro swaps _ ⟨rfl, decides⟩
  refine (ensures_lhRebuild decides represented apart).weaken ?_
  rintro _ after ⟨afterRep, same⟩
  obtain ⟨content, atAfter, isParent⟩ :
      ∃ content, after.nodes.cell address = some content ∧
        content.parent = context.parent := by
    obtain ⟨-, inside⟩ := represents_plug.mp afterRep
    unfold Tree.rebuild at inside
    split at inside
    · exact ⟨_, inside.1, rfl⟩
    · exact ⟨_, inside.1, rfl⟩
  simp only [lhParent, ensures_load, atAfter, Option.some.injEq,
    exists_eq_left', isParent]
  split
  · exact ensures_pure.mpr ⟨rfl, afterRep, same⟩
  · exact ensures_pure.mpr ⟨rfl, afterRep, same⟩

/-- The upward loop rebuilds all nodes on the path to the root. -/
theorem ensures_lhMergeUp
    (leftRanked : left.Ranked)
    (rightRanked : right.Ranked)
    (siblings : ∀ frame ∈ context, frame.sibling.Ranked)
    (represented :
      Represents state.nodes null
        (context.plug (.node left address npl right)))
    (distinct :
      (context.plug (.node left address npl right)).inorder.Nodup) :
    (loop lhMergeUp address).Ensures state fun value after =>
      value = (context.rebuild (.rebuild left address right)).root ∧
        Represents after.nodes null
          (context.rebuild (.rebuild left address right)) ∧
        state.SameOutside (address :: context.map Frame.address)
          after := by
  induction context generalizing left address npl right state with
  | nil =>
      rw [ensures_loop]
      refine (ensures_lhMergeUpStep leftRanked rightRanked represented
        distinct).weaken ?_
      rintro _ after ⟨rfl, afterRep, same⟩
      refine ⟨?_, afterRep, same.mono (by simp)⟩
      simp [Context.rebuild]
  | cons frame rest inductionHypothesis =>
      obtain ⟨side, parent, parentNpl, sibling⟩ := frame
      rw [List.forall_mem_cons] at siblings
      obtain ⟨siblingRanked, restRanked⟩ := siblings
      have rebuilt : (Tree.rebuild left address right).Ranked :=
        leftRanked.rebuild rightRanked address
      have rearranged :
          (plug (⟨side, parent, parentNpl, sibling⟩ :: rest)
            (.rebuild left address right)).inorder.Perm
            (plug (⟨side, parent, parentNpl, sibling⟩ :: rest)
              (.node left address npl right)).inorder := by
        apply inorder_plug_perm_of_perm
        exact (Tree.inorder_rebuild_perm _ _ _).trans
          List.perm_middle.symm
      have newDistinct := rearranged.nodup_iff.mpr distinct
      have parentPresent : parent ≠ null :=
        Memory.ne_null (represents_plug.mp represented).1.1
      have joined
          {first after : LhState}
          (firstSame : state.SameOutside [address] first)
          (afterSame :
            first.SameOutside (parent :: rest.map Frame.address) after) :
          state.SameOutside
            (address :: parent :: rest.map Frame.address) after :=
        (firstSame.mono (by simp)).trans
          (afterSame.mono fun _ => List.mem_cons_of_mem _)
      rw [ensures_loop]
      refine (ensures_lhMergeUpStep leftRanked rightRanked represented
        distinct).weaken ?_
      rintro _ first ⟨rfl, firstRep, firstSame⟩
      simp only [parent_cons, parentPresent, ↓reduceIte]
      cases side with
      | left =>
          refine (inductionHypothesis rebuilt siblingRanked restRanked
            firstRep newDistinct).weaken ?_
          rintro _ after ⟨rfl, afterRep, afterSame⟩
          exact ⟨rfl, afterRep, joined firstSame afterSame⟩
      | right =>
          refine (inductionHypothesis siblingRanked rebuilt restRanked
            firstRep newDistinct).weaken ?_
          rintro _ after ⟨rfl, afterRep, afterSame⟩
          exact ⟨rfl, afterRep, joined firstSame afterSame⟩

end Rebuild

section Down

variable {κ : Type}

/-- The key of the first node is not after that of the second one. -/
def Precedes
    (member : Word)
    (key : Word → κ)
    (cmp : κ → κ → Int)
    (first second : Word) : Prop :=
  0 ≤ compare member key cmp first second

/-- What the downward loop maintains. -/
structure Merging
    (above : Word → Word → Prop)
    (nodes : List Word)
    (state : LhState)
    (context : Context Word Int)
    (merged mergee : Tree Word Int) : Prop where
  represents : Represents state.nodes null (context.plug merged)
  detached : ∃ parent, Represents state.nodes parent mergee
  listing : ((context.plug merged).inorder ++ mergee.inorder).Perm nodes
  distinct : nodes.Nodup
  siblings : ∀ frame ∈ context, frame.sibling.Leftist
  leftist : merged.Leftist
  mergeeLeftist : mergee.Leftist
  ordered : (context.plug merged).Ordered above
  mergeeOrdered : mergee.Ordered above
  precedes :
    ∀ first ∈ merged.top, ∀ second ∈ mergee.top, above first second

/-- What the downward loop leaves for the upward loop. -/
structure Interleaved
    (above : Word → Word → Prop)
    (nodes : List Word)
    (state : LhState)
    (context : Context Word Int)
    (left : Tree Word Int)
    (address : Word)
    (npl : Int)
    (right : Tree Word Int) : Prop where
  represents :
    Represents state.nodes null
      (context.plug (.node left address npl right))
  listing :
    (context.plug (.node left address npl right)).inorder.Perm nodes
  distinct : nodes.Nodup
  siblings : ∀ frame ∈ context, frame.sibling.Leftist
  leftLeftist : left.Leftist
  rightLeftist : right.Leftist
  ordered : (context.plug (.node left address npl right)).Ordered above

namespace Merging

variable {above : Word → Word → Prop}
variable {nodes : List Word}
variable {state : LhState}
variable {context : Context Word Int}
variable {left right mergee : Tree Word Int}
variable {address : Word}
variable {npl : Int}

/-- The two trees do not overlap. -/
theorem apart
    {merged : Tree Word Int}
    (merging : Merging above nodes state context merged mergee) :
    (context.plug merged).inorder.Nodup ∧ mergee.inorder.Nodup ∧
      (context.plug merged).inorder.Disjoint mergee.inorder :=
  List.nodup_append'.mp
    (merging.listing.nodup_iff.mpr merging.distinct)

/-- Going down to the right child. -/
theorem descend
    (merging :
      Merging above nodes state context
        (.node left address npl right) mergee)
    (precedes :
      ∀ first ∈ right.top, ∀ second ∈ mergee.top,
        above first second) :
    Merging above nodes state (⟨.right, address, npl, left⟩ :: context)
      right mergee where
  represents := merging.represents
  detached := merging.detached
  listing := merging.listing
  distinct := merging.distinct
  siblings := by
    rw [List.forall_mem_cons]
    exact ⟨merging.leftist.2.2.1, merging.siblings⟩
  leftist := merging.leftist.2.2.2
  mergeeLeftist := merging.mergeeLeftist
  ordered := merging.ordered
  mergeeOrdered := merging.mergeeOrdered
  precedes := precedes

/-- The state after the second tree became the right child of a node. -/
abbrev attached
    (state : LhState)
    (address mergee : Word) : LhState :=
  (state.modify address (Cell.withChild .right mergee)).modify mergee
    (Cell.withParent address)

/-- Attaching the second tree detaches the former right child. -/
theorem attach
    (merging :
      Merging above nodes state context
        (.node left address npl right) mergee)
    (precedes :
      ∀ first ∈ mergee.top, ∀ second ∈ right.top,
        above first second) :
    Merging above nodes (attached state address mergee.root)
      (⟨.right, address, npl, left⟩ :: context) mergee right := by
  obtain ⟨distinct, mergeeNodup, disjoint⟩ := merging.apart
  obtain ⟨parent, mergeeRep⟩ := merging.detached
  obtain ⟨around, atAddress, leftRep, rightRep⟩ :=
    represents_plug.mp merging.represents
  have apart := nodup_plug_node.mp distinct
  have outside :
      ∀ other ∈ mergee.inorder,
        other ≠ address ∧ other ∉ left.inorder ∧
          other ∉ right.inorder ∧ other ∉ context.addresses :=
    fun other member =>
      notMem_plug_node.mp fun inside => disjoint inside member
  have addressOutside : address ∉ mergee.inorder :=
    fun member => (outside address member).1 rfl
  have rootLeft : mergee.root ∉ left.inorder :=
    leftRep.root_notMem fun _ member => (outside _ member).2.1
  have rootRight : mergee.root ∉ right.inorder :=
    rightRep.root_notMem fun _ member => (outside _ member).2.2.1
  have rootContext : mergee.root ∉ context.addresses :=
    around.root_notMem fun _ member => (outside _ member).2.2.2
  have rootAddress : address ≠ mergee.root := by
    intro same
    by_cases empty : mergee = .nil
    · subst empty
      exact Memory.ne_null atAddress same
    · exact addressOutside (same ▸ Tree.root_mem empty)
  have newContext :
      RepresentsContext (attached state address mergee.root).nodes
        (⟨.right, address, npl, left⟩ :: context) mergee.root := by
    refine ⟨?_, ?_, ?_⟩
    · simp [rootAddress, atAddress, Cell.withChild, Cell.make]
    · exact (leftRep.modify_outside apart.addressLeft _).modify_outside
        rootLeft _
    · exact (around.modify_outside apart.addressContext
        _).modify_outside rootContext _
  have newMerged :
      Represents (attached state address mergee.root).nodes address
        mergee :=
    (mergeeRep.modify_outside addressOutside _).reparent mergeeNodup
      address
  obtain ⟨⟨leftBelow, -, leftOrdered, rightOrdered⟩, aroundOrdered,
    fits⟩ := ordered_plug.mp merging.ordered
  exact
    { represents := represents_plug.mpr ⟨newContext, newMerged⟩
      detached :=
        ⟨address, (rightRep.modify_outside apart.addressRight
          _).modify_outside rootRight _⟩
      listing :=
        (inorder_plug_append_comm (⟨.right, address, npl, left⟩ :: context)
          mergee right).trans merging.listing
      distinct := merging.distinct
      siblings := by
        rw [List.forall_mem_cons]
        exact ⟨merging.leftist.2.2.1, merging.siblings⟩
      leftist := merging.mergeeLeftist
      mergeeLeftist := merging.leftist.2.2.2
      ordered :=
        ordered_plug.mpr
          ⟨merging.mergeeOrdered,
            ⟨leftBelow, leftOrdered,
              fun above member => fits above member address rfl,
              aroundOrdered⟩,
            by simpa using merging.precedes⟩
      mergeeOrdered := rightOrdered
      precedes := precedes }

/-- Attaching the second tree to a node without a right child. -/
theorem interleaved
    (merging :
      Merging above nodes state context
        (.node left address npl .nil) mergee) :
    Interleaved above nodes (attached state address mergee.root)
      context left address npl mergee := by
  have last := merging.attach (by simp)
  exact
    { represents := last.represents
      listing := by simpa [plug_cons, Tree.branch] using last.listing
      distinct := last.distinct
      siblings := merging.siblings
      leftLeftist := merging.leftist.2.2.1
      rightLeftist := merging.mergeeLeftist
      ordered := last.ordered }

/-- The nodes that change when the second tree is attached. -/
theorem sameOutside_attached
    (merging :
      Merging above nodes state context
        (.node left address npl right) mergee)
    (nonempty : mergee ≠ .nil)
    (start : LhState) :
    start.SameOutside nodes (attached start address mergee.root) := by
  have member : address ∈ nodes := by
    apply merging.listing.mem_iff.mp
    simp [mem_inorder_plug]
  have rootMember : mergee.root ∈ nodes := by
    apply merging.listing.mem_iff.mp
    simp [Tree.root_mem nonempty]
  exact (LhState.SameOutside.modify member _).trans
    (.modify rootMember _)

end Merging

section Loop

variable {member : Word} {key : Word → κ} {cmp : κ → κ → Int}
variable {nodes : List Word}
variable {state : LhState}
variable {context : Context Word Int}
variable {mergee : Tree Word Int}

/-- Of two nodes, one precedes the other. -/
theorem Precedes.of_neg
    (consistent : ThreeWay cmp)
    {first second : Word}
    (less : compare member key cmp first second < 0) :
    Precedes member key cmp second first :=
  le_of_lt ((consistent.antisymm _ _).mp less)

/-- One round of the downward loop. -/
theorem ensures_lhMergeDownStep
    {address second : Word}
    {content other : LhNode}
    (atAddress : state.nodes.cell address = some content)
    (atSecond : state.nodes.cell second = some other)
    (different : address ≠ second) :
    (lhMergeDown member key cmp (address, second)).Ensures state
      fun flow after =>
        if content.right = null ∨
            compare member key cmp content.right second < 0 then
          after = Merging.attached state address second ∧
            flow =
              if content.right = null then .done address
              else .next (second, content.right)
        else
          after = state ∧ flow = .next (content.right, second) := by
  have present : address ≠ null := Memory.ne_null atAddress
  have secondPresent : second ≠ null := Memory.ne_null atSecond
  simp only [lhMergeDown, ne_eq, present, not_false_eq_true,
    secondPresent, and_self, ↓reduceIte, ensures_bind, lhRight,
    ensures_load, atAddress, Option.some.injEq, exists_eq_left']
  split
  · by_cases last : content.right = null <;>
      simp [setRight, setParent, atAddress, atSecond, different,
        different.symm, Cell.withChild, last, Merging.attached]
  · simp [atAddress]

/--
What one round of the downward loop leaves: either the second tree was the last
part, or both right spines together are shorter by one node, which is now above
the trees.
-/
inductive MergeRound
    (above : Word → Word → Prop)
    (nodes : List Word)
    (after : LhState)
    (context : Context Word Int)
    (merged mergee : Tree Word Int) :
    Flow (Word × Word) Word → Prop where
  | last
      {left right : Tree Word Int}
      {address : Word}
      {npl : Int} :
      Interleaved above nodes after context left address npl right →
      MergeRound above nodes after context merged mergee (.done address)
  | further
      {around : Context Word Int}
      {newMerged newMergee : Tree Word Int} :
      Merging above nodes after around newMerged newMergee →
      newMerged ≠ .nil →
      newMergee ≠ .nil →
      around.length = context.length + 1 →
      newMerged.rightSpine + newMergee.rightSpine + 1 =
        merged.rightSpine + mergee.rightSpine →
      MergeRound above nodes after context merged mergee
        (.next (newMerged.root, newMergee.root))

/-- One round of the downward loop keeps what it maintains. -/
theorem ensures_lhMergeDownRound
    (consistent : ThreeWay cmp)
    {merged : Tree Word Int}
    (nonempty : merged ≠ .nil)
    (mergeeNonempty : mergee ≠ .nil)
    (merging :
      Merging (Precedes member key cmp) nodes state context merged
        mergee) :
    (lhMergeDown member key cmp (merged.root, mergee.root)).Ensures state
      fun flow after =>
        MergeRound (Precedes member key cmp) nodes after context merged
            mergee flow ∧
          state.SameOutside nodes after := by
  cases merged with
  | nil =>
      exact absurd rfl nonempty
  | node left address npl right =>
      obtain ⟨-, atAddress, -, rightRep⟩ :=
        represents_plug.mp merging.represents
      obtain ⟨parent, mergeeRep⟩ := merging.detached
      have sameAttached :=
        merging.sameOutside_attached mergeeNonempty state
      have inside :
          address ∈
            (context.plug (.node left address npl right)).inorder := by
        simp [mem_inorder_plug]
      have different : address ≠ mergee.root := by
        intro same
        exact merging.apart.2.2 inside
          (same ▸ Tree.root_mem mergeeNonempty)
      obtain ⟨other, atMergee⟩ :=
        mergeeRep.mapped (Tree.root_mem mergeeNonempty)
      refine (ensures_lhMergeDownStep atAddress atMergee
        different).weaken ?_
      intro flow after step
      by_cases rightEmpty : right = .nil
      · subst rightEmpty
        simp only [Tree.root_nil, true_or, ↓reduceIte] at step
        obtain ⟨rfl, rfl⟩ := step
        exact ⟨.last merging.interleaved, sameAttached⟩
      · have present := rightRep.root_eq_null_iff.not.mpr rightEmpty
        simp only [present, false_or, ↓reduceIte] at step
        by_cases less :
            compare member key cmp right.root mergee.root < 0
        · rw [if_pos less] at step
          obtain ⟨rfl, rfl⟩ := step
          have precedes :
              ∀ first ∈ mergee.top, ∀ second ∈ right.top,
                Precedes member key cmp first second := by
            intro first isFirst second isSecond
            rw [← Tree.root_eq_of_mem_top isFirst,
              ← Tree.root_eq_of_mem_top isSecond]
            exact Precedes.of_neg consistent less
          refine ⟨.further (merging.attach precedes) mergeeNonempty
            rightEmpty rfl ?_, sameAttached⟩
          simp only [Tree.rightSpine]
          omega
        · rw [if_neg less] at step
          obtain ⟨rfl, rfl⟩ := step
          have precedes :
              ∀ first ∈ right.top, ∀ second ∈ mergee.top,
                Precedes member key cmp first second := by
            intro first isFirst second isSecond
            rw [← Tree.root_eq_of_mem_top isFirst,
              ← Tree.root_eq_of_mem_top isSecond]
            exact not_lt.mp less
          refine ⟨.further (merging.descend precedes) rightEmpty
            mergeeNonempty rfl ?_, .refl⟩
          simp only [Tree.rightSpine]
          omega

/-- The downward loop interleaves the two right spines. -/
theorem ensures_lhMergeDown
    (consistent : ThreeWay cmp)
    {merged : Tree Word Int}
    (nonempty : merged ≠ .nil)
    (mergeeNonempty : mergee ≠ .nil)
    (merging :
      Merging (Precedes member key cmp) nodes state context merged
        mergee) :
    (loop (lhMergeDown member key cmp)
      (merged.root, mergee.root)).Ensures state fun lowest after =>
        (∃ around left npl right,
          Interleaved (Precedes member key cmp) nodes after around left
            lowest npl right) ∧
          state.SameOutside nodes after := by
  induction bound : merged.rightSpine + mergee.rightSpine
      generalizing merged mergee context state with
  | zero =>
      cases merged with
      | nil =>
          exact absurd rfl nonempty
      | node left address npl right =>
          simp only [Tree.rightSpine] at bound
          omega
  | succ bound inductionHypothesis =>
      rw [ensures_loop]
      refine (ensures_lhMergeDownRound consistent nonempty mergeeNonempty
        merging).weaken ?_
      rintro _ after ⟨round, same⟩
      cases round with
      | last interleaved =>
          exact ⟨⟨_, _, _, _, interleaved⟩, same⟩
      | further goesOn newNonempty newMergeeNonempty _ shorter =>
          refine (inductionHypothesis newNonempty newMergeeNonempty goesOn
            (by omega)).weaken ?_
          rintro lowest final ⟨interleaved, finalSame⟩
          exact ⟨interleaved, same.trans finalSame⟩

end Loop

end Down

section Merge

variable {κ : Type}
variable {member : Word} {key : Word → κ} {cmp : κ → κ → Int}
variable {state : LhState}
variable {first second : Tree Word Int}

/-- The memory holds this leftist heap below a null root parent. -/
structure Heap
    (above : Word → Word → Prop)
    (memory : Memory Word LhNode)
    (tree : Tree Word Int) : Prop where
  represents : Represents memory null tree
  distinct : tree.inorder.Nodup
  leftist : tree.Leftist
  ordered : tree.Ordered above

/-- A heap outside of the changed nodes is still there. -/
theorem Heap.sameOutside
    {above : Word → Word → Prop}
    {nodes : List Word}
    {after : LhState}
    {tree : Tree Word Int}
    (heap : Heap above state.nodes tree)
    (same : state.SameOutside nodes after)
    (disjoint : tree.inorder.Disjoint nodes) :
    Heap above after.nodes tree :=
  { heap with represents := same.represents heap.represents disjoint }

/-- The downward loop starts with two disjoint heaps. -/
theorem Heap.merging
    {above : Word → Word → Prop}
    (firstHeap : Heap above state.nodes first)
    (secondHeap : Heap above state.nodes second)
    (disjoint : first.inorder.Disjoint second.inorder)
    (precedes :
      ∀ top ∈ first.top, ∀ secondTop ∈ second.top,
        above top secondTop) :
    Merging above (first.inorder ++ second.inorder) state [] first
      second where
  represents := firstHeap.represents
  detached := ⟨null, secondHeap.represents⟩
  listing := .refl _
  distinct :=
    List.nodup_append'.mpr
      ⟨firstHeap.distinct, secondHeap.distinct, disjoint⟩
  siblings := by simp
  leftist := firstHeap.leftist
  mergeeLeftist := secondHeap.leftist
  ordered := firstHeap.ordered
  mergeeOrdered := secondHeap.ordered
  precedes := precedes

/-- The nodes on a path are nodes of its context. -/
theorem mem_addresses_of_mem_path
    {context : Context Word Int}
    {address : Word}
    (onPath : address ∈ context.map Frame.address) :
    address ∈ context.addresses := by
  induction context with
  | nil =>
      simp at onPath
  | cons frame rest inductionHypothesis =>
      rcases List.mem_cons.mp onPath with rfl | further
      · simp
      · simp [inductionHypothesis further]

/-- The upward loop makes a heap of what the downward loop leaves. -/
theorem Interleaved.ensures_lhMergeUp
    {above : Word → Word → Prop}
    {nodes : List Word}
    {context : Context Word Int}
    {left right : Tree Word Int}
    {lowest : Word}
    {npl : Int}
    (interleaved :
      Interleaved above nodes state context left lowest npl right) :
    (loop lhMergeUp lowest).Ensures state fun value after =>
      ∃ tree, value = tree.root ∧
        Heap above after.nodes tree ∧
        tree.inorder.Perm nodes ∧
        state.SameOutside nodes after := by
  have distinct :=
    interleaved.listing.nodup_iff.mpr interleaved.distinct
  refine (LHeap.ensures_lhMergeUp interleaved.leftLeftist.ranked
    interleaved.rightLeftist.ranked
    (fun frame isFrame => (interleaved.siblings frame isFrame).ranked)
    interleaved.represents distinct).weaken ?_
  intro value after upward
  obtain ⟨isRoot, represents, same⟩ := upward
  have listing :
      (context.rebuild (.rebuild left lowest right)).inorder.Perm
        nodes := by
    refine (inorder_rebuild_perm _ _).trans
      ((inorder_plug_perm_of_perm _ ?_).trans interleaved.listing)
    exact (Tree.inorder_rebuild_perm _ _ _).trans
      List.perm_middle.symm
  have ordered :
      (context.rebuild (.rebuild left lowest right)).Ordered above := by
    obtain ⟨inside, outside, fits⟩ :=
      ordered_plug.mp interleaved.ordered
    apply ordered_rebuild
    exact ordered_plug.mpr ⟨inside.rebuild, outside, by simpa using fits⟩
  refine ⟨_, isRoot, ⟨represents, ?_, ?_, ordered⟩, listing,
    same.mono ?_⟩
  · exact listing.nodup_iff.mpr interleaved.distinct
  · exact leftist_rebuild
      (interleaved.leftLeftist.rebuild interleaved.rightLeftist lowest)
      interleaved.siblings
  · intro address changed
    apply interleaved.listing.mem_iff.mp
    rcases List.mem_cons.mp changed with rfl | onPath
    · simp [mem_inorder_plug]
    · simp [mem_inorder_plug, mem_addresses_of_mem_path onPath]

/-- Merging two heaps of which the first one has the root. -/
theorem ensures_lhMergeBoth
    (consistent : ThreeWay cmp)
    (firstHeap : Heap (Precedes member key cmp) state.nodes first)
    (secondHeap : Heap (Precedes member key cmp) state.nodes second)
    (disjoint : first.inorder.Disjoint second.inorder)
    (nonempty : first ≠ .nil)
    (secondNonempty : second ≠ .nil)
    (precedes : Precedes member key cmp first.root second.root) :
    (lhMergeBoth member key cmp first.root second.root).Ensures state
      fun value after =>
        ∃ tree, value = tree.root ∧
          Heap (Precedes member key cmp) after.nodes tree ∧
          tree.inorder.Perm (first.inorder ++ second.inorder) ∧
          state.SameOutside (first.inorder ++ second.inorder) after := by
  have tops :
      ∀ top ∈ first.top, ∀ secondTop ∈ second.top,
        Precedes member key cmp top secondTop := by
    intro top isTop secondTop isSecondTop
    rw [← Tree.root_eq_of_mem_top isTop,
      ← Tree.root_eq_of_mem_top isSecondTop]
    exact precedes
  have merging := firstHeap.merging secondHeap disjoint tops
  rw [lhMergeBoth, ensures_bind]
  refine (ensures_lhMergeDown consistent nonempty secondNonempty
    merging).weaken ?_
  intro lowest middle downward
  obtain ⟨⟨around, left, npl, right, interleaved⟩, middleSame⟩ := downward
  refine interleaved.ensures_lhMergeUp.weaken ?_
  intro value after upward
  obtain ⟨tree, isRoot, heap, listing, afterSame⟩ := upward
  exact ⟨tree, isRoot, heap, listing, middleSame.trans afterSame⟩

/-- `lh_merge` makes one heap of two disjoint heaps. -/
theorem ensures_lhMerge
    (consistent : ThreeWay cmp)
    (firstHeap : Heap (Precedes member key cmp) state.nodes first)
    (secondHeap : Heap (Precedes member key cmp) state.nodes second)
    (disjoint : first.inorder.Disjoint second.inorder) :
    (lhMerge member key cmp first.root second.root).Ensures state
      fun value after =>
        ∃ tree, value = tree.root ∧
          Heap (Precedes member key cmp) after.nodes tree ∧
          tree.inorder.Perm (first.inorder ++ second.inorder) ∧
          state.SameOutside (first.inorder ++ second.inorder) after := by
  rw [lhMerge]
  by_cases empty : first = .nil
  · subst empty
    simp only [Tree.root_nil, ↓reduceIte, ensures_pure]
    exact ⟨second, rfl, secondHeap, .refl _, .refl⟩
  · have present := firstHeap.represents.root_eq_null_iff.not.mpr empty
    rw [if_neg present]
    by_cases secondEmpty : second = .nil
    · subst secondEmpty
      simp only [Tree.root_nil, ne_eq, not_true_eq_false, ↓reduceIte,
        ensures_pure]
      exact ⟨first, rfl, firstHeap, by simp, .refl⟩
    · have secondPresent :=
        secondHeap.represents.root_eq_null_iff.not.mpr secondEmpty
      rw [if_pos secondPresent]
      split
      · rename_i less
        refine (ensures_lhMergeBoth consistent secondHeap firstHeap
          (List.disjoint_comm.mp disjoint) secondEmpty empty
          (Precedes.of_neg consistent less)).weaken ?_
        intro value after result
        obtain ⟨tree, isRoot, heap, listing, same⟩ := result
        exact ⟨tree, isRoot, heap, listing.trans List.perm_append_comm,
          same.mono fun _ => List.perm_append_comm.mem_iff.mp⟩
      · rename_i notLess
        exact ensures_lhMergeBoth consistent firstHeap secondHeap disjoint
          empty secondEmpty (not_lt.mp notLess)

end Merge

end LibKern.LHeap
