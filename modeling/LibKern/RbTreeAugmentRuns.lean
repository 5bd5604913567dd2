import LibKern.RbTreeAugment

namespace LibKern.RbTree

/-!
# Runs of operations on augmented trees

A caller keeps a sequence of nodes in an augmented tree: it links new nodes
next to the ones that are there and erases nodes, in any order.  Every tree of
such a run is a valid red-black tree that lists the sequence and whose
aggregates are correct.  For a callback that multiplies in a monoid, the
aggregate of the root is therefore the product over the whole sequence, for
every shape that rebalancing has given to the tree.
-/

open Program Context

section Splice

/-- Put something in the place of one element of a list. -/
def substituteAt
    (old : Word)
    (new : List Word)
    (items : List Word) : List Word :=
  items.flatMap fun item => if item = old then new else [item]

/-- A new node is listed next to the node that it is linked to. -/
def RbLink.splice
    (node : Word)
    (items : List Word) : RbLink → List Word
  | .root => node :: items
  | .child parent .left => substituteAt parent [node, parent] items
  | .child parent .right => substituteAt parent [parent, node] items

theorem substituteAt_of_notMem
    {old : Word}
    {new items : List Word}
    (absent : old ∉ items) :
    substituteAt old new items = items := by
  induction items with
  | nil =>
      rfl
  | cons item rest inductionHypothesis =>
      rw [List.mem_cons, not_or] at absent
      have kept := inductionHypothesis absent.2
      rw [substituteAt] at kept ⊢
      rw [List.flatMap_cons, kept, if_neg (Ne.symm absent.1),
        List.singleton_append]

theorem substituteAt_middle
    {old : Word}
    {new earlier later : List Word}
    (distinct : (earlier ++ old :: later).Nodup) :
    substituteAt old new (earlier ++ old :: later) =
      earlier ++ new ++ later := by
  rw [List.nodup_middle, List.nodup_cons, List.mem_append,
    not_or] at distinct
  have first : substituteAt old new earlier = earlier :=
    substituteAt_of_notMem distinct.1.1
  have last : substituteAt old new later = later :=
    substituteAt_of_notMem distinct.1.2
  rw [substituteAt] at first last ⊢
  rw [List.flatMap_append, List.flatMap_cons, first, last, if_pos rfl,
    List.append_assoc]

/-- The hole of a context is where its link splices a node. -/
theorem splice_slot
    {context : Context Word Color}
    {node : Word}
    (distinct : (context.plug .nil).inorder.Nodup) :
    (slot context).splice node (context.plug .nil).inorder =
      context.before ++ node :: context.after := by
  rw [inorder_plug] at distinct ⊢
  cases context with
  | nil =>
      rfl
  | cons frame rest =>
      obtain ⟨side, parent, tag, sibling⟩ := frame
      cases side with
      | left =>
          have spliced :
              substituteAt parent [node, parent]
                  (before rest ++ parent ::
                    (sibling.inorder ++ after rest)) =
                before rest ++ [node, parent] ++
                  (sibling.inorder ++ after rest) :=
            substituteAt_middle distinct
          simpa [slot, RbLink.splice, before, after] using spliced
      | right =>
          have shape :
              before (⟨.right, parent, tag, sibling⟩ :: rest) ++
                  ((Tree.nil : Tree Word Color).inorder ++
                    after (⟨.right, parent, tag, sibling⟩ :: rest)) =
                (before rest ++ sibling.inorder) ++
                  parent :: after rest := by
            simp [before, after]
          rw [shape] at distinct ⊢
          have spliced :
              substituteAt parent [parent, node]
                  ((before rest ++ sibling.inorder) ++
                    parent :: after rest) =
                (before rest ++ sibling.inorder) ++ [parent, node] ++
                  after rest :=
            substituteAt_middle distinct
          simpa [slot, RbLink.splice, before, after] using spliced

end Splice

section Runs

variable {A : Type}

/-- What a caller does to an augmented tree. -/
inductive AugmentedOp where
  | insert (node parent : Word) (link : RbLink)
  | erase (node : Word)
  deriving Repr, DecidableEq

/-- The program of an operation. -/
def AugmentedOp.program
    (func : Word → Program (Augmented A) Unit) :
    AugmentedOp → Program (Augmented A) Unit
  | .insert node parent link => augmentedInsert func node parent link
  | .erase node => augmentedErase func node

/-- What an operation does to the sequence of nodes. -/
def AugmentedOp.effect (items : List Word) : AugmentedOp → List Word
  | .insert node _ link => link.splice node items
  | .erase node => items.erase node

/--
What a caller promises: a new node is accessible, not in the tree, and linked
at a vacant position, and an erased node is in the tree.
-/
def AugmentedOp.Legal
    (state : Augmented A)
    (items : List Word) : AugmentedOp → Prop
  | .insert node parent link =>
      (∃ tree, state.tree.Holds tree ∧
          Vacant state.tree tree parent link) ∧
        state.tree.Allocated node ∧
        node ∉ items
  | .erase node => node ∈ items

/--
The states reached from an empty tree, with the sequence of nodes that the
caller has put there.  Nothing is known about the memory of other nodes.
-/
inductive AugmentedRun
    (func : Word → Program (Augmented A) Unit) :
    Augmented A → List Word → Prop where
  | start
      {state : Augmented A} :
      state.tree.rbNode = null →
      AugmentedRun func state []
  | elsewhere
      {state after : Augmented A}
      {items : List Word} :
      AugmentedRun func state items →
      after.tree.rbNode = state.tree.rbNode →
      (∀ node ∈ items,
        after.tree.nodes.cell node = state.tree.nodes.cell node ∧
          after.aggregate node = state.aggregate node) →
      AugmentedRun func after items
  | operation
      {state after : Augmented A}
      {items : List Word}
      {op : AugmentedOp} :
      AugmentedRun func state items →
      op.Legal state items →
      (op.program func).Returns state () after →
      AugmentedRun func after (op.effect items)

/-- A valid tree that lists the nodes and has correct aggregates. -/
structure Augmented.Lists
    (compute : Word → Option A → Option A → A)
    (state : Augmented A)
    (items : List Word)
    (tree : Tree Word Color) : Prop where
  valid : state.tree.Valid tree
  inorder : tree.inorder = items
  correct : tree.Correct compute state.aggregate

variable {func : Word → Program (Augmented A) Unit}
variable {compute : Word → Option A → Option A → A}
variable {state after : Augmented A}
variable {items : List Word}
variable {tree : Tree Word Color}

/-- A tree is not affected by changes outside of it. -/
theorem Augmented.Lists.elsewhere
    (lists : state.Lists compute items tree)
    (sameRoot : after.tree.rbNode = state.tree.rbNode)
    (same :
      ∀ node ∈ items,
        after.tree.nodes.cell node = state.tree.nodes.cell node ∧
          after.aggregate node = state.aggregate node) :
    after.Lists compute items tree := by
  obtain ⟨valid, rfl, correct⟩ := lists
  refine ⟨⟨?_, valid.redBlack⟩, rfl, ?_⟩
  · exact valid.holds.elsewhere sameRoot fun node member =>
      (same node member).1
  · exact correct.congr fun node member => (same node member).2

/-- Every legal operation ends and does to the tree what it should. -/
theorem Augmented.Lists.ensures_operation
    (recomputes : Recomputes func compute)
    (lists : state.Lists compute items tree)
    {op : AugmentedOp}
    (legal : op.Legal state items) :
    (op.program func).Ensures state fun _ after =>
      ∃ result, after.Lists compute (op.effect items) result := by
  obtain ⟨valid, rfl, correct⟩ := lists
  cases op with
  | insert node parent link =>
      obtain ⟨⟨found, foundHolds, vacant⟩, allocated, fresh⟩ := legal
      obtain rfl := foundHolds.unique valid.holds
      obtain ⟨context, rfl, rfl, rfl⟩ := vacant.exists_context foundHolds
      refine (ensures_augmentedInsert_fix recomputes valid correct
        allocated fresh).weaken ?_
      intro _ after inserted
      obtain ⟨result, fix, afterValid, afterCorrect⟩ := inserted
      refine ⟨result, afterValid, ?_, afterCorrect⟩
      rw [AugmentedOp.effect, splice_slot valid.holds.distinct,
        fix.inorder, inorder_plug]
      simp [Tree.branch]
  | erase node =>
      have member : node ∈ tree.inorder := legal
      obtain ⟨context, left, tag, right, rfl⟩ :=
        Tree.exists_plug_of_mem member
      refine (ensures_augmentedErase_repair recomputes valid
        correct).weaken ?_
      intro _ after erased
      obtain ⟨_, _, _, result, unlink, repair, afterValid,
        afterCorrect⟩ := erased
      exact ⟨result, afterValid,
        unlink.inorder_erase repair valid.holds.distinct, afterCorrect⟩

/-- In every state of a run the tree lists the nodes correctly. -/
theorem AugmentedRun.exists_lists
    (recomputes : Recomputes func compute)
    (run : AugmentedRun func state items) :
    ∃ tree, state.Lists compute items tree := by
  induction run with
  | start isNull =>
      exact ⟨.nil, RbState.valid_nil isNull, rfl, trivial⟩
  | elsewhere _ sameRoot same inductionHypothesis =>
      obtain ⟨tree, lists⟩ := inductionHypothesis
      exact ⟨tree, lists.elsewhere sameRoot same⟩
  | operation _ legal returned inductionHypothesis =>
      obtain ⟨tree, lists⟩ := inductionHypothesis
      exact (lists.ensures_operation recomputes legal).of_returns returned

variable [Monoid A]

/-- A callback that multiplies the values below and including a node. -/
def multiplyNodes
    (value : Word → A)
    (node : Word) :
    Program (Augmented A) Unit := do
  let left ← onTree (getChild node .left)
  let right ← onTree (getChild node .right)
  updates fun state =>
    some
      { state with
        aggregate :=
          Function.update state.aggregate node
            (multiply value node (state.childAggregate left)
              (state.childAggregate right)) }

theorem multiplyNodes_recomputes
    (value : Word → A) :
    Recomputes (multiplyNodes value) (multiply value) := by
  intro state node content atNode
  simp [multiplyNodes, atNode, Augmented.recompute, Cell.child]

/--
For every callback that recomputes products in a monoid, and in every state
that is reached from an empty tree by any sequence of augmented insertions and
deletions: the tree is a valid red-black tree that lists the nodes in the
order in which they were linked next to each other, the aggregate of its root
is the product of the values along this listing, the aggregate of every node
is the product along a segment of the listing that contains the node, and
every further operation ends in such a state again.
-/
theorem augmentedRun_multiplies_along_listing
    {value : Word → A}
    (recomputes : Recomputes func (multiply value))
    (run : AugmentedRun func state items) :
    (∃ tree, state.tree.Valid tree ∧ tree.inorder = items) ∧
      (state.childAggregate state.tree.rbNode).getD 1 =
        (items.map value).prod ∧
      (∀ node ∈ items,
        ∃ segment,
          segment <:+: items ∧
            node ∈ segment ∧
            state.aggregate node = (segment.map value).prod) ∧
      ∀ op : AugmentedOp,
        op.Legal state items →
        (op.program func).Ensures state fun _ after =>
          AugmentedRun func after (op.effect items) := by
  obtain ⟨tree, lists⟩ := run.exists_lists recomputes
  refine ⟨⟨tree, lists.valid, lists.inorder⟩, ?_, ?_, ?_⟩
  · have root := lists.correct.rootAggregate_eq_prod
    rw [← childAggregate_root lists.valid.holds.represents,
      ← lists.valid.holds.rooted, lists.inorder] at root
    exact root
  · intro node member
    rw [← lists.inorder] at member ⊢
    exact lists.correct.exists_segment member
  · intro op legal
    obtain ⟨_, after, returned, -⟩ :=
      lists.ensures_operation recomputes legal
    exact ⟨(), after, returned, run.operation legal returned⟩

end Runs

section Sample

/-- An empty tree with two nodes outside. -/
def vacantState : Augmented Nat :=
  ⟨.ofList [(8, ⟨0, 0, 0⟩), (16, ⟨0, 0, 0⟩)] 0 (by decide), fun _ => 0⟩

/-- A tree with one node has room to the left of it. -/
private theorem vacant_left
    {state : RbState}
    {tree : Tree Word Color}
    {node : Word}
    (holds : state.Holds tree)
    (single : tree.inorder = [node]) :
    Vacant state tree node (.child node .left) := by
  cases tree with
  | nil =>
      simp at single
  | node left address tag right =>
      have sizes := congrArg List.length single
      simp only [Tree.inorder_node, List.length_append,
        List.length_cons, List.length_nil] at sizes
      have leftEmpty : left.inorder = [] :=
        List.eq_nil_of_length_eq_zero (by omega)
      have isNode : address = node := by
        rw [Tree.inorder_node, leftEmpty, List.nil_append] at single
        exact (List.cons.inj single).1
      subst isNode
      refine .child (by simp) holds.represents.1 ?_
      cases left with
      | nil =>
          rfl
      | node =>
          simp at leftEmpty

theorem augmentedRun_multiplies_along_listing_of_sample :
    ∃ first second,
      ((AugmentedOp.insert 16 0 .root).program
        (multiplyNodes BitVec.toNat)).Returns vacantState () first ∧
        ((AugmentedOp.insert 8 16 (.child 16 .left)).program
          (multiplyNodes BitVec.toNat)).Returns first () second ∧
        (second.childAggregate second.tree.rbNode).getD 1 = 128 := by
  have recomputes := multiplyNodes_recomputes BitVec.toNat
  have startRun :
      AugmentedRun (multiplyNodes BitVec.toNat) vacantState [] :=
    .start rfl
  obtain ⟨⟨start, startValid, -⟩, -, -, fromStart⟩ :=
    augmentedRun_multiplies_along_listing recomputes startRun
  obtain ⟨_, first, returned, firstRun⟩ :=
    fromStart (.insert 16 0 .root)
      ⟨⟨start, startValid.holds, .root rfl⟩, ⟨⟨0, 0, 0, .red⟩, by decide⟩,
        by simp⟩
  have allocated : first.tree.Allocated 8 := by
    have reads :
        (do
          (AugmentedOp.insert 16 0 .root).program
            (multiplyNodes BitVec.toNat)
          onTree (getChild 8 .left)).Ensures vacantState
            fun child _ => child = 0 :=
      .of_exec 20 (by decide)
    rw [ensures_bind] at reads
    obtain ⟨content, mapped, -⟩ := by
      simpa using reads.of_returns returned
    exact ⟨content, mapped⟩
  obtain ⟨⟨tree, valid, listing⟩, -, -, fromFirst⟩ :=
    augmentedRun_multiplies_along_listing recomputes firstRun
  obtain ⟨_, second, returnedSecond, secondRun⟩ :=
    fromFirst (.insert 8 16 (.child 16 .left))
      ⟨⟨tree, valid.holds, vacant_left valid.holds listing⟩, allocated,
        by decide⟩
  obtain ⟨-, root, -⟩ :=
    augmentedRun_multiplies_along_listing recomputes secondRun
  exact ⟨first, second, returned, returnedSecond, root⟩

end Sample

end LibKern.RbTree
