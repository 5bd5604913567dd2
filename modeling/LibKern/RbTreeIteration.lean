import LibKern.RbTreeValid

namespace LibKern.RbTree

/-!
# Walking over a red-black tree

The neighbour of a node is the next element of the listing of the tree in the
direction of the walk.  This is all that the loops over the tree depend on, so
that each of them is an induction on the part of the listing still ahead.
-/

open Program Context

section Neighbours

variable {state : RbState}
variable {tree inner outer : Tree Word Color}
variable {context : Context Word Color}
variable {side : Side}
variable {node : Word}
variable {tag : Color}

/-- Following one side leads to the end of the tree on that side. -/
theorem ensures_descend_along
    {parent : Word}
    (side : Side)
    (represented : Represents state.view parent tree)
    (nonempty : tree ≠ .nil) :
    (descend side tree.root).Ensures state fun value after =>
      (∃ later, tree.along side.flip = value :: later) ∧
        after = state := by
  obtain ⟨spine, last, tag, child, rfl, onward, descends⟩ :=
    ensures_descend side represented nonempty
  refine descends.weaken ?_
  rintro _ _ ⟨rfl, rfl⟩
  refine ⟨?_, rfl⟩
  rw [along_plug, Side.flip_flip, ahead_eq_nil onward,
    ← Tree.branch_flip, Tree.along_branch]
  simp

/-- Climbing stops at the next node in the direction of the walk. -/
theorem ensures_climb
    (nonempty : tree ≠ .nil)
    (holds : state.Holds (context.plug tree)) :
    (climb side tree.root).Ensures state fun value after =>
      value = (context.ahead side).headD null ∧ after = state := by
  induction context generalizing tree with
  | nil =>
      obtain ⟨left, here, tag, right, rfl⟩ :=
        Tree.exists_branch .left nonempty
      rw [climb, ensures_loop, Tree.root_branch]
      simp [holds.cell]
  | cons frame rest inductionHypothesis =>
      obtain ⟨frameSide, address, frameTag, sibling⟩ := frame
      rw [plug_cons] at holds
      obtain ⟨-, inside⟩ := represents_plug.mp holds.represents
      obtain ⟨atFrame, treeRep, -⟩ := represents_branch.mp inside
      have distinct := (nodup_inorder_plug.mp holds.distinct).1
      rw [Tree.nodup_branch] at distinct
      have framePresent : address ≠ null := Memory.ne_null atFrame
      have atTree :
          ∃ content, state.view.cell tree.root = some content ∧
            content.parent = address := by
        obtain ⟨left, here, tag, right, rfl⟩ :=
          Tree.exists_branch .left nonempty
        exact ⟨_, (represents_branch.mp treeRep).1, by simp⟩
      obtain ⟨content, treeMapped, isParent⟩ := atTree
      rw [climb, ensures_loop]
      simp only [ensures_bind, ensures_rbParent, treeMapped, isParent,
        Option.some.injEq, exists_eq_left', framePresent, ↓reduceIte,
        ensures_getChild, atFrame]
      by_cases same : frameSide = side
      · subst same
        simp only [Cell.make_child, ↓reduceIte, ensures_pure]
        have above :=
          inductionHypothesis
            (by cases frameSide <;> simp [Tree.branch]) holds
        simpa [climb] using above
      · obtain rfl : frameSide = side.flip := Side.eq_flip_of_ne same
        have apart : tree.root ≠ sibling.root :=
          treeRep.root_ne nonempty distinct.2.2.2
        simp [Cell.make_flip, apart]

/-- The neighbour of a node is the next one in the direction of the walk. -/
theorem ensures_rbNeighbour
    (holds :
      state.Holds
        (context.plug (.branch side inner node tag outer))) :
    (rbNeighbour side node).Ensures state fun value after =>
      value = (inner.along side ++ context.ahead side).headD null ∧
        after = state := by
  have unlooped : context.parent ≠ node := by
    rintro isNode
    have outside :=
      (nodup_inorder_plug.mp holds.distinct).2.2
        (Tree.mem_inorder_branch.mpr (.inl rfl))
    refine outside (isNode ▸ parent_mem ?_)
    rintro rfl
    exact holds.present isNode.symm
  obtain ⟨around, inside⟩ := represents_plug.mp holds.represents
  obtain ⟨atNode, innerRep, -⟩ := represents_branch.mp inside
  simp only [rbNeighbour, ensures_bind, ensures_rbParent, atNode,
    Option.some.injEq, exists_eq_left', Cell.make_parent, unlooped,
    ↓reduceIte, ensures_getChild, Cell.make_child]
  by_cases empty : inner = .nil
  · subst empty
    have nonempty :
        Tree.branch side .nil node tag outer ≠ .nil := by
      cases side <;> simp [Tree.branch]
    have climbs :
        (climb side (Tree.branch side .nil node tag outer).root).Ensures
          state fun value after =>
            value = (context.ahead side).headD null ∧
              after = state :=
      ensures_climb nonempty holds
    simpa using climbs
  · have present := innerRep.root_eq_null_iff.not.mpr empty
    simp only [present, ne_eq, not_false_eq_true, ↓reduceIte]
    refine (ensures_descend_along side.flip innerRep empty).weaken ?_
    rintro value _ ⟨⟨later, order⟩, rfl⟩
    rw [Side.flip_flip] at order
    simp [order]

/-- The neighbour of a node in terms of the listing of the tree. -/
theorem ensures_rbNeighbour_along
    {earlier later : List Word}
    (holds : state.Holds tree)
    (order : tree.along side = earlier ++ node :: later) :
    (rbNeighbour side node).Ensures state fun value after =>
      value = later.headD null ∧ after = state := by
  have member : node ∈ tree.along side := by
    simp [order]
  obtain ⟨context, inner, tag, outer, rfl⟩ :=
    Tree.exists_plug_branch_of_mem side (Tree.mem_along.mp member)
  have distinct :
      ((context.plug
        (.branch side inner node tag outer)).along side).Nodup :=
    Tree.nodup_along.mpr holds.distinct
  rw [order, List.nodup_middle, List.nodup_cons, List.mem_append,
    not_or] at distinct
  rw [along_plug, Tree.along_branch] at order
  simp only [List.append_assoc, List.cons_append] at order
  rw [← List.append_assoc, eq_comm,
    List.append_cons_inj_of_notMem distinct.1.1 distinct.1.2] at order
  rw [order.2.2]
  exact ensures_rbNeighbour holds

/-- The walk starts at the first node of the listing. -/
theorem ensures_rbEdge
    (side : Side)
    (holds : state.Holds tree) :
    (rbEdge side.flip).Ensures state fun value after =>
      value = (tree.along side).headD null ∧ after = state := by
  simp only [rbEdge, ensures_bind, ensures_getRoot, holds.rooted]
  by_cases empty : tree = .nil
  · subst empty
    simp
  · have present := holds.represents.root_eq_null_iff.not.mpr empty
    simp only [present, ↓reduceIte]
    refine (ensures_descend_along _ holds.represents empty).weaken ?_
    rintro value _ ⟨⟨later, order⟩, rfl⟩
    rw [Side.flip_flip] at order
    simp [order]

end Neighbours

section Loops

variable {state : RbState}
variable {tree : Tree Word Color}

/-- The rounds of a loop whose body leaves the state alone. -/
private theorem ensures_rbTraverseStep
    {ρ : Type}
    {side : Side}
    {visit : ρ → Word → ρ}
    {earlier later : List Word}
    {accumulated : ρ}
    (holds : state.Holds tree)
    (order : tree.along side = earlier ++ later) :
    (loop
      (rbTraverseStep side fun accumulated node =>
        pure (visit accumulated node))
      (accumulated, later.headD null)).Ensures state
        fun value after =>
          value = later.foldl visit accumulated ∧ after = state := by
  induction later generalizing earlier accumulated with
  | nil =>
      rw [ensures_loop]
      simp [rbTraverseStep]
  | cons node later inductionHypothesis =>
      have present : node ≠ null := by
        rintro rfl
        refine holds.represents.null_notMem ?_
        rw [← @Tree.mem_along _ _ side, order]
        simp
      rw [ensures_loop]
      simp only [rbTraverseStep, List.headD_cons, present, ↓reduceIte,
        ensures_bind, ensures_pure]
      refine (ensures_rbNeighbour_along holds order).weaken ?_
      rintro _ _ ⟨rfl, rfl⟩
      have passed :
          tree.along side = (earlier ++ [node]) ++ later := by
        simp [order]
      exact inductionHypothesis passed

/-- A loop whose body leaves the state alone visits the listing in order. -/
theorem ensures_rbTraverse
    {ρ : Type}
    (side : Side)
    (visit : ρ → Word → ρ)
    (start : ρ)
    (holds : state.Holds tree) :
    (rbTraverse side (fun accumulated node =>
        pure (visit accumulated node)) start).Ensures state
      fun value after =>
        value = (tree.along side).foldl visit start ∧
          after = state := by
  simp only [rbTraverse, ensures_bind]
  refine (ensures_rbEdge side holds).weaken ?_
  rintro _ _ ⟨rfl, rfl⟩
  exact ensures_rbTraverseStep holds (List.nil_append _).symm

/-- The loop body that erases the nodes of a set and records its visits. -/
def eraseBody
    (selected : Word → Bool)
    (visited : List Word)
    (pos : Word) :
    Program RbState (List Word) := do
  onlyIf (selected pos) (rbErase pos)
  pure (visited ++ [pos])

/-- The rounds of the loop that may erase the node it is visiting. -/
private theorem ensures_rbForEachSafeStep
    {selected : Word → Bool}
    {kept later visited : List Word}
    (valid : state.Valid tree)
    (order : tree.inorder = kept ++ later) :
    (loop (rbForEachSafeStep (eraseBody selected))
      (visited, later.headD null)).Ensures state
        fun value after =>
          value = visited ++ later ∧
            ∃ result, after.Valid result ∧
              result.inorder =
                kept ++ later.filter fun node => !selected node := by
  induction later generalizing state tree kept visited with
  | nil =>
      rw [ensures_loop]
      simp only [rbForEachSafeStep, List.headD_nil, ↓reduceIte,
        ensures_pure, List.append_nil, List.filter_nil, true_and]
      exact ⟨tree, valid, by simpa using order⟩
  | cons node later inductionHypothesis =>
      have present : node ≠ null := by
        rintro rfl
        refine valid.holds.represents.null_notMem ?_
        simp [order]
      rw [ensures_loop]
      simp only [rbForEachSafeStep, List.headD_cons, present,
        ↓reduceIte, ensures_bind, ensures_pure, rbNext, eraseBody]
      have listed : tree.along .right = kept ++ node :: later := order
      refine (ensures_rbNeighbour_along valid.holds listed).weaken ?_
      rintro _ _ ⟨rfl, rfl⟩
      by_cases chosen : selected node = true
      · have member : node ∈ tree.inorder := by
          simp [order]
        simp only [onlyIf, chosen, ↓reduceIte]
        refine (ensures_rbErase_valid valid member).weaken ?_
        rintro _ after ⟨result, afterValid, erased⟩
        have distinct := valid.holds.distinct
        rw [order, List.nodup_middle, List.nodup_cons,
          List.mem_append, not_or] at distinct
        rw [order, List.erase_append_right _ distinct.1.1,
          List.erase_cons_head] at erased
        refine (inductionHypothesis afterValid erased).weaken ?_
        rintro value final ⟨rfl, ended⟩
        exact ⟨by simp, by simpa [chosen] using ended⟩
      · have passed : tree.inorder = (kept ++ [node]) ++ later := by
          simp [order]
        simp only [onlyIf, chosen, Bool.false_eq_true, ↓reduceIte,
          ensures_pure]
        refine (inductionHypothesis valid passed).weaken ?_
        rintro value final ⟨rfl, ended⟩
        exact ⟨by simp, by simpa [chosen] using ended⟩

/-- The safe loop visits every node although it erases some of them. -/
theorem ensures_rbForEachSafe
    (selected : Word → Bool)
    (valid : state.Valid tree) :
    (rbForEachSafe (eraseBody selected) []).Ensures state
      fun visited after =>
        visited = tree.inorder ∧
          ∃ result, after.Valid result ∧
            result.inorder =
              tree.inorder.filter fun node => !selected node := by
  simp only [rbForEachSafe, ensures_bind, rbFirst]
  refine (ensures_rbEdge .right valid.holds).weaken ?_
  rintro _ _ ⟨rfl, rfl⟩
  exact ensures_rbForEachSafeStep valid (List.nil_append _).symm

/-- Going to the next node and back returns to the same node. -/
theorem ensures_rbPrev_rbNext
    {node : Word}
    (holds : state.Holds tree)
    (member : node ∈ tree.inorder) :
    (rbNext node).Ensures state fun next after =>
      after = state ∧
        (next ≠ null →
          (rbPrev next).Ensures state fun back final =>
            back = node ∧ final = state) := by
  obtain ⟨earlier, later, order⟩ := List.append_of_mem member
  have listed : tree.along .right = earlier ++ node :: later := order
  refine (ensures_rbNeighbour_along holds listed).weaken ?_
  rintro _ _ ⟨rfl, rfl⟩
  refine ⟨rfl, ?_⟩
  intro present
  cases later with
  | nil =>
      exact absurd rfl present
  | cons next later =>
      have reversed :
          tree.along .left =
            later.reverse ++ next :: (node :: earlier.reverse) := by
        simp [Tree.along, order]
      exact ensures_rbNeighbour_along holds reversed

/--
On every tree with consistent parent pointers the two loops visit every node
once, in order and in reverse order, and going to the next node can be undone.
On every valid red-black tree the safe loop may erase any set of nodes while
it visits them: it still visits every node of the original tree in order, and
it leaves a valid tree with the other nodes in their old order.
-/
theorem rbForEach_visits_every_node_once :
    (∀ (state : RbState) (tree : Tree Word Color),
      state.Holds tree →
      (∀ (ρ : Type) (visit : ρ → Word → ρ) (start : ρ),
        (rbForEach (fun accumulated pos =>
            pure (visit accumulated pos)) start).Ensures state
          (fun value after =>
            value = tree.inorder.foldl visit start ∧
              after = state) ∧
          (rbForEachPrev (fun accumulated pos =>
              pure (visit accumulated pos)) start).Ensures state
            fun value after =>
              value = tree.inorder.reverse.foldl visit start ∧
                after = state) ∧
        ∀ node ∈ tree.inorder,
          (rbNext node).Ensures state fun next after =>
            after = state ∧
              (next ≠ null →
                (rbPrev next).Ensures state fun back final =>
                  back = node ∧ final = state)) ∧
      ∀ (state : RbState) (tree : Tree Word Color)
          (selected : Word → Bool),
        state.Valid tree →
        (rbForEachSafe (eraseBody selected) []).Ensures state
          fun visited after =>
            visited = tree.inorder ∧
              ∃ result, after.Valid result ∧
                result.inorder =
                  tree.inorder.filter fun node => !selected node := by
  refine ⟨fun state tree holds => ⟨?_, ?_⟩, ?_⟩
  · intro ρ visit start
    exact ⟨ensures_rbTraverse .right visit start holds,
      ensures_rbTraverse .left visit start holds⟩
  · intro node member
    exact ensures_rbPrev_rbNext holds member
  · intro state tree selected valid
    exact ensures_rbForEachSafe selected valid

theorem rbForEach_visits_sample :
    ((rbForEach (fun visited pos => pure (visited ++ [pos])) []).Ensures
        sampleState fun visited after =>
          visited = [8, 16, 24] ∧ after = sampleState) ∧
      (rbForEachSafe (eraseBody (· == 16)) []).Ensures sampleState
        fun visited after =>
          visited = [8, 16, 24] ∧
            ∃ result, after.Valid result ∧
              result.inorder = [8, 24] :=
  ⟨((rbForEach_visits_every_node_once.1 sampleState sampleTree
      sampleState_valid.holds).1 (List Word)
        (fun visited pos => visited ++ [pos]) []).1,
    rbForEach_visits_every_node_once.2 sampleState sampleTree (· == 16)
      sampleState_valid⟩

end Loops

end LibKern.RbTree
