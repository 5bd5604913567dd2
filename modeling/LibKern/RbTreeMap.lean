import LibKern.Comparison
import LibKern.RbTreeValid

namespace LibKern.RbTree

/-!
# A red-black tree is a finite map

Structures that embed a node carry a key, and the tree is kept in the order of
the keys.  Searching, inserting, erasing, and replacing then act on the tree
like the corresponding operations on a map from classes of equal keys to
nodes, along every sequence of operations that starts with an empty tree.
-/

open Program Context

section Replace

variable {state : RbState}
variable {tree left right : Tree Word Color}
variable {context : Context Word Color}
variable {victim new : Word}
variable {tag : Color}

/-- The renaming that takes one address to another. -/
def substitute (victim new address : Word) : Word :=
  if address = victim then new else address

/-- Renaming the node in focus. -/
private theorem readdress_focus
    (distinct :
      (context.plug (.node left victim tag right)).inorder.Nodup) :
    (context.plug (.node left victim tag right)).readdress
        (substitute victim new) =
      context.plug (.node left new tag right) := by
  have apart := nodup_plug_node.mp distinct
  have fixed
      {addresses : List Word}
      (absent : victim ∉ addresses) :
      ∀ address ∈ addresses,
        substitute victim new address = address := by
    intro address member
    rw [substitute, if_neg (ne_of_mem_of_not_mem member absent)]
  rw [readdress_plug (fixed apart.addressContext), Tree.readdress,
    Tree.readdress_eq_self (fixed apart.addressLeft),
    Tree.readdress_eq_self (fixed apart.addressRight)]
  simp [substitute]

/-- `rb_replace_node` substitutes the node and nothing else. -/
theorem ensures_rbReplaceNode
    (holds : state.Holds tree)
    (member : victim ∈ tree.inorder)
    (allocated : state.Allocated new)
    (fresh : new ∉ tree.inorder) :
    (rbReplaceNode victim new).Ensures state fun _ after =>
      after.Holds (tree.readdress (substitute victim new)) := by
  obtain ⟨context, left, tag, right, rfl⟩ :=
    Tree.exists_plug_of_mem member
  rw [readdress_focus holds.distinct]
  obtain ⟨around, atVictim, leftRep, rightRep⟩ :=
    represents_plug.mp holds.represents
  obtain ⟨content, atNew⟩ := allocated
  have apart := nodup_plug_node.mp holds.distinct
  obtain ⟨different, outsideLeft, outsideRight, outsideContext⟩ :=
    notMem_plug_node.mp fresh
  have present : victim ≠ null := Memory.ne_null atVictim
  have newPresent : new ≠ null := Memory.ne_null atNew
  have clearNew : LowClear new := state.lowClear_of_mapped atNew
  have apartLeft : victim ≠ left.root :=
    root_ne_of_notMem present apart.addressLeft
  have apartRight : victim ≠ right.root :=
    root_ne_of_notMem present apart.addressRight
  have newLeft : new ≠ left.root :=
    root_ne_of_notMem newPresent outsideLeft
  have newRight : new ≠ right.root :=
    root_ne_of_notMem newPresent outsideRight
  have hungVictim :
      (state.hang context new).view.cell victim =
        some ⟨context.parent, left.root, right.root, tag⟩ := by
    rw [RbState.view_hang, Memory.hang_cell apart.addressContext,
      atVictim]
  have leftHung :
      Represents (state.hang context new).view victim left := by
    rw [RbState.view_hang]
    exact leftRep.hang_outside apart.leftContext new
  have movedVictim :
      ((state.hang context new).modify left.root
        (RbNode.setParent new)).view.cell victim =
          some ⟨context.parent, left.root, right.root, tag⟩ := by
    rw [RbState.view_modify_setParent _ _ clearNew,
      Memory.modify_cell_of_ne _ _ apartLeft, hungVictim]
  have rightMoved :
      Represents
        ((state.hang context new).modify left.root
          (RbNode.setParent new)).view victim right := by
    rw [RbState.view_modify_setParent _ _ clearNew, RbState.view_hang]
    exact (rightRep.hang_outside apart.rightContext new).modify_outside
      (rightRep.root_notMem apart.leftRight) _
  have finalVictim :
      (((state.hang context new).modify left.root
        (RbNode.setParent new)).modify right.root
          (RbNode.setParent new)).view.cell victim =
            some ⟨context.parent, left.root, right.root, tag⟩ := by
    rw [RbState.view_modify_setParent _ _ clearNew,
      Memory.modify_cell_of_ne _ _ apartRight, movedVictim]
  simp only [rbReplaceNode, ensures_bind, ensures_rbParent, atVictim,
    Option.some.injEq, exists_eq_left']
  refine (ensures_replaceChild around present
    apart.addressContext).mpr (ensures_getChild.mpr
      ⟨_, hungVictim, (ensures_reparent leftHung).mpr
        (ensures_getChild.mpr ⟨_, movedVictim,
          (ensures_reparent rightMoved).mpr ?_⟩)⟩)
  obtain ⟨source, sourceMapped, sourceCell⟩ :=
    Option.map_eq_some_iff.mp finalVictim
  refine (ensures_load_cell finalVictim).mpr
    ⟨source, sourceCell, sourceMapped, ensures_store.mpr ⟨?_, ?_⟩⟩
  · simp [RbState.view_modify_setParent, clearNew, newLeft, newRight,
      Memory.hang_cell outsideContext, atNew]
  · refine holds.replug ?_ (by simp)
      (nodup_substituted holds.distinct fresh)
    rw [RbState.view_modify_copy, sourceCell]
    simp only [RbState.view_modify_setParent _ _ clearNew,
      RbState.view_hang]
    rw [Memory.modify_comm _ (Ne.symm newRight),
      Memory.modify_comm _ (Ne.symm newLeft),
      Memory.hang_modify _ outsideContext]
    refine represents_substituted holds.represents holds.distinct fresh
      ?_ ?_
    · intro address other
      simp [other]
    · simp [atNew]

end Replace

section Search

variable {κ : Type}

/-- The key of the structure that embeds a node. -/
def entryKey (member : Word) (key : Word → κ) (node : Word) : κ :=
  key (rbEntry member node)

/-- The nodes are listed in the order of their keys, without equal keys. -/
def Sorted
    (member : Word)
    (key : Word → κ)
    (cmp : κ → κ → Int)
    (nodes : List Word) : Prop :=
  nodes.Pairwise fun first second =>
    0 < cmp (entryKey member key first) (entryKey member key second)

variable {member : Word} {key : Word → κ} {cmp : κ → κ → Int}
variable {state : RbState}
variable {tree : Tree Word Color}

/-- The parts of a sorted listing around one node. -/
theorem sorted_middle
    {before after : List Word}
    {node : Word} :
    Sorted member key cmp (before ++ node :: after) ↔
      Sorted member key cmp (before ++ after) ∧
        (∀ other ∈ before,
          0 < cmp (entryKey member key other)
            (entryKey member key node)) ∧
        ∀ other ∈ after,
          0 < cmp (entryKey member key node)
            (entryKey member key other) := by
  simp only [Sorted, List.pairwise_append, List.pairwise_cons,
    List.mem_cons, forall_eq_or_imp]
  constructor
  · rintro ⟨one, ⟨right, two⟩, across⟩
    exact ⟨⟨one, two, fun first isFirst => (across first isFirst).2⟩,
      fun first isFirst => (across first isFirst).1, right⟩
  · rintro ⟨⟨one, two, across⟩, left, right⟩
    exact ⟨one, ⟨right, two⟩, fun first isFirst =>
      ⟨left first isFirst, across first isFirst⟩⟩

/-- A value before a node is before all later nodes. -/
private theorem neg_of_later
    (consistent : ThreeWay cmp)
    {node : Word}
    {later : List Word}
    {value : κ}
    (ordered :
      ∀ other ∈ later,
        0 < cmp (entryKey member key node) (entryKey member key other))
    (below : cmp (entryKey member key node) value < 0) :
    ∀ other ∈ node :: later,
      cmp (entryKey member key other) value < 0 := by
  intro other isLater
  rcases List.mem_cons.mp isLater with rfl | inLater
  · exact below
  · exact consistent.trans
      ((consistent.antisymm _ _).mpr (ordered other inLater)) below

/-- A value after a node is after all earlier nodes. -/
private theorem pos_of_earlier
    (consistent : ThreeWay cmp)
    {node : Word}
    {earlier : List Word}
    {value : κ}
    (ordered :
      ∀ other ∈ earlier,
        0 < cmp (entryKey member key other) (entryKey member key node))
    (above : 0 < cmp (entryKey member key node) value) :
    ∀ other ∈ earlier ++ [node],
      0 < cmp (entryKey member key other) value := by
  intro other isEarlier
  rcases List.mem_append.mp isEarlier with inEarlier | isNode
  · exact consistent.pos_trans (ordered other inEarlier) above
  · rw [List.mem_singleton.mp isNode]
    exact above

/-- The descent of `rb_find` decides whether the key is present. -/
private theorem ensures_rbFindStep
    (consistent : ThreeWay cmp)
    {parent : Word}
    {value : κ}
    (represented : Represents state.view parent tree)
    (sorted : Sorted member key cmp tree.inorder) :
    (loop (rbFindStep member key cmp value) tree.root).Ensures state
      fun outcome after =>
        after = state ∧
          ((outcome.1 = true ∧ outcome.2 ∈ tree.inorder ∧
              cmp (entryKey member key outcome.2) value = 0) ∨
            (outcome.1 = false ∧
              ∀ node ∈ tree.inorder,
                cmp (entryKey member key node) value ≠ 0)) := by
  induction tree generalizing parent with
  | nil =>
      rw [ensures_loop]
      simp [rbFindStep]
  | node left here tag right leftHypothesis rightHypothesis =>
      obtain ⟨atHere, leftRep, rightRep⟩ := represented
      rw [Tree.inorder_node, sorted_middle] at sorted
      obtain ⟨others, leftSorted, rightSorted⟩ := sorted
      have present : here ≠ null := Memory.ne_null atHere
      rw [ensures_loop]
      simp only [rbFindStep, Tree.root_node, present, ↓reduceIte]
      rcases Int.lt_trichotomy (cmp (key (rbEntry member here)) value) 0
        with below | equal | above
      · have skipped := neg_of_later consistent rightSorted below
        simp only [below, ↓reduceIte, ensures_bind, ensures_getChild,
          atHere, Option.some.injEq, exists_eq_left', ensures_pure,
          Cell.child]
        refine (leftHypothesis leftRep
          (List.pairwise_append.mp others).1).weaken ?_
        rintro outcome _ ⟨rfl, found | absent⟩
        · exact ⟨rfl, .inl ⟨found.1, by simp [found.2.1], found.2.2⟩⟩
        · refine ⟨rfl, .inr ⟨absent.1, ?_⟩⟩
          intro node isNode
          rcases List.mem_append.mp isNode with inLeft | beyond
          · exact absent.2 node inLeft
          · exact (skipped node beyond).ne
      · simp only [equal, lt_irrefl, ↓reduceIte, ensures_pure, true_and]
        exact .inl ⟨by simp, equal⟩
      · have skipped := pos_of_earlier consistent leftSorted above
        have notBelow : ¬cmp (key (rbEntry member here)) value < 0 := by
          omega
        simp only [notBelow, above, ↓reduceIte, ensures_bind,
          ensures_getChild, atHere, Option.some.injEq, exists_eq_left',
          ensures_pure, Cell.child]
        refine (rightHypothesis rightRep
          (List.pairwise_append.mp others).2.1).weaken ?_
        rintro outcome _ ⟨rfl, found | absent⟩
        · exact ⟨rfl, .inl ⟨found.1, by simp [found.2.1], found.2.2⟩⟩
        · refine ⟨rfl, .inr ⟨absent.1, ?_⟩⟩
          intro node isNode
          rw [Tree.inorder_node, List.append_cons,
            List.mem_append] at isNode
          rcases isNode with beyond | inRight
          · exact (skipped node beyond).ne'
          · exact absent.2 node inRight

/-- `rb_find` returns the structure with an equal key, if there is one. -/
theorem ensures_rbFind
    (consistent : ThreeWay cmp)
    (holds : state.Holds tree)
    (sorted : Sorted member key cmp tree.inorder)
    (value : κ) :
    (rbFind member key cmp value).Ensures state fun found after =>
      after = state ∧
        ((∃ node ∈ tree.inorder,
            cmp (entryKey member key node) value = 0 ∧
              found = rbEntry member node) ∨
          ((∀ node ∈ tree.inorder,
              cmp (entryKey member key node) value ≠ 0) ∧
            found = null)) := by
  simp only [rbFind, ensures_bind, ensures_getRoot, holds.rooted]
  refine (ensures_rbFindStep consistent holds.represents
    sorted).weaken ?_
  rintro ⟨found, node⟩ _ ⟨rfl, ⟨isFound, isMember, equal⟩ |
    ⟨notFound, absent⟩⟩
  · obtain rfl : found = true := isFound
    exact ensures_pure.mpr ⟨rfl, .inl ⟨node, isMember, equal, rfl⟩⟩
  · obtain rfl : found = false := notFound
    exact ensures_pure.mpr ⟨rfl, .inr ⟨absent, rfl⟩⟩

/-- Reading through the slot pointer gives the root of the subtree. -/
theorem ensures_loadLink
    {context : Context Word Color}
    {post : Word → RbState → Prop}
    (holds : state.Holds (context.plug tree)) :
    (loadLink (slot context)).Ensures state post ↔
      post tree.root state := by
  cases context with
  | nil =>
      simp [loadLink, slot, holds.rooted]
  | cons frame rest =>
      obtain ⟨around, -⟩ := represents_plug.mp holds.represents
      simp [loadLink, slot, around.1]

/-- What the descent of `rb_insert` finds. -/
inductive InsertPlace
    (member : Word)
    (key : Word → κ)
    (cmp : κ → κ → Int)
    (item : Word)
    (tree : Tree Word Color) :
    Bool × RbLink × Word → Prop where
  | vacant
      {context : Context Word Color} :
      tree = context.plug .nil →
      (∀ node ∈ context.before,
        0 < cmp (entryKey member key node)
          (entryKey member key item)) →
      (∀ node ∈ context.after,
        cmp (entryKey member key node)
          (entryKey member key item) < 0) →
      InsertPlace member key cmp item tree
        (true, slot context, context.parent)
  | present
      {node : Word}
      {link : RbLink} :
      node ∈ tree.inorder →
      cmp (entryKey member key node) (entryKey member key item) = 0 →
      InsertPlace member key cmp item tree (false, link, node)

/-- The descent of `rb_insert` finds the place for the key. -/
theorem ensures_rbInsertStep
    (consistent : ThreeWay cmp)
    {context : Context Word Color}
    {item : Word}
    (holds : state.Holds (context.plug tree))
    (sorted : Sorted member key cmp (context.plug tree).inorder)
    (earlier :
      ∀ node ∈ context.before,
        0 < cmp (entryKey member key node) (entryKey member key item))
    (later :
      ∀ node ∈ context.after,
        cmp (entryKey member key node)
          (entryKey member key item) < 0) :
    (loop (rbInsertStep member key cmp item)
      (slot context, context.parent)).Ensures state
        fun outcome after =>
          after = state ∧
            InsertPlace member key cmp item (context.plug tree)
              outcome := by
  induction tree generalizing context with
  | nil =>
      rw [ensures_loop]
      simp only [rbInsertStep, ensures_bind]
      rw [ensures_loadLink holds]
      simp only [Tree.root_nil, ↓reduceIte, ensures_pure, true_and]
      exact .vacant rfl earlier later
  | node left here tag right leftHypothesis rightHypothesis =>
      obtain ⟨-, atHere, -, -⟩ := represents_plug.mp holds.represents
      have present : here ≠ null := Memory.ne_null atHere
      have ordered := sorted
      rw [inorder_plug, Tree.inorder_node] at ordered
      simp only [List.append_assoc, List.cons_append] at ordered
      rw [← List.append_assoc, sorted_middle] at ordered
      obtain ⟨-, leftSorted, rightSorted⟩ := ordered
      rw [ensures_loop]
      simp only [rbInsertStep, ensures_bind]
      rw [ensures_loadLink holds]
      simp only [Tree.root_node, present, ↓reduceIte]
      rcases Int.lt_trichotomy
          (cmp (key (rbEntry member here)) (key (rbEntry member item)))
          0 with below | equal | above
      · have skipped := neg_of_later consistent rightSorted below
        simp only [below, ↓reduceIte, ensures_pure]
        have moved :
            state.Holds
              (plug (⟨.left, here, tag, right⟩ :: context) left) :=
          holds
        exact leftHypothesis moved sorted earlier skipped
      · simp only [equal, lt_irrefl, ↓reduceIte,
          ensures_pure, true_and]
        refine .present ?_ equal
        exact mem_inorder_plug.mpr (.inl (by simp))
      · have skipped := pos_of_earlier consistent leftSorted above
        have notBelow :
            ¬cmp (key (rbEntry member here))
              (key (rbEntry member item)) < 0 := by
          omega
        simp only [notBelow, above, ↓reduceIte,
          ensures_pure]
        have moved :
            state.Holds
              (plug (⟨.right, here, tag, left⟩ :: context) right) :=
          holds
        refine rightHypothesis moved sorted ?_ later
        simpa [before, entryKey] using skipped

/--
`rb_insert` leaves the state alone if the key is present; otherwise it adds the
node at the place of its key.
-/
theorem ensures_rbInsert
    (consistent : ThreeWay cmp)
    {item : Word}
    (valid : state.Valid tree)
    (sorted : Sorted member key cmp tree.inorder)
    (allocated : state.Allocated item)
    (fresh : item ∉ tree.inorder) :
    (rbInsert member key cmp item).Ensures state fun _ after =>
      (after = state ∧
          ∃ node ∈ tree.inorder,
            cmp (entryKey member key node)
              (entryKey member key item) = 0) ∨
        ∃ (result : Tree Word Color) (before later : List Word),
          after.Valid result ∧
            tree.inorder = before ++ later ∧
            result.inorder = before ++ item :: later ∧
            Sorted member key cmp result.inorder ∧
            ∀ node ∈ tree.inorder,
              cmp (entryKey member key node)
                (entryKey member key item) ≠ 0 := by
  have focused : state.Holds (plug [] tree) := valid.holds
  simp only [rbInsert, ensures_bind]
  refine (ensures_rbInsertStep consistent focused sorted
    (by simp [before]) (by simp [Context.after])).weaken ?_
  rintro outcome _ ⟨rfl, place⟩
  cases place with
  | present isMember equal =>
      exact ensures_onlyIf.mpr (.inl ⟨rfl, _, isMember, equal⟩)
  | @vacant context shape earlier later =>
      obtain rfl : tree = context.plug .nil := shape
      refine ensures_onlyIf.mpr ?_
      refine (ensures_rbLinkNode_valid valid allocated fresh).weaken ?_
      rintro _ after ⟨result, afterValid, order⟩
      have split :
          (context.plug .nil).inorder = context.before ++ context.after := by
        simp [inorder_plug]
      refine .inr ⟨result, context.before, context.after, afterValid,
        split, order, ?_, ?_⟩
      · rw [order, sorted_middle, ← split]
        refine ⟨sorted, earlier, ?_⟩
        intro other isLater
        exact (consistent.antisymm _ _).mp (later other isLater)
      · intro node isMember
        rw [split] at isMember
        rcases List.mem_append.mp isMember with inBefore | inAfter
        · exact (earlier node inBefore).ne'
        · exact (later node inAfter).ne

/-- Equal keys belong to the same node. -/
theorem Sorted.eq_of_zero
    (consistent : ThreeWay cmp)
    {nodes : List Word}
    {first second : Word}
    (sorted : Sorted member key cmp nodes)
    (isFirst : first ∈ nodes)
    (isSecond : second ∈ nodes)
    (equal :
      cmp (entryKey member key first) (entryKey member key second) = 0) :
    first = second := by
  obtain ⟨before, later, rfl⟩ := List.append_of_mem isFirst
  obtain ⟨-, leftSorted, rightSorted⟩ := sorted_middle.mp sorted
  rcases List.mem_append.mp isSecond with inBefore | atOrLater
  · have above := leftSorted second inBefore
    have back := consistent.equivalence.symm equal
    omega
  · rcases List.mem_cons.mp atOrLater with same | inLater
    · exact same.symm
    · have above := rightSorted second inLater
      omega

/-- Substituting a node by one with an equal key keeps the order. -/
theorem Sorted.substitute
    (consistent : ThreeWay cmp)
    {nodes : List Word}
    {victim new : Word}
    (sorted : Sorted member key cmp nodes)
    (equal :
      cmp (entryKey member key victim) (entryKey member key new) = 0) :
    Sorted member key cmp (nodes.map (substitute victim new)) := by
  have same (node : Word) :
      cmp (entryKey member key node)
        (entryKey member key
          (RbTree.substitute victim new node)) = 0 := by
    rw [RbTree.substitute]
    split
    · rename_i isVictim
      rw [isVictim]
      exact equal
    · exact consistent.equivalence.refl _
  refine List.pairwise_map.mpr (sorted.imp ?_)
  intro first second above
  exact consistent.pos_of_pos_of_zero
    (consistent.pos_of_zero_of_pos
      (consistent.equivalence.symm (same first)) above) (same second)

end Search

/-- A map from classes of equal keys to nodes. -/
abbrev KeyMap (κ : Type) := κ → Option Word

namespace KeyMap

variable {κ : Type}

/-- The map without entries. -/
def empty : KeyMap κ := fun _ => none

/-- Change the entry for a key and all keys equal to it. -/
def assign
    (cmp : κ → κ → Int)
    (map : KeyMap κ)
    (key : κ)
    (entry : Option Word) : KeyMap κ :=
  fun value => if cmp key value = 0 then entry else map value

/-- Add an entry unless the key has one. -/
def insert
    (cmp : κ → κ → Int)
    (map : KeyMap κ)
    (key : κ)
    (node : Word) : KeyMap κ :=
  match map key with
  | none => map.assign cmp key (some node)
  | some _ => map

end KeyMap

/--
A tree in memory, the keys of all structures, and the map that the operations
so far should have produced.
-/
structure MapState (κ : Type) where
  tree : RbState
  key : Word → κ
  map : KeyMap κ

section Runs

variable {κ : Type} (member : Word) (cmp : κ → κ → Int)

/-- One operation on the tree, or a change that does not concern it. -/
inductive MapStep : MapState κ → MapState κ → Prop where
  | elsewhere
      {state after : RbState}
      {key newKey : Word → κ}
      {map : KeyMap κ}
      {tree : Tree Word Color} :
      state.Holds tree →
      after.rbNode = state.rbNode →
      (∀ node ∈ tree.inorder,
        after.nodes.cell node = state.nodes.cell node ∧
          entryKey member newKey node = entryKey member key node) →
      MapStep ⟨state, key, map⟩ ⟨after, newKey, map⟩
  | insert
      {state after : RbState}
      {key : Word → κ}
      {map : KeyMap κ}
      {tree : Tree Word Color}
      {item : Word} :
      state.Holds tree →
      state.Allocated item →
      item ∉ tree.inorder →
      (rbInsert member key cmp item).Returns state () after →
      MapStep ⟨state, key, map⟩
        ⟨after, key, map.insert cmp (entryKey member key item) item⟩
  | erase
      {state after : RbState}
      {key : Word → κ}
      {map : KeyMap κ}
      {tree : Tree Word Color}
      {node : Word} :
      state.Holds tree →
      node ∈ tree.inorder →
      (rbErase node).Returns state () after →
      MapStep ⟨state, key, map⟩
        ⟨after, key, map.assign cmp (entryKey member key node) none⟩
  | replace
      {state after : RbState}
      {key : Word → κ}
      {map : KeyMap κ}
      {tree : Tree Word Color}
      {victim new : Word} :
      state.Holds tree →
      victim ∈ tree.inorder →
      state.Allocated new →
      new ∉ tree.inorder →
      cmp (entryKey member key victim) (entryKey member key new) = 0 →
      (rbReplaceNode victim new).Returns state () after →
      MapStep ⟨state, key, map⟩
        ⟨after, key,
          map.assign cmp (entryKey member key victim) (some new)⟩

/-- The states reached from `RB_ROOT` by any sequence of operations. -/
inductive MapRun : MapState κ → Prop where
  | start
      {state : RbState}
      {key : Word → κ} :
      state.rbNode = null →
      MapRun ⟨state, key, .empty⟩
  | step
      {before after : MapState κ} :
      MapRun before →
      MapStep member cmp before after →
      MapRun after

/-- The tree is valid, sorted, and holds exactly the entries of the map. -/
structure MapState.Refines
    (state : MapState κ)
    (tree : Tree Word Color) : Prop where
  valid : state.tree.Valid tree
  sorted : Sorted member state.key cmp tree.inorder
  lookup :
    ∀ value node,
      state.map value = some node ↔
        node ∈ tree.inorder ∧
          cmp (entryKey member state.key node) value = 0

end Runs

section Refinement

variable {κ : Type} {member : Word} {cmp : κ → κ → Int}
variable {state after : RbState} {key : Word → κ} {map : KeyMap κ}
variable {tree : Tree Word Color}

/-- A key has no entry exactly when no node has an equal key. -/
theorem MapState.Refines.map_eq_none_iff
    {before : MapState κ}
    (refines : before.Refines member cmp tree)
    {value : κ} :
    before.map value = none ↔
      ∀ node ∈ tree.inorder,
        cmp (entryKey member before.key node) value ≠ 0 := by
  rw [Option.eq_none_iff_forall_ne_some]
  constructor
  · intro noEntry node isMember equal
    exact noEntry node ((refines.lookup value node).mpr ⟨isMember, equal⟩)
  · intro absent node isEntry
    obtain ⟨isMember, equal⟩ := (refines.lookup value node).mp isEntry
    exact absent node isMember equal

/-- The tree and the keys of its nodes determine the refined map. -/
theorem MapState.Refines.elsewhere
    {newKey : Word → κ}
    (refines : (⟨state, key, map⟩ : MapState κ).Refines member cmp tree)
    (sameRoot : after.rbNode = state.rbNode)
    (same :
      ∀ node ∈ tree.inorder,
        after.nodes.cell node = state.nodes.cell node ∧
          entryKey member newKey node = entryKey member key node) :
    (⟨after, newKey, map⟩ : MapState κ).Refines member cmp tree where
  valid :=
    ⟨refines.valid.holds.elsewhere sameRoot fun node isMember =>
        (same node isMember).1,
      refines.valid.redBlack⟩
  sorted :=
    refines.sorted.imp_of_mem fun isFirst isSecond above => by
      rw [(same _ isFirst).2, (same _ isSecond).2]
      exact above
  lookup := by
    intro value node
    rw [refines.lookup]
    refine and_congr_right fun isMember => ?_
    rw [(same node isMember).2]

/-- Inserting a new key adds its entry. -/
theorem MapState.Refines.insert
    (consistent : ThreeWay cmp)
    {result : Tree Word Color}
    {before later : List Word}
    {item : Word}
    (refines : (⟨state, key, map⟩ : MapState κ).Refines member cmp tree)
    (valid : after.Valid result)
    (order : tree.inorder = before ++ later)
    (newOrder : result.inorder = before ++ item :: later)
    (sorted : Sorted member key cmp result.inorder)
    (absent :
      ∀ node ∈ tree.inorder,
        cmp (entryKey member key node)
          (entryKey member key item) ≠ 0) :
    (⟨after, key,
      map.insert cmp (entryKey member key item) item⟩ :
        MapState κ).Refines member cmp result where
  valid := valid
  sorted := sorted
  lookup := by
    intro value node
    have members :
        node ∈ result.inorder ↔ node = item ∨ node ∈ tree.inorder := by
      rw [newOrder, order]
      simp only [List.mem_append, List.mem_cons]
      tauto
    have noEntry : map (entryKey member key item) = none :=
      refines.map_eq_none_iff.mpr absent
    have entry := refines.lookup value node
    simp only [KeyMap.insert, noEntry, KeyMap.assign, members] at entry ⊢
    by_cases equal : cmp (entryKey member key item) value = 0
    · rw [if_pos equal, Option.some.injEq, eq_comm]
      constructor
      · rintro rfl
        exact ⟨.inl rfl, equal⟩
      · rintro ⟨rfl | isMember, alsoEqual⟩
        · rfl
        · exact absurd (consistent.equivalence.trans alsoEqual
            (consistent.equivalence.symm equal)) (absent node isMember)
    · rw [if_neg equal, entry]
      constructor
      · rintro ⟨isMember, nodeEqual⟩
        exact ⟨.inr isMember, nodeEqual⟩
      · rintro ⟨rfl | isMember, nodeEqual⟩
        · exact absurd nodeEqual equal
        · exact ⟨isMember, nodeEqual⟩

/-- Inserting a present key changes nothing. -/
theorem MapState.Refines.insert_present
    {node item : Word}
    (refines : (⟨state, key, map⟩ : MapState κ).Refines member cmp tree)
    (isMember : node ∈ tree.inorder)
    (equal :
      cmp (entryKey member key node) (entryKey member key item) = 0) :
    map.insert cmp (entryKey member key item) item = map := by
  have entry : map (entryKey member key item) = some node :=
    (refines.lookup _ _).mpr ⟨isMember, equal⟩
  simp [KeyMap.insert, entry]

/-- Erasing a node removes its entry. -/
theorem MapState.Refines.erase
    (consistent : ThreeWay cmp)
    {result : Tree Word Color}
    {node : Word}
    (refines : (⟨state, key, map⟩ : MapState κ).Refines member cmp tree)
    (isMember : node ∈ tree.inorder)
    (valid : after.Valid result)
    (order : result.inorder = tree.inorder.erase node) :
    (⟨after, key,
      map.assign cmp (entryKey member key node) none⟩ :
        MapState κ).Refines member cmp result where
  valid := valid
  sorted := by
    rw [order]
    exact refines.sorted.sublist List.erase_sublist
  lookup := by
    intro value other
    have distinct := refines.valid.holds.distinct
    have entry := refines.lookup value other
    simp only [KeyMap.assign, order, distinct.mem_erase_iff] at entry ⊢
    by_cases equal : cmp (entryKey member key node) value = 0
    · rw [if_pos equal]
      constructor
      · intro isEntry
        simp at isEntry
      · rintro ⟨⟨different, isOther⟩, otherEqual⟩
        exact absurd (refines.sorted.eq_of_zero consistent isOther
          isMember (consistent.equivalence.trans otherEqual
            (consistent.equivalence.symm equal))) different
    · rw [if_neg equal, entry]
      constructor
      · rintro ⟨isOther, otherEqual⟩
        refine ⟨⟨?_, isOther⟩, otherEqual⟩
        rintro rfl
        exact equal otherEqual
      · rintro ⟨⟨-, isOther⟩, otherEqual⟩
        exact ⟨isOther, otherEqual⟩

/-- Replacing a node changes its entry. -/
theorem MapState.Refines.replace
    (consistent : ThreeWay cmp)
    {victim new : Word}
    (refines : (⟨state, key, map⟩ : MapState κ).Refines member cmp tree)
    (isVictim : victim ∈ tree.inorder)
    (equal :
      cmp (entryKey member key victim) (entryKey member key new) = 0)
    (holds : after.Holds (tree.readdress (substitute victim new))) :
    (⟨after, key,
      map.assign cmp (entryKey member key victim) (some new)⟩ :
        MapState κ).Refines member cmp
          (tree.readdress (substitute victim new)) where
  valid := ⟨holds, Tree.redBlack_readdress.mpr refines.valid.redBlack⟩
  sorted := by
    rw [Tree.inorder_readdress]
    exact refines.sorted.substitute consistent equal
  lookup := by
    intro value node
    have members :
        node ∈ (tree.readdress (substitute victim new)).inorder ↔
          node = new ∨ (node ∈ tree.inorder ∧ node ≠ victim) := by
      rw [Tree.inorder_readdress, List.mem_map]
      constructor
      · rintro ⟨old, isOld, rfl⟩
        by_cases same : old = victim
        · exact .inl (by simp [substitute, same])
        · exact .inr ⟨by simpa [substitute, same] using isOld,
            by simp [substitute, same]⟩
      · rintro (rfl | ⟨isNode, different⟩)
        · exact ⟨victim, isVictim, by simp [substitute]⟩
        · exact ⟨node, isNode, by simp [substitute, different]⟩
    have entry := refines.lookup value node
    simp only [KeyMap.assign, members] at entry ⊢
    by_cases classEqual : cmp (entryKey member key victim) value = 0
    · rw [if_pos classEqual, Option.some.injEq, eq_comm]
      constructor
      · rintro rfl
        exact ⟨.inl rfl, consistent.equivalence.trans
          (consistent.equivalence.symm equal) classEqual⟩
      · rintro ⟨rfl | ⟨isNode, different⟩, nodeEqual⟩
        · rfl
        · exact absurd (refines.sorted.eq_of_zero consistent isNode
            isVictim (consistent.equivalence.trans nodeEqual
              (consistent.equivalence.symm classEqual))) different
    · rw [if_neg classEqual, entry]
      constructor
      · rintro ⟨isNode, nodeEqual⟩
        refine ⟨.inr ⟨isNode, ?_⟩, nodeEqual⟩
        rintro rfl
        exact classEqual nodeEqual
      · rintro ⟨rfl | ⟨isNode, -⟩, nodeEqual⟩
        · exact absurd
            (consistent.equivalence.trans equal nodeEqual) classEqual
        · exact ⟨isNode, nodeEqual⟩

/-- Every run keeps the tree a refinement of the map. -/
theorem MapRun.exists_refines
    (consistent : ThreeWay cmp)
    {reached : MapState κ}
    (run : MapRun member cmp reached) :
    ∃ tree, reached.Refines member cmp tree := by
  induction run with
  | start isNull =>
      refine ⟨.nil, RbState.valid_nil isNull, .nil, ?_⟩
      simp [KeyMap.empty]
  | step _ step inductionHypothesis =>
      obtain ⟨tree, refines⟩ := inductionHypothesis
      cases step with
      | elsewhere holds sameRoot same =>
          obtain rfl := holds.unique refines.valid.holds
          exact ⟨_, refines.elsewhere sameRoot same⟩
      | insert holds allocated fresh returned =>
          obtain rfl := holds.unique refines.valid.holds
          rcases (ensures_rbInsert consistent refines.valid
            refines.sorted allocated fresh).of_returns returned with
            ⟨rfl, node, isMember, equal⟩ |
              ⟨result, before, later, valid, order, newOrder, sorted,
                absent⟩
          · rw [refines.insert_present isMember equal]
            exact ⟨_, refines⟩
          · exact ⟨result, refines.insert consistent valid order
              newOrder sorted absent⟩
      | erase holds isMember returned =>
          obtain rfl := holds.unique refines.valid.holds
          obtain ⟨result, valid, order⟩ :=
            (ensures_rbErase_valid refines.valid isMember).of_returns
              returned
          exact ⟨result, refines.erase consistent isMember valid order⟩
      | replace holds isVictim allocated fresh equal returned =>
          obtain rfl := holds.unique refines.valid.holds
          have replaced :=
            (ensures_rbReplaceNode refines.valid.holds isVictim allocated
              fresh).of_returns returned
          exact ⟨_, refines.replace consistent isVictim equal replaced⟩

/--
After every run the tree is a valid red-black tree that holds exactly the
entries of the map.  `rb_find` returns the structure that the map has for the
key, or `NULL` if it has none; `rb_insert` leaves the state unchanged if the
key has an entry and otherwise adds the node; `rb_erase` removes the node;
`rb_replace_node` substitutes the victim and keeps shape and colours.
-/
theorem mapRun_behaves_as_map
    (consistent : ThreeWay cmp)
    {reached : MapState κ}
    (run : MapRun member cmp reached) :
    ∃ tree,
      reached.tree.Valid tree ∧
        (∀ value node,
          reached.map value = some node ↔
            node ∈ tree.inorder ∧
              cmp (entryKey member reached.key node) value = 0) ∧
        (∀ value,
          (rbFind member reached.key cmp value).Ensures reached.tree
            fun found after =>
              after = reached.tree ∧
                found =
                  match reached.map value with
                  | some node => rbEntry member node
                  | none => null) ∧
        (∀ item,
          reached.tree.Allocated item →
          item ∉ tree.inorder →
          (rbInsert member reached.key cmp item).Ensures reached.tree
            fun _ after =>
              match reached.map (entryKey member reached.key item) with
              | some _ => after = reached.tree
              | none =>
                  ∃ result,
                    after.Valid result ∧
                      result.inorder.Perm (item :: tree.inorder)) ∧
        (∀ node ∈ tree.inorder,
          (rbErase node).Ensures reached.tree fun _ after =>
            ∃ result,
              after.Valid result ∧
                result.inorder = tree.inorder.erase node) ∧
        ∀ victim ∈ tree.inorder,
          ∀ new,
            reached.tree.Allocated new →
            new ∉ tree.inorder →
            (rbReplaceNode victim new).Ensures reached.tree
              fun _ after =>
                after.Valid
                  (tree.readdress (substitute victim new)) := by
  obtain ⟨tree, refines⟩ := run.exists_refines consistent
  refine ⟨tree, refines.valid, refines.lookup, ?_, ?_, ?_, ?_⟩
  · intro value
    refine (ensures_rbFind consistent refines.valid.holds refines.sorted
      value).weaken ?_
    rintro found _ ⟨rfl, ⟨node, isMember, equal, rfl⟩ |
      ⟨absent, rfl⟩⟩
    · simp [(refines.lookup value node).mpr ⟨isMember, equal⟩]
    · simp [refines.map_eq_none_iff.mpr absent]
  · intro item allocated fresh
    refine (ensures_rbInsert consistent refines.valid refines.sorted
      allocated fresh).weaken ?_
    rintro _ after (⟨rfl, node, isMember, equal⟩ |
      ⟨result, before, later, valid, order, newOrder, -, absent⟩)
    · simp [(refines.lookup _ node).mpr ⟨isMember, equal⟩]
    · rw [refines.map_eq_none_iff.mpr absent]
      refine ⟨result, valid, ?_⟩
      rw [newOrder, order]
      exact List.perm_middle
  · intro node isMember
    exact ensures_rbErase_valid refines.valid isMember
  · intro victim isVictim new allocated fresh
    refine (ensures_rbReplaceNode refines.valid.holds isVictim allocated
      fresh).weaken ?_
    intro _ after holds
    exact ⟨holds, Tree.redBlack_readdress.mpr refines.valid.redBlack⟩

/-- A node whose key has another entry, or none, is not in the tree. -/
theorem MapState.Refines.notMem
    (consistent : ThreeWay cmp)
    {item : Word}
    (refines : (⟨state, key, map⟩ : MapState κ).Refines member cmp tree)
    (fresh : map (entryKey member key item) ≠ some item) :
    item ∉ tree.inorder := by
  intro isMember
  exact fresh ((refines.lookup _ item).mpr
    ⟨isMember, consistent.equivalence.refl _⟩)

/-- An insertion leads to the next state of a run. -/
theorem MapRun.insert
    (consistent : ThreeWay cmp)
    {item : Word}
    (run : MapRun member cmp ⟨state, key, map⟩)
    (allocated : state.Allocated item)
    (fresh : map (entryKey member key item) ≠ some item)
    (returned : (rbInsert member key cmp item).Returns state () after) :
    MapRun member cmp
      ⟨after, key, map.insert cmp (entryKey member key item) item⟩ := by
  obtain ⟨tree, refines⟩ := run.exists_refines consistent
  exact .step run
    (.insert refines.valid.holds allocated
      (refines.notMem consistent fresh) returned)

/-- A deletion leads to the next state of a run. -/
theorem MapRun.erase
    (consistent : ThreeWay cmp)
    {value : κ}
    {node : Word}
    (run : MapRun member cmp ⟨state, key, map⟩)
    (entry : map value = some node)
    (returned : (rbErase node).Returns state () after) :
    MapRun member cmp
      ⟨after, key, map.assign cmp (entryKey member key node) none⟩ := by
  obtain ⟨tree, refines⟩ := run.exists_refines consistent
  exact .step run
    (.erase refines.valid.holds ((refines.lookup value node).mp entry).1
      returned)

end Refinement

section Samples

/-- Five nodes outside of any tree. -/
def looseState : RbState :=
  .ofList
    [(8, ⟨0, 0, 0⟩), (16, ⟨0, 0, 0⟩), (24, ⟨0, 0, 0⟩), (32, ⟨0, 0, 0⟩),
      (40, ⟨0, 0, 0⟩)]
    0 (by decide)

/-- The structures at 16 and at 40 have the same key. -/
def looseKey (entry : Word) : Int :=
  if entry = 40 then 16 else entry.toNat

/-- The difference of two keys. -/
def looseCmp (first second : Int) : Int :=
  first - second

/-- Whether a node occupies memory. -/
def isAllocated (node : Word) : Program RbState Bool :=
  reads fun state => some (state.view.cell node).isSome

/--
Five insertions, one of them of a present key, and a deletion.  The answers are
the nodes that occupy memory when they are needed, and the tree at the end.
-/
def looseCalls :
    Program RbState (List Bool × Word × List (Option (Cell Word Color))) := do
  rbInsert 0 looseKey looseCmp 8
  let second ← isAllocated 16
  rbInsert 0 looseKey looseCmp 16
  let third ← isAllocated 24
  rbInsert 0 looseKey looseCmp 24
  let fourth ← isAllocated 40
  rbInsert 0 looseKey looseCmp 40
  let fifth ← isAllocated 32
  rbInsert 0 looseKey looseCmp 32
  rbErase 24
  let erased ← isAllocated 24
  let present ← isAllocated 40
  let root ← getRoot
  let cells ← reads fun state => some ([16, 32, 8].map state.view.cell)
  pure ([second, third, fourth, fifth, erased, present], root, cells)

/-- The tree after these calls. -/
def looseTree : Tree Word Color :=
  .node (.node .nil 32 .black .nil) 16 .black (.node .nil 8 .black .nil)

/-- The entries of the tree after these calls. -/
def looseMap : KeyMap Int :=
  KeyMap.assign looseCmp
    (KeyMap.insert looseCmp
      (KeyMap.insert looseCmp
        (KeyMap.insert looseCmp
          (KeyMap.insert looseCmp
            (KeyMap.insert looseCmp KeyMap.empty 8 8) 16 16) 24 24)
        16 40) 32 32)
    24 none

/-- The calls are a run. -/
theorem exists_looseRun :
    ∃ state,
      MapRun 0 looseCmp ⟨state, looseKey, looseMap⟩ ∧
        state.Holds looseTree ∧
        state.Allocated 24 ∧
        state.Allocated 40 := by
  have consistent : ThreeWay looseCmp := threeWay_sub
  have returns :
      looseCalls.Ensures looseState fun answers _ =>
        answers =
          ([true, true, true, true, true, true], 16,
            [some ⟨0, 32, 8, .black⟩, some ⟨16, 0, 0, .black⟩,
              some ⟨16, 0, 0, .black⟩]) :=
    .of_exec 9 (by decide)
  simp only [looseCalls, isAllocated, ensures_bind, ensures_reads,
    ensures_getRoot, ensures_pure, Option.some.injEq, exists_eq_left',
    List.map_cons, List.map_nil, Prod.mk.injEq, List.cons.injEq,
    Option.isSome_iff_exists, and_true] at returns
  obtain ⟨_, one, ranOne, _, two, ranTwo, _, three, ranThree,
    _, four, ranFour, _, five, ranFive, _, six, ranSix,
    ⟨second, third, fourth, fifth, erased, present⟩,
    root, top, left, right⟩ := returns
  have run :
      MapRun 0 looseCmp ⟨looseState, looseKey, KeyMap.empty⟩ :=
    .start rfl
  have first :=
    run.insert consistent ⟨⟨0, 0, 0, .red⟩, by decide⟩ (by decide) ranOne
  have runTwo := first.insert consistent second (by decide) ranTwo
  have runThree := runTwo.insert consistent third (by decide) ranThree
  have runFour := runThree.insert consistent fourth (by decide) ranFour
  have runFive := runFour.insert consistent fifth (by decide) ranFive
  have isEntry :
      KeyMap.insert looseCmp
        (KeyMap.insert looseCmp
          (KeyMap.insert looseCmp
            (KeyMap.insert looseCmp
              (KeyMap.insert looseCmp KeyMap.empty 8 8) 16 16) 24 24)
          16 40) 32 32 24 = some 24 := by
    decide
  have holds : six.Holds looseTree :=
    { represents := ⟨top, ⟨left, trivial, trivial⟩, right, trivial, trivial⟩
      rooted := root
      distinct := by decide }
  exact ⟨six, runFive.erase consistent isEntry ranSix, holds, erased,
    present⟩

/--
In the tree that the run has built, keys are found or not, a present key is not
inserted again, and a node is inserted, erased, and replaced.
-/
theorem mapRun_behaves_as_map_after_insert :
    ∃ state,
      MapRun 0 looseCmp ⟨state, looseKey, looseMap⟩ ∧
        state.Valid looseTree ∧
        (rbFind 0 looseKey looseCmp 16).Ensures state
          (fun found after => after = state ∧ found = 16) ∧
        (rbFind 0 looseKey looseCmp 24).Ensures state
          (fun found after => after = state ∧ found = null) ∧
        (rbInsert 0 looseKey looseCmp 40).Ensures state
          (fun _ after => after = state) ∧
        (rbInsert 0 looseKey looseCmp 24).Ensures state
          (fun _ after =>
            ∃ result,
              after.Valid result ∧ result.inorder.Perm [24, 32, 16, 8]) ∧
        (rbErase 16).Ensures state
          (fun _ after =>
            ∃ result, after.Valid result ∧ result.inorder = [32, 8]) ∧
        (rbReplaceNode 16 40).Ensures state fun _ after =>
          after.Valid
            (.node (.node .nil 32 .black .nil) 40 .black
              (.node .nil 8 .black .nil)) := by
  obtain ⟨state, run, holds, isFree, isTwin⟩ := exists_looseRun
  obtain ⟨tree, valid, -, finds, inserts, erases, replaces⟩ :=
    mapRun_behaves_as_map (threeWay_sub : ThreeWay looseCmp) run
  obtain rfl := valid.holds.unique holds
  have isMember : 16 ∈ looseTree.inorder := by
    decide
  have freshFree : 24 ∉ looseTree.inorder := by
    decide
  have freshTwin : 40 ∉ looseTree.inorder := by
    decide
  exact ⟨state, run, valid, finds 16, finds 24,
    inserts 40 isTwin freshTwin, inserts 24 isFree freshFree,
    erases 16 isMember, replaces 16 isMember 40 isTwin freshTwin⟩

end Samples

end LibKern.RbTree
