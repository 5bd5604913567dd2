import LibKern.RbTreeFrame

namespace LibKern.RbTree

/-!
# Deletion by key

`rb_find` returns the structure that embeds a node, and `rb_delete` passes it to
`rb_erase` as if it were the node.  The two have the same address exactly if the
node is the first member of the structure.
-/

open Program

/-- Another memory has the same root pointer and the same nodes of the tree. -/
structure RbState.Shares
    (other state : RbState)
    (tree : Tree Word Color) : Prop where
  sameRoot : other.rbNode = state.rbNode
  sameNodes :
    ∀ node ∈ tree.inorder,
      other.nodes.cell node = state.nodes.cell node

/--
`rb_delete` erases the node with an equal key, if there is one, whatever lies
around the nodes of the tree: it does what `rb_erase` does at the address of
this node, the tree loses the node and no other, and nothing changes if there
is no such node.
-/
structure Deletes
    {κ : Type}
    (member : Word)
    (key : Word → κ)
    (cmp : κ → κ → Int)
    (state : RbState)
    (tree : Tree Word Color)
    (value : κ) : Prop where
  erases :
    ∀ other : RbState,
      other.Shares state tree →
        ∀ node ∈ tree.inorder,
          cmp (entryKey member key node) value = 0 →
            ∀ post,
              (rbDelete member key cmp value).Ensures other post ↔
                (rbErase node).Ensures other post
  loses :
    ∀ other : RbState,
      other.Shares state tree →
        (rbDelete member key cmp value).Ensures other fun _ after =>
          (∃ result,
            after.Valid result ∧
              Sorted member key cmp result.inorder ∧
              ∀ node ∈ tree.inorder,
                cmp (entryKey member key node) value = 0 →
                  result.inorder = tree.inorder.erase node) ∧
            ((∀ node ∈ tree.inorder,
                cmp (entryKey member key node) value ≠ 0) →
              after = other)

section Delete

variable {κ : Type} {member : Word} {key : Word → κ} {cmp : κ → κ → Int}
variable {state other : RbState}
variable {tree : Tree Word Color}
variable {value : κ}

/-- The other memory holds the same tree. -/
theorem RbState.Shares.valid
    (shares : other.Shares state tree)
    (valid : state.Valid tree) :
    other.Valid tree where
  holds := valid.holds.elsewhere shares.sameRoot shares.sameNodes
  redBlack := valid.redBlack

/-- The nodes of the tree alone, without the memory around them. -/
theorem RbState.shares_restrict
    (state : RbState)
    (tree : Tree Word Color) :
    (state.restrict (· ∈ tree.inorder)).Shares state tree where
  sameRoot := rfl
  sameNodes := by
    intro node isMember
    simp [RbState.restrict, Memory.restrict, isMember]

/-- `rb_erase` reads the node that it is called with. -/
theorem mapped_of_ensures_rbErase
    {node : Word}
    {post : Unit → RbState → Prop}
    (erases : (rbErase node).Ensures state post) :
    state.nodes.cell node ≠ none := by
  rw [rbErase, ensures_bind, getChild, ensures_bind, load,
    ensures_reads] at erases
  obtain ⟨content, mapped, -⟩ := erases
  simp [mapped]

/-- If no key matches, `rb_delete` calls nothing. -/
theorem ensures_rbDelete_of_absent
    (consistent : ThreeWay cmp)
    (holds : state.Holds tree)
    (sorted : Sorted member key cmp tree.inorder)
    (absent :
      ∀ node ∈ tree.inorder,
        cmp (entryKey member key node) value ≠ 0) :
    (rbDelete member key cmp value).Ensures state fun _ after =>
      after = state := by
  rw [rbDelete, ensures_bind]
  refine (ensures_rbFind consistent holds sorted value).weaken ?_
  intro found after result
  obtain ⟨rfl, ⟨node, isMember, equal, -⟩ | ⟨-, isNull⟩⟩ := result
  · exact absurd equal (absent node isMember)
  · rw [ensures_onlyIf_of_not (not_not.mpr isNull)]

/-- Otherwise it calls `rb_erase` with the address of the structure. -/
theorem ensures_rbDelete_iff
    (consistent : ThreeWay cmp)
    (holds : state.Holds tree)
    (sorted : Sorted member key cmp tree.inorder)
    {node : Word}
    (isMember : node ∈ tree.inorder)
    (equal : cmp (entryKey member key node) value = 0)
    {post : Unit → RbState → Prop} :
    (rbDelete member key cmp value).Ensures state post ↔
      (onlyIf (rbEntry member node ≠ null)
        (rbErase (rbEntry member node))).Ensures state post := by
  have finds :
      (rbFind member key cmp value).Ensures state fun found after =>
        found = rbEntry member node ∧ after = state := by
    refine (ensures_rbFind consistent holds sorted value).weaken ?_
    intro found after result
    obtain ⟨rfl, ⟨other, isOther, otherEqual, rfl⟩ | ⟨absent, -⟩⟩ :=
      result
    · have same : other = node :=
        sorted.eq_of_zero consistent isOther isMember
          (consistent.equivalence.trans otherEqual
            (consistent.equivalence.symm equal))
      exact ⟨by rw [same], rfl⟩
    · exact absurd equal (absent node isMember)
  obtain ⟨_, _, returned, rfl, rfl⟩ := finds
  rw [rbDelete, ensures_bind, returned.ensures_iff]

/-- If no key matches, `rb_delete` changes nothing. -/
theorem deletes_of_absent
    (consistent : ThreeWay cmp)
    (valid : state.Valid tree)
    (sorted : Sorted member key cmp tree.inorder)
    (absent :
      ∀ node ∈ tree.inorder,
        cmp (entryKey member key node) value ≠ 0) :
    Deletes member key cmp state tree value where
  erases := by
    intro other _ node isMember equal
    exact absurd equal (absent node isMember)
  loses := by
    intro other shares
    have otherValid := shares.valid valid
    refine (ensures_rbDelete_of_absent consistent otherValid.holds
      sorted absent).weaken ?_
    rintro _ _ rfl
    refine ⟨⟨tree, otherValid, sorted, ?_⟩, fun _ => rfl⟩
    intro node isMember equal
    exact absurd equal (absent node isMember)

/-- If the node is the first member, `rb_delete` does what `rb_erase` does. -/
theorem ensures_rbDelete_zero_iff
    (consistent : ThreeWay cmp)
    (holds : state.Holds tree)
    (sorted : Sorted 0 key cmp tree.inorder)
    {node : Word}
    (isMember : node ∈ tree.inorder)
    (equal : cmp (entryKey 0 key node) value = 0)
    {post : Unit → RbState → Prop} :
    (rbDelete 0 key cmp value).Ensures state post ↔
      (rbErase node).Ensures state post := by
  have notNull : node ≠ null := by
    rintro rfl
    exact holds.represents.null_notMem isMember
  have entry : rbEntry 0 node = node := BitVec.sub_zero node
  rw [ensures_rbDelete_iff consistent holds sorted isMember equal,
    entry, ensures_onlyIf_of notNull]

/-- The tree then loses this node. -/
theorem ensures_rbDelete_zero
    (consistent : ThreeWay cmp)
    (valid : state.Valid tree)
    (sorted : Sorted 0 key cmp tree.inorder)
    {node : Word}
    (isMember : node ∈ tree.inorder)
    (equal : cmp (entryKey 0 key node) value = 0) :
    (rbDelete 0 key cmp value).Ensures state fun _ after =>
      ∃ result,
        after.Valid result ∧
          Sorted 0 key cmp result.inorder ∧
          result.inorder = tree.inorder.erase node := by
  rw [ensures_rbDelete_zero_iff consistent valid.holds sorted isMember
    equal]
  refine (ensures_rbErase_valid valid isMember).weaken ?_
  rintro _ after ⟨result, resultValid, order⟩
  refine ⟨result, resultValid, ?_, order⟩
  rw [order]
  exact sorted.sublist List.erase_sublist

theorem deletes_of_zero
    (consistent : ThreeWay cmp)
    (valid : state.Valid tree)
    (sorted : Sorted 0 key cmp tree.inorder)
    {node : Word}
    (isMember : node ∈ tree.inorder)
    (equal : cmp (entryKey 0 key node) value = 0) :
    Deletes 0 key cmp state tree value where
  erases := by
    intro other shares twin isTwin twinEqual post
    exact ensures_rbDelete_zero_iff consistent
      (shares.valid valid).holds sorted isTwin twinEqual
  loses := by
    intro other shares
    refine (ensures_rbDelete_zero consistent (shares.valid valid) sorted
      isMember equal).weaken ?_
    rintro _ after ⟨result, resultValid, resultSorted, order⟩
    refine ⟨⟨result, resultValid, resultSorted, ?_⟩, ?_⟩
    · intro twin isTwin twinEqual
      have same : twin = node :=
        sorted.eq_of_zero consistent isTwin isMember
          (consistent.equivalence.trans twinEqual
            (consistent.equivalence.symm equal))
      rw [same]
      exact order
    · intro absent
      exact absurd equal (absent node isMember)

/--
Otherwise `rb_erase` is called with an address that is not the node: where the
memory ends with the nodes of the tree, it fails or takes out another node, or
it is not called at all.
-/
theorem not_deletes
    (consistent : ThreeWay cmp)
    (valid : state.Valid tree)
    (sorted : Sorted member key cmp tree.inorder)
    (shifted : member ≠ 0)
    {node : Word}
    (isMember : node ∈ tree.inorder)
    (equal : cmp (entryKey member key node) value = 0) :
    ¬Deletes member key cmp state tree value := by
  intro deletes
  have shares := state.shares_restrict tree
  have otherValid := shares.valid valid
  have lost := deletes.loses _ shares
  rw [ensures_rbDelete_iff consistent otherValid.holds sorted isMember
    equal] at lost
  have entryNe : rbEntry member node ≠ node := by
    intro isEntry
    have isSum := BitVec.sub_eq_iff_eq_add.mp isEntry
    exact shifted (BitVec.self_eq_add_right.mp isSum)
  have distinct := valid.holds.distinct
  by_cases isNull : rbEntry member node = null
  · rw [ensures_onlyIf_of_not (not_not.mpr isNull)] at lost
    obtain ⟨⟨result, resultValid, -, loses⟩, -⟩ := lost
    obtain rfl := resultValid.holds.unique otherValid.holds
    have order := loses node isMember equal
    rw [order] at isMember
    exact distinct.not_mem_erase isMember
  · rw [ensures_onlyIf_of isNull] at lost
    have entryMember : rbEntry member node ∈ tree.inorder := by
      by_contra outside
      refine mapped_of_ensures_rbErase lost ?_
      simp [RbState.restrict, Memory.restrict, outside]
    obtain ⟨_, after, returned, ⟨result, resultValid, -, loses⟩, -⟩ :=
      lost
    obtain ⟨other, afterValid, order⟩ :=
      (ensures_rbErase_valid otherValid entryMember).of_returns returned
    obtain rfl := resultValid.holds.unique afterValid.holds
    rw [loses node isMember equal] at order
    have kept : rbEntry member node ∈ tree.inorder.erase node :=
      (List.mem_erase_of_ne entryNe).mpr entryMember
    rw [order] at kept
    exact distinct.not_mem_erase kept

/--
In a sorted tree `rb_delete` erases the node with an equal key exactly if the
nodes are the first members of their structures or if there is no such node.
-/
theorem rb_delete_erases_iff
    (consistent : ThreeWay cmp)
    (valid : state.Valid tree)
    (sorted : Sorted member key cmp tree.inorder)
    (value : κ) :
    Deletes member key cmp state tree value ↔
      member = 0 ∨
        ∀ node ∈ tree.inorder,
          cmp (entryKey member key node) value ≠ 0 := by
  by_cases absent :
      ∀ node ∈ tree.inorder,
        cmp (entryKey member key node) value ≠ 0
  · exact iff_of_true (deletes_of_absent consistent valid sorted absent)
      (.inr absent)
  · rw [or_iff_left absent]
    simp only [not_forall, not_not, exists_prop] at absent
    obtain ⟨node, isMember, equal⟩ := absent
    constructor
    · intro deletes
      by_contra shifted
      exact not_deletes consistent valid sorted shifted isMember equal
        deletes
    · rintro rfl
      exact deletes_of_zero consistent valid sorted isMember equal

/-- The keys of the structures that embed the nodes of the sample tree. -/
def addressKey (entry : Word) : Int :=
  -(entry.toNat : Int)

/-- A node that is the first member of its structure is erased. -/
theorem rb_delete_erases_iff_of_sample :
    Deletes 0 addressKey (fun first second => first - second) sampleState
      sampleTree (-16) :=
  (rb_delete_erases_iff threeWay_sub sampleState_valid
    (by unfold Sorted; decide) (-16)).mpr (.inl rfl)

/-- Two nodes, and the beginning of the structure that embeds the root. -/
def embeddedState : RbState :=
  .ofList [(32, ⟨0, 0, 0⟩), (64, ⟨1, 128, 0⟩), (128, ⟨64, 0, 0⟩)] 64
    (by decide)

/-- The tree of the two nodes. -/
def embeddedTree : Tree Word Color :=
  .node .nil 64 .black (.node .nil 128 .red .nil)

theorem embeddedState_valid : embeddedState.Valid embeddedTree where
  holds :=
    { represents := by
        refine ⟨?_, trivial, ?_, trivial, trivial⟩ <;> decide
      rooted := rfl
      distinct := by decide }
  redBlack :=
    { rootBlack := rfl
      noRedRed := by
        simp [embeddedTree, Tree.NoRedRed]
      equalPaths := ⟨1, by decide⟩ }

/-- Deleting one of two nodes at the offset 32 loses both of them. -/
theorem rb_delete_loses_tree :
    embeddedState.Valid embeddedTree ∧
      Sorted 32 addressKey (fun first second => first - second)
        embeddedTree.inorder ∧
      ((rbDelete 32 addressKey (fun first second => first - second) (-32)
        >>= fun _ => getRoot).Ensures embeddedState
          fun root _ => root = null) ∧
      ¬Deletes 32 addressKey (fun first second => first - second)
        embeddedState embeddedTree (-32) := by
  have sorted :
      Sorted 32 addressKey (fun first second => first - second)
        embeddedTree.inorder := by
    unfold Sorted
    decide
  refine ⟨embeddedState_valid, sorted, .of_exec 2 (by decide), ?_⟩
  exact @not_deletes _ _ _ _ _ _ _ threeWay_sub embeddedState_valid sorted
    (by decide) 64 (by decide) (by decide)

end Delete

end LibKern.RbTree
