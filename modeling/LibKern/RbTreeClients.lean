import LibKern.Clients
import LibKern.RbTreeDelete

namespace LibKern.RbTree

/-!
# Clients of ordered maps

Any number of red-black trees share one memory, and a client calls the
functions and macros of `rbtree.h` on them, each call chosen by the answers so
far.  The specification keeps one sorted list of nodes for every tree.  No
client can tell the trees from these lists: a call on one tree affects no
other, and every answer is the answer of the specification.
-/

open Program

/-- Trees with their own root pointers in a common memory. -/
structure RbForest (ι : Type) where
  nodes : Memory Word RbNode
  rbNode : ι → Word
  aligned :
    ∀ {address : Word} {node : RbNode},
      nodes.cell address = some node → address &&& 7 = 0

section Forest

variable {ι α : Type} [DecidableEq ι]

/-- One of the trees. -/
def RbForest.tree (forest : RbForest ι) (name : ι) : RbState :=
  ⟨forest.nodes, forest.rbNode name, forest.aligned⟩

/-- The trees after one of them and the memory changed. -/
def RbForest.replace
    (name : ι)
    (after : RbState)
    (forest : RbForest ι) : RbForest ι :=
  ⟨after.nodes, Function.update forest.rbNode name after.rbNode,
    after.aligned⟩

/-- Apply an operation to one of the trees. -/
def inForest
    (name : ι)
    (program : Program RbState α) :
    Program (RbForest ι) α :=
  program.zoom (fun forest => forest.tree name) (RbForest.replace name)

/-- `RB_EMPTY_ROOT(root)`. -/
def rbEmptyRoot : Program RbState Bool := do
  let root ← getRoot
  pure (decide (root = null))

/-- What a client asks of one of its trees. -/
inductive MapRequest (κ : Type) where
  | emptyRoot
  | find (value : κ)
  | insert (item : Word)
  | delete (value : κ)
  | erase (node : Word)
  | replace (victim new : Word)
  | first
  | last
  | next (node : Word)
  | prev (node : Word)
  | forEach
  | forEachPrev
  | purge (selected : Word → Bool)

/-- What a client learns from a call. -/
inductive MapAnswer where
  | nothing
  | truth (value : Bool)
  | pointer (address : Word)
  | nodes (visited : List Word)
  deriving Repr, DecidableEq

variable {κ : Type} (member : Word) (key : Word → κ) (cmp : κ → κ → Int)

/-- Report the result of a program. -/
def reporting
    {σ β : Type}
    (answer : α → β)
    (program : Program σ α) :
    Program σ β := do
  let value ← program
  pure (answer value)

/-- The statements behind a request. -/
def MapRequest.program : MapRequest κ → Program RbState MapAnswer
  | .emptyRoot => reporting .truth rbEmptyRoot
  | .find value => reporting .pointer (rbFind member key cmp value)
  | .insert item =>
      reporting (fun _ => .nothing) (rbInsert member key cmp item)
  | .delete value =>
      reporting (fun _ => .nothing) (rbDelete member key cmp value)
  | .erase node => reporting (fun _ => .nothing) (rbErase node)
  | .replace victim new =>
      reporting (fun _ => .nothing) (rbReplaceNode victim new)
  | .first => reporting .pointer rbFirst
  | .last => reporting .pointer rbLast
  | .next node => reporting .pointer (rbNext node)
  | .prev node => reporting .pointer (rbPrev node)
  | .forEach =>
      reporting .nodes
        (rbForEach (fun visited pos => pure (visited ++ [pos])) [])
  | .forEachPrev =>
      reporting .nodes
        (rbForEachPrev (fun visited pos => pure (visited ++ [pos])) [])
  | .purge selected =>
      reporting .nodes (rbForEachSafe (eraseBody selected) [])

/-- The node of a listing with an equal key. -/
def lookup (value : κ) (items : List Word) : Option Word :=
  items.find? fun node => cmp (entryKey member key node) value = 0

/-- Put a node at the place of its key. -/
def place (item : Word) (items : List Word) : List Word :=
  (items.takeWhile fun node =>
      0 < cmp (entryKey member key node) (entryKey member key item)) ++
    item ::
      items.dropWhile fun node =>
        0 < cmp (entryKey member key node) (entryKey member key item)

/-- The element after another one. -/
def following (node : Word) (items : List Word) : Word :=
  (items.dropWhile (· ≠ node)).tail.headD null

/-- What a request should answer and do to a sorted list of nodes. -/
def MapRequest.specification
    (items : List Word) : MapRequest κ → MapAnswer × List Word
  | .emptyRoot => (.truth items.isEmpty, items)
  | .find value =>
      (.pointer
        (match lookup member key cmp value items with
          | some node => rbEntry member node
          | none => null),
        items)
  | .insert item =>
      (.nothing,
        match lookup member key cmp (entryKey member key item) items with
        | some _ => items
        | none => place member key cmp item items)
  | .delete value =>
      (.nothing,
        match lookup member key cmp value items with
        | some node => items.erase node
        | none => items)
  | .erase node => (.nothing, items.erase node)
  | .replace victim new => (.nothing, items.map (substitute victim new))
  | .first => (.pointer (items.headD null), items)
  | .last => (.pointer (items.reverse.headD null), items)
  | .next node => (.pointer (following node items), items)
  | .prev node => (.pointer (following node items.reverse), items)
  | .forEach => (.nodes items, items)
  | .forEachPrev => (.nodes items.reverse, items)
  | .purge selected =>
      (.nodes items, items.filter fun node => !selected node)

/-- The new node of a request. -/
def MapRequest.fresh : MapRequest κ → Option Word
  | .insert item => some item
  | .replace _ new => some new
  | _ => none

/--
What a client promises about the tree it calls: named nodes are in the tree, a
replacement has an equal key, and `rb_delete` is called only for structures
that begin with their node or for a key that is not there.
-/
def MapRequest.Legal (items : List Word) : MapRequest κ → Prop
  | .delete value =>
      member = 0 ∨ lookup member key cmp value items = none
  | .erase node => node ∈ items
  | .replace victim new =>
      victim ∈ items ∧
        cmp (entryKey member key victim) (entryKey member key new) = 0
  | .next node => node ∈ items
  | .prev node => node ∈ items
  | _ => True

end Forest

section Listings

variable {κ : Type} {member : Word} {key : Word → κ} {cmp : κ → κ → Int}
variable {items : List Word}
variable {node : Word}
variable {value : κ}

theorem lookup_eq_none_iff :
    lookup member key cmp value items = none ↔
      ∀ node ∈ items, cmp (entryKey member key node) value ≠ 0 := by
  simp [lookup]

theorem lookup_of_mem
    (consistent : ThreeWay cmp)
    (sorted : Sorted member key cmp items)
    (isMember : node ∈ items)
    (equal : cmp (entryKey member key node) value = 0) :
    lookup member key cmp value items = some node := by
  cases found : lookup member key cmp value items with
  | none =>
      exact absurd equal (lookup_eq_none_iff.mp found node isMember)
  | some other =>
      have isOther : other ∈ items := List.mem_of_find?_eq_some found
      have otherEqual : cmp (entryKey member key other) value = 0 := by
        simpa using List.find?_some found
      rw [sorted.eq_of_zero consistent isOther isMember
        (consistent.equivalence.trans otherEqual
          (consistent.equivalence.symm equal))]

/-- A node is placed between the smaller and the larger keys. -/
theorem place_eq
    {item : Word}
    {before later : List Word}
    (consistent : ThreeWay cmp)
    (sorted : Sorted member key cmp (before ++ item :: later)) :
    place member key cmp item (before ++ later) =
      before ++ item :: later := by
  obtain ⟨-, earlier, after⟩ := sorted_middle.mp sorted
  have passes :
      ∀ other ∈ before,
        decide (0 < cmp (entryKey member key other)
          (entryKey member key item)) = true := by
    intro other isBefore
    exact decide_eq_true (earlier other isBefore)
  have stops :
      ∀ other ∈ later,
        ¬0 < cmp (entryKey member key other)
          (entryKey member key item) := by
    intro other isLater
    have below := (consistent.antisymm _ _).mpr (after other isLater)
    omega
  rw [place, List.takeWhile_append_of_pos passes,
    List.dropWhile_append_of_pos passes]
  cases later with
  | nil =>
      simp
  | cons other rest =>
      have stop := stops other List.mem_cons_self
      simp [stop]

theorem following_eq
    {earlier later : List Word}
    (absent : node ∉ earlier) :
    following node (earlier ++ node :: later) = later.headD null := by
  have passes :
      ∀ other ∈ earlier, decide (other ≠ node) = true := by
    intro other isEarlier
    exact decide_eq_true (ne_of_mem_of_not_mem isEarlier absent)
  rw [following, List.dropWhile_append_of_pos passes]
  simp

end Listings

section Requests

variable {κ : Type} {member : Word} {key : Word → κ} {cmp : κ → κ → Int}
variable {state : RbState}
variable {tree : Tree Word Color}

/-- A valid tree that lists the nodes in the order of their keys. -/
structure RbState.Maps
    (member : Word)
    (key : Word → κ)
    (cmp : κ → κ → Int)
    (state : RbState)
    (items : List Word) : Prop where
  exists_tree : ∃ tree, state.Valid tree ∧ tree.inorder = items
  sorted : Sorted member key cmp items

/-- What a request has to achieve on one tree. -/
def Serves
    (member : Word)
    (key : Word → κ)
    (cmp : κ → κ → Int)
    (state : RbState)
    (items : List Word)
    (request : MapRequest κ) : Prop :=
  (request.program member key cmp).Ensures state fun answer after =>
    answer = (request.specification member key cmp items).1 ∧
      after.Maps member key cmp
        (request.specification member key cmp items).2

theorem ensures_reporting
    {α β σ : Type}
    {answer : α → β}
    {program : Program σ α}
    {before : σ}
    {post : β → σ → Prop} :
    (reporting answer program).Ensures before post ↔
      program.Ensures before fun value after =>
        post (answer value) after := by
  simp [reporting]

theorem serves_emptyRoot
    (valid : state.Valid tree)
    (sorted : Sorted member key cmp tree.inorder) :
    Serves member key cmp state tree.inorder .emptyRoot := by
  rw [Serves, MapRequest.program, ensures_reporting]
  simp only [rbEmptyRoot, ensures_bind, ensures_getRoot, ensures_pure,
    MapRequest.specification]
  refine ⟨congrArg MapAnswer.truth ?_, ⟨tree, valid, rfl⟩, sorted⟩
  rw [valid.holds.rooted]
  cases tree with
  | nil =>
      rfl
  | node left address tag right =>
      have present : address ≠ null :=
        Memory.ne_null valid.holds.represents.1
      simp [present]

theorem serves_find
    (consistent : ThreeWay cmp)
    (valid : state.Valid tree)
    (sorted : Sorted member key cmp tree.inorder)
    (value : κ) :
    Serves member key cmp state tree.inorder (.find value) := by
  rw [Serves, MapRequest.program, ensures_reporting]
  refine (ensures_rbFind consistent valid.holds sorted value).weaken ?_
  intro found after result
  obtain ⟨rfl, outcome⟩ := result
  refine ⟨?_, ⟨tree, valid, rfl⟩, sorted⟩
  rcases outcome with ⟨node, isMember, equal, rfl⟩ | ⟨absent, rfl⟩
  · simp only [MapRequest.specification,
      lookup_of_mem consistent sorted isMember equal]
  · simp only [MapRequest.specification, lookup_eq_none_iff.mpr absent]

theorem serves_insert
    (consistent : ThreeWay cmp)
    (valid : state.Valid tree)
    (sorted : Sorted member key cmp tree.inorder)
    {item : Word}
    (allocated : state.Allocated item)
    (fresh : item ∉ tree.inorder) :
    Serves member key cmp state tree.inorder (.insert item) := by
  rw [Serves, MapRequest.program, ensures_reporting]
  refine (ensures_rbInsert consistent valid sorted allocated
    fresh).weaken ?_
  intro _ after outcome
  refine ⟨rfl, ?_⟩
  rcases outcome with ⟨rfl, node, isMember, equal⟩ |
    ⟨result, before, later, afterValid, order, newOrder, newSorted,
      absent⟩
  · simp only [MapRequest.specification,
      lookup_of_mem consistent sorted isMember equal]
    exact ⟨⟨tree, valid, rfl⟩, sorted⟩
  · simp only [MapRequest.specification, lookup_eq_none_iff.mpr absent]
    rw [newOrder] at newSorted
    rw [order, place_eq consistent newSorted]
    exact ⟨⟨result, afterValid, newOrder⟩, newSorted⟩

theorem serves_delete
    (consistent : ThreeWay cmp)
    (valid : state.Valid tree)
    (sorted : Sorted member key cmp tree.inorder)
    {value : κ}
    (deletable :
      member = 0 ∨
        lookup member key cmp value tree.inorder = none) :
    Serves member key cmp state tree.inorder (.delete value) := by
  rw [Serves, MapRequest.program, ensures_reporting]
  cases found : lookup member key cmp value tree.inorder with
  | none =>
      have absent := lookup_eq_none_iff.mp found
      refine (ensures_rbDelete_of_absent consistent valid.holds sorted
        absent).weaken ?_
      rintro _ _ rfl
      simp only [MapRequest.specification, found]
      exact ⟨trivial, ⟨tree, valid, rfl⟩, sorted⟩
  | some node =>
      obtain rfl : member = 0 := by
        simpa [found] using deletable
      have isMember : node ∈ tree.inorder :=
        List.mem_of_find?_eq_some found
      have equal : cmp (entryKey 0 key node) value = 0 := by
        simpa using List.find?_some found
      refine (ensures_rbDelete_zero consistent valid sorted isMember
        equal).weaken ?_
      rintro _ after ⟨remaining, afterValid, afterSorted, order⟩
      simp only [MapRequest.specification, found]
      rw [← order]
      exact ⟨trivial, ⟨remaining, afterValid, rfl⟩, afterSorted⟩

theorem serves_erase
    (valid : state.Valid tree)
    (sorted : Sorted member key cmp tree.inorder)
    {node : Word}
    (isMember : node ∈ tree.inorder) :
    Serves member key cmp state tree.inorder (.erase node) := by
  rw [Serves, MapRequest.program, ensures_reporting]
  refine (ensures_rbErase_valid valid isMember).weaken ?_
  intro _ after erased
  obtain ⟨result, afterValid, order⟩ := erased
  exact ⟨rfl, ⟨result, afterValid, order⟩,
    sorted.sublist List.erase_sublist⟩

theorem serves_replace
    (consistent : ThreeWay cmp)
    (valid : state.Valid tree)
    (sorted : Sorted member key cmp tree.inorder)
    {victim new : Word}
    (isVictim : victim ∈ tree.inorder)
    (equal :
      cmp (entryKey member key victim) (entryKey member key new) = 0)
    (allocated : state.Allocated new)
    (fresh : new ∉ tree.inorder) :
    Serves member key cmp state tree.inorder (.replace victim new) := by
  rw [Serves, MapRequest.program, ensures_reporting]
  refine (ensures_rbReplaceNode valid.holds isVictim allocated
    fresh).weaken ?_
  intro _ after holds
  refine ⟨rfl, ⟨_, ⟨holds, ?_⟩, Tree.inorder_readdress _ _⟩,
    sorted.substitute consistent equal⟩
  exact Tree.redBlack_readdress.mpr valid.redBlack

theorem serves_edges
    (valid : state.Valid tree)
    (sorted : Sorted member key cmp tree.inorder) :
    Serves member key cmp state tree.inorder .first ∧
      Serves member key cmp state tree.inorder .last := by
  simp only [Serves, MapRequest.program, ensures_reporting]
  constructor
  · refine (ensures_rbEdge .right valid.holds).weaken ?_
    intro value after result
    obtain ⟨rfl, rfl⟩ := result
    exact ⟨rfl, ⟨tree, valid, rfl⟩, sorted⟩
  · refine (ensures_rbEdge .left valid.holds).weaken ?_
    intro value after result
    obtain ⟨rfl, rfl⟩ := result
    exact ⟨rfl, ⟨tree, valid, rfl⟩, sorted⟩

theorem serves_neighbours
    (valid : state.Valid tree)
    (sorted : Sorted member key cmp tree.inorder)
    {node : Word}
    (isMember : node ∈ tree.inorder) :
    Serves member key cmp state tree.inorder (.next node) ∧
      Serves member key cmp state tree.inorder (.prev node) := by
  obtain ⟨earlier, later, order⟩ := List.append_of_mem isMember
  have distinct := valid.holds.distinct
  rw [order, List.nodup_middle, List.nodup_cons, List.mem_append,
    not_or] at distinct
  have reversed :
      tree.inorder.reverse =
        later.reverse ++ node :: earlier.reverse := by
    simp [order]
  have absent : node ∉ later.reverse := by
    simpa using distinct.1.2
  simp only [Serves, MapRequest.program, ensures_reporting]
  constructor
  · have along : tree.along .right = earlier ++ node :: later := order
    refine (ensures_rbNeighbour_along valid.holds along).weaken ?_
    intro value after result
    obtain ⟨rfl, rfl⟩ := result
    refine ⟨?_, ⟨tree, valid, rfl⟩, sorted⟩
    rw [MapRequest.specification, order, following_eq distinct.1.1]
  · have along :
        tree.along .left = later.reverse ++ node :: earlier.reverse :=
      reversed
    refine (ensures_rbNeighbour_along valid.holds along).weaken ?_
    intro value after result
    obtain ⟨rfl, rfl⟩ := result
    refine ⟨?_, ⟨tree, valid, rfl⟩, sorted⟩
    rw [MapRequest.specification, reversed, following_eq absent]

theorem serves_loops
    (valid : state.Valid tree)
    (sorted : Sorted member key cmp tree.inorder) :
    Serves member key cmp state tree.inorder .forEach ∧
      Serves member key cmp state tree.inorder .forEachPrev := by
  have collects (order : List Word) :
      order.foldl (fun visited pos => visited ++ [pos]) [] = order := by
    rw [List.foldl_append_eq_append, List.nil_append,
      ← List.flatMap_def, List.flatMap_singleton']
  simp only [Serves, MapRequest.program, ensures_reporting]
  constructor
  · refine (ensures_rbTraverse .right _ _ valid.holds).weaken ?_
    intro visited after result
    obtain ⟨rfl, rfl⟩ := result
    rw [collects]
    exact ⟨rfl, ⟨tree, valid, rfl⟩, sorted⟩
  · refine (ensures_rbTraverse .left _ _ valid.holds).weaken ?_
    intro visited after result
    obtain ⟨rfl, rfl⟩ := result
    rw [collects]
    exact ⟨rfl, ⟨tree, valid, rfl⟩, sorted⟩

theorem serves_purge
    (valid : state.Valid tree)
    (sorted : Sorted member key cmp tree.inorder)
    (selected : Word → Bool) :
    Serves member key cmp state tree.inorder (.purge selected) := by
  rw [Serves, MapRequest.program, ensures_reporting]
  refine (ensures_rbForEachSafe selected valid).weaken ?_
  intro visited after result
  obtain ⟨rfl, remaining, afterValid, order⟩ := result
  exact ⟨rfl, ⟨remaining, afterValid, order⟩, sorted.filter _⟩

/-- Every legal request is served. -/
theorem RbState.Maps.serves
    {items : List Word}
    (consistent : ThreeWay cmp)
    (maps : state.Maps member key cmp items)
    {request : MapRequest κ}
    (legal : request.Legal member key cmp items)
    (fresh :
      ∀ node, request.fresh = some node →
        state.Allocated node ∧ node ∉ items) :
    Serves member key cmp state items request := by
  obtain ⟨⟨tree, valid, rfl⟩, sorted⟩ := maps
  cases request with
  | emptyRoot =>
      exact serves_emptyRoot valid sorted
  | find value =>
      exact serves_find consistent valid sorted value
  | insert item =>
      obtain ⟨allocated, absent⟩ := fresh item rfl
      exact serves_insert consistent valid sorted allocated absent
  | delete value =>
      exact serves_delete consistent valid sorted legal
  | erase node =>
      exact serves_erase valid sorted legal
  | replace victim new =>
      obtain ⟨allocated, absent⟩ := fresh new rfl
      exact serves_replace consistent valid sorted legal.1 legal.2
        allocated absent
  | first =>
      exact (serves_edges valid sorted).1
  | last =>
      exact (serves_edges valid sorted).2
  | next node =>
      exact (serves_neighbours valid sorted legal).1
  | prev node =>
      exact (serves_neighbours valid sorted legal).2
  | forEach =>
      exact (serves_loops valid sorted).1
  | forEachPrev =>
      exact (serves_loops valid sorted).2
  | purge selected =>
      exact serves_purge valid sorted selected

/-- A request lists no node that was not listed before, or new. -/
theorem MapRequest.mem_specification
    {items : List Word}
    {request : MapRequest κ}
    {node : Word}
    (listed :
      node ∈ (request.specification member key cmp items).2) :
    node ∈ items ∨ request.fresh = some node := by
  cases request with
  | insert item =>
      simp only [specification] at listed
      split at listed
      · exact .inl listed
      · rw [place, List.mem_append, List.mem_cons] at listed
        rcases listed with earlier | rfl | later
        · exact .inl ((List.takeWhile_sublist _).mem earlier)
        · exact .inr rfl
        · exact .inl ((List.dropWhile_sublist _).mem later)
  | delete value =>
      simp only [specification] at listed
      split at listed
      · exact .inl (List.mem_of_mem_erase listed)
      · exact .inl listed
  | erase other =>
      exact .inl (List.mem_of_mem_erase listed)
  | replace victim new =>
      obtain ⟨old, isOld, rfl⟩ := List.mem_map.mp listed
      rw [substitute]
      split
      · exact .inr rfl
      · exact .inl isOld
  | purge selected =>
      exact .inl (List.mem_filter.mp listed).1
  | _ =>
      exact .inl listed

instance follows_request
    {inside : Word → Prop}
    {frame : Memory Word RbNode}
    {request : MapRequest κ} :
    (request.program member key cmp).Follows
      (RbState.Framed inside frame) := by
  cases request with
  | emptyRoot =>
      unfold MapRequest.program reporting rbEmptyRoot
      infer_instance
  | _ =>
      unfold MapRequest.program reporting
      infer_instance

end Requests

section Calls

variable {ι κ : Type} [DecidableEq ι]
variable (member : Word) (key : Word → κ) (cmp : κ → κ → Int)

/-- A request to one of the trees. -/
structure MapCall (ι κ : Type) where
  tree : ι
  request : MapRequest κ

/-- The statements of a call. -/
def MapCall.program
    (call : MapCall ι κ) :
    Program (RbForest ι) MapAnswer :=
  inForest call.tree (call.request.program member key cmp)

/-- What a call should answer and do to the listings. -/
def MapCall.specification
    (call : MapCall ι κ)
    (items : ι → List Word) :
    MapAnswer × (ι → List Word) :=
  let served := call.request.specification member key cmp (items call.tree)
  (served.1, Function.update items call.tree served.2)

/--
What a client promises: the request is legal, and a new node is one of its own
nodes and in no tree.
-/
def MapCall.Legal
    (pool : Word → Prop)
    (items : ι → List Word)
    (call : MapCall ι κ) : Prop :=
  call.request.Legal member key cmp (items call.tree) ∧
    ∀ node, call.request.fresh = some node →
      pool node ∧ ∀ name, node ∉ items name

/--
The trees list the nodes, no two of them share one, and all of them belong to
the client.  The rest of the memory is as it was.
-/
structure RbForest.Maps
    (pool : Word → Prop)
    (original : Memory Word RbNode)
    (forest : RbForest ι)
    (items : ι → List Word) : Prop where
  maps : ∀ name, (forest.tree name).Maps member key cmp (items name)
  apart :
    ∀ first second, first ≠ second →
      (items first).Disjoint (items second)
  within : ∀ name, ∀ node ∈ items name, pool node
  mapped : ∀ node, pool node → forest.nodes.cell node ≠ none
  kept :
    ∀ node, ¬pool node →
      forest.nodes.cell node = original.cell node

variable {member key cmp}
variable {pool : Word → Prop}
variable {original : Memory Word RbNode}
variable {forest : RbForest ι}
variable {items : ι → List Word}

/-- The trees after a call that changed one of them and nothing else. -/
theorem RbForest.Maps.replaced
    (holds : forest.Maps member key cmp pool original items)
    (name : ι)
    {inside : Word → Prop}
    {newItems : List Word}
    {part after : RbState}
    (isPool : ∀ node, inside node → pool node)
    (isApart :
      ∀ other, other ≠ name → ∀ node ∈ items other, ¬inside node)
    (isInside : ∀ node ∈ newItems, inside node)
    (partMaps : part.Maps member key cmp newItems)
    (framed : RbState.Framed inside forest.nodes part after) :
    (RbForest.replace name after forest).Maps member key cmp pool original
      (Function.update items name newItems) := by
  have outside
      {node : Word}
      (isOutside : ¬inside node) :
      after.nodes.cell node = forest.nodes.cell node :=
    framed.nodes.rest node isOutside
  constructor
  · intro other
    by_cases same : other = name
    · subst same
      obtain ⟨⟨tree, valid, order⟩, sorted⟩ := partMaps
      have atName :
          (RbForest.replace other after forest).tree other = after := by
        simp [RbForest.tree, RbForest.replace]
      rw [atName, Function.update_self]
      exact ⟨⟨tree, framed.valid valid, order⟩, sorted⟩
    · rw [Function.update_of_ne same]
      obtain ⟨⟨tree, valid, order⟩, sorted⟩ := holds.maps other
      refine ⟨⟨tree, ⟨valid.holds.elsewhere ?_ ?_, valid.redBlack⟩,
        order⟩, sorted⟩
      · exact Function.update_of_ne same _ _
      · intro node isMember
        rw [order] at isMember
        exact outside (isApart other same node isMember)
  · intro first second different
    by_cases isFirst : first = name
    · subst isFirst
      rw [Function.update_self, Function.update_of_ne different.symm]
      intro node inNew inSecond
      exact isApart second different.symm node inSecond
        (isInside node inNew)
    · rw [Function.update_of_ne isFirst]
      by_cases isSecond : second = name
      · subst isSecond
        rw [Function.update_self]
        intro node inFirst inNew
        exact isApart first isFirst node inFirst (isInside node inNew)
      · rw [Function.update_of_ne isSecond]
        exact holds.apart first second different
  · intro other node isMember
    by_cases same : other = name
    · subst same
      rw [Function.update_self] at isMember
      exact isPool node (isInside node isMember)
    · rw [Function.update_of_ne same] at isMember
      exact holds.within other node isMember
  · intro node inPool
    by_cases nodeInside : inside node
    · have same := framed.nodes.same node nodeInside
      have mapped := framed.nodes.mapped node nodeInside
      rw [← same] at mapped
      exact mapped
    · have same := outside nodeInside
      have mapped := holds.mapped node inPool
      rw [← same] at mapped
      exact mapped
  · intro node notPool
    have same := outside fun nodeInside => notPool (isPool node nodeInside)
    exact same.trans (holds.kept node notPool)

/-- Every legal call is answered as specified. -/
theorem RbForest.Maps.ensures_call
    (consistent : ThreeWay cmp)
    (holds : forest.Maps member key cmp pool original items)
    {call : MapCall ι κ}
    (legal : call.Legal member key cmp pool items) :
    (call.program member key cmp).Ensures forest fun answer after =>
      answer = (call.specification member key cmp items).1 ∧
        after.Maps member key cmp pool original
          (call.specification member key cmp items).2 := by
  obtain ⟨name, request⟩ := call
  obtain ⟨isLegal, fresh⟩ := legal
  have maps := holds.maps name
  let inside (node : Word) : Prop :=
    node ∈ items name ∨ request.fresh = some node
  have isPool : ∀ node, inside node → pool node := by
    intro node isInside
    rcases isInside with isMember | isFresh
    · exact holds.within name node isMember
    · exact (fresh node isFresh).1
  have cut :
      ((forest.tree name).restrict inside).Maps member key cmp
        (items name) := by
    obtain ⟨⟨tree, valid, order⟩, sorted⟩ := maps
    refine ⟨⟨tree, valid.restrict ?_, order⟩, sorted⟩
    intro node isMember
    rw [order] at isMember
    exact .inl isMember
  have served :=
    cut.serves consistent isLegal fun node isFresh => by
      obtain ⟨inPool, absent⟩ := fresh node isFresh
      refine ⟨?_, absent name⟩
      obtain ⟨content, mapped⟩ :=
        Option.ne_none_iff_exists'.mp (holds.mapped node inPool)
      have allocated : (forest.tree name).Allocated node :=
        ⟨content.cell, by rw [RbState.view_cell]; exact congrArg _ mapped⟩
      exact allocated.restrict (.inr isFresh)
  rw [MapCall.program, inForest, ensures_zoom]
  refine (ensures_of_restrict ?_ served).weaken ?_
  · intro node isInside
    exact holds.mapped node (isPool node isInside)
  · intro answer after result
    obtain ⟨part, ⟨isAnswer, partMaps⟩, framed⟩ := result
    refine ⟨isAnswer, holds.replaced name isPool ?_ ?_ partMaps framed⟩
    · intro other different node isMember isInside
      rcases isInside with inName | isFresh
      · exact holds.apart other name different isMember inName
      · exact (fresh node isFresh).2 other isMember
    · intro node listed
      exact request.mem_specification listed

/--
For every client that calls the functions and macros of `rbtree.h` on any
number of trees that start as `RB_ROOT`, and may choose each call by the
answers so far: every call ends, every answer is the one that sorted lists of
nodes give, and in the end the trees are valid red-black trees that list these
nodes, share none of them, and have changed nothing outside of the nodes of
the client.
-/
theorem clients_see_sorted_lists
    (consistent : ThreeWay cmp)
    {client : Client (MapCall ι κ) MapAnswer}
    (empty : ∀ name, forest.rbNode name = null)
    (mapped : ∀ node, pool node → forest.nodes.cell node ≠ none)
    (legal :
      client.Legal (MapCall.specification member key cmp)
        (MapCall.Legal member key cmp pool) fun _ => []) :
    (client.run (MapCall.program member key cmp)).Ensures forest
      fun answers after =>
        answers =
            (client.meaning (MapCall.specification member key cmp)
              fun _ => []).1 ∧
          after.Maps member key cmp pool forest.nodes
            (client.meaning (MapCall.specification member key cmp)
              fun _ => []).2 := by
  have start :
      forest.Maps member key cmp pool forest.nodes fun _ => [] := by
    refine ⟨?_, ?_, ?_, mapped, fun _ _ => rfl⟩
    · intro name
      exact ⟨⟨.nil, RbState.valid_nil (empty name), rfl⟩, .nil⟩
    · intro first second _ node inFirst
      exact absurd inFirst List.not_mem_nil
    · intro name node isMember
      exact absurd isMember List.not_mem_nil
  refine Client.ensures_run
    (RbForest.Maps member key cmp pool forest.nodes) ?_ start legal
  intro call state listings holds isLegal
  exact holds.ensures_call consistent isLegal

end Calls

section Sample

/-- Two empty trees and two nodes. -/
def twoTrees : RbForest Bool where
  nodes := Memory.ofList [(16, ⟨0, 0, 0⟩), (32, ⟨0, 0, 0⟩)]
  rbNode _ := 0
  aligned := by
    intro address node mapped
    exact (RbState.ofList [(16, ⟨0, 0, 0⟩), (32, ⟨0, 0, 0⟩)] 0
      (by decide)).aligned mapped

/--
A client that puts a node into each of two trees, deletes the node of the
first tree by its key, and inserts it into the second tree if it is gone.
-/
def movingClient : Client (MapCall Bool Int) MapAnswer :=
  .call ⟨true, .insert 16⟩ fun _ =>
  .call ⟨false, .insert 32⟩ fun _ =>
  .call ⟨true, .delete (-16)⟩ fun _ =>
  .call ⟨true, .emptyRoot⟩ fun answer =>
    match answer with
    | .truth true =>
        .call ⟨false, .insert 16⟩ fun _ =>
        .call ⟨false, .forEach⟩ fun _ =>
        .stop
    | _ => .stop

theorem clients_see_sorted_lists_of_sample :
    (movingClient.run
      (MapCall.program 0 addressKey
        fun first second => first - second)).Ensures twoTrees
      fun answers _ =>
        answers =
          [.nothing, .nothing, .nothing, .truth true, .nothing,
            .nodes [16, 32]] := by
  have mapped :
      ∀ node : Word, node = 16 ∨ node = 32 →
        twoTrees.nodes.cell node ≠ none := by
    intro node inPool
    rcases inPool with rfl | rfl <;> decide
  have legal :
      movingClient.Legal
        (MapCall.specification 0 addressKey
          fun first second => first - second)
        (MapCall.Legal 0 addressKey (fun first second => first - second)
          fun node => node = 16 ∨ node = 32)
        fun _ => [] := by
    refine ⟨⟨trivial, ?_⟩, ⟨trivial, ?_⟩, ⟨.inl rfl, nofun⟩,
      ⟨trivial, nofun⟩, ⟨trivial, ?_⟩, ⟨trivial, nofun⟩, trivial⟩
    · rintro _ ⟨⟩
      exact ⟨.inl rfl, by decide⟩
    · rintro _ ⟨⟩
      exact ⟨.inr rfl, by decide⟩
    · rintro _ ⟨⟩
      exact ⟨.inl rfl, by decide⟩
  refine (clients_see_sorted_lists threeWay_sub (fun _ => rfl) mapped
    legal).weaken ?_
  intro answers after result
  rw [result.1]
  decide

end Sample

end LibKern.RbTree
