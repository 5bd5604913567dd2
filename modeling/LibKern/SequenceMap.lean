import Mathlib.Data.List.Nodup
import Mathlib.Data.Set.Function
import Mathlib.Logic.Function.Basic

namespace LibKern

/-!
# Sequences without common nodes

A map gives the items of every live sequence.  A sequence occupies nodes, and no
node belongs to two sequences.  `Held` says that something holds every sequence
of a map, as a memory holds linked lists.  A change of one sequence leaves the
other sequences alone if it only touches nodes of this sequence and free nodes.
-/

/-- The live sequences, with the items of every key. -/
def SequenceMap (κ ν : Type) := κ → Option (List ν)

namespace SequenceMap

variable {κ ν : Type}

/-- No sequence is live. -/
def empty : SequenceMap κ ν :=
  fun _ => none

/-- The items of a sequence. -/
def entries (lists : SequenceMap κ ν) (key : κ) : List ν :=
  (lists key).getD []

/-- A live sequence. -/
def Live (lists : SequenceMap κ ν) (key : κ) : Prop :=
  ∃ items, lists key = some items

/-- A node is an item of a live sequence. -/
def Entry (lists : SequenceMap κ ν) (node : ν) : Prop :=
  ∃ key items, lists key = some items ∧ node ∈ items

section Nodes

variable (own : κ → List ν → List ν)

/-- A node belongs to a sequence. -/
def Owns (lists : SequenceMap κ ν) (key : κ) (node : ν) : Prop :=
  ∃ items, lists key = some items ∧ node ∈ own key items

/-- A node does not belong to any sequence. -/
def Free (lists : SequenceMap κ ν) (node : ν) : Prop :=
  ∀ key, ¬lists.Owns own key node

/-- All sequences are held, and they have no node in common. -/
structure Held
    (holds : κ → List ν → Prop)
    (lists : SequenceMap κ ν) : Prop where
  holds : ∀ key items, lists key = some items → holds key items
  unique :
    ∀ one other node, lists.Owns own one node →
      lists.Owns own other node → one = other

end Nodes

theorem entries_of
    {lists : SequenceMap κ ν}
    {key : κ}
    {items : List ν}
    (isList : lists key = some items) :
    lists.entries key = items := by
  rw [entries, isList, Option.getD_some]

/-- Only free nodes are touched. -/
theorem Held.elsewhere
    {own : κ → List ν → List ν}
    {holds after : κ → List ν → Prop}
    {lists : SequenceMap κ ν}
    {touched : List ν}
    (held : lists.Held own holds)
    (frame :
      ∀ key items, lists key = some items → holds key items →
        (∀ node ∈ own key items, node ∉ touched) → after key items)
    (free : ∀ node ∈ touched, lists.Free own node) :
    lists.Held own after where
  holds key items isList :=
    frame key items isList (held.holds key items isList)
      fun node isNode isTouched =>
        free node isTouched key ⟨items, isList, isNode⟩
  unique := held.unique

section Items

variable [DecidableEq ν]

/-- Put these items in the place of a node. -/
def substituted
    (lists : SequenceMap κ ν)
    (node : ν)
    (items : List ν) :
    SequenceMap κ ν :=
  fun key => (lists key).map fun before =>
    before.flatMap fun item => if item = node then items else [item]

/-- Remove a node from its sequence. -/
def without (lists : SequenceMap κ ν) (node : ν) : SequenceMap κ ν :=
  lists.substituted node []

/-- Replace a node in its sequence. -/
def replaced (lists : SequenceMap κ ν) (old new : ν) : SequenceMap κ ν :=
  lists.substituted old [new]

/-- A sequence stays live when a node is removed. -/
theorem without_of_live
    {lists : SequenceMap κ ν}
    {key : κ}
    {node : ν}
    (live : lists.Live key) :
    (lists.without node) key =
      some ((lists.without node).entries key) := by
  obtain ⟨items, isList⟩ := live
  rw [entries, without, substituted, isList, Option.map_some,
    Option.getD_some]

/-- What is left of a sequence when a node is removed. -/
theorem without_eq_filter
    {lists : SequenceMap κ ν}
    {key : κ}
    {node : ν}
    {items : List ν}
    (isList : lists key = some items) :
    (lists.without node) key = some (items.filter (· ≠ node)) := by
  rw [without, substituted, isList, Option.map_some, Option.some.injEq]
  clear isList
  induction items with
  | nil =>
      rfl
  | cons first rest inductionHypothesis =>
      rw [List.flatMap_cons, inductionHypothesis, List.filter_cons]
      by_cases same : first = node
      · simp [same]
      · simp [same]

theorem flatMap_of_notMem
    {node : ν}
    {items others : List ν}
    (outside : node ∉ others) :
    (others.flatMap fun item => if item = node then items else [item]) =
      others := by
  induction others with
  | nil =>
      rfl
  | cons first rest inductionHypothesis =>
      have different : first ≠ node := by
        rintro rfl
        exact outside (.head _)
      rw [List.flatMap_cons, if_neg different, inductionHypothesis
        fun inside => outside (.tail _ inside), List.singleton_append]

/-- Substituting a node that is not an item changes nothing. -/
theorem substituted_of_free
    {lists : SequenceMap κ ν}
    {node : ν}
    {items : List ν}
    (notEntry : ¬lists.Entry node) :
    lists.substituted node items = lists := by
  funext key
  rw [substituted]
  cases isList : lists key with
  | none =>
      rfl
  | some others =>
      rw [Option.map_some, flatMap_of_notMem]
      intro inside
      exact notEntry ⟨key, others, isList, inside⟩

end Items

variable [DecidableEq κ]

/-- Give a key these items. -/
def set
    (lists : SequenceMap κ ν)
    (key : κ)
    (items : List ν) :
    SequenceMap κ ν :=
  Function.update lists key (some items)

/-- Give up a key. -/
def drop (lists : SequenceMap κ ν) (key : κ) : SequenceMap κ ν :=
  Function.update lists key none

section Facts

variable {own : κ → List ν → List ν}
variable {lists : SequenceMap κ ν}
variable {key other : κ}
variable {node : ν}
variable {items others : List ν}

@[simp] theorem set_same : (lists.set key items) key = some items :=
  Function.update_self _ _ _

@[simp] theorem set_of_ne
    (different : other ≠ key) :
    (lists.set key items) other = lists other :=
  Function.update_of_ne different _ _

@[simp] theorem drop_same : (lists.drop key) key = none :=
  Function.update_self _ _ _

@[simp] theorem drop_of_ne
    (different : other ≠ key) :
    (lists.drop key) other = lists other :=
  Function.update_of_ne different _ _

theorem set_drop :
    (lists.drop key).set key items = lists.set key items :=
  Function.update_idem _ _ _

theorem set_set :
    (lists.set key others).set key items = lists.set key items :=
  Function.update_idem _ _ _

theorem set_comm
    (different : key ≠ other) :
    (lists.set key items).set other others =
      (lists.set other others).set key items :=
  Function.update_comm different _ _ _

/-- A sequence that is set to what it is. -/
theorem set_eq_self
    (isList : lists key = some items) :
    lists.set key items = lists := by
  rw [set, ← isList]
  exact Function.update_eq_self key lists

/-- The nodes of a sequence that is set. -/
theorem owns_set :
    (lists.set key items).Owns own other node ↔
      (other = key ∧ node ∈ own key items) ∨
        (other ≠ key ∧ lists.Owns own other node) := by
  by_cases same : other = key
  · subst same
    simp [Owns]
  · simp [Owns, same]

/-- The nodes of the other sequences. -/
theorem owns_drop :
    (lists.drop key).Owns own other node ↔
      other ≠ key ∧ lists.Owns own other node := by
  by_cases same : other = key
  · subst same
    simp [Owns]
  · simp [Owns, same]

/-- A free node stays free when a sequence is given up. -/
theorem Free.drop
    (free : lists.Free own node) :
    (lists.drop key).Free own node :=
  fun other owns => free other (owns_drop.mp owns).2

end Facts

section Two

variable {one other key : κ}
variable {items others changed nodes : List ν}
variable {node : ν}

/-- Two live sequences. -/
def two
    (one : κ)
    (items : List ν)
    (other : κ)
    (others : List ν) :
    SequenceMap κ ν :=
  (empty.set one items).set other others

/-- Only these sequences are live. -/
theorem two_cases
    (isList : two one items other others key = some nodes) :
    (key = one ∧ nodes = items) ∨ (key = other ∧ nodes = others) := by
  by_cases isOther : key = other
  · subst isOther
    exact .inr ⟨rfl, (Option.some.inj (set_same.symm.trans isList)).symm⟩
  · rw [two, set_of_ne isOther] at isList
    by_cases isOne : key = one
    · subst isOne
      exact .inl ⟨rfl, (Option.some.inj (set_same.symm.trans isList)).symm⟩
    · rw [set_of_ne isOne] at isList
      cases isList

@[simp] theorem two_other :
    two one items other others other = some others :=
  set_same

@[simp] theorem two_one
    (different : one ≠ other) :
    two one items other others one = some items := by
  rw [two, set_of_ne different, set_same]

/-- A node that is in neither of them is in none. -/
theorem not_entry_two
    (notOne : node ∉ items)
    (notOther : node ∉ others) :
    ¬(two one items other others).Entry node := by
  rintro ⟨key, nodes, isList, isItem⟩
  obtain ⟨-, rfl⟩ | ⟨-, rfl⟩ := two_cases isList
  · exact notOne isItem
  · exact notOther isItem

theorem set_two_one
    (different : one ≠ other) :
    (two one items other others).set one changed =
      two one changed other others := by
  rw [two, set_comm different.symm, set_set]
  rfl

theorem set_two_other :
    (two one items other others).set other changed =
      two one items other changed :=
  set_set

/-- Giving up a key that is not live changes nothing. -/
theorem drop_two
    (notOne : key ≠ one)
    (notOther : key ≠ other) :
    (two one items other others).drop key = two one items other others := by
  have notLive : two one items other others key = none := by
    rw [two, set_of_ne notOther, set_of_ne notOne]
    rfl
  rw [drop, ← notLive]
  exact Function.update_eq_self key _

/-- A node is replaced in both of them. -/
theorem substituted_two
    [DecidableEq ν]
    (different : one ≠ other) :
    (two one items other others).substituted node changed =
      two one
        (items.flatMap fun item => if item = node then changed else [item])
        other
        (others.flatMap fun item =>
          if item = node then changed else [item]) := by
  funext key
  rw [substituted]
  by_cases isOther : key = other
  · subst isOther
    simp
  · by_cases isOne : key = one
    · subst isOne
      simp [different]
    · simp [two, isOther, isOne, empty]

end Two

namespace Held

variable {own : κ → List ν → List ν}
variable {holds after : κ → List ν → Prop}
variable {lists changed : SequenceMap κ ν}
variable {key : κ}
variable {node : ν}
variable {items before touched : List ν}

/-- A sequence is given up. -/
theorem drop
    (held : lists.Held own holds)
    (key : κ) :
    (lists.drop key).Held own holds where
  holds other items isList := by
    by_cases same : other = key
    · subst same
      simp at isList
    · exact held.holds other items (by simpa [same] using isList)
  unique one other node ownsOne ownsOther :=
    held.unique one other node (owns_drop.mp ownsOne).2
      (owns_drop.mp ownsOther).2

/-- The nodes of a sequence that is given up are free. -/
theorem free_drop
    (held : lists.Held own holds)
    (owns : lists.Owns own key node) :
    (lists.drop key).Free own node := by
  intro other ownsOther
  obtain ⟨different, wasOwned⟩ := owns_drop.mp ownsOther
  exact different (held.unique other key node wasOwned owns)

/-- A sequence that gets free nodes only. -/
theorem set
    (held : lists.Held own holds)
    (result : holds key items)
    (added :
      ∀ node ∈ own key items,
        lists.Owns own key node ∨ lists.Free own node) :
    (lists.set key items).Held own holds where
  holds other others isList := by
    by_cases same : other = key
    · subst same
      obtain rfl : items = others := by simpa using isList
      exact result
    · exact held.holds other others (by simpa [same] using isList)
  unique one other node ownsOne ownsOther := by
    have owner
        {some : κ}
        (owns : lists.Owns own some node)
        (isNode : node ∈ own key items) :
        some = key := by
      rcases added node isNode with ownsHere | free
      · exact held.unique some key node owns ownsHere
      · exact absurd owns (free some)
    rcases owns_set.mp ownsOne with ⟨rfl, isNode⟩ | ⟨notOne, wasOne⟩
    · rcases owns_set.mp ownsOther with ⟨rfl, -⟩ | ⟨-, wasOther⟩
      · rfl
      · exact (owner wasOther isNode).symm
    · rcases owns_set.mp ownsOther with ⟨rfl, isNode⟩ | ⟨-, wasOther⟩
      · exact absurd (owner wasOne isNode) notOne
      · exact held.unique one other node wasOne wasOther

/-- One sequence is changed; only its nodes and free nodes are touched. -/
theorem change
    (held : lists.Held own holds)
    (frame :
      ∀ other others, other ≠ key → lists other = some others →
        holds other others →
        (∀ node ∈ own other others, node ∉ touched) →
          after other others)
    (isTouched :
      ∀ node ∈ touched, lists.Owns own key node ∨ lists.Free own node)
    (result : after key items)
    (added :
      ∀ node ∈ own key items,
        lists.Owns own key node ∨ lists.Free own node) :
    (lists.set key items).Held own after := by
  have others : (lists.drop key).Held own after := by
    refine @Held.elsewhere _ _ _ _ _ _ touched (held.drop key) ?_ ?_
    · intro other others isList wasHeld untouched
      by_cases same : other = key
      · subst same
        simp at isList
      · exact frame other others same (by simpa [same] using isList)
          wasHeld untouched
    · intro node isNode
      rcases isTouched node isNode with owns | free
      · exact held.free_drop owns
      · exact free.drop
  have restored := others.set result ?_
  · rwa [set_drop] at restored
  · intro node isNode
    rcases added node isNode with owns | free
    · exact .inr (held.free_drop owns)
    · exact .inr free.drop

/-- A single sequence. -/
theorem singleton
    (result : holds key items) :
    (empty.set key items).Held own holds := by
  have nothing : (empty : SequenceMap κ ν).Held own holds :=
    ⟨by simp [empty], by simp [Owns, empty]⟩
  refine nothing.set result ?_
  intro node _
  exact .inr fun other owns => by simp [Owns, empty] at owns

/-- Two sequences without a common node. -/
theorem two
    {one other : κ}
    {others : List ν}
    (resultOne : holds one items)
    (resultOther : holds other others)
    (apart : ∀ node ∈ own other others, node ∉ own one items) :
    (SequenceMap.two one items other others).Held own holds := by
  refine (singleton resultOne).set resultOther ?_
  intro node isNode
  refine .inr fun key owns => ?_
  rcases owns_set.mp owns with ⟨rfl, isOne⟩ | ⟨-, owned⟩
  · exact apart node isNode isOne
  · simp [Owns, empty] at owned

section Items

variable [DecidableEq ν]
variable {front back : List ν}

/-- Substituting a node only changes its own sequence. -/
theorem substituted_eq
    (held : lists.Held own holds)
    (isItem : ∀ key items, ∀ node ∈ items, node ∈ own key items)
    (isList : lists key = some (front ++ node :: back))
    (distinct : (front ++ node :: back).Nodup) :
    lists.substituted node items =
      lists.set key (front ++ (items ++ back)) := by
  funext other
  by_cases same : other = key
  · subst same
    rw [set_same, substituted, isList, Option.map_some,
      List.flatMap_append, List.flatMap_cons, if_pos rfl,
      flatMap_of_notMem (by grind), flatMap_of_notMem (by grind)]
  · rw [set_of_ne same, substituted]
    cases isOther : lists other with
    | none =>
        rfl
    | some others =>
        rw [Option.map_some, flatMap_of_notMem]
        intro inside
        exact same (held.unique other key node
          ⟨_, isOther, isItem _ _ _ inside⟩
          ⟨_, isList, isItem _ _ _ (by simp)⟩)

end Items

end Held

/-- Numbered sequences; the number of a sequence gives its key. -/
def indexed
    (count : Nat)
    (address : Nat → κ)
    (contents : Nat → List ν) :
    SequenceMap κ ν :=
  fun key => ((List.range count).find? (address · = key)).map contents

section Indexed

variable {count index : Nat}
variable {address : Nat → κ}
variable {contents : Nat → List ν}
variable {key : κ}
variable {items : List ν}

/-- The numbered sequences are the live ones. -/
theorem indexed_eq_some_iff
    (injective : Set.InjOn address {index | index < count}) :
    indexed count address contents key = some items ↔
      ∃ index < count, address index = key ∧ contents index = items := by
  rw [indexed, Option.map_eq_some_iff]
  constructor
  · intro found
    obtain ⟨index, isFirst, isItems⟩ := found
    have isKey : address index = key := by
      simpa using List.find?_some isFirst
    exact ⟨index, List.mem_range.mp (List.mem_of_find?_eq_some isFirst),
      isKey, isItems⟩
  · intro numbered
    obtain ⟨index, inside, rfl, isItems⟩ := numbered
    refine ⟨index, ?_, isItems⟩
    cases isFound :
        (List.range count).find? (address · = address index) with
    | none =>
        have notFound := List.find?_eq_none.mp isFound index
          (List.mem_range.mpr inside)
        simp at notFound
    | some other =>
        have isKey : address other = address index := by
          simpa using List.find?_some isFound
        rw [injective (List.mem_range.mp
          (List.mem_of_find?_eq_some isFound)) inside isKey]

theorem indexed_address
    (injective : Set.InjOn address {index | index < count})
    (inside : index < count) :
    indexed count address contents (address index) =
      some (contents index) :=
  (indexed_eq_some_iff injective).mpr ⟨index, inside, rfl, rfl⟩

/-- There are no other live sequences. -/
theorem indexed_eq_none
    (notNumbered : ∀ index < count, address index ≠ key) :
    indexed count address contents key = none := by
  rw [indexed, Option.map_eq_none_iff, List.find?_eq_none]
  intro index inside
  simpa using notNumbered index (List.mem_range.mp inside)

/-- Equality of numbered sequences with other sequences. -/
theorem eq_indexed
    {lists : SequenceMap κ ν}
    (injective : Set.InjOn address {index | index < count})
    (same :
      ∀ index < count, lists (address index) = some (contents index))
    (others :
      ∀ key, (∀ index < count, address index ≠ key) →
        lists key = none) :
    lists = indexed count address contents := by
  funext key
  by_cases numbered : ∃ index < count, address index = key
  · obtain ⟨index, inside, rfl⟩ := numbered
    rw [same index inside, indexed_address injective inside]
  · have notNumbered : ∀ index < count, address index ≠ key :=
      fun index inside isKey => numbered ⟨index, inside, isKey⟩
    rw [others key notNumbered, indexed_eq_none notNumbered]

/-- Only the items of the numbered sequences matter. -/
theorem indexed_congr
    {others : Nat → List ν}
    (injective : Set.InjOn address {index | index < count})
    (same : ∀ index < count, contents index = others index) :
    indexed count address contents = indexed count address others := by
  refine eq_indexed injective ?_ ?_
  · intro index inside
    rw [indexed_address injective inside, same index inside]
  · intro key notNumbered
    exact indexed_eq_none notNumbered

/-- One of the numbered sequences is set. -/
theorem indexed_set
    (injective : Set.InjOn address {index | index < count})
    (inside : index < count) :
    (indexed count address contents).set (address index) items =
      indexed count address (Function.update contents index items) := by
  refine eq_indexed injective ?_ ?_
  · intro other otherInside
    by_cases same : other = index
    · subst same
      rw [set_same, Function.update_self]
    · have different : address other ≠ address index :=
        fun isKey => same (injective otherInside inside isKey)
      rw [set_of_ne different, Function.update_of_ne same,
        indexed_address injective otherInside]
  · intro key notNumbered
    rw [set_of_ne (notNumbered index inside).symm,
      indexed_eq_none notNumbered]

/-- One more sequence is numbered. -/
theorem indexed_succ
    (injective : Set.InjOn address {index | index < count + 1}) :
    (indexed count address contents).set (address count)
        (contents count) =
      indexed (count + 1) address contents := by
  have fewer : Set.InjOn address {index | index < count} :=
    injective.mono fun index inside => Nat.lt_succ_of_lt inside
  refine eq_indexed injective ?_ ?_
  · intro index inside
    by_cases isLast : index = count
    · rw [isLast, set_same]
    · have different : address index ≠ address count :=
        fun isKey =>
          isLast (injective inside (Nat.lt_succ_self count) isKey)
      rw [set_of_ne different, indexed_address fewer (by omega)]
  · intro key notNumbered
    rw [set_of_ne (notNumbered count (Nat.lt_succ_self count)).symm,
      indexed_eq_none fun index inside =>
        notNumbered index (Nat.lt_succ_of_lt inside)]

end Indexed

end SequenceMap

end LibKern
