import Mathlib.Data.List.Perm.Basic

namespace LibKern

/-!
# One stack for every key

Items are stored under keys, and every key has a stack of its own.  The items
are kept in one sequence, the most recent one first.  They can be distributed
over numbered buckets by a function of the key; then a bucket holds the stacks
of its keys, one inside the other.
-/

/-- An item that is stored under a key. -/
structure Keyed (κ ν : Type) where
  key : κ
  item : ν

/-- The stored items, the most recent one first. -/
abbrev KeyedStacks (κ ν : Type) := List (Keyed κ ν)

namespace KeyedStacks

variable {κ ν : Type}

/-- All stored items. -/
def items (live : KeyedStacks κ ν) : List ν :=
  live.map Keyed.item

/-- Store an item under a key. -/
def push (live : KeyedStacks κ ν) (key : κ) (item : ν) : KeyedStacks κ ν :=
  ⟨key, item⟩ :: live

/-- The part of the stored items that is in a bucket. -/
def bucket (place : κ → Nat) (live : KeyedStacks κ ν) (index : Nat) :
    KeyedStacks κ ν :=
  live.filter fun one => place one.key = index

/-- The items of a bucket. -/
def itemsIn (place : κ → Nat) (live : KeyedStacks κ ν) (index : Nat) :
    List ν :=
  (live.bucket place index).items

section Buckets

variable {place : κ → Nat}
variable {live front back : KeyedStacks κ ν}
variable {one : Keyed κ ν}
variable {index count : Nat}

theorem mem_bucket :
    one ∈ live.bucket place index ↔
      one ∈ live ∧ place one.key = index := by
  simp [bucket]

theorem itemsIn_append :
    itemsIn place (front ++ back) index =
      itemsIn place front index ++ itemsIn place back index := by
  simp [itemsIn, bucket, items]

theorem itemsIn_cons_same :
    itemsIn place (one :: live) (place one.key) =
      one.item :: itemsIn place live (place one.key) := by
  simp [itemsIn, bucket, items]

/-- The buckets when an item is put between others. -/
theorem itemsIn_insert :
    itemsIn place (front ++ one :: back) =
      Function.update (itemsIn place (front ++ back)) (place one.key)
        (itemsIn place front (place one.key) ++
          one.item :: itemsIn place back (place one.key)) := by
  funext index
  by_cases same : index = place one.key
  · subst same
    rw [Function.update_self, itemsIn_append, itemsIn_cons_same]
  · have different : ¬place one.key = index := fun isPlace =>
      same isPlace.symm
    simp [itemsIn, bucket, same, different]

/-- The buckets when an item between others is removed. -/
theorem itemsIn_remove :
    itemsIn place (front ++ back) =
      Function.update (itemsIn place (front ++ one :: back))
        (place one.key)
        (itemsIn place front (place one.key) ++
          itemsIn place back (place one.key)) := by
  rw [itemsIn_insert, Function.update_idem, ← itemsIn_append,
    Function.update_eq_self]

/-- An item that is stored once is removed from its bucket only. -/
theorem itemsIn_remove_eq_erase
    [DecidableEq ν]
    (distinct : (items (front ++ one :: back)).Nodup)
    (index : Nat) :
    itemsIn place (front ++ back) index =
      (itemsIn place (front ++ one :: back) index).erase one.item := by
  simp only [items, List.map_append, List.map_cons] at distinct
  have notItem :=
    (List.nodup_cons.mp (List.perm_middle.nodup_iff.mp distinct)).1
  have notFront : one.item ∉ itemsIn place front index := by
    intro isItem
    obtain ⟨other, isOther, same⟩ := List.mem_map.mp isItem
    exact notItem (List.mem_append_left _
      (List.mem_map.mpr ⟨other, (mem_bucket.mp isOther).1, same⟩))
  have notBack : one.item ∉ itemsIn place back index := by
    intro isItem
    obtain ⟨other, isOther, same⟩ := List.mem_map.mp isItem
    exact notItem (List.mem_append_right _
      (List.mem_map.mpr ⟨other, (mem_bucket.mp isOther).1, same⟩))
  rw [itemsIn_append, itemsIn_append, List.erase_append_right _ notFront]
  congr 1
  by_cases same : place one.key = index
  · subst same
    rw [itemsIn_cons_same, List.erase_cons_head]
  · have skipped : itemsIn place (one :: back) index =
        itemsIn place back index := by
      simp [itemsIn, bucket, same]
    rw [skipped, List.erase_of_not_mem notBack]

/-- The first buckets hold the items with a small place once. -/
theorem flatMap_bucket_perm_filter
    (live : KeyedStacks κ ν) :
    ((List.range count).flatMap fun index =>
      live.bucket place index).Perm
      (live.filter fun one => place one.key < count) := by
  induction count with
  | zero =>
      simp
  | succ count inductionHypothesis =>
      have divided :=
        List.filter_append_perm (fun one => place one.key < count)
          (live.filter fun one => place one.key < count + 1)
      have below :
          (live.filter fun one => place one.key < count + 1).filter
              (fun one => place one.key < count) =
            live.filter fun one => place one.key < count := by
        rw [List.filter_filter]
        refine List.filter_congr fun one _ => ?_
        simp only [← Bool.decide_and, decide_eq_decide]
        omega
      have last :
          (live.filter fun one => place one.key < count + 1).filter
              (fun one => !decide (place one.key < count)) =
            live.bucket place count := by
        rw [List.filter_filter, bucket]
        refine List.filter_congr fun one _ => ?_
        simp only [← decide_not, ← Bool.decide_and, decide_eq_decide]
        omega
      rw [below, last] at divided
      rw [List.range_succ, List.flatMap_append, List.flatMap_singleton]
      exact (inductionHypothesis.append_right _).trans divided

/-- The buckets hold every item once. -/
theorem flatMap_bucket_perm
    (inside : ∀ one ∈ live, place one.key < count) :
    ((List.range count).flatMap (live.itemsIn place)).Perm
      live.items := by
  have all :
      (live.filter fun one => place one.key < count) = live :=
    List.filter_eq_self.mpr fun one isLive => by simp [inside one isLive]
  have divided :=
    (@flatMap_bucket_perm_filter _ _ place count live).map Keyed.item
  rw [all, List.map_flatMap] at divided
  exact divided

end Buckets

section Keys

variable [DecidableEq κ]

/-- The stack of a key. -/
def stack (live : KeyedStacks κ ν) (key : κ) : List ν :=
  (live.filter fun one => one.key = key).map Keyed.item

/-- The most recent item of a key. -/
def top (live : KeyedStacks κ ν) (key : κ) : Option ν :=
  (live.stack key).head?

/-- Remove the most recent item of a key. -/
def pop (live : KeyedStacks κ ν) (key : κ) : KeyedStacks κ ν :=
  live.eraseP fun one => one.key = key

variable {live front back : KeyedStacks κ ν}
variable {key other : κ}
variable {item : ν}
variable {place : κ → Nat}

theorem top_cons
    (one : Keyed κ ν) :
    top (one :: live) key =
      if one.key = key then some one.item else live.top key := by
  by_cases same : one.key = key
  · simp [top, stack, same]
  · simp [top, stack, same]

/-- A key without items has nothing on its stack. -/
theorem top_eq_none_iff :
    live.top key = none ↔ ∀ one ∈ live, one.key ≠ key := by
  simp [top, stack]

/-- The most recent item of a key, with the items before and after it. -/
theorem exists_of_top
    (isTop : live.top key = some item) :
    ∃ front back, live = front ++ ⟨key, item⟩ :: back ∧
      live.pop key = front ++ back := by
  induction live with
  | nil =>
      simp [top, stack] at isTop
  | cons one live inductionHypothesis =>
      rw [top_cons] at isTop
      by_cases same : one.key = key
      · rw [if_pos same, Option.some.injEq] at isTop
        subst same isTop
        exact ⟨[], live, rfl, by simp [pop]⟩
      · rw [if_neg same] at isTop
        obtain ⟨front, back, rfl, isPop⟩ := inductionHypothesis isTop
        refine ⟨one :: front, back, rfl, ?_⟩
        rw [List.cons_append, ← isPop]
        simp [pop, same]

theorem pop_of_top_eq_none
    (isEmpty : live.top key = none) :
    live.pop key = live := by
  rw [pop, List.eraseP_of_forall_not]
  intro one isLive
  simpa using top_eq_none_iff.mp isEmpty one isLive

/-- The most recent item of a key is in the bucket of the key. -/
theorem top_bucket :
    top (live.bucket place (place key)) key = live.top key := by
  rw [top, top, stack, stack, bucket, List.filter_filter]
  congr 3
  funext one
  by_cases same : one.key = key
  · simp [same]
  · simp [same]

end Keys

end KeyedStacks

end LibKern
