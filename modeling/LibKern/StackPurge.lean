import LibKern.KeyedStacks
import Mathlib.Data.List.Induction

namespace LibKern.KeyedStacks

/-!
# Deleting chosen items by their keys

An item can only be deleted by its key, and this removes the most recent item
of the key.  When chosen items are deleted so while all items are visited, every
key loses as many of its most recent items as were chosen.  These are the chosen
ones exactly if no chosen item has a more recent one of its key that is kept.
-/

variable {κ ν : Type} [DecidableEq κ]
variable {place : κ → Nat}
variable {live visited kept rest : KeyedStacks κ ν}
variable {one : Keyed κ ν}
variable {key other : κ}
variable {chosen : ν → Bool}
variable {index : Nat}

/-- Delete the keys of the chosen ones of the visited items. -/
def purge
    (chosen : ν → Bool)
    (live visited : KeyedStacks κ ν) : KeyedStacks κ ν :=
  visited.foldl
    (fun live one => if chosen one.item then live.pop one.key else live)
    live

/-- No chosen item has a more recent one of its key that is kept. -/
def NewestFirst
    (chosen : ν → Bool)
    (live : KeyedStacks κ ν) : Prop :=
  ∀ key, (live.stack key).Pairwise fun newer older =>
    chosen older = true → chosen newer = true

@[simp] theorem purge_nil : purge chosen live [] = live := rfl

theorem purge_append_singleton :
    purge chosen live (visited ++ [one]) =
      if chosen one.item then (purge chosen live visited).pop one.key
      else purge chosen live visited := by
  simp [purge]

/-- Deleting a key takes the top off its own stack. -/
theorem stack_pop :
    (live.pop key).stack other =
      if key = other then (live.stack other).tail
      else live.stack other := by
  induction live with
  | nil =>
      simp [stack, pop]
  | cons one live inductionHypothesis =>
      by_cases isKey : one.key = key
      · by_cases same : key = other
        · simp [stack, pop, isKey, same]
        · simp [stack, pop, isKey, same]
      · have isPop : pop (one :: live) key = one :: pop live key := by
          simp [pop, isKey]
        have isStack (rest : KeyedStacks κ ν) :
            stack (one :: rest) other =
              if one.key = other then one.item :: rest.stack other
              else rest.stack other := by
          by_cases isOther : one.key = other
          · simp [stack, isOther]
          · simp [stack, isOther]
        rw [isPop, isStack, isStack, inductionHypothesis]
        by_cases same : key = other
        · subst same
          simp [isKey]
        · simp [same]

/-- Every key loses as many of its most recent items as were chosen. -/
theorem stack_purge :
    (purge chosen live visited).stack key =
      (live.stack key).drop ((visited.stack key).countP chosen) := by
  induction visited using List.reverseRecOn with
  | nil =>
      simp [stack]
  | append_singleton visited one inductionHypothesis =>
      rw [purge_append_singleton]
      by_cases isChosen : chosen one.item = true
      · rw [if_pos isChosen, stack_pop, inductionHypothesis]
        by_cases same : one.key = key
        · simp [stack, same, isChosen, List.countP_append,
            List.tail_drop]
        · simp [stack, same]
      · rw [if_neg isChosen, inductionHypothesis]
        by_cases same : one.key = key
        · simp [stack, same, isChosen, List.countP_append]
        · simp [stack, same]

/-- Deleting a key changes the bucket of the key only. -/
theorem bucket_pop :
    (live.pop key).bucket place index =
      if place key = index then
        (live.bucket place index).eraseP fun one => one.key = key
      else
        live.bucket place index := by
  induction live with
  | nil =>
      simp [bucket, pop]
  | cons one live inductionHypothesis =>
      by_cases isKey : one.key = key
      · by_cases isPlace : place key = index
        · simp [bucket, pop, isKey, isPlace]
        · simp [bucket, pop, isKey, isPlace]
      · have isPop : pop (one :: live) key = one :: pop live key := by
          simp [pop, isKey]
        have isBucket (rest : KeyedStacks κ ν) :
            bucket place (one :: rest) index =
              if place one.key = index then one :: rest.bucket place index
              else rest.bucket place index := by
          by_cases inBucket : place one.key = index
          · simp [bucket, inBucket]
          · simp [bucket, inBucket]
        rw [isPop, isBucket, isBucket, inductionHypothesis]
        by_cases inBucket : place one.key = index
        · by_cases isPlace : place key = index
          · simp [inBucket, isPlace, isKey]
          · simp [inBucket, isPlace]
        · simp [inBucket]

/-- Deleting the key of a visited item leaves the items after it. -/
theorem exists_bucket_pop
    (isBucket : live.bucket place index = kept ++ one :: rest)
    (isPlace : place one.key = index) :
    ∃ left, (live.pop one.key).bucket place index = left ++ rest := by
  have inside : one ∈ kept ++ [one] := by
    simp
  refine ⟨(kept ++ [one]).eraseP fun other => other.key = one.key, ?_⟩
  rw [bucket_pop, if_pos isPlace, isBucket, List.append_cons]
  exact @List.eraseP_append_left _ _ one (decide_eq_true rfl) _ rest
    inside

/-- A kept item before a chosen one is not left. -/
theorem drop_cons_ne
    {item older : ν}
    {items : List ν}
    (isKept : chosen item = false)
    (isOlder : older ∈ items)
    (isChosen : chosen older = true) :
    (item :: items).drop (items.countP chosen) ≠
      item :: items.filter (fun item => !chosen item) := by
  intro same
  have positive : 0 < items.countP chosen :=
    List.countP_pos_iff.mpr ⟨older, isOlder, isChosen⟩
  obtain ⟨count, isCount⟩ := Nat.exists_eq_add_one.mpr positive
  rw [isCount, List.drop_succ_cons] at same
  have fewer :
      (items.drop count).countP (fun item => !chosen item) ≤
        items.countP fun item => !chosen item :=
    (List.drop_sublist count items).countP_le
  rw [same, List.countP_cons_of_pos (by simp [isKept]),
    List.countP_filter] at fewer
  simp only [Bool.and_self] at fewer
  omega

/-- The chosen items are the first ones exactly if none is after a kept one. -/
theorem drop_countP_eq_filter_iff
    (items : List ν) :
    items.drop (items.countP chosen) =
        items.filter (fun item => !chosen item) ↔
      items.Pairwise fun newer older =>
        chosen older = true → chosen newer = true := by
  induction items with
  | nil =>
      simp
  | cons item items inductionHypothesis =>
      by_cases isChosen : chosen item = true
      · simp [isChosen, inductionHypothesis]
      · rw [List.countP_cons_of_neg isChosen,
          List.filter_cons_of_pos (by simpa using isChosen),
          List.pairwise_cons]
        constructor
        · intro same
          have noneChosen :
              ∀ older ∈ items, ¬chosen older = true := by
            intro older isOlder olderChosen
            exact drop_cons_ne (by simpa using isChosen) isOlder
              olderChosen same
          refine ⟨fun older isOlder olderChosen =>
            absurd olderChosen (noneChosen older isOlder), ?_⟩
          rw [List.countP_eq_zero.mpr noneChosen, List.drop_zero] at same
          refine inductionHypothesis.mp ?_
          rw [List.countP_eq_zero.mpr noneChosen, List.drop_zero]
          exact List.tail_eq_of_cons_eq same
        · intro both
          have noneChosen :
              ∀ older ∈ items, ¬chosen older = true := by
            intro older isOlder olderChosen
            exact isChosen (both.1 older isOlder olderChosen)
          have allKept := inductionHypothesis.mpr both.2
          rw [List.countP_eq_zero.mpr noneChosen, List.drop_zero]
            at allKept ⊢
          rw [← allKept]

/--
When all items are visited once, the kept items are left exactly if the chosen
ones are the most recent ones of their keys.
-/
theorem stack_purge_eq_filter_iff
    (once : ∀ key, (visited.stack key).Perm (live.stack key)) :
    (∀ key, (purge chosen live visited).stack key =
        (live.stack key).filter fun item => !chosen item) ↔
      live.NewestFirst chosen := by
  refine forall_congr' fun key => ?_
  rw [stack_purge, (once key).countP_eq]
  exact drop_countP_eq_filter_iff _

/-- If everything is chosen, nothing is left. -/
theorem purge_eq_nil
    (once : ∀ key, (visited.stack key).Perm (live.stack key))
    (all : ∀ item ∈ live.items, chosen item = true) :
    purge chosen live visited = [] := by
  rw [List.eq_nil_iff_forall_not_mem]
  intro one isLeft
  have onStack : one.item ∈ (purge chosen live visited).stack one.key :=
    List.mem_map.mpr ⟨one, by simpa using isLeft, rfl⟩
  have allChosen :
      (live.stack one.key).countP chosen =
        (live.stack one.key).length := by
    rw [List.countP_eq_length]
    intro item isItem
    obtain ⟨other, isOther, rfl⟩ := List.mem_map.mp isItem
    exact all _ (List.mem_map.mpr
      ⟨other, (List.mem_filter.mp isOther).1, rfl⟩)
  rw [stack_purge, (once one.key).countP_eq, allChosen,
    List.drop_length] at onStack
  exact List.not_mem_nil onStack

end LibKern.KeyedStacks
