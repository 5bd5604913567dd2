import Mathlib.Data.Finset.Card
import Mathlib.Data.Nat.Nth

namespace LibKern.Ranks

/-!
# Ordinals of the positions in a finite set

`Nat.count` counts the positions of a set below another position, and `Nat.nth`
is the position with a given ordinal.  On a finite set they are inverse to each
other below the size of the set, and so are the two maps that move a position to
the one with the same ordinal in another set of the same size.
-/

variable {set old new src orig : Finset Nat}
variable {position ordinal bits : Nat}

/-- The finite set of the positions that belong to a finite set. -/
theorem toFinset_eq (finite : (Set.ofPred (· ∈ set)).Finite) :
    finite.toFinset = set := by
  ext position
  simp

/-- The position with an ordinal below the size of the set is in the set. -/
theorem nth_mem (below : ordinal < set.card) :
    Nat.nth (· ∈ set) ordinal ∈ set := by
  apply Nat.nth_mem
  intro finite
  rw [toFinset_eq finite]
  exact below

/-- The ordinal of the position with a given ordinal. -/
theorem count_nth (below : ordinal < set.card) :
    Nat.count (· ∈ set) (Nat.nth (· ∈ set) ordinal) = ordinal := by
  apply Nat.count_nth
  intro finite
  rw [toFinset_eq finite]
  exact below

/-- There is no position with an ordinal that is not below the size. -/
theorem nth_of_card_le (atLeast : set.card ≤ ordinal) :
    Nat.nth (· ∈ set) ordinal = 0 := by
  have finite : (Set.ofPred (· ∈ set)).Finite := set.finite_toSet
  apply Nat.nth_of_card_le finite
  rw [toFinset_eq finite]
  exact atLeast

/-- The ordinal of a position in the set is below the size of the set. -/
theorem count_lt_card (member : position ∈ set) :
    Nat.count (· ∈ set) position < set.card := by
  rw [Nat.count_eq_card_filter_range]
  apply Finset.card_lt_card
  rw [Finset.ssubset_iff_of_subset]
  · exact ⟨position, member, by simp⟩
  · intro other isBelow
    exact (Finset.mem_filter.mp isBelow).2

/-- All positions are counted below a bound. -/
theorem count_eq_card (bounded : ∀ position ∈ set, position < bits) :
    Nat.count (· ∈ set) bits = set.card := by
  rw [Nat.count_eq_card_filter_range]
  congr 1
  ext position
  rw [Finset.mem_filter, Finset.mem_range]
  exact ⟨fun inside => inside.2, fun member => ⟨bounded _ member, member⟩⟩

/-- Positions outside of the set are not counted. -/
theorem count_eq_of_gap
    {start : Nat}
    (order : start ≤ position)
    (gap : ∀ index, start ≤ index → index < position → index ∉ set) :
    Nat.count (· ∈ set) position = Nat.count (· ∈ set) start := by
  induction position, order using Nat.le_induction with
  | base =>
      rfl
  | succ position order inductionHypothesis =>
      have notMember : position ∉ set := gap position order (by omega)
      rw [Nat.count_succ, if_neg notMember, Nat.add_zero]
      apply inductionHypothesis
      intro index above below
      exact gap index above (by omega)

/-- The positions up to a position of the set. -/
theorem filter_lt_succ_of_mem (member : position ∈ set) :
    set.filter (· < position + 1) =
      insert position (set.filter (· < position)) := by
  ext index
  rw [Finset.mem_insert, Finset.mem_filter, Finset.mem_filter]
  constructor
  · intro isBelow
    by_cases isLast : index = position
    · exact .inl isLast
    · exact .inr ⟨isBelow.1, by omega⟩
  · intro isBelow
    rcases isBelow with rfl | isBelow
    · exact ⟨member, by omega⟩
    · exact ⟨isBelow.1, by omega⟩

/-- The positions up to a position outside of the set. -/
theorem filter_lt_succ_of_notMem (notMember : position ∉ set) :
    set.filter (· < position + 1) = set.filter (· < position) := by
  ext index
  rw [Finset.mem_filter, Finset.mem_filter]
  refine and_congr_right fun member => ?_
  have different : index ≠ position := by
    intro same
    exact notMember (same ▸ member)
  omega

section Remap

/--
A position of the old set moves to the one with the same ordinal in the new set,
modulo its size.  Other positions stay where they are.
-/
noncomputable def remap (old new : Finset Nat) (position : Nat) : Nat :=
  if position ∈ old ∧ new ≠ ∅ then
    Nat.nth (· ∈ new) (Nat.count (· ∈ old) position % new.card)
  else
    position

/-- A position moves to a position below the same bound. -/
theorem remap_lt
    (bounded : ∀ position ∈ new, position < bits)
    (below : position < bits) :
    remap old new position < bits := by
  rw [remap]
  split
  · rename_i moves
    apply bounded
    apply nth_mem
    exact Nat.mod_lt _
      (Finset.card_pos.mpr (Finset.nonempty_iff_ne_empty.mpr moves.2))
  · exact below

/-- Between sets of the same size, a position keeps its ordinal. -/
theorem remap_of_mem
    (sameSize : old.card = new.card)
    (member : position ∈ old) :
    remap old new position =
      Nat.nth (· ∈ new) (Nat.count (· ∈ old) position) := by
  have below : Nat.count (· ∈ old) position < new.card := by
    rw [← sameSize]
    exact count_lt_card member
  have nonempty : new ≠ ∅ := by
    intro isEmpty
    rw [isEmpty] at below
    exact absurd below (by simp)
  rw [remap, if_pos ⟨member, nonempty⟩, Nat.mod_eq_of_lt below]

/-- A position that is moved there and back. -/
theorem remap_remap
    (sameSize : old.card = new.card)
    (member : position ∈ old) :
    remap new old (remap old new position) = position := by
  have below : Nat.count (· ∈ old) position < new.card := by
    rw [← sameSize]
    exact count_lt_card member
  rw [remap_of_mem sameSize member,
    remap_of_mem sameSize.symm (nth_mem below), count_nth below]
  exact Nat.nth_count member

/-- A subset of the old set that is moved there and back. -/
theorem image_remap_image
    (sameSize : old.card = new.card)
    (within : src ⊆ old) :
    (src.image (remap old new)).image (remap new old) = src := by
  rw [Finset.image_image]
  calc
    src.image (remap new old ∘ remap old new) = src.image id := by
      apply Finset.image_congr
      intro position member
      exact remap_remap sameSize (within member)
    _ = src := Finset.image_id

/-- No two positions of the old set move to the same one. -/
theorem card_image_remap
    (sameSize : old.card = new.card)
    (within : src ⊆ old) :
    (src.image (remap old new)).card = src.card := by
  apply Finset.card_image_of_injOn
  intro one member other otherMember same
  rw [← remap_remap sameSize (within member), same,
    remap_remap sameSize (within otherMember)]

end Remap

section Onto

/-- The positions of a set with an ordinal in another set. -/
def onto (orig set : Finset Nat) : Finset Nat :=
  set.filter fun position => Nat.count (· ∈ set) position ∈ orig

/-- A position with one of the ordinals. -/
theorem mem_onto :
    position ∈ onto orig set ↔
      position ∈ set ∧ Nat.count (· ∈ set) position ∈ orig :=
  Finset.mem_filter

/-- The positions with the ordinals that exist. -/
theorem onto_eq_image :
    onto orig set =
      ((Finset.range set.card).filter (· ∈ orig)).image
        (Nat.nth (· ∈ set)) := by
  ext position
  rw [mem_onto, Finset.mem_image]
  constructor
  · intro isOnto
    obtain ⟨member, isOrdinal⟩ := isOnto
    exact ⟨Nat.count (· ∈ set) position,
      Finset.mem_filter.mpr
        ⟨Finset.mem_range.mpr (count_lt_card member), isOrdinal⟩,
      Nat.nth_count member⟩
  · intro isImage
    obtain ⟨ordinal, inside, rfl⟩ := isImage
    rw [Finset.mem_filter, Finset.mem_range] at inside
    refine ⟨nth_mem inside.1, ?_⟩
    rw [count_nth inside.1]
    exact inside.2

/-- When the ordinals are folded first, all of them exist. -/
theorem onto_fold (nonempty : 1 ≤ set.card) :
    onto (orig.image (· % set.card)) set =
      orig.image fun ordinal => Nat.nth (· ∈ set) (ordinal % set.card) := by
  rw [onto_eq_image]
  have allExist :
      (Finset.range set.card).filter
          (· ∈ orig.image (· % set.card)) =
        orig.image (· % set.card) := by
    ext ordinal
    rw [Finset.mem_filter, Finset.mem_range]
    refine ⟨fun inside => inside.2, fun member => ⟨?_, member⟩⟩
    obtain ⟨unfolded, -, rfl⟩ := Finset.mem_image.mp member
    exact Nat.mod_lt _ nonempty
  rw [allExist, Finset.image_image]
  rfl

end Onto

end LibKern.Ranks
