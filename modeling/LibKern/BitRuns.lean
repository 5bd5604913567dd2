import Mathlib.Data.List.Basic
import Mathlib.Order.Nat

namespace LibKern

/-!
# Runs of set bits

The set bits below a size are listed as the maximal runs of consecutive set
bits, in ascending order.  A run is the pair of its first and its last bit.
-/

/--
These are the maximal runs of set bits from a start on, if the bit before the
start is clear.
-/
inductive Runs
    (bits : Nat → Bool)
    (size : Nat) : Nat → List (Nat × Nat) → Prop where
  | none
      {start : Nat} :
      (∀ index, start ≤ index → index < size → bits index = false) →
      Runs bits size start []
  | run
      {start first last : Nat}
      {rest : List (Nat × Nat)} :
      start ≤ first →
      first ≤ last →
      last < size →
      (∀ index, start ≤ index → index < first → bits index = false) →
      (∀ index, first ≤ index → index ≤ last → bits index = true) →
      (last + 1 < size → bits (last + 1) = false) →
      Runs bits size (last + 1) rest →
      Runs bits size start ((first, last) :: rest)

/-- Put a set bit in front of the runs that follow it. -/
def extendRun (index : Nat) : List (Nat × Nat) → List (Nat × Nat)
  | [] => [(index, index)]
  | (first, last) :: rest =>
      if first = index + 1 then (index, last) :: rest
      else (index, index) :: (first, last) :: rest

/-- The runs of a number of bits from a start on. -/
def runsFrom (bits : Nat → Bool) : Nat → Nat → List (Nat × Nat)
  | 0, _ => []
  | count + 1, start =>
      if bits start then
        extendRun start (runsFrom bits count (start + 1))
      else
        runsFrom bits count (start + 1)

/-- The runs of the bits below a size. -/
def runs (bits : Nat → Bool) (size : Nat) : List (Nat × Nat) :=
  runsFrom bits size 0

namespace Runs

variable {bits other : Nat → Bool}
variable {size start index : Nat}
variable {list others : List (Nat × Nat)}

/-- The runs after the first one. -/
theorem tail
    {first last : Nat}
    (isRuns : Runs bits size start ((first, last) :: list)) :
    Runs bits size (last + 1) list := by
  cases isRuns with
  | run _ _ _ _ _ _ following =>
      exact following

/-- A clear bit before the runs. -/
theorem clear
    (isClear : bits start = false)
    (isRuns : Runs bits size (start + 1) list) :
    Runs bits size start list := by
  have extended
      {stop : Nat}
      (clear :
        ∀ index, start + 1 ≤ index → index < stop → bits index = false)
      (index : Nat)
      (above : start ≤ index)
      (below : index < stop) :
      bits index = false := by
    rcases above.eq_or_lt with rfl | later
    · exact isClear
    · exact clear index later below
  cases isRuns with
  | none clear =>
      exact .none (extended clear)
  | run above ordered bound clear set ends rest =>
      exact .run (by omega) ordered bound (extended clear) set ends rest

/-- The runs only depend on the bits below the size. -/
theorem congr
    (same : ∀ index < size, other index = bits index)
    (isRuns : Runs bits size start list) :
    Runs other size start list := by
  induction isRuns with
  | none clear =>
      refine .none fun index above below => ?_
      rw [same index below]
      exact clear index above below
  | @run start first last rest above ordered bound clear set ends _
      inductionHypothesis =>
      refine .run above ordered bound ?_ ?_ ?_ inductionHypothesis
      · intro index fromStart toFirst
        rw [same index (by omega)]
        exact clear index fromStart toFirst
      · intro index fromFirst toLast
        rw [same index (by omega)]
        exact set index fromFirst toLast
      · intro inside
        rw [same _ inside]
        exact ends inside

/-- A set bit before the runs. -/
theorem extend
    (isSet : bits start = true)
    (bound : start < size)
    (isRuns : Runs bits size (start + 1) list) :
    Runs bits size start (extendRun start list) := by
  have single :
      ∀ index, start ≤ index → index ≤ start → bits index = true := by
    intro index above below
    obtain rfl : start = index := le_antisymm above below
    exact isSet
  cases isRuns with
  | none clear =>
      exact .run le_rfl le_rfl bound (by omega) single
        (fun inside => clear _ le_rfl inside) (.none clear)
  | @run _ first last rest above ordered inside clear set ends following =>
      rw [extendRun]
      split
      · rename_i adjacent
        refine .run le_rfl (by omega) inside (by omega) ?_ ends following
        intro index fromStart toLast
        rcases fromStart.eq_or_lt with rfl | later
        · exact isSet
        · exact set index (by omega) toLast
      · rename_i gap
        exact .run le_rfl le_rfl bound (by omega) single
          (fun _ => clear _ le_rfl (by omega))
          (.run above ordered inside clear set ends following)

/-- `runsFrom` lists the runs. -/
theorem of_runsFrom
    (count start : Nat) :
    Runs bits (start + count) start (runsFrom bits count start) := by
  induction count generalizing start with
  | zero =>
      exact .none (by omega)
  | succ count inductionHypothesis =>
      have following := inductionHypothesis (start + 1)
      have same : start + 1 + count = start + (count + 1) := by
        omega
      rw [same] at following
      rw [runsFrom]
      split
      · rename_i isSet
        exact following.extend isSet (by omega)
      · rename_i isClear
        exact following.clear (by simpa using isClear)

/-- `runs` lists the runs. -/
theorem of_runs : Runs bits size 0 (runs bits size) := by
  have isRuns := @of_runsFrom bits size 0
  rwa [Nat.zero_add] at isRuns

/-- The runs are determined by the bits. -/
theorem unique
    (one : Runs bits size start list)
    (another : Runs bits size start others) :
    list = others := by
  induction one generalizing others with
  | none clear =>
      cases another with
      | none _ =>
          rfl
      | run above ordered bound _ set _ _ =>
          have isSet := set _ le_rfl ordered
          rw [clear _ above (by omega)] at isSet
          exact absurd isSet (by simp)
  | @run start first last rest above ordered bound clear set ends _
      inductionHypothesis =>
      cases another with
      | none otherClear =>
          have isSet := set _ le_rfl ordered
          rw [otherClear _ above (by omega)] at isSet
          exact absurd isSet (by simp)
      | @run _ otherFirst otherLast _ otherAbove otherOrdered otherBound
          otherClear otherSet otherEnds otherRest =>
          have sameFirst : first = otherFirst := by
            rcases lt_trichotomy first otherFirst with less | same | more
            · have isSet := set first le_rfl ordered
              rw [otherClear first above less] at isSet
              exact absurd isSet (by simp)
            · exact same
            · have isSet := otherSet otherFirst le_rfl otherOrdered
              rw [clear otherFirst otherAbove more] at isSet
              exact absurd isSet (by simp)
          subst sameFirst
          have sameLast : last = otherLast := by
            rcases lt_trichotomy last otherLast with less | same | more
            · have isSet := otherSet (last + 1) (by omega) (by omega)
              rw [ends (by omega)] at isSet
              exact absurd isSet (by simp)
            · exact same
            · have isSet := set (otherLast + 1) (by omega) (by omega)
              rw [otherEnds (by omega)] at isSet
              exact absurd isSet (by simp)
          subst sameLast
          rw [inductionHypothesis otherRest]

/-- Every run is a range of bits below the size. -/
theorem bounds
    (isRuns : Runs bits size start list) :
    ∀ run ∈ list, run.1 ≤ run.2 ∧ run.2 < size := by
  induction isRuns with
  | none _ =>
      simp
  | run _ ordered bound _ _ _ _ inductionHypothesis =>
      rw [List.forall_mem_cons]
      exact ⟨⟨ordered, bound⟩, inductionHypothesis⟩

/-- The bits of a run are set. -/
theorem set_of_mem
    (isRuns : Runs bits size start list)
    {run : Nat × Nat}
    (isMember : run ∈ list)
    (above : run.1 ≤ index)
    (below : index ≤ run.2) :
    bits index = true := by
  induction isRuns with
  | none _ =>
      simp at isMember
  | run _ _ _ _ set _ _ inductionHypothesis =>
      rcases List.mem_cons.mp isMember with rfl | inRest
      · exact set index above below
      · exact inductionHypothesis inRest

/-- A bit is set if it is in one of the runs. -/
theorem set_iff
    (isRuns : Runs bits size start list)
    (above : start ≤ index)
    (below : index < size) :
    bits index = true ↔ ∃ run ∈ list, run.1 ≤ index ∧ index ≤ run.2 := by
  constructor
  · intro isSet
    induction isRuns with
    | none clear =>
        rw [clear index above below] at isSet
        exact absurd isSet (by simp)
    | @run start first last _ _ _ _ clear _ _ _ inductionHypothesis =>
        by_cases later : last < index
        · obtain ⟨run, isMember, inside⟩ := inductionHypothesis later
          exact ⟨run, List.mem_cons_of_mem _ isMember, inside⟩
        · refine ⟨(first, last), by simp, ?_, not_lt.mp later⟩
          by_contra before
          rw [clear index above (not_le.mp before)] at isSet
          exact absurd isSet (by simp)
  · intro isIn
    obtain ⟨run, isMember, fromFirst, toLast⟩ := isIn
    exact isRuns.set_of_mem isMember fromFirst toLast

/-- Ranges with gaps between them that contain the set bits are the runs. -/
theorem of_ranges
    (inside :
      ∀ run ∈ list, start ≤ run.1 ∧ run.1 ≤ run.2 ∧ run.2 < size)
    (gaps : list.Pairwise fun run next => run.2 + 1 < next.1)
    (covers :
      ∀ index, start ≤ index → index < size →
        (bits index = true ↔
          ∃ run ∈ list, run.1 ≤ index ∧ index ≤ run.2)) :
    Runs bits size start list := by
  induction list generalizing start with
  | nil =>
      apply Runs.none
      intro index above below
      simpa using (covers index above below).not
  | cons run rest inductionHypothesis =>
      obtain ⟨first, last⟩ := run
      rw [List.forall_mem_cons] at inside
      rw [List.pairwise_cons] at gaps
      obtain ⟨⟨above, ordered, bound⟩, restInside⟩ := inside
      have isClear
          {index : Nat}
          (fromStart : start ≤ index)
          (below : index < size)
          (outside : index < first ∨ last < index ∧ index ≤ last + 1) :
          bits index = false := by
        rw [← Bool.not_eq_true, covers index fromStart below]
        intro isIn
        obtain ⟨run, isMember, fromFirst, toLast⟩ := isIn
        rcases List.mem_cons.mp isMember with rfl | inRest
        · omega
        · have gap := gaps.1 run inRest
          omega
      refine .run above ordered bound ?_ ?_ ?_ ?_
      · intro index fromStart toFirst
        exact isClear fromStart (by omega) (.inl toFirst)
      · intro index fromFirst toLast
        exact (covers index (by omega) (by omega)).mpr
          ⟨(first, last), by simp, fromFirst, toLast⟩
      · intro below
        exact isClear (by omega) below (.inr ⟨by omega, le_rfl⟩)
      · refine inductionHypothesis ?_ gaps.2 ?_
        · intro run isMember
          have gap := gaps.1 run isMember
          have range := restInside run isMember
          omega
        · intro index later below
          rw [covers index (by omega) below, List.exists_mem_cons_iff]
          constructor
          · intro isIn
            rcases isIn with inFirst | inRest
            · omega
            · exact inRest
          · exact .inr

/-- A run does not start before the start. -/
theorem le_first
    {run : Nat × Nat}
    (isRuns : Runs bits size start list)
    (member : run ∈ list) :
    start ≤ run.1 := by
  induction isRuns with
  | none _ =>
      simp at member
  | run above ordered _ _ _ _ _ inductionHypothesis =>
      rcases List.mem_cons.mp member with rfl | later
      · exact above
      · have behind := inductionHypothesis later
        omega

/-- The runs of a list are ascending. -/
theorem ascending
    {run : Nat × Nat}
    {shown : List (Nat × Nat)}
    (isRuns : Runs bits size start (shown ++ run :: others)) :
    ∀ earlier ∈ shown, earlier.2 < run.1 := by
  induction shown generalizing start with
  | nil =>
      simp
  | cons head shown inductionHypothesis =>
      have behind : head.2 + 1 ≤ run.1 :=
        isRuns.tail.le_first (by simp)
      simp only [List.mem_cons, forall_eq_or_imp]
      exact ⟨by omega, inductionHypothesis isRuns.tail⟩

end Runs

end LibKern
