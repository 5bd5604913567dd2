import LibKern.Memory
import Mathlib.Data.List.Nodup

namespace LibKern

/-!
# Chains of nodes that are linked in both directions

A slot holds a pointer to a node, and the node points back to the slot.  Every
node has a slot of its own, which leads to the next node.  A slot can be the
node itself, as in a doubly linked list, or the address of a pointer, as in a
list whose head is a single pointer.  The null pointer at the end of a list
does not point back.

A chain leaves open where its last slot leads.  An in-place algorithm redirects
this slot, so that it only cuts a chain into parts and joins the parts again.
-/

/-- The pointers from slots to nodes, and from nodes back to slots. -/
structure Wiring (σ τ : Type) where
  forward : σ → Option τ
  backward : τ → Option σ

namespace Wiring

variable {σ τ : Type}

/-- The slot of the last node of a chain. -/
def lastSlot (slot : τ → σ) : σ → List τ → σ
  | start, [] => start
  | _, node :: rest => lastSlot slot (slot node) rest

/-- All slots of a chain. -/
def slots (slot : τ → σ) (start : σ) (nodes : List τ) : List σ :=
  start :: nodes.map slot

section Slots

variable {slot : τ → σ}
variable {start : σ}
variable {node : τ}
variable {nodes front back : List τ}

@[simp] theorem lastSlot_nil : lastSlot slot start [] = start :=
  rfl

@[simp] theorem lastSlot_cons :
    lastSlot slot start (node :: nodes) =
      lastSlot slot (slot node) nodes :=
  rfl

@[simp] theorem lastSlot_append :
    lastSlot slot start (front ++ back) =
      lastSlot slot (lastSlot slot start front) back := by
  induction front generalizing start with
  | nil =>
      rfl
  | cons first rest inductionHypothesis =>
      exact inductionHypothesis

theorem lastSlot_mem_slots :
    lastSlot slot start nodes ∈ slots slot start nodes := by
  induction nodes generalizing start with
  | nil =>
      simp [slots]
  | cons node rest inductionHypothesis =>
      exact List.mem_cons_of_mem _ inductionHypothesis

theorem headD_mem : nodes.headD node ∈ nodes ++ [node] := by
  cases nodes <;> simp

end Slots

variable [Null τ]

/-- A slot leads to a node, and the node points back to the slot. -/
def Joins (wiring : Wiring σ τ) (start : σ) (node : τ) : Prop :=
  wiring.forward start = some node ∧
    (node ≠ null → wiring.backward node = some start)

section Chains

variable (slot : τ → σ)

/-- The nodes are linked one after the other. -/
def Chain (wiring : Wiring σ τ) : σ → List τ → Prop
  | _, [] => True
  | start, node :: rest =>
      wiring.Joins start node ∧ Chain wiring (slot node) rest

/-- The nodes are linked one after the other, and the last slot to `stop`. -/
def Path
    (wiring : Wiring σ τ)
    (start : σ)
    (nodes : List τ)
    (stop : τ) : Prop :=
  Chain slot wiring start nodes ∧
    wiring.Joins (lastSlot slot start nodes) stop

end Chains

section Facts

variable {slot : τ → σ}
variable {wiring after : Wiring σ τ}
variable {start origin : σ}
variable {nodes front back : List τ}
variable {node stop : τ}

@[simp] theorem chain_nil : Chain slot wiring start [] :=
  trivial

@[simp] theorem chain_cons :
    Chain slot wiring start (node :: nodes) ↔
      wiring.Joins start node ∧ Chain slot wiring (slot node) nodes :=
  .rfl

/-- A chain can be cut at any place. -/
theorem chain_append :
    Chain slot wiring start (front ++ back) ↔
      Chain slot wiring start front ∧
        Chain slot wiring (lastSlot slot start front) back := by
  induction front generalizing start with
  | nil =>
      simp
  | cons first rest inductionHypothesis =>
      rw [List.cons_append, chain_cons, chain_cons, inductionHypothesis,
        lastSlot_cons, and_assoc]

theorem path_nil :
    Path slot wiring start [] stop ↔ wiring.Joins start stop := by
  simp [Path]

theorem path_cons :
    Path slot wiring start (node :: nodes) stop ↔
      wiring.Joins start node ∧
        Path slot wiring (slot node) nodes stop := by
  rw [Path, chain_cons, lastSlot_cons, and_assoc, Path]

/-- A path is a chain and the path that follows it. -/
theorem path_append :
    Path slot wiring start (front ++ back) stop ↔
      Chain slot wiring start front ∧
        Path slot wiring (lastSlot slot start front) back stop := by
  rw [Path, chain_append, lastSlot_append, and_assoc, Path]

/-- A path is cut at one of its nodes. -/
theorem path_append_cons :
    Path slot wiring start (front ++ node :: back) stop ↔
      Path slot wiring start front node ∧
        Path slot wiring (slot node) back stop := by
  rw [path_append, path_cons, ← and_assoc]
  rfl

/-- Where the first slot of a path leads. -/
theorem Path.forward_start
    (path : Path slot wiring start nodes stop) :
    wiring.forward start = some (nodes.headD stop) := by
  cases nodes with
  | nil =>
      exact (path_nil.mp path).1
  | cons node rest =>
      exact (path_cons.mp path).1.1

/-- Every slot of a path leads to a node of the path. -/
theorem Path.exists_joins
    (path : Path slot wiring start nodes stop)
    {one : σ}
    (isSlot : one ∈ slots slot start nodes) :
    ∃ node ∈ nodes ++ [stop], wiring.Joins one node := by
  induction nodes generalizing start with
  | nil =>
      obtain rfl : one = start := by
        simpa [slots] using isSlot
      exact ⟨stop, by simp, path_nil.mp path⟩
  | cons first rest inductionHypothesis =>
      obtain ⟨joined, following⟩ := path_cons.mp path
      rcases List.mem_cons.mp isSlot with rfl | isLater
      · exact ⟨first, by simp, joined⟩
      · obtain ⟨node, isNode, joins⟩ :=
          inductionHypothesis following isLater
        exact ⟨node, List.mem_cons_of_mem _ isNode, joins⟩

/-- Every node of a path is reached from a slot of the path. -/
theorem Path.exists_joined
    (path : Path slot wiring start nodes stop)
    (isNode : node ∈ nodes ++ [stop]) :
    ∃ one ∈ slots slot start nodes, wiring.Joins one node := by
  induction nodes generalizing start with
  | nil =>
      obtain rfl : node = stop := by
        simpa using isNode
      exact ⟨start, by simp [slots], path_nil.mp path⟩
  | cons first rest inductionHypothesis =>
      obtain ⟨joined, following⟩ := path_cons.mp path
      rcases List.mem_cons.mp isNode with rfl | isLater
      · exact ⟨start, by simp [slots], joined⟩
      · obtain ⟨one, isSlot, joins⟩ :=
          inductionHypothesis following isLater
        exact ⟨one, List.mem_cons_of_mem _ isSlot, joins⟩

/-- What the end of a path points back to. -/
theorem Path.backward_stop
    (path : Path slot wiring start nodes stop)
    (notNull : stop ≠ null) :
    wiring.backward stop = some (lastSlot slot start nodes) :=
  path.2.2 notNull

/-- A chain does not depend on where its last slot leads. -/
theorem Chain.congr
    (chain : Chain slot wiring start nodes)
    (distinct : (slots slot start nodes).Nodup)
    (sameForward :
      ∀ one ∈ slots slot start nodes, one ≠ lastSlot slot start nodes →
        after.forward one = wiring.forward one)
    (sameBackward :
      ∀ one ∈ nodes, one ≠ null →
        after.backward one = wiring.backward one) :
    Chain slot after start nodes := by
  induction nodes generalizing start with
  | nil =>
      trivial
  | cons node rest inductionHypothesis =>
      obtain ⟨joined, chained⟩ := chain
      obtain ⟨outside, distinctRest⟩ := List.nodup_cons.mp distinct
      have notLast : start ≠ lastSlot slot (slot node) rest := by
        intro isLast
        exact outside (isLast ▸ lastSlot_mem_slots)
      refine ⟨⟨?_, ?_⟩, inductionHypothesis chained distinctRest ?_ ?_⟩
      · rw [sameForward start (by simp [slots]) notLast]
        exact joined.1
      · intro notNull
        rw [sameBackward node (by simp) notNull]
        exact joined.2 notNull
      · intro one isSlot isInner
        exact sameForward one (List.mem_cons_of_mem _ isSlot) isInner
      · intro one isNode
        exact sameBackward one (List.mem_cons_of_mem _ isNode)

/-- A path only depends on its own slots and nodes. -/
theorem Path.congr
    (path : Path slot wiring start nodes stop)
    (sameForward :
      ∀ one ∈ slots slot start nodes,
        after.forward one = wiring.forward one)
    (sameBackward :
      ∀ one ∈ nodes ++ [stop], one ≠ null →
        after.backward one = wiring.backward one) :
    Path slot after start nodes stop := by
  induction nodes generalizing start with
  | nil =>
      rw [path_nil] at path ⊢
      refine ⟨?_, fun notNull => ?_⟩
      · rw [sameForward start (by simp [slots])]
        exact path.1
      · rw [sameBackward stop (by simp) notNull]
        exact path.2 notNull
  | cons node rest inductionHypothesis =>
      rw [path_cons] at path ⊢
      obtain ⟨joined, following⟩ := path
      refine ⟨⟨?_, fun notNull => ?_⟩, inductionHypothesis following ?_ ?_⟩
      · rw [sameForward start (by simp [slots])]
        exact joined.1
      · rw [sameBackward node (by simp) notNull]
        exact joined.2 notNull
      · intro one isSlot
        exact sameForward one (List.mem_cons_of_mem _ isSlot)
      · intro one isNode
        exact sameBackward one (List.mem_cons_of_mem _ isNode)

/-- A path whose start is moved to another slot. -/
theorem Path.restart
    (path : Path slot wiring origin nodes stop)
    (distinct : (nodes ++ [stop]).Nodup)
    (joined : after.Joins start (nodes.headD stop))
    (sameForward :
      ∀ one ∈ nodes, after.forward (slot one) = wiring.forward (slot one))
    (sameBackward :
      ∀ one ∈ nodes ++ [stop], one ≠ nodes.headD stop → one ≠ null →
        after.backward one = wiring.backward one) :
    Path slot after start nodes stop := by
  cases nodes with
  | nil =>
      exact path_nil.mpr joined
  | cons node rest =>
      refine path_cons.mpr ⟨joined, ?_⟩
      refine (path_cons.mp path).2.congr ?_ ?_
      · intro one isSlot
        obtain ⟨inner, isNode, rfl⟩ : ∃ inner ∈ node :: rest,
            slot inner = one := by
          simpa [slots, eq_comm] using isSlot
        exact sameForward inner isNode
      · intro one isNode notNull
        refine sameBackward one (List.mem_cons_of_mem _ isNode) ?_ notNull
        intro isFirst
        obtain rfl : one = node := isFirst
        exact (List.nodup_cons.mp distinct).1 isNode

/--
A path of which one part is replaced.  The slot before this part and the node
after it are redirected, and the rest of the path is not changed.
-/
theorem Path.rejoin
    {removed middle : List τ}
    (path : Path slot wiring start (front ++ (removed ++ back)) stop)
    (replaced :
      Path slot after (lastSlot slot start front) middle
        (back.headD stop))
    (distinctSlots : (slots slot start (front ++ back)).Nodup)
    (distinct : (front ++ (back ++ [stop])).Nodup)
    (sameForward :
      ∀ one ∈ slots slot start (front ++ back),
        one ≠ lastSlot slot start front →
          after.forward one = wiring.forward one)
    (sameBackward :
      ∀ one ∈ front ++ (back ++ [stop]),
        one ≠ back.headD stop → one ≠ null →
          after.backward one = wiring.backward one) :
    Path slot after start (front ++ (middle ++ back)) stop := by
  obtain ⟨chain, following⟩ := path_append.mp path
  obtain ⟨-, distinctBack, disjoint⟩ := List.nodup_append.mp distinct
  simp only [slots, List.map_append] at distinctSlots sameForward
  rw [← List.cons_append, List.nodup_append] at distinctSlots
  obtain ⟨distinctFront, -, disjointSlots⟩ := distinctSlots
  have isLast := @lastSlot_mem_slots _ _ slot start front
  refine path_append.mpr ⟨?_, path_append.mpr ⟨replaced.1, ?_⟩⟩
  · refine chain.congr distinctFront ?_ ?_
    · intro one isSlot isInner
      refine sameForward one ?_ isInner
      rw [← List.cons_append]
      exact List.mem_append_left _ isSlot
    · intro one isNode
      refine sameBackward one (List.mem_append_left _ isNode) ?_
      exact disjoint one isNode _ headD_mem
  · refine (path_append.mp following).2.restart distinctBack replaced.2
      ?_ ?_
    · intro one isNode
      have isSlot : slot one ∈ back.map slot :=
        List.mem_map_of_mem isNode
      refine sameForward (slot one) ?_ ?_
      · exact List.mem_cons_of_mem _ (List.mem_append_right _ isSlot)
      · exact (disjointSlots _ isLast _ isSlot).symm
    · intro one isNode
      exact sameBackward one (List.mem_append_right _ isNode)

end Facts

end Wiring

end LibKern
