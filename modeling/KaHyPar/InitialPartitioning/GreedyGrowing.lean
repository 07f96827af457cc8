import KaHyPar.Hypergraph

/-!
# Greedy hypergraph growing

`partition/initial_partitioning/GreedyHypergraphGrowingInitialPartitioner.h`: the `k` blocks grow
from start nodes, one hypernode at a time, out of the unassigned part.

1. The k-way priority queue `_pq` (`lib/datastructure/KWayPriorityQueue.h` is not among the
   sources) is modelled from the spec, §4.2: the key of each hypernode in the queue of each
   block, and an enabled bit per queue.
2. The members the loop reads and writes form one flat state `GreedyState`: the block of every
   hypernode, `_pq` and `_hyperedge_in_queue`.
3. The template policies (`StartNodeSelection`, `GainComputation`, `QueueSelection`) and the two
   operations of `InitialPartitionerBase` the loop calls are not among the sources: a `Callees`
   value gives each of them as a function of the state, so a statement over every `Callees`
   covers every policy.
4. `initialPartition` up to the end of its `while (true)` loop: one pass of the loop is
   `iteration`, and the loop is `initialPartitionLoop`, which runs at most `fuel` passes and says
   whether the loop has left.
5. After the loop, when the operating unassigned part is `-1`, the hypernodes it left unassigned
   go to block 0 or 1 (`assignUnassignedHypernodes`); `initialPartition` is the method up to the
   rollback and the FM refinement of the base class.
-/

namespace KaHyPar

/-! ## The k-way priority queue -/

/-- Modelled from the spec: the queue of block `part` holds `hn` with key `key part hn`, and its
bit `enabled part` says whether the queue takes part in the selection of the next move. -/
structure KWayPriorityQueue where
  key : Nat → Nat → Option Int
  enabled : Nat → Bool

namespace KWayPriorityQueue

variable (q : KWayPriorityQueue)

/-- `contains(hn, part)`. -/
def contains (hn part : Nat) : Bool := (q.key part hn).isSome

/-- `isEnabled(part)`. -/
def isEnabled (part : Nat) : Bool := q.enabled part

/-- `size(part)`, for a queue initialized with `capacity` ids. -/
def size (capacity part : Nat) : Nat := (List.range capacity).countP fun hn => q.contains hn part

/-- `insert(hn, part, gain)`. -/
def insert (hn part : Nat) (gain : Int) : KWayPriorityQueue :=
  { q with key := Function.update q.key part (Function.update (q.key part) hn (some gain)) }

/-- `updateKey(hn, part, gain)`. -/
def updateKey (hn part : Nat) (gain : Int) : KWayPriorityQueue := q.insert hn part gain

/-- `remove(hn, part)`. -/
def remove (hn part : Nat) : KWayPriorityQueue :=
  { q with key := Function.update q.key part (Function.update (q.key part) hn none) }

/-- `enablePart(part)`. -/
def enablePart (part : Nat) : KWayPriorityQueue := { q with enabled := Function.update q.enabled part true }

/-- `disablePart(part)`. -/
def disablePart (part : Nat) : KWayPriorityQueue := { q with enabled := Function.update q.enabled part false }

/-- `clear()`: every queue empty and disabled. -/
def clear : KWayPriorityQueue := ⟨fun _ _ => none, fun _ => false⟩

@[simp] theorem contains_insert (hn part : Nat) (gain : Int) (x p : Nat) :
    (q.insert hn part gain).contains x p = (decide (p = part ∧ x = hn) || q.contains x p) := by
  unfold insert contains
  by_cases hp : p = part
  · subst hp; by_cases hx : x = hn
    · subst hx; simp
    · simp [Function.update_noteq hx, hx]
  · simp [Function.update_noteq hp, hp]

@[simp] theorem contains_remove (hn part x p : Nat) :
    (q.remove hn part).contains x p = (!decide (p = part ∧ x = hn) && q.contains x p) := by
  unfold remove contains
  by_cases hp : p = part
  · subst hp; by_cases hx : x = hn
    · subst hx; simp
    · simp [Function.update_noteq hx, hx]
  · simp [Function.update_noteq hp, hp]

@[simp] theorem contains_enablePart (part x p : Nat) : (q.enablePart part).contains x p = q.contains x p := rfl

@[simp] theorem contains_disablePart (part x p : Nat) : (q.disablePart part).contains x p = q.contains x p :=
  rfl

@[simp] theorem isEnabled_insert (hn part : Nat) (gain : Int) (p : Nat) :
    (q.insert hn part gain).isEnabled p = q.isEnabled p := rfl

@[simp] theorem isEnabled_remove (hn part p : Nat) : (q.remove hn part).isEnabled p = q.isEnabled p := rfl

@[simp] theorem isEnabled_enablePart (part p : Nat) :
    (q.enablePart part).isEnabled p = (decide (p = part) || q.isEnabled p) := by
  by_cases hp : p = part
  · subst hp; simp [enablePart, isEnabled]
  · simp [enablePart, isEnabled, Function.update_noteq hp, hp]

@[simp] theorem isEnabled_disablePart (part p : Nat) :
    (q.disablePart part).isEnabled p = (!decide (p = part) && q.isEnabled p) := by
  by_cases hp : p = part
  · subst hp; simp [disablePart, isEnabled]
  · simp [disablePart, isEnabled, Function.update_noteq hp, hp]

end KWayPriorityQueue

/-! ## The state and the callees -/

/-- The members `initialPartition` reads and writes: the block `_hg.partID(hn)` of every
hypernode (the unassigned part is `-1` or a block), `_pq`, and `_hyperedge_in_queue`. -/
structure GreedyState where
  partID : Nat → Int
  pq : KWayPriorityQueue
  hyperedgeInQueue : Nat → Bool

/-- What the loop reads of `_config.initial_partitioning`, while `unassigned_part` holds the
operating unassigned part of the queue-selection policy. -/
structure GreedyConfig where
  k : Nat
  unassignedPart : Int

/-- Modelled from the spec: the policies and the operations of `InitialPartitionerBase` the
loop calls, none of them in the source, each a function of the state; what the loop relies on
them for is stated separately, as contracts. `nextQueueID` answers `none` for `false`, and
`some (current_hn, current_id)` for `true` (`current_gain` is read only by an `ASSERT`);
`assignHypernodeToPartition` also reads whether the upper bound is released, since that
changes the balance constraint it checks. -/
structure Callees where
  calculateStartNodes : Nat → List Nat
  nextQueueID : GreedyState → Nat → Bool → Option (Nat × Nat) × GreedyState
  assignHypernodeToPartition : GreedyState → Bool → Nat → Nat → Bool × GreedyState
  deltaGainUpdate : GreedyState → Nat → Int → Nat → GreedyState
  calculateGain : GreedyState → Nat → Nat → Int
  getUnassignedNode : GreedyState → Option Nat

/-- A pass of the loop leaves it (`break`) or goes on with the next `current_id` and
`is_upper_bound_released`. -/
inductive Outcome where
  | done (s : GreedyState)
  | next (s : GreedyState) (currentId : Nat) (isUpperBoundReleased : Bool)

/-- The state a pass ends in. -/
def Outcome.state : Outcome → GreedyState
  | .done s => s
  | .next s _ _ => s

/-- The loop has left. -/
def Outcome.isDone : Outcome → Bool
  | .done _ => true
  | .next _ _ _ => false

/-! ## The members of the partitioner -/

section Members

variable (hg : Hypergraph) (c : GreedyConfig) (cb : Callees)

/-- `_hg.partWeight(part)`. -/
def partWeight (s : GreedyState) (part : Int) : Int :=
  ((hg.nodes.filter fun hn => s.partID hn = part).map hg.nodeWeight).sum

/-- `insertNodeIntoPQ(hn, target_part, updateGain)`. -/
def insertNodeIntoPQ (hn targetPart : Nat) (updateGain : Bool) (s : GreedyState) : GreedyState :=
  if s.partID hn ≠ targetPart then
    if !s.pq.contains hn targetPart then
      let gain := cb.calculateGain s hn targetPart
      let s := { s with pq := s.pq.insert hn targetPart gain }
      if !s.pq.isEnabled targetPart && (targetPart : Int) ≠ c.unassignedPart then
        { s with pq := s.pq.enablePart targetPart }
      else s
    else if updateGain then
      { s with pq := s.pq.updateKey hn targetPart (cb.calculateGain s hn targetPart) }
    else s
  else s

/-- `insertUnassignedHypernodeIntoPQ(part)`; `kInvalidNode` is `none`. -/
def insertUnassignedHypernodeIntoPQ (part : Nat) (s : GreedyState) : GreedyState :=
  match cb.getUnassignedNode s with
  | some unassignedNode => insertNodeIntoPQ c cb unassignedNode part false s
  | none => s

/-- `deleteNodeInAllBucketQueues(hn)`. -/
def deleteNodeInAllBucketQueues (hn : Nat) (s : GreedyState) : GreedyState :=
  (List.range c.k).foldl (fun s part =>
    if s.pq.contains hn part then
      let s := if s.pq.isEnabled part && s.pq.size hg.initialNumNodes part == 1 &&
          s.partID hn ≠ part then insertUnassignedHypernodeIntoPQ c cb part s else s
      { s with pq := s.pq.remove hn part }
    else s) s

/-- The bit of `_hyperedge_in_queue` for block `targetPart` and hyperedge `he`, as the source
indexes it. -/
def hyperedgeInQueueIndex (targetPart : Nat) (he : Hyperedge) : Nat :=
  targetPart * hg.numEdges + he.id

/-- The body of the loop over the incident hyperedges in `insertAndUpdateNodesAfterMove`: a
hyperedge whose bit is not set has its unassigned pins queued for `targetPart`, and its bit set. -/
def insertPinsOfHyperedge (targetPart : Nat) (s : GreedyState) (he : Hyperedge) : GreedyState :=
  if !s.hyperedgeInQueue (hyperedgeInQueueIndex hg targetPart he) then
    let s := he.pins.foldl (fun s pin =>
      if s.partID pin = c.unassignedPart then insertNodeIntoPQ c cb pin targetPart false s else s) s
    { s with hyperedgeInQueue :=
        Function.update s.hyperedgeInQueue (hyperedgeInQueueIndex hg targetPart he) true }
  else s

/-- `insertAndUpdateNodesAfterMove(hn, target_part, insert, delete_nodes)`. -/
def insertAndUpdateNodesAfterMove (hn targetPart : Nat) (insert deleteNodes : Bool)
    (s : GreedyState) : GreedyState :=
  let s := if deleteNodes then deleteNodeInAllBucketQueues hg c cb hn s else s
  let s := cb.deltaGainUpdate s hn c.unassignedPart targetPart
  let s := if insert then (hg.incidentEdges hn).foldl (insertPinsOfHyperedge hg c cb targetPart) s
    else s
  if !s.pq.isEnabled targetPart then insertUnassignedHypernodeIntoPQ c cb targetPart s else s

/-- The release of the upper bound in the loop: every disabled block other than the unassigned
part gets an unassigned hypernode, if its queue is empty, or is enabled. -/
def releaseUpperBound (s : GreedyState) : GreedyState :=
  (List.range c.k).foldl (fun s (part : Nat) =>
    if (part : Int) ≠ c.unassignedPart ∧ s.pq.isEnabled part = false then
      if s.pq.size hg.initialNumNodes part = 0 then insertUnassignedHypernodeIntoPQ c cb part s
      else { s with pq := s.pq.enablePart part }
    else s) s

/-- One pass of the `while (true)` loop of `initialPartition`. -/
def iteration (minimumUnassignedPartWeight : Int) (s : GreedyState) (currentId : Nat)
    (isUpperBoundReleased : Bool) : Outcome :=
  if c.unassignedPart ≠ -1 ∧ minimumUnassignedPartWeight > partWeight hg s c.unassignedPart then
    .done s
  else
    match cb.nextQueueID s currentId isUpperBoundReleased with
    | (none, s) =>
      if !isUpperBoundReleased then .next (releaseUpperBound hg c cb s) 0 true else .done s
    | (some (currentHn, currentId), s) =>
      match cb.assignHypernodeToPartition s isUpperBoundReleased currentHn currentId with
      | (true, s) =>
        .next (insertAndUpdateNodesAfterMove hg c cb currentHn currentId true true s) currentId
          isUpperBoundReleased
      | (false, s) => .next { s with pq := s.pq.disablePart currentId } currentId isUpperBoundReleased

/-- The loop, run for at most `fuel` passes. -/
def initialPartitionLoop (minimumUnassignedPartWeight : Int) :
    Nat → GreedyState → Nat → Bool → Outcome
  | 0, s, currentId, isUpperBoundReleased => .next s currentId isUpperBoundReleased
  | fuel + 1, s, currentId, isUpperBoundReleased =>
    match iteration hg c cb minimumUnassignedPartWeight s currentId isUpperBoundReleased with
    | .done s => .done s
    | .next s currentId isUpperBoundReleased =>
      initialPartitionLoop minimumUnassignedPartWeight fuel s currentId isUpperBoundReleased

/-- Modelled from the spec: `InitialPartitionerBase::resetPartitioning()`, which the source
does not contain, puts every hypernode into the unassigned part, as the loop's `ASSERT`s
expect. -/
def resetPartitioning (s : GreedyState) : GreedyState := { s with partID := fun _ => c.unassignedPart }

/-- `reset()`; `_visit` is scratch space of `deltaGainUpdate` and is left out. -/
def reset (s : GreedyState) : GreedyState :=
  { s with pq := KWayPriorityQueue.clear, hyperedgeInQueue := fun _ => false }

/-- `calculateStartNodes()`: the `i`-th start node goes into the queue of block `i`. -/
def calculateStartNodes (s : GreedyState) : GreedyState :=
  (cb.calculateStartNodes c.k).enum.foldl (fun s (i, hn) => insertNodeIntoPQ c cb hn i false s) s

/-- `initialPartition` up to its loop: the state the loop starts from. -/
def initialPartitionStart (s : GreedyState) : GreedyState :=
  let s := calculateStartNodes c cb (reset (resetPartitioning c s))
  if c.unassignedPart ≠ -1 then { s with pq := s.pq.disablePart c.unassignedPart.toNat } else s

/-- `minimum_unassigned_part_weight`: the perfect-balance weight of the configured
`unassigned_part`, when the operating unassigned part is a block. -/
def minimumUnassignedPartWeight (perfectBalancePartitionWeight : Int → Int)
    (unassignedPart : Int) : Int :=
  if c.unassignedPart ≠ -1 then perfectBalancePartitionWeight unassignedPart else 0

/-- The loop over `_hg.nodes()` after the `while (true)` loop, when the operating unassigned part
is `-1`: a hypernode still in part `-1` goes to block 0 if its gain there is the higher, and to
block 1 otherwise (`setNodePart`). -/
def assignUnassignedHypernodes (s : GreedyState) : GreedyState :=
  hg.nodes.foldl (fun s hn =>
    if s.partID hn = -1 then
      let gain0 := cb.calculateGain s hn 0
      let gain1 := cb.calculateGain s hn 1
      { s with partID := Function.update s.partID hn (if gain0 > gain1 then 0 else 1) }
    else s) s

/-- `initialPartition()` up to the `rollbackToBestCut()` and `performFMRefinement()` of the base
class: the loop from its start, run for at most `fuel` passes, and then, when the operating
unassigned part is `-1`, the hypernodes it left unassigned; `none` when the loop needs more
passes. -/
def initialPartition (perfectBalancePartitionWeight : Int → Int) (unassignedPart : Int)
    (fuel : Nat) (s : GreedyState) : Option GreedyState :=
  match initialPartitionLoop hg c cb
      (minimumUnassignedPartWeight c perfectBalancePartitionWeight unassignedPart) fuel
      (initialPartitionStart c cb s) 0 false with
  | .done s => some (if c.unassignedPart = -1 then assignUnassignedHypernodes hg cb s else s)
  | .next _ _ _ => none

/-! ## What a pass of the loop does -/

/-- A pass that goes on releases the upper bound, after the queue-selection policy found no move,
or assigns the hypernode the policy named and queues its neighbours, or fails to assign it and
disables the queue. -/
theorem iteration_cases {w : Int} {s s' : GreedyState} {currentId currentId' : Nat}
    {released released' : Bool}
    (h : iteration hg c cb w s currentId released = .next s' currentId' released') :
    (∃ s₁, cb.nextQueueID s currentId released = (none, s₁) ∧ released = false ∧
        s' = releaseUpperBound hg c cb s₁ ∧ currentId' = 0 ∧ released' = true) ∨
      (∃ hn s₁ s₂, cb.nextQueueID s currentId released = (some (hn, currentId'), s₁) ∧
        cb.assignHypernodeToPartition s₁ released hn currentId' = (true, s₂) ∧
        s' = insertAndUpdateNodesAfterMove hg c cb hn currentId' true true s₂ ∧ released' = released) ∨
      (∃ hn s₁ s₂, cb.nextQueueID s currentId released = (some (hn, currentId'), s₁) ∧
        cb.assignHypernodeToPartition s₁ released hn currentId' = (false, s₂) ∧
        s' = { s₂ with pq := s₂.pq.disablePart currentId' } ∧ released' = released) := by
  unfold iteration at h
  split at h
  · cases h
  split at h
  · rename_i s₁ hnext
    split at h
    · rename_i hr
      cases h; exact .inl ⟨s₁, hnext, by simpa using hr, rfl, rfl, rfl⟩
    · cases h
  · rename_i hn p s₁ hnext
    split at h <;> cases h
    · exact .inr (.inl ⟨hn, s₁, _, hnext, ‹_›, rfl, rfl⟩)
    · exact .inr (.inr ⟨hn, s₁, _, hnext, ‹_›, rfl, rfl⟩)

/-! ## The members move no hypernode -/

theorem foldl_partID {α : Type} {f : GreedyState → α → GreedyState}
    (hf : ∀ s a, (f s a).partID = s.partID) :
    ∀ (l : List α) (s : GreedyState), (l.foldl f s).partID = s.partID
  | [], _ => rfl
  | a :: l, s => (foldl_partID hf l (f s a)).trans (hf s a)

@[simp] theorem insertNodeIntoPQ_partID (hn targetPart : Nat) (updateGain : Bool) (s : GreedyState) :
    (insertNodeIntoPQ c cb hn targetPart updateGain s).partID = s.partID := by
  unfold insertNodeIntoPQ; dsimp only
  split_ifs <;> rfl

@[simp] theorem insertUnassignedHypernodeIntoPQ_partID (part : Nat) (s : GreedyState) :
    (insertUnassignedHypernodeIntoPQ c cb part s).partID = s.partID := by
  unfold insertUnassignedHypernodeIntoPQ
  split <;> simp

@[simp] theorem deleteNodeInAllBucketQueues_partID (hn : Nat) (s : GreedyState) :
    (deleteNodeInAllBucketQueues hg c cb hn s).partID = s.partID :=
  foldl_partID (fun s part => by split_ifs <;> simp) _ s

@[simp] theorem insertPinsOfHyperedge_partID (targetPart : Nat) (s : GreedyState) (he : Hyperedge) :
    (insertPinsOfHyperedge hg c cb targetPart s he).partID = s.partID := by
  unfold insertPinsOfHyperedge; dsimp only
  split_ifs
  · exact foldl_partID (fun s pin => by split_ifs <;> simp) _ s
  · rfl

@[simp] theorem releaseUpperBound_partID (s : GreedyState) :
    (releaseUpperBound hg c cb s).partID = s.partID :=
  foldl_partID (fun s part => by split_ifs <;> simp) _ s

/-- After the move, only `deltaGainUpdate` can change a block. -/
theorem insertAndUpdateNodesAfterMove_partID (hn targetPart : Nat) (s : GreedyState) :
    (insertAndUpdateNodesAfterMove hg c cb hn targetPart true true s).partID =
      (cb.deltaGainUpdate (deleteNodeInAllBucketQueues hg c cb hn s) hn c.unassignedPart
        targetPart).partID := by
  simp only [insertAndUpdateNodesAfterMove, ↓reduceIte]
  split <;> simp [foldl_partID (insertPinsOfHyperedge_partID hg c cb targetPart)]

end Members

/-! ## Runs of the loop -/

/-- What every pass keeps, every run of the loop keeps. -/
theorem initialPartitionLoop_induction {hg : Hypergraph} {c : GreedyConfig} {cb : Callees} {w : Int}
    (Inv : GreedyState → Prop)
    (hstep : ∀ s currentId released, Inv s → Inv (iteration hg c cb w s currentId released).state) :
    ∀ fuel s currentId released, Inv s →
      Inv (initialPartitionLoop hg c cb w fuel s currentId released).state
  | 0, _, _, _, hs => hs
  | fuel + 1, s, currentId, released, hs => by
    have hpass := hstep s currentId released hs
    rw [initialPartitionLoop.eq_2]
    split
    · rename_i heq; rwa [heq] at hpass
    · rename_i heq; rw [heq] at hpass; exact initialPartitionLoop_induction Inv hstep fuel _ _ _ hpass

/-! ## A hypergraph with a disabled hyperedge -/

/-- Hyperedges `0 = {0, 1}` and `2 = {2, 3}`; hyperedge `1` is disabled, so `numEdges() = 2`
while the ids run to `2`. -/
def gappedHypergraph : Hypergraph where
  initialNumNodes := 4
  initialNumEdges := 3
  nodes := [0, 1, 2, 3]
  nodeWeight := fun _ => 1
  edges := [⟨0, 1, [0, 1], by decide⟩, ⟨2, 1, [2, 3], by decide⟩]
  nodes_nodup := by decide
  node_lt := by decide
  edge_ids_nodup := by decide
  edge_id_lt := by decide
  pin_mem := by decide
  initialNumNodes_lt := by decide

/-- Two blocks, with the unassigned part `-1`. -/
def bisection : GreedyConfig := ⟨2, -1⟩

/-- Callees that meet every contract: the policy names the first enabled queue holding an
unassigned hypernode, with the first such hypernode, and every assignment succeeds. -/
def sequentialCallees (hg : Hypergraph) (c : GreedyConfig) (startNodes : List Nat) : Callees where
  calculateStartNodes := fun _ => startNodes
  nextQueueID := fun s _ _ =>
    ((List.range c.k).findSome? fun part =>
      if s.pq.isEnabled part then
        (hg.nodes.find? fun hn => s.pq.contains hn part && decide (s.partID hn = c.unassignedPart)).map
          fun hn => (hn, part)
      else none, s)
  assignHypernodeToPartition := fun s _ hn part =>
    (true, { s with partID := Function.update s.partID hn part })
  deltaGainUpdate := fun s _ _ _ => s
  calculateGain := fun _ _ _ => 0
  getUnassignedNode := fun s => hg.nodes.find? fun hn => s.partID hn = c.unassignedPart

/-- The state before `initialPartition`: no block, no queue and no bit set. -/
def unpartitioned : GreedyState := ⟨fun _ => -1, KWayPriorityQueue.clear, fun _ => false⟩

end KaHyPar
