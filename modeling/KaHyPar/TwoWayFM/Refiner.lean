import KaHyPar.Hypergraph
import Mathlib.Algebra.Order.Field.Rat

/-!
# The two-way FM refiner

`partition/refinement/TwoWayFMRefiner.h` over the hypergraph of `KaHyPar.Hypergraph`.

1. The two addressable priority queues `_pq[0]`, `_pq[1]` (`lib/datastructure/PriorityQueue.h` is
   not among the sources) are modelled from the spec, §4.2, by the key of each id they hold; a
   queue holds ids below its capacity `_hg.initialNumNodes()`.
2. The members of the refiner and the locals of `refine` form one flat state `TwoWayFM`.
3. The policies (`StoppingPolicy`, `QueueSelectionPolicy`, `QueueCloggingPolicy`) and the heap's
   choice among equal keys are not fixed: each iteration of the forward loop reads their
   decisions from a `Choice`, so a statement over every list of choices covers every behaviour.
   A decision outside its contract (a queue selected empty, a maximum that is not one) makes
   the iteration return `none`.
4. `double` imbalances are computed exactly, in `ℚ`, and `HyperedgeWeight`, `HypernodeWeight`
   are `Int`; the pin counts `updateNeighbours` rebuilds are `HypernodeID`s, added modulo `2 ^ 32`.
-/

namespace KaHyPar

/-- Modelled from the spec: the keys of the ids an addressable max-queue holds. -/
abbrev PriorityQueue := Nat → Option Int

namespace PriorityQueue

/-- `empty()`, for a queue whose ids lie below `capacity`. -/
def empty (capacity : Nat) (q : PriorityQueue) : Bool :=
  (List.range capacity).all fun x => (q x).isNone

/-- `x` is a maximum of `q`: the heap may answer it to `max()`. -/
def isMax (capacity : Nat) (q : PriorityQueue) (x : Nat) : Bool :=
  match q x with
  | none => false
  | some k => (List.range capacity).all fun y => ((q y).map fun k' => decide (k' ≤ k)).getD true

/-- `size()`. -/
def size (capacity : Nat) (q : PriorityQueue) : Nat :=
  (List.range capacity).countP fun x => (q x).isSome

end PriorityQueue

/-- The state of one refinement pass: the hypergraph's partition, the members of the refiner and
the locals of `refine`. `_performed_moves` is its storage and its `size()`. -/
structure TwoWayFM where
  part : Nat → Bool
  pq : Bool → PriorityQueue
  partitionSize : Bool → Int
  marked : Nat → Bool
  justActivated : Nat → Bool
  performedMoves : Nat → Nat
  performedMovesSize : Nat
  cut : Int
  bestCut : Int
  minCutIndex : Int
  imbalance : ℚ
  bestImbalance : ℚ
  step : Nat
  numMoves : Nat

/-- Sets the key of `x` in `_pq[b]`: `reInsert` and `updateKey` with `some`, `remove` and
`deleteMax` with `none`. -/
def setKey (pq : Bool → PriorityQueue) (b : Bool) (x : Nat) (k : Option Int) :
    Bool → PriorityQueue :=
  fun b' y => if b' = b ∧ y = x then k else pq b' y

@[simp] theorem setKey_apply (pq : Bool → PriorityQueue) (b : Bool) (x : Nat) (k : Option Int)
    (b' : Bool) (y : Nat) : setKey pq b x k b' y = if b' = b ∧ y = x then k else pq b' y := rfl

/-- `_pq[b]->clear()` for both queues. -/
def clearedQueues : Bool → PriorityQueue := fun _ _ => none

/-- `StoppingPolicy::searchShouldStop`, the heap's maxima and the two queue policies, as they
decide one iteration of the forward loop. -/
structure Choice where
  stop : Bool
  /-- `_pq[b]->max()` as `checkPQsForEligibleMoves` reads it. -/
  top : Bool → Nat
  /-- `removeCloggingQueueEntries(pq0_eligible, pq1_eligible, …)`: its answer and the ids it
  removes from each queue. -/
  clogging : Bool → Bool → Bool × (Bool → List Nat)
  selectQueue : Bool → Bool → Bool
  /-- `_pq[chosen_pq_index]->max()`. -/
  maxNode : Nat

section Refiner

variable (hg : Hypergraph)

/-- `isBorderNode(hn)`: some incident hyperedge has pins in both blocks. -/
def isBorderNode (part : Nat → Bool) (hn : Nat) : Bool :=
  (hg.incidentEdges hn).any fun he =>
    0 < pinCountInPartition part he false && 0 < pinCountInPartition part he true

/-- `computeGain(hn)`, with target block `partitionIndex(hn) ^ 1`. -/
def computeGain (part : Nat → Bool) (hn : Nat) : Int :=
  (hg.incidentEdges hn).foldl (fun gain he =>
    if pinCountInPartition part he (!part hn) = 0 then gain - he.weight
    else if pinCountInPartition part he (part hn) = 1 then gain + he.weight
    else gain) 0

/-- `activate(hn)`: a border node enters the queue of its block with its gain. -/
def activate (hn : Nat) (s : TwoWayFM) : TwoWayFM :=
  if isBorderNode hg s.part hn then
    { s with pq := setKey s.pq (s.part hn) hn (some (computeGain hg s.part hn)) }
  else s

/-- `initialize()`: the block weights, summed over `forall_hypernodes`. -/
def initializeRefiner (s : TwoWayFM) : TwoWayFM :=
  { s with partitionSize := hg.nodes.foldl (fun size hn =>
      Function.update size (s.part hn) (size (s.part hn) + hg.nodeWeight hn)) fun _ => 0 }

/-- `movePreservesBalanceConstraint(hn, from, to)` against
`partition_size_upper_bound`. -/
def movePreservesBalanceConstraint (upperBound : Int) (s : TwoWayFM) (hn : Nat)
    (_fromPartition toPartition : Bool) : Bool :=
  s.partitionSize toPartition + hg.nodeWeight hn ≤ upperBound

/-- `checkPQsForEligibleMoves`, where `top b` is `_pq[b]->max()`. -/
def checkPQsForEligibleMoves (upperBound : Int) (s : TwoWayFM) (top : Bool → Nat) :
    Bool × Bool :=
  (!PriorityQueue.empty hg.initialNumNodes (s.pq false) &&
      movePreservesBalanceConstraint hg upperBound s (top false) false true,
    !PriorityQueue.empty hg.initialNumNodes (s.pq true) &&
      movePreservesBalanceConstraint hg upperBound s (top true) true false)

/-- `queuesAreEmpty()`. -/
def queuesAreEmpty (s : TwoWayFM) : Bool :=
  PriorityQueue.empty hg.initialNumNodes (s.pq false) &&
    PriorityQueue.empty hg.initialNumNodes (s.pq true)

/-- `calculateImbalance()`: `2 · max(c(V₀), c(V₁)) / (c(V₀) + c(V₁)) − 1`, computed exactly. -/
def calculateImbalance (partitionSize : Bool → Int) : ℚ :=
  2 * (max (partitionSize false) (partitionSize true) : ℚ) /
    ((partitionSize false + partitionSize true : Int) : ℚ) - 1

/-- `moveHypernode(hn, from, to)`. -/
def moveHypernode (hn : Nat) (fromPartition toPartition : Bool) (s : TwoWayFM) : TwoWayFM :=
  let size := Function.update s.partitionSize fromPartition
    (s.partitionSize fromPartition - hg.nodeWeight hn)
  { s with
    part := changeNodePartition s.part hn fromPartition toPartition
    marked := Function.update s.marked hn true
    partitionSize := Function.update size toPartition (size toPartition + hg.nodeWeight hn) }

/-- `updatePin(he, pin, sign)`. -/
def updatePin (he : Hyperedge) (pin : Nat) (sign : Int) (s : TwoWayFM) : TwoWayFM :=
  match s.pq (s.part pin) pin with
  | some oldGain =>
    if isBorderNode hg s.part pin then
      if !s.justActivated pin then
        { s with pq := setKey s.pq (s.part pin) pin (some (oldGain + sign * he.weight)) }
      else s
    else { s with pq := setKey s.pq (s.part pin) pin none }
  | none =>
    if !s.marked pin then
      let s := activate hg pin s
      { s with justActivated := Function.update s.justActivated pin true }
    else s

/-- `updatePinsOfHyperedge(he, sign1, sign2, compare)`: `sign1` for the pins in block
`compare`, `sign2` for the others. -/
def updatePinsOfHyperedgeIn (he : Hyperedge) (sign1 sign2 : Int) (compare : Bool)
    (s : TwoWayFM) : TwoWayFM :=
  he.pins.foldl (fun s pin =>
    updatePin hg he pin (if compare = s.part pin then sign1 else sign2) s) s

/-- `updatePinsOfHyperedge(he, sign)`. -/
def updatePinsOfHyperedge (he : Hyperedge) (sign : Int) (s : TwoWayFM) : TwoWayFM :=
  he.pins.foldl (fun s pin => updatePin hg he pin sign s) s

/-- The four `pinCountInOnePartition…` tests: the count of block 0 or of block 1 went from
`x` to `y`. -/
def pinCountInOnePartitionChanged (x y oldSize0 newSize0 oldSize1 newSize1 : Nat) : Bool :=
  (oldSize0 == x && newSize0 == y) || (oldSize1 == x && newSize1 == y)

def pinCountInOnePartitionIncreasedFrom0To1 : Nat → Nat → Nat → Nat → Bool :=
  pinCountInOnePartitionChanged 0 1

def pinCountInOnePartitionDecreasedFrom1To0 : Nat → Nat → Nat → Nat → Bool :=
  pinCountInOnePartitionChanged 1 0

def pinCountInOnePartitionDecreasedFrom2To1 : Nat → Nat → Nat → Nat → Bool :=
  pinCountInOnePartitionChanged 2 1

def pinCountInOnePartitionIncreasedFrom1To2 : Nat → Nat → Nat → Nat → Bool :=
  pinCountInOnePartitionChanged 1 2

/-- `new_size + (to == b ? -1 : 1)` in `HypernodeID` arithmetic. -/
def oldSize (newSize : Nat) (toPartition b : Bool) : Nat :=
  (newSize + if toPartition = b then 2 ^ 32 - 1 else 1) % 2 ^ 32

/-- One iteration of the loop of `updateNeighbours`, for the incident hyperedge `he`. -/
def updateNeighboursEdge (fromPartition toPartition : Bool) (s : TwoWayFM) (he : Hyperedge) :
    TwoWayFM :=
  let newSize0 := pinCountInPartition s.part he false
  let newSize1 := pinCountInPartition s.part he true
  let oldSize0 := oldSize newSize0 toPartition false
  let oldSize1 := oldSize newSize1 toPartition true
  if edgeSize he = 2 then
    updatePinsOfHyperedge hg he (if newSize0 = 1 then 2 else -2) s
  else if pinCountInOnePartitionIncreasedFrom0To1 oldSize0 newSize0 oldSize1 newSize1 then
    updatePinsOfHyperedge hg he 1 s
  else if pinCountInOnePartitionDecreasedFrom1To0 oldSize0 newSize0 oldSize1 newSize1 then
    updatePinsOfHyperedge hg he (-1) s
  else if pinCountInOnePartitionDecreasedFrom2To1 oldSize0 newSize0 oldSize1 newSize1 then
    updatePinsOfHyperedgeIn hg he 1 (if edgeSize he = 3 then -1 else 0) fromPartition s
  else if pinCountInOnePartitionIncreasedFrom1To2 oldSize0 newSize0 oldSize1 newSize1 then
    updatePinsOfHyperedgeIn hg he (-1) 0 toPartition s
  else s

/-- `updateNeighbours(moved_node, from, to)`. -/
def updateNeighbours (movedNode : Nat) (fromPartition toPartition : Bool) (s : TwoWayFM) :
    TwoWayFM :=
  (hg.incidentEdges movedNode).foldl (updateNeighboursEdge hg fromPartition toPartition)
    { s with justActivated := fun _ => false }

/-- One undo step of `rollback`: `hn` goes back to the other block. -/
def undoMove (hn : Nat) (s : TwoWayFM) : TwoWayFM :=
  let size := Function.update s.partitionSize (s.part hn)
    (s.partitionSize (s.part hn) - hg.nodeWeight hn)
  { s with
    partitionSize := Function.update size (!s.part hn) (size (!s.part hn) + hg.nodeWeight hn)
    part := changeNodePartition s.part hn (s.part hn) (!s.part hn) }

/-- `n` iterations of the loop of `rollback`, from `last_index`. -/
def rollbackLoop (performedMoves : Nat → Nat) : Nat → Int → TwoWayFM → TwoWayFM
  | 0, _, s => s
  | n + 1, lastIndex, s =>
    rollbackLoop performedMoves n (lastIndex - 1) (undoMove hg (performedMoves lastIndex.toNat) s)

/-- `rollback(performed_moves, last_index, min_cut_index, hg)`. Its loop runs while
`last_index != min_cut_index`, so it never ends when `last_index` starts below
`min_cut_index`. -/
def rollback (performedMoves : Nat → Nat) (lastIndex minCutIndex : Int) (s : TwoWayFM) :
    Option TwoWayFM :=
  if minCutIndex ≤ lastIndex then
    some (rollbackLoop hg performedMoves (lastIndex - minCutIndex).toNat lastIndex s)
  else none

end Refiner

/-! ## The forward loop -/

section Pass

variable (hg : Hypergraph) (upperBound : Int) (maxImbalance : ℚ)

/-- The heap answers `top b` to `_pq[b]->max()` only when `_pq[b]` is empty or `top b` is one of
its maxima. -/
def topsAreMaxima (s : TwoWayFM) (top : Bool → Nat) : Bool :=
  [false, true].all fun b =>
    PriorityQueue.empty hg.initialNumNodes (s.pq b) ||
      PriorityQueue.isMax hg.initialNumNodes (s.pq b) (top b)

/-- The entries a clogging policy removes. -/
def removeEntries (removed : Bool → List Nat) (s : TwoWayFM) : TwoWayFM :=
  { s with pq := fun b x => if x ∈ removed b then none else s.pq b x }

/-- The acceptance test after a move, lines 184–199. -/
def acceptMove (s : TwoWayFM) : TwoWayFM :=
  let improvedCutWithinBalance := decide (s.cut < s.bestCut) && decide (s.imbalance < maxImbalance)
  let improvedBalanceLessEqualCut :=
    decide (s.imbalance < s.bestImbalance) && decide (s.cut ≤ s.bestCut)
  if improvedBalanceLessEqualCut || improvedCutWithinBalance then
    { s with bestImbalance := s.imbalance, bestCut := s.cut, minCutIndex := s.numMoves }
  else s

/-- Lines 150–176: `maxGainNode`, the maximum of `_pq[chosen]` with key `maxGain`, leaves the
queue and moves, and `cut` and `imbalance` follow. -/
def moveMaxGainNode (chosen : Bool) (maxGainNode : Nat) (maxGain : Int) (s : TwoWayFM) :
    TwoWayFM :=
  let s := { s with pq := setKey s.pq chosen maxGainNode none }
  let s := moveHypernode hg maxGainNode chosen (!chosen) s
  { s with cut := s.cut - maxGain, imbalance := calculateImbalance s.partitionSize }

/-- The move of lines 150–201: the gain update, the acceptance test and the move log. -/
def makeMove (chosen : Bool) (maxGainNode : Nat) (maxGain : Int) (s : TwoWayFM) : TwoWayFM :=
  let s := moveMaxGainNode hg chosen maxGainNode maxGain s
  let s := acceptMove maxImbalance (updateNeighbours hg maxGainNode chosen (!chosen) s)
  { s with
    performedMoves := Function.update s.performedMoves s.numMoves maxGainNode
    numMoves := s.numMoves + 1
    step := s.step + 1 }

/-- One iteration of the forward loop past its two exit tests: the clogging policy's `continue`,
or a move. `none` when the heap or the queue selection leaves its contract. -/
def body (s : TwoWayFM) (c : Choice) : Option TwoWayFM :=
  if topsAreMaxima hg s c.top then
    let eligible := checkPQsForEligibleMoves hg upperBound s c.top
    let clogging := c.clogging eligible.1 eligible.2
    let s := removeEntries clogging.2 s
    if clogging.1 then some { s with step := s.step + 1 }
    else
      let chosen := c.selectQueue eligible.1 eligible.2
      match s.pq chosen c.maxNode with
      | some maxGain =>
        if PriorityQueue.isMax hg.initialNumNodes (s.pq chosen) c.maxNode then
          some (makeMove hg maxImbalance chosen c.maxNode maxGain s)
        else none
      | none => none
  else none

/-- The forward loop of `refine`, one choice per iteration; `none` when the choices run out
first. It stops at `max_number_of_moves = _hg.numNodes()` moves, when both queues are empty, or
when the stopping policy says so. -/
def forward (s : TwoWayFM) : List Choice → Option TwoWayFM
  | [] => none
  | c :: cs =>
    if s.numMoves < hg.numNodes ∧ queuesAreEmpty hg s = false ∧ c.stop = false then
      (body hg upperBound maxImbalance s c).bind fun s => forward s cs
    else some s

end Pass

/-- The constructor: empty queues, nothing marked, and `_performed_moves` reserved with
`initialNumNodes` places but of size 0. -/
def TwoWayFM.create (part : Nat → Bool) : TwoWayFM where
  part := part
  pq := clearedQueues
  partitionSize := fun _ => 0
  marked := fun _ => false
  justActivated := fun _ => false
  performedMoves := fun _ => 0
  performedMovesSize := 0
  cut := 0
  bestCut := 0
  minCutIndex := 0
  imbalance := 0
  bestImbalance := 0
  step := 0
  numMoves := 0

/-- The state at the head of the first iteration of `refine(u, v, best_cut, max_imbalance,
best_imbalance)`. -/
def enterRefine (hg : Hypergraph) (s : TwoWayFM) (u v : Nat) (bestCut : Int)
    (bestImbalance : ℚ) : TwoWayFM :=
  let s := activate hg v (activate hg u { s with pq := clearedQueues, marked := fun _ => false })
  { s with
    cut := bestCut, bestCut := bestCut, minCutIndex := -1
    imbalance := bestImbalance, bestImbalance := bestImbalance
    step := 0, numMoves := 0 }

/-- `refine(u, v, best_cut, max_imbalance, best_imbalance)`, the policies deciding `cs`: the state
on return, whose `bestCut` and `bestImbalance` are the two reference arguments. -/
def refine (hg : Hypergraph) (upperBound : Int) (s : TwoWayFM) (u v : Nat) (bestCut : Int)
    (maxImbalance bestImbalance : ℚ) (cs : List Choice) : Option TwoWayFM :=
  (forward hg upperBound maxImbalance (enterRefine hg s u v bestCut bestImbalance) cs).bind
    fun s => rollback hg s.performedMoves (s.numMoves - 1) s.minCutIndex s

end KaHyPar
