import KaHyPar.TwoWayFM.Step

/-!
# The invariants of a pass

`Reachable s₀ s` says that `s` is the state at the head of an iteration of the forward loop
entered in `s₀`. Every such state satisfies `PassInv s₀`:

1. the queues hold unmarked hypernodes of their own block (`QueueSlots`);
2. the marked hypernodes are the moves so far, which are distinct enabled hypernodes, and the
   partition is the entry partition with them applied (`applyMoves`);
3. the cached block weights are off the true ones by what they were off at entry;
4. `min_cut_index` lies in `[-1, num_moves)`, `best_cut` never rises, and `_performed_moves`
   keeps its size.

Each holds at entry and is kept by `body` (`PassInv.start`, `PassInv.body`).
-/

namespace KaHyPar

/-! ## The move log -/

/-- The first `n` entries of `_performed_moves`. -/
def movesOf (s : TwoWayFM) (n : Nat) : List Nat := (List.range n).map s.performedMoves

/-- `part` with each hypernode of `moves` in turn moved to the other block. -/
def applyMoves (part : Nat → Bool) (moves : List Nat) : Nat → Bool :=
  moves.foldl (fun part hn => changeNodePartition part hn (part hn) (!part hn)) part

@[simp] theorem applyMoves_nil (part : Nat → Bool) : applyMoves part [] = part := rfl

theorem applyMoves_concat (part : Nat → Bool) (moves : List Nat) (hn : Nat) :
    applyMoves part (moves ++ [hn]) =
      Function.update (applyMoves part moves) hn (!applyMoves part moves hn) := by
  simp [applyMoves, changeNodePartition]

@[simp] theorem movesOf_zero (s : TwoWayFM) : movesOf s 0 = [] := rfl

theorem movesOf_succ (s : TwoWayFM) (n : Nat) :
    movesOf s (n + 1) = movesOf s n ++ [s.performedMoves n] := by
  simp [movesOf, List.range_succ]

theorem movesOf_congr {s t : TwoWayFM} {n : Nat}
    (h : ∀ i < n, s.performedMoves i = t.performedMoves i) : movesOf s n = movesOf t n :=
  List.map_congr_left fun i hi => h i (List.mem_range.1 hi)

section Log

variable {s t : TwoWayFM} {node : Nat}
  (ht : t.performedMoves = Function.update s.performedMoves s.numMoves node)
include ht

/-- Writing `_performed_moves[num_moves]` leaves the entries before it. -/
theorem movesOf_update {n : Nat} (hn : n ≤ s.numMoves) : movesOf t n = movesOf s n :=
  movesOf_congr fun i hi => by rw [ht, Function.update_noteq (by omega)]

theorem movesOf_update_succ : movesOf t (s.numMoves + 1) = movesOf s s.numMoves ++ [node] := by
  rw [movesOf_succ, movesOf_update ht le_rfl, ht, Function.update_same]

end Log

/-- The partition at the checkpoint: the entry partition with the moves up to `min_cut_index`. -/
def minCutPartition (s₀ s : TwoWayFM) : Nat → Bool :=
  applyMoves s₀.part (movesOf s (s.minCutIndex + 1).toNat)

/-! ## Block weights under a move -/

/-- Moving an enabled hypernode to the other block changes its cached and its true block
weights alike. -/
theorem partitionSize_sub_blockWeight_moveHypernode (hg : Hypergraph) {hn : Nat}
    (hmem : hn ∈ hg.nodes) (s : TwoWayFM) (b : Bool) :
    (moveHypernode hg hn (s.part hn) (!s.part hn) s).partitionSize b -
        hg.blockWeight (Function.update s.part hn (!s.part hn)) b =
      s.partitionSize b - hg.blockWeight s.part b := by
  have h := @Hypergraph.blockWeight_update hg s.part hn hmem (!s.part hn) b
  simp only [moveHypernode, Function.update_apply]
  cases hb : s.part hn <;> cases b <;> simp only [hb] at h <;> simp at h ⊢ <;> omega

/-! ## Reachable states -/

section Reach

variable (hg : Hypergraph) (upperBound : Int) (maxImbalance : ℚ)

/-- The states at the head of an iteration of the forward loop entered in `s₀`: the loop went on
from each state before, with moves left, a non-empty queue and no stop. -/
inductive Reachable (s₀ : TwoWayFM) : TwoWayFM → Prop
  | start : Reachable s₀ s₀
  | step {s s' : TwoWayFM} {c : Choice} : Reachable s₀ s → s.numMoves < hg.numNodes →
      queuesAreEmpty hg s = false → c.stop = false →
      body hg upperBound maxImbalance s c = some s' → Reachable s₀ s'

variable {hg upperBound maxImbalance}

/-- The forward loop stops at a head state. -/
theorem Reachable.forward {s₀ s r : TwoWayFM} (hs : Reachable hg upperBound maxImbalance s₀ s)
    {cs : List Choice} (h : forward hg upperBound maxImbalance s cs = some r) :
    Reachable hg upperBound maxImbalance s₀ r := by
  induction cs generalizing s with
  | nil => cases h
  | cons c cs ih =>
    simp only [KaHyPar.forward] at h
    split_ifs at h with hgo
    · obtain ⟨t, ht, hr⟩ := Option.bind_eq_some.1 h
      exact ih (hs.step hgo.1 hgo.2.1 hgo.2.2 ht) hr
    · cases h
      exact hs

end Reach

/-! ## A move keeps the queue slots -/

section Move

variable {hg : Hypergraph} (maxImbalance : ℚ) {chosen : Bool} {node : Nat} {gain : Int}
  {s : TwoWayFM}

/-- `makeMove` leaves the queues, the partition and the marks as `updateNeighbours` does. -/
theorem makeMove_queues :
    let t := updateNeighbours hg node chosen (!chosen) (moveMaxGainNode hg chosen node gain s)
    let m := makeMove hg maxImbalance chosen node gain s
    m.pq = t.pq ∧ m.part = t.part ∧ m.marked = t.marked := by
  have hq := updateNeighbours_queuesOnly hg node chosen (!chosen) (moveMaxGainNode hg chosen node gain s)
  exact ⟨makeMove_pq .., (makeMove_part ..).trans hq.part_eq.symm,
    (makeMove_marked ..).trans hq.marked_eq.symm⟩

theorem QueueSlots.congr {t : TwoWayFM} (h : QueueSlots hg t) {m : TwoWayFM}
    (hm : m.pq = t.pq ∧ m.part = t.part ∧ m.marked = t.marked) : QueueSlots hg m := by
  obtain ⟨hpq, hpart, hmarked⟩ := hm
  intro b x k hk
  rw [hpq] at hk
  rw [hpart, hmarked]
  exact h b x k hk

theorem queueSlots_moveMaxGainNode (h : QueueSlots hg s) (hnode : s.pq chosen node = some gain) :
    QueueSlots hg (moveMaxGainNode hg chosen node gain s) := by
  intro b x k hk
  simp only [moveMaxGainNode, moveHypernode, setKey_apply] at hk
  split_ifs at hk with hx
  obtain ⟨h1, h2, h3⟩ := h b x k hk
  have hxn : x ≠ node := by
    rintro rfl
    exact hx ⟨h1.symm.trans (h _ _ _ hnode).1, rfl⟩
  exact ⟨by simpa [moveMaxGainNode, moveHypernode, changeNodePartition, hxn] using h1,
    by simpa [moveMaxGainNode, moveHypernode, hxn] using h2, h3⟩

theorem queueSlots_makeMove (h : QueueSlots hg s) (hnode : s.pq chosen node = some gain) :
    QueueSlots hg (makeMove hg maxImbalance chosen node gain s) :=
  (queueSlots_updateNeighbours (queueSlots_moveMaxGainNode h hnode) node chosen (!chosen)).congr
    (makeMove_queues maxImbalance)

end Move

/-! ## The invariant -/

/-- What holds at the head of every iteration of a pass entered in `s₀`. -/
structure PassInv (hg : Hypergraph) (s₀ s : TwoWayFM) : Prop where
  slots : QueueSlots hg s
  marked_iff : ∀ x, s.marked x = true ↔ x ∈ movesOf s s.numMoves
  nodup : (movesOf s s.numMoves).Nodup
  mem_nodes : ∀ x ∈ movesOf s s.numMoves, x ∈ hg.nodes
  part_eq : s.part = applyMoves s₀.part (movesOf s s.numMoves)
  partitionSize_sub : ∀ b, s.partitionSize b - hg.blockWeight s.part b =
    s₀.partitionSize b - hg.blockWeight s₀.part b
  minCutIndex_ge : -1 ≤ s.minCutIndex
  minCutIndex_lt : s.minCutIndex < s.numMoves
  bestCut_le : s.bestCut ≤ s₀.bestCut
  performedMovesSize_eq : s.performedMovesSize = s₀.performedMovesSize

section Inv

variable {hg : Hypergraph} {s₀ s : TwoWayFM}

/-- A pass starts with queues of unmarked hypernodes, no mark, no move and no checkpoint. -/
theorem PassInv.start (hs : QueueSlots hg s₀) (hm : ∀ x, s₀.marked x = false)
    (hn : s₀.numMoves = 0) (hmin : s₀.minCutIndex = -1) : PassInv hg s₀ s₀ where
  slots := hs
  marked_iff x := by simp [hm, hn]
  nodup := by simp [hn]
  mem_nodes := by simp [hn]
  part_eq := by simp [hn]
  partitionSize_sub _ := rfl
  minCutIndex_ge := by omega
  minCutIndex_lt := by omega
  bestCut_le := le_rfl
  performedMovesSize_eq := rfl

/-- Removing queue entries, and counting a step, keeps the invariant. -/
theorem PassInv.removeEntries (h : PassInv hg s₀ s) (removed : Bool → List Nat) (step : Nat) :
    PassInv hg s₀ { KaHyPar.removeEntries removed s with step := step } :=
  ⟨fun b x k hk => h.slots b x k (removeEntries_pq hk), h.marked_iff, h.nodup, h.mem_nodes,
    h.part_eq, h.partitionSize_sub, h.minCutIndex_ge, h.minCutIndex_lt, h.bestCut_le,
    h.performedMovesSize_eq⟩

/-- A move of a queued hypernode keeps the invariant. -/
theorem PassInv.makeMove (maxImbalance : ℚ) (h : PassInv hg s₀ s) {chosen : Bool} {node : Nat}
    {gain : Int} (hnode : s.pq chosen node = some gain) :
    PassInv hg s₀ (makeMove hg maxImbalance chosen node gain s) := by
  obtain ⟨hpart, hunmarked, hmem⟩ := h.slots _ _ _ hnode
  have hlog := movesOf_update_succ (makeMove_performedMoves hg maxImbalance chosen node gain s)
  have hnot : node ∉ movesOf s s.numMoves := fun hin => by
    rw [← h.marked_iff] at hin
    rw [hin] at hunmarked
    cases hunmarked
  -- the acceptance test keeps the checkpoint or moves it here, and never to a higher cut
  obtain ⟨hbest, hmin⟩ : (KaHyPar.makeMove hg maxImbalance chosen node gain s).bestCut ≤ s.bestCut ∧
      ((KaHyPar.makeMove hg maxImbalance chosen node gain s).minCutIndex = s.minCutIndex ∨
        (KaHyPar.makeMove hg maxImbalance chosen node gain s).minCutIndex = s.numMoves) := by
    rcases makeMove_checkpoint hg maxImbalance chosen node gain s with
      ⟨-, hb, -, hm⟩ | ⟨hc, hb, -, hm⟩
    · exact ⟨hb.le, .inl hm⟩
    · rw [hb]
      exact ⟨by rcases hc with ⟨-, hc⟩ | ⟨hc, -⟩ <;> omega, .inr hm⟩
  refine ⟨queueSlots_makeMove maxImbalance h.slots hnode, fun x => ?_, ?_, fun x hx => ?_, ?_,
    fun b => ?_, ?_, ?_, ?_, ?_⟩
  · rw [makeMove_numMoves, hlog]
    by_cases hx : x = node
    · simp [hx]
    · simp [hx, h.marked_iff]
  · rw [makeMove_numMoves, hlog]
    exact List.nodup_append.2 ⟨h.nodup, List.nodup_singleton _, by simpa using hnot⟩
  · rw [makeMove_numMoves, hlog, List.mem_append, List.mem_singleton] at hx
    rcases hx with hx | rfl
    exacts [h.mem_nodes x hx, hmem]
  · rw [makeMove_numMoves, hlog, makeMove_part, applyMoves_concat, ← h.part_eq, hpart]
    rfl
  · rw [makeMove_partitionSize, makeMove_part, ← hpart, ← h.partitionSize_sub b]
    exact partitionSize_sub_blockWeight_moveHypernode hg hmem s b
  · have := h.minCutIndex_ge
    omega
  · have := h.minCutIndex_lt
    rw [makeMove_numMoves]
    omega
  · exact hbest.trans h.bestCut_le
  · exact (makeMove_performedMovesSize ..).trans h.performedMovesSize_eq

/-- After a move, the partition at the checkpoint is the one before, or, when the move is the
new checkpoint, the new partition. -/
theorem PassInv.minCutPartition_makeMove (maxImbalance : ℚ) (h : PassInv hg s₀ s)
    {chosen : Bool} {node : Nat} {gain : Int} (hnode : s.pq chosen node = some gain) :
    let t := KaHyPar.makeMove hg maxImbalance chosen node gain s
    (t.minCutIndex = s.minCutIndex → minCutPartition s₀ t = minCutPartition s₀ s) ∧
      (t.minCutIndex = s.numMoves → minCutPartition s₀ t = t.part) := by
  have hmin := h.minCutIndex_ge
  have hlt := h.minCutIndex_lt
  refine ⟨fun hm => ?_, fun hm => ?_⟩
  · rw [minCutPartition, minCutPartition, hm,
      movesOf_update (makeMove_performedMoves ..) (by omega)]
  · rw [minCutPartition, hm, show ((s.numMoves : Int) + 1).toNat = s.numMoves + 1 by omega,
      ← makeMove_numMoves hg maxImbalance chosen node gain s,
      ← (h.makeMove maxImbalance hnode).part_eq]

/-- One iteration keeps the invariant. -/
theorem PassInv.body {upperBound : Int} {maxImbalance : ℚ} (h : PassInv hg s₀ s) {c : Choice}
    {s' : TwoWayFM} (hb : body hg upperBound maxImbalance s c = some s') : PassInv hg s₀ s' := by
  rcases body_cases hg upperBound maxImbalance hb with
    ⟨removed, -, rfl⟩ | ⟨removed, chosen, node, gain, hnode, -, rfl⟩
  · exact h.removeEntries removed _
  · exact (h.removeEntries removed _).makeMove maxImbalance hnode

end Inv

/-! ## Entering a pass -/

section Enter

variable (hg : Hypergraph) (s : TwoWayFM) (u v : Nat) (bestCut : Int) (bestImbalance : ℚ)

/-- `refine` enters the loop with the partition, the block weights and the move log it was
given, no mark, and the two seeds activated. -/
theorem enterRefine_eq :
    enterRefine hg s u v bestCut bestImbalance =
      { s with
        pq := (enterRefine hg s u v bestCut bestImbalance).pq
        justActivated := (enterRefine hg s u v bestCut bestImbalance).justActivated
        marked := fun _ => false, cut := bestCut, bestCut, minCutIndex := -1
        imbalance := bestImbalance, bestImbalance, step := 0, numMoves := 0 } := by
  unfold enterRefine
  rw [(activate_queuesOnly hg v _).eq, (activate_queuesOnly hg u _).eq]

@[simp] theorem enterRefine_part : (enterRefine hg s u v bestCut bestImbalance).part = s.part := by
  rw [enterRefine_eq]

@[simp] theorem enterRefine_partitionSize :
    (enterRefine hg s u v bestCut bestImbalance).partitionSize = s.partitionSize := by
  rw [enterRefine_eq]

theorem queueSlots_enterRefine : QueueSlots hg (enterRefine hg s u v bestCut bestImbalance) := by
  have hu := activate_queuesOnly hg u { s with pq := clearedQueues, marked := fun _ => false }
  exact queueSlots_activate (queueSlots_activate (fun _ _ _ h => by cases h) rfl)
    (by rw [hu.marked_eq])

theorem PassInv.enter :
    PassInv hg (enterRefine hg s u v bestCut bestImbalance)
      (enterRefine hg s u v bestCut bestImbalance) := by
  refine PassInv.start (queueSlots_enterRefine hg s u v bestCut bestImbalance) (fun x => ?_) ?_ ?_ <;>
    rw [enterRefine_eq]

end Enter

/-- Every head state of a pass satisfies the invariant. -/
theorem Reachable.passInv {hg : Hypergraph} {upperBound : Int} {maxImbalance : ℚ} {s₀ s : TwoWayFM}
    (hr : Reachable hg upperBound maxImbalance s₀ s) (h₀ : PassInv hg s₀ s₀) : PassInv hg s₀ s := by
  induction hr with
  | start => exact h₀
  | step _ _ _ _ hb ih => exact ih.body hb

end KaHyPar
