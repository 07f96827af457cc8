import KaHyPar.TwoWayFM.Pass

/-!
# The gain cache and the cut counter over a pass

When every hyperedge has two or more pins, every head state of a pass also satisfies `CutInv`:

1. the queue invariant `QueueInv`: `activate` establishes it, clogging removals keep it, and a
   move of a queued hypernode, whose key is its gain, keeps it through `updateNeighbours`
   (`queueInv_updateNeighbours`);
2. the counter `cut`, lowered by the key of every move, is off the true cut by what it was off
   at entry (`hyperedgeCut_sub_update`), and `best_cut` is off the cut of the partition at the
   checkpoint by as much.
-/

namespace KaHyPar

/-! ## The queue invariant over a pass -/

section Queue

variable {hg : Hypergraph}

theorem QueueEntry.congr {t m : TwoWayFM} {b : Bool} {x : Nat} {k : Int}
    (e : QueueEntry hg t b x k) (hpart : m.part = t.part) (hmarked : m.marked = t.marked) :
    QueueEntry hg m b x k :=
  ⟨hpart ▸ e.part_eq, hmarked ▸ e.unmarked, e.mem_nodes, hpart ▸ e.border, hpart ▸ e.key_eq⟩

theorem QueueInv.congr {t m : TwoWayFM} (h : QueueInv hg t)
    (hm : m.pq = t.pq ∧ m.part = t.part ∧ m.marked = t.marked) : QueueInv hg m := by
  obtain ⟨hpq, hpart, hmarked⟩ := hm
  intro b x k hk
  rw [hpq] at hk
  exact (h b x k hk).congr hpart hmarked

theorem queueInv_activate {s : TwoWayFM} (h : QueueInv hg s) {x : Nat}
    (hx : s.marked x = false) : QueueInv hg (activate hg x s) := by
  unfold activate
  split_ifs with hb
  · intro b y k hk
    simp only [setKey_apply] at hk
    split_ifs at hk with hy
    · obtain ⟨rfl, rfl⟩ := hy
      cases hk
      exact ⟨rfl, hx, mem_nodes_of_isBorderNode hb, hb, rfl⟩
    · exact (h b y k hk).congr rfl rfl
  · exact h

theorem queueInv_enterRefine (s : TwoWayFM) (u v : Nat) (bestCut : Int) (bestImbalance : ℚ) :
    QueueInv hg (enterRefine hg s u v bestCut bestImbalance) := by
  have hu := activate_queuesOnly hg u { s with pq := clearedQueues, marked := fun _ => false }
  refine (queueInv_activate (queueInv_activate (fun _ _ _ h => by cases h) rfl)
    (by rw [hu.marked_eq])).congr ⟨rfl, rfl, rfl⟩

/-- Removing clogging entries keeps the queue invariant. -/
theorem QueueInv.removeEntries {s : TwoWayFM} (h : QueueInv hg s) (removed : Bool → List Nat)
    (step : Nat) : QueueInv hg { KaHyPar.removeEntries removed s with step := step } :=
  fun b x k hk => (h b x k (removeEntries_pq hk)).congr rfl rfl

/-- Moving a queued hypernode keeps the queue invariant. -/
theorem queueInv_makeMove (h2 : ∀ e ∈ hg.edges, 2 ≤ edgeSize e) (maxImbalance : ℚ)
    {s : TwoWayFM} (h : QueueInv hg s) {chosen : Bool} {node : Nat} {gain : Int}
    (hnode : s.pq chosen node = some gain) :
    QueueInv hg (makeMove hg maxImbalance chosen node gain s) := by
  obtain rfl : s.part node = chosen := (h _ _ _ hnode).part_eq
  refine (@queueInv_updateNeighbours hg h2 s.part node _ rfl (by simp [moveMaxGainNode, moveHypernode])
    fun b x k hk => ?_).congr (makeMove_queues maxImbalance)
  simp only [moveMaxGainNode, moveHypernode, setKey_apply] at hk
  split_ifs at hk with hx
  obtain ⟨h1, h2', h3, h4, h5⟩ := h b x k hk
  have hxn : x ≠ node := by
    rintro rfl
    exact hx ⟨h1.symm, rfl⟩
  exact ⟨by simpa [moveMaxGainNode, moveHypernode, changeNodePartition, hxn] using h1,
    by simpa [moveMaxGainNode, moveHypernode, hxn] using h2', h3, h4, h5⟩

end Queue

/-! ## The cut counter -/

/-- With hyperedges of two or more pins, what holds at the head of every iteration of a pass
entered in `s₀`, besides `PassInv`. -/
structure CutInv (hg : Hypergraph) (s₀ s : TwoWayFM) : Prop where
  queue : QueueInv hg s
  cut_sub : s.cut - hg.hyperedgeCut s.part = s₀.cut - hg.hyperedgeCut s₀.part
  bestCut_sub : s.bestCut - hg.hyperedgeCut (minCutPartition s₀ s) =
    s₀.cut - hg.hyperedgeCut s₀.part

section Cut

variable {hg : Hypergraph} {s₀ s : TwoWayFM}

theorem CutInv.enter (s : TwoWayFM) (u v : Nat) (bestCut : Int) (bestImbalance : ℚ) :
    CutInv hg (enterRefine hg s u v bestCut bestImbalance)
      (enterRefine hg s u v bestCut bestImbalance) where
  queue := queueInv_enterRefine s u v bestCut bestImbalance
  cut_sub := rfl
  bestCut_sub := by rw [minCutPartition, enterRefine_eq]; rfl

theorem CutInv.removeEntries (h : CutInv hg s₀ s) (removed : Bool → List Nat) (step : Nat) :
    CutInv hg s₀ { KaHyPar.removeEntries removed s with step := step } :=
  ⟨h.queue.removeEntries removed step, h.cut_sub, h.bestCut_sub⟩

/-- A move of a queued hypernode keeps the invariant: its key is the change of the cut. -/
theorem CutInv.makeMove (h2 : ∀ e ∈ hg.edges, 2 ≤ edgeSize e) (maxImbalance : ℚ)
    (hp : PassInv hg s₀ s) (h : CutInv hg s₀ s) {chosen : Bool} {node : Nat} {gain : Int}
    (hnode : s.pq chosen node = some gain) :
    CutInv hg s₀ (KaHyPar.makeMove hg maxImbalance chosen node gain s) := by
  obtain ⟨hpart, -, -, -, hkey⟩ := h.queue _ _ _ hnode
  have hcut : (KaHyPar.makeMove hg maxImbalance chosen node gain s).cut -
      hg.hyperedgeCut (KaHyPar.makeMove hg maxImbalance chosen node gain s).part =
        s₀.cut - hg.hyperedgeCut s₀.part := by
    have := hyperedgeCut_sub_update s.part node hg h2
    rw [makeMove_cut, makeMove_part, ← hpart, ← h.cut_sub, hkey, changeNodePartition]
    omega
  refine ⟨queueInv_makeMove h2 maxImbalance h.queue hnode, hcut, ?_⟩
  obtain ⟨hstay, hnew⟩ := hp.minCutPartition_makeMove maxImbalance hnode
  rcases makeMove_checkpoint hg maxImbalance chosen node gain s with
    ⟨-, hb, -, hm⟩ | ⟨-, hb, -, hm⟩
  · rw [hb, hstay hm, h.bestCut_sub]
  · rw [hb, hnew hm, hcut]

theorem CutInv.body (h2 : ∀ e ∈ hg.edges, 2 ≤ edgeSize e) {upperBound : Int} {maxImbalance : ℚ}
    (hp : PassInv hg s₀ s) (h : CutInv hg s₀ s) {c : Choice} {s' : TwoWayFM}
    (hb : body hg upperBound maxImbalance s c = some s') : CutInv hg s₀ s' := by
  rcases body_cases hg upperBound maxImbalance hb with
    ⟨removed, -, rfl⟩ | ⟨removed, chosen, node, gain, hnode, -, rfl⟩
  · exact h.removeEntries removed _
  · exact (h.removeEntries removed _).makeMove h2 maxImbalance (hp.removeEntries removed _) hnode

/-- Every head state of a pass satisfies the invariant. -/
theorem Reachable.cutInv (h2 : ∀ e ∈ hg.edges, 2 ≤ edgeSize e) {upperBound : Int}
    {maxImbalance : ℚ} (hr : Reachable hg upperBound maxImbalance s₀ s) (hp₀ : PassInv hg s₀ s₀)
    (h₀ : CutInv hg s₀ s₀) : CutInv hg s₀ s := by
  induction hr with
  | start => exact h₀
  | step hr _ _ _ hb ih => exact ih.body h2 (hr.passInv hp₀) hb

end Cut

/-! ## The invariants at the head of every iteration -/

section Head

variable {hg : Hypergraph} {upperBound : Int} {maxImbalance : ℚ}

/-- A move takes the queued hypernode it logs out of the block it is in, and lowers the cut
counter by that hypernode's gain. -/
theorem body_move_spec {s s' : TwoWayFM} {c : Choice} (h : QueueInv hg s)
    (hb : body hg upperBound maxImbalance s c = some s') (hn : s'.numMoves = s.numMoves + 1) :
    let node := s'.performedMoves s.numMoves
    s'.part = changeNodePartition s.part node (s.part node) (!s.part node) ∧
      s'.cut = s.cut - computeGain hg s.part node := by
  rcases body_cases hg upperBound maxImbalance hb with
    ⟨removed, -, rfl⟩ | ⟨removed, chosen, node, gain, hnode, -, rfl⟩
  · simp [removeEntries] at hn
  · obtain ⟨hpart, -, -, -, hkey⟩ := h _ _ _ (removeEntries_pq hnode)
    have hlog : (makeMove hg maxImbalance chosen node gain
        (removeEntries removed s)).performedMoves s.numMoves = node := by
      rw [makeMove_performedMoves]
      exact Function.update_same _ _ _
    simp only [hlog, makeMove_part, makeMove_cut]
    exact ⟨by rw [hpart]; rfl, by rw [hkey]; rfl⟩

end Head

/-- At the head of every iteration of a pass, each hypernode in `_pq[b]` is in block `b` and not
in `_pq[1 - b]`, unmarked, a border node, and keyed by its gain; the moves so far are distinct;
and the next move takes a hypernode out of the block it is in and lowers the cut counter by its
gain. -/
theorem refine_queue_invariant (hg : Hypergraph) (h2 : ∀ e ∈ hg.edges, 2 ≤ edgeSize e)
    (upperBound : Int) (maxImbalance : ℚ) (s : TwoWayFM) (u v : Nat) (bestCut : Int)
    (bestImbalance : ℚ) {t : TwoWayFM}
    (ht : Reachable hg upperBound maxImbalance (enterRefine hg s u v bestCut bestImbalance) t) :
    (∀ b x k, t.pq b x = some k →
        t.part x = b ∧ t.pq (!b) x = none ∧ t.marked x = false ∧
          isBorderNode hg t.part x = true ∧ k = computeGain hg t.part x) ∧
      (movesOf t t.numMoves).Nodup ∧
      ∀ c t', body hg upperBound maxImbalance t c = some t' → t'.numMoves = t.numMoves + 1 →
        let node := t'.performedMoves t.numMoves
        t'.part = changeNodePartition t.part node (t.part node) (!t.part node) ∧
          t'.cut = t.cut - computeGain hg t.part node := by
  have hp := ht.passInv (PassInv.enter hg s u v bestCut bestImbalance)
  have hq := (ht.cutInv h2 (PassInv.enter hg s u v bestCut bestImbalance)
    (CutInv.enter s u v bestCut bestImbalance)).queue
  refine ⟨fun b x k hk => ?_, hp.nodup, fun c t' hb hn => body_move_spec hq hb hn⟩
  obtain ⟨h1, h2, -, h4, h5⟩ := hq b x k hk
  exact ⟨h1, hq.not_mem_other hk, h2, h4, h5⟩

/-- The refiner on `pathHypergraph` split by `pathPartition`, after `initialize()`. -/
def pathState : TwoWayFM := initializeRefiner pathHypergraph (TwoWayFM.create pathPartition)

/-- The decisions of a pass on `pathState` from the seeds `1` and `2`: move `1`, the maximum of
`_pq[1]`, then `2`, the maximum of `_pq[0]`; no stop and no clogging. -/
def pathChoices : List Choice :=
  [⟨false, fun b => if b then 1 else 2, fun _ _ => (false, fun _ => []), fun _ _ => true, 1⟩,
    ⟨false, fun _ => 2, fun _ _ => (false, fun _ => []), fun _ _ => false, 2⟩,
    ⟨false, fun _ => 0, fun _ _ => (false, fun _ => []), fun _ _ => false, 0⟩]

theorem refine_queue_invariant_path :
    (∀ e ∈ pathHypergraph.edges, 2 ≤ edgeSize e) ∧
      ∃ t, Reachable pathHypergraph 4 0 (enterRefine pathHypergraph pathState 1 2 3 0) t ∧
        t.numMoves = 1 ∧ t.pq false 2 = some 0 ∧
        (∀ b x k, t.pq b x = some k →
            t.part x = b ∧ t.pq (!b) x = none ∧ t.marked x = false ∧
              isBorderNode pathHypergraph t.part x = true ∧ k = computeGain pathHypergraph t.part x) ∧
          (movesOf t t.numMoves).Nodup ∧
          ∀ c t', body pathHypergraph 4 0 t c = some t' → t'.numMoves = t.numMoves + 1 →
            let node := t'.performedMoves t.numMoves
            t'.part = changeNodePartition t.part node (t.part node) (!t.part node) ∧
              t'.cut = t.cut - computeGain pathHypergraph t.part node := by
  -- the head after the first move of `pathChoices`: `2` is queued with the key `updateNeighbours`
  -- gave it
  obtain ⟨t, hb, hval⟩ := Option.map_eq_some'.1 (show (body pathHypergraph 4 0
      (enterRefine pathHypergraph pathState 1 2 3 0) (pathChoices.head (List.cons_ne_nil _ _))).map
      (fun t => (t.numMoves, t.pq false 2)) = some (1, some 0) by with_unfolding_all decide)
  obtain ⟨hmoves, hkey⟩ := Prod.mk.inj hval
  have ht := Reachable.start.step (by with_unfolding_all decide) (by with_unfolding_all decide) rfl hb
  exact ⟨by decide, t, ht, hmoves, hkey,
    refine_queue_invariant pathHypergraph (by decide) 4 0 pathState 1 2 3 0 ht⟩

/-- With `best_cut` the cut at entry, the cut counter is the cut of the partition at the head of
every iteration. -/
theorem refine_cut_counter (hg : Hypergraph) (h2 : ∀ e ∈ hg.edges, 2 ≤ edgeSize e)
    (upperBound : Int) (maxImbalance : ℚ) (s : TwoWayFM) (u v : Nat) (bestCut : Int)
    (bestImbalance : ℚ) (hcut : bestCut = hg.hyperedgeCut s.part) {t : TwoWayFM}
    (ht : Reachable hg upperBound maxImbalance (enterRefine hg s u v bestCut bestImbalance) t) :
    t.cut = hg.hyperedgeCut t.part := by
  have h := (ht.cutInv h2 (PassInv.enter hg s u v bestCut bestImbalance)
    (CutInv.enter s u v bestCut bestImbalance)).cut_sub
  have hcut₀ : (enterRefine hg s u v bestCut bestImbalance).cut = bestCut := rfl
  rw [enterRefine_part, hcut₀, hcut] at h
  omega

theorem refine_cut_counter_path :
    (∀ e ∈ pathHypergraph.edges, 2 ≤ edgeSize e) ∧ 3 = pathHypergraph.hyperedgeCut pathState.part ∧
      ∃ t, forward pathHypergraph 4 0 (enterRefine pathHypergraph pathState 1 2 3 0) pathChoices =
          some t ∧ Reachable pathHypergraph 4 0 (enterRefine pathHypergraph pathState 1 2 3 0) t ∧
        t.numMoves = 2 ∧ t.cut = pathHypergraph.hyperedgeCut t.part := by
  -- the head where the forward loop of `pathChoices` ends, after two moves
  obtain ⟨t, hf, hmoves⟩ := Option.map_eq_some'.1 (show (forward pathHypergraph 4 0
      (enterRefine pathHypergraph pathState 1 2 3 0) pathChoices).map (·.numMoves) = some 2 by
    with_unfolding_all decide)
  have ht := Reachable.start.forward hf
  exact ⟨by decide, by decide, t, hf, ht, hmoves,
    refine_cut_counter pathHypergraph (by decide) 4 0 pathState 1 2 3 0 (by decide) ht⟩

end KaHyPar
