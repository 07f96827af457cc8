import KaHyPar.TwoWayFM.Rollback

/-!
# What the acceptance test keeps, and the move log

1. `best_cut` never rises, and a move whose imbalance is below `max_imbalance` is accepted unless
   its cut is at least `best_cut` (`Reachable.bestCut_le_cut`). So the `best_cut` a pass ends with
   is at most the cut of every partition it visits with an imbalance strictly below
   `max_imbalance` (`forward_bestCut_le_hyperedgeCut`); a partition with imbalance exactly
   `max_imbalance` is not accepted (`refine_loses_balanced_improvement_path`).
2. `_performed_moves` keeps its size while a pass writes it at `0, 1, …, num_moves - 1`
   (`refine_performedMoves`): the constructor reserves it and never resizes it
   (`refine_writes_past_performedMoves_size_path`).
-/

namespace KaHyPar

section Accept

variable {hg : Hypergraph} {upperBound : Int} {maxImbalance : ℚ}

end Accept

/-! ## The acceptance test at the balance bound -/

/-- On `pathHypergraph` with `max_imbalance = 0` the pass moves `1`, then `2`, and reaches the
split `0 1 | 2 3`, with cut 1 and imbalance exactly 0; the strict `imbalance < max_imbalance` of
the acceptance test rejects it, and `refine` returns `best_cut = 3`. -/
theorem refine_loses_balanced_improvement_path :
    (∀ e ∈ pathHypergraph.edges, 2 ≤ edgeSize e) ∧ 3 = pathHypergraph.hyperedgeCut pathState.part ∧
      (∀ b, pathState.partitionSize b = pathHypergraph.blockWeight pathState.part b) ∧
      0 = calculateImbalance pathState.partitionSize ∧
      (forward pathHypergraph 4 0 (enterRefine pathHypergraph pathState 1 2 3 0) pathChoices).map
          (fun t => (pathHypergraph.hyperedgeCut t.part,
            calculateImbalance (pathHypergraph.blockWeight t.part))) = some (1, 0) ∧
      (refine pathHypergraph 4 pathState 1 2 3 0 0 pathChoices).map (·.bestCut) = some 3 := by
  refine ⟨by decide, by decide, by decide, ?_, ?_, ?_⟩ <;> with_unfolding_all decide

/-! ## The move log -/

/-- `refine` leaves the size of `_performed_moves` as it found it and ends with
`-1 ≤ min_cut_index < num_moves`: the pass wrote the indices `0, …, num_moves - 1`, and
`rollback` read `min_cut_index + 1, …, num_moves - 1`, all of them written in the pass. -/
theorem refine_performedMoves {hg : Hypergraph} {upperBound : Int} {s : TwoWayFM} {u v : Nat}
    {bestCut : Int} {maxImbalance bestImbalance : ℚ} {cs : List Choice} {r : TwoWayFM}
    (hr : refine hg upperBound s u v bestCut maxImbalance bestImbalance cs = some r) :
    r.performedMovesSize = s.performedMovesSize ∧ -1 ≤ r.minCutIndex ∧
      r.minCutIndex < r.numMoves := by
  obtain ⟨t, ht, hrt, -⟩ := refine_spec hr
  have hp := ht.passInv (PassInv.enter hg s u v bestCut bestImbalance)
  have hsize₀ : (enterRefine hg s u v bestCut bestImbalance).performedMovesSize =
      s.performedMovesSize := by rw [enterRefine_eq]
  rw [hrt]
  exact ⟨hp.performedMovesSize_eq.trans hsize₀, hp.minCutIndex_ge, hp.minCutIndex_lt⟩

theorem refine_performedMoves_path :
    ∃ r, refine pathHypergraph 4 pathState 1 2 3 (1 / 10) 0 pathChoices = some r ∧
      r.numMoves = 2 ∧ r.performedMovesSize = pathState.performedMovesSize ∧
      -1 ≤ r.minCutIndex ∧ r.minCutIndex < r.numMoves := by
  obtain ⟨r, hr, hmoves⟩ := Option.map_eq_some'.1 (show (refine pathHypergraph 4 pathState 1 2 3
      (1 / 10) 0 pathChoices).map (·.numMoves) = some 2 by with_unfolding_all decide)
  exact ⟨r, hr, hmoves, refine_performedMoves hr⟩

/-- The constructor reserves `_performed_moves` and leaves its size 0: on `pathHypergraph` the
pass writes `_performed_moves[0] = 1` and `_performed_moves[1] = 2` with the size still 0. -/
theorem refine_writes_past_performedMoves_size_path :
    (TwoWayFM.create pathPartition).performedMovesSize = 0 ∧
      (refine pathHypergraph 4 pathState 1 2 3 0 0 pathChoices).map
          (fun r => (r.numMoves, r.performedMovesSize, r.performedMoves 0, r.performedMoves 1)) =
        some (2, 0, 1, 2) :=
  ⟨rfl, by with_unfolding_all decide⟩

end KaHyPar
