import KaHyPar.TwoWayFM.Rollback

/-!
# What `refine` reports, and where it writes the move log

1. `partition/refinement/policies/FMImprovementPolicies.h`: the caller asks
   `CutDecreasedOrInfeasibleImbalanceDecreased::improvementFound` whether a pass improved. The
   checkpoint of a pass stays the entry's while `min_cut_index = -1`, and after the first accepted
   move it is strictly better than the entry, by cut and then by imbalance (`CheckpointInv`). So a
   pass that accepts no move returns the entry partition and block weights as they were, and
   `improvementFound` is false on what `refine` returns exactly when the pass accepted no move, or
   only lowered, at the same cut, the imbalance of an entry already within `max_imbalance`
   (`refine_improvementFound_iff`).
2. The pass writes `_performed_moves[num_moves]` only while
   `num_moves < max_number_of_moves = _hg.numNodes()`, which is at most the `initialNumNodes`
   places the constructor reserves (`refine_writes_within_reservation`).
-/

namespace KaHyPar

/-! ## The improvement policy -/

/-- `CutDecreasedOrInfeasibleImbalanceDecreased::improvementFound`. -/
def CutDecreasedOrInfeasibleImbalanceDecreased.improvementFound (bestCut initialCut : Int)
    (bestImbalance initialImbalance maxImbalance : ℚ) : Bool :=
  decide (bestCut < initialCut) ||
    (decide (initialImbalance > maxImbalance) && decide (bestImbalance < initialImbalance))

/-! ## The checkpoint only gets better -/

/-- The checkpoint is the entry's until a move is accepted, and afterwards strictly better than
the entry: a lower cut, or the same cut and a lower imbalance. -/
def CheckpointInv (s₀ s : TwoWayFM) : Prop :=
  (s.minCutIndex = -1 ∧ s.bestCut = s₀.bestCut ∧ s.bestImbalance = s₀.bestImbalance) ∨
    (0 ≤ s.minCutIndex ∧
      (s.bestCut < s₀.bestCut ∨ (s.bestCut = s₀.bestCut ∧ s.bestImbalance < s₀.bestImbalance)))

/-- A move the acceptance test takes, from a checkpoint no worse than the entry, is strictly
better than the entry. -/
theorem lt_of_accepted {c c' c₀ : Int} {i i' i₀ maxImbalance : ℚ} (hc : c ≤ c₀)
    (hi : c = c₀ → i ≤ i₀) (h : (i' < i ∧ c' ≤ c) ∨ (c' < c ∧ i' < maxImbalance)) :
    c' < c₀ ∨ (c' = c₀ ∧ i' < i₀) := by
  rcases h with ⟨hi', hc'⟩ | ⟨hc', -⟩
  · rcases lt_or_eq_of_le (hc'.trans hc) with hlt | heq
    · exact .inl hlt
    · exact .inr ⟨heq, hi'.trans_le (hi (by omega))⟩
  · exact .inl (by omega)

section Checkpoint

variable {hg : Hypergraph} {upperBound : Int} {maxImbalance : ℚ} {s₀ : TwoWayFM}

theorem CheckpointInv.makeMove {s : TwoWayFM} (h : CheckpointInv s₀ s) (chosen : Bool)
    (node : Nat) (gain : Int) : CheckpointInv s₀ (KaHyPar.makeMove hg maxImbalance chosen node gain s) := by
  have hle : s.bestCut ≤ s₀.bestCut ∧ (s.bestCut = s₀.bestCut → s.bestImbalance ≤ s₀.bestImbalance) := by
    rcases h with ⟨-, hc, hi⟩ | ⟨-, hc | ⟨hc, hi⟩⟩
    · exact ⟨hc.le, fun _ => hi.le⟩
    · exact ⟨hc.le, fun h => absurd h hc.ne⟩
    · exact ⟨hc.le, fun _ => hi.le⟩
  rcases makeMove_checkpoint hg maxImbalance chosen node gain s with
    ⟨-, hc, hi, hm⟩ | ⟨hacc, hc, hi, hm⟩
  · unfold CheckpointInv
    rw [hc, hi, hm]
    exact h
  · right
    rw [hc, hi, hm]
    exact ⟨by omega, lt_of_accepted hle.1 hle.2 hacc⟩

theorem CheckpointInv.body {s s' : TwoWayFM} {c : Choice} (h : CheckpointInv s₀ s)
    (hb : body hg upperBound maxImbalance s c = some s') : CheckpointInv s₀ s' := by
  rcases body_cases hg upperBound maxImbalance hb with
    ⟨removed, -, rfl⟩ | ⟨removed, chosen, node, gain, -, -, rfl⟩
  · exact h
  · exact CheckpointInv.makeMove (s := removeEntries removed s) h chosen node gain

theorem Reachable.checkpointInv {t : TwoWayFM} (ht : Reachable hg upperBound maxImbalance s₀ t)
    (h₀ : s₀.minCutIndex = -1) : CheckpointInv s₀ t := by
  induction ht with
  | start => exact .inl ⟨h₀, rfl, rfl⟩
  | step _ _ _ _ hb ih => exact ih.body hb

end Checkpoint

/-- On what `refine` returns: a pass that accepts no move returns the entry partition and block
weights as it found them, and `improvementFound` finds no improvement exactly when the pass
accepted no move, or only lowered, at an unchanged cut, the imbalance of an entry already within
`max_imbalance`. -/
theorem refine_improvementFound_iff (hg : Hypergraph) (upperBound : Int) (s : TwoWayFM) (u v : Nat)
    (bestCut : Int) (maxImbalance bestImbalance : ℚ) (cs : List Choice) {r : TwoWayFM}
    (hr : refine hg upperBound s u v bestCut maxImbalance bestImbalance cs = some r) :
    (r.minCutIndex = -1 → r.part = s.part ∧ r.partitionSize = s.partitionSize) ∧
      (CutDecreasedOrInfeasibleImbalanceDecreased.improvementFound r.bestCut bestCut r.bestImbalance
          bestImbalance maxImbalance = false ↔
        r.minCutIndex = -1 ∨
          (r.bestCut = bestCut ∧ r.bestImbalance < bestImbalance ∧ bestImbalance ≤ maxImbalance)) := by
  obtain ⟨t, ht, hrt, hpart, hsize⟩ := refine_spec hr
  have hinv := ht.checkpointInv rfl
  obtain ⟨hmin, hbc, hbi⟩ : t.minCutIndex = r.minCutIndex ∧ t.bestCut = r.bestCut ∧
      t.bestImbalance = r.bestImbalance := by rw [hrt]; exact ⟨rfl, rfl, rfl⟩
  have hb₀ : (enterRefine hg s u v bestCut bestImbalance).bestCut = bestCut := rfl
  have hi₀ : (enterRefine hg s u v bestCut bestImbalance).bestImbalance = bestImbalance := rfl
  unfold CheckpointInv at hinv
  rw [hmin, hbc, hbi, hb₀, hi₀] at hinv
  refine ⟨fun hm => ?_, ?_⟩
  · -- no accepted move: the rollback undoes every move of the pass
    have hp : r.part = s.part := by simp [hpart, minCutPartition, hmin, hm]
    refine ⟨hp, funext fun b => ?_⟩
    have := hsize b
    rw [hp] at this
    omega
  · simp only [CutDecreasedOrInfeasibleImbalanceDecreased.improvementFound, Bool.or_eq_false_iff,
      decide_eq_false_iff_not, Bool.and_eq_false_iff, not_lt]
    rcases hinv with ⟨hm, hc, hi⟩ | ⟨hm, hc | ⟨hc, hi⟩⟩
    · -- the checkpoint is the entry
      exact iff_of_true ⟨by rw [hc], .inr (by rw [hi])⟩ (.inl hm)
    · -- the cut went down
      exact iff_of_false (fun h => absurd hc (not_lt.2 h.1)) (by rintro (h | ⟨h, -⟩) <;> omega)
    · -- the imbalance went down at the same cut
      rw [show r.bestCut = bestCut from hc]
      constructor
      · rintro ⟨-, h | h⟩
        · exact .inr ⟨rfl, hi, h⟩
        · exact absurd hi (not_lt.2 h)
      · rintro (h | ⟨-, -, h⟩)
        · omega
        · exact ⟨le_rfl, .inl h⟩

theorem refine_improvementFound_iff_path :
    ∃ r, refine pathHypergraph 4 pathState 1 2 3 (1 / 10) 0 pathChoices = some r ∧
      r.minCutIndex = 1 ∧
      (r.minCutIndex = -1 → r.part = pathState.part ∧ r.partitionSize = pathState.partitionSize) ∧
      (CutDecreasedOrInfeasibleImbalanceDecreased.improvementFound r.bestCut 3 r.bestImbalance 0
          (1 / 10) = false ↔
        r.minCutIndex = -1 ∨ (r.bestCut = 3 ∧ r.bestImbalance < 0 ∧ (0 : ℚ) ≤ 1 / 10)) := by
  -- with `max_imbalance = 1/10` the pass accepts its second move
  obtain ⟨r, hr, hmin⟩ := Option.map_eq_some'.1 (show (refine pathHypergraph 4 pathState 1 2 3
      (1 / 10) 0 pathChoices).map (·.minCutIndex) = some 1 by with_unfolding_all decide)
  exact ⟨r, hr, hmin,
    refine_improvementFound_iff pathHypergraph 4 pathState 1 2 3 (1 / 10) 0 pathChoices hr⟩

/-! ## The move log stays within its reservation -/

/-- Every enabled hypernode has an id below `initialNumNodes`, so there are at most that many. -/
theorem Hypergraph.numNodes_le (hg : Hypergraph) : hg.numNodes ≤ hg.initialNumNodes :=
  List.length_range hg.initialNumNodes ▸
    (List.subperm_of_subset hg.nodes_nodup fun v hv => List.mem_range.2 (hg.node_lt v hv)).length_le

/-- At every head of a pass, at most `max_number_of_moves` moves are made, and the move log has
been written only below `num_moves`. -/
structure LogInv (hg : Hypergraph) (s₀ s : TwoWayFM) : Prop where
  numMoves_le : s.numMoves ≤ hg.numNodes
  unwritten : ∀ i, s.numMoves ≤ i → s.performedMoves i = s₀.performedMoves i

theorem Reachable.logInv {hg : Hypergraph} {upperBound : Int} {maxImbalance : ℚ} {s₀ t : TwoWayFM}
    (ht : Reachable hg upperBound maxImbalance s₀ t) (h₀ : s₀.numMoves = 0) : LogInv hg s₀ t := by
  induction ht with
  | start => exact ⟨by omega, fun _ _ => rfl⟩
  | @step s _ _ _ hn _ _ hb ih =>
    rcases body_cases hg upperBound maxImbalance hb with
      ⟨removed, -, rfl⟩ | ⟨removed, chosen, node, gain, -, -, rfl⟩
    · exact ⟨ih.numMoves_le, ih.unwritten⟩
    · -- the move is logged at `num_moves`, below `max_number_of_moves`
      refine ⟨by rw [makeMove_numMoves]; exact hn, fun i hi => ?_⟩
      have hi' : s.numMoves + 1 ≤ i := by rw [makeMove_numMoves] at hi; exact hi
      have hne : i ≠ (removeEntries removed s).numMoves := fun h => by
        change i = s.numMoves at h
        omega
      rw [makeMove_performedMoves, Function.update_noteq hne]
      exact ih.unwritten i (by omega)

/-- `refine` makes at most `max_number_of_moves = _hg.numNodes()` moves and writes
`_performed_moves` only at `0, …, num_moves - 1`, so only below the `initialNumNodes` places the
constructor reserves. -/
theorem refine_writes_within_reservation (hg : Hypergraph) (upperBound : Int) (s : TwoWayFM)
    (u v : Nat) (bestCut : Int) (maxImbalance bestImbalance : ℚ) (cs : List Choice) {r : TwoWayFM}
    (hr : refine hg upperBound s u v bestCut maxImbalance bestImbalance cs = some r) :
    r.numMoves ≤ hg.numNodes ∧ hg.numNodes ≤ hg.initialNumNodes ∧
      ∀ i, r.numMoves ≤ i → r.performedMoves i = s.performedMoves i := by
  obtain ⟨t, ht, hrt, -⟩ := refine_spec hr
  have hlog := ht.logInv rfl
  have hmoves : t.numMoves = r.numMoves := by rw [hrt]
  have hwrites : t.performedMoves = r.performedMoves := by rw [hrt]
  refine ⟨hmoves ▸ hlog.numMoves_le, hg.numNodes_le, fun i hi => ?_⟩
  rw [← hwrites, hlog.unwritten i (hmoves ▸ hi), enterRefine_eq]

theorem refine_writes_within_reservation_path :
    ∃ r, refine pathHypergraph 4 pathState 1 2 3 0 0 pathChoices = some r ∧
      r.numMoves ≤ pathHypergraph.numNodes ∧ pathHypergraph.numNodes ≤ pathHypergraph.initialNumNodes ∧
      ∀ i, r.numMoves ≤ i → r.performedMoves i = pathState.performedMoves i :=
  ⟨_, (Option.some_get refine_path_isSome).symm,
    refine_writes_within_reservation pathHypergraph 4 pathState 1 2 3 0 0 pathChoices
      (Option.some_get refine_path_isSome).symm⟩

end KaHyPar
