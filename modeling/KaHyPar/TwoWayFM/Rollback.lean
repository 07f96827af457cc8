import KaHyPar.TwoWayFM.CutInvariant

/-!
# Rollback, and what `refine` returns

1. At the end of the forward loop `min_cut_index ≤ num_moves - 1` (`PassInv`), so `rollback`
   ends; each undo step moves the last logged hypernode back (`rollbackLoop_spec`), and the
   partition returned is the one at the checkpoint, `minCutPartition` (`refine_spec`).
2. With the cut right at entry, the cut returned is `best_cut`; with the block weights right at
   entry, they are right at every head and on return, and `best_imbalance` is the imbalance
   returned.
-/

namespace KaHyPar

/-! ## Rollback -/

section Rollback

variable (hg : Hypergraph)

/-- `rollback` changes the partition and the block weights only. -/
theorem rollbackLoop_eq (pm : Nat → Nat) (n : Nat) (lastIndex : Int) (s : TwoWayFM) :
    rollbackLoop hg pm n lastIndex s =
      { s with
        part := (rollbackLoop hg pm n lastIndex s).part
        partitionSize := (rollbackLoop hg pm n lastIndex s).partitionSize } := by
  induction n generalizing lastIndex s with
  | zero => rfl
  | succ n ih => rw [rollbackLoop, ih]; rfl

/-- Undoing the last `n` of the first `m` logged moves of `r` leaves the first `m - n` applied,
and the block weights off the true ones by as much as before. -/
theorem rollbackLoop_spec (r : TwoWayFM) {p₀ : Nat → Bool} :
    ∀ (n m : Nat) (s : TwoWayFM), n ≤ m → (∀ x ∈ movesOf r m, x ∈ hg.nodes) →
      s.part = applyMoves p₀ (movesOf r m) →
      let s' := rollbackLoop hg r.performedMoves n ((m : Int) - 1) s
      s'.part = applyMoves p₀ (movesOf r (m - n)) ∧
        ∀ b, s'.partitionSize b - hg.blockWeight s'.part b =
          s.partitionSize b - hg.blockWeight s.part b
  | 0, _, _, _, _, hs => ⟨hs, fun _ => rfl⟩
  | n + 1, m, s, hn, hmem, hs => by
    obtain ⟨m, rfl⟩ : ∃ m', m = m' + 1 := ⟨m - 1, by omega⟩
    rw [movesOf_succ] at hmem hs
    have hx : r.performedMoves m ∈ hg.nodes := hmem _ (by simp)
    -- the undo step moves the last logged hypernode back
    have hundo : (undoMove hg (r.performedMoves m) s).part = applyMoves p₀ (movesOf r m) := by
      simp [undoMove, changeNodePartition, hs, applyMoves_concat]
    obtain ⟨h1, h2⟩ := rollbackLoop_spec r n m (undoMove hg (r.performedMoves m) s) (by omega)
      (fun x hx => hmem x (List.mem_append_left _ hx)) hundo
    have hlast : ((m + 1 : Nat) : Int) - 1 = m := by omega
    simp only [rollbackLoop, hlast, Int.toNat_ofNat, Nat.add_sub_add_right]
    exact ⟨h1, fun b => (h2 b).trans (partitionSize_sub_blockWeight_moveHypernode hg hx s b)⟩

/-- At the end of a pass `rollback` ends, with the partition at the checkpoint and the block
weights rolled back alike. -/
theorem rollback_spec {s₀ r : TwoWayFM} (hp : PassInv hg s₀ r) :
    ∃ r', rollback hg r.performedMoves (r.numMoves - 1) r.minCutIndex r = some r' ∧
      r' = { r with part := r'.part, partitionSize := r'.partitionSize } ∧
      r'.part = minCutPartition s₀ r ∧
      ∀ b, r'.partitionSize b - hg.blockWeight r'.part b =
        s₀.partitionSize b - hg.blockWeight s₀.part b := by
  have hmin := hp.minCutIndex_ge
  have hlt := hp.minCutIndex_lt
  obtain ⟨h1, h2⟩ := rollbackLoop_spec hg r ((r.numMoves - 1 - r.minCutIndex).toNat) r.numMoves r
    (by omega) hp.mem_nodes hp.part_eq
  refine ⟨_, if_pos (by omega), rollbackLoop_eq .., ?_, fun b => (h2 b).trans (hp.partitionSize_sub b)⟩
  rw [h1, minCutPartition,
    show r.numMoves - (r.numMoves - 1 - r.minCutIndex).toNat = (r.minCutIndex + 1).toNat by omega]

end Rollback

/-! ## What `refine` returns -/

/-- `refine` returns the state at the end of its forward loop, a head state, with the partition
at its checkpoint and the block weights rolled back alike. -/
theorem refine_spec {hg : Hypergraph} {upperBound : Int} {s : TwoWayFM} {u v : Nat}
    {bestCut : Int} {maxImbalance bestImbalance : ℚ} {cs : List Choice} {r : TwoWayFM}
    (h : refine hg upperBound s u v bestCut maxImbalance bestImbalance cs = some r) :
    ∃ t, Reachable hg upperBound maxImbalance (enterRefine hg s u v bestCut bestImbalance) t ∧
      r = { t with part := r.part, partitionSize := r.partitionSize } ∧
      r.part = minCutPartition (enterRefine hg s u v bestCut bestImbalance) t ∧
      ∀ b, r.partitionSize b - hg.blockWeight r.part b =
        s.partitionSize b - hg.blockWeight s.part b := by
  obtain ⟨t, hf, hr⟩ := Option.bind_eq_some.1 h
  have ht := Reachable.start.forward hf
  obtain ⟨r', hr', hrt, hpart, hsize⟩ :=
    rollback_spec hg (ht.passInv (PassInv.enter hg s u v bestCut bestImbalance))
  obtain rfl : r = r' := Option.some.inj (hr.symm.trans hr')
  refine ⟨t, ht, hrt, hpart, fun b => ?_⟩
  simpa using hsize b

/-- The partition at the checkpoint of the state `refine` returns, in its own move log. -/
theorem minCutPartition_refine {hg : Hypergraph} {s : TwoWayFM} {u v : Nat} {bestCut : Int}
    {bestImbalance : ℚ} {r t : TwoWayFM}
    (hrt : r = { t with part := r.part, partitionSize := r.partitionSize }) :
    minCutPartition (enterRefine hg s u v bestCut bestImbalance) t =
      applyMoves s.part (movesOf r (r.minCutIndex + 1).toNat) := by
  have hmin : t.minCutIndex = r.minCutIndex := by rw [hrt]
  have hlog : t.performedMoves = r.performedMoves := by rw [hrt]
  rw [minCutPartition, enterRefine_part, hmin, movesOf, movesOf, hlog]

/-- With `best_cut` the cut at entry, `refine` returns the entry partition with the moves up to
`min_cut_index` applied, whose cut is the returned `best_cut`, no higher than at entry. -/
theorem refine_rollback_to_best_cut (hg : Hypergraph) (h2 : ∀ e ∈ hg.edges, 2 ≤ edgeSize e)
    (upperBound : Int) (s : TwoWayFM) (u v : Nat) (bestCut : Int) (maxImbalance bestImbalance : ℚ)
    (cs : List Choice) (hcut : bestCut = hg.hyperedgeCut s.part) {r : TwoWayFM}
    (hr : refine hg upperBound s u v bestCut maxImbalance bestImbalance cs = some r) :
    r.part = applyMoves s.part (movesOf r (r.minCutIndex + 1).toNat) ∧
      hg.hyperedgeCut r.part = r.bestCut ∧ r.bestCut ≤ bestCut := by
  obtain ⟨t, ht, hrt, hpart, -⟩ := refine_spec hr
  have hp := ht.passInv (PassInv.enter hg s u v bestCut bestImbalance)
  have hc := (ht.cutInv h2 (PassInv.enter hg s u v bestCut bestImbalance)
    (CutInv.enter s u v bestCut bestImbalance)).bestCut_sub
  have hbest : r.bestCut = t.bestCut := by rw [hrt]
  have hcut₀ : (enterRefine hg s u v bestCut bestImbalance).cut = bestCut := rfl
  rw [minCutPartition_refine hrt] at hpart hc
  rw [enterRefine_part, hcut₀, ← hcut, ← hpart] at hc
  exact ⟨hpart, by omega, hbest ▸ hp.bestCut_le⟩

theorem refine_path_isSome :
    (refine pathHypergraph 4 pathState 1 2 3 0 0 pathChoices).isSome := by
  with_unfolding_all decide

theorem refine_rollback_to_best_cut_path :
    (∀ e ∈ pathHypergraph.edges, 2 ≤ edgeSize e) ∧ 3 = pathHypergraph.hyperedgeCut pathState.part ∧
      ∃ r, refine pathHypergraph 4 pathState 1 2 3 (1 / 10) 0 pathChoices = some r ∧
        r.minCutIndex = 1 ∧ r.bestCut = 1 ∧
        r.part = applyMoves pathState.part (movesOf r (r.minCutIndex + 1).toNat) ∧
        pathHypergraph.hyperedgeCut r.part = r.bestCut ∧ r.bestCut ≤ 3 := by
  -- with `max_imbalance = 1/10` the second move, to cut 1 at imbalance 0, is accepted
  obtain ⟨r, hr, hval⟩ := Option.map_eq_some'.1 (show (refine pathHypergraph 4 pathState 1 2 3
      (1 / 10) 0 pathChoices).map (fun r => (r.minCutIndex, r.bestCut)) = some (1, 1) by
    with_unfolding_all decide)
  obtain ⟨hmin, hbest⟩ := Prod.mk.inj hval
  exact ⟨by decide, by decide, r, hr, hmin, hbest,
    refine_rollback_to_best_cut pathHypergraph (by decide) 4 pathState 1 2 3 (1 / 10) 0 pathChoices
      (by decide) hr⟩

/-! ## Block weights and `best_imbalance` -/

/-- `best_imbalance` is the imbalance of the partition at the checkpoint, from the block weights
the cache would hold there, and it is below `max_imbalance` or at most its entry value. -/
structure ImbalanceInv (hg : Hypergraph) (maxImbalance : ℚ) (s₀ s : TwoWayFM) : Prop where
  bestImbalance_eq : s.bestImbalance = calculateImbalance fun b =>
    hg.blockWeight (minCutPartition s₀ s) b + (s₀.partitionSize b - hg.blockWeight s₀.part b)
  bestImbalance_bound : s.bestImbalance < maxImbalance ∨ s.bestImbalance ≤ s₀.bestImbalance

section Imbalance

variable {hg : Hypergraph} {maxImbalance : ℚ} {s₀ s : TwoWayFM}

theorem ImbalanceInv.start (himb : s₀.bestImbalance = calculateImbalance s₀.partitionSize)
    (hmin : s₀.minCutIndex = -1) : ImbalanceInv hg maxImbalance s₀ s₀ where
  bestImbalance_eq := by
    simp only [minCutPartition, hmin, movesOf, applyMoves, himb]
    simp
  bestImbalance_bound := .inr le_rfl

/-- A move keeps the invariant: a new checkpoint takes the imbalance of the new state. -/
theorem ImbalanceInv.makeMove (hp : PassInv hg s₀ s) (h : ImbalanceInv hg maxImbalance s₀ s)
    {chosen : Bool} {node : Nat} {gain : Int} (hnode : s.pq chosen node = some gain) :
    ImbalanceInv hg maxImbalance s₀ (KaHyPar.makeMove hg maxImbalance chosen node gain s) := by
  obtain ⟨hstay, hnew⟩ := hp.minCutPartition_makeMove maxImbalance hnode
  have hsize := (hp.makeMove maxImbalance hnode).partitionSize_sub
  rcases makeMove_checkpoint hg maxImbalance chosen node gain s with
    ⟨-, -, hb, hm⟩ | ⟨hc, -, hb, hm⟩
  · exact ⟨by rw [hb, hstay hm]; exact h.bestImbalance_eq, hb ▸ h.bestImbalance_bound⟩
  · refine ⟨?_, ?_⟩ <;> rw [hb]
    · rw [hnew hm, makeMove_imbalance, ← makeMove_partitionSize hg maxImbalance chosen node gain s]
      congr 1
      funext b
      have := hsize b
      omega
    · rcases hc with ⟨hc, -⟩ | ⟨-, hc⟩
      · rcases h.bestImbalance_bound with hb' | hb'
        exacts [.inl (hc.trans hb'), .inr (hc.le.trans hb')]
      · exact .inl hc

theorem ImbalanceInv.body {upperBound : Int} (hp : PassInv hg s₀ s)
    (h : ImbalanceInv hg maxImbalance s₀ s) {c : Choice} {s' : TwoWayFM}
    (hb : body hg upperBound maxImbalance s c = some s') : ImbalanceInv hg maxImbalance s₀ s' := by
  rcases body_cases hg upperBound maxImbalance hb with
    ⟨removed, -, rfl⟩ | ⟨removed, chosen, node, gain, hnode, -, rfl⟩
  · exact ⟨h.bestImbalance_eq, h.bestImbalance_bound⟩
  · exact ImbalanceInv.makeMove (hp.removeEntries removed _)
      ⟨h.bestImbalance_eq, h.bestImbalance_bound⟩ hnode

end Imbalance

/-- `initialize()` sums the weight of each hypernode into its block. -/
theorem foldl_partitionSize (hg : Hypergraph) (part : Nat → Bool) (b : Bool) :
    ∀ (l : List Nat) (size : Bool → Int),
      l.foldl (fun size hn => Function.update size (part hn) (size (part hn) + hg.nodeWeight hn))
          size b = size b + (l.map fun v => if part v = b then hg.nodeWeight v else 0).sum
  | [], _ => by simp
  | hn :: l, size => by
    rw [List.foldl_cons, foldl_partitionSize hg part b l, List.map_cons, List.sum_cons,
      Function.update_apply]
    split_ifs with h₁ h₂ h₂ <;> subst_vars <;> first | omega | simp at *

/-- `_partition_size` holds the true block weights: `initialize()` makes it so, a move of an
enabled hypernode out of its block and an undo step keep it so, and so, from an entry where it
holds, it holds at the head of every iteration of `refine` and when it returns. -/
theorem partitionSize_eq_blockWeight (hg : Hypergraph) :
    (∀ s b, (initializeRefiner hg s).partitionSize b = hg.blockWeight s.part b) ∧
    (∀ s hn, hn ∈ hg.nodes → (∀ b, s.partitionSize b = hg.blockWeight s.part b) →
      let t := moveHypernode hg hn (s.part hn) (!s.part hn) s
      ∀ b, t.partitionSize b = hg.blockWeight t.part b) ∧
    (∀ s hn, hn ∈ hg.nodes → (∀ b, s.partitionSize b = hg.blockWeight s.part b) →
      ∀ b, (undoMove hg hn s).partitionSize b = hg.blockWeight (undoMove hg hn s).part b) ∧
    ∀ upperBound maxImbalance s u v bestCut bestImbalance,
      (∀ b, s.partitionSize b = hg.blockWeight s.part b) →
      (∀ t, Reachable hg upperBound maxImbalance (enterRefine hg s u v bestCut bestImbalance) t →
        ∀ b, t.partitionSize b = hg.blockWeight t.part b) ∧
      ∀ cs r, refine hg upperBound s u v bestCut maxImbalance bestImbalance cs = some r →
        ∀ b, r.partitionSize b = hg.blockWeight r.part b := by
  have hmove : ∀ (s : TwoWayFM) hn, hn ∈ hg.nodes →
      (∀ b, s.partitionSize b = hg.blockWeight s.part b) →
      let t := moveHypernode hg hn (s.part hn) (!s.part hn) s
      ∀ b, t.partitionSize b = hg.blockWeight t.part b := fun s hn hmem hs b => by
    have := partitionSize_sub_blockWeight_moveHypernode hg hmem s b
    rw [hs b] at this
    show _ = hg.blockWeight (Function.update s.part hn (!s.part hn)) b
    omega
  refine ⟨fun s b => ?_, hmove, hmove, fun upperBound maxImbalance s u v bestCut bestImbalance hs =>
    ⟨fun t ht b => ?_, fun cs r hr b => ?_⟩⟩
  · simpa [initializeRefiner] using foldl_partitionSize hg s.part b hg.nodes fun _ => 0
  · have := (ht.passInv (PassInv.enter hg s u v bestCut bestImbalance)).partitionSize_sub b
    rw [enterRefine_partitionSize, enterRefine_part, hs b] at this
    omega
  · obtain ⟨-, -, -, -, hsize⟩ := refine_spec hr
    have := hsize b
    rw [hs b] at this
    omega

end KaHyPar
