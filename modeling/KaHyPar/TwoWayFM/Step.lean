import KaHyPar.TwoWayFM.QueueInvariant

/-!
# One iteration of the forward loop

1. What every `updatePin` keeps, `updateNeighbours` keeps (`updateNeighbours_induction`), so,
   with no assumption on the hyperedges, the queues only ever hold enabled, unmarked hypernodes
   of their own block (`QueueSlots`).
2. A move is `moveMaxGainNode`, then the queues of the gain update, the checkpoint of the
   acceptance test and the move log (`makeMove_eq`). So it changes the partition, the marks, the
   block weights, the cut and the move log as `makeMove_part` … `makeMove_performedMoves` say,
   and the checkpoint as the acceptance test says (`makeMove_checkpoint`).
3. An iteration removes clogging entries and goes on, or moves a maximum of the selected queue
   (`body_cases`).
-/

namespace KaHyPar

/-! ## The queues hold unmarked hypernodes of their own block -/

/-- Every entry of `_pq[b]` is an enabled, unmarked hypernode of block `b`. -/
def QueueSlots (hg : Hypergraph) (s : TwoWayFM) : Prop :=
  ∀ b x k, s.pq b x = some k → s.part x = b ∧ s.marked x = false ∧ x ∈ hg.nodes

section Slots

variable {hg : Hypergraph}

theorem mem_nodes_of_isBorderNode {part : Nat → Bool} {x : Nat}
    (h : isBorderNode hg part x = true) : x ∈ hg.nodes := by
  obtain ⟨e, he, -⟩ := (isBorderNode_iff hg part x).1 h
  obtain ⟨he, hx⟩ := (hg.mem_incidentEdges).1 he
  exact hg.pin_mem e he x hx

theorem QueueInv.queueSlots {s : TwoWayFM} (h : QueueInv hg s) : QueueSlots hg s :=
  fun b x k hk => let e := h b x k hk; ⟨e.part_eq, e.unmarked, e.mem_nodes⟩

theorem queueSlots_activate {s : TwoWayFM} (h : QueueSlots hg s) {x : Nat}
    (hx : s.marked x = false) : QueueSlots hg (activate hg x s) := by
  unfold activate
  split_ifs with hb
  · intro b y k hk
    simp only [setKey_apply] at hk
    split_ifs at hk with hy
    · obtain ⟨rfl, rfl⟩ := hy
      exact ⟨rfl, hx, mem_nodes_of_isBorderNode hb⟩
    · exact h b y k hk
  · exact h

theorem queueSlots_updatePin {s : TwoWayFM} (h : QueueSlots hg s) (he : Hyperedge) (pin : Nat)
    (sign : Int) : QueueSlots hg (updatePin hg he pin sign s) := by
  rcases updatePin_cases hg he pin sign s with ⟨old, hold, -, -, hu⟩ | ⟨-, -, hu⟩ | ⟨-, hm, hu⟩ |
    ⟨hu, -⟩ <;> rw [hu]
  · intro b y k hk
    simp only [setKey_apply] at hk
    split_ifs at hk with hy
    · obtain ⟨rfl, rfl⟩ := hy
      exact h _ _ _ hold
    · exact h b y k hk
  · intro b y k hk
    simp only [setKey_apply] at hk
    split_ifs at hk
    exact h b y k hk
  · exact queueSlots_activate h hm
  · exact h

theorem queueSlots_updateNeighbours {s : TwoWayFM} (h : QueueSlots hg s) (v : Nat)
    (fromPartition toPartition : Bool) :
    QueueSlots hg (updateNeighbours hg v fromPartition toPartition s) :=
  updateNeighbours_induction hg (QueueSlots hg) (fun he pin sign _ h => queueSlots_updatePin h he pin sign)
    v fromPartition toPartition s h

end Slots

/-! ## A move -/

section Move

variable (hg : Hypergraph) (maxImbalance : ℚ) (chosen : Bool) (node : Nat) (gain : Int)
  (s : TwoWayFM)

/-- The acceptance test keeps the state when it fails, and makes it the checkpoint when it
passes. -/
theorem acceptMove_cases (s : TwoWayFM) :
    let accepted := (s.imbalance < s.bestImbalance ∧ s.cut ≤ s.bestCut) ∨
      (s.cut < s.bestCut ∧ s.imbalance < maxImbalance)
    (¬accepted ∧ acceptMove maxImbalance s = s) ∨
      (accepted ∧ acceptMove maxImbalance s =
        { s with bestImbalance := s.imbalance, bestCut := s.cut, minCutIndex := s.numMoves }) := by
  unfold acceptMove; dsimp only
  split_ifs with h
  · exact .inr ⟨by simpa using h, rfl⟩
  · exact .inl ⟨by simpa using h, rfl⟩

/-- A move is `moveMaxGainNode`, then the queues and `_just_activated` of the gain update and
the checkpoint of the acceptance test, then the move log. -/
theorem makeMove_eq :
    makeMove hg maxImbalance chosen node gain s =
      let t := moveMaxGainNode hg chosen node gain s
      let u := acceptMove maxImbalance (updateNeighbours hg node chosen (!chosen) t)
      { t with
        pq := u.pq, justActivated := u.justActivated
        bestImbalance := u.bestImbalance, bestCut := u.bestCut, minCutIndex := u.minCutIndex
        performedMoves := Function.update t.performedMoves t.numMoves node
        numMoves := t.numMoves + 1, step := t.step + 1 } := by
  unfold makeMove acceptMove; dsimp only
  split <;> rw [(updateNeighbours_queuesOnly hg _ _ _ _).eq]

@[simp] theorem makeMove_part :
    (makeMove hg maxImbalance chosen node gain s).part =
      changeNodePartition s.part node chosen (!chosen) := by
  rw [makeMove_eq]; rfl

@[simp] theorem makeMove_marked :
    (makeMove hg maxImbalance chosen node gain s).marked = Function.update s.marked node true := by
  rw [makeMove_eq]; rfl

@[simp] theorem makeMove_partitionSize :
    (makeMove hg maxImbalance chosen node gain s).partitionSize =
      (moveHypernode hg node chosen (!chosen) s).partitionSize := by
  rw [makeMove_eq]; rfl

@[simp] theorem makeMove_pq :
    (makeMove hg maxImbalance chosen node gain s).pq =
      (updateNeighbours hg node chosen (!chosen) (moveMaxGainNode hg chosen node gain s)).pq := by
  rw [makeMove_eq]; unfold acceptMove; dsimp only; split <;> rfl

@[simp] theorem makeMove_imbalance :
    (makeMove hg maxImbalance chosen node gain s).imbalance =
      calculateImbalance (moveHypernode hg node chosen (!chosen) s).partitionSize := by
  rw [makeMove_eq]; rfl

@[simp] theorem makeMove_cut : (makeMove hg maxImbalance chosen node gain s).cut = s.cut - gain := by
  rw [makeMove_eq]; rfl

@[simp] theorem makeMove_numMoves :
    (makeMove hg maxImbalance chosen node gain s).numMoves = s.numMoves + 1 := by
  rw [makeMove_eq]; rfl

@[simp] theorem makeMove_performedMoves :
    (makeMove hg maxImbalance chosen node gain s).performedMoves =
      Function.update s.performedMoves s.numMoves node := by
  rw [makeMove_eq]; rfl

@[simp] theorem makeMove_performedMovesSize :
    (makeMove hg maxImbalance chosen node gain s).performedMovesSize = s.performedMovesSize := by
  rw [makeMove_eq]; rfl

/-- After a move the acceptance test fails and the checkpoint stays, or it passes and the new
state is the checkpoint. -/
theorem makeMove_checkpoint :
    let t := makeMove hg maxImbalance chosen node gain s
    let accepted := (t.imbalance < s.bestImbalance ∧ t.cut ≤ s.bestCut) ∨
      (t.cut < s.bestCut ∧ t.imbalance < maxImbalance)
    (¬accepted ∧ t.bestCut = s.bestCut ∧ t.bestImbalance = s.bestImbalance ∧
        t.minCutIndex = s.minCutIndex) ∨
      (accepted ∧ t.bestCut = t.cut ∧ t.bestImbalance = t.imbalance ∧
        t.minCutIndex = s.numMoves) := by
  have hU := (updateNeighbours_queuesOnly hg node chosen (!chosen)
    (moveMaxGainNode hg chosen node gain s)).eq
  unfold makeMove; dsimp only
  rcases acceptMove_cases maxImbalance
      (updateNeighbours hg node chosen (!chosen) (moveMaxGainNode hg chosen node gain s)) with
    ⟨hc, h⟩ | ⟨hc, h⟩ <;> rw [h, hU] <;> rw [hU] at hc
  · exact .inl ⟨hc, rfl, rfl, rfl⟩
  · exact .inr ⟨hc, rfl, rfl, rfl⟩

end Move

/-! ## An iteration -/

section Body

variable (hg : Hypergraph) (upperBound : Int) (maxImbalance : ℚ)

/-- What one iteration can do: the clogging policy answers `true` after removing entries and the
loop goes on, or, after the removal, the maximum `node` of `_pq[chosen]`, with key `gain`, is
moved. -/
theorem body_cases {s s' : TwoWayFM} {c : Choice}
    (h : body hg upperBound maxImbalance s c = some s') :
    (∃ removed, c.clogging (checkPQsForEligibleMoves hg upperBound s c.top).1
          (checkPQsForEligibleMoves hg upperBound s c.top).2 = (true, removed) ∧
        s' = { removeEntries removed s with step := s.step + 1 }) ∨
      ∃ removed chosen node gain, (removeEntries removed s).pq chosen node = some gain ∧
        PriorityQueue.isMax hg.initialNumNodes ((removeEntries removed s).pq chosen) node = true ∧
        s' = makeMove hg maxImbalance chosen node gain (removeEntries removed s) := by
  unfold body at h; dsimp only at h
  split_ifs at h with _ hclog hmax
  · exact .inl ⟨_, Prod.ext hclog rfl, (Option.some.inj h).symm⟩
  all_goals split at h <;> cases h
  exact .inr ⟨_, _, _, _, ‹_›, hmax, rfl⟩

theorem removeEntries_pq {removed : Bool → List Nat} {s : TwoWayFM} {b : Bool} {x : Nat}
    {k : Int} (h : (removeEntries removed s).pq b x = some k) : s.pq b x = some k := by
  simp only [removeEntries] at h
  split_ifs at h
  exact h

end Body

end KaHyPar
