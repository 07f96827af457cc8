import KaHyPar.TwoWayFM.Rollback

/-!
# Balance of the partition `refine` returns

`checkPQsForEligibleMoves` finds a queue eligible when moving its top keeps the other block within
`partition_size_upper_bound`. The refiner never reads the two flags itself: they go to the
clogging and the queue-selection policies. When those keep the contract `selectsEligible`
(unless the clogging policy answers `continue`, the queue selected was found eligible and `max()`
answers the top it was checked with):

1. no move of the pass makes a block heavier than the larger of the bound and its weight at
   entry (`BalInv`), the block a hypernode leaves only getting lighter;
2. so neither does the partition `refine` rolls back to (`refine_respects_upper_bound`): a block
   within the bound at entry stays within it, and a block over it does not grow.

`movePreservesBalanceConstraint` reads the cached `_partition_size`, so the cache must be no
lighter than the true block weights at entry, as `initialize()` leaves it.
-/

namespace KaHyPar

/-! ## The contract of the queue policies -/

section Contract

variable (hg : Hypergraph) (upperBound : Int) (maxImbalance : ℚ)

/-- The contract of the clogging and queue-selection policies at `s`: unless the clogging policy
answers `continue`, the queue selected was found eligible, and `max()` answers the top it was
checked with. -/
def selectsEligible (s : TwoWayFM) (c : Choice) : Bool :=
  let eligible := checkPQsForEligibleMoves hg upperBound s c.top
  let chosen := c.selectQueue eligible.1 eligible.2
  (c.clogging eligible.1 eligible.2).1 ||
    ((if chosen then eligible.2 else eligible.1) && c.maxNode == c.top chosen)

/-- Every choice of `cs` that the forward loop from `s` reads meets `P` at the state it is read
in. -/
def readChoicesMeet (P : TwoWayFM → Choice → Bool) (s : TwoWayFM) : List Choice → Bool
  | [] => true
  | c :: cs =>
    if s.numMoves < hg.numNodes ∧ queuesAreEmpty hg s = false ∧ c.stop = false then
      P s c && match body hg upperBound maxImbalance s c with
        | some t => readChoicesMeet P t cs
        | none => true
    else true

variable {hg upperBound maxImbalance}

/-- What every iteration keeps when its choice meets `P`, the forward loop keeps when every choice
it reads does. -/
theorem forward_induction {P : TwoWayFM → Choice → Bool} (Inv : TwoWayFM → Prop)
    (hstep : ∀ s c t, Inv s → P s c = true → body hg upperBound maxImbalance s c = some t → Inv t)
    {s r : TwoWayFM} {cs : List Choice} (hs : Inv s)
    (hP : readChoicesMeet hg upperBound maxImbalance P s cs = true)
    (h : forward hg upperBound maxImbalance s cs = some r) : Inv r := by
  induction cs generalizing s with
  | nil => cases h
  | cons c cs ih =>
    unfold readChoicesMeet at hP
    unfold forward at h
    split_ifs at hP h
    · obtain ⟨t, ht, hr⟩ := Option.bind_eq_some.1 h
      simp only [ht, Bool.and_eq_true] at hP
      exact ih (hstep s c t hs hP.1 ht) hP.2 hr
    · cases h
      exact hs

/-- An eligible queue's top fits into the other block. -/
theorem fits_of_eligible {s : TwoWayFM} {top : Bool → Nat} {chosen : Bool}
    (h : (if chosen then (checkPQsForEligibleMoves hg upperBound s top).2
      else (checkPQsForEligibleMoves hg upperBound s top).1) = true) :
    s.partitionSize (!chosen) + hg.nodeWeight (top chosen) ≤ upperBound := by
  cases chosen <;> simp_all [checkPQsForEligibleMoves, movePreservesBalanceConstraint]

end Contract

/-! ## Every partition of the pass within the bound -/

/-- Every partition the pass has gone through, from the entry partition on, has each block no
heavier than the larger of `upperBound` and its weight at entry. -/
def BalInv (hg : Hypergraph) (upperBound : Int) (s₀ s : TwoWayFM) : Prop :=
  ∀ n ≤ s.numMoves, ∀ b,
    hg.blockWeight (applyMoves s₀.part (movesOf s n)) b ≤ max (hg.blockWeight s₀.part b) upperBound

section Balance

variable {hg : Hypergraph} {upperBound : Int} {s₀ s : TwoWayFM}
  (hw : ∀ x ∈ hg.nodes, 0 ≤ hg.nodeWeight x)

theorem BalInv.start (hn : s₀.numMoves = 0) : BalInv hg upperBound s₀ s₀ := by
  intro n hle b
  obtain rfl : n = 0 := by omega
  exact le_max_left _ _

include hw

/-- A move of a queued hypernode of `_pq[chosen]` that fits into the other block keeps every
partition of the pass within the bound. -/
theorem BalInv.makeMove (maxImbalance : ℚ) (hp : PassInv hg s₀ s)
    (hsize : ∀ b, hg.blockWeight s.part b ≤ s.partitionSize b) (h : BalInv hg upperBound s₀ s)
    {chosen : Bool} {node : Nat} {gain : Int} (hnode : s.pq chosen node = some gain)
    (hfits : s.partitionSize (!chosen) + hg.nodeWeight node ≤ upperBound) :
    BalInv hg upperBound s₀ (makeMove hg maxImbalance chosen node gain s) := by
  obtain ⟨hpart, -, hmem⟩ := hp.slots _ _ _ hnode
  have hlog := makeMove_performedMoves hg maxImbalance chosen node gain s
  intro n hn b
  rw [makeMove_numMoves] at hn
  rcases Nat.lt_or_eq_of_le hn with hn | rfl
  · rw [movesOf_update hlog (by omega)]
    exact h n (by omega) b
  -- the new partition: `node` leaves block `chosen` for block `!chosen`
  rw [movesOf_update_succ hlog, applyMoves_concat, ← hp.part_eq, hpart]
  have hupd := @Hypergraph.blockWeight_update hg s.part node hmem (!chosen) b
  have hold := h s.numMoves le_rfl b
  rw [← hp.part_eq] at hold
  have := hw node hmem
  by_cases hb : chosen = b
  · -- the block it leaves gets lighter
    subst hb
    simp only [hpart, if_true, Bool.not_eq_self, if_false] at hupd
    exact le_trans (by omega) hold
  · -- the block it enters was checked to stay within the bound
    obtain rfl : b = !chosen := by cases b <;> cases chosen <;> simp_all
    simp only [hpart, Bool.eq_not_self, if_false, if_true] at hupd
    have := hsize (!chosen)
    exact le_trans (by omega) (le_max_right _ _)

/-- An iteration whose choice keeps the contract keeps every partition of the pass within the
bound. -/
theorem BalInv.body {maxImbalance : ℚ} (h₀ : ∀ b, hg.blockWeight s₀.part b ≤ s₀.partitionSize b)
    (hp : PassInv hg s₀ s) (h : BalInv hg upperBound s₀ s) {c : Choice} {t : TwoWayFM}
    (hsel : selectsEligible hg upperBound s c = true)
    (hb : body hg upperBound maxImbalance s c = some t) : BalInv hg upperBound s₀ t := by
  have hsize : ∀ b, hg.blockWeight s.part b ≤ s.partitionSize b := fun b => by
    have := hp.partitionSize_sub b
    have := h₀ b
    omega
  unfold KaHyPar.body at hb
  unfold selectsEligible at hsel
  dsimp only at hb hsel
  split_ifs at hb with _ hclog
  · cases hb
    exact h
  all_goals split at hb <;> cases hb
  rw [Bool.or_eq_true, Bool.and_eq_true, beq_iff_eq] at hsel
  obtain ⟨helig, htop⟩ := hsel.resolve_left hclog
  exact BalInv.makeMove hw maxImbalance (hp.removeEntries _ s.step) hsize h ‹_›
    (by rw [htop]; exact fits_of_eligible (s := s) helig)

end Balance

/-! ## What `refine` returns -/

/-- With the clogging and queue-selection policies keeping `selectsEligible`, node weights that
are not negative, and the block weights cached no lighter than they are at entry, each block of
the partition `refine` returns is no heavier than the larger of `partition_size_upper_bound` and
its weight at entry. -/
theorem refine_respects_upper_bound (hg : Hypergraph) (hw : ∀ x ∈ hg.nodes, 0 ≤ hg.nodeWeight x)
    (upperBound : Int) (s : TwoWayFM) (u v : Nat) (bestCut : Int) (maxImbalance bestImbalance : ℚ)
    (cs : List Choice) (hsize : ∀ b, hg.blockWeight s.part b ≤ s.partitionSize b)
    (hsel : readChoicesMeet hg upperBound maxImbalance (selectsEligible hg upperBound)
      (enterRefine hg s u v bestCut bestImbalance) cs = true)
    {r : TwoWayFM} (hr : refine hg upperBound s u v bestCut maxImbalance bestImbalance cs = some r)
    (b : Bool) : hg.blockWeight r.part b ≤ max (hg.blockWeight s.part b) upperBound := by
  have h₀ : ∀ b, hg.blockWeight (enterRefine hg s u v bestCut bestImbalance).part b ≤
      (enterRefine hg s u v bestCut bestImbalance).partitionSize b := by simpa using hsize
  obtain ⟨t, hf, hrb⟩ := Option.bind_eq_some.1 hr
  obtain ⟨hp, hbal⟩ := forward_induction
    (fun t => PassInv hg _ t ∧ BalInv hg upperBound (enterRefine hg s u v bestCut bestImbalance) t)
    (fun _ _ _ h hc hb => ⟨h.1.body hb, BalInv.body hw h₀ h.1 h.2 hc hb⟩)
    ⟨PassInv.enter hg s u v bestCut bestImbalance, BalInv.start rfl⟩ hsel hf
  obtain ⟨r', hr', -, hpart, -⟩ := rollback_spec hg hp
  obtain rfl : r = r' := Option.some.inj (hrb.symm.trans hr')
  have := hp.minCutIndex_ge
  have := hp.minCutIndex_lt
  rw [hpart, minCutPartition, ← enterRefine_part hg s u v bestCut bestImbalance]
  exact hbal _ (show (t.minCutIndex + 1).toNat ≤ t.numMoves by omega) b

theorem refine_respects_upper_bound_path :
    (∀ x ∈ pathHypergraph.nodes, 0 ≤ pathHypergraph.nodeWeight x) ∧
      (∀ b, pathHypergraph.blockWeight pathState.part b ≤ pathState.partitionSize b) ∧
      readChoicesMeet pathHypergraph 3 0 (selectsEligible pathHypergraph 3)
        (enterRefine pathHypergraph pathState 1 2 3 0) pathChoices = true ∧
      ∃ r, refine pathHypergraph 3 pathState 1 2 3 0 0 pathChoices = some r ∧
        ∀ b, pathHypergraph.blockWeight r.part b ≤
          max (pathHypergraph.blockWeight pathState.part b) 3 := by
  have hw : ∀ x ∈ pathHypergraph.nodes, 0 ≤ pathHypergraph.nodeWeight x := by decide
  have hsize : ∀ b, pathHypergraph.blockWeight pathState.part b ≤ pathState.partitionSize b := by
    with_unfolding_all decide
  have hsel : readChoicesMeet pathHypergraph 3 0 (selectsEligible pathHypergraph 3)
      (enterRefine pathHypergraph pathState 1 2 3 0) pathChoices = true := by
    with_unfolding_all decide
  have hsome : (refine pathHypergraph 3 pathState 1 2 3 0 0 pathChoices).isSome := by
    with_unfolding_all decide
  exact ⟨hw, hsize, hsel, _, (Option.some_get hsome).symm,
    refine_respects_upper_bound pathHypergraph hw 3 pathState 1 2 3 0 0 pathChoices hsize hsel
      (Option.some_get hsome).symm⟩

end KaHyPar
