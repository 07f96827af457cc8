import KaHyPar.TwoWayFM.Rollback

/-!
# Termination of the forward loop

The forward loop of `refine` makes at most `max_number_of_moves` moves, but a clogging policy's
`continue` makes none, and `step` is not bounded. The loop still ends, whatever the stopping
policy decides, when the other decisions keep their contracts:

1. the queue-selection policy selects a non-empty queue, and a clogging policy that answers
   `true` has removed a queued entry (`policiesMeetContracts`); it never inserts one, since its
   removals are all `removeEntries` does; the heap answers maxima (`heapAnswersMaxima`). Such
   decisions never leave `body` without a result (`body_isSome`).
2. Every iteration then lowers, lexicographically, the number of unmarked hypernodes, which is at
   most `max_number_of_moves`, and then the number of queued entries (`body_measure_lex`): a move
   marks a queued, so unmarked, hypernode, and a `continue` only removes entries.
3. So the loop ends within `forwardMeasure + 1` iterations (`forward_isSome`).
4. It ends with `-1 ≤ min_cut_index < num_moves`, so the loop of `rollback`, which runs while
   `last_index != min_cut_index` from `last_index = num_moves - 1`, ends too, and `refine` returns
   (`refine_returns`).
-/

namespace KaHyPar

/-! ## The contracts of the decisions -/

section Contracts

variable (hg : Hypergraph) (upperBound : Int)

/-- The contracts of the policies at `s`: a clogging `continue` has removed a queued entry, and
otherwise the queue the selection policy picks is not empty. -/
def policiesMeetContracts (s : TwoWayFM) (c : Choice) : Bool :=
  let eligible := checkPQsForEligibleMoves hg upperBound s c.top
  let clogging := c.clogging eligible.1 eligible.2
  if clogging.1 then [false, true].any fun b => (clogging.2 b).any fun x => (s.pq b x).isSome
  else !PriorityQueue.empty hg.initialNumNodes
    ((removeEntries clogging.2 s).pq (c.selectQueue eligible.1 eligible.2))

/-- The heap's contract at `s`: `max()` answers a maximum of every non-empty queue it is asked. -/
def heapAnswersMaxima (s : TwoWayFM) (c : Choice) : Bool :=
  let eligible := checkPQsForEligibleMoves hg upperBound s c.top
  let clogging := c.clogging eligible.1 eligible.2
  let q := (removeEntries clogging.2 s).pq (c.selectQueue eligible.1 eligible.2)
  topsAreMaxima hg s c.top &&
    (PriorityQueue.empty hg.initialNumNodes q || PriorityQueue.isMax hg.initialNumNodes q c.maxNode)

variable (maxImbalance : ℚ)

/-- Every choice of `cs` that the forward loop from `s` reads keeps the contracts at the state it
is read in. -/
def admissible (s : TwoWayFM) : List Choice → Bool
  | [] => true
  | c :: cs =>
    if s.numMoves < hg.numNodes ∧ queuesAreEmpty hg s = false ∧ c.stop = false then
      heapAnswersMaxima hg upperBound s c && policiesMeetContracts hg upperBound s c &&
        match body hg upperBound maxImbalance s c with
        | some t => admissible t cs
        | none => true
    else true

theorem PriorityQueue.isMax_isSome {capacity : Nat} {q : PriorityQueue} {x : Nat}
    (h : PriorityQueue.isMax capacity q x = true) : (q x).isSome := by
  unfold PriorityQueue.isMax at h
  split at h
  · cases h
  · simp [*]

variable {hg upperBound}

/-- Decisions that keep their contracts never leave `body` without a result. -/
theorem body_isSome {s : TwoWayFM} {c : Choice} (hheap : heapAnswersMaxima hg upperBound s c = true)
    (hpol : policiesMeetContracts hg upperBound s c = true) :
    (body hg upperBound maxImbalance s c).isSome := by
  unfold heapAnswersMaxima at hheap
  unfold policiesMeetContracts at hpol
  unfold body
  dsimp only at hheap hpol ⊢
  obtain ⟨htops, hmax⟩ := Bool.and_eq_true_iff.1 hheap
  rw [if_pos htops]
  split
  · rfl
  · rename_i hclog
    rw [if_neg hclog, Bool.not_eq_true'] at hpol
    rw [hpol, Bool.false_or] at hmax
    obtain ⟨gain, hgain⟩ := Option.isSome_iff_exists.1 (PriorityQueue.isMax_isSome hmax)
    simp only [hgain, hmax, if_true, Option.isSome_some]

end Contracts

/-! ## The measure -/

section Measure

variable (hg : Hypergraph)

/-- The unmarked hypernodes. -/
def numUnmarked (s : TwoWayFM) : Nat := hg.nodes.countP fun x => !s.marked x

/-- `_pq[0]->size() + _pq[1]->size()`. -/
def pqSize (s : TwoWayFM) : Nat :=
  PriorityQueue.size hg.initialNumNodes (s.pq false) +
    PriorityQueue.size hg.initialNumNodes (s.pq true)

/-- The lexicographic measure as one number: the unmarked hypernodes, then the queued entries,
of which there are at most `2 · initialNumNodes`. -/
def forwardMeasure (s : TwoWayFM) : Nat :=
  numUnmarked hg s * (2 * hg.initialNumNodes + 1) + pqSize hg s

theorem numUnmarked_le (s : TwoWayFM) : numUnmarked hg s ≤ hg.numNodes :=
  List.countP_le_length _

theorem PriorityQueue.size_le (capacity : Nat) (q : PriorityQueue) :
    PriorityQueue.size capacity q ≤ capacity :=
  (List.countP_le_length _).trans_eq (List.length_range capacity)

theorem pqSize_le (s : TwoWayFM) : pqSize hg s ≤ 2 * hg.initialNumNodes := by
  have := PriorityQueue.size_le hg.initialNumNodes (s.pq false)
  have := PriorityQueue.size_le hg.initialNumNodes (s.pq true)
  unfold pqSize
  omega

variable {hg}

theorem forwardMeasure_lt {s t : TwoWayFM}
    (h : Prod.Lex (· < ·) (· < ·) (numUnmarked hg t, pqSize hg t) (numUnmarked hg s, pqSize hg s)) :
    forwardMeasure hg t < forwardMeasure hg s := by
  have := pqSize_le hg t
  obtain h | ⟨h1, h2⟩ := Prod.lex_def.1 h
  exacts [lex_lt h.le (by omega) (.inl h), lex_lt h1.le (by omega) (.inr h2)]

theorem isSome_of_removeEntries {removed : Bool → List Nat} {s : TwoWayFM} {b : Bool} {y : Nat}
    (h : ((removeEntries removed s).pq b y).isSome) : (s.pq b y).isSome := by
  simp only [removeEntries] at h
  split_ifs at h
  · cases h
  · exact h

/-- Removing a queued entry of `_pq[b]`, and no more than removing, shrinks the queues. -/
theorem pqSize_removeEntries_lt {s : TwoWayFM} (hs : QueueSlots hg s) {removed : Bool → List Nat}
    {b : Bool} {x : Nat} (hx : x ∈ removed b) (hq : (s.pq b x).isSome) (step : Nat) :
    pqSize hg { removeEntries removed s with step := step } < pqSize hg s := by
  have hle : ∀ b', PriorityQueue.size hg.initialNumNodes ((removeEntries removed s).pq b') ≤
      PriorityQueue.size hg.initialNumNodes (s.pq b') := fun _ =>
    List.countP_mono_left fun _ _ => isSome_of_removeEntries
  obtain ⟨k, hk⟩ := Option.isSome_iff_exists.1 hq
  have hlt : PriorityQueue.size hg.initialNumNodes ((removeEntries removed s).pq b) <
      PriorityQueue.size hg.initialNumNodes (s.pq b) :=
    countP_lt_countP (fun _ _ => isSome_of_removeEntries)
      (List.mem_range.2 (hg.node_lt x (hs b x k hk).2.2)) hq (by simp [removeEntries, hx])
  have := hle false
  have := hle true
  unfold pqSize
  cases b <;> dsimp only at hlt ⊢ <;> omega

/-- A move marks the queued, so unmarked, hypernode it moves. -/
theorem numUnmarked_makeMove_lt (maxImbalance : ℚ) {s : TwoWayFM} (hs : QueueSlots hg s)
    {chosen : Bool} {node : Nat} {gain : Int} (hnode : s.pq chosen node = some gain) :
    numUnmarked hg (makeMove hg maxImbalance chosen node gain s) < numUnmarked hg s := by
  obtain ⟨-, hunmarked, hmem⟩ := hs _ _ _ hnode
  unfold numUnmarked
  rw [makeMove_marked]
  refine countP_lt_countP (fun y _ hy => ?_) hmem (by simp [hunmarked]) (by simp)
  rwa [Function.update_noteq (by rintro rfl; simp at hy)] at hy

end Measure

/-! ## Every iteration lowers the measure -/

section Step

variable {hg : Hypergraph} {upperBound : Int} {maxImbalance : ℚ}

theorem QueueSlots.removeEntries {s : TwoWayFM} (hs : QueueSlots hg s)
    (removed : Bool → List Nat) : QueueSlots hg (KaHyPar.removeEntries removed s) :=
  fun b x k hk => hs b x k (removeEntries_pq hk)

theorem QueueSlots.body {s t : TwoWayFM} {c : Choice} (hs : QueueSlots hg s)
    (hb : KaHyPar.body hg upperBound maxImbalance s c = some t) : QueueSlots hg t := by
  rcases body_cases hg upperBound maxImbalance hb with
    ⟨removed, -, rfl⟩ | ⟨removed, chosen, node, gain, hnode, -, rfl⟩
  · exact hs.removeEntries removed
  · exact queueSlots_makeMove maxImbalance (hs.removeEntries removed) hnode

theorem Reachable.queueSlots {s₀ t : TwoWayFM} (hr : Reachable hg upperBound maxImbalance s₀ t)
    (h₀ : QueueSlots hg s₀) : QueueSlots hg t := by
  induction hr with
  | start => exact h₀
  | step _ _ _ _ hb ih => exact ih.body hb

/-- A move lowers the unmarked hypernodes; a `continue`, whose clogging policy has removed an
entry, keeps them and lowers the queued entries. -/
theorem body_measure_lex {s t : TwoWayFM} {c : Choice} (hs : QueueSlots hg s)
    (hc : policiesMeetContracts hg upperBound s c = true)
    (hb : body hg upperBound maxImbalance s c = some t) :
    Prod.Lex (· < ·) (· < ·) (numUnmarked hg t, pqSize hg t) (numUnmarked hg s, pqSize hg s) := by
  rcases body_cases hg upperBound maxImbalance hb with
    ⟨removed, hclog, rfl⟩ | ⟨removed, chosen, node, gain, hnode, -, rfl⟩
  · -- the contract names the removed entry
    unfold policiesMeetContracts at hc
    dsimp only at hc
    rw [hclog, if_pos rfl] at hc
    obtain ⟨b, -, hb⟩ := List.any_eq_true.1 hc
    obtain ⟨x, hx, hq⟩ := List.any_eq_true.1 hb
    exact Prod.Lex.right _ (pqSize_removeEntries_lt hs hx hq _)
  · exact Prod.Lex.left _ _ (numUnmarked_makeMove_lt maxImbalance (hs.removeEntries removed) hnode)

variable (hg upperBound maxImbalance)

/-- The forward loop from a state whose queues hold unmarked hypernodes, with more admissible
choices than `forwardMeasure`, ends before it runs out of them. -/
theorem forward_isSome : ∀ (cs : List Choice) (s : TwoWayFM), QueueSlots hg s →
    admissible hg upperBound maxImbalance s cs = true → forwardMeasure hg s < cs.length →
    (forward hg upperBound maxImbalance s cs).isSome
  | [], _, _, _, hlen => absurd hlen (Nat.not_lt_zero _)
  | c :: cs, s, hs, hadm, hlen => by
    unfold admissible at hadm
    unfold forward
    split_ifs at hadm ⊢ with hgo
    · simp only [Bool.and_eq_true] at hadm
      obtain ⟨⟨hheap, hpol⟩, hrest⟩ := hadm
      obtain ⟨t, ht⟩ := Option.isSome_iff_exists.1 (body_isSome maxImbalance hheap hpol)
      rw [ht] at hrest
      rw [ht, Option.some_bind]
      have := forwardMeasure_lt (body_measure_lex hs hpol ht)
      exact forward_isSome cs t (hs.body ht) hrest (by simp only [List.length_cons] at hlen; omega)
    · rfl

end Step

/-- For every stopping policy, and policies that keep their contracts, the forward loop of
`refine` ends: every iteration lowers the number of unmarked hypernodes, at most
`max_number_of_moves`, or keeps it and lowers the number of queued entries, so
`forwardMeasure + 1` decisions suffice. -/
theorem refine_forward_terminates (hg : Hypergraph) (upperBound : Int) (s : TwoWayFM) (u v : Nat)
    (bestCut : Int) (maxImbalance bestImbalance : ℚ) :
    let s₀ := enterRefine hg s u v bestCut bestImbalance
    (∀ t c t', Reachable hg upperBound maxImbalance s₀ t →
      policiesMeetContracts hg upperBound t c = true →
      body hg upperBound maxImbalance t c = some t' →
      numUnmarked hg t ≤ hg.numNodes ∧
        Prod.Lex (· < ·) (· < ·) (numUnmarked hg t', pqSize hg t') (numUnmarked hg t, pqSize hg t)) ∧
    ∀ cs, admissible hg upperBound maxImbalance s₀ cs = true → forwardMeasure hg s₀ < cs.length →
      (forward hg upperBound maxImbalance s₀ cs).isSome := by
  intro s₀
  have h₀ : QueueSlots hg s₀ := (queueInv_enterRefine s u v bestCut bestImbalance).queueSlots
  exact ⟨fun t c t' ht hc hb => ⟨numUnmarked_le hg t, body_measure_lex (ht.queueSlots h₀) hc hb⟩,
    fun cs => forward_isSome hg upperBound maxImbalance cs s₀ h₀⟩

theorem refine_forward_terminates_path :
    let s₀ := enterRefine pathHypergraph pathState 1 2 3 0
    let c : Choice :=
      ⟨false, fun b => if b then 1 else 2, fun _ _ => (false, fun _ => []), fun _ _ => true, 1⟩
    let cs := pathChoices ++
      List.replicate 36 ⟨true, fun _ => 0, fun _ _ => (false, fun _ => []), fun _ _ => false, 0⟩
    ∃ t', Reachable pathHypergraph 4 0 s₀ s₀ ∧ policiesMeetContracts pathHypergraph 4 s₀ c = true ∧
      body pathHypergraph 4 0 s₀ c = some t' ∧
      (numUnmarked pathHypergraph s₀ ≤ pathHypergraph.numNodes ∧
        Prod.Lex (· < ·) (· < ·) (numUnmarked pathHypergraph t', pqSize pathHypergraph t')
          (numUnmarked pathHypergraph s₀, pqSize pathHypergraph s₀)) ∧
      admissible pathHypergraph 4 0 s₀ cs = true ∧ forwardMeasure pathHypergraph s₀ < cs.length ∧
      (forward pathHypergraph 4 0 s₀ cs).isSome := by
  intro s₀ c cs
  have hb : (body pathHypergraph 4 0 s₀ c).isSome := by with_unfolding_all decide
  have hpol : policiesMeetContracts pathHypergraph 4 s₀ c = true := by with_unfolding_all decide
  have hadm : admissible pathHypergraph 4 0 s₀ cs = true := by with_unfolding_all decide
  have hlen : forwardMeasure pathHypergraph s₀ < cs.length := by with_unfolding_all decide
  have hterm := refine_forward_terminates pathHypergraph 4 pathState 1 2 3 0 0
  exact ⟨_, .start, hpol, (Option.some_get hb).symm,
    hterm.1 _ _ _ .start hpol (Option.some_get hb).symm, hadm, hlen, hterm.2 cs hadm hlen⟩


/-! ## `refine` returns -/

/-- For every stopping policy, and policies that keep their contracts, `refine` returns: its
forward loop ends within `forwardMeasure + 1` decisions, with `min_cut_index` at most
`num_moves - 1`, so its rollback reaches `min_cut_index`. -/
theorem refine_returns (hg : Hypergraph) (upperBound : Int) (s : TwoWayFM) (u v : Nat)
    (bestCut : Int) (maxImbalance bestImbalance : ℚ) (cs : List Choice)
    (hadm : admissible hg upperBound maxImbalance (enterRefine hg s u v bestCut bestImbalance) cs =
      true)
    (hlen : forwardMeasure hg (enterRefine hg s u v bestCut bestImbalance) < cs.length) :
    (refine hg upperBound s u v bestCut maxImbalance bestImbalance cs).isSome := by
  obtain ⟨t, ht⟩ := Option.isSome_iff_exists.1 (forward_isSome hg upperBound maxImbalance cs _
    (queueInv_enterRefine s u v bestCut bestImbalance).queueSlots hadm hlen)
  obtain ⟨r, hr, -⟩ := rollback_spec hg
    ((Reachable.start.forward ht).passInv (PassInv.enter hg s u v bestCut bestImbalance))
  rw [refine, ht, Option.some_bind, hr]
  rfl

theorem refine_returns_path :
    let cs := pathChoices ++
      List.replicate 36 ⟨true, fun _ => 0, fun _ _ => (false, fun _ => []), fun _ _ => false, 0⟩
    admissible pathHypergraph 4 0 (enterRefine pathHypergraph pathState 1 2 3 0) cs = true ∧
      forwardMeasure pathHypergraph (enterRefine pathHypergraph pathState 1 2 3 0) < cs.length ∧
      (refine pathHypergraph 4 pathState 1 2 3 0 0 cs).isSome := by
  intro cs
  have hadm : admissible pathHypergraph 4 0 (enterRefine pathHypergraph pathState 1 2 3 0) cs =
      true := by with_unfolding_all decide
  have hlen : forwardMeasure pathHypergraph (enterRefine pathHypergraph pathState 1 2 3 0) <
      cs.length := by with_unfolding_all decide
  exact ⟨hadm, hlen, refine_returns pathHypergraph 4 pathState 1 2 3 0 0 cs hadm hlen⟩

end KaHyPar
