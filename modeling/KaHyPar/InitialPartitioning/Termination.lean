import KaHyPar.InitialPartitioning.GreedyGrowing

/-!
# Termination of the greedy growing loop

The `while (true)` loop of `initialPartition` leaves only through the weight break, through a
`false` from the queue-selection policy after the upper bound was released, so its termination
rests on the callees.

1. `Contracts`: what the loop's `ASSERT`s ask of the callees. They do not suffice: a policy that
   re-enables the queues, with assignments that fail, keeps the loop going forever
   (`reEnablingCallees`).
2. With the further contract that `nextQueueID` enables no queue (`EnablesNoQueue`), every pass
   that goes on lowers, lexicographically, the number of unassigned hypernodes, whether the upper
   bound is not yet released, and the number of enabled queues (`iteration_loopMeasure_lt`), so
   the loop leaves within `loopMeasure + 1` passes.
-/

namespace KaHyPar

/-! ## The contracts of the callees -/

/-- No hypernode comes back into the unassigned part between `s` and `s'`. -/
def StaysAssigned (c : GreedyConfig) (s s' : GreedyState) : Prop :=
  ∀ hn, s'.partID hn = c.unassignedPart → s.partID hn = c.unassignedPart

/-- What the loop's `ASSERT`s ask of the callees: a `true` from `nextQueueID` names an enabled
queue other than the unassigned part, and a hypernode in the unassigned part; a successful
assignment moves that hypernode out of the unassigned part, and a failed one changes nothing;
no callee moves a hypernode back into the unassigned part. -/
structure Contracts (hg : Hypergraph) (c : GreedyConfig) (cb : Callees) : Prop where
  nextQueueID_some : ∀ s currentId released hn part s',
    cb.nextQueueID s currentId released = (some (hn, part), s') →
      part < c.k ∧ s'.pq.isEnabled part = true ∧ (part : Int) ≠ c.unassignedPart ∧
        hn ∈ hg.nodes ∧ s'.partID hn = c.unassignedPart
  assign_true : ∀ s released hn part s',
    cb.assignHypernodeToPartition s released hn part = (true, s') → s'.partID hn ≠ c.unassignedPart
  assign_false : ∀ s released hn part s',
    cb.assignHypernodeToPartition s released hn part = (false, s') → s' = s
  nextQueueID_staysAssigned : ∀ s currentId released,
    StaysAssigned c s (cb.nextQueueID s currentId released).2
  assign_staysAssigned : ∀ s released hn part,
    StaysAssigned c s (cb.assignHypernodeToPartition s released hn part).2
  deltaGainUpdate_staysAssigned : ∀ s hn fromPart toPart,
    StaysAssigned c s (cb.deltaGainUpdate s hn fromPart toPart)

/-- `nextQueueID` enables no queue. -/
def EnablesNoQueue (c : GreedyConfig) (cb : Callees) : Prop :=
  ∀ s currentId released part, part < c.k →
    (cb.nextQueueID s currentId released).2.pq.isEnabled part = true → s.pq.isEnabled part = true

theorem Contracts.staysAssigned_of_nextQueueID {hg : Hypergraph} {c : GreedyConfig} {cb : Callees}
    (hc : Contracts hg c cb) {s s' : GreedyState} {currentId : Nat} {released : Bool}
    {o : Option (Nat × Nat)} (h : cb.nextQueueID s currentId released = (o, s')) :
    StaysAssigned c s s' := by
  simpa [h] using hc.nextQueueID_staysAssigned s currentId released

theorem Contracts.staysAssigned_of_assign {hg : Hypergraph} {c : GreedyConfig} {cb : Callees}
    (hc : Contracts hg c cb) {s s' : GreedyState} {released : Bool} {hn part : Nat} {b : Bool}
    (h : cb.assignHypernodeToPartition s released hn part = (b, s')) : StaysAssigned c s s' := by
  simpa [h] using hc.assign_staysAssigned s released hn part

theorem enabled_of_nextQueueID {c : GreedyConfig} {cb : Callees} (hq : EnablesNoQueue c cb)
    {s s' : GreedyState} {currentId : Nat} {released : Bool} {o : Option (Nat × Nat)}
    (h : cb.nextQueueID s currentId released = (o, s')) :
    ∀ part < c.k, s'.pq.isEnabled part = true → s.pq.isEnabled part = true := by
  simpa [h] using hq s currentId released

theorem StaysAssigned.trans {c : GreedyConfig} {s₁ s₂ s₃ : GreedyState}
    (h₁ : StaysAssigned c s₁ s₂) (h₂ : StaysAssigned c s₂ s₃) : StaysAssigned c s₁ s₃ :=
  fun hn h => h₁ hn (h₂ hn h)

theorem staysAssigned_of_partID_eq {c : GreedyConfig} {s s' : GreedyState}
    (h : s'.partID = s.partID) : StaysAssigned c s s' :=
  fun _ h' => h ▸ h'

/-! ## Contracts without `EnablesNoQueue` do not make the loop terminate -/

/-- A queue-selection policy that names the first enabled queue with the first unassigned
hypernode, and enables every queue; every assignment fails. -/
def reEnablingCallees (hg : Hypergraph) (c : GreedyConfig) : Callees where
  calculateStartNodes := List.range
  nextQueueID := fun s _ _ =>
    match (List.range c.k).find? s.pq.isEnabled,
        hg.nodes.find? fun hn => s.partID hn = c.unassignedPart with
    | some part, some hn => (some (hn, part), { s with pq := { s.pq with enabled := fun _ => true } })
    | _, _ => (none, s)
  assignHypernodeToPartition := fun s _ _ _ => (false, s)
  deltaGainUpdate := fun s _ _ _ => s
  calculateGain := fun _ _ _ => 0
  getUnassignedNode := fun s => hg.nodes.find? fun hn => s.partID hn = c.unassignedPart

section ReEnabling

variable (hg : Hypergraph) (c : GreedyConfig)

theorem reEnablingCallees_nextQueueID_partID (s : GreedyState) (currentId : Nat) (released : Bool) :
    ((reEnablingCallees hg c).nextQueueID s currentId released).2.partID = s.partID := by
  simp only [reEnablingCallees]
  split <;> rfl

theorem reEnablingCallees_nextQueueID_some {s s' : GreedyState} {currentId hn part : Nat}
    {released : Bool}
    (h : (reEnablingCallees hg c).nextQueueID s currentId released = (some (hn, part), s')) :
    (List.range c.k).find? s.pq.isEnabled = some part ∧
      hg.nodes.find? (fun hn => s.partID hn = c.unassignedPart) = some hn ∧
      s' = { s with pq := { s.pq with enabled := fun _ => true } } := by
  simp only [reEnablingCallees] at h
  split at h
  · cases h; exact ⟨‹_›, ‹_›, rfl⟩
  · cases h

theorem reEnablingCallees_contracts (hu : c.unassignedPart = -1) :
    Contracts hg c (reEnablingCallees hg c) where
  nextQueueID_some s currentId released hn part s' h := by
    obtain ⟨hpart, hhn, rfl⟩ := reEnablingCallees_nextQueueID_some hg c h
    refine ⟨List.mem_range.1 (List.mem_of_find?_eq_some hpart), rfl, by omega,
      List.mem_of_find?_eq_some hhn, ?_⟩
    simpa using List.find?_some hhn
  assign_true _ _ _ _ _ h := by cases h
  assign_false _ _ _ _ _ h := (Prod.mk.inj h).2.symm
  nextQueueID_staysAssigned s currentId released :=
    staysAssigned_of_partID_eq (reEnablingCallees_nextQueueID_partID hg c s currentId released)
  assign_staysAssigned _ _ _ _ := staysAssigned_of_partID_eq rfl
  deltaGainUpdate_staysAssigned _ _ _ _ := staysAssigned_of_partID_eq rfl

/-- With two queues, a pass from a state with an enabled queue and an unassigned hypernode ends in
such a state again, without leaving the loop. -/
theorem reEnablingCallees_loop_isDone (hu : c.unassignedPart = -1) (hk : 2 ≤ c.k) (w : Int) :
    ∀ fuel s currentId, (∃ hn ∈ hg.nodes, s.partID hn = c.unassignedPart) →
      (∃ part < c.k, s.pq.isEnabled part = true) →
      (initialPartitionLoop hg c (reEnablingCallees hg c) w fuel s currentId false).isDone = false
  | 0, _, _, _, _ => rfl
  | fuel + 1, s, currentId, ⟨hn, hhn, hun⟩, ⟨part, hpart, hen⟩ => by
    obtain ⟨p, hp⟩ := Option.isSome_iff_exists.1
      (List.find?_isSome.2 ⟨part, List.mem_range.2 hpart, hen⟩)
    obtain ⟨x, hx⟩ := Option.isSome_iff_exists.1
      ((List.find?_isSome (p := fun hn => decide (s.partID hn = c.unassignedPart))).2
        ⟨hn, hhn, decide_eq_true hun⟩)
    have hnext : (reEnablingCallees hg c).nextQueueID s currentId false =
        (some (x, p), { s with pq := { s.pq with enabled := fun _ => true } }) := by
      simp only [reEnablingCallees, hp, hx]
    have hiter : iteration hg c (reEnablingCallees hg c) w s currentId false =
        .next { s with pq := { s.pq with enabled := Function.update (fun _ => true) p false } } p
          false := by
      rw [iteration, if_neg (by simp [hu]), hnext]; rfl
    have hpk := List.mem_range.1 (List.mem_of_find?_eq_some hp)
    have hother : (if p = 0 then 1 else 0) ≠ p := by split <;> omega
    simp only [initialPartitionLoop, hiter]
    exact reEnablingCallees_loop_isDone hu hk w fuel _ p ⟨hn, hhn, hun⟩
      ⟨if p = 0 then 1 else 0, by split <;> omega, by
        simp only [KWayPriorityQueue.isEnabled]; exact Function.update_noteq hother _ _⟩

end ReEnabling

/-- The contracts hold, the queue named was enabled already before the call, and yet the loop
never leaves from the start of `initialPartition`. -/
theorem initialPartitionLoop_runs_forever_reEnabling :
    Contracts gappedHypergraph bisection (reEnablingCallees gappedHypergraph bisection) ∧
      (∀ s currentId released hn part s',
        (reEnablingCallees gappedHypergraph bisection).nextQueueID s currentId released =
            (some (hn, part), s') → s.pq.isEnabled part = true) ∧
      ∀ fuel, (initialPartitionLoop gappedHypergraph bisection
        (reEnablingCallees gappedHypergraph bisection) 0 fuel
        (initialPartitionStart bisection (reEnablingCallees gappedHypergraph bisection) unpartitioned)
        0 false).isDone = false :=
  ⟨reEnablingCallees_contracts _ _ rfl,
    fun _ _ _ _ _ _ h => List.find?_some (reEnablingCallees_nextQueueID_some _ _ h).1,
    fun fuel => reEnablingCallees_loop_isDone _ _ rfl (by decide) 0 fuel _ 0
      ⟨0, by decide, by with_unfolding_all decide⟩ ⟨0, by decide, by with_unfolding_all decide⟩⟩

/-! ## The measure -/

section Measure

variable (hg : Hypergraph) (c : GreedyConfig)

/-- The number of hypernodes in the unassigned part. -/
def numUnassigned (s : GreedyState) : Nat :=
  hg.nodes.countP fun hn => s.partID hn = c.unassignedPart

/-- The number of enabled queues. -/
def numEnabled (s : GreedyState) : Nat := (List.range c.k).countP s.pq.isEnabled

/-- The loop's measure as one number, ordered lexicographically: the unassigned hypernodes,
then whether the upper bound is not yet released, then the enabled queues. -/
def loopMeasure (s : GreedyState) (isUpperBoundReleased : Bool) : Nat :=
  (2 * numUnassigned hg c s + if isUpperBoundReleased then 0 else 1) * (c.k + 1) + numEnabled c s

variable {c}

theorem numUnassigned_le {s s' : GreedyState} (h : StaysAssigned c s s') :
    numUnassigned hg c s' ≤ numUnassigned hg c s :=
  List.countP_mono_left fun hn _ h' => by simpa using h hn (by simpa using h')

theorem numUnassigned_lt {s s' : GreedyState} (h : StaysAssigned c s s') {hn : Nat}
    (hmem : hn ∈ hg.nodes) (h₁ : s.partID hn = c.unassignedPart)
    (h₂ : s'.partID hn ≠ c.unassignedPart) : numUnassigned hg c s' < numUnassigned hg c s :=
  countP_lt_countP (fun x _ h' => by simpa using h x (by simpa using h')) hmem (by simpa using h₁)
    (by simpa using h₂)

theorem numEnabled_le_k (s : GreedyState) : numEnabled c s ≤ c.k :=
  (List.countP_le_length _).trans (List.length_range c.k).le

theorem numEnabled_le {s s' : GreedyState}
    (h : ∀ part < c.k, s'.pq.isEnabled part = true → s.pq.isEnabled part = true) :
    numEnabled c s' ≤ numEnabled c s :=
  List.countP_mono_left fun p hp => h p (List.mem_range.1 hp)

theorem numEnabled_disablePart_lt {s : GreedyState} {part : Nat} (hpart : part < c.k)
    (hen : s.pq.isEnabled part = true) :
    numEnabled c { s with pq := s.pq.disablePart part } < numEnabled c s :=
  countP_lt_countP (fun _ _ h => by simp_all) (List.mem_range.2 hpart) hen (by simp)

end Measure

/-! ## Every pass that goes on lowers the measure -/

section Pass

variable {hg : Hypergraph} {c : GreedyConfig} {cb : Callees} (hc : Contracts hg c cb)
include hc

theorem insertAndUpdateNodesAfterMove_staysAssigned (hn targetPart : Nat) (s : GreedyState) :
    StaysAssigned c s (insertAndUpdateNodesAfterMove hg c cb hn targetPart true true s) := by
  intro x hx
  rw [insertAndUpdateNodesAfterMove_partID] at hx
  simpa using hc.deltaGainUpdate_staysAssigned _ hn c.unassignedPart targetPart x hx

theorem iteration_loopMeasure_lt (hq : EnablesNoQueue c cb) {w : Int} {s s' : GreedyState}
    {currentId currentId' : Nat} {released released' : Bool}
    (h : iteration hg c cb w s currentId released = .next s' currentId' released') :
    loopMeasure hg c s' released' < loopMeasure hg c s released := by
  have hE := numEnabled_le_k (c := c) s'
  unfold loopMeasure
  rcases iteration_cases hg c cb h with ⟨s₁, hs₁, rfl, rfl, -, rfl⟩ |
    ⟨hn, s₁, s₂, hs₁, hs₂, rfl, rfl⟩ | ⟨hn, s₁, s₂, hs₁, hs₂, rfl, rfl⟩
  · case inl =>
    have hU := numUnassigned_le hg ((hc.staysAssigned_of_nextQueueID hs₁).trans
      (staysAssigned_of_partID_eq (releaseUpperBound_partID hg c cb s₁)))
    refine lex_lt ?_ (by omega) (.inl ?_) <;> simp only [Bool.false_eq_true, ↓reduceIte] <;> omega
  · case inr.inl =>
    obtain ⟨-, -, -, hmem, hun⟩ := hc.nextQueueID_some _ _ _ _ _ _ hs₁
    have hmoved := hc.assign_true _ _ _ _ _ hs₂
    have hafter := insertAndUpdateNodesAfterMove_staysAssigned hc hn currentId' s₂
    have hU := numUnassigned_lt hg ((hc.staysAssigned_of_assign hs₂).trans hafter) hmem hun
      (fun h => hmoved (hafter hn h))
    have hU₁ := numUnassigned_le hg (hc.staysAssigned_of_nextQueueID hs₁)
    exact lex_lt (by omega) (by omega) (.inl (by omega))
  · case inr.inr =>
    obtain ⟨hpart, hen, -⟩ := hc.nextQueueID_some _ _ _ _ _ _ hs₁
    obtain rfl := hc.assign_false _ _ _ _ _ hs₂
    have hU₁ := numUnassigned_le hg (hc.staysAssigned_of_nextQueueID hs₁)
    have hE₁ := numEnabled_le (enabled_of_nextQueueID hq hs₁)
    have hE₂ := numEnabled_disablePart_lt hpart hen
    exact lex_lt (by simp only [numUnassigned] at hU₁ ⊢; omega) (by omega) (.inr (by omega))

theorem initialPartitionLoop_isDone_of_lt (hq : EnablesNoQueue c cb) (w : Int) (fuel : Nat) :
    ∀ s currentId released, loopMeasure hg c s released < fuel →
      (initialPartitionLoop hg c cb w fuel s currentId released).isDone = true := by
  induction fuel with
  | zero => intro _ _ _ h; omega
  | succ fuel ih =>
    intro s currentId released h
    unfold initialPartitionLoop
    split
    · rfl
    · rename_i heq
      exact ih _ _ _ (by have := iteration_loopMeasure_lt hc hq heq; omega)

end Pass

/-- Under the contracts, and if `nextQueueID` enables no queue, the loop leaves from any state
within `loopMeasure + 1` passes. -/
theorem initialPartitionLoop_terminates (hg : Hypergraph) (c : GreedyConfig) (cb : Callees)
    (hc : Contracts hg c cb) (hq : EnablesNoQueue c cb) (w : Int) (s : GreedyState)
    (currentId : Nat) (released : Bool) :
    (initialPartitionLoop hg c cb w (loopMeasure hg c s released + 1) s currentId released).isDone =
      true :=
  initialPartitionLoop_isDone_of_lt hc hq w _ s currentId released (Nat.lt_succ_self _)

theorem sequentialCallees_contracts (hg : Hypergraph) (c : GreedyConfig) (startNodes : List Nat)
    (hu : c.unassignedPart = -1) : Contracts hg c (sequentialCallees hg c startNodes) where
  nextQueueID_some s currentId released hn part s' h := by
    simp only [sequentialCallees, Prod.mk.injEq] at h
    obtain ⟨hfind, rfl⟩ := h
    obtain ⟨p, hp, hfp⟩ := List.exists_of_findSome?_eq_some hfind
    split_ifs at hfp with hen
    obtain ⟨x, hx, hxp⟩ := Option.map_eq_some'.1 hfp
    obtain ⟨rfl, rfl⟩ := Prod.mk.inj hxp
    have hpred := List.find?_some hx
    simp only [Bool.and_eq_true, decide_eq_true_eq] at hpred
    exact ⟨List.mem_range.1 hp, hen, by omega, List.mem_of_find?_eq_some hx, hpred.2⟩
  assign_true s released hn part s' h := by
    simp only [sequentialCallees, Prod.mk.injEq, true_and] at h
    subst h; simp; omega
  assign_false := by simp [sequentialCallees]
  nextQueueID_staysAssigned _ _ _ := staysAssigned_of_partID_eq rfl
  assign_staysAssigned s released hn part x hx := by
    simp only [sequentialCallees, Function.update_apply] at hx
    split_ifs at hx <;> omega
  deltaGainUpdate_staysAssigned _ _ _ _ := staysAssigned_of_partID_eq rfl

theorem initialPartitionLoop_terminates_sequential :
    Contracts gappedHypergraph bisection (sequentialCallees gappedHypergraph bisection [2, 0]) ∧
      EnablesNoQueue bisection (sequentialCallees gappedHypergraph bisection [2, 0]) ∧
      (initialPartitionLoop gappedHypergraph bisection (sequentialCallees gappedHypergraph bisection [2, 0])
        0 (loopMeasure gappedHypergraph bisection (initialPartitionStart bisection
          (sequentialCallees gappedHypergraph bisection [2, 0]) unpartitioned) false + 1)
        (initialPartitionStart bisection (sequentialCallees gappedHypergraph bisection [2, 0])
          unpartitioned) 0 false).isDone = true :=
  have hc := sequentialCallees_contracts gappedHypergraph bisection [2, 0] rfl
  have hq : EnablesNoQueue bisection (sequentialCallees gappedHypergraph bisection [2, 0]) :=
    fun _ _ _ _ _ h => h
  ⟨hc, hq, initialPartitionLoop_terminates _ _ _ hc hq 0 _ 0 false⟩

end KaHyPar
