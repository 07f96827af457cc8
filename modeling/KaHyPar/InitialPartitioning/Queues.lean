import KaHyPar.InitialPartitioning.Termination

/-!
# The queues hold unassigned hypernodes

The loop `ASSERT`s that the hypernode the queue-selection policy answers is in the unassigned
part. No test in the loop makes it so: it holds because of what the members put into `_pq` and
take out of it.

1. `QueueContracts`: what the callees do to the queues and the blocks. `nextQueueID` and
   `deltaGainUpdate` insert no entry and move no hypernode, `nextQueueID` answers a queued entry,
   a successful assignment moves the hypernode it is given into the block it is given and does
   nothing else, `getUnassignedNode` answers an unassigned hypernode, and there are at most `k`
   start nodes.
2. Each member adds only entries of unassigned hypernodes for blocks below `k` other than the
   unassigned part (`QueuesUnassigned`), and after a move `deleteNodeInAllBucketQueues` has taken
   the moved hypernode out of every queue. So every pass keeps `QueueSound`, and every state of the
   loop from the start of `initialPartition` has it (`queueSound_initialPartition`).
3. Hence the `ASSERT` holds along every run (`initialPartition_queues_hold_unassigned`), and the
   loop never moves a hypernode it has assigned (`initialPartitionLoop_assignments_final`).
-/

namespace KaHyPar

/-! ## The contracts of the callees -/

/-- From `s` to `s'` no hypernode changes its block and no queue gains an entry. -/
structure AddsNoEntry (s s' : GreedyState) : Prop where
  partID : s'.partID = s.partID
  contains : ∀ hn part, s'.pq.contains hn part = true → s.pq.contains hn part = true

/-- What the queues rest on. The policies insert no entry and move no hypernode, and
`nextQueueID` answers a queued entry; `assignHypernodeToPartition` of the base class only sets the
block of the hypernode it is given, when it succeeds; `getUnassignedNode` answers an unassigned
hypernode; `calculateStartNodes` gives at most one start node per block. -/
structure QueueContracts (c : GreedyConfig) (cb : Callees) : Prop where
  startNodes_length : (cb.calculateStartNodes c.k).length ≤ c.k
  getUnassignedNode_some : ∀ s hn, cb.getUnassignedNode s = some hn → s.partID hn = c.unassignedPart
  nextQueueID : ∀ s currentId released, AddsNoEntry s (cb.nextQueueID s currentId released).2
  nextQueueID_some : ∀ s currentId released hn part s',
    cb.nextQueueID s currentId released = (some (hn, part), s') → s'.pq.contains hn part = true
  assign_true : ∀ s released hn part s',
    cb.assignHypernodeToPartition s released hn part = (true, s') →
      s' = { s with partID := Function.update s.partID hn part }
  assign_false : ∀ s released hn part s',
    cb.assignHypernodeToPartition s released hn part = (false, s') → s' = s
  deltaGainUpdate : ∀ s hn fromPart toPart, AddsNoEntry s (cb.deltaGainUpdate s hn fromPart toPart)

theorem QueueContracts.addsNoEntry_of_nextQueueID {c : GreedyConfig} {cb : Callees}
    (hq : QueueContracts c cb) {s s' : GreedyState} {currentId : Nat} {released : Bool}
    {o : Option (Nat × Nat)} (h : cb.nextQueueID s currentId released = (o, s')) :
    AddsNoEntry s s' := by
  simpa [h] using hq.nextQueueID s currentId released

/-! ## What the members add to the queues -/

/-- From `s` to `s'` no hypernode changes its block, and every new entry is an unassigned
hypernode in the queue of a block below `k` other than the unassigned part. -/
structure QueuesUnassigned (c : GreedyConfig) (s s' : GreedyState) : Prop where
  partID : s'.partID = s.partID
  contains : ∀ hn part, s'.pq.contains hn part = true → s.pq.contains hn part = true ∨
    (s.partID hn = c.unassignedPart ∧ (part : Int) ≠ c.unassignedPart ∧ part < c.k)

/-- A fold over `l` keeps `P`, ends with `Q a` for every `a` of `l`, and keeps every `Q b` that
held, when the step for each `a` keeps `P`, makes `Q a` hold and keeps every `Q b` that held. -/
theorem foldl_establishes {σ α : Type} {f : σ → α → σ} {l : List α} (P : σ → Prop)
    (Q : α → σ → Prop)
    (hstep : ∀ s, ∀ a ∈ l, P s → P (f s a) ∧ Q a (f s a) ∧ ∀ b, Q b s → Q b (f s a)) :
    ∀ s, P s → P (l.foldl f s) ∧ (∀ a ∈ l, Q a (l.foldl f s)) ∧ ∀ b, Q b s → Q b (l.foldl f s) := by
  induction l with
  | nil => exact fun s hs => ⟨hs, fun _ h => absurd h (List.not_mem_nil _), fun _ h => h⟩
  | cons a l ih =>
    intro s hs
    obtain ⟨hP, hQ, hkeep⟩ := hstep s a (List.mem_cons_self a l) hs
    obtain ⟨hP', hQ', hkeep'⟩ := ih (fun t b hb => hstep t b (List.mem_cons_of_mem a hb)) _ hP
    refine ⟨hP', fun b hb => ?_, fun b hb => hkeep' b (hkeep b hb)⟩
    rcases List.mem_cons.1 hb with rfl | hb
    exacts [hkeep' _ hQ, hQ' b hb]

section Unassigned

variable {c : GreedyConfig}

theorem AddsNoEntry.queuesUnassigned {s s' : GreedyState} (h : AddsNoEntry s s') :
    QueuesUnassigned c s s' :=
  ⟨h.partID, fun hn part hq => .inl (h.contains hn part hq)⟩

theorem QueuesUnassigned.refl (s : GreedyState) : QueuesUnassigned c s s :=
  ⟨rfl, fun _ _ h => .inl h⟩

theorem QueuesUnassigned.trans {s₁ s₂ s₃ : GreedyState} (h₁ : QueuesUnassigned c s₁ s₂)
    (h₂ : QueuesUnassigned c s₂ s₃) : QueuesUnassigned c s₁ s₃ :=
  ⟨h₂.partID.trans h₁.partID, fun hn part hq => by
    rcases h₂.contains hn part hq with hq | hnew
    · exact h₁.contains hn part hq
    · exact .inr (by rwa [h₁.partID] at hnew)⟩

/-- A hypernode outside the unassigned part gains no entry. -/
theorem QueuesUnassigned.contains_of_ne {s s' : GreedyState} (h : QueuesUnassigned c s s')
    {hn part : Nat} (hhn : s.partID hn ≠ c.unassignedPart) (hq : s'.pq.contains hn part = true) :
    s.pq.contains hn part = true :=
  (h.contains hn part hq).resolve_right fun hnew => hhn hnew.1

/-- A fold keeps when each of its steps keeps from the states `P` holds of. -/
theorem queuesUnassigned_foldl {α : Type} (P : GreedyState → Prop) {f : GreedyState → α → GreedyState}
    {l : List α} (hP : ∀ s, ∀ a ∈ l, P s → P (f s a))
    (hf : ∀ s, ∀ a ∈ l, P s → QueuesUnassigned c s (f s a)) (s : GreedyState) (hs : P s) :
    QueuesUnassigned c s (l.foldl f s) :=
  (foldl_establishes (fun t => P t ∧ QueuesUnassigned c s t) (fun _ _ => True)
    (fun t a ha ht => ⟨⟨hP t a ha ht.1, ht.2.trans (hf t a ha ht.1)⟩, trivial, fun _ _ => trivial⟩)
    s ⟨hs, .refl s⟩).1.2

theorem addsNoEntry_remove (s : GreedyState) (hn part : Nat) :
    AddsNoEntry s { s with pq := s.pq.remove hn part } :=
  ⟨rfl, fun _ _ h => by simp_all⟩

theorem addsNoEntry_enablePart (s : GreedyState) (part : Nat) :
    AddsNoEntry s { s with pq := s.pq.enablePart part } :=
  ⟨rfl, fun _ _ h => h⟩

theorem addsNoEntry_disablePart (s : GreedyState) (part : Nat) :
    AddsNoEntry s { s with pq := s.pq.disablePart part } :=
  ⟨rfl, fun _ _ h => h⟩

/-- Queuing an unassigned hypernode for a block below `k` other than its own. -/
theorem queuesUnassigned_insert {s : GreedyState} {hn targetPart : Nat}
    (hhn : s.partID hn = c.unassignedPart) (hne : s.partID hn ≠ targetPart) (hk : targetPart < c.k)
    (gain : Int) : QueuesUnassigned c s { s with pq := s.pq.insert hn targetPart gain } :=
  ⟨rfl, fun x p hx => by
    simp only [KWayPriorityQueue.contains_insert, Bool.or_eq_true, decide_eq_true_eq] at hx
    rcases hx with ⟨rfl, rfl⟩ | hx
    · exact .inr ⟨hhn, by rw [← hhn]; exact Ne.symm hne, hk⟩
    · exact .inl hx⟩

/-- A new key for a queued entry adds none. -/
theorem addsNoEntry_updateKey {s : GreedyState} {hn part : Nat} (h : s.pq.contains hn part = true)
    (gain : Int) : AddsNoEntry s { s with pq := s.pq.updateKey hn part gain } :=
  ⟨rfl, fun x p hx => by
    simp only [KWayPriorityQueue.updateKey, KWayPriorityQueue.contains_insert, Bool.or_eq_true,
      decide_eq_true_eq] at hx
    rcases hx with ⟨rfl, rfl⟩ | hx
    exacts [h, hx]⟩

end Unassigned

section Members

variable (hg : Hypergraph) (c : GreedyConfig) (cb : Callees)

theorem queuesUnassigned_insertNodeIntoPQ {hn targetPart : Nat} (hk : targetPart < c.k)
    (updateGain : Bool) {s : GreedyState} (hhn : s.partID hn = c.unassignedPart) :
    QueuesUnassigned c s (insertNodeIntoPQ c cb hn targetPart updateGain s) := by
  unfold insertNodeIntoPQ; dsimp only
  split_ifs with hne hnew
  · exact (queuesUnassigned_insert hhn hne hk _).trans (addsNoEntry_enablePart _ _).queuesUnassigned
  · exact queuesUnassigned_insert hhn hne hk _
  · exact (addsNoEntry_updateKey (by simpa using hnew) _).queuesUnassigned
  all_goals exact .refl s

variable {c cb} (hq : QueueContracts c cb)
include hq

theorem queuesUnassigned_insertUnassignedHypernodeIntoPQ {part : Nat} (hk : part < c.k)
    (s : GreedyState) : QueuesUnassigned c s (insertUnassignedHypernodeIntoPQ c cb part s) := by
  unfold insertUnassignedHypernodeIntoPQ
  split
  · exact queuesUnassigned_insertNodeIntoPQ c cb hk false (hq.getUnassignedNode_some s _ ‹_›)
  · exact .refl s

/-- `deleteNodeInAllBucketQueues(hn)` of an assigned hypernode takes it out of every queue, and
queues only unassigned hypernodes in its place. -/
theorem deleteNodeInAllBucketQueues_spec {hn : Nat} {s : GreedyState}
    (hhn : s.partID hn ≠ c.unassignedPart) :
    QueuesUnassigned c s (deleteNodeInAllBucketQueues hg c cb hn s) ∧
      ∀ part < c.k, (deleteNodeInAllBucketQueues hg c cb hn s).pq.contains hn part = false := by
  refine (foldl_establishes (fun t => QueuesUnassigned c s t)
    (fun part t => t.pq.contains hn part = false) (fun t part hpart ht => ?_) s (.refl s)).imp_right
    fun h part hpart => h.1 part (List.mem_range.2 hpart)
  have hhn' : t.partID hn ≠ c.unassignedPart := by rwa [ht.partID]
  -- the entry of `hn` leaves `_pq[part]`, perhaps after an unassigned hypernode came in
  have hremove : ∀ t₁ : GreedyState, QueuesUnassigned c t t₁ →
      QueuesUnassigned c s { t₁ with pq := t₁.pq.remove hn part } ∧
        (t₁.pq.remove hn part).contains hn part = false ∧
        ∀ b, t.pq.contains hn b = false → (t₁.pq.remove hn part).contains hn b = false := by
    intro t₁ h₁
    have h₂ := h₁.trans (addsNoEntry_remove t₁ hn part).queuesUnassigned
    refine ⟨ht.trans h₂, by simp, fun b hb => Bool.eq_false_iff.2 fun hc => ?_⟩
    rw [h₂.contains_of_ne hhn' hc] at hb
    cases hb
  dsimp only
  split_ifs with hin
  · exact hremove _ (queuesUnassigned_insertUnassignedHypernodeIntoPQ hq (List.mem_range.1 hpart) t)
  · exact hremove _ (.refl t)
  · exact ⟨ht, by simpa using hin, fun _ h => h⟩

theorem queuesUnassigned_releaseUpperBound (s : GreedyState) :
    QueuesUnassigned c s (releaseUpperBound hg c cb s) :=
  queuesUnassigned_foldl (fun _ => True) (fun _ _ _ _ => trivial) (fun t part hpart _ => by
    split_ifs
    · exact queuesUnassigned_insertUnassignedHypernodeIntoPQ hq (List.mem_range.1 hpart) t
    · exact (addsNoEntry_enablePart t part).queuesUnassigned
    · exact .refl t) s trivial

omit hq in
theorem queuesUnassigned_insertPinsOfHyperedge {targetPart : Nat} (hk : targetPart < c.k)
    (s : GreedyState) (he : Hyperedge) :
    QueuesUnassigned c s (insertPinsOfHyperedge hg c cb targetPart s he) := by
  unfold insertPinsOfHyperedge; dsimp only
  split_ifs
  · refine (queuesUnassigned_foldl (fun _ => True) (fun _ _ _ _ => trivial) (fun t pin _ _ => ?_)
      s trivial).trans ⟨rfl, fun _ _ h => .inl h⟩
    split_ifs with hu
    · exact queuesUnassigned_insertNodeIntoPQ c cb hk false hu
    · exact .refl t
  · exact .refl s

/-- After a move of an assigned hypernode into a block below `k`, the queues hold only what they
held and unassigned hypernodes, and the moved hypernode is in none of them. -/
theorem insertAndUpdateNodesAfterMove_spec {hn targetPart : Nat} (hk : targetPart < c.k)
    {s : GreedyState} (hhn : s.partID hn ≠ c.unassignedPart) :
    QueuesUnassigned c s (insertAndUpdateNodesAfterMove hg c cb hn targetPart true true s) ∧
      ∀ part < c.k,
        (insertAndUpdateNodesAfterMove hg c cb hn targetPart true true s).pq.contains hn part = false := by
  obtain ⟨h₁, hgone⟩ := deleteNodeInAllBucketQueues_spec hg hq hhn
  have h₂ : QueuesUnassigned c (deleteNodeInAllBucketQueues hg c cb hn s)
      (insertAndUpdateNodesAfterMove hg c cb hn targetPart true true s) := by
    have h₃ : QueuesUnassigned c (deleteNodeInAllBucketQueues hg c cb hn s)
        ((hg.incidentEdges hn).foldl (insertPinsOfHyperedge hg c cb targetPart)
          (cb.deltaGainUpdate (deleteNodeInAllBucketQueues hg c cb hn s) hn c.unassignedPart
            targetPart)) :=
      (hq.deltaGainUpdate (deleteNodeInAllBucketQueues hg c cb hn s) hn c.unassignedPart
      targetPart).queuesUnassigned.trans (queuesUnassigned_foldl (fun _ => True)
        (fun _ _ _ _ => trivial) (fun t he _ _ => queuesUnassigned_insertPinsOfHyperedge hg hk t he)
        _ trivial)
    simp only [insertAndUpdateNodesAfterMove, ↓reduceIte]
    split
    exacts [h₃.trans (queuesUnassigned_insertUnassignedHypernodeIntoPQ hq hk _), h₃]
  refine ⟨h₁.trans h₂, fun part hpart => Bool.eq_false_iff.2 fun hc => ?_⟩
  have hdel := hgone part hpart
  rw [h₂.contains_of_ne (by rwa [h₁.partID]) hc] at hdel
  cases hdel

end Members

/-! ## Every queued entry is an unassigned hypernode -/

/-- Every queued entry is an unassigned hypernode in the queue of a block below `k` other than the
unassigned part. -/
def QueueSound (c : GreedyConfig) (s : GreedyState) : Prop :=
  ∀ hn part, s.pq.contains hn part = true →
    s.partID hn = c.unassignedPart ∧ (part : Int) ≠ c.unassignedPart ∧ part < c.k

section Sound

variable {hg : Hypergraph} {c : GreedyConfig} {cb : Callees}

theorem QueueSound.queuesUnassigned {s s' : GreedyState} (h : QueueSound c s)
    (h' : QueuesUnassigned c s s') : QueueSound c s' := fun hn part hq => by
  rw [h'.partID]
  rcases h'.contains hn part hq with hq | hnew
  exacts [h hn part hq, hnew]

variable (hq : QueueContracts c cb)
include hq

/-- Assigning a queued hypernode and queuing its neighbours keeps the queues sound: the moved
hypernode leaves every queue. -/
theorem QueueSound.move {s : GreedyState} (h : QueueSound c s) {hn part : Nat}
    (hin : s.pq.contains hn part = true) :
    QueueSound c (insertAndUpdateNodesAfterMove hg c cb hn part true true
      { s with partID := Function.update s.partID hn part }) := by
  obtain ⟨-, hpart, hk⟩ := h hn part hin
  obtain ⟨hmove, hgone⟩ := insertAndUpdateNodesAfterMove_spec hg hq hk
    (show ({ s with partID := Function.update s.partID hn part } : GreedyState).partID hn ≠
      c.unassignedPart by simpa using hpart)
  intro x p hx
  rw [hmove.partID]
  rcases hmove.contains x p hx with hold | hnew
  · -- an entry from before the move, so not one of the moved hypernode
    obtain ⟨hux, hpx, hkx⟩ := h x p hold
    have hxn : x ≠ hn := by
      rintro rfl
      rw [hgone p hkx] at hx
      cases hx
    exact ⟨by simpa [Function.update_noteq hxn] using hux, hpx, hkx⟩
  · exact hnew

/-- What a pass from sound queues does: it keeps the queues sound, and it leaves every hypernode
in its block or puts one unassigned hypernode, the one `nextQueueID` answered from its queue, into
a block below `k`. -/
theorem iteration_spec (w : Int) (currentId : Nat) (released : Bool) {s : GreedyState}
    (h : QueueSound c s) :
    QueueSound c (iteration hg c cb w s currentId released).state ∧
      ((iteration hg c cb w s currentId released).state.partID = s.partID ∨
        ∃ x part, s.partID x = c.unassignedPart ∧ part < c.k ∧
          (iteration hg c cb w s currentId released).state.partID =
            Function.update s.partID x part) := by
  unfold iteration
  split
  · exact ⟨h, .inl rfl⟩
  split
  · -- no move: the upper bound is released, or the loop ends
    rename_i s₁ hs₁
    have h₁ := hq.addsNoEntry_of_nextQueueID hs₁
    have hsound := h.queuesUnassigned h₁.queuesUnassigned
    split
    · exact ⟨hsound.queuesUnassigned (queuesUnassigned_releaseUpperBound hg hq s₁),
        .inl ((releaseUpperBound_partID hg c cb s₁).trans h₁.partID)⟩
    · exact ⟨hsound, .inl h₁.partID⟩
  · rename_i x part s₁ hs₁
    have h₁ := hq.addsNoEntry_of_nextQueueID hs₁
    have hsound := h.queuesUnassigned h₁.queuesUnassigned
    have hin := hq.nextQueueID_some _ _ _ _ _ _ hs₁
    obtain ⟨hux, hpart, hk⟩ := hsound x part hin
    split
    · -- `x` goes into block `part`, and its neighbours are queued
      rename_i s₂ hs₂
      obtain rfl := hq.assign_true _ _ _ _ _ hs₂
      have hmove := (insertAndUpdateNodesAfterMove_spec hg hq hk
        (show ({ s₁ with partID := Function.update s₁.partID x part } : GreedyState).partID x ≠
          c.unassignedPart by simpa using hpart)).1
      exact ⟨hsound.move hq hin,
        .inr ⟨x, part, by rwa [← h₁.partID], hk, hmove.partID.trans (by rw [h₁.partID])⟩⟩
    · -- the assignment fails, and the queue is disabled
      rename_i s₂ hs₂
      obtain rfl := hq.assign_false _ _ _ _ _ hs₂
      exact ⟨hsound.queuesUnassigned (addsNoEntry_disablePart _ part).queuesUnassigned, .inl h₁.partID⟩

/-- The queues are sound when the loop starts: every hypernode is unassigned, and start node `i`
is queued for block `i < k`. -/
theorem queueSound_initialPartitionStart (s : GreedyState) :
    QueueSound c (initialPartitionStart c cb s) := by
  have hstart : QueuesUnassigned c (reset (resetPartitioning c s))
      (calculateStartNodes c cb (reset (resetPartitioning c s))) :=
    queuesUnassigned_foldl (fun t => ∀ x, t.partID x = c.unassignedPart)
      (fun t _ _ ht x => by simpa using ht x)
      (fun t a ha ht => queuesUnassigned_insertNodeIntoPQ c cb
        ((List.fst_lt_of_mem_enum ha).trans_le hq.startNodes_length) false (ht a.2))
      _ fun _ => rfl
  have h₀ : QueueSound c (reset (resetPartitioning c s)) := fun _ _ h => by
    simp [reset, KWayPriorityQueue.clear, KWayPriorityQueue.contains] at h
  unfold initialPartitionStart
  split_ifs
  · exact (h₀.queuesUnassigned hstart).queuesUnassigned (addsNoEntry_disablePart _ _).queuesUnassigned
  · exact h₀.queuesUnassigned hstart

/-- Every state of the loop from the start of `initialPartition` has sound queues. -/
theorem queueSound_initialPartition (w : Int) (s : GreedyState) (fuel : Nat) :
    QueueSound c (initialPartitionLoop hg c cb w fuel (initialPartitionStart c cb s) 0 false).state :=
  initialPartitionLoop_induction (QueueSound c) (fun _ _ _ h => (iteration_spec hq _ _ _ h).1) fuel
    _ 0 false (queueSound_initialPartitionStart hq s)

end Sound

/-- Under the contracts, every state of the loop from the start of `initialPartition` holds in its
queues only unassigned hypernodes, in the queues of blocks below `k` other than the unassigned
part. So whatever entry `nextQueueID` answers there, its hypernode is unassigned, as the loop's
`ASSERT` says, and its block is one of the `k` blocks and not the unassigned part. -/
theorem initialPartition_queues_hold_unassigned (hg : Hypergraph) (c : GreedyConfig) (cb : Callees)
    (hq : QueueContracts c cb) (w : Int) (s : GreedyState) (fuel : Nat) :
    let t := (initialPartitionLoop hg c cb w fuel (initialPartitionStart c cb s) 0 false).state
    QueueSound c t ∧ ∀ currentId released hn part t',
      cb.nextQueueID t currentId released = (some (hn, part), t') →
        t'.partID hn = c.unassignedPart ∧ (part : Int) ≠ c.unassignedPart ∧ part < c.k := by
  intro t
  have ht : QueueSound c t := queueSound_initialPartition hq w s fuel
  exact ⟨ht, fun _ _ hn part t' h =>
    (ht.queuesUnassigned (hq.addsNoEntry_of_nextQueueID h).queuesUnassigned) hn part
      (hq.nextQueueID_some _ _ _ _ _ _ h)⟩

/-! ## Assignments are final -/

section Final

variable {hg : Hypergraph} {c : GreedyConfig} {cb : Callees} (hq : QueueContracts c cb)
include hq

/-- A pass from sound queues moves no assigned hypernode. -/
theorem iteration_keeps_assigned {w : Int} {s : GreedyState} {currentId : Nat} {released : Bool}
    (h : QueueSound c s) {hn : Nat} (hhn : s.partID hn ≠ c.unassignedPart) :
    (iteration hg c cb w s currentId released).state.partID hn = s.partID hn := by
  rcases (iteration_spec hq w currentId released h).2 with heq | ⟨x, part, hx, -, heq⟩
  · rw [heq]
  · rw [heq, Function.update_noteq (by rintro rfl; exact hhn hx)]

theorem initialPartitionLoop_keeps_assigned (w : Int) (fuel : Nat) {hn : Nat} :
    ∀ s currentId released, QueueSound c s → s.partID hn ≠ c.unassignedPart →
      (initialPartitionLoop hg c cb w fuel s currentId released).state.partID hn = s.partID hn :=
  fun s currentId released h hhn =>
    (initialPartitionLoop_induction (fun t => QueueSound c t ∧ t.partID hn = s.partID hn)
      (fun _ _ _ ht => ⟨(iteration_spec hq _ _ _ ht.1).1,
        (iteration_keeps_assigned hq ht.1 (ht.2 ▸ hhn)).trans ht.2⟩)
      fuel s currentId released ⟨h, rfl⟩).2

end Final

/-- Running `fuel₁` passes and then `fuel₂` more from where the loop is is running
`fuel₁ + fuel₂` passes. -/
theorem initialPartitionLoop_add (hg : Hypergraph) (c : GreedyConfig) (cb : Callees) (w : Int)
    (fuel₂ : Nat) :
    ∀ fuel₁ s currentId released, initialPartitionLoop hg c cb w (fuel₁ + fuel₂) s currentId released =
      match initialPartitionLoop hg c cb w fuel₁ s currentId released with
      | .done t => .done t
      | .next t currentId released => initialPartitionLoop hg c cb w fuel₂ t currentId released
  | 0, _, _, _ => by rw [Nat.zero_add]; rfl
  | fuel₁ + 1, s, currentId, released => by
    rw [Nat.add_right_comm, initialPartitionLoop.eq_2, initialPartitionLoop.eq_2]
    split
    · rfl
    · exact initialPartitionLoop_add hg c cb w fuel₂ fuel₁ _ _ _

/-- Under the contracts, a hypernode that the loop from the start of `initialPartition` has put
into a block after `fuel₁` passes is in the same block after any number of passes more. -/
theorem initialPartitionLoop_assignments_final (hg : Hypergraph) (c : GreedyConfig) (cb : Callees)
    (hq : QueueContracts c cb) (w : Int) (s : GreedyState) (fuel₁ fuel₂ hn : Nat)
    (hhn : (initialPartitionLoop hg c cb w fuel₁ (initialPartitionStart c cb s) 0 false).state.partID hn ≠
      c.unassignedPart) :
    (initialPartitionLoop hg c cb w (fuel₁ + fuel₂) (initialPartitionStart c cb s) 0 false).state.partID
        hn =
      (initialPartitionLoop hg c cb w fuel₁ (initialPartitionStart c cb s) 0 false).state.partID hn := by
  have hsound : QueueSound c
      (initialPartitionLoop hg c cb w fuel₁ (initialPartitionStart c cb s) 0 false).state :=
    queueSound_initialPartition hq w s fuel₁
  rw [initialPartitionLoop_add]
  split
  · rename_i heq; rw [heq]
  · rename_i t currentId released heq
    rw [heq] at hsound hhn ⊢
    exact initialPartitionLoop_keeps_assigned hq w fuel₂ t currentId released hsound hhn

/-! ## The sequential callees keep the contracts -/

theorem sequentialCallees_queueContracts (hg : Hypergraph) (c : GreedyConfig) (startNodes : List Nat)
    (hlen : startNodes.length ≤ c.k) : QueueContracts c (sequentialCallees hg c startNodes) where
  startNodes_length := hlen
  getUnassignedNode_some s hn h := by
    simp only [sequentialCallees] at h
    simpa using List.find?_some h
  nextQueueID _ _ _ := ⟨rfl, fun _ _ h => h⟩
  nextQueueID_some s currentId released hn part s' h := by
    simp only [sequentialCallees, Prod.mk.injEq] at h
    obtain ⟨hfind, rfl⟩ := h
    obtain ⟨p, -, hfp⟩ := List.exists_of_findSome?_eq_some hfind
    split_ifs at hfp
    obtain ⟨x, hx, hxp⟩ := Option.map_eq_some'.1 hfp
    obtain ⟨rfl, rfl⟩ := Prod.mk.inj hxp
    have hpred := List.find?_some hx
    simp only [Bool.and_eq_true] at hpred
    exact hpred.1
  assign_true s released hn part s' h := by
    simp only [sequentialCallees, Prod.mk.injEq, true_and] at h
    exact h.symm
  assign_false := by simp [sequentialCallees]
  deltaGainUpdate _ _ _ _ := ⟨rfl, fun _ _ h => h⟩

theorem initialPartition_queues_hold_unassigned_sequential :
    QueueContracts bisection (sequentialCallees gappedHypergraph bisection [2, 0]) ∧
      let t := (initialPartitionLoop gappedHypergraph bisection
        (sequentialCallees gappedHypergraph bisection [2, 0]) 0 2
        (initialPartitionStart bisection (sequentialCallees gappedHypergraph bisection [2, 0])
          unpartitioned) 0 false).state
      QueueSound bisection t ∧ ∀ currentId released hn part t',
        (sequentialCallees gappedHypergraph bisection [2, 0]).nextQueueID t currentId released =
            (some (hn, part), t') →
          t'.partID hn = bisection.unassignedPart ∧ (part : Int) ≠ bisection.unassignedPart ∧
            part < bisection.k :=
  have hq := sequentialCallees_queueContracts gappedHypergraph bisection [2, 0] (by decide)
  ⟨hq, initialPartition_queues_hold_unassigned _ _ _ hq 0 unpartitioned 2⟩

theorem initialPartitionLoop_assignments_final_sequential :
    QueueContracts bisection (sequentialCallees gappedHypergraph bisection [2, 0]) ∧
      (initialPartitionLoop gappedHypergraph bisection
        (sequentialCallees gappedHypergraph bisection [2, 0]) 0 1
        (initialPartitionStart bisection (sequentialCallees gappedHypergraph bisection [2, 0])
          unpartitioned) 0 false).state.partID 2 ≠ bisection.unassignedPart ∧
      (initialPartitionLoop gappedHypergraph bisection
        (sequentialCallees gappedHypergraph bisection [2, 0]) 0 (1 + 3)
        (initialPartitionStart bisection (sequentialCallees gappedHypergraph bisection [2, 0])
          unpartitioned) 0 false).state.partID 2 =
        (initialPartitionLoop gappedHypergraph bisection
          (sequentialCallees gappedHypergraph bisection [2, 0]) 0 1
          (initialPartitionStart bisection (sequentialCallees gappedHypergraph bisection [2, 0])
            unpartitioned) 0 false).state.partID 2 :=
  have hq := sequentialCallees_queueContracts gappedHypergraph bisection [2, 0] (by decide)
  have hhn : (initialPartitionLoop gappedHypergraph bisection
      (sequentialCallees gappedHypergraph bisection [2, 0]) 0 1
      (initialPartitionStart bisection (sequentialCallees gappedHypergraph bisection [2, 0])
        unpartitioned) 0 false).state.partID 2 ≠ bisection.unassignedPart := by
    with_unfolding_all decide
  ⟨hq, hhn, initialPartitionLoop_assignments_final _ _ _ hq 0 unpartitioned 1 3 2 hhn⟩

end KaHyPar
