import KaHyPar.InitialPartitioning.Termination
import Mathlib.Data.List.Nodup

/-!
# The frontier bits `_hyperedge_in_queue`

`insertAndUpdateNodesAfterMove(hn, target_part)` queues the unassigned pins of a hyperedge `he`
incident to `hn` for `target_part` only if the bit `target_part * _hg.numEdges() + he` is not yet
set, and then sets it. The bits are allocated for `k * _hg.initialNumEdges()` hyperedges, but
indexed with `numEdges()`, the number of enabled ones, while the ids still run up to
`initialNumEdges()`.

1. The members and, by assumption, the callees set no bit, move no hypernode back into the
   unassigned part and take no unassigned hypernode out of a queue (`Keeps`).
2. While the index is injective, that is while every enabled hyperedge has an id below
   `numEdges()`, the bits mean what they are for (`FrontierInv`): a bit set for a block and a
   hyperedge means that every unassigned pin of the hyperedge is in the queue of the block. Every
   state of the loop from the start of `initialPartition` keeps it
   (`frontierInv_initialPartition`), and after a move every unassigned pin of every hyperedge
   incident to the moved hypernode is queued for its block
   (`insertAndUpdateNodesAfterMove_queues_pins`).
3. Once a hyperedge is disabled, two pairs (block, hyperedge) can share a bit, and a pin of the
   second is never queued (`insertAndUpdateNodesAfterMove_misses_pin_gapped`).
-/

namespace KaHyPar

/-! ## What the members keep -/

/-- From `s` to `s'` the bits stay, no hypernode comes back into the unassigned part, and no
unassigned hypernode leaves a queue. -/
structure Keeps (c : GreedyConfig) (s s' : GreedyState) : Prop where
  bits : s'.hyperedgeInQueue = s.hyperedgeInQueue
  staysAssigned : StaysAssigned c s s'
  contains : ∀ pin part, s'.partID pin = c.unassignedPart → s.pq.contains pin part = true →
    s'.pq.contains pin part = true

/-- What the callees may do to the queues and the bits: none of them sees
`_hyperedge_in_queue`, and `nextQueueID`, `assignHypernodeToPartition` and `deltaGainUpdate`
take no unassigned hypernode out of a queue and move no hypernode back into the unassigned
part. -/
structure KeepsFrontier (c : GreedyConfig) (cb : Callees) : Prop where
  nextQueueID : ∀ s currentId released, Keeps c s (cb.nextQueueID s currentId released).2
  assign : ∀ s released hn part, Keeps c s (cb.assignHypernodeToPartition s released hn part).2
  deltaGainUpdate : ∀ s hn fromPart toPart, Keeps c s (cb.deltaGainUpdate s hn fromPart toPart)

section Keeps

variable {c : GreedyConfig}

theorem Keeps.refl (s : GreedyState) : Keeps c s s :=
  ⟨rfl, fun _ h => h, fun _ _ _ h => h⟩

theorem Keeps.trans {s₁ s₂ s₃ : GreedyState} (h₁ : Keeps c s₁ s₂) (h₂ : Keeps c s₂ s₃) :
    Keeps c s₁ s₃ :=
  ⟨h₂.bits.trans h₁.bits, h₁.staysAssigned.trans h₂.staysAssigned,
    fun pin part hu h => h₂.contains pin part hu (h₁.contains pin part (h₂.staysAssigned pin hu) h)⟩

/-- A state whose queues only grow keeps. -/
theorem keeps_of_contains {s s' : GreedyState} (hbits : s'.hyperedgeInQueue = s.hyperedgeInQueue)
    (hpart : s'.partID = s.partID)
    (hq : ∀ pin part, s.pq.contains pin part = true → s'.pq.contains pin part = true) :
    Keeps c s s' :=
  ⟨hbits, staysAssigned_of_partID_eq hpart, fun pin part _ => hq pin part⟩

/-- A fold keeps when each of its steps keeps from the states a predicate `P` holds of. -/
theorem keeps_foldl {α : Type} (P : GreedyState → Prop) {f : GreedyState → α → GreedyState}
    (hP : ∀ s a, P s → P (f s a)) (hf : ∀ s a, P s → Keeps c s (f s a)) :
    ∀ (l : List α) (s : GreedyState), P s → Keeps c s (l.foldl f s)
  | [], s, _ => Keeps.refl s
  | a :: l, s, h => (hf s a h).trans (keeps_foldl P hP hf l (f s a) (hP s a h))

/-- Taking an assigned hypernode out of a queue keeps. -/
theorem keeps_remove {hn : Nat} (part : Nat) {s : GreedyState}
    (hhn : s.partID hn ≠ c.unassignedPart) : Keeps c s { s with pq := s.pq.remove hn part } :=
  ⟨rfl, staysAssigned_of_partID_eq rfl, fun pin p hu h => by
    have : pin ≠ hn := fun e => hhn (e ▸ hu)
    simp [this, h]⟩

theorem keeps_disablePart (part : Nat) (s : GreedyState) :
    Keeps c s { s with pq := s.pq.disablePart part } :=
  keeps_of_contains rfl rfl fun _ _ h => h

end Keeps

section Members

variable (hg : Hypergraph) (c : GreedyConfig) (cb : Callees)

theorem keeps_insertNodeIntoPQ (hn targetPart : Nat) (updateGain : Bool) (s : GreedyState) :
    Keeps c s (insertNodeIntoPQ c cb hn targetPart updateGain s) := by
  unfold insertNodeIntoPQ; dsimp only
  split_ifs <;> exact keeps_of_contains rfl rfl fun pin part h => by
    simp [KWayPriorityQueue.updateKey, h]

/-- An unassigned hypernode ends up in the queue of any other block. -/
theorem insertNodeIntoPQ_contains (hn targetPart : Nat) (updateGain : Bool) (s : GreedyState)
    (h : s.partID hn ≠ targetPart) :
    (insertNodeIntoPQ c cb hn targetPart updateGain s).pq.contains hn targetPart = true := by
  unfold insertNodeIntoPQ; dsimp only
  split_ifs <;> simp_all [KWayPriorityQueue.updateKey]

theorem keeps_insertUnassignedHypernodeIntoPQ (part : Nat) (s : GreedyState) :
    Keeps c s (insertUnassignedHypernodeIntoPQ c cb part s) := by
  unfold insertUnassignedHypernodeIntoPQ
  split
  · exact keeps_insertNodeIntoPQ c cb _ _ _ s
  · exact Keeps.refl s

theorem keeps_deleteNodeInAllBucketQueues {hn : Nat} {s : GreedyState}
    (hhn : s.partID hn ≠ c.unassignedPart) :
    Keeps c s (deleteNodeInAllBucketQueues hg c cb hn s) := by
  refine keeps_foldl (fun t => t.partID hn ≠ c.unassignedPart) (fun t part ht => ?_)
    (fun t part ht => ?_) _ s hhn
  · split_ifs <;> simpa using ht
  · split_ifs
    · exact (keeps_insertUnassignedHypernodeIntoPQ c cb part t).trans
        (keeps_remove part (by simpa using ht))
    · exact keeps_remove part ht
    · exact Keeps.refl t

theorem keeps_releaseUpperBound (s : GreedyState) : Keeps c s (releaseUpperBound hg c cb s) :=
  keeps_foldl (fun _ => True) (fun _ _ _ => trivial) (fun t part _ => by
    split_ifs
    · exact keeps_insertUnassignedHypernodeIntoPQ c cb part t
    · exact keeps_of_contains rfl rfl fun _ _ h => h
    · exact Keeps.refl t) _ s trivial

theorem keeps_calculateStartNodes (s : GreedyState) : Keeps c s (calculateStartNodes c cb s) :=
  keeps_foldl (fun _ => True) (fun _ _ _ => trivial)
    (fun t _ _ => keeps_insertNodeIntoPQ c cb _ _ _ t) _ s trivial

/-- The loop over the pins of a hyperedge in `insertAndUpdateNodesAfterMove` keeps. -/
theorem keeps_foldl_insertNodeIntoPQ (targetPart : Nat) (pins : List Nat) (s : GreedyState) :
    Keeps c s (pins.foldl (fun s pin =>
      if s.partID pin = c.unassignedPart then insertNodeIntoPQ c cb pin targetPart false s else s) s) :=
  keeps_foldl (fun _ => True) (fun _ _ _ => trivial) (fun t pin _ => by
    split_ifs
    · exact keeps_insertNodeIntoPQ c cb pin targetPart false t
    · exact Keeps.refl t) pins s trivial

/-- The unassigned pins the loop visits end up in the queue of `targetPart`. -/
theorem foldl_insertNodeIntoPQ_contains {targetPart : Nat}
    (hpart : (targetPart : Int) ≠ c.unassignedPart) (pins : List Nat) (s : GreedyState) :
    let t := pins.foldl (fun s pin =>
      if s.partID pin = c.unassignedPart then insertNodeIntoPQ c cb pin targetPart false s else s) s
    ∀ pin ∈ pins, t.partID pin = c.unassignedPart → t.pq.contains pin targetPart = true := by
  induction pins generalizing s with
  | nil => intro _ pin h; cases h
  | cons a l ih =>
    intro t pin hpin hu
    rcases List.mem_cons.1 hpin with rfl | hpin
    · have hkeep := keeps_foldl_insertNodeIntoPQ c cb targetPart l
        (if s.partID pin = c.unassignedPart then insertNodeIntoPQ c cb pin targetPart false s else s)
      have hu₀ := hkeep.staysAssigned pin hu
      have hs : s.partID pin = c.unassignedPart := by split_ifs at hu₀ <;> simpa using hu₀
      refine hkeep.contains pin targetPart hu ?_
      rw [if_pos hs]
      exact insertNodeIntoPQ_contains c cb _ _ _ s (by rw [hs]; exact Ne.symm hpart)
    · exact ih _ pin hpin hu

end Members

/-! ## The bits mean what they are for -/

/-- Every unassigned pin of a hyperedge whose bit for `part` is set is in the queue of `part`. -/
def FrontierInv (hg : Hypergraph) (c : GreedyConfig) (s : GreedyState) : Prop :=
  ∀ part, ∀ he ∈ hg.edges, s.hyperedgeInQueue (hyperedgeInQueueIndex hg part he) = true →
    ∀ pin ∈ he.pins, s.partID pin = c.unassignedPart → s.pq.contains pin part = true

section Frontier

variable {hg : Hypergraph} {c : GreedyConfig}

theorem FrontierInv.keeps {s s' : GreedyState} (hinv : FrontierInv hg c s) (h : Keeps c s s') :
    FrontierInv hg c s' :=
  fun part he hhe hbit pin hpin hu => h.contains pin part hu
    (hinv part he hhe (h.bits ▸ hbit) pin hpin (h.staysAssigned pin hu))

/-- With every id below `numEdges()`, a bit belongs to one block and one hyperedge. -/
theorem hyperedgeInQueueIndex_inj (hids : ∀ he ∈ hg.edges, he.id < hg.numEdges)
    {part part' : Nat} {he he' : Hyperedge} (hhe : he ∈ hg.edges) (hhe' : he' ∈ hg.edges)
    (h : hyperedgeInQueueIndex hg part he = hyperedgeInQueueIndex hg part' he') :
    part = part' ∧ he = he' := by
  unfold hyperedgeInQueueIndex at h
  have h₁ := hids he hhe
  have h₂ := hids he' hhe'
  rcases Nat.lt_trichotomy part part' with hlt | rfl | hgt
  · have := Nat.mul_le_mul_right hg.numEdges hlt
    rw [Nat.succ_mul] at this
    omega
  · exact ⟨rfl, List.inj_on_of_nodup_map hg.edge_ids_nodup hhe hhe' (show he.id = he'.id by omega)⟩
  · have := Nat.mul_le_mul_right hg.numEdges hgt
    rw [Nat.succ_mul] at this
    omega

variable (cb : Callees)

theorem insertPinsOfHyperedge_bit_mono {targetPart i : Nat} {s : GreedyState} {he : Hyperedge}
    (h : s.hyperedgeInQueue i = true) :
    (insertPinsOfHyperedge hg c cb targetPart s he).hyperedgeInQueue i = true := by
  unfold insertPinsOfHyperedge
  split_ifs
  · simp only [Function.update_apply]
    split_ifs
    · rfl
    · rwa [(keeps_foldl_insertNodeIntoPQ c cb targetPart he.pins s).bits]
  · exact h

/-- Queuing the pins of a hyperedge keeps the invariant and sets the hyperedge's bit. -/
theorem frontierInv_insertPinsOfHyperedge (hids : ∀ he ∈ hg.edges, he.id < hg.numEdges)
    {targetPart : Nat} (hpart : (targetPart : Int) ≠ c.unassignedPart) {s : GreedyState}
    (hinv : FrontierInv hg c s) {he : Hyperedge} (hhe : he ∈ hg.edges) :
    FrontierInv hg c (insertPinsOfHyperedge hg c cb targetPart s he) ∧
      (insertPinsOfHyperedge hg c cb targetPart s he).hyperedgeInQueue
        (hyperedgeInQueueIndex hg targetPart he) = true := by
  unfold insertPinsOfHyperedge
  split_ifs with hbit
  · have hkeep := keeps_foldl_insertNodeIntoPQ c cb targetPart he.pins s
    have hpins := foldl_insertNodeIntoPQ_contains c cb hpart he.pins s
    refine ⟨fun part he' hhe' hbit' pin hpin hu => ?_, by simp⟩
    simp only [Function.update_apply] at hbit'
    split_ifs at hbit' with hidx
    · obtain ⟨rfl, rfl⟩ := hyperedgeInQueueIndex_inj hids hhe' hhe hidx
      exact hpins pin hpin hu
    · exact (hinv.keeps hkeep) part he' hhe' hbit' pin hpin hu
  · exact ⟨hinv, by simpa using hbit⟩

/-- The loop over the incident hyperedges keeps the invariant and sets the bit of each. -/
theorem frontierInv_foldl_insertPinsOfHyperedge (hids : ∀ he ∈ hg.edges, he.id < hg.numEdges)
    {targetPart : Nat} (hpart : (targetPart : Int) ≠ c.unassignedPart) (l : List Hyperedge)
    (hl : ∀ he ∈ l, he ∈ hg.edges) {s : GreedyState} (hinv : FrontierInv hg c s) :
    let t := l.foldl (insertPinsOfHyperedge hg c cb targetPart) s
    FrontierInv hg c t ∧
      ∀ he ∈ l, t.hyperedgeInQueue (hyperedgeInQueueIndex hg targetPart he) = true := by
  induction l generalizing s with
  | nil => exact ⟨hinv, fun _ h => nomatch h⟩
  | cons a l ih =>
    obtain ⟨hinv₁, hbit₁⟩ :=
      frontierInv_insertPinsOfHyperedge cb hids hpart hinv (hl a (List.mem_cons_self a l))
    obtain ⟨hinv₂, hbits⟩ := ih (fun he h => hl he (List.mem_cons_of_mem a h)) hinv₁
    refine ⟨hinv₂, fun he hhe => ?_⟩
    rcases List.mem_cons.1 hhe with rfl | hhe
    · exact List.foldlRecOn
        (motive := fun t : GreedyState =>
          t.hyperedgeInQueue (hyperedgeInQueueIndex hg targetPart he) = true) l _ _
        hbit₁ fun _ ht _ _ => insertPinsOfHyperedge_bit_mono cb ht
    · exact hbits he hhe

/-- After a move of an assigned hypernode into `targetPart`, the invariant holds, and every
unassigned pin of every hyperedge incident to the hypernode is in the queue of `targetPart`. -/
theorem insertAndUpdateNodesAfterMove_queues_pins (hids : ∀ he ∈ hg.edges, he.id < hg.numEdges)
    (hk : KeepsFrontier c cb) {hn targetPart : Nat} (hpart : (targetPart : Int) ≠ c.unassignedPart)
    {s : GreedyState} (hinv : FrontierInv hg c s) (hhn : s.partID hn ≠ c.unassignedPart) :
    let t := insertAndUpdateNodesAfterMove hg c cb hn targetPart true true s
    FrontierInv hg c t ∧ ∀ he ∈ hg.incidentEdges hn, ∀ pin ∈ he.pins,
      t.partID pin = c.unassignedPart → t.pq.contains pin targetPart = true := by
  have h₁ := keeps_deleteNodeInAllBucketQueues hg c cb hhn
  have h₂ := hk.deltaGainUpdate (deleteNodeInAllBucketQueues hg c cb hn s) hn c.unassignedPart
    targetPart
  obtain ⟨hinv₃, hbits₃⟩ := frontierInv_foldl_insertPinsOfHyperedge cb hids hpart
    (hg.incidentEdges hn) (fun he h => (hg.mem_incidentEdges.1 h).1) ((hinv.keeps h₁).keeps h₂)
  suffices ∀ s₃ : GreedyState, FrontierInv hg c s₃ →
      (∀ he ∈ hg.incidentEdges hn, s₃.hyperedgeInQueue (hyperedgeInQueueIndex hg targetPart he) = true) →
      let t := if (!s₃.pq.isEnabled targetPart) = true then
        insertUnassignedHypernodeIntoPQ c cb targetPart s₃ else s₃
      FrontierInv hg c t ∧ ∀ he ∈ hg.incidentEdges hn, ∀ pin ∈ he.pins,
        t.partID pin = c.unassignedPart → t.pq.contains pin targetPart = true from
    this _ hinv₃ hbits₃
  intro s₃ hinv₃ hbits₃
  have h₄ : Keeps c s₃ (if (!s₃.pq.isEnabled targetPart) = true then
      insertUnassignedHypernodeIntoPQ c cb targetPart s₃ else s₃) := by
    split
    · exact keeps_insertUnassignedHypernodeIntoPQ c cb targetPart s₃
    · exact Keeps.refl s₃
  have hinv₄ := hinv₃.keeps h₄
  exact ⟨hinv₄, fun he hhe pin hpin hu => hinv₄ targetPart he (hg.mem_incidentEdges.1 hhe).1
    (by rw [h₄.bits]; exact hbits₃ he hhe) pin hpin hu⟩

end Frontier

/-! ## Every state of the loop keeps the invariant -/

section Loop

variable {hg : Hypergraph} {c : GreedyConfig} {cb : Callees}
  (hids : ∀ he ∈ hg.edges, he.id < hg.numEdges) (hc : Contracts hg c cb) (hk : KeepsFrontier c cb)
include hids hc hk

/-- A pass that assigns the hypernode `nextQueueID` answered keeps the invariant, and leaves
every unassigned pin of every hyperedge incident to it in the queue of its new block. -/
theorem frontierInv_move {s s₁ s₂ : GreedyState} {currentId : Nat} {released : Bool}
    {hn part : Nat} (hinv : FrontierInv hg c s)
    (hs₁ : cb.nextQueueID s currentId released = (some (hn, part), s₁))
    (hs₂ : cb.assignHypernodeToPartition s₁ released hn part = (true, s₂)) :
    let t := insertAndUpdateNodesAfterMove hg c cb hn part true true s₂
    FrontierInv hg c t ∧ ∀ he ∈ hg.incidentEdges hn, ∀ pin ∈ he.pins,
      t.partID pin = c.unassignedPart → t.pq.contains pin part = true := by
  have hinv₂ := (hinv.keeps (by simpa [hs₁] using hk.nextQueueID s currentId released)).keeps
    (by simpa [hs₂] using hk.assign s₁ released hn part)
  obtain ⟨-, -, hpart, -, -⟩ := hc.nextQueueID_some _ _ _ _ _ _ hs₁
  exact insertAndUpdateNodesAfterMove_queues_pins cb hids hk hpart hinv₂
    (hc.assign_true _ _ _ _ _ hs₂)

theorem frontierInv_iteration {w : Int} {s : GreedyState} {currentId : Nat} {released : Bool}
    (hinv : FrontierInv hg c s) :
    FrontierInv hg c (iteration hg c cb w s currentId released).state := by
  unfold iteration
  split
  · exact hinv
  split
  · rename_i s₁ hs₁
    have hinv₁ := hinv.keeps (by simpa [hs₁] using hk.nextQueueID s currentId released)
    split
    · exact hinv₁.keeps (keeps_releaseUpperBound hg c cb s₁)
    · exact hinv₁
  · rename_i hn part s₁ hs₁
    split
    · exact (frontierInv_move hids hc hk hinv hs₁ ‹_›).1
    · rename_i s₂ hs₂
      have hinv₁ := hinv.keeps (by simpa [hs₁] using hk.nextQueueID s currentId released)
      have hinv₂ := hinv₁.keeps (by simpa [hs₂] using hk.assign s₁ released hn part)
      exact hinv₂.keeps (keeps_disablePart part s₂)

end Loop

/-- No bit is set when the loop starts. -/
theorem frontierInv_initialPartitionStart (hg : Hypergraph) (c : GreedyConfig) (cb : Callees)
    (s : GreedyState) : FrontierInv hg c (initialPartitionStart c cb s) := by
  have hbits : ∀ i, (calculateStartNodes c cb (reset (resetPartitioning c s))).hyperedgeInQueue i =
      false := fun i => by rw [(keeps_calculateStartNodes c cb _).bits]; rfl
  intro part he _ hbit
  unfold initialPartitionStart at hbit
  split_ifs at hbit <;> simp [hbits] at hbit


/-- The callees of `sequentialCallees` keep the queues. -/
theorem sequentialCallees_keepsFrontier (hg : Hypergraph) (c : GreedyConfig) (startNodes : List Nat)
    (hu : c.unassignedPart = -1) : KeepsFrontier c (sequentialCallees hg c startNodes) where
  nextQueueID s _ _ := Keeps.refl s
  assign s released hn part :=
    ⟨rfl, (sequentialCallees_contracts hg c startNodes hu).assign_staysAssigned s released hn part,
      fun _ _ _ h => h⟩
  deltaGainUpdate s _ _ _ := Keeps.refl s

/-- `gappedHypergraph` with its hyperedges numbered `0` and `1`. -/
def compactHypergraph : Hypergraph where
  initialNumNodes := 4
  initialNumEdges := 2
  nodes := [0, 1, 2, 3]
  nodeWeight := fun _ => 1
  edges := [⟨0, 1, [0, 1], by decide⟩, ⟨1, 1, [2, 3], by decide⟩]
  nodes_nodup := by decide
  node_lt := by decide
  edge_ids_nodup := by decide
  edge_id_lt := by decide
  pin_mem := by decide
  initialNumNodes_lt := by decide

/-- On a hypergraph whose enabled hyperedges have ids below `numEdges()`, under the contracts and
with callees that keep the queues, every state of the loop from the start of `initialPartition`
keeps the invariant: a bit set for a block and a hyperedge means that every unassigned pin of
the hyperedge is in the queue of the block. So a pass from there that assigns `hn` to `part`
leaves every unassigned pin of every hyperedge incident to `hn` in the queue of `part`. -/
theorem frontierInv_initialPartition {hg : Hypergraph} {c : GreedyConfig} {cb : Callees}
    (hids : ∀ he ∈ hg.edges, he.id < hg.numEdges) (hc : Contracts hg c cb) (hk : KeepsFrontier c cb)
    (w : Int) (s : GreedyState) (fuel : Nat) :
    let t := (initialPartitionLoop hg c cb w fuel (initialPartitionStart c cb s) 0 false).state
    FrontierInv hg c t ∧ ∀ currentId released hn part s₁ s₂,
      cb.nextQueueID t currentId released = (some (hn, part), s₁) →
      cb.assignHypernodeToPartition s₁ released hn part = (true, s₂) →
      let t' := insertAndUpdateNodesAfterMove hg c cb hn part true true s₂
      ∀ he ∈ hg.incidentEdges hn, ∀ pin ∈ he.pins, t'.partID pin = c.unassignedPart →
        t'.pq.contains pin part = true := by
  intro t
  have hinv : FrontierInv hg c t :=
    initialPartitionLoop_induction (FrontierInv hg c) (fun _ _ _ => frontierInv_iteration hids hc hk)
      fuel _ 0 false (frontierInv_initialPartitionStart hg c cb s)
  exact ⟨hinv, fun _ _ _ _ _ _ hs₁ hs₂ => (frontierInv_move hids hc hk hinv hs₁ hs₂).2⟩

theorem frontierInv_initialPartition_compact :
    let cb := sequentialCallees compactHypergraph bisection [2, 0]
    let t := (initialPartitionLoop compactHypergraph bisection cb 0 3
      (initialPartitionStart bisection cb unpartitioned) 0 false).state
    (∀ he ∈ compactHypergraph.edges, he.id < compactHypergraph.numEdges) ∧
      Contracts compactHypergraph bisection cb ∧ KeepsFrontier bisection cb ∧
      FrontierInv compactHypergraph bisection t ∧ ∀ currentId released hn part s₁ s₂,
        cb.nextQueueID t currentId released = (some (hn, part), s₁) →
        cb.assignHypernodeToPartition s₁ released hn part = (true, s₂) →
        let t' := insertAndUpdateNodesAfterMove compactHypergraph bisection cb hn part true true s₂
        ∀ he ∈ compactHypergraph.incidentEdges hn, ∀ pin ∈ he.pins,
          t'.partID pin = bisection.unassignedPart → t'.pq.contains pin part = true :=
  have hids : ∀ he ∈ compactHypergraph.edges, he.id < compactHypergraph.numEdges := by decide
  have hc := sequentialCallees_contracts compactHypergraph bisection [2, 0] rfl
  have hk := sequentialCallees_keepsFrontier compactHypergraph bisection [2, 0] rfl
  ⟨hids, hc, hk, frontierInv_initialPartition hids hc hk 0 unpartitioned 3⟩

/-- The run of `insertAndUpdateNodesAfterMove_misses_pin_gapped` without the gap: pin 1 is queued
for block 1. -/
example : (initialPartitionLoop compactHypergraph bisection
    (sequentialCallees compactHypergraph bisection [2, 0]) 0 3
    (initialPartitionStart bisection (sequentialCallees compactHypergraph bisection [2, 0])
      unpartitioned) 0 false).state.pq.contains 1 1 = true := by
  with_unfolding_all decide

/-! ## Two pairs share a bit once a hyperedge is disabled -/

/-- On `gappedHypergraph`, with callees whose `nextQueueID` and `deltaGainUpdate` never touch a
queue: the first pass moves hypernode 2 into block 0 and sets the bit `0 * 2 + 2` of hyperedge 2;
the third moves hypernode 0 into block 1, finds the bit `1 * 2 + 0` of hyperedge 0 set, and never
queues pin 1 of hyperedge 0 for block 1, though pin 1 is unassigned. -/
theorem insertAndUpdateNodesAfterMove_misses_pin_gapped :
    gappedHypergraph.numEdges < gappedHypergraph.initialNumEdges ∧
      (∀ s currentId released,
        ((sequentialCallees gappedHypergraph bisection [2, 0]).nextQueueID s currentId released).2.pq =
          s.pq) ∧
      (∀ s hn fromPart toPart,
        ((sequentialCallees gappedHypergraph bisection [2, 0]).deltaGainUpdate s hn fromPart toPart).pq =
          s.pq) ∧
      (initialPartitionLoop gappedHypergraph bisection (sequentialCallees gappedHypergraph bisection [2, 0])
        0 2 (initialPartitionStart bisection (sequentialCallees gappedHypergraph bisection [2, 0])
          unpartitioned) 0 false).state.partID 0 = -1 ∧
      let s := (initialPartitionLoop gappedHypergraph bisection
        (sequentialCallees gappedHypergraph bisection [2, 0]) 0 3
        (initialPartitionStart bisection (sequentialCallees gappedHypergraph bisection [2, 0])
          unpartitioned) 0 false).state
      s.partID 0 = 1 ∧ ∃ he ∈ gappedHypergraph.incidentEdges 0, ∃ pin ∈ he.pins,
        s.partID pin = -1 ∧ s.hyperedgeInQueue (hyperedgeInQueueIndex gappedHypergraph 1 he) = true ∧
          s.pq.contains pin 1 = false :=
  ⟨by decide, fun _ _ _ => rfl, fun _ _ _ _ => rfl, by with_unfolding_all decide,
    by with_unfolding_all decide⟩

end KaHyPar
