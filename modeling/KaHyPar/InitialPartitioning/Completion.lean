import KaHyPar.InitialPartitioning.Queues

/-!
# What `initialPartition` returns

1. The loop puts a hypernode only into a block below `k`, the block of the queue it was answered
   from, so every state of the loop has every hypernode unassigned or in one of the `k` blocks
   (`InBlocks`).
2. After the loop, with the operating unassigned part `-1`, every hypernode still in part `-1`
   goes to block 0 or block 1, whatever `k` is, and no other hypernode moves
   (`assignUnassignedHypernodes_spec`).
3. So, with the loop's termination, `initialPartition` returns, with every hypernode in one of the
   `k` blocks, when `k ≥ 2` and the operating unassigned part is `-1`, or when the operating
   unassigned part is itself one of the blocks (`initialPartition_complete`).
4. When the operating unassigned part is a block, a pass takes at most one hypernode out of it,
   and only while it weighs at least `minimum_unassigned_part_weight`; so it never ends lighter
   than that minimum less one hypernode's weight (`initialPartitionLoop_keeps_minimum_weight`).
-/

namespace KaHyPar

/-! ## The loop puts hypernodes only into the `k` blocks -/

/-- Every hypernode is in the unassigned part or in one of the `k` blocks. -/
def InBlocks (c : GreedyConfig) (s : GreedyState) : Prop :=
  ∀ hn, s.partID hn = c.unassignedPart ∨ (0 ≤ s.partID hn ∧ s.partID hn < c.k)

section Blocks

variable {hg : Hypergraph} {c : GreedyConfig} {cb : Callees} (hq : QueueContracts c cb)
include hq

theorem InBlocks.iteration {w : Int} {s : GreedyState} {currentId : Nat} {released : Bool}
    (h : QueueSound c s) (hb : InBlocks c s) :
    InBlocks c (iteration hg c cb w s currentId released).state := by
  intro hn
  rcases (iteration_spec hq w currentId released h).2 with heq | ⟨x, part, -, hk, heq⟩
  · rw [heq]
    exact hb hn
  · rw [heq, Function.update_apply]
    split_ifs
    · exact .inr ⟨by omega, by omega⟩
    · exact hb hn

omit hq in
/-- The loop starts with every hypernode in the unassigned part. -/
theorem initialPartitionStart_partID (s : GreedyState) :
    (initialPartitionStart c cb s).partID = fun _ => c.unassignedPart := by
  have h : (calculateStartNodes c cb (reset (resetPartitioning c s))).partID =
      fun _ => c.unassignedPart := by
    unfold calculateStartNodes
    exact foldl_partID (fun t a => by cases a; exact insertNodeIntoPQ_partID c cb _ _ false t) _ _
  unfold initialPartitionStart
  split_ifs <;> exact h

/-- Every state of the loop from the start of `initialPartition` has every hypernode unassigned
or in one of the `k` blocks. -/
theorem inBlocks_initialPartition (w : Int) (s : GreedyState) (fuel : Nat) :
    InBlocks c (initialPartitionLoop hg c cb w fuel (initialPartitionStart c cb s) 0 false).state :=
  (initialPartitionLoop_induction (fun t => QueueSound c t ∧ InBlocks c t)
    (fun _ _ _ ht => ⟨(iteration_spec hq _ _ _ ht.1).1, ht.2.iteration hq ht.1⟩) fuel _ 0 false
    ⟨queueSound_initialPartitionStart hq s,
      fun hn => .inl (congrFun (initialPartitionStart_partID s) hn)⟩).2

end Blocks

/-! ## The hypernodes the loop left unassigned -/

/-- From `s` to `t` every hypernode stays in its part, or goes from part `-1` into block 0 or 1. -/
def SetsUnassigned (s t : GreedyState) : Prop :=
  ∀ hn, t.partID hn = s.partID hn ∨ (s.partID hn = -1 ∧ (t.partID hn = 0 ∨ t.partID hn = 1))

/-- `setNodePart(hn, 0)` or `setNodePart(hn, 1)` of a hypernode in part `-1`. -/
theorem SetsUnassigned.setNodePart {s t : GreedyState} (h : SetsUnassigned s t) {hn : Nat}
    (hhn : t.partID hn = -1) {part : Int} (hpart : part = 0 ∨ part = 1) :
    SetsUnassigned s { t with partID := Function.update t.partID hn part } := by
  intro x
  by_cases hx : x = hn
  · subst hx
    rcases h x with h | h
    · exact .inr ⟨h ▸ hhn, by simpa using hpart⟩
    · exact .inr ⟨h.1, by simpa using hpart⟩
  · simpa [Function.update_noteq hx] using h x

/-- The assignment after the loop leaves every hypernode where it is or moves it from part `-1`
into block 0 or 1, and leaves no hypernode of the hypergraph in part `-1`. -/
theorem assignUnassignedHypernodes_spec (hg : Hypergraph) (cb : Callees) (s : GreedyState) :
    SetsUnassigned s (assignUnassignedHypernodes hg cb s) ∧
      ∀ hn ∈ hg.nodes, (assignUnassignedHypernodes hg cb s).partID hn ≠ -1 := by
  refine (foldl_establishes (SetsUnassigned s) (fun hn t => t.partID hn ≠ -1)
    (fun t a _ ht => ?_) s (fun _ => .inl rfl)).imp_right And.left
  dsimp only
  split_ifs with ha hgain
  all_goals first
    | exact ⟨ht, ha, fun _ h => h⟩
    | refine ⟨ht.setNodePart ha (by simp), by simp, fun b hb => ?_⟩
      have hba : b ≠ a := by rintro rfl; exact hb ha
      simpa [Function.update_noteq hba] using hb

/-- Under the contracts of termination and of the queues, `initialPartition` returns within
`loopMeasure + 1` passes of its loop, with every hypernode of the hypergraph in one of the `k`
blocks: when `k ≥ 2` and the operating unassigned part is `-1`, the hypernodes the loop left go
to block 0 or 1, and when the operating unassigned part is a block, they are in it. -/
theorem initialPartition_complete (hg : Hypergraph) (c : GreedyConfig) (cb : Callees)
    (hc : Contracts hg c cb) (hen : EnablesNoQueue c cb) (hq : QueueContracts c cb)
    (hk : (c.unassignedPart = -1 ∧ 2 ≤ c.k) ∨ (0 ≤ c.unassignedPart ∧ c.unassignedPart < c.k))
    (perfectBalancePartitionWeight : Int → Int) (unassignedPart : Int) (s : GreedyState) :
    ∃ t, initialPartition hg c cb perfectBalancePartitionWeight unassignedPart
        (loopMeasure hg c (initialPartitionStart c cb s) false + 1) s = some t ∧
      ∀ hn ∈ hg.nodes, 0 ≤ t.partID hn ∧ t.partID hn < c.k := by
  have hdone := initialPartitionLoop_isDone_of_lt hc hen
    (minimumUnassignedPartWeight c perfectBalancePartitionWeight unassignedPart)
    (loopMeasure hg c (initialPartitionStart c cb s) false + 1) _ 0 false (Nat.lt_succ_self _)
  have hblocks : InBlocks c (initialPartitionLoop hg c cb
      (minimumUnassignedPartWeight c perfectBalancePartitionWeight unassignedPart)
      (loopMeasure hg c (initialPartitionStart c cb s) false + 1)
      (initialPartitionStart c cb s) 0 false).state :=
    inBlocks_initialPartition hq _ s _
  unfold initialPartition
  split
  · rename_i t heq
    rw [heq] at hblocks
    change InBlocks c t at hblocks
    refine ⟨_, rfl, fun hn hmem => ?_⟩
    split_ifs with hu
    · -- the hypernodes the loop left go to block 0 or 1
      obtain ⟨hset, hnone⟩ := assignUnassignedHypernodes_spec hg cb t
      have hk2 : 2 ≤ c.k := hk.elim And.right fun h => by omega
      rcases hset hn with h | ⟨-, h⟩
      · rcases hblocks hn with hb | hb
        · exact absurd (h.trans (hb.trans hu)) (hnone hn hmem)
        · rwa [h]
      · omega
    · -- the hypernodes the loop left are in the operating unassigned part, a block
      rcases hblocks hn with hb | hb
      · rw [hb]; exact hk.resolve_left fun h => hu h.1
      · exact hb
  · rename_i heq; rw [heq] at hdone; cases hdone

theorem initialPartition_complete_sequential :
    Contracts gappedHypergraph bisection (sequentialCallees gappedHypergraph bisection [2, 0]) ∧
      EnablesNoQueue bisection (sequentialCallees gappedHypergraph bisection [2, 0]) ∧
      QueueContracts bisection (sequentialCallees gappedHypergraph bisection [2, 0]) ∧
      ((bisection.unassignedPart = -1 ∧ 2 ≤ bisection.k) ∨
        (0 ≤ bisection.unassignedPart ∧ bisection.unassignedPart < bisection.k)) ∧
      ∃ t, initialPartition gappedHypergraph bisection (sequentialCallees gappedHypergraph bisection [2, 0])
          (fun _ => 0) (-1)
          (loopMeasure gappedHypergraph bisection (initialPartitionStart bisection
            (sequentialCallees gappedHypergraph bisection [2, 0]) unpartitioned) false + 1)
          unpartitioned = some t ∧
        ∀ hn ∈ gappedHypergraph.nodes, 0 ≤ t.partID hn ∧ t.partID hn < bisection.k :=
  have hc := sequentialCallees_contracts gappedHypergraph bisection [2, 0] rfl
  have hen : EnablesNoQueue bisection (sequentialCallees gappedHypergraph bisection [2, 0]) :=
    fun _ _ _ _ _ h => h
  have hq := sequentialCallees_queueContracts gappedHypergraph bisection [2, 0] (by decide)
  have hk : (bisection.unassignedPart = -1 ∧ 2 ≤ bisection.k) ∨
      (0 ≤ bisection.unassignedPart ∧ bisection.unassignedPart < bisection.k) := .inl ⟨rfl, le_rfl⟩
  ⟨hc, hen, hq, hk, initialPartition_complete _ _ _ hc hen hq hk _ _ _⟩

/-! ## The unassigned part keeps its minimum weight -/

/-- Moving hypernode `x` out of part `part` lowers the weight of the part by the weight of `x`,
when `x` is a hypernode of the hypergraph. -/
theorem partWeight_update (hg : Hypergraph) {s t : GreedyState} {x : Nat} {part p : Int}
    (hx : s.partID x = part) (hp : p ≠ part) (ht : t.partID = Function.update s.partID x p) :
    partWeight hg t part + (if x ∈ hg.nodes then hg.nodeWeight x else 0) = partWeight hg s part := by
  unfold partWeight
  rw [ht]
  suffices ∀ l : List Nat, l.Nodup →
      ((l.filter fun hn => Function.update s.partID x p hn = part).map hg.nodeWeight).sum +
        (if x ∈ l then hg.nodeWeight x else 0) =
      ((l.filter fun hn => s.partID hn = part).map hg.nodeWeight).sum from this _ hg.nodes_nodup
  intro l hl
  induction l with
  | nil => simp
  | cons a l ih =>
    obtain ⟨ha, hl⟩ := List.nodup_cons.1 hl
    by_cases hax : a = x
    · -- `x` itself: counted on the right only
      subst hax
      have hcongr : (l.filter fun hn => Function.update s.partID a p hn = part) =
          l.filter fun hn => s.partID hn = part :=
        List.filter_congr fun v hv => by rw [Function.update_noteq (ne_of_mem_of_not_mem hv ha)]
      simp [List.filter_cons, hcongr, hx, hp, add_comm]
    · -- another hypernode: counted on both sides alike
      have := ih hl
      have hmem : x ∈ a :: l ↔ x ∈ l := by simp [Ne.symm hax]
      simp only [List.filter_cons, Function.update_noteq hax, if_congr hmem rfl rfl]
      split_ifs at this ⊢ <;> (try simp only [List.map_cons, List.sum_cons]) <;> omega

section Weight

variable {hg : Hypergraph} {c : GreedyConfig} {cb : Callees} (hq : QueueContracts c cb)
  (hu : c.unassignedPart ≠ -1) {W : Int} (hW : ∀ x ∈ hg.nodes, hg.nodeWeight x ≤ W) (hW₀ : 0 ≤ W)
include hq hu hW hW₀

/-- A pass leaves the weight of the unassigned part, or takes one hypernode out of it, which it
does only when the part weighs at least the minimum `w`. -/
theorem iteration_partWeight {w : Int} {s : GreedyState} {currentId : Nat} {released : Bool}
    (h : QueueSound c s) :
    partWeight hg (iteration hg c cb w s currentId released).state c.unassignedPart =
        partWeight hg s c.unassignedPart ∨
      (w ≤ partWeight hg s c.unassignedPart ∧
        partWeight hg s c.unassignedPart - W ≤
          partWeight hg (iteration hg c cb w s currentId released).state c.unassignedPart) := by
  by_cases hbreak : c.unassignedPart ≠ -1 ∧ w > partWeight hg s c.unassignedPart
  · -- the weight break
    left
    unfold iteration
    rw [if_pos hbreak]
    rfl
  have hw : w ≤ partWeight hg s c.unassignedPart := by
    by_contra hlt
    exact hbreak ⟨hu, by omega⟩
  rcases (iteration_spec hq w currentId released h).2 with heq | ⟨x, part, hx, -, heq⟩
  · left
    unfold partWeight
    rw [heq]
  · by_cases hpart : (part : Int) = c.unassignedPart
    · left
      unfold partWeight
      rw [heq, hpart, ← hx, Function.update_eq_self]
    · right
      have hupd := partWeight_update hg hx hpart heq
      refine ⟨hw, ?_⟩
      split_ifs at hupd with hmem
      · have := hW x hmem
        omega
      · omega

end Weight

/-- When the operating unassigned part is a block, the loop from the start of `initialPartition`
takes hypernodes out of it only while it weighs at least `minimum_unassigned_part_weight`, one at
a time: it never ends lighter than that minimum less the weight `W` of the heaviest hypernode,
unless the whole hypergraph is lighter. -/
theorem initialPartitionLoop_keeps_minimum_weight (hg : Hypergraph) (c : GreedyConfig) (cb : Callees)
    (hq : QueueContracts c cb) (hu : c.unassignedPart ≠ -1) (W : Int)
    (hW : ∀ x ∈ hg.nodes, hg.nodeWeight x ≤ W) (hW₀ : 0 ≤ W) (w : Int) (s : GreedyState)
    (fuel : Nat) :
    min (hg.nodes.map hg.nodeWeight).sum (w - W) ≤
      partWeight hg (initialPartitionLoop hg c cb w fuel (initialPartitionStart c cb s) 0 false).state
        c.unassignedPart := by
  have hstart : partWeight hg (initialPartitionStart c cb s) c.unassignedPart =
      (hg.nodes.map hg.nodeWeight).sum := by
    simp [partWeight, initialPartitionStart_partID]
  refine (initialPartitionLoop_induction
    (fun t => QueueSound c t ∧
      min (hg.nodes.map hg.nodeWeight).sum (w - W) ≤ partWeight hg t c.unassignedPart)
    (fun t _ _ ht => ⟨(iteration_spec hq _ _ _ ht.1).1, ?_⟩) fuel _ 0 false
    ⟨queueSound_initialPartitionStart hq s, hstart ▸ min_le_left _ _⟩).2
  -- a pass leaves the weight, or takes one hypernode out while the part weighs at least `w`
  rcases iteration_partWeight hq hu hW hW₀ ht.1 with heq | ⟨hw, hle⟩
  · rw [heq]; exact ht.2
  · exact (min_le_right _ _).trans (by omega)

/-- Two blocks, with block 1 the operating unassigned part: block 0 grows out of block 1. -/
def growingBlockZero : GreedyConfig := ⟨2, 1⟩

theorem initialPartitionLoop_keeps_minimum_weight_sequential :
    QueueContracts growingBlockZero (sequentialCallees gappedHypergraph growingBlockZero [2, 0]) ∧
      growingBlockZero.unassignedPart ≠ -1 ∧
      (∀ x ∈ gappedHypergraph.nodes, gappedHypergraph.nodeWeight x ≤ 1) ∧ (0 : Int) ≤ 1 ∧
      min (gappedHypergraph.nodes.map gappedHypergraph.nodeWeight).sum (2 - 1) ≤
        partWeight gappedHypergraph (initialPartitionLoop gappedHypergraph growingBlockZero
          (sequentialCallees gappedHypergraph growingBlockZero [2, 0]) 2 5
          (initialPartitionStart growingBlockZero
            (sequentialCallees gappedHypergraph growingBlockZero [2, 0]) unpartitioned) 0
          false).state growingBlockZero.unassignedPart :=
  have hq := sequentialCallees_queueContracts gappedHypergraph growingBlockZero [2, 0] (by decide)
  have hu : growingBlockZero.unassignedPart ≠ -1 := by decide
  have hW : ∀ x ∈ gappedHypergraph.nodes, gappedHypergraph.nodeWeight x ≤ 1 := by decide
  ⟨hq, hu, hW, by decide,
    initialPartitionLoop_keeps_minimum_weight _ _ _ hq hu 1 hW (by decide) 2 unpartitioned 5⟩

end KaHyPar
