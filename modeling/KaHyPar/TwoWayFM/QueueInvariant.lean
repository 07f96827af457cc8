import KaHyPar.TwoWayFM.GainUpdate

/-!
# The queue invariant of the forward loop

At the head of every iteration, every hypernode in `_pq[b]` is in block `b`, unmarked, a border
node, and keyed by its gain (`QueueInv`). The hard step is `updateNeighbours`: after `v` moved,
the keys of the other pins are stale until every incident hyperedge has been handled.

1. `Pending p₀ touched delta` is what holds part-way: a key set by `activate` in this call
   (`_just_activated`) is the new gain; any other key is the gain before the move plus what the
   iterations so far added, `delta x`, and its node is a border node before the move until an
   `updatePin` has reached it (`touched x`), after.
2. `updatePin` keeps it with its pin touched (`pending_updatePin`), hence so do `updatePins` and
   one iteration of `updateNeighbours` (`pending_updateNeighboursEdge`).
3. After the last iteration `delta x` is the change of the gain (`sum_edgeDelta_moved`) and an
   untouched node's border status did not change, so the invariant is back
   (`queueInv_updateNeighbours`).
-/

namespace KaHyPar

/-- What the queue invariant says of a hypernode `x` that `_pq[b]` holds with key `k`. -/
structure QueueEntry (hg : Hypergraph) (s : TwoWayFM) (b : Bool) (x : Nat) (k : Int) : Prop where
  part_eq : s.part x = b
  unmarked : s.marked x = false
  mem_nodes : x ∈ hg.nodes
  border : isBorderNode hg s.part x = true
  key_eq : k = computeGain hg s.part x

/-- The queue invariant: every entry of both queues is a `QueueEntry`. -/
def QueueInv (hg : Hypergraph) (s : TwoWayFM) : Prop :=
  ∀ b x k, s.pq b x = some k → QueueEntry hg s b x k

/-- No hypernode is in both queues. -/
theorem QueueInv.not_mem_other {hg : Hypergraph} {s : TwoWayFM} (h : QueueInv hg s) {b : Bool}
    {x : Nat} {k : Int} (hk : s.pq b x = some k) : s.pq (!b) x = none := by
  cases hk' : s.pq (!b) x with
  | none => rfl
  | some k' =>
    have := (h _ _ _ hk).part_eq.symm.trans (h _ _ _ hk').part_eq
    cases b <;> simp at this

section Pending

variable (hg : Hypergraph) (p₀ : Nat → Bool)

/-- `Pending` at one hypernode `x`. -/
def PendingAt (touched : Prop) (delta : Int) (s : TwoWayFM) (x : Nat) : Prop :=
  ∀ b k, s.pq b x = some k →
    s.part x = b ∧ s.marked x = false ∧ x ∈ hg.nodes ∧
      (s.justActivated x = true →
        k = computeGain hg s.part x ∧ isBorderNode hg s.part x = true) ∧
      (s.justActivated x = false →
        k = computeGain hg p₀ x + delta ∧ (touched → isBorderNode hg s.part x = true) ∧
          (¬touched → isBorderNode hg p₀ x = true))

/-- The queues part-way through `updateNeighbours`, after a move out of the partition `p₀`. -/
def Pending (touched : Nat → Prop) (delta : Nat → Int) (s : TwoWayFM) : Prop :=
  ∀ x, PendingAt hg p₀ (touched x) (delta x) s x

variable {hg p₀}

theorem PendingAt.congr {t t' : Prop} {d d' : Int} {s s' : TwoWayFM} {x : Nat}
    (h : PendingAt hg p₀ t d s x) (ht : t ↔ t') (hd : d = d') (hq : QueuesOnly s s')
    (hpq : ∀ b, s'.pq b x = s.pq b x) (hj : s'.justActivated x = s.justActivated x) :
    PendingAt hg p₀ t' d' s' x := by
  intro b k hk
  rw [hpq] at hk
  rw [hq.part_eq, hq.marked_eq, hj, ← ht, ← hd]
  exact h b k hk

/-- `updatePin` on `pin` keeps `Pending`, with `pin` touched and its sign times `ω(he)` added. -/
theorem pending_updatePin {touched : Nat → Prop} {delta : Nat → Int} {s : TwoWayFM}
    (h : Pending hg p₀ touched delta s) (he : Hyperedge) {pin : Nat} (hpin : pin ∈ hg.nodes)
    (sign : Int) :
    Pending hg p₀ (fun x => touched x ∨ x = pin)
      (fun x => if x = pin then delta x + sign * he.weight else delta x)
      (updatePin hg he pin sign s) := by
  intro x
  by_cases hx : x = pin
  · subst hx
    have hq := updatePin_queuesOnly hg he x sign s
    intro b k hk
    -- only the queue of the block of `x` can hold it
    obtain rfl : b = s.part x := by
      by_contra hbx
      rw [updatePin_pq_of_ne hg he (fun h => hbx h.1)] at hk
      exact hbx (h x b k hk).1.symm
    rw [hq.part_eq, hq.marked_eq]
    simp only [or_true, if_true, not_true_eq_false, false_implies, true_implies, and_true, true_and]
    rcases updatePin_cases hg he x sign s with ⟨old, hold, hb, hj, hs⟩ | ⟨_, hb, hs⟩ |
      ⟨hnone, hm, hs⟩ | ⟨hs, hcase⟩ <;> rw [hs] at hk ⊢
    · -- the key of a queued border node grows by `sign · ω(he)`
      simp only [setKey_apply, and_self, if_true, Option.some.injEq] at hk ⊢
      obtain ⟨-, h2, h3, -, h5⟩ := h x _ old hold
      refine ⟨h2, h3, by simp [hj], fun _ => ⟨?_, hb⟩⟩
      rw [← hk, (h5 hj).1, Int.add_assoc]
    · -- a queued node that is no border node any more leaves its queue
      simp at hk
    · -- an unqueued unmarked node is activated with its gain
      unfold activate at hk ⊢
      split_ifs at hk ⊢ with hb
      · simp only [setKey_apply, and_self, if_true, Option.some.injEq] at hk
        exact ⟨hm, hpin, fun _ => ⟨hk.symm, hb⟩, by simp⟩
      · simp [hnone] at hk
    · -- nothing changes: the node is not queued, or was activated in this call
      obtain ⟨-, h2, h3, h4, -⟩ := h x _ k hk
      refine ⟨h2, h3, h4, fun hj => ?_⟩
      rcases hcase with hn | hj'
      · rw [hn] at hk; simp at hk
      · simp [hj] at hj'
  · refine (h x).congr (by simp [hx]) (by simp [hx]) (updatePin_queuesOnly hg he _ _ s)
      (fun b => updatePin_pq_of_ne hg he (by simp [hx])) (updatePin_justActivated_of_ne hg he hx)

theorem Pending.congr {touched touched' : Nat → Prop} {delta delta' : Nat → Int} {s : TwoWayFM}
    (h : Pending hg p₀ touched delta s) (ht : ∀ x, touched x ↔ touched' x)
    (hd : ∀ x, delta x = delta' x) : Pending hg p₀ touched' delta' s := fun x =>
  (h x).congr (ht x) (hd x) (QueuesOnly.refl s) (fun _ => rfl) rfl

/-- `updatePin` over distinct pins `l` keeps `Pending`, with the pins touched and their signs
times `ω(he)` added. -/
theorem pending_foldl_updatePin (he : Hyperedge) (sign : Nat → Int) :
    ∀ (l : List Nat) (touched : Nat → Prop) (delta : Nat → Int) (s : TwoWayFM), l.Nodup →
      (∀ p ∈ l, p ∈ hg.nodes) → Pending hg p₀ touched delta s →
      Pending hg p₀ (fun x => touched x ∨ x ∈ l)
        (fun x => delta x + if x ∈ l then sign x * he.weight else 0)
        (l.foldl (fun s pin => updatePin hg he pin (sign pin) s) s)
  | [], _, _, _, _, _, h => h.congr (by simp) (by simp)
  | p :: ps, touched, delta, s, hl, hmem, h => by
    obtain ⟨hp, hps⟩ := List.nodup_cons.1 hl
    have := pending_foldl_updatePin he sign ps _ _ _ hps
      (fun q hq => hmem q (List.mem_cons_of_mem _ hq))
      (pending_updatePin h he (hmem p (List.mem_cons_self _ _)) (sign p))
    refine this.congr (fun x => ?_) (fun x => ?_)
    · by_cases hx : x = p <;> simp [hx, or_assoc]
    · by_cases hx : x = p
      · subst hx; simp [hp]
      · simp [hx]

theorem updateNeighboursEdge_queuesOnly (fromPartition toPartition : Bool) (s : TwoWayFM)
    (e : Hyperedge) : QueuesOnly s (updateNeighboursEdge hg fromPartition toPartition s e) :=
  updateNeighboursEdge_induction hg (QueuesOnly s)
    (fun he pin sign t ht => ht.trans (updatePin_queuesOnly hg he pin sign t)) _ _ s e
    (QueuesOnly.refl s)

/-- One iteration of `updateNeighbours` keeps `Pending`: if a branch fires, the pins of the
hyperedge are touched and get `edgeDelta`. -/
theorem pending_updateNeighboursEdge {touched : Nat → Prop} {delta : Nat → Int} {s : TwoWayFM}
    (h : Pending hg p₀ touched delta s) (fromPartition toPartition : Bool) {e : Hyperedge}
    (he : e ∈ hg.edges) :
    Pending hg p₀
      (fun x => touched x ∨ (pinSigns s.part fromPartition toPartition e).isSome ∧ x ∈ e.pins)
      (fun x => delta x + edgeDelta s.part fromPartition toPartition e x)
      (updateNeighboursEdge hg fromPartition toPartition s e) := by
  rw [updateNeighboursEdge_eq]
  unfold edgeDelta
  split
  · rename_i hnone
    exact h.congr (by simp [hnone]) (by simp)
  · rename_i sign hsign
    exact (pending_foldl_updatePin e sign e.pins touched delta s e.pins_nodup
      (hg.pin_mem e he) h).congr (by simp [hsign]) (by simp)

/-- The whole loop of `updateNeighbours` keeps `Pending`. -/
theorem pending_foldl_updateNeighboursEdge (fromPartition toPartition : Bool) :
    ∀ (l : List Hyperedge) (touched : Nat → Prop) (delta : Nat → Int) (s : TwoWayFM),
      (∀ e ∈ l, e ∈ hg.edges) → Pending hg p₀ touched delta s →
      Pending hg p₀
        (fun x => touched x ∨
          ∃ e ∈ l, (pinSigns s.part fromPartition toPartition e).isSome ∧ x ∈ e.pins)
        (fun x => delta x + (l.map fun e => edgeDelta s.part fromPartition toPartition e x).sum)
        (l.foldl (updateNeighboursEdge hg fromPartition toPartition) s)
  | [], _, _, _, _, h => h.congr (by simp) (by simp)
  | e :: l, touched, delta, s, hl, h => by
    have hpart := (@updateNeighboursEdge_queuesOnly hg fromPartition toPartition s e).part_eq
    have := pending_foldl_updateNeighboursEdge fromPartition toPartition l _ _ _
      (fun e' he' => hl e' (List.mem_cons_of_mem _ he'))
      (pending_updateNeighboursEdge h fromPartition toPartition (hl e (List.mem_cons_self _ _)))
    rw [hpart] at this
    refine this.congr (fun x => ?_) (fun x => ?_)
    · simp only [List.mem_cons, exists_eq_or_imp, or_assoc]
    · simp only [List.map_cons, List.sum_cons, Int.add_assoc]

end Pending

/-- After `v` moved out of the partition `p₀`, `updateNeighbours` restores the queue invariant
from queues whose entries were right before the move. -/
theorem queueInv_updateNeighbours {hg : Hypergraph} (h2 : ∀ e ∈ hg.edges, 2 ≤ edgeSize e)
    {p₀ : Nat → Bool} {v : Nat} {s : TwoWayFM} (hpart : s.part = Function.update p₀ v (!p₀ v))
    (hmarked : s.marked v = true)
    (hq : ∀ b x k, s.pq b x = some k → s.part x = b ∧ s.marked x = false ∧ x ∈ hg.nodes ∧
      isBorderNode hg p₀ x = true ∧ k = computeGain hg p₀ x) :
    QueueInv hg (updateNeighbours hg v (p₀ v) (!p₀ v) s) := by
  have hstart : Pending hg p₀ (fun _ => False) (fun _ => 0)
      { s with justActivated := fun _ => false } := by
    intro x b k hk
    obtain ⟨h1, h2', h3, h4, h5⟩ := hq b x k hk
    exact ⟨h1, h2', h3, by simp, fun _ => ⟨by simp [h5], by simp, fun _ => h4⟩⟩
  have hfold : Pending hg p₀
      (fun x => False ∨ ∃ e ∈ hg.incidentEdges v,
        (pinSigns s.part (p₀ v) (!p₀ v) e).isSome ∧ x ∈ e.pins)
      (fun x => 0 + ((hg.incidentEdges v).map fun e => edgeDelta s.part (p₀ v) (!p₀ v) e x).sum)
      (updateNeighbours hg v (p₀ v) (!p₀ v) s) :=
    pending_foldl_updateNeighboursEdge (p₀ v) (!p₀ v) (hg.incidentEdges v) _ _ _
      (fun e he => ((hg.mem_incidentEdges).1 he).1) hstart
  have hqo := updateNeighbours_queuesOnly hg v (p₀ v) (!p₀ v) s
  intro b x k hk
  obtain ⟨h1, h2', h3, h4, h5⟩ := hfold x b k hk
  simp only [hqo.part_eq, hpart] at h1 h4 h5 ⊢
  have hxv : x ≠ v := by
    rintro rfl
    rw [hqo.marked_eq, hmarked] at h2'
    exact Bool.noConfusion h2'
  refine ⟨by rw [hqo.part_eq, hpart]; exact h1, h2', h3, ?_, ?_⟩ <;>
    cases hj : (updateNeighbours hg v (p₀ v) (!p₀ v) s).justActivated x <;>
    rw [hqo.part_eq, hpart]
  · -- a key not set in this call: a touched node is a border node, an untouched one still is
    obtain ⟨-, htouched, huntouched⟩ := h5 hj
    by_cases ht : False ∨ ∃ e ∈ hg.incidentEdges v,
        (pinSigns (Function.update p₀ v (!p₀ v)) (p₀ v) (!p₀ v) e).isSome ∧ x ∈ e.pins
    · exact htouched ht
    · rw [isBorderNode_moved_of_untouched hg fun e he hxe =>
        Option.not_isSome_iff_eq_none.1 fun hs => ht (.inr ⟨e, he, hs, hxe⟩)]
      exact huntouched ht
  · exact (h4 hj).2
  · -- the old gain plus what the iterations added is the new gain
    rw [(h5 hj).1, sum_edgeDelta_moved hg h2 hxv]
    omega
  · exact (h4 hj).1

end KaHyPar
