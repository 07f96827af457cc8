import KaHyPar.TwoWayFM.Gain

/-!
# What `updateNeighbours` hands each pin

1. `updatePin` changes nothing but the queues and `_just_activated` (`QueuesOnly`), and of those
   only the entries of its pin.
2. Both overloads of `updatePinsOfHyperedge` are `updatePins` with a sign per pin, and one
   iteration of `updateNeighbours` is `updatePins` with the signs `pinSigns` of the branch that
   fires, or nothing (`updateNeighboursEdge_eq`); so what every `updatePin` keeps, the whole of
   `updateNeighbours` keeps (`updateNeighbours_induction`).
3. After a move of `v` from `a` to `b` pins, the counts rebuilt in `HypernodeID` arithmetic are
   the counts before the move (`oldSize_moved`), so the branch chain is `branchSigns a b`
   (`pinSigns_moved`). Its sign times `ω(e)` is the change of `e`'s term in the gain of every
   other pin (`edgeDelta_moved`), and an edge on which no branch fires stays cut or uncut
   (`isCut_of_pinSigns_none`).
4. So one iteration after a move updates no pin and changes no term, or runs `updatePin` over the
   pins with those signs (`updateNeighboursEdge_moved`).
-/

namespace KaHyPar

/-- `s'` differs from `s` at most in the queues and in `_just_activated`. -/
def QueuesOnly (s s' : TwoWayFM) : Prop :=
  s' = { s with pq := s'.pq, justActivated := s'.justActivated }

namespace QueuesOnly

theorem refl (s : TwoWayFM) : QueuesOnly s s := rfl

theorem trans {s₁ s₂ s₃ : TwoWayFM} (h₁ : QueuesOnly s₁ s₂) (h₂ : QueuesOnly s₂ s₃) :
    QueuesOnly s₁ s₃ := by
  unfold QueuesOnly at *; rw [h₂, h₁]

theorem eq {s s' : TwoWayFM} (h : QueuesOnly s s') :
    s' = { s with pq := s'.pq, justActivated := s'.justActivated } := h

theorem part_eq {s s' : TwoWayFM} (h : QueuesOnly s s') : s'.part = s.part := by rw [h]
theorem marked_eq {s s' : TwoWayFM} (h : QueuesOnly s s') : s'.marked = s.marked := by rw [h]

end QueuesOnly

section Pins

variable (hg : Hypergraph) (he : Hyperedge)

theorem activate_queuesOnly (hn : Nat) (s : TwoWayFM) : QueuesOnly s (activate hg hn s) := by
  unfold activate; split_ifs <;> rfl

theorem updatePin_queuesOnly (pin : Nat) (sign : Int) (s : TwoWayFM) :
    QueuesOnly s (updatePin hg he pin sign s) := by
  unfold updatePin
  split
  · split_ifs <;> rfl
  · split_ifs
    · have h := activate_queuesOnly hg pin s
      unfold QueuesOnly at h ⊢; rw [h]
    · rfl

theorem updatePin_pq_of_ne {pin : Nat} {sign : Int} {s : TwoWayFM} {b : Bool} {y : Nat}
    (h : ¬(b = s.part pin ∧ y = pin)) : (updatePin hg he pin sign s).pq b y = s.pq b y := by
  unfold updatePin activate
  split
  · split_ifs <;> simp [h]
  · split_ifs <;> simp [h]

theorem updatePin_justActivated_of_ne {pin : Nat} {sign : Int} {s : TwoWayFM} {y : Nat}
    (h : y ≠ pin) : (updatePin hg he pin sign s).justActivated y = s.justActivated y := by
  unfold updatePin activate
  split
  · split_ifs <;> rfl
  · split_ifs <;> simp [Function.update_noteq h]

/-- What `updatePin` can do: raise the key of a queued border node not activated in this call,
drop a queued node that is no border node any more, activate an unqueued unmarked node, or
nothing. -/
theorem updatePin_cases (he : Hyperedge) (pin : Nat) (sign : Int) (s : TwoWayFM) :
    (∃ old, s.pq (s.part pin) pin = some old ∧ isBorderNode hg s.part pin = true ∧
        s.justActivated pin = false ∧
        updatePin hg he pin sign s =
          { s with pq := setKey s.pq (s.part pin) pin (some (old + sign * he.weight)) }) ∨
      ((s.pq (s.part pin) pin).isSome ∧ isBorderNode hg s.part pin = false ∧
        updatePin hg he pin sign s = { s with pq := setKey s.pq (s.part pin) pin none }) ∨
      (s.pq (s.part pin) pin = none ∧ s.marked pin = false ∧
        updatePin hg he pin sign s =
          { activate hg pin s with
            justActivated := Function.update (activate hg pin s).justActivated pin true }) ∨
      (updatePin hg he pin sign s = s ∧
        (s.pq (s.part pin) pin = none ∨ s.justActivated pin = true)) := by
  unfold updatePin
  split
  · rename_i old hold
    by_cases hb : isBorderNode hg s.part pin = true
    · by_cases hj : s.justActivated pin = true
      · exact .inr (.inr (.inr ⟨by simp [hb, hj], .inr hj⟩))
      · simp only [Bool.not_eq_true] at hj
        exact .inl ⟨old, hold, hb, hj, by simp [hb, hj]⟩
    · exact .inr (.inl ⟨by simp [hold], by simpa using hb, by simp [hb]⟩)
  · rename_i hnone
    by_cases hm : s.marked pin = true
    · exact .inr (.inr (.inr ⟨by simp [hm], .inl hnone⟩))
    · simp only [Bool.not_eq_true] at hm
      exact .inr (.inr (.inl ⟨hnone, hm, by simp [hm]⟩))

/-- The pins of `he` get `updatePin` in order, `pin` with the sign `sign pin`. -/
def updatePins (sign : Nat → Int) (s : TwoWayFM) : TwoWayFM :=
  he.pins.foldl (fun s pin => updatePin hg he pin (sign pin) s) s

theorem updatePinsOfHyperedge_eq (sign : Int) (s : TwoWayFM) :
    updatePinsOfHyperedge hg he sign s = updatePins hg he (fun _ => sign) s := rfl

/-- The sign `updatePinsOfHyperedge(he, sign1, sign2, compare)` gives a pin is fixed by the
block of the pin, which the loop does not change. -/
theorem updatePinsOfHyperedgeIn_eq (sign1 sign2 : Int) (compare : Bool) (s : TwoWayFM) :
    updatePinsOfHyperedgeIn hg he sign1 sign2 compare s =
      updatePins hg he (fun p => if compare = s.part p then sign1 else sign2) s := by
  unfold updatePinsOfHyperedgeIn updatePins
  suffices ∀ (l : List Nat) (t : TwoWayFM), t.part = s.part →
      l.foldl (fun t pin =>
          updatePin hg he pin (if compare = t.part pin then sign1 else sign2) t) t =
        l.foldl (fun t pin =>
          updatePin hg he pin (if compare = s.part pin then sign1 else sign2) t) t
    from this he.pins s rfl
  intro l
  induction l with
  | nil => intro t _; rfl
  | cons p ps ih =>
    intro t ht
    simp only [List.foldl_cons, ht]
    exact ih _ ((updatePin_queuesOnly hg he p _ t).part_eq.trans ht)

end Pins

/-! ## The branch chain -/

/-- The signs one iteration of `updateNeighbours` hands `updatePin` for the pins of `he`, as its
branch chain picks them; `none` when no branch fires. -/
def pinSigns (part : Nat → Bool) (fromPartition toPartition : Bool) (he : Hyperedge) :
    Option (Nat → Int) :=
  let newSize0 := pinCountInPartition part he false
  let newSize1 := pinCountInPartition part he true
  let oldSize0 := oldSize newSize0 toPartition false
  let oldSize1 := oldSize newSize1 toPartition true
  if edgeSize he = 2 then some fun _ => if newSize0 = 1 then 2 else -2
  else if pinCountInOnePartitionIncreasedFrom0To1 oldSize0 newSize0 oldSize1 newSize1 then
    some fun _ => 1
  else if pinCountInOnePartitionDecreasedFrom1To0 oldSize0 newSize0 oldSize1 newSize1 then
    some fun _ => -1
  else if pinCountInOnePartitionDecreasedFrom2To1 oldSize0 newSize0 oldSize1 newSize1 then
    some fun p => if fromPartition = part p then 1 else if edgeSize he = 3 then -1 else 0
  else if pinCountInOnePartitionIncreasedFrom1To2 oldSize0 newSize0 oldSize1 newSize1 then
    some fun p => if toPartition = part p then -1 else 0
  else none

theorem updateNeighboursEdge_eq (hg : Hypergraph) (fromPartition toPartition : Bool)
    (s : TwoWayFM) (he : Hyperedge) :
    updateNeighboursEdge hg fromPartition toPartition s he =
      match pinSigns s.part fromPartition toPartition he with
      | none => s
      | some sign => updatePins hg he sign s := by
  unfold updateNeighboursEdge pinSigns
  simp only [updatePinsOfHyperedge_eq, updatePinsOfHyperedgeIn_eq]
  generalize oldSize (pinCountInPartition s.part he false) toPartition false = o0
  generalize oldSize (pinCountInPartition s.part he true) toPartition true = o1
  generalize pinCountInPartition s.part he false = n0
  generalize pinCountInPartition s.part he true = n1
  by_cases h : edgeSize he = 2
  · simp only [h, if_true]
  · simp only [h, if_false]
    cases pinCountInOnePartitionIncreasedFrom0To1 o0 n0 o1 n1 <;>
      cases pinCountInOnePartitionDecreasedFrom1To0 o0 n0 o1 n1 <;>
      cases pinCountInOnePartitionDecreasedFrom2To1 o0 n0 o1 n1 <;>
      cases pinCountInOnePartitionIncreasedFrom1To2 o0 n0 o1 n1 <;> rfl

/-! ## `updateNeighbours` is a run of `updatePin`s -/

section Induction

variable (hg : Hypergraph) (P : TwoWayFM → Prop)
  (hP : ∀ he pin sign s, P s → P (updatePin hg he pin sign s))
include hP

theorem foldl_updatePin_induction (he : Hyperedge) (sign : Nat → Int) (l : List Nat) :
    ∀ s, P s → P (l.foldl (fun s pin => updatePin hg he pin (sign pin) s) s) := by
  induction l with
  | nil => exact fun _ h => h
  | cons p ps ih => exact fun s h => ih _ (hP he p _ s h)

theorem updateNeighboursEdge_induction (fromPartition toPartition : Bool) (s : TwoWayFM)
    (he : Hyperedge) (h : P s) : P (updateNeighboursEdge hg fromPartition toPartition s he) := by
  rw [updateNeighboursEdge_eq]
  split
  · exact h
  · exact foldl_updatePin_induction hg P hP he _ he.pins s h

theorem updateNeighbours_induction (v : Nat) (fromPartition toPartition : Bool) (s : TwoWayFM)
    (h : P { s with justActivated := fun _ => false }) :
    P (updateNeighbours hg v fromPartition toPartition s) := by
  unfold updateNeighbours
  generalize { s with justActivated := fun _ => false } = s₀ at h ⊢
  induction hg.incidentEdges v generalizing s₀ with
  | nil => exact h
  | cons e l ih => exact ih _ (updateNeighboursEdge_induction hg P hP _ _ _ e h)

end Induction

/-- `updatePin` and so `updateNeighbours` change only the queues and `_just_activated`. -/
theorem updateNeighbours_queuesOnly (hg : Hypergraph) (v : Nat) (fromPartition toPartition : Bool)
    (s : TwoWayFM) : QueuesOnly s (updateNeighbours hg v fromPartition toPartition s) :=
  updateNeighbours_induction hg (QueuesOnly s)
    (fun he pin sign t ht => ht.trans (updatePin_queuesOnly hg he pin sign t)) v fromPartition
    toPartition s rfl

/-- What one iteration of `updateNeighbours` adds to the key of `x`: its sign times `ω(he)` if
`x` is a pin and a branch fires. -/
def edgeDelta (part : Nat → Bool) (fromPartition toPartition : Bool) (he : Hyperedge)
    (x : Nat) : Int :=
  match pinSigns part fromPartition toPartition he with
  | none => 0
  | some sign => if x ∈ he.pins then sign x * he.weight else 0

/-- The branch chain after a move that found `a` pins of `he` in the source block and `b` in the
target block. -/
def branchSigns (a b size : Nat) (part : Nat → Bool) (source : Bool) : Option (Nat → Int) :=
  if size = 2 then some fun _ => if b = 0 then 2 else -2
  else if b = 0 then some fun _ => 1
  else if a = 1 then some fun _ => -1
  else if a = 2 then some fun p => if source = part p then 1 else if size = 3 then -1 else 0
  else if b = 1 then some fun p => if (!source) = part p then -1 else 0
  else none

theorem oldSize_target {n : Nat} (h : n < 2 ^ 32) (hpos : 0 < n) (b : Bool) :
    oldSize n b b = n - 1 := by
  simp only [oldSize, if_true]; omega

theorem oldSize_source {n : Nat} (h : n + 1 < 2 ^ 32) (b : Bool) : oldSize n (!b) b = n + 1 := by
  simp only [oldSize, Bool.not_eq_self, if_false]; omega

section Moved

variable {p₀ : Nat → Bool} {v : Nat} {e : Hyperedge}

/-- The counts after moving the pin `v` of `e`, in terms of those before. -/
theorem pinCount_moved (hv : v ∈ e.pins) :
    pinCountInPartition (Function.update p₀ v (!p₀ v)) e (p₀ v) + 1 =
        pinCountInPartition p₀ e (p₀ v) ∧
      pinCountInPartition (Function.update p₀ v (!p₀ v)) e (!p₀ v) =
        pinCountInPartition p₀ e (!p₀ v) + 1 := by
  have hs := @pinCount_update_of_mem p₀ e v hv (!p₀ v) (p₀ v)
  have ht := @pinCount_update_of_mem p₀ e v hv (!p₀ v) (!p₀ v)
  simp only [Bool.not_eq_self, Bool.eq_not_self, if_true, if_false] at hs ht
  exact ⟨hs, by omega⟩

/-- The old sizes `updateNeighbours` rebuilds from the counts after the move, in `HypernodeID`
arithmetic, are the counts before the move: neither wraps around. -/
theorem oldSize_moved (hv : v ∈ e.pins) (hsize : edgeSize e < 2 ^ 32) (b : Bool) :
    oldSize (pinCountInPartition (Function.update p₀ v (!p₀ v)) e b) (!p₀ v) b =
      pinCountInPartition p₀ e b := by
  obtain ⟨hs, ht⟩ := @pinCount_moved p₀ v e hv
  have hsum := pinCount_add_not p₀ e (p₀ v)
  have hpos := pinCount_pos_of_mem p₀ e hv
  by_cases hb : b = p₀ v
  · subst hb
    rw [oldSize_source (by omega)]
    omega
  · obtain rfl := Bool.eq_not.2 hb
    rw [oldSize_target (by omega) (by omega)]
    omega

/-! The four tests after a move that left `n` pins in the source block, which held `n + 1`, and
`b + 1` in the target block, which held `b`: the tests read `b = 0`, `n + 1 = 1`, `n + 1 = 2`
and `b = 1`. -/

theorem changed0To1_moved (n b : Nat) :
    pinCountInOnePartitionChanged 0 1 (n + 1) n b (b + 1) = (b == 0) := by
  simp [pinCountInOnePartitionChanged]

theorem changed1To0_moved (n b : Nat) :
    pinCountInOnePartitionChanged 1 0 (n + 1) n b (b + 1) = (n == 0) := by
  simp [pinCountInOnePartitionChanged]

theorem changed2To1_moved (n b : Nat) :
    pinCountInOnePartitionChanged 2 1 (n + 1) n b (b + 1) = (n == 1) := by
  simp [pinCountInOnePartitionChanged]; omega

theorem changed1To2_moved (n b : Nat) :
    pinCountInOnePartitionChanged 1 2 (n + 1) n b (b + 1) = (b == 1) := by
  simp [pinCountInOnePartitionChanged]; omega

theorem pinCountInOnePartitionChanged_comm (x y o0 n0 o1 n1 : Nat) :
    pinCountInOnePartitionChanged x y o0 n0 o1 n1 =
      pinCountInOnePartitionChanged x y o1 n1 o0 n0 := by
  simp only [pinCountInOnePartitionChanged, Bool.or_comm]

/-- The branch chain once the four tests are read on the counts `n + 1`, `b` before the move. -/
theorem pinSigns_tests {n b size : Nat} (hsum : n + 1 + b = size) (part : Nat → Bool)
    (source : Bool) (n0 : Nat) (hn0 : n0 = if source then b + 1 else n) :
    (if size = 2 then some fun _ => if n0 = 1 then (2 : Int) else -2
      else if (b == 0) = true then some fun _ => 1
      else if (n == 0) = true then some fun _ => -1
      else if (n == 1) = true then
        some fun p => if source = part p then 1 else if size = 3 then -1 else 0
      else if (b == 1) = true then some fun p => if (!source) = part p then -1 else 0
      else none) = branchSigns (n + 1) b size part source := by
  unfold branchSigns
  by_cases h2 : size = 2
  · have : n0 = 1 ↔ b = 0 := by cases source <;> simp at hn0 <;> omega
    simp only [h2, if_true, this]
  · simp [h2]

/-- After `v` moves, the rebuilt old sizes are the counts before the move, and the branch chain
is `branchSigns` of those counts. -/
theorem pinSigns_moved (hv : v ∈ e.pins) (hsize : edgeSize e < 2 ^ 32) :
    pinSigns (Function.update p₀ v (!p₀ v)) (p₀ v) (!p₀ v) e =
      branchSigns (pinCountInPartition p₀ e (p₀ v)) (pinCountInPartition p₀ e (!p₀ v))
        (edgeSize e) (Function.update p₀ v (!p₀ v)) (p₀ v) := by
  obtain ⟨hs, ht⟩ := @pinCount_moved p₀ v e hv
  have hsum := pinCount_add_not p₀ e (p₀ v)
  unfold pinSigns
  simp only [oldSize_moved hv hsize]
  generalize Function.update p₀ v (!p₀ v) = p₁ at *
  generalize p₀ v = c at *
  cases c <;> simp only [Bool.not_false, Bool.not_true] at * <;>
    generalize pinCountInPartition p₀ e false = a0 at * <;>
    generalize pinCountInPartition p₀ e true = a1 at * <;>
    generalize pinCountInPartition p₁ e false = n0 at * <;>
    generalize pinCountInPartition p₁ e true = n1 at * <;>
    subst hs ht <;>
    simp only [pinCountInOnePartitionIncreasedFrom0To1, pinCountInOnePartitionDecreasedFrom1To0,
      pinCountInOnePartitionDecreasedFrom2To1, pinCountInOnePartitionIncreasedFrom1To2]
  · simp only [changed0To1_moved, changed1To0_moved, changed2To1_moved, changed1To2_moved]
    exact pinSigns_tests hsum p₁ false n0 (by simp)
  · simp only [pinCountInOnePartitionChanged_comm _ _ a0, changed0To1_moved, changed1To0_moved,
      changed2To1_moved, changed1To2_moved]
    exact pinSigns_tests hsum p₁ true (a0 + 1) (by simp)

/-- `branchSigns` read at one pin, times a weight. -/
theorem branchSigns_apply (a b size : Nat) (part : Nat → Bool) (source : Bool) (x : Nat)
    (w : Int) :
    (match branchSigns a b size part source with
      | none => 0
      | some sign => sign x * w) =
      if size = 2 then (if b = 0 then 2 * w else -2 * w)
      else if b = 0 then w
      else if a = 1 then -w
      else if a = 2 then (if source = part x then w else if size = 3 then -w else 0)
      else if b = 1 then (if (!source) = part x then -w else 0)
      else 0 := by
  unfold branchSigns
  by_cases h1 : size = 2 <;> simp only [h1, if_true, if_false]
  · split_ifs <;> rfl
  by_cases h2 : b = 0 <;> simp only [h2, if_true, if_false, one_mul]
  by_cases h3 : a = 1 <;> simp only [h3, if_true, if_false, neg_mul, one_mul]
  by_cases h4 : a = 2 <;> simp only [h4, if_true, if_false]
  · split_ifs <;> simp only [one_mul, neg_one_mul, zero_mul]
  by_cases h5 : b = 1 <;> simp only [h5, if_true, if_false]
  split_ifs <;> simp only [neg_one_mul, zero_mul]

/-- The sign `updateNeighbours` hands a pin `x ≠ v` of `e`, times `ω(e)`, is the change of the
term of `e` in `computeGain(x)`. -/
theorem edgeDelta_moved {x : Nat} (hv : v ∈ e.pins) (hx : x ∈ e.pins) (hxv : x ≠ v)
    (h2 : 2 ≤ edgeSize e) (hsize : edgeSize e < 2 ^ 32) :
    edgeDelta (Function.update p₀ v (!p₀ v)) (p₀ v) (!p₀ v) e x =
      gainTerm (Function.update p₀ v (!p₀ v)) x e - gainTerm p₀ x e := by
  have hx' : Function.update p₀ v (!p₀ v) x = p₀ x := Function.update_noteq hxv _ _
  obtain ⟨hs, ht⟩ := @pinCount_moved p₀ v e hv
  have hsum := pinCount_add_not p₀ e (p₀ v)
  have hxpos := pinCount_pos_of_mem p₀ e hx
  have hxpos' := pinCount_pos_of_mem (Function.update p₀ v (!p₀ v)) e hx
  simp only [edgeDelta, pinSigns_moved hv hsize, hx, if_true, branchSigns_apply, gainTerm, hx']
  simp only [hx'] at hxpos'
  generalize Function.update p₀ v (!p₀ v) = p₁ at *
  have hcases : p₀ x = p₀ v ∨ p₀ x = !p₀ v := by cases p₀ x <;> cases p₀ v <;> simp
  rcases hcases with hc | hc <;> rw [hc] at hxpos hxpos' ⊢ <;>
    simp only [Bool.not_not, if_true, Bool.not_eq_self, Bool.eq_not_self, if_false] <;>
    generalize pinCountInPartition p₀ e (p₀ v) = a at * <;>
    generalize pinCountInPartition p₀ e (!p₀ v) = b at * <;>
    generalize pinCountInPartition p₁ e (p₀ v) = a' at * <;>
    generalize pinCountInPartition p₁ e (!p₀ v) = b' at * <;>
    generalize edgeSize e = n at * <;> subst hsum ht hs <;>
    -- the branches and the two gain terms only ask whether the counts are 0, 1 or more
    rcases b with _ | _ | b <;> rcases a' with _ | _ | a' <;>
    simp only [Nat.reduceEqDiff, Nat.reduceAdd, add_zero, zero_add, Nat.succ_ne_self, one_ne_zero,
      OfNat.ofNat_ne_one, OfNat.ofNat_ne_zero, AddLeftCancelMonoid.add_eq_zero, add_right_eq_self,
      add_left_eq_self, and_false, and_self, false_or, ↓reduceIte, lt_self_iff_false]
      at hxpos hxpos' ⊢ <;> omega

theorem branchSigns_eq_none {a b size : Nat} {part : Nat → Bool} {source : Bool}
    (h : branchSigns a b size part source = none) : b ≠ 0 ∧ a ≠ 1 := by
  unfold branchSigns at h
  by_cases h1 : size = 2 <;> simp only [h1, if_true, if_false] at h
  · simp at h
  by_cases h2 : b = 0 <;> simp only [h2, if_true, if_false] at h
  · simp at h
  by_cases h3 : a = 1 <;> simp only [h3, if_true, if_false] at h
  · simp at h
  exact ⟨h2, h3⟩

/-- A hyperedge on which no branch fires stays cut: it had at least three pins in the source
block and two in the target block. -/
theorem isCut_of_pinSigns_none (hv : v ∈ e.pins) (hsize : edgeSize e < 2 ^ 32)
    (h : pinSigns (Function.update p₀ v (!p₀ v)) (p₀ v) (!p₀ v) e = none) :
    isCut (Function.update p₀ v (!p₀ v)) e = isCut p₀ e := by
  obtain ⟨hs, ht⟩ := @pinCount_moved p₀ v e hv
  rw [pinSigns_moved hv hsize] at h
  obtain ⟨hb, ha1⟩ := branchSigns_eq_none h
  rw [Bool.eq_iff_iff, isCut_iff _ e (p₀ v), isCut_iff p₀ e (p₀ v)]
  have hpos := pinCount_pos_of_mem p₀ e hv
  omega

end Moved

/-! ## One iteration of `updateNeighbours` after a move -/

section Iteration

variable {p₀ : Nat → Bool} {v : Nat} {e : Hyperedge}

/-- After `v` moved from block `p₀ v` to `!p₀ v`, the iteration of `updateNeighbours` for an
incident hyperedge `e` of two or more pins rebuilds the counts before the move. When no branch of
its chain fires (`pinSigns` is `none`) it updates no pin, and no term of a pin `x ≠ v` changes;
otherwise it hands every pin `x`, through `updatePin`, the sign `pinSigns` picks, whose product
with `ω(e)` is the change of the term of `e` in `computeGain(x)`. -/
theorem updateNeighboursEdge_moved (hg : Hypergraph) (he : e ∈ hg.incidentEdges v)
    (h2 : 2 ≤ edgeSize e) (s : TwoWayFM) (hs : s.part = Function.update p₀ v (!p₀ v)) :
    (∀ b, oldSize (pinCountInPartition s.part e b) (!p₀ v) b = pinCountInPartition p₀ e b) ∧
      (pinSigns s.part (p₀ v) (!p₀ v) e = none →
        updateNeighboursEdge hg (p₀ v) (!p₀ v) s e = s ∧
          ∀ x ∈ e.pins, x ≠ v → gainTerm s.part x e = gainTerm p₀ x e) ∧
      ∀ sign, pinSigns s.part (p₀ v) (!p₀ v) e = some sign →
        updateNeighboursEdge hg (p₀ v) (!p₀ v) s e = updatePins hg e sign s ∧
          ∀ x ∈ e.pins, x ≠ v → sign x * e.weight = gainTerm s.part x e - gainTerm p₀ x e := by
  obtain ⟨heg, hv⟩ := (hg.mem_incidentEdges).1 he
  have hsize := hg.edgeSize_lt heg
  have hdelta := fun x (hx : x ∈ e.pins) (hxv : x ≠ v) => @edgeDelta_moved p₀ v e x hv hx hxv h2 hsize
  unfold edgeDelta at hdelta
  rw [updateNeighboursEdge_eq, hs]
  refine ⟨oldSize_moved hv hsize, fun hp => ⟨by rw [hp], fun x hx hxv => ?_⟩,
    fun sign hp => ⟨by rw [hp], fun x hx hxv => by simpa [hp, hx] using hdelta x hx hxv⟩⟩
  have := hdelta x hx hxv
  simp only [hp] at this
  omega

end Iteration

theorem updateNeighboursEdge_moved_path :
    let e : Hyperedge := ⟨0, 1, [0, 1], by decide⟩
    let s := TwoWayFM.create (Function.update pathPartition 1 (!pathPartition 1))
    e ∈ pathHypergraph.incidentEdges 1 ∧ 2 ≤ edgeSize e ∧
      s.part = Function.update pathPartition 1 (!pathPartition 1) ∧
      (pinSigns s.part (pathPartition 1) (!pathPartition 1) e).isSome ∧
      (∀ b, oldSize (pinCountInPartition s.part e b) (!pathPartition 1) b =
          pinCountInPartition pathPartition e b) ∧
      (pinSigns s.part (pathPartition 1) (!pathPartition 1) e = none →
        updateNeighboursEdge pathHypergraph (pathPartition 1) (!pathPartition 1) s e = s ∧
          ∀ x ∈ e.pins, x ≠ 1 → gainTerm s.part x e = gainTerm pathPartition x e) ∧
      ∀ sign, pinSigns s.part (pathPartition 1) (!pathPartition 1) e = some sign →
        updateNeighboursEdge pathHypergraph (pathPartition 1) (!pathPartition 1) s e =
            updatePins pathHypergraph e sign s ∧
          ∀ x ∈ e.pins, x ≠ 1 →
            sign x * e.weight = gainTerm s.part x e - gainTerm pathPartition x e :=
  have he : (⟨0, 1, [0, 1], by decide⟩ : Hyperedge) ∈ pathHypergraph.incidentEdges 1 :=
    (pathHypergraph.mem_incidentEdges).2 ⟨List.mem_cons_self _ _, by decide⟩
  ⟨he, by decide, rfl, by decide, @updateNeighboursEdge_moved pathPartition 1 _ pathHypergraph he
    (by decide) (TwoWayFM.create (Function.update pathPartition 1 (!pathPartition 1))) rfl⟩

section Neighbours

variable (hg : Hypergraph) {p₀ : Nat → Bool} {v x : Nat}

theorem gainTerm_update_of_not_mem {e : Hyperedge} (hv : v ∉ e.pins) (hxv : x ≠ v) (c : Bool) :
    gainTerm (Function.update p₀ v c) x e = gainTerm p₀ x e := by
  simp only [gainTerm, Function.update_noteq hxv, pinCount_update_of_not_mem hv]

theorem isCut_update_of_not_mem {e : Hyperedge} (hv : v ∉ e.pins) (c : Bool) :
    isCut (Function.update p₀ v c) e = isCut p₀ e := by
  simp only [isCut, pinCount_update_of_not_mem hv]

theorem sum_edgeDelta_filter (hxv : x ≠ v) {l : List Hyperedge}
    (hl : ∀ e ∈ l, 2 ≤ edgeSize e ∧ edgeSize e < 2 ^ 32) :
    ((l.filter fun e => v ∈ e.pins).map fun e =>
        edgeDelta (Function.update p₀ v (!p₀ v)) (p₀ v) (!p₀ v) e x).sum =
      ((l.filter fun e => x ∈ e.pins).map (gainTerm (Function.update p₀ v (!p₀ v)) x)).sum -
        ((l.filter fun e => x ∈ e.pins).map (gainTerm p₀ x)).sum := by
  induction l with
  | nil => simp
  | cons e l ih =>
    have ih := ih fun e' he' => hl e' (List.mem_cons_of_mem _ he')
    obtain ⟨he2, hel⟩ := hl e (List.mem_cons_self _ _)
    by_cases hve : v ∈ e.pins <;> by_cases hxe : x ∈ e.pins <;>
      simp only [List.filter_cons, hve, hxe, decide_True, decide_False, if_true,
        Bool.false_eq_true, if_false, List.map_cons, List.sum_cons]
    · have := @edgeDelta_moved p₀ v e x hve hxe hxv he2 hel
      omega
    · have : edgeDelta (Function.update p₀ v (!p₀ v)) (p₀ v) (!p₀ v) e x = 0 := by
        unfold edgeDelta; split <;> simp [hxe]
      omega
    · have := @gainTerm_update_of_not_mem p₀ v x e hve hxv (!p₀ v)
      omega
    · exact ih

/-- Over all of `updateNeighbours`, what the iterations add to the key of a hypernode `x ≠ v` is
the change of its gain. -/
theorem sum_edgeDelta_moved (h2 : ∀ e ∈ hg.edges, 2 ≤ edgeSize e) (hxv : x ≠ v) :
    ((hg.incidentEdges v).map fun e =>
        edgeDelta (Function.update p₀ v (!p₀ v)) (p₀ v) (!p₀ v) e x).sum =
      computeGain hg (Function.update p₀ v (!p₀ v)) x - computeGain hg p₀ x := by
  rw [computeGain_eq_sum, computeGain_eq_sum]
  exact sum_edgeDelta_filter hxv fun e he => ⟨h2 e he, hg.edgeSize_lt he⟩

/-- A hypernode that no firing branch reaches keeps its border status. -/
theorem isBorderNode_moved_of_untouched
    (h : ∀ e ∈ hg.incidentEdges v, x ∈ e.pins →
      pinSigns (Function.update p₀ v (!p₀ v)) (p₀ v) (!p₀ v) e = none) :
    isBorderNode hg (Function.update p₀ v (!p₀ v)) x = isBorderNode hg p₀ x := by
  rw [Bool.eq_iff_iff, isBorderNode_iff, isBorderNode_iff]
  apply exists_congr fun e => and_congr_right fun he => ?_
  obtain ⟨heg, hxe⟩ := (hg.mem_incidentEdges).1 he
  by_cases hve : v ∈ e.pins
  · rw [isCut_of_pinSigns_none hve (hg.edgeSize_lt heg)
      (h e ((hg.mem_incidentEdges).2 ⟨heg, hve⟩) hxe)]
  · rw [isCut_update_of_not_mem hve]

end Neighbours

end KaHyPar
