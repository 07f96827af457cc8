import Mathlib.Data.List.Perm.Subperm
import Mathlib.Algebra.BigOperators.Group.List
import Mathlib.Logic.Function.Basic
import Mathlib.Algebra.Order.Ring.Int

/-!
# The hypergraph

`lib/datastructure/Hypergraph.h` and `partition/Metrics.h` are not among the sources, so what the
two-way FM refiner and the greedy growing partitioner read of them is modelled from the
specification (§3, §4.1):

1. the enabled hypernodes with their weights `c(v)`, and the enabled hyperedges with their ids,
   weights `ω(e)` and pins, inside id ranges of `initialNumNodes` and `initialNumEdges` ids (a
   `HypernodeID` is 32 bits);
2. for the two-way refiner, a partition into blocks 0 and 1, where block 0 is `false` and block 1
   is `true`, so that the source's `b ^ 1` is `!b`;
3. the per-block pin counts `n(e, b)`, which the data structure keeps eagerly (invariant P1) and
   which are computed here from the partition, the cut of `metrics::hyperedgeCut`, and the block
   weights `c(V_b)`.

The one fact everything later rests on is `pinCount_update_of_mem`: moving a pin of `e` shifts
one pin between the two counts of `e`, and a hypernode that is no pin of `e` leaves them alone
(`pinCount_update_of_not_mem`). Last come two counting facts that the termination proofs of both
loops share (`countP_lt_countP`, `lex_lt`).
-/

namespace KaHyPar

/-- Modelled from the spec: a hyperedge with its id, its weight `ω(e)` and its set of pins. -/
structure Hyperedge where
  id : Nat
  weight : Int
  pins : List Nat
  pins_nodup : pins.Nodup

/-- Modelled from the spec: the enabled hypernodes and hyperedges of a hypergraph. Disabled
(contracted) hypernodes and hyperedges keep their ids, so the enabled ones are sublists of the
id ranges. -/
structure Hypergraph where
  initialNumNodes : Nat
  initialNumEdges : Nat
  nodes : List Nat
  nodeWeight : Nat → Int
  edges : List Hyperedge
  nodes_nodup : nodes.Nodup
  node_lt : ∀ v ∈ nodes, v < initialNumNodes
  edge_ids_nodup : (edges.map (·.id)).Nodup
  edge_id_lt : ∀ e ∈ edges, e.id < initialNumEdges
  pin_mem : ∀ e ∈ edges, ∀ p ∈ e.pins, p ∈ nodes
  initialNumNodes_lt : initialNumNodes < 2 ^ 32

/-- `_hg.edgeSize(he)`. -/
def edgeSize (e : Hyperedge) : Nat := e.pins.length

/-- `_hg.pinCountInPartition(he, b)`: the number of pins of `e` in block `b`. -/
def pinCountInPartition (part : Nat → Bool) (e : Hyperedge) (b : Bool) : Nat :=
  e.pins.countP fun p => part p == b

/-- `_hg.changeNodePartition(hn, from, to)` for a call that meets its precondition
`partitionIndex(hn) = from`: the pin counts follow the partition. -/
def changeNodePartition (part : Nat → Bool) (hn : Nat) (_fromPartition toPartition : Bool) : Nat → Bool :=
  Function.update part hn toPartition

/-- A hyperedge is cut when it has pins in both blocks. -/
def isCut (part : Nat → Bool) (e : Hyperedge) : Bool :=
  0 < pinCountInPartition part e false && 0 < pinCountInPartition part e true

namespace Hypergraph

variable (hg : Hypergraph)

/-- `forall_incident_hyperedges(he, hn, _hg)`: the enabled hyperedges with `hn` among their pins. -/
def incidentEdges (hn : Nat) : List Hyperedge :=
  hg.edges.filter fun e => hn ∈ e.pins

/-- `_hg.numNodes()`: the number of enabled hypernodes. -/
def numNodes : Nat := hg.nodes.length

/-- `_hg.numEdges()`: the number of enabled hyperedges. -/
def numEdges : Nat := hg.edges.length

/-- Modelled from the spec: `metrics::hyperedgeCut`, the weight of the cut hyperedges. -/
def hyperedgeCut (part : Nat → Bool) : Int :=
  (hg.edges.map fun e => if isCut part e then e.weight else 0).sum

/-- The true weight `c(V_b)` of block `b`. -/
def blockWeight (part : Nat → Bool) (b : Bool) : Int :=
  (hg.nodes.map fun v => if part v = b then hg.nodeWeight v else 0).sum

theorem mem_incidentEdges {hn : Nat} {e : Hyperedge} :
    e ∈ hg.incidentEdges hn ↔ e ∈ hg.edges ∧ hn ∈ e.pins := by
  simp [incidentEdges]

/-- Every hyperedge has fewer than `2 ^ 32` pins, so a pin count fits a `HypernodeID`. -/
theorem edgeSize_lt {e : Hyperedge} (he : e ∈ hg.edges) : edgeSize e < 2 ^ 32 := by
  have hsub : List.Subperm e.pins (List.range hg.initialNumNodes) :=
    e.pins_nodup.subperm fun p hp => List.mem_range.2 (hg.node_lt p (hg.pin_mem e he p hp))
  have := hsub.length_le
  simp only [List.length_range] at this
  exact lt_of_le_of_lt this hg.initialNumNodes_lt

end Hypergraph

/-! ## Pin counts -/

section PinCount

variable (part : Nat → Bool) (e : Hyperedge)

/-- The two pin counts of a hyperedge add up to its size (P1). -/
theorem pinCount_false_add_true :
    pinCountInPartition part e false + pinCountInPartition part e true = edgeSize e := by
  have h := List.length_eq_countP_add_countP (fun p => part p == false) e.pins
  simp only [pinCountInPartition, edgeSize, h, beq_true, beq_false]
  congr 1
  exact List.countP_congr fun p _ => by simp

theorem pinCount_pos_of_mem {hn : Nat} (h : hn ∈ e.pins) :
    0 < pinCountInPartition part e (part hn) :=
  List.countP_pos_iff.2 ⟨hn, h, by simp⟩

end PinCount

/-- Changing the block of a hypernode that is not a pin leaves the counts alone. -/
theorem pinCount_update_of_not_mem {part : Nat → Bool} {e : Hyperedge} {hn : Nat}
    (h : hn ∉ e.pins) (toPartition b : Bool) :
    pinCountInPartition (Function.update part hn toPartition) e b = pinCountInPartition part e b :=
  List.countP_congr fun p hp => by rw [Function.update_noteq (ne_of_mem_of_not_mem hp h)]

/-- Changing the block of a pin moves one unit between the counts of its old and new block. -/
theorem countP_update_of_mem {l : List Nat} (hl : l.Nodup) {hn : Nat} (h : hn ∈ l)
    (part : Nat → Bool) (toPartition b : Bool) :
    l.countP (fun p => Function.update part hn toPartition p == b) + (if part hn = b then 1 else 0) =
      l.countP (fun p => part p == b) + (if toPartition = b then 1 else 0) := by
  induction l with
  | nil => simp at h
  | cons p ps ih =>
    obtain ⟨hp, hps⟩ := List.nodup_cons.1 hl
    by_cases hpn : p = hn
    · subst hpn
      have hcongr := @pinCount_update_of_not_mem part ⟨0, 0, ps, hps⟩ p hp toPartition b
      simp only [pinCountInPartition] at hcongr
      simp only [List.countP_cons, hcongr, Function.update_same]
      cases toPartition <;> cases b <;> cases part p <;> simp
    · have hmem : hn ∈ ps := (List.mem_cons.1 h).resolve_left (Ne.symm hpn)
      simp only [List.countP_cons, Function.update_noteq hpn]
      have := ih hps hmem
      omega

theorem pinCount_update_of_mem {part : Nat → Bool} {e : Hyperedge} {hn : Nat}
    (h : hn ∈ e.pins) (toPartition b : Bool) :
    pinCountInPartition (Function.update part hn toPartition) e b + (if part hn = b then 1 else 0) =
      pinCountInPartition part e b + (if toPartition = b then 1 else 0) :=
  countP_update_of_mem e.pins_nodup h part toPartition b

/-! ## Block weights -/

/-- Changing the block of a listed hypernode moves its weight between the two block sums. -/
theorem sum_update_of_mem {l : List Nat} (hl : l.Nodup) {hn : Nat} (h : hn ∈ l)
    (part : Nat → Bool) (toPartition b : Bool) (w : Nat → Int) :
    (l.map fun v => if Function.update part hn toPartition v = b then w v else 0).sum +
        (if part hn = b then w hn else 0) =
      (l.map fun v => if part v = b then w v else 0).sum +
        (if toPartition = b then w hn else 0) := by
  induction l with
  | nil => simp at h
  | cons p ps ih =>
    obtain ⟨hp, hps⟩ := List.nodup_cons.1 hl
    by_cases hpn : p = hn
    · subst hpn
      have hcongr : (ps.map fun v => if Function.update part p toPartition v = b then w v else 0) =
          ps.map fun v => if part v = b then w v else 0 :=
        List.map_congr_left fun v hv => by
          rw [Function.update_noteq (ne_of_mem_of_not_mem hv hp)]
      simp only [List.map_cons, List.sum_cons, hcongr, Function.update_same]
      split_ifs <;> omega
    · have hmem : hn ∈ ps := (List.mem_cons.1 h).resolve_left (Ne.symm hpn)
      simp only [List.map_cons, List.sum_cons, Function.update_noteq hpn]
      have := ih hps hmem
      omega

theorem Hypergraph.blockWeight_update (hg : Hypergraph) {part : Nat → Bool} {hn : Nat}
    (h : hn ∈ hg.nodes) (toPartition b : Bool) :
    hg.blockWeight (Function.update part hn toPartition) b +
        (if part hn = b then hg.nodeWeight hn else 0) =
      hg.blockWeight part b + (if toPartition = b then hg.nodeWeight hn else 0) :=
  sum_update_of_mem hg.nodes_nodup h part toPartition b hg.nodeWeight

/-! ## Counting down

The two loops that terminate by a count, the greedy growing loop and the forward loop of the
refiner, share these. -/

/-- A strict inclusion of predicates on a list, witnessed by one element, counts strictly fewer. -/
theorem countP_lt_countP {α : Type} {l : List α} {p q : α → Bool} (h : ∀ x ∈ l, p x → q x)
    {y : α} (hy : y ∈ l) (hq : q y) (hp : ¬p y) : l.countP p < l.countP q := by
  induction l with
  | nil => cases hy
  | cons a l ih =>
    have hle := List.countP_mono_left fun x hx => h x (List.mem_cons_of_mem a hx)
    have ha := h a (List.mem_cons_self a l)
    simp only [List.countP_cons]
    rcases List.mem_cons.1 hy with rfl | hy
    · have hp' : p y = false := by simpa using hp
      simp only [hp', hq, Bool.false_eq_true, ↓reduceIte]; omega
    · have := ih (fun x hx => h x (List.mem_cons_of_mem a hx)) hy
      by_cases hpa : p a
      · rw [if_pos hpa, if_pos (ha hpa)]; omega
      · rw [if_neg hpa]; split <;> omega

/-- Lexicographic order on pairs whose second part stays below `B`. -/
theorem lex_lt {a a' e e' B : Nat} (ha : a' ≤ a) (he' : e' < B) (h : a' < a ∨ e' < e) :
    a' * B + e' < a * B + e := by
  rcases h with h | h
  · have := Nat.mul_le_mul_right B h
    rw [Nat.succ_mul] at this
    omega
  · have := Nat.mul_le_mul_right B ha
    omega

end KaHyPar
