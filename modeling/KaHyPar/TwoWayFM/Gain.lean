import KaHyPar.TwoWayFM.Refiner

/-!
# `computeGain` is the change of the cut

`computeGain(hn)` sums one term per incident hyperedge (`computeGain_eq_sum`). When every
hyperedge has at least two pins, the term of a hyperedge is exactly what moving `hn` to the
other block takes off its contribution to the cut (`cutTerm_sub_update`), and hyperedges without
`hn` keep theirs. Summed over the hyperedges this is `computeGain_eq_cut_difference`.
-/

namespace KaHyPar

/-- The term of the incident hyperedge `he` in `computeGain(hn)`. -/
def gainTerm (part : Nat → Bool) (hn : Nat) (he : Hyperedge) : Int :=
  if pinCountInPartition part he (!part hn) = 0 then -he.weight
  else if pinCountInPartition part he (part hn) = 1 then he.weight
  else 0

/-- The contribution of `he` to `metrics::hyperedgeCut`. -/
def cutTerm (part : Nat → Bool) (he : Hyperedge) : Int :=
  if isCut part he then he.weight else 0

theorem pinCount_add_not (part : Nat → Bool) (e : Hyperedge) (b : Bool) :
    pinCountInPartition part e b + pinCountInPartition part e (!b) = edgeSize e := by
  cases b
  · exact pinCount_false_add_true part e
  · rw [Nat.add_comm]; exact pinCount_false_add_true part e

theorem isCut_iff (part : Nat → Bool) (e : Hyperedge) (b : Bool) :
    isCut part e = true ↔
      0 < pinCountInPartition part e b ∧ 0 < pinCountInPartition part e (!b) := by
  cases b <;> simp [isCut, and_comm]

theorem cutTerm_eq (part : Nat → Bool) (e : Hyperedge) (b : Bool) :
    cutTerm part e = if 0 < pinCountInPartition part e b ∧ 0 < pinCountInPartition part e (!b)
      then e.weight else 0 := by
  simp only [cutTerm, isCut_iff part e b]

theorem isBorderNode_iff (hg : Hypergraph) (part : Nat → Bool) (hn : Nat) :
    isBorderNode hg part hn = true ↔ ∃ e ∈ hg.incidentEdges hn, isCut part e = true := by
  simp [isBorderNode, isCut]

theorem computeGain_eq_sum (hg : Hypergraph) (part : Nat → Bool) (hn : Nat) :
    computeGain hg part hn = ((hg.incidentEdges hn).map (gainTerm part hn)).sum := by
  suffices ∀ (l : List Hyperedge) (g : Int), l.foldl (fun gain he =>
      if pinCountInPartition part he (!part hn) = 0 then gain - he.weight
      else if pinCountInPartition part he (part hn) = 1 then gain + he.weight
      else gain) g = g + (l.map (gainTerm part hn)).sum by
    simpa using this (hg.incidentEdges hn) 0
  intro l
  induction l with
  | nil => simp
  | cons e l ih =>
    intro g
    simp only [List.foldl_cons, ih, List.map_cons, List.sum_cons, gainTerm]
    split_ifs <;> omega

/-- A hyperedge without `hn` keeps its contribution when `hn` changes block. -/
theorem cutTerm_update_of_not_mem {part : Nat → Bool} {e : Hyperedge} {hn : Nat}
    (h : hn ∉ e.pins) (b : Bool) : cutTerm (Function.update part hn b) e = cutTerm part e := by
  simp only [cutTerm, isCut, pinCount_update_of_not_mem h]

/-- Moving a pin `hn` of a hyperedge with two or more pins to the other block lowers the
hyperedge's contribution to the cut by its term in `computeGain(hn)`. -/
theorem cutTerm_sub_update {part : Nat → Bool} {e : Hyperedge} {hn : Nat} (h : hn ∈ e.pins)
    (h2 : 2 ≤ edgeSize e) :
    cutTerm part e - cutTerm (Function.update part hn (!part hn)) e = gainTerm part hn e := by
  have hs := @pinCount_update_of_mem part e hn h (!part hn) (part hn)
  have ht := @pinCount_update_of_mem part e hn h (!part hn) (!part hn)
  have hsize := pinCount_add_not part e (part hn)
  have hsize' := pinCount_add_not (Function.update part hn (!part hn)) e (part hn)
  have hpos := pinCount_pos_of_mem part e h
  simp only [Bool.not_eq_self, Bool.eq_not_self, if_true, if_false] at hs ht
  rw [cutTerm_eq part e (part hn), cutTerm_eq _ e (part hn), gainTerm]
  split_ifs <;> omega

section Cut

variable (part : Nat → Bool) (hn : Nat)

/-- Summed over hyperedges with two or more pins: the cut before minus the cut after moving `hn`
is the sum of its gain terms. -/
theorem sum_cutTerm_sub_update {l : List Hyperedge} (h2 : ∀ e ∈ l, 2 ≤ edgeSize e) :
    (l.map (cutTerm part)).sum - (l.map (cutTerm (Function.update part hn (!part hn)))).sum =
      ((l.filter fun e => hn ∈ e.pins).map (gainTerm part hn)).sum := by
  induction l with
  | nil => simp
  | cons e l ih =>
    have ih := ih fun e' he' => h2 e' (List.mem_cons_of_mem _ he')
    by_cases he : hn ∈ e.pins
    · have := @cutTerm_sub_update part e hn he (h2 e (List.mem_cons_self _ _))
      simp only [List.map_cons, List.sum_cons, List.filter_cons, he, decide_True, if_true]
      omega
    · have := @cutTerm_update_of_not_mem part e hn he (!part hn)
      simp only [List.map_cons, List.sum_cons, List.filter_cons, he, decide_False, this,
        Bool.false_eq_true, if_false]
      omega

/-- On hyperedges with two or more pins around `hn`, no term is both `+ω` and `-ω`: the gain
terms add up to the two weight sums of the spec. -/
theorem sum_gainTerm_eq {l : List Hyperedge} (hl : ∀ e ∈ l, hn ∈ e.pins ∧ 2 ≤ edgeSize e) :
    (l.map (gainTerm part hn)).sum =
      ((l.filter fun e => pinCountInPartition part e (part hn) = 1).map (·.weight)).sum -
        ((l.filter fun e => pinCountInPartition part e (!part hn) = 0).map (·.weight)).sum := by
  induction l with
  | nil => simp
  | cons e l ih =>
    have ih := ih fun e' he' => hl e' (List.mem_cons_of_mem _ he')
    obtain ⟨hmem, h2⟩ := hl e (List.mem_cons_self _ _)
    have hsize := pinCount_add_not part e (part hn)
    simp only [List.map_cons, List.sum_cons, List.filter_cons, gainTerm, decide_eq_true_eq]
    split_ifs <;> (try simp only [List.map_cons, List.sum_cons]) <;> omega

/-- The cut before minus the cut after moving `hn` to the other block is `computeGain(hn)`. -/
theorem hyperedgeCut_sub_update (hg : Hypergraph) (h2 : ∀ e ∈ hg.edges, 2 ≤ edgeSize e) :
    hg.hyperedgeCut part - hg.hyperedgeCut (Function.update part hn (!part hn)) =
      computeGain hg part hn := by
  rw [computeGain_eq_sum]
  exact sum_cutTerm_sub_update part hn h2

/-- `computeGain(hn)` is the cut before minus the cut after moving `hn` to the other block, and
the weight of the incident hyperedges in which `hn` is alone in its block minus the weight of
those with no pin in the other block. -/
theorem computeGain_eq_cut_difference (hg : Hypergraph) (h2 : ∀ e ∈ hg.edges, 2 ≤ edgeSize e) :
    computeGain hg part hn =
        hg.hyperedgeCut part - hg.hyperedgeCut (changeNodePartition part hn (part hn) (!part hn)) ∧
      computeGain hg part hn =
        (((hg.incidentEdges hn).filter fun e =>
            pinCountInPartition part e (part hn) = 1).map (·.weight)).sum -
          (((hg.incidentEdges hn).filter fun e =>
            pinCountInPartition part e (!part hn) = 0).map (·.weight)).sum := by
  have hinc : ∀ e ∈ hg.incidentEdges hn, hn ∈ e.pins ∧ 2 ≤ edgeSize e := fun e he =>
    ⟨((hg.mem_incidentEdges).1 he).2, h2 e ((hg.mem_incidentEdges).1 he).1⟩
  exact ⟨(hyperedgeCut_sub_update part hn hg h2).symm,
    (computeGain_eq_sum hg part hn).trans (sum_gainTerm_eq part hn hinc)⟩

end Cut

/-- A path of four unit hypernodes `0 - 1 - 2 - 3` joined by unit hyperedges. -/
def pathHypergraph : Hypergraph where
  initialNumNodes := 4
  initialNumEdges := 3
  nodes := [0, 1, 2, 3]
  nodeWeight := fun _ => 1
  edges := [⟨0, 1, [0, 1], by decide⟩, ⟨1, 1, [1, 2], by decide⟩, ⟨2, 1, [2, 3], by decide⟩]
  nodes_nodup := by decide
  node_lt := by decide
  edge_ids_nodup := by decide
  edge_id_lt := by decide
  pin_mem := by decide
  initialNumNodes_lt := by decide

/-- The split `0 2 | 1 3` of `pathHypergraph`: every hyperedge is cut. -/
def pathPartition : Nat → Bool := fun x => x % 2 == 1

theorem computeGain_eq_cut_difference_path :
    (∀ e ∈ pathHypergraph.edges, 2 ≤ edgeSize e) ∧
      (computeGain pathHypergraph pathPartition 1 =
          pathHypergraph.hyperedgeCut pathPartition -
            pathHypergraph.hyperedgeCut
              (changeNodePartition pathPartition 1 (pathPartition 1) (!pathPartition 1)) ∧
        computeGain pathHypergraph pathPartition 1 =
          (((pathHypergraph.incidentEdges 1).filter fun e =>
              pinCountInPartition pathPartition e (pathPartition 1) = 1).map (·.weight)).sum -
            (((pathHypergraph.incidentEdges 1).filter fun e =>
              pinCountInPartition pathPartition e (!pathPartition 1) = 0).map (·.weight)).sum) :=
  ⟨by decide, computeGain_eq_cut_difference pathPartition 1 pathHypergraph (by decide)⟩

end KaHyPar
