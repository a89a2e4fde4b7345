import Mathlib
import PatternAutomata.Automaton.Subset
import PatternAutomata.Proofs.Construction
import PatternAutomata.Proofs.Forks

/-!
# The shape of automata

An automaton of a tree is as simple as Thompson's construction promises. A node either reads or goes on
without reading, by at most two epsilons, and marker nodes only go on. What a node reads is a separated
list of ranges, which all lead to the same node. Nothing leaves the final node, and all other nodes can be
reached from the entry, since those that cannot are not numbered.
-/

namespace PatternAutomata

open PatternAutomata.Graph CharRange

namespace Fragment

variable {f a b : Fragment} {base number p q : Nat} {o : Option Char}

theorem rangeEdges_link {labels : List Label} : (link base labels).rangeEdges p =
    if p = base then (labels.filterMap Label.range?).map (·, base + 1) else [] := by
  simp only [rangeEdges, link, List.filterMap_map, Function.comp_def, eq_comm (b := p)]
  split
  · rw [List.map_filterMap]
  · simp

theorem rangeEdges_choice :
    (choice base a b).rangeEdges p = a.rangeEdges p ++ b.rangeEdges p := by
  simp [rangeEdges, choice, Label.range?]

theorem rangeEdges_sequence : (sequence a b).rangeEdges p = a.rangeEdges p ++ b.rangeEdges p := by
  simp [rangeEdges, sequence, Label.range?]

theorem rangeEdges_rounds {kind : Repetition} : (rounds base kind a).rangeEdges p = a.rangeEdges p := by
  cases kind <;> simp [rangeEdges, rounds, Label.range?, Repetition.maySkip, Repetition.mayLoop]

theorem rangeEdges_marked : (marked base number a).rangeEdges p = a.rangeEdges p := by
  simp [rangeEdges, marked, Label.range?]

/-- A fragment reads at its own nodes only. -/
theorem rangeEdges_eq_nil (h : f.Scoped base) (hp : p < base ∨ f.next ≤ p) : f.rangeEdges p = [] := by
  rw [List.eq_nil_iff_forall_not_mem]
  rintro ⟨r, q⟩ hr
  have := h.edge_mem _ (mem_rangeEdges.mp hr)
  dsimp only at this
  omega

/-- Nodes have few epsilons, read separated ranges, and read nothing where a marker stands. -/
structure Simple (f : Fragment) : Prop where
  epsilons_le : ∀ p, (f.epsilonTargets p).length ≤ 2
  separated : ∀ p, ((f.rangeEdges p).map Prod.fst).Pairwise Separated
  silent : ∀ p m, f.marker p = some m → f.rangeEdges p = []

theorem simple_link_epsilon : (link base [.epsilon]).Simple := by
  refine ⟨fun p => ?_, fun p => ?_, fun p m hm => by cases hm⟩
  · rw [epsilonTargets_link]
    split <;> simp
  · rw [rangeEdges_link]
    split <;> exact .nil

theorem simple_link_ranges {ranges : List CharRange} (h : ranges.Pairwise Separated) :
    (link base (ranges.map .range)).Simple := by
  refine ⟨fun p => ?_, fun p => ?_, fun p m hm => by cases hm⟩
  · rw [epsilonTargets_link]
    split <;> simp [List.filter_map, Function.comp_def]
  · rw [rangeEdges_link]
    split
    · simpa [List.filterMap_map, Function.comp_def, Label.range?] using h
    · exact .nil

/-- The ranges of two fragments side by side are those of the one that a node belongs to. -/
theorem Simple.append (ha : a.Simple) (hb : b.Simple) (hsa : a.Scoped base) (hsb : b.Scoped a.next)
    (p : Nat) : ((a.rangeEdges p ++ b.rangeEdges p).map Prod.fst).Pairwise Separated ∧
      ∀ m, (a.marker p).or (b.marker p) = some m → a.rangeEdges p ++ b.rangeEdges p = [] := by
  by_cases hp : p < a.next
  · rw [rangeEdges_eq_nil hsb (.inl hp), List.append_nil]
    refine ⟨ha.separated p, fun m hm => ?_⟩
    rcases Option.or_eq_some_iff.mp hm with hm | ⟨-, hm⟩
    · exact ha.silent p m hm
    · have := hsb.mem_of_marker hm
      omega
  · rw [rangeEdges_eq_nil hsa (.inr (by omega)), List.nil_append]
    refine ⟨hb.separated p, fun m hm => ?_⟩
    rcases Option.or_eq_some_iff.mp hm with hm | ⟨-, hm⟩
    · have := hsa.mem_of_marker hm
      omega
    · exact hb.silent p m hm

theorem Simple.choice (ha : a.Simple) (hb : b.Simple) (hsa : a.Scoped (base + 2))
    (hsb : b.Scoped a.next) : (choice base a b).Simple := by
  have haentry := hsa.entry_mem
  have haexit := hsa.exit_mem
  have hbentry := hsb.entry_mem
  have hbexit := hsb.exit_mem
  refine ⟨fun p => ?_, fun p => ?_, fun p m hm => ?_⟩
  · have haeps := ha.epsilons_le p
    have hbeps := hb.epsilons_le p
    have hanil := epsilonTargets_eq_nil (p := p) hsa
    have hbnil := epsilonTargets_eq_nil (p := p) hsb
    rw [epsilonTargets_choice]
    grind
  · rw [rangeEdges_choice]
    exact (ha.append hb hsa hsb p).1
  · rw [rangeEdges_choice]
    exact (ha.append hb hsa hsb p).2 m (marker_choice ▸ hm)

theorem Simple.sequence (ha : a.Simple) (hb : b.Simple) (hsa : a.Scoped base)
    (hsb : b.Scoped a.next) : (sequence a b).Simple := by
  have haexit := hsa.exit_mem
  refine ⟨fun p => ?_, fun p => ?_, fun p m hm => ?_⟩
  · have haeps := ha.epsilons_le p
    have hbeps := hb.epsilons_le p
    have hanil := epsilonTargets_eq_nil (p := p) hsa
    have hbnil := epsilonTargets_eq_nil (p := p) hsb
    rw [epsilonTargets_sequence]
    grind
  · rw [rangeEdges_sequence]
    exact (ha.append hb hsa hsb p).1
  · rw [rangeEdges_sequence]
    exact (ha.append hb hsa hsb p).2 m (marker_sequence ▸ hm)

theorem Simple.rounds (ha : a.Simple) (hsa : a.Scoped (base + 2)) (kind : Repetition) :
    (rounds base kind a).Simple := by
  have haentry := hsa.entry_mem
  have haexit := hsa.exit_mem
  refine ⟨fun p => ?_, fun p => ?_, fun p m hm => ?_⟩
  · have haeps := ha.epsilons_le p
    have hanil := epsilonTargets_eq_nil (p := p) hsa
    rw [epsilonTargets_rounds]
    grind
  · rw [rangeEdges_rounds]
    exact ha.separated p
  · rw [rangeEdges_rounds]
    exact ha.silent p m hm

theorem Simple.marked (ha : a.Simple) (hsa : a.Scoped (base + 4)) (number : Nat) :
    (marked base number a).Simple := by
  have haentry := hsa.entry_mem
  have haexit := hsa.exit_mem
  refine ⟨fun p => ?_, fun p => ?_, fun p m hm => ?_⟩
  · have haeps := ha.epsilons_le p
    have hanil := epsilonTargets_eq_nil (p := p) hsa
    rw [epsilonTargets_marked]
    grind
  · rw [rangeEdges_marked]
    exact ha.separated p
  · rw [rangeEdges_marked]
    rw [marker_marked] at hm
    by_cases hp : p < base + 4
    · exact rangeEdges_eq_nil hsa (.inl hp)
    · rw [if_neg (by omega), if_neg (by omega)] at hm
      exact ha.silent p m hm

theorem notNewline_separated : notNewline.Pairwise Separated :=
  complement_separated (List.pairwise_singleton _ _)

theorem simple_ofPattern (pattern : Pattern) (h : ofPattern pattern base = .ok f) : f.Simple := by
  induction pattern generalizing base f with
  | empty =>
    cases h
    exact simple_link_epsilon
  | literal c =>
    cases h
    exact simple_link_ranges (List.pairwise_singleton _ (single c))
  | charClass cls =>
    obtain ⟨ranges, hranges, rfl⟩ := exists_of_map_eq_ok h
    exact simple_link_ranges (CharClass.ranges_separated hranges)
  | union left right ihl ihr =>
    obtain ⟨a, b, ha, hb, rfl⟩ := of_union_eq_ok h
    exact (ihl ha).choice (ihr hb) (ofPattern_spec left ha).1 (ofPattern_spec right hb).1
  | concat left right ihl ihr =>
    obtain ⟨a, b, ha, hb, rfl⟩ := of_concat_eq_ok h
    exact (ihl ha).sequence (ihr hb) (ofPattern_spec left ha).1 (ofPattern_spec right hb).1
  | repeated kind inner ih =>
    obtain ⟨a, ha, rfl⟩ := exists_of_map_eq_ok h
    exact (ih ha).rounds (ofPattern_spec inner ha).1 kind
  | group number inner ih =>
    obtain ⟨a, ha, rfl⟩ := exists_of_map_eq_ok h
    exact (ih ha).marked (ofPattern_spec inner ha).1 number
  | anchored left right inner ih =>
    cases left with
    | true =>
      obtain ⟨a, ha, rfl⟩ := exists_of_map_eq_ok h
      exact (ih ha).marked (ofPattern_spec inner ha).1 0
    | false =>
      obtain ⟨a, ha, rfl⟩ := exists_of_map_eq_ok h
      have hsa := (ofPattern_spec inner ha).1
      have hrun : (runUp base).Simple :=
        (simple_link_ranges notNewline_separated).rounds (Scoped.link _) .star
      exact hrun.sequence ((ih ha).marked hsa 0) scoped_runUp (hsa.marked 0)

/-! ### Numbering -/

theorem exists_graph_of_mem_rangeEdges {r : CharRange} (h : (r, q) ∈ f.rangeEdges p) :
    f.graph p (some r.lo) q :=
  graph_some.mpr ⟨r, h, r.lo_mem⟩

theorem exists_graph_of_mem_successors (h : q ∈ f.successors p) : ∃ o, f.graph p o q := by
  rcases List.mem_append.mp h with h | h
  · obtain ⟨⟨r, q⟩, hr, rfl⟩ := List.mem_map.mp h
    exact ⟨_, exists_graph_of_mem_rangeEdges hr⟩
  · exact ⟨none, graph_none.mpr h⟩

/-- The numbered nodes are those that can be reached from the entry, and the exit. -/
theorem reachable_of_mem_order (h : f.Scoped base) (hp : p ∈ f.order) :
    p = f.exit ∨ ∃ w, f.graph.Spells f.entry w p := by
  obtain ⟨log, final, ht, horder⟩ := f.exists_traversal
  rw [horder] at hp
  obtain ⟨x, hx, rfl⟩ := List.mem_map.mp hp
  refine ht.forall_log (fun id => id.val = f.exit ∨ ∃ w, f.graph.Spells f.entry w id.val) ?_ ?_ x hx
  · intro id _ next hid hv id' hid'
    rw [expand, Except.ok.injEq, Prod.mk.injEq] at hv
    rw [← hv.2, List.mem_filterMap] at hid'
    obtain ⟨q, hq, hnode⟩ := hid'
    obtain ⟨o, hs⟩ := exists_graph_of_mem_successors hq
    simp only [node?, Option.dite_none_right_eq_some, Option.some.injEq] at hnode
    obtain ⟨-, rfl⟩ := hnode
    rcases hid with hid | ⟨w, hw⟩
    · exact ((h.step_ne hs).1 hid).elim
    · exact .inr ⟨_, hw.trans (.single hs)⟩
  · intro id hid
    obtain ⟨q, hq, hnode⟩ := List.mem_filterMap.mp hid
    simp only [node?, Option.dite_none_right_eq_some, Option.some.injEq] at hnode
    obtain ⟨-, rfl⟩ := hnode
    simp only [List.mem_cons, List.not_mem_nil, or_false] at hq
    rcases hq with rfl | rfl
    · exact .inr ⟨[], .refl _⟩
    · exact .inl rfl

/-- The entry has the first number. -/
theorem number_entry (h : f.Scoped base) : f.number f.entry = 0 := by
  obtain ⟨log, final, ht, horder⟩ := f.exists_traversal
  have hentry : f.node? f.entry = some ⟨f.entry, h.entry_mem.2⟩ := dif_pos h.entry_mem.2
  rw [List.filterMap_cons_some hentry] at ht
  cases ht with
  | skip hs hm =>
    rw [get_noMarks] at hm
    cases hm
  | visit hs hm hv ht => rw [number, horder, List.map_cons, List.idxOf_cons_self]

end Fragment

/-- A node reads or goes on, in few ways, and reads to one node only. -/
structure Node.Simple (node : Node) : Prop where
  reads_or_goes : node.transitions = [] ∨ node.epsilons = []
  epsilons_le : node.epsilons.length ≤ 2
  silent : node.marker ≠ none → node.transitions = []
  separated : node.ranges.Pairwise Separated
  common_target : ∀ t ∈ node.transitions, ∀ u ∈ node.transitions, t.target = u.target

/-- Each transition can be taken, at least on the first character of its range. -/
theorem Node.leadsTo_of_mem_transitions {node : Node} {t : Transition} (ht : t ∈ node.transitions) :
    node.LeadsTo (some t.range.lo) t.target :=
  List.mem_map.mpr ⟨t, List.mem_filter.mpr ⟨ht, decide_eq_true t.range.lo_mem⟩, rfl⟩

/-- All that the construction promises of an automaton without regard to what it reads. -/
structure Nfa.Simple (nfa : Nfa) : Prop where
  entry_eq : nfa.entry = 0
  id_eq : ∀ (p : Nat) (node : Node), nfa.nodes[p]? = some node → node.id = p
  final_lt : nfa.finalId < nfa.size
  isFinal_iff : ∀ (p : Nat) (node : Node), nfa.nodes[p]? = some node →
    (node.isFinal = true ↔ p = nfa.finalId)
  final_stuck : ∀ node, nfa.nodes[nfa.finalId]? = some node →
    node.transitions = [] ∧ node.epsilons = []
  target_lt : ∀ (p : Nat) (node : Node), nfa.nodes[p]? = some node →
    (∀ t ∈ node.transitions, t.target < nfa.size) ∧ ∀ q ∈ node.epsilons, q < nfa.size
  reachable : ∀ p < nfa.size, p ≠ nfa.finalId → ∃ w, nfa.graph.Spells nfa.entry w p
  node_simple : ∀ (p : Nat) (node : Node), nfa.nodes[p]? = some node → node.Simple
  group_lt : ∀ (p : Nat) (node : Node) (m : Marker), nfa.nodes[p]? = some node →
    node.marker = some m → m.group < nfa.groupCount

namespace Fragment

variable {f : Fragment} {base p : Nat}

theorem node_simple (hs : f.Simple) (hf : f.Forks) (p : Nat) : (f.nodeOf p).Simple := by
  refine ⟨?_, ?_, fun hm => ?_, ?_, fun t ht u hu => ?_⟩
  · by_contra hboth
    rw [not_or, nodeOf, List.map_eq_nil_iff, List.map_eq_nil_iff] at hboth
    obtain ⟨⟨r, q⟩, hr⟩ := List.exists_mem_of_ne_nil _ hboth.1
    obtain ⟨q', hq'⟩ := List.exists_mem_of_ne_nil _ hboth.2
    exact (hf.sole _ _ _ _ _ (exists_graph_of_mem_rangeEdges hr) (graph_none.mpr hq')).1 rfl
  · rw [nodeOf, List.length_map]
    exact hs.epsilons_le p
  · obtain ⟨m, hm⟩ := Option.ne_none_iff_exists'.mp hm
    rw [nodeOf, hs.silent p m hm, List.map_nil]
  · rw [Node.ranges, nodeOf, List.map_map]
    exact hs.separated p
  · obtain ⟨⟨r, q⟩, hr, rfl⟩ := List.mem_map.mp ht
    obtain ⟨⟨r', q'⟩, hr', rfl⟩ := List.mem_map.mp hu
    have heq := (hf.sole _ _ _ _ _ (exists_graph_of_mem_rangeEdges hr)
      (exists_graph_of_mem_rangeEdges hr')).2
    rw [heq]

theorem Simple.toNfa (hs : f.Simple) (h : f.Scoped base) (hf : f.Forks) (e : Bool) :
    (f.toNfa e).Simple := by
  have hw := wellFormed_toNfa h e
  have hstuck := final_stuck_toNfa h e
  refine ⟨number_entry h, hw.id_eq, ?_, hw.isFinal_iff, fun node hnode => ?_, fun i node hnode => ?_,
    fun i hi hne => ?_, fun i node hnode => ?_, fun i node m hnode hm => hw.group_lt i m ?_⟩
  · rw [size_toNfa]
    exact List.idxOf_lt_length_of_mem (exit_mem_order h)
  · refine ⟨List.eq_nil_iff_forall_not_mem.mpr fun t ht => ?_,
      List.eq_nil_iff_forall_not_mem.mpr fun q hq => hstuck none q ⟨node, hnode, hq⟩⟩
    exact hstuck _ _ ⟨node, hnode, Node.leadsTo_of_mem_transitions ht⟩
  · refine ⟨fun t ht => ?_, fun q hq => hw.step_lt i none q ⟨node, hnode, hq⟩⟩
    exact hw.step_lt i _ _ ⟨node, hnode, Node.leadsTo_of_mem_transitions ht⟩
  · obtain ⟨p, hp, rfl, -⟩ := nodes_toNfa_eq_some_iff.mp (Array.getElem?_eq_getElem hi)
    rcases reachable_of_mem_order h hp with rfl | ⟨w, hw⟩
    · exact (hne rfl).elim
    · exact ⟨w, (spells_toNfa h (entry_mem_order h) hp).mpr hw⟩
  · obtain ⟨p, -, -, rfl⟩ := nodes_toNfa_eq_some_iff.mp hnode
    exact node_simple hs hf p
  · rw [Nfa.marker, hnode]
    exact hm

end Fragment

/-- The automaton of a tree is simple, whatever the tree is, and the count of its groups is a word. -/
theorem NumberedTree.simple_toNfa {tree : NumberedTree} {nfa : Nfa} (h : tree.toNfa = .ok nfa) :
    nfa.Simple ∧ nfa.groupCount < UInt64.size := by
  have hcount := groupCount_lt h
  rw [toNfa_eq] at h
  obtain ⟨root, f, anchoredEnd, hf, rfl, -⟩ := Pattern.exists_fragment h
  exact ⟨(Fragment.simple_ofPattern root hf).toNfa (Fragment.ofPattern_spec root hf).1
    (Fragment.forks_ofPattern root hf) anchoredEnd, hcount⟩

/-- Rounds of a class or a group lead to a class without items, and nothing gets past that one. The final
node is numbered behind the others, and the group that is not reached is counted. -/
theorem NumberedTree.simple_toNfa_unmatchable : ∃ (tree : NumberedTree) (nfa : Nfa),
    tree.pattern = .concat
      (.repeated .star (.union
        (.charClass ⟨[.range 'd' 'f', .range 'a' 'c', .single 'x'], false⟩) (.group 7 (.literal 'b'))))
      (.concat (.charClass ⟨[], false⟩) (.group 0xfffffffffffffffe (.repeated .plus .empty))) ∧
    tree.toNfa = .ok nfa ∧ nfa.Simple ∧ nfa.finalId = 15 ∧ nfa.groupCount = 0xffffffffffffffff ∧
    (nfa.nodes.toList.map fun node =>
      (node.transitions.map fun t => (t.range.lo, t.range.hi, t.target), node.epsilons)) =
      [([], [1]), ([], [2]), ([], [3, 7]), ([], [4, 9]), ([('a', 'f', 5), ('x', 'x', 5)], []),
        ([], [6]), ([], [3, 7]), ([], [8]), ([], []), ([], [10]), ([], [11]), ([('b', 'b', 12)], []),
        ([], [13]), ([], [14]), ([], [6]), ([], [])] := by
  let tree : NumberedTree :=
    ⟨.concat
      (.repeated .star (.union
        (.charClass ⟨[.range 'd' 'f', .range 'a' 'c', .single 'x'], false⟩) (.group 7 (.literal 'b'))))
      (.concat (.charClass ⟨[], false⟩) (.group 0xfffffffffffffffe (.repeated .plus .empty))), by decide⟩
  have hrun : tree.toNfa.map (fun nfa => (nfa.finalId, nfa.groupCount, nfa.nodes.toList.map fun node =>
      (node.transitions.map fun t => (t.range.lo, t.range.hi, t.target), node.epsilons))) =
      .ok (15, 0xffffffffffffffff,
        [([], [1]), ([], [2]), ([], [3, 7]), ([], [4, 9]), ([('a', 'f', 5), ('x', 'x', 5)], []),
          ([], [6]), ([], [3, 7]), ([], [8]), ([], []), ([], [10]), ([], [11]), ([('b', 'b', 12)], []),
          ([], [13]), ([], [14]), ([], [6]), ([], [])]) := by
    cbv
  obtain ⟨nfa, hnfa, hparts⟩ := exists_of_map_eq_ok hrun
  simp only [Prod.mk.injEq] at hparts
  exact ⟨tree, nfa, rfl, hnfa, (simple_toNfa hnfa).1, hparts⟩

end PatternAutomata
