import Mathlib
import PatternAutomata.Diagram.Basic
import PatternAutomata.Proofs.Canonical
import PatternAutomata.Proofs.Sorting

/-!
# Bundles of edges

Sorting brings edges with the same ends together, so a run of such edges holds all of them, and the ends
ascend from one run to the next. What a bundle says depends on which edges it is made of and not on their
order. So there is one bundle for each pair of nodes with an edge, it says what the edges between them say
together, and a diagram in which edges are bundled has the steps of the automaton that it shows.
-/

namespace PatternAutomata

open CharRange

/-! ### Edges by their ends -/

namespace Edge

variable {e e' : Edge} {edges run : List Edge}

/-- The ends of an edge, ordered by the source and then by the target. -/
def ends (e : Edge) : Nat ×ₗ Nat := toLex (e.source, e.target)

theorem ends_eq_iff {p q : Nat} : e.ends = toLex (p, q) ↔ e.source = p ∧ e.target = q := by
  simp [ends]

theorem le_iff (e e' : Edge) : le e e' = true ↔ e.ends ≤ e'.ends := by
  simp [le, ends, Prod.Lex.toLex_le_toLex]

theorem parallel_iff (e e' : Edge) : parallel e e' = true ↔ e.ends = e'.ends := by
  simp [parallel, ends]

theorem sorted_mergeSort (edges : List Edge) :
    (edges.mergeSort le).Pairwise fun e e' => e.ends ≤ e'.ends :=
  pairwise_mergeSort_of_iff ends le_iff edges

/-- The runs of the sorted edges: each of them holds the edges with some ends, and these ends ascend. -/
theorem pairwise_runs (edges : List Edge) : ((edges.mergeSort le).splitBy parallel).Pairwise
    fun run other => ∀ e ∈ run, ∀ e' ∈ other, e.ends < e'.ends :=
  pairwise_splitBy parallel_iff (sorted_mergeSort edges)

theorem mem_run (hrun : run ∈ (edges.mergeSort le).splitBy parallel) (he : e ∈ run) :
    e' ∈ run ↔ e' ∈ edges ∧ e.ends = e'.ends := by
  rw [mem_run_iff parallel_iff (sorted_mergeSort edges) hrun he, List.mem_mergeSort]

theorem exists_run (he : e ∈ edges) : ∃ run ∈ (edges.mergeSort le).splitBy parallel, e ∈ run := by
  rw [← List.mem_flatten, List.flatten_splitBy, List.mem_mergeSort]
  exact he

end Edge

/-! ### What a bundle says -/

theorem Label.admits_none_iff {l : Label} : l.Admits none ↔ l = .epsilon := by
  cases l <;> simp

theorem Label.admits_some_iff {l : Label} {c : Char} : l.Admits (some c) ↔ ∃ r, l = .range r ∧ c ∈ r := by
  cases l <;> simp

namespace Bundle

variable {first e : Edge} {edges others : List Edge} {c : Char} {o : Option Char}

/-- The ends of a bundle, ordered as those of an edge. -/
def ends (b : Bundle) : Nat ×ₗ Nat := toLex (b.source, b.target)

theorem epsilon_ofEdges : (ofEdges first edges).epsilon = true ↔ ∃ e ∈ edges, e.label = .epsilon := by
  simp [ofEdges]

theorem covers_ofEdges : Covers (ofEdges first edges).ranges c ↔
    ∃ e ∈ edges, ∃ r, e.label = .range r ∧ c ∈ r := by
  have hrange (l : Label) (r : CharRange) : l.range? = some r ↔ l = .range r := by
    cases l <;> simp [Label.range?]
  rw [ofEdges, covers_merge]
  simp only [Covers, List.mem_filterMap, hrange]
  constructor
  · rintro ⟨r, ⟨e, he, hr⟩, hc⟩
    exact ⟨e, he, r, hr, hc⟩
  · rintro ⟨e, he, r, hr, hc⟩
    exact ⟨r, ⟨e, he, hr⟩, hc⟩

/-- Whether one of the edges can be taken on a character, or without one. -/
def Admits (b : Bundle) : Option Char → Prop
  | none => b.epsilon = true
  | some c => Covers b.ranges c

theorem admits_ofEdges : (ofEdges first edges).Admits o ↔ ∃ e ∈ edges, e.label.Admits o := by
  cases o with
  | none =>
    rw [Admits, epsilon_ofEdges]
    simp only [Label.admits_none_iff]
  | some c =>
    rw [Admits, covers_ofEdges]
    simp only [Label.admits_some_iff]

/-- A bundle is made of the ends and the set of its edges. -/
theorem ofEdges_congr (hends : first.ends = e.ends) (hmem : ∀ e, e ∈ edges ↔ e ∈ others) :
    ofEdges first edges = ofEdges e others := by
  obtain ⟨hsource, htarget⟩ := Edge.ends_eq_iff.mp hends
  have hranges : merge (edges.filterMap (·.label.range?)) = merge (others.filterMap (·.label.range?)) := by
    rw [merge_eq_merge_iff]
    simp only [Covers, List.mem_filterMap, hmem, implies_true]
  have hepsilon : edges.any (·.label = .epsilon) = others.any (·.label = .epsilon) := by
    rw [Bool.eq_iff_iff]
    simp only [List.any_eq_true, hmem]
  rw [ofEdges, ofEdges, hsource, htarget, hranges, hepsilon]

end Bundle

/-! ### The bundles of a list of edges -/

section Bundling

variable {edges others : List Edge} {b : Bundle} {p q : Nat} {o : Option Char}

/-- Edges with the ends of a given one are bundled, and nothing else. -/
theorem mem_bundle_iff :
    b ∈ bundle edges ↔ ∃ e ∈ edges, b = Bundle.ofEdges e (edges.filter (e.parallel ·)) := by
  -- a bundle does not depend on which edge of its run comes first
  have hbundle {run : List Edge} {first e : Edge} (he : e ∈ run) (hfirst : first ∈ run)
      (hrun : run ∈ (edges.mergeSort Edge.le).splitBy Edge.parallel) :
      Bundle.ofEdges first run = Bundle.ofEdges e (edges.filter (e.parallel ·)) := by
    refine Bundle.ofEdges_congr ((Edge.mem_run hrun hfirst).mp he).2 fun e' => ?_
    rw [Edge.mem_run hrun he, List.mem_filter, Edge.parallel_iff]
  rw [bundle, List.mem_filterMap]
  constructor
  · rintro ⟨run, hrun, hb⟩
    obtain ⟨first, hfirst, rfl⟩ := Option.map_eq_some_iff.mp hb
    have hmem := List.mem_of_mem_head? hfirst
    exact ⟨first, ((Edge.mem_run hrun hmem).mp hmem).1, hbundle hmem hmem hrun⟩
  · rintro ⟨e, he, rfl⟩
    obtain ⟨run, hrun, hmem⟩ := Edge.exists_run he
    cases run with
    | nil => cases hmem
    | cons first rest => exact ⟨_, hrun, congrArg some (hbundle hmem List.mem_cons_self hrun)⟩

theorem pairwise_bundle (edges : List Edge) : (bundle edges).Pairwise fun b b' => b.ends < b'.ends := by
  refine (Edge.pairwise_runs edges).filterMap _ fun run other hlt b hb b' hb' => ?_
  obtain ⟨first, hfirst, rfl⟩ := Option.map_eq_some_iff.mp hb
  obtain ⟨first', hfirst', rfl⟩ := Option.map_eq_some_iff.mp hb'
  exact hlt first (List.mem_of_mem_head? hfirst) first' (List.mem_of_mem_head? hfirst')

/-- The same edges give the same bundles, in whatever order and however often they are listed. -/
theorem bundle_congr (h : ∀ e, e ∈ edges ↔ e ∈ others) : bundle edges = bundle others := by
  have : Std.Antisymm fun b b' : Bundle => b.ends < b'.ends := ⟨fun b b' h h' => (h.asymm h').elim⟩
  have : Std.Irrefl fun b b' : Bundle => b.ends < b'.ends := ⟨fun b => lt_irrefl b.ends⟩
  refine (pairwise_bundle edges).eq_of_mem_iff (pairwise_bundle others) fun b => ?_
  have hfilter (e : Edge) : Bundle.ofEdges e (edges.filter (e.parallel ·)) =
      Bundle.ofEdges e (others.filter (e.parallel ·)) := by
    refine Bundle.ofEdges_congr rfl fun e' => ?_
    rw [List.mem_filter, List.mem_filter, h]
  simp only [mem_bundle_iff, h, hfilter]

theorem exists_mem_bundle_iff :
    (∃ b ∈ bundle edges, b.source = p ∧ b.target = q) ↔ ∃ e ∈ edges, e.source = p ∧ e.target = q := by
  constructor
  · rintro ⟨b, hb, hends⟩
    obtain ⟨e, he, rfl⟩ := mem_bundle_iff.mp hb
    exact ⟨e, he, hends⟩
  · rintro ⟨e, he, hends⟩
    exact ⟨_, mem_bundle_iff.mpr ⟨e, he, rfl⟩, hends⟩

/-- A bundle can be taken as one of the edges with its ends can. -/
theorem admits_iff_of_mem_bundle (hb : b ∈ bundle edges) :
    b.Admits o ↔ ∃ e ∈ edges, e.source = b.source ∧ e.target = b.target ∧ e.label.Admits o := by
  obtain ⟨first, -, rfl⟩ := mem_bundle_iff.mp hb
  have hends (e : Edge) : first.parallel e = true ↔ e.source = first.source ∧ e.target = first.target :=
    (Edge.parallel_iff first e).trans (eq_comm.trans Edge.ends_eq_iff)
  rw [Bundle.admits_ofEdges]
  simp only [List.mem_filter, hends, and_assoc]
  rfl

/-- The steps along the bundles of a diagram. -/
def Diagram.graph (d : Diagram) : Graph := fun p o q =>
  ∃ b ∈ d.bundles, b.source = p ∧ b.target = q ∧ b.Admits o

/-- Bundling keeps the steps along the edges. -/
theorem Diagram.graph_iff {d : Diagram} :
    d.graph p o q ↔ ∃ e ∈ d.edges, e.source = p ∧ e.target = q ∧ e.label.Admits o := by
  constructor
  · rintro ⟨b, hb, rfl, rfl, ho⟩
    exact (admits_iff_of_mem_bundle hb).mp ho
  · rintro ⟨e, he, hsource, htarget, ho⟩
    obtain ⟨b, hb, rfl, rfl⟩ := exists_mem_bundle_iff.mpr ⟨e, he, hsource, htarget⟩
    exact ⟨b, hb, rfl, rfl, (admits_iff_of_mem_bundle hb).mpr ⟨e, he, hsource, htarget, ho⟩⟩

/-- A diagram whose edges are listed part by part has the steps of the parts. -/
theorem Diagram.graph_iff_of_flatMap {α : Type} {d : Diagram} {parts : List α} {edges : α → List Edge}
    (h : d.edges = parts.flatMap edges) : d.graph p o q ↔
      ∃ part ∈ parts, ∃ e ∈ edges part, e.source = p ∧ e.target = q ∧ e.label.Admits o := by
  rw [graph_iff, h]
  simp only [List.mem_flatMap]
  constructor
  · rintro ⟨e, ⟨part, hpart, he⟩, hstep⟩
    exact ⟨part, hpart, e, he, hstep⟩
  · rintro ⟨part, hpart, e, he, hstep⟩
    exact ⟨e, ⟨part, hpart, he⟩, hstep⟩

end Bundling

/-! ### The steps of an automaton and of its diagram -/

section Steps

variable {node : Node} {state : DfaState} {p q : Nat} {o : Option Char}

theorem Node.exists_edge_iff : (∃ e ∈ node.edges, e.source = p ∧ e.target = q ∧ e.label.Admits o) ↔
    node.id = p ∧ node.LeadsTo o q := by
  simp only [edges, List.mem_append, List.mem_map]
  cases o with
  | none =>
    constructor
    · rintro ⟨e, ⟨t, -, rfl⟩ | ⟨q, hq, rfl⟩, rfl, rfl, ho⟩
      · exact ho.elim
      · exact ⟨rfl, hq⟩
    · rintro ⟨hp, hq⟩
      exact ⟨_, .inr ⟨q, hq, rfl⟩, hp, rfl, trivial⟩
  | some c =>
    simp only [LeadsTo, Node.step, List.mem_map, List.mem_filter, decide_eq_true_eq]
    constructor
    · rintro ⟨e, ⟨t, ht, rfl⟩ | ⟨q, -, rfl⟩, hp, hq, ho⟩
      · exact ⟨hp, t, ⟨ht, ho⟩, hq⟩
      · exact ho.elim
    · rintro ⟨hp, t, ⟨ht, hc⟩, hq⟩
      exact ⟨_, .inl ⟨t, ht, rfl⟩, hp, hq, hc⟩

theorem DfaState.exists_edge_iff :
    (∃ e ∈ state.edges, e.source = p ∧ e.target = q ∧ e.label.Admits o) ↔
      state.id = p ∧ ∃ c, o = some c ∧ ∃ t ∈ state.transitions, c ∈ t.1 ∧ t.2 = q := by
  simp only [edges, List.mem_map]
  constructor
  · rintro ⟨e, ⟨t, ht, rfl⟩, hp, hq, ho⟩
    obtain ⟨c, hc, rfl⟩ := Label.admits_range.mp ho
    exact ⟨hp, c, rfl, t, ht, hc, hq⟩
  · rintro ⟨hp, c, rfl, t, ht, hc, hq⟩
    exact ⟨_, ⟨t, ht, rfl⟩, hp, hq, hc⟩

theorem Nfa.graph_diagram (nfa : Nfa) (p : Nat) (o : Option Char) (q : Nat) :
    nfa.diagram.graph p o q ↔ ∃ node ∈ nfa.nodes, node.id = p ∧ node.LeadsTo o q := by
  rw [Diagram.graph_iff_of_flatMap rfl]
  simp only [Node.exists_edge_iff, Array.mem_toList_iff]

theorem Dfa.graph_diagram (dfa : Dfa) (p : Nat) (o : Option Char) (q : Nat) :
    dfa.diagram.graph p o q ↔ ∃ state ∈ dfa.states,
      state.id = p ∧ ∃ c, o = some c ∧ ∃ t ∈ state.transitions, c ∈ t.1 ∧ t.2 = q := by
  rw [Diagram.graph_iff_of_flatMap rfl]
  simp only [DfaState.exists_edge_iff, Array.mem_toList_iff]

end Steps

/-- Bundling keeps all that the edges say, and adds nothing. There is one bundle for each pair of nodes with
an edge, in ascending order. It reads nothing if an edge between them does, and a character if an edge does;
a character lies between any two of its ranges. The order of the edges plays no part. So the diagram of an
automaton has the steps along its transitions and epsilons. -/
theorem bundle_exact (edges : List Edge) :
    ((bundle edges).Pairwise fun b b' => toLex (b.source, b.target) < toLex (b'.source, b'.target)) ∧
      (∀ p q, (∃ b ∈ bundle edges, b.source = p ∧ b.target = q) ↔
        ∃ e ∈ edges, e.source = p ∧ e.target = q) ∧
      (∀ b ∈ bundle edges,
        (b.epsilon = true ↔
          ∃ e ∈ edges, e.source = b.source ∧ e.target = b.target ∧ e.label = .epsilon) ∧
        b.ranges.Pairwise (fun r s => ∃ c, r.hi < c ∧ c < s.lo) ∧
        ∀ c, Covers b.ranges c ↔ ∃ e ∈ edges, e.source = b.source ∧ e.target = b.target ∧
          ∃ r, e.label = .range r ∧ c ∈ r) ∧
      (∀ others, others.Perm edges → bundle others = bundle edges) ∧
      (∀ (nfa : Nfa) p o q,
        nfa.diagram.graph p o q ↔ ∃ node ∈ nfa.nodes, node.id = p ∧ node.LeadsTo o q) ∧
      ∀ (dfa : Dfa) p o q, dfa.diagram.graph p o q ↔ ∃ state ∈ dfa.states,
        state.id = p ∧ ∃ c, o = some c ∧ ∃ t ∈ state.transitions, c ∈ t.1 ∧ t.2 = q := by
  refine ⟨pairwise_bundle edges, fun p q => exists_mem_bundle_iff, fun b hb => ⟨?_, ?_, fun c => ?_⟩,
    fun others hperm => bundle_congr fun e => hperm.mem_iff, Nfa.graph_diagram, Dfa.graph_diagram⟩
  · change b.Admits none ↔ _
    simp only [admits_iff_of_mem_bundle hb, Label.admits_none_iff]
  · obtain ⟨e, -, rfl⟩ := mem_bundle_iff.mp hb
    exact (merge_separated _).imp separated_iff.mp
  · change b.Admits (some c) ↔ _
    simp only [admits_iff_of_mem_bundle hb, Label.admits_some_iff]

/-- The edges of two pairs of nodes take turns, one of them is listed twice, and two ranges abut. -/
theorem bundle_exact_interleaved : ∃ edges others : List Edge,
    edges = [⟨2, 0, .range ⟨'n', 'z', by decide⟩⟩, ⟨0, 1, .epsilon⟩, ⟨2, 0, .range (single 'b')⟩,
      ⟨0, 1, .epsilon⟩, ⟨2, 0, .range ⟨'c', 'm', by decide⟩⟩, ⟨0, 1, .range (single 'x')⟩] ∧
    others = edges.reverse ∧ bundle others = bundle edges ∧
      bundle edges = [⟨0, 1, [single 'x'], true⟩, ⟨2, 0, [⟨'b', 'z', by decide⟩], false⟩] := by
  refine ⟨_, _, rfl, rfl, (bundle_exact _).2.2.2.1 _ (List.reverse_perm _), ?_⟩
  cbv

end PatternAutomata
