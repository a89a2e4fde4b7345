import PatternAutomata.Automaton.Dfa
import PatternAutomata.Automaton.Edge
import PatternAutomata.Automaton.Nfa
import PatternAutomata.CharRange.Merge

/-!
# Diagrams

A diagram shows an automaton of either kind as nodes and edges. For drawing, all edges between the
same two nodes are bundled.
-/

namespace PatternAutomata

structure NodeView where
  id : Nat
  isFinal : Bool
  marker : Option Marker := none
  deriving DecidableEq, Repr

structure Diagram where
  start : Nat
  nodes : List NodeView
  /-- One edge for every transition and every epsilon, node by node. -/
  edges : List Edge
  deriving DecidableEq, Repr

/-- All edges from one node to another. -/
structure Bundle where
  source : Nat
  target : Nat
  /-- The characters of the edges in canonical form. -/
  ranges : List CharRange
  /-- Whether one of the edges reads nothing. -/
  epsilon : Bool
  deriving DecidableEq, Repr

namespace Edge

/-- By source, then by target. -/
def le (a b : Edge) : Bool :=
  a.source < b.source || (a.source == b.source && a.target ≤ b.target)

def parallel (a b : Edge) : Bool := a.source == b.source && a.target == b.target

end Edge

/-- Bundles edges that share their ends with the first of them. -/
def Bundle.ofEdges (first : Edge) (edges : List Edge) : Bundle where
  source := first.source
  target := first.target
  ranges := CharRange.merge (edges.filterMap (·.label.range?))
  epsilon := edges.any (·.label = .epsilon)

/-- One bundle for every pair of nodes with an edge, in order. -/
def bundle (edges : List Edge) : List Bundle :=
  ((edges.mergeSort Edge.le).splitBy Edge.parallel).filterMap fun group =>
    group.head?.map fun first => .ofEdges first group

namespace Diagram

def bundles (d : Diagram) : List Bundle := bundle d.edges

end Diagram

/-- The edges that leave a node. -/
def Node.edges (node : Node) : List Edge :=
  node.transitions.map (fun t => ⟨node.id, t.target, .range t.range⟩)
    ++ node.epsilons.map (⟨node.id, ·, .epsilon⟩)

def Nfa.diagram (nfa : Nfa) : Diagram where
  start := nfa.entry
  nodes := nfa.nodes.toList.map fun node =>
    { id := node.id, isFinal := node.isFinal, marker := node.marker }
  edges := nfa.nodes.toList.flatMap Node.edges

/-- The edges that leave a state. -/
def DfaState.edges (state : DfaState) : List Edge :=
  state.transitions.map fun t => ⟨state.id, t.2, .range t.1⟩

def Dfa.diagram (dfa : Dfa) : Diagram where
  start := dfa.start
  nodes := dfa.states.toList.map fun state => { id := state.id, isFinal := state.isFinal }
  edges := dfa.states.toList.flatMap DfaState.edges

end PatternAutomata
