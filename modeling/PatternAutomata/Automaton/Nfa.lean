import PatternAutomata.Automaton.Fault
import PatternAutomata.CharRange.Basic

/-!
# Nondeterministic automata

Nodes are numbered by their place in the automaton and refer to each other by number, so loops need no
further care. A marker node reads nothing; passing it starts or ends a group.
-/

namespace PatternAutomata

inductive Role where
  | groupStart
  | groupEnd
  deriving DecidableEq, Repr

structure Marker where
  role : Role
  /-- The number of the group in the tree, where `NumberedTree` bounds it. -/
  group : Nat
  deriving DecidableEq, Repr

structure Transition where
  range : CharRange
  target : Nat
  deriving DecidableEq, Repr

structure Node where
  id : Nat
  transitions : List Transition
  epsilons : List Nat
  isFinal : Bool
  marker : Option Marker
  deriving DecidableEq, Repr

namespace Node

/-- The nodes reached by reading `c`. -/
def step (node : Node) (c : Char) : List Nat :=
  (node.transitions.filter fun t => c ∈ t.range).map (·.target)

/-- Whether something can happen at the node: a character can be read or the text accepted. -/
def isLive (node : Node) : Bool := !node.transitions.isEmpty || node.isFinal

end Node

/-- The default automaton has no node, and nothing can be searched with it. -/
structure Nfa where
  nodes : Array Node := #[]
  entry : Nat := 0
  finalId : Nat := 0
  /-- The number of groups, the whole match included. -/
  groupCount : Nat := 0
  /-- Whether a match has to end where the text ends. -/
  anchoredEnd : Bool := false
  deriving DecidableEq, Repr

namespace Nfa

def size (nfa : Nfa) : Nat := nfa.nodes.size

def node (nfa : Nfa) (id : Nat) : Except Fault Node :=
  match nfa.nodes[id]? with
  | some node => .ok node
  | none => .error (.missingNode id)

end Nfa

end PatternAutomata
