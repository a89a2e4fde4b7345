import PatternAutomata.Text.Escape

/-!
# Misuse of automata

Automata are tables of numbered nodes, and searching one looks things up by number. A look-up that
finds nothing stops the search with the fault that names the number. None of this happens to automata
that were built from patterns.
-/

namespace PatternAutomata

inductive Fault where
  | emptyAutomaton
  /-- A state has a transition already on some character of the range from `lo` to `hi`. -/
  | overlappingTransition (state : Nat) (lo hi : Char)
  | missingNode (id : Nat)
  | missingState (id : Nat)
  | missingSlot (slot : Nat)
  | missingGroup (group : Nat)
  /-- There is no room for the records of so many groups. -/
  | tooManyGroups (count : Nat)
  /-- A group would end before it starts. -/
  | invertedGroup (group : Nat)
  /-- There are more sets of nodes to visit than the automaton has. -/
  | tooManyStates
  deriving DecidableEq, Repr

def Fault.message : Fault → String
  | .emptyAutomaton => "Cannot search an empty automaton"
  | .overlappingTransition state lo hi =>
    s!"DFA state {state} already has a transition overlapping {Text.quoteChar lo}-{Text.quoteChar hi}"
  | .missingNode id => s!"There is no node {id}"
  | .missingState id => s!"There is no DFA state {id}"
  | .missingSlot slot => s!"There is no slot {slot}"
  | .missingGroup group => s!"There is no group {group}"
  | .tooManyGroups count => s!"There is no room for {count} groups"
  | .invertedGroup group => s!"Group {group} ends before it starts"
  | .tooManyStates => "There are more DFA states than sets of nodes"

end PatternAutomata
