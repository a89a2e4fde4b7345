import PatternAutomata.Automaton.Fault
import PatternAutomata.CharRange.Basic

/-!
# Deterministic automata

A state stands for a set of nodes of a nondeterministic automaton. There is no dead state: a character
without a transition rejects the text.
-/

namespace PatternAutomata

structure DfaState where
  id : Nat
  /-- The nodes the state stands for, ascending. -/
  members : List Nat
  isFinal : Bool
  transitions : List (CharRange × Nat) := []
  deriving DecidableEq, Repr

namespace DfaState

/-- The state after reading `c`. -/
def next? (state : DfaState) (c : Char) : Option Nat :=
  (state.transitions.find? fun t => c ∈ t.1).map (·.2)

/-- Adds a transition. No two transitions of a state share a character. -/
def addTransition (state : DfaState) (range : CharRange) (target : Nat) :
    Except Fault DfaState :=
  if state.transitions.any fun t => t.1.overlaps range then
    .error (.overlappingTransition state.id range.lo range.hi)
  else .ok { state with transitions := state.transitions ++ [(range, target)] }

end DfaState

structure Dfa where
  states : Array DfaState
  start : Nat
  deriving DecidableEq, Repr

namespace Dfa

def size (dfa : Dfa) : Nat := dfa.states.size

def state (dfa : Dfa) (id : Nat) : Except Fault DfaState :=
  match dfa.states[id]? with
  | some state => .ok state
  | none => .error (.missingState id)

/-- The state after reading a text from a given state, if every character has a transition. -/
def runFrom (dfa : Dfa) (id : Nat) : List Char → Option DfaState
  | [] => dfa.states[id]?
  | c :: rest =>
    match dfa.states[id]?.bind (·.next? c) with
    | none => none
    | some target => dfa.runFrom target rest

/-- The state after reading a text. -/
def run (dfa : Dfa) (text : List Char) : Option DfaState := dfa.runFrom dfa.start text

/-- Whether the whole text is accepted. -/
def accepts (dfa : Dfa) (text : String) : Bool := (dfa.run text.toList).any (·.isFinal)

end Dfa

end PatternAutomata
