import PatternAutomata.Automaton.Dfa
import PatternAutomata.Automaton.Nfa
import PatternAutomata.Automaton.Traversal

/-!
# Subset construction

The states are the sets of nodes a text can lead to. They are found in order: the ranges on which the
members of a state move are cut into pieces on which all members move alike, and each piece leads to
a state that is known already or becomes the next one. An automaton of `n` nodes has `2 ^ n` sets of
nodes, which bounds the number of states that have to be gone through.
-/

namespace PatternAutomata

namespace Nfa

/-- A node with its number, and the numbers that follow it without reading. -/
def visit (nfa : Nfa) (id : Nat) : Except Fault (Nat × List Nat) :=
  (nfa.node id).map fun node => (id, node.epsilons)

def slot (nfa : Nfa) (id : Nat) : Except Fault (Fin nfa.size) :=
  if h : id < nfa.size then .ok ⟨id, h⟩ else .error (.missingNode id)

/-- The nodes reached from some nodes without reading, ascending. -/
def closure (nfa : Nfa) (seeds : List Nat) : Except Fault (List Nat) :=
  (explore nfa.slot nfa.visit (noMarks nfa.size) seeds).map fun (ids, _) => ids.mergeSort

end Nfa

/-- Cuts the characters from the first bound on at every bound, and keeps the pieces with a wanted
first character. -/
def pieces (wanted : Char → Bool) : List Char → List CharRange
  | [] => []
  | [lo] => if wanted lo then (CharRange.from? lo).toList else []
  | lo :: next :: rest =>
    (if wanted lo then (CharRange.between? lo next).toList else [])
      ++ pieces wanted (next :: rest)

/-- Cuts some ranges into pieces, each of which lies inside or outside every one of the ranges. -/
def refine (ranges : List CharRange) : List CharRange :=
  let bounds := ranges.flatMap fun r => r.lo :: r.hi.succ?.toList
  pieces (fun c => ranges.any (c ∈ ·)) (bounds.mergeSort (· ≤ ·)).eraseReps

def Node.ranges (node : Node) : List CharRange := node.transitions.map (·.range)

namespace Nfa

/-- The pieces on which all members of a set of nodes move alike. -/
def symbols (nfa : Nfa) (members : List Nat) : Except Fault (List CharRange) :=
  (members.mapM nfa.node).map fun nodes => refine (nodes.flatMap Node.ranges)

/-- The nodes reached from some nodes by reading `c`. -/
def move (nfa : Nfa) (members : List Nat) (c : Char) : Except Fault (List Nat) :=
  (members.mapM nfa.node).map fun nodes => nodes.flatMap (·.step c)

/-- The state with the number `id` for a set of nodes. -/
def stateOf (nfa : Nfa) (id : Nat) (members : List Nat) : Except Fault DfaState :=
  (members.mapM nfa.node).map fun nodes => { id, members, isFinal := nodes.any (·.isFinal) }

/-- The number of the state for a set of nodes, which is added if it is new. -/
def findOrAdd (nfa : Nfa) (states : Array DfaState) (members : List Nat) :
    Except Fault (Nat × Array DfaState) :=
  match states.findIdx? (·.members = members) with
  | some id => .ok (id, states)
  | none => (nfa.stateOf states.size members).map fun state => (states.size, states.push state)

/-- Adds the transitions of a state on some symbols, and the states they lead to. -/
def expand (nfa : Nfa) (state : DfaState) (states : Array DfaState) :
    List CharRange → Except Fault (DfaState × Array DfaState)
  | [] => .ok (state, states)
  | symbol :: rest => do
    let moved ← nfa.move state.members symbol.lo
    if moved.isEmpty then nfa.expand state states rest
    else
      let members ← nfa.closure moved
      let (target, states) ← nfa.findOrAdd states members
      let state ← state.addTransition symbol target
      nfa.expand state states rest

/-- Goes through the states from `current` on, at most `limit` of them. -/
def expandFrom (nfa : Nfa) (limit current : Nat) (states : Array DfaState) :
    Except Fault (Array DfaState) :=
  match states[current]? with
  | none => .ok states
  | some state =>
    match limit with
    | 0 => .error .tooManyStates
    | limit + 1 => do
      let symbols ← nfa.symbols state.members
      let (state, states) ← nfa.expand state states symbols
      nfa.expandFrom limit (current + 1) (states.setIfInBounds current state)

/-- The deterministic automaton that accepts the same whole texts. The end anchor plays no part. -/
def toDfa (nfa : Nfa) : Except Fault Dfa :=
  if nfa.size = 0 then .error .emptyAutomaton
  else do
    let initial ← nfa.closure [nfa.entry]
    let start ← nfa.stateOf 0 initial
    let states ← nfa.expandFrom (Nat.pow 2 nfa.size) 0 #[start]
    return { states, start := 0 }

end Nfa

end PatternAutomata
