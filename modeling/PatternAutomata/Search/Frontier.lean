import PatternAutomata.Automaton.Traversal
import PatternAutomata.Search.Captures

/-!
# The frontier of a search

All threads of a search move over the text together, one character at a time. A thread is a node with
the captures it has collected. After each character the frontier holds the threads at nodes that can
read or accept. Nodes that only lead on are passed in the closure, in which an earlier thread keeps a
slot from all later ones; threads that started earlier go first.
-/

namespace PatternAutomata

inductive Mode where
  /-- One thread for each node. -/
  | bestOnly
  /-- One thread for each node and each place where a match starts. -/
  | exhaustive
  deriving DecidableEq, Repr

namespace Mode

/-- The number of slots for some nodes and a text of a given length. -/
def slots (mode : Mode) (length nodes : Nat) : Nat :=
  match mode with
  | .bestOnly => nodes
  | .exhaustive => nodes * (length + 2)

/-- The slot of a node and a start. A node has a slot for each place of the text, and a last one for
matches that have not started. -/
def slot (mode : Mode) (length node : Nat) (start : Option Int) : Nat :=
  match mode with
  | .bestOnly => node
  | .exhaustive =>
    node * (length + 2) +
      match start with
      | none => length + 1
      | some place => (place + 1).toNat

end Mode

structure Thread where
  node : Node
  captures : Captures
  deriving DecidableEq, Repr

namespace Thread

def start (t : Thread) : Option Int := t.captures.matchStart

end Thread

/-- Whether a match with the start `a` goes before one with the start `b`. Those that have not started
go last. -/
def startsNoLater : Option Int → Option Int → Bool
  | _, none => true
  | none, some _ => false
  | some a, some b => a ≤ b

/-- A node that a thread is about to enter. -/
structure Arrival where
  target : Nat
  captures : Captures
  deriving DecidableEq, Repr

namespace Arrival

/-- The slot an arrival asks for. The start is the one before it enters the node. -/
def slot (mode : Mode) (length nodes : Nat) (a : Arrival) :
    Except Fault (Fin (mode.slots length nodes)) :=
  let i := mode.slot length a.target a.captures.matchStart
  if h : i < mode.slots length nodes then .ok ⟨i, h⟩ else .error (.missingSlot i)

/-- Enters a node: passes its marker and goes on along its epsilons. -/
def visit (nfa : Nfa) (place : Int) (a : Arrival) : Except Fault (Thread × List Arrival) :=
  match nfa.node a.target with
  | .error fault => .error fault
  | .ok node =>
    match a.captures.pass node.marker place with
    | .error fault => .error fault
    | .ok captures => .ok (⟨node, captures⟩, node.epsilons.map (⟨·, captures⟩))

end Arrival

/-- What a search sees at one place of the text. -/
structure Moment where
  place : Int
  threads : List Thread
  deriving DecidableEq, Repr

namespace Nfa

/-- The live threads at a place, from those that arrive there in order. Every place has a fresh table of
marks. It stands for a table of stamps that is kept over the places, where a slot is marked if it has the
stamp of the place. When the stamps run out they are all wiped, so an old one never counts as a mark. -/
def settle (nfa : Nfa) (mode : Mode) (length : Nat) (place : Int) (arrivals : List Arrival) :
    Except Fault Moment :=
  (explore (Arrival.slot mode length nfa.size) (Arrival.visit nfa place)
      (noMarks (mode.slots length nfa.size)) arrivals).map
    fun (threads, _) => ⟨place, threads.filter (·.node.isLive)⟩

/-- The threads that arrive at the next place by reading `c`, those with earlier starts first. -/
def arrivals (threads : List Thread) (c : Char) : List Arrival :=
  (threads.mergeSort fun s t => startsNoLater s.start t.start).flatMap fun t =>
    (t.node.step c).map (⟨·, t.captures⟩)

/-- The moments from a given one to the end of the text. -/
def momentsFrom (nfa : Nfa) (mode : Mode) (length : Nat) (now : Moment) :
    List Char → Except Fault (List Moment)
  | [] => .ok [now]
  | c :: rest =>
    match nfa.settle mode length (now.place + 1) (arrivals now.threads c) with
    | .error fault => .error fault
    | .ok next =>
      match nfa.momentsFrom mode length next rest with
      | .error fault => .error fault
      | .ok later => .ok (now :: later)

/-- One moment for every place of the text, the one before the first character included. -/
def moments (nfa : Nfa) (mode : Mode) (text : List Char) : Except Fault (List Moment) :=
  if nfa.size = 0 then .error .emptyAutomaton
  else
    match nfa.settle mode text.length (-1) [⟨nfa.entry, .blank nfa.groupCount⟩] with
    | .error fault => .error fault
    | .ok first => nfa.momentsFrom mode text.length first text

end Nfa

end PatternAutomata
