import PatternAutomata.Automaton.Thompson
import PatternAutomata.Automaton.Traversal

/-!
# From fragments to automata

The nodes of an automaton are those of a fragment that can be reached from its entry, numbered in the
order of a depth-first traversal, and its exit, which is the final node and comes last when nothing
leads to it.
-/

namespace PatternAutomata

namespace Fragment

/-- The edges with a label that leave a node. -/
def rangeEdges (f : Fragment) (id : Nat) : List (CharRange × Nat) :=
  f.edges.filterMap fun e => if e.source = id then e.label.range?.map (·, e.target) else none

/-- The nodes that follow a node without reading. -/
def epsilonTargets (f : Fragment) (id : Nat) : List Nat :=
  (f.edges.filter fun e => e.source = id ∧ e.label = .epsilon).map (·.target)

/-- All nodes that follow a node: first those behind a range. -/
def successors (f : Fragment) (id : Nat) : List Nat :=
  (f.rangeEdges id).map (·.2) ++ f.epsilonTargets id

/-- A node of the fragment by its number. -/
def node? (f : Fragment) (id : Nat) : Option (Fin f.next) :=
  if h : id < f.next then some ⟨id, h⟩ else none

/-- The nodes in the order of their final numbers. -/
def order (f : Fragment) : List Nat :=
  let slot : Fin f.next → Except Empty (Fin f.next) := .ok
  let visit (id : Fin f.next) : Except Empty (Nat × List (Fin f.next)) :=
    .ok (id, (f.successors id).filterMap f.node?)
  match explore slot visit (noMarks f.next) ([f.entry, f.exit].filterMap f.node?) with
  | .ok (ids, _) => ids

/-- One more than the highest number of a group, whatever the numbers are. `Fragment.wordCount` is the same
in machine words. -/
def groupCount (f : Fragment) : Nat := f.markers.foldl (fun n m => max n (m.2.group + 1)) 0

/-- The automaton of a fragment. -/
def toNfa (f : Fragment) (anchoredEnd : Bool) : Nfa :=
  let order := f.order
  let number (id : Nat) : Nat := order.idxOf id
  let node (id : Nat) : Node :=
    { id := number id
      transitions := (f.rangeEdges id).map fun (range, target) => ⟨range, number target⟩
      epsilons := (f.epsilonTargets id).map number
      isFinal := id = f.exit
      marker := f.markers.lookup id }
  { nodes := (order.map node).toArray
    entry := number f.entry
    finalId := number f.exit
    groupCount := f.groupCount
    anchoredEnd := anchoredEnd }

end Fragment

namespace Pattern

/-- The fragment of a whole pattern, in which group 0 is the match, and whether a match has to end
where the text ends. A tree without anchors at its root is anchored on the left. -/
def fragment : Pattern → Except RangeError (Fragment × Bool)
  | .anchored left right inner => (Fragment.ofPattern (.anchored left right inner) 0).map (·, right)
  | pattern => (Fragment.ofPattern (.group 0 pattern) 0).map (·, false)

/-- The automaton of a pattern. A text has fewer groups than a machine word can count, so their count needs
no bound here. `NumberedTree.toNfa` is for trees whose numbers are not those of a text. -/
def toNfa (pattern : Pattern) : Except RangeError Nfa :=
  pattern.fragment.map fun (f, anchoredEnd) => f.toNfa anchoredEnd

end Pattern

end PatternAutomata
