import PatternAutomata.Automaton.Edge
import PatternAutomata.Automaton.Nfa
import PatternAutomata.Pattern.Basic

/-!
# Thompson's construction

Each pattern becomes a fragment: edges and markers over nodes of its own, with one entry and one exit.
No edge enters the entry or leaves the exit of a fragment from within, so a larger fragment is the
smaller ones side by side, plus epsilon edges between their ends. The nodes of a fragment are the
numbers from the one it is given up to `next`; where several edges leave a node, their order is the
order in which a search tries them.
-/

namespace PatternAutomata

structure Fragment where
  entry : Nat
  exit : Nat
  /-- The first number that no node of the fragment has. -/
  next : Nat
  edges : List Edge
  markers : List (Nat × Marker)
  deriving DecidableEq, Repr

namespace Fragment

/-- Two nodes with an edge for each label. -/
def link (base : Nat) (labels : List Label) : Fragment where
  entry := base
  exit := base + 1
  next := base + 2
  edges := labels.map fun label => ⟨base, base + 1, label⟩
  markers := []

/-- One fragment or the other, behind an entry and an exit of their own. -/
def choice (base : Nat) (a b : Fragment) : Fragment where
  entry := base
  exit := base + 1
  next := b.next
  edges :=
    [⟨base, a.entry, .epsilon⟩, ⟨base, b.entry, .epsilon⟩,
      ⟨a.exit, base + 1, .epsilon⟩, ⟨b.exit, base + 1, .epsilon⟩] ++ a.edges ++ b.edges
  markers := a.markers ++ b.markers

/-- One fragment and then the other. -/
def sequence (a b : Fragment) : Fragment where
  entry := a.entry
  exit := b.exit
  next := b.next
  edges := ⟨a.exit, b.entry, .epsilon⟩ :: a.edges ++ b.edges
  markers := a.markers ++ b.markers

/-- Rounds of a fragment. Another round is tried before leaving, and a round before skipping it. -/
def rounds (base : Nat) (kind : Repetition) (a : Fragment) : Fragment where
  entry := base
  exit := base + 1
  next := a.next
  edges :=
    ⟨base, a.entry, .epsilon⟩ :: (if kind.maySkip then [⟨base, base + 1, .epsilon⟩] else [])
      ++ (if kind.mayLoop then [⟨a.exit, a.entry, .epsilon⟩] else [])
      ++ ⟨a.exit, base + 1, .epsilon⟩ :: a.edges
  markers := a.markers

/-- A fragment between the markers of a group, which are the two nodes after the ends. -/
def marked (base : Nat) (number : Nat) (a : Fragment) : Fragment where
  entry := base
  exit := base + 1
  next := a.next
  edges :=
    [⟨base, base + 2, .epsilon⟩, ⟨base + 2, a.entry, .epsilon⟩,
      ⟨a.exit, base + 3, .epsilon⟩, ⟨base + 3, base + 1, .epsilon⟩] ++ a.edges
  markers := (base + 2, ⟨.groupStart, number⟩) :: (base + 3, ⟨.groupEnd, number⟩) :: a.markers

/-- The ranges that together hold every character but the newline. -/
def notNewline : List CharRange := CharRange.complement [.single '\n']

/-- Any number of characters on the first line. -/
def runUp (base : Nat) : Fragment :=
  rounds base .star (link (base + 2) (notNewline.map .range))

/-- The fragment of a pattern, on nodes from `base` on. The error is that of the first bad range. -/
def ofPattern : Pattern → Nat → Except RangeError Fragment
  | .empty, base => .ok (link base [.epsilon])
  | .literal c, base => .ok (link base [.range (.single c)])
  | .charClass cls, base => cls.ranges.map fun ranges => link base (ranges.map .range)
  | .union left right, base =>
    match ofPattern left (base + 2) with
    | .error e => .error e
    | .ok a =>
      match ofPattern right a.next with
      | .error e => .error e
      | .ok b => .ok (choice base a b)
  | .concat left right, base =>
    match ofPattern left base with
    | .error e => .error e
    | .ok a =>
      match ofPattern right a.next with
      | .error e => .error e
      | .ok b => .ok (sequence a b)
  | .repeated kind inner, base => (ofPattern inner (base + 2)).map (rounds base kind)
  | .group number inner, base => (ofPattern inner (base + 4)).map (marked base number)
  | .anchored true _ inner, base => (ofPattern inner (base + 4)).map (marked base 0)
  | .anchored false _ inner, base =>
    (ofPattern inner (base + 8)).map fun a => sequence (runUp base) (marked (base + 4) 0 a)

end Fragment

end PatternAutomata
