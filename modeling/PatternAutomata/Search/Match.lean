import PatternAutomata.Search.Frontier

/-!
# Matches
-/

namespace PatternAutomata

/-- A thread that accepted, with the place where it did. -/
structure Match where
  stop : Int
  captures : Captures
  deriving DecidableEq, Repr

namespace Match

/-- Where the match starts: where group 0 last ran, or else where it was entered. -/
def start (m : Match) : Int :=
  match m.captures.span? 0 with
  | some span => span.start
  | none => m.captures.matchStart.getD (-1)

def span (m : Match) : Span := ⟨m.start, m.stop⟩

/-- Earlier starts go first, and of those with the same start the longer match. -/
def precedes (a b : Match) : Bool := a.start < b.start || (a.start == b.start && b.stop < a.stop)

/-- The first of the matches that no other precedes. -/
def leftmostLongest (ms : List Match) : Option Match :=
  ms.foldl
    (fun best m =>
      match best with
      | none => some m
      | some b => if m.precedes b then some m else some b)
    none

end Match

namespace Moment

/-- The matches that end at a moment, by start. With the end anchored, only the last place counts. -/
def accepting (nfa : Nfa) (last : Int) (now : Moment) : List Match :=
  if nfa.anchoredEnd ∧ now.place ≠ last then []
  else
    ((now.threads.filter (·.node.isFinal)).map fun t => ⟨now.place, t.captures⟩).mergeSort
      fun a b => a.start ≤ b.start

/-- The starts of the threads that can still read. -/
def liveStarts (now : Moment) : List Int :=
  (now.threads.filter (!·.node.isFinal)).filterMap (·.start)

end Moment

end PatternAutomata
