import PatternAutomata.Search.Match

/-!
# Choosing leftmost matches

Of the matches that end at one place only the one with the earliest start is considered. It is
reported at once if no thread from an earlier start is alive. Otherwise it is dropped if one of those
starts has been reported, since that match may still grow over it, and held back if none has: it is
reported when all earlier starts have died, and dropped when one of them matches.
-/

namespace PatternAutomata

/-- The starts that have been reported, and the matches that are held back. -/
structure Leftmost where
  reported : List Int := []
  held : List Match := []
  deriving DecidableEq, Repr

namespace Leftmost

/-- Adds a match to those reported. -/
def report (l : Leftmost) (m : Match) : Leftmost := { l with reported := m.start :: l.reported }

/-- Considers the best match at a place, given the starts that are alive there. -/
def consider (live : List Int) (m : Match) (l : Leftmost) : List Match × Leftmost :=
  let l := { l with held := l.held.filter (·.start ≤ m.start) }
  let blockers := live.filter (· < m.start)
  if blockers.isEmpty then ([m], l.report m)
  else if blockers.any (l.reported.contains ·) then ([], l)
  else ([], { l with held := l.held ++ [m] })

/-- Reports the held matches that no live start comes before. -/
def release (live : List Int) (l : Leftmost) : List Match × Leftmost :=
  let (ready, waiting) := l.held.partition fun m => live.all (m.start ≤ ·)
  (ready, ready.foldl report { l with held := waiting })

/-- One place: the matches reported there, and what is known afterwards. -/
def step (live : List Int) (best : Option Match) (l : Leftmost) : List Match × Leftmost :=
  let (found, l) :=
    match best with
    | some m => l.consider live m
    | none => ([], l)
  let (released, l) := l.release live
  (found ++ released, l)

/-- The matches reported over the places of a text. At the end all held matches are reported. -/
def run (l : Leftmost) : List (List Int × Option Match) → List Match
  | [] => l.held
  | (live, best) :: rest =>
    let (reported, l) := l.step live best
    reported ++ l.run rest

end Leftmost

namespace Nfa

/-- The matches in a text. An exhaustive search lists all of them by end and then by start; a search
for the best lists those that the rules for leftmost matches let through, as they are reported. -/
def search (nfa : Nfa) (mode : Mode) (text : String) : Except Fault (List Match) :=
  let last : Int := text.toList.length - 1
  (nfa.moments mode text.toList).map fun moments =>
    match mode with
    | .exhaustive => moments.flatMap (·.accepting nfa last)
    | .bestOnly =>
      Leftmost.run {} (moments.map fun now => (now.liveStarts, (now.accepting nfa last).head?))

/-- A search that makes room for the records of all groups first. A text does not open more groups than
there is room for, but the numbers of a `NumberedTree` may be too high. -/
def searchWithRoom (nfa : Nfa) (mode : Mode) (text : String) : Except Fault (List Match) :=
  if nfa.groupCount ≤ Captures.capacity then nfa.search mode text
  else .error (.tooManyGroups nfa.groupCount)

end Nfa

end PatternAutomata
