import PatternAutomata.Automaton.Numbering
import PatternAutomata.Automaton.Subset
import PatternAutomata.Pattern.Parser
import PatternAutomata.Search.Leftmost

/-!
# Compiled patterns

A pattern text with its automaton, ready to be searched.
-/

namespace PatternAutomata

/-- Why a text is no usable pattern. -/
inductive CompileError where
  | malformed (e : SyntaxError)
  | badRange (e : RangeError)
  deriving DecidableEq, Repr

structure Regex where
  text : String
  nfa : Nfa
  deriving DecidableEq, Repr

namespace Regex

def compile (text : String) : Except CompileError Regex :=
  match Pattern.parse text with
  | .error e => .error (.malformed e)
  | .ok pattern =>
    match pattern.toNfa with
    | .error e => .error (.badRange e)
    | .ok nfa => .ok { text, nfa }

def groupCount (re : Regex) : Nat := re.nfa.groupCount

def search (re : Regex) (mode : Mode) (subject : String) : Except Fault (List Match) :=
  re.nfa.search mode subject

/-- Where the best matches end. -/
def ends (re : Regex) (subject : String) : Except Fault (List Int) :=
  (re.search .bestOnly subject).map fun ms => ms.map (·.stop)

/-- The leftmost match, and the longest of those with its start. -/
def find? (re : Regex) (subject : String) : Except Fault (Option Match) :=
  (re.search .bestOnly subject).map Match.leftmostLongest

def isMatch (re : Regex) (subject : String) : Except Fault Bool :=
  (re.search .bestOnly subject).map fun ms => !ms.isEmpty

def toDfa (re : Regex) : Except Fault Dfa := re.nfa.toDfa

end Regex

end PatternAutomata
