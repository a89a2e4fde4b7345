import PatternAutomata.CharRange.Merge

/-!
# Character classes

A class is kept as it is written; its ranges are worked out when an automaton is built from it, and
only then are the written ranges checked.
-/

namespace PatternAutomata

inductive ClassItem where
  | single (c : Char)
  | range (lo hi : Char)
  | whitespace
  | notWhitespace
  deriving DecidableEq, Repr

structure CharClass where
  items : List ClassItem
  negated : Bool
  deriving DecidableEq, Repr

/-- The white space of patterns. NUL belongs to it, and no character beyond ASCII does. -/
def patternSpace : List Char := ['\x00', '\t', '\n', '\x0B', '\x0C', '\r', ' ']

def ClassItem.ranges : ClassItem → Except RangeError (List CharRange)
  | .single c => .ok [.single c]
  | .range lo hi => (CharRange.written lo hi).map ([·])
  | .whitespace => .ok (patternSpace.map .single)
  | .notWhitespace => .ok (CharRange.complement (CharRange.merge (patternSpace.map .single)))

namespace CharClass

/-- Any character but the newline. -/
def anyChar : CharClass := ⟨[.single '\n'], true⟩

/-- The canonical list of the ranges of a class, or the error of its first bad range. -/
def ranges (cls : CharClass) : Except RangeError (List CharRange) :=
  (cls.items.mapM ClassItem.ranges).map fun lists =>
    let merged := CharRange.merge lists.flatten
    if cls.negated then CharRange.complement merged else merged

end CharClass

end PatternAutomata
