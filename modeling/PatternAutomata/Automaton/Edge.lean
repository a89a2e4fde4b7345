import PatternAutomata.CharRange.Basic

/-!
# Edges

An edge leads from one numbered node to another, on any character of a range or without reading one.
-/

namespace PatternAutomata

inductive Label where
  | epsilon
  | range (r : CharRange)
  deriving DecidableEq, Repr

def Label.range? : Label → Option CharRange
  | .epsilon => none
  | .range r => some r

structure Edge where
  source : Nat
  target : Nat
  label : Label
  deriving DecidableEq, Repr

end PatternAutomata
