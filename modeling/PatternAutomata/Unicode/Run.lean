/-!
# Sets of code points

The character properties below are finite tables. Letter case alternates over long stretches, so a
table is a list of runs with a step rather than a list of plain intervals.
-/

namespace PatternAutomata.Unicode

/-- The code points `first`, `first + step`, and so on up to `last`. -/
structure Run where
  first : Nat
  last : Nat
  step : Nat
  deriving DecidableEq, Repr

def Run.covers (r : Run) (c : Char) : Bool :=
  r.first ≤ c.toNat && c.toNat ≤ r.last && (c.toNat - r.first) % r.step == 0

/-- Whether some run of the table passes through `c`. -/
def covered (table : List Run) (c : Char) : Bool := table.any (·.covers c)

end PatternAutomata.Unicode
