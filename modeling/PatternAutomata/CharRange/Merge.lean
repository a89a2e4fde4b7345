import PatternAutomata.CharRange.Basic

/-!
# Merging and complementing range lists

`merge` brings any list of ranges into canonical form: ascending, with at least one character between
a range and the next. `complement` lists the gaps of such a list.
-/

namespace PatternAutomata.CharRange

/-- Whether the later range `s` leaves no gap after `r`. -/
def reaches (r s : CharRange) : Bool := s.lo ≤ r.hi || r.abuts s

/-- The range from the start of `r` to the later of the two ends. -/
def extend (r s : CharRange) : CharRange :=
  if h : r.hi ≤ s.hi then ⟨r.lo, s.hi, Char.le_trans r.lo_le_hi h⟩ else r

/-- Joins each range of an ascending list with its neighbours, as long as they leave no gap. -/
def fuse (r : CharRange) : List CharRange → List CharRange
  | [] => [r]
  | s :: rest => if r.reaches s then fuse (r.extend s) rest else r :: fuse s rest

def merge (ranges : List CharRange) : List CharRange :=
  match ranges.mergeSort le with
  | [] => []
  | r :: rest => fuse r rest

/-- The gaps of a list from a given character on. After each range the search goes on behind it, and
it ends with a range that holds the last character. -/
def gaps : Option Char → List CharRange → List CharRange
  | none, _ => []
  | some c, [] => (from? c).toList
  | some c, r :: rest => (between? c r.lo).toList ++ gaps r.hi.succ? rest

def complement (ranges : List CharRange) : List CharRange := gaps (some '\x00') ranges

end PatternAutomata.CharRange
