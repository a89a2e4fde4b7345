import PatternAutomata.Text.Escape
import PatternAutomata.Unicode.LetterCase

/-!
# Character ranges

A range is a nonempty closed interval of characters. Characters are Unicode scalar values, so the
neighbour of U+D7FF is U+E000, and the order of the bounds is part of the type.
-/

namespace PatternAutomata

/-- The last character, U+10FFFF. -/
def lastChar : Char := Char.ofNat 0x10FFFF

/-- The character before `c`. -/
def pred? (c : Char) : Option Char :=
  if c.ordinal.val = 0 then none
  else some (Char.ofOrdinal ⟨c.ordinal.val - 1, by have := c.ordinal.isLt; omega⟩)

structure CharRange where
  lo : Char
  hi : Char
  lo_le_hi : lo ≤ hi
  deriving DecidableEq, Repr

/-- Why two characters do not form a range in a pattern. -/
inductive RangeError where
  | mixedCase (lo hi : Char)
  | reversed (lo hi : Char)
  deriving DecidableEq, Repr

def RangeError.message : RangeError → String
  | .mixedCase lo hi =>
    s!"Invalid character range: {Text.quoteChar lo} and {Text.quoteChar hi} differ in case"
  | .reversed lo hi =>
    s!"Invalid character range: {Text.quoteChar lo} is greater than {Text.quoteChar hi}"

/-- Whether neither character has another lower-case form, or neither another upper-case form. -/
def sameCase (lo hi : Char) : Bool :=
  (Unicode.isLowerInvariant lo && Unicode.isLowerInvariant hi)
    || (Unicode.isUpperInvariant lo && Unicode.isUpperInvariant hi)

namespace CharRange

instance : Membership Char CharRange where
  mem r c := r.lo ≤ c ∧ c ≤ r.hi

instance (c : Char) (r : CharRange) : Decidable (c ∈ r) :=
  inferInstanceAs (Decidable (r.lo ≤ c ∧ c ≤ r.hi))

def single (c : Char) : CharRange := ⟨c, c, Char.le_refl c⟩

def ofBounds? (lo hi : Char) : Option CharRange :=
  if h : lo ≤ hi then some ⟨lo, hi, h⟩ else none

/-- A range as a pattern may write it. The case rule is checked before the order. -/
def written (lo hi : Char) : Except RangeError CharRange :=
  if sameCase lo hi then
    if h : lo ≤ hi then .ok ⟨lo, hi, h⟩ else .error (.reversed lo hi)
  else .error (.mixedCase lo hi)

/-- The characters from `c` on that come before `d`. -/
def between? (c d : Char) : Option CharRange := (pred? d).bind (ofBounds? c)

/-- The characters from `c` on. -/
def from? (c : Char) : Option CharRange := ofBounds? c lastChar

/-- Whether `s` starts right after `r` ends. -/
def abuts (r s : CharRange) : Bool := r.hi.succ? == some s.lo

def overlaps (r s : CharRange) : Bool := r.lo ≤ s.hi && s.lo ≤ r.hi

instance : Ord CharRange where
  compare := compareLex (compareOn (·.lo)) (compareOn (·.hi))

/-- By lower bound, then by upper bound. -/
def le (r s : CharRange) : Bool := (compare r s).isLE

/-- One character, or two joined by a dash. -/
def display (r : CharRange) : List Char :=
  if r.lo = r.hi then Text.escapeHidden Text.bare r.lo
  else Text.escapeHidden Text.bare r.lo ++ '-' :: Text.escapeHidden Text.bare r.hi

end CharRange

end PatternAutomata
