import PatternAutomata.Automaton.Nfa
import PatternAutomata.Text.Offsets

/-!
# Spans and captures

Places in a text are numbered by the last character read: `0` is after the first character and `-1`
before it. A span runs from the place before its first character to the place of its last one, so an
empty span starts where it stops.
-/

namespace PatternAutomata

structure Span where
  start : Int
  stop : Int
  deriving DecidableEq, Repr

namespace Span

def isEmpty (s : Span) : Bool := s.start == s.stop

/-- An integer as an unsigned word of 64 bits. -/
def word (i : Int) : Nat := (i % 0x10000000000000000).toNat

/-- The number of characters of a span. -/
def length (s : Span) : Nat := word (s.stop - s.start)

/-- The characters of a span, of which the part inside the text is kept. A start or a length below
zero counts as a word. The offset behind the span is looked up from the one in front of it on. -/
def extractChars? (s : Span) (text : List Char) : Option (List Char) :=
  let first := word (s.start + 1)
  let offsets := Text.offsets 0 text
  match offsets[first]? with
  | none => some []
  | some start =>
    if s.isEmpty then Text.slice? start start text
    else
      match s.length with
      | 0 => none
      | n + 1 =>
        Text.slice? start ((offsets.drop (first + 1))[n]?.getD (Text.byteLength text)) text

def extract? (s : Span) (text : String) : Option String :=
  (s.extractChars? text.toList).map String.ofList

/-- The text of a span. One that cannot be cut out counts as empty. -/
def extract (s : Span) (text : String) : String := (s.extract? text).getD ""

end Span

/-- What is known of a group: where it was last entered, and where it last ran. -/
structure GroupRecord where
  opened : Option Int := none
  span : Option Span := none
  deriving DecidableEq, Repr

/-- A record for every group, of which group 0 is the whole match. -/
structure Captures where
  groups : List GroupRecord
  deriving DecidableEq, Repr

namespace Captures

/-- The most groups that there is room for. The spans of all groups lie in one buffer, which has at most
`2 ^ 63 - 1` bytes, and each takes three words of eight bytes. -/
def capacity : Nat := 0x7fffffffffffffff / 24

/-- No group has been entered. -/
def blank (count : Nat) : Captures := ⟨List.replicate count {}⟩

def size (captures : Captures) : Nat := captures.groups.length

def span? (captures : Captures) (group : Nat) : Option Span :=
  captures.groups[group]?.bind (·.span)

def spans (captures : Captures) : List (Option Span) := captures.groups.map (·.span)

/-- Where the whole match started, once group 0 has been entered. -/
def matchStart (captures : Captures) : Option Int := captures.groups[0]?.bind (·.opened)

def openGroup (captures : Captures) (group : Nat) (place : Int) : Except Fault Captures :=
  match captures.groups[group]? with
  | none => .error (.missingGroup group)
  | some g => .ok ⟨captures.groups.set group { g with opened := some place }⟩

/-- Ends a group. Nothing happens to a group that was never entered. -/
def closeGroup (captures : Captures) (group : Nat) (place : Int) : Except Fault Captures :=
  match captures.groups[group]? with
  | none => .error (.missingGroup group)
  | some g =>
    match g.opened with
    | none => .ok captures
    | some start =>
      if place < start then .error (.invertedGroup group)
      else .ok ⟨captures.groups.set group { g with span := some ⟨start, place⟩ }⟩

/-- Passes a node that may carry a marker. -/
def pass (captures : Captures) (marker : Option Marker) (place : Int) : Except Fault Captures :=
  match marker with
  | none => .ok captures
  | some ⟨.groupStart, group⟩ => captures.openGroup group place
  | some ⟨.groupEnd, group⟩ => captures.closeGroup group place

end Captures

end PatternAutomata
