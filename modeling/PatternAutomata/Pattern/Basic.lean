import PatternAutomata.CharClass

/-!
# Patterns

The tree of a pattern. A text is read into a tree whose root is `anchored`; automata are built from
any tree.
-/

namespace PatternAutomata

inductive Repetition where
  | star
  | plus
  | optional
  deriving DecidableEq, Repr

/-- Whether the repetition allows no round at all. -/
def Repetition.maySkip : Repetition → Bool
  | .plus => false
  | .star | .optional => true

/-- Whether the repetition allows more than one round. -/
def Repetition.mayLoop : Repetition → Bool
  | .optional => false
  | .star | .plus => true

inductive Pattern where
  | empty
  | literal (c : Char)
  | charClass (cls : CharClass)
  | union (left right : Pattern)
  | concat (left right : Pattern)
  | repeated (kind : Repetition) (inner : Pattern)
  /-- A capturing group. Groups in a text are numbered from 1; 0 is the whole match. Numbers that are not
  taken from a text are machine words, which is what `NumberedTree` asks of them. -/
  | group (number : Nat) (inner : Pattern)
  | anchored (left right : Bool) (inner : Pattern)
  deriving DecidableEq, Repr

namespace Pattern

/-- The union of a first branch and the branches after it, nested to the right. -/
def unionOf (first : Pattern) : List Pattern → Pattern
  | [] => first
  | next :: rest => .union first (unionOf next rest)

/-- The concatenation of a first term and the terms after it, nested to the right. -/
def concatOf (first : Pattern) : List Pattern → Pattern
  | [] => first
  | next :: rest => .concat first (concatOf next rest)

/-- The outermost repetition is the last of the list. -/
def repeatedBy (inner : Pattern) (kinds : List Repetition) : Pattern :=
  kinds.foldl (fun pattern kind => .repeated kind pattern) inner

/-- The groups of a tree with their numbers, an outer group before those inside it. -/
def groups : Pattern → List (Nat × Pattern)
  | .empty | .literal _ | .charClass _ => []
  | .union left right | .concat left right => left.groups ++ right.groups
  | .repeated _ inner | .anchored _ _ inner => inner.groups
  | .group number inner => (number, inner) :: inner.groups

/-- The numbers of the groups of a tree. -/
def numbers (pattern : Pattern) : List Nat := pattern.groups.map Prod.fst

end Pattern

end PatternAutomata
