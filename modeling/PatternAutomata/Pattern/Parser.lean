import PatternAutomata.Pattern.Basic
import PatternAutomata.Pattern.SyntaxError

/-!
# Reading patterns

Recursive descent over the characters between the anchors. A production either reads a part of the
text and returns a value, or returns none and leaves the place where it started. What it learned on
the way stays: the number of groups opened so far, and the failure that got furthest into the text,
which is what an unreadable pattern is reported with.

Groups nest, so a production that may meet a group takes the production for the inside of a group as
an argument. `unionWithin` closes the circle by recursion on the depth of nesting.
-/

namespace PatternAutomata

/-- A place in a pattern, and what reading has shown so far. -/
structure Reader where
  /-- What is left of the text between the anchors. -/
  rest : List Char
  /-- How many characters of the pattern lie before `rest`. -/
  offset : Nat
  groups : Nat
  failure : Option SyntaxError
  deriving DecidableEq, Repr

namespace Reader

def advance (r : Reader) : Reader := { r with rest := r.rest.tail, offset := r.offset + 1 }

/-- Steps over `c` if it comes next. -/
def eat? (r : Reader) (c : Char) : Option Reader :=
  if r.rest.head? = some c then some r.advance else none

/-- Records a failure unless one is known at the same place or further on. -/
def fail (r : Reader) (fault : SyntaxFault) (offset : Nat) : Reader :=
  match r.failure with
  | some known => if known.offset < offset then { r with failure := some ⟨fault, offset⟩ } else r
  | none => { r with failure := some ⟨fault, offset⟩ }

/-- The place of `start` with what is known at `r`. -/
def rewind (r start : Reader) : Reader := { r with rest := start.rest, offset := start.offset }

abbrev Production (α : Type) := Reader → Option α × Reader

/-- Repeats a production until it fails. A round that reads nothing is the last one. -/
def many (p : Production α) (r : Reader) : List α × Reader :=
  match p r with
  | (none, r₁) => ([], r₁)
  | (some a, r₁) =>
    if r₁.rest.length < r.rest.length then
      let (found, r₂) := many p r₁
      (a :: found, r₂)
    else ([a], r₁)
termination_by r.rest.length

/-- Characters that never stand for themselves. -/
def isReserved (c : Char) : Bool :=
  c ∈ ['\\', '(', ')', '[', ']', '|', '^', '$']

def literalChar : Production Char := fun r =>
  match r.rest with
  | [] => (none, r)
  | c :: _ => if isReserved c then (none, r) else (some c, r.advance)

/-- What a backslash before `c` means. -/
def escaped (c : Char) : ClassItem :=
  if c = 's' then .whitespace
  else if c = 'S' then .notWhitespace
  else .single c

def escape : Production ClassItem := fun r =>
  match r.eat? '\\' with
  | none => (none, r)
  | some r₁ =>
    match r₁.rest with
    | [] => (none, r.fail .danglingEscape r.offset)
    | c :: _ => (some (escaped c), r₁.advance)

/-- Two literals joined by a dash. Whether they make a range is not decided here. -/
def classRange : Production ClassItem := fun r =>
  match literalChar r with
  | (none, r₁) => (none, r₁)
  | (some lo, r₁) =>
    match r₁.eat? '-' with
    | none => (none, r₁.rewind r)
    | some r₂ =>
      match literalChar r₂ with
      | (none, r₃) => (none, r₃.rewind r)
      | (some hi, r₃) => (some (.range lo hi), r₃)

def classItem : Production ClassItem := fun r =>
  match classRange r with
  | (some item, r₁) => (some item, r₁)
  | (none, r₁) =>
    match escape r₁ with
    | (some item, r₂) => (some item, r₂)
    | (none, r₂) =>
      match literalChar r₂ with
      | (some c, r₃) => (some (.single c), r₃)
      | (none, r₃) => (none, r₃)

/-- A class from its opening bracket on. -/
def bracketClass : Production Pattern := fun r =>
  let opened := r.advance
  let (negated, r₁) :=
    match opened.eat? '^' with
    | some r₁ => (true, r₁)
    | none => (false, opened)
  let (items, r₂) := many classItem r₁
  if items.isEmpty then (none, (r₂.fail .missingClassItem r₂.offset).rewind r)
  else
    match r₂.eat? ']' with
    | none => (none, (r₂.fail .unclosedClass r₂.offset).rewind r)
    | some r₃ => (some (.charClass ⟨items, negated⟩), r₃)

/-- A group from its opening parenthesis on. It has its number before its inside is read. -/
def group (nested : Production Pattern) : Production Pattern := fun r =>
  let opened := { r.advance with groups := r.groups + 1 }
  match nested opened with
  | (none, r₁) => (none, r₁.rewind r)
  | (some inner, r₁) =>
    match r₁.eat? ')' with
    | none => (none, (r₁.fail .unclosedGroup r₁.offset).rewind r)
    | some r₂ => (some (.group opened.groups inner), r₂)

/-- An escape outside a class stands for one character or for a class of its own. -/
def Pattern.ofEscape : ClassItem → Pattern
  | .single c => .literal c
  | item => .charClass ⟨[item], false⟩

def atom (nested : Production Pattern) : Production Pattern := fun r =>
  match r.rest with
  | [] => (none, r)
  | c :: _ =>
    if c = '(' then group nested r
    else if c = '[' then bracketClass r
    else if c = '.' then (some (.charClass .anyChar), r.advance)
    else if c = '\\' then
      match escape r with
      | (some item, r₁) => (some (Pattern.ofEscape item), r₁)
      | (none, r₁) => (none, r₁)
    else
      match literalChar r with
      | (some c, r₁) => (some (.literal c), r₁)
      | (none, r₁) => (none, r₁.fail (.unexpected c) r.offset)

def quantifier : Production Repetition := fun r =>
  match r.rest with
  | [] => (none, r)
  | c :: _ =>
    if c = '*' then (some .star, r.advance)
    else if c = '+' then (some .plus, r.advance)
    else if c = '?' then (some .optional, r.advance)
    else (none, r)

def term (nested : Production Pattern) : Production Pattern := fun r =>
  match atom nested r with
  | (none, r₁) => (none, r₁)
  | (some inner, r₁) =>
    let (kinds, r₂) := many quantifier r₁
    (some (inner.repeatedBy kinds), r₂)

/-- The terms of one branch. A branch without terms stands only at the end or before a bar. -/
def concatenation (nested : Production Pattern) : Production Pattern := fun r =>
  match term nested r with
  | (none, r₁) =>
    if r₁.rest = [] ∨ r₁.rest.head? = some '|' then (some .empty, r₁) else (none, r₁.rewind r)
  | (some first, r₁) =>
    let (others, r₂) := many (term nested) r₁
    (some (first.concatOf others), r₂)

/-- The branches after the first one, each behind a bar. -/
def moreBranches (nested : Production Pattern) (r : Reader) : Option (List Pattern) × Reader :=
  match r.eat? '|' with
  | none => (some [], r)
  | some r₁ =>
    match concatenation nested r₁ with
    | (none, r₂) => (none, r₂)
    | (some branch, r₂) =>
      if r₂.rest.length < r.rest.length then
        match moreBranches nested r₂ with
        | (none, r₃) => (none, r₃)
        | (some branches, r₃) => (some (branch :: branches), r₃)
      else (some [branch], r₂)
termination_by r.rest.length

def alternatives (nested : Production Pattern) : Production Pattern := fun r =>
  match concatenation nested r with
  | (none, r₁) => (none, r₁)
  | (some first, r₁) =>
    match moreBranches nested r₁ with
    | (none, r₂) => (none, r₂.rewind r)
    | (some others, r₂) => (some (first.unionOf others), r₂)

/-- The production for patterns in which groups nest less than `depth` deep. -/
def unionWithin : Nat → Production Pattern
  | 0 => fun r => (none, r)
  | depth + 1 => alternatives (unionWithin depth)

/-- Whether a text ends in a dollar sign with an even number of backslashes before it. -/
def endsInAnchor (text : List Char) : Bool :=
  match text.reverse with
  | '$' :: before => (before.takeWhile (· == '\\')).length % 2 == 0
  | _ => false

/-- The reader at the start of a pattern, with whether it is anchored on the left and the right. -/
def ofChars (text : List Char) : Reader × Bool × Bool :=
  let left := text.head? = some '^'
  let body := if left then text.tail else text
  let right := endsInAnchor body
  let window := if right then body.dropLast else body
  (⟨window, if left then 1 else 0, 0, none⟩, left, right)

/-- The error of a pattern that was read up to `r` and no further. -/
def error (r : Reader) : SyntaxError :=
  let r :=
    match r.rest with
    | [] => r
    | c :: _ => r.fail (.unexpected c) r.offset
  r.failure.getD ⟨.unexplained, r.offset⟩

end Reader

namespace Pattern

def ofChars (text : List Char) : Except SyntaxError Pattern :=
  let (start, left, right) := Reader.ofChars text
  match Reader.unionWithin (start.rest.length + 1) start with
  | (some inner, r) =>
    if r.rest = [] then .ok (.anchored left right inner) else .error r.error
  | (none, r) => .error r.error

/-- Reads a pattern. -/
def parse (text : String) : Except SyntaxError Pattern := ofChars text.toList

end Pattern

end PatternAutomata
