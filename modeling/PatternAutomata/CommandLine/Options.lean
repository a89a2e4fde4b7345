import PatternAutomata.Unicode.Blank

/-!
# Options

The arguments are a pattern and, if wanted, a text to search in, with options anywhere between them. An
option has a short and a long name. Short options may share one dash, and the value of an option
follows in the same argument, after an equals sign if one likes, or in the next one. A value in an
argument of its own does not start with a dash, unless it is the dash alone. After two dashes nothing
is an option.
-/

namespace PatternAutomata.CommandLine

inductive DiagramKind where
  | nfa
  | dfa
  deriving DecidableEq, Repr

structure Options where
  pattern : String
  /-- The text to search in. Without it every line of the standard input is searched. -/
  input : Option String
  /-- The automaton to draw instead of searching. -/
  diagram : Option DiagramKind
  exhaustive : Bool
  captures : Bool
  /-- The attributes of the drawing. -/
  attributes : List (String × String)
  deriving DecidableEq, Repr

/-- What has been read of the arguments. -/
structure Reading where
  positionals : List String := []
  diagram : Option DiagramKind := none
  exhaustive : Bool := false
  captures : Bool := false
  attributes : List (String × String) := []
  deriving DecidableEq, Repr

inductive Flag where
  | exhaustive
  | captures
  deriving DecidableEq, Repr

inductive Setting where
  | diagram
  | attributes
  deriving DecidableEq, Repr

inductive OptionName where
  | flag (f : Flag)
  | setting (s : Setting)
  deriving DecidableEq, Repr

def OptionName.ofShort? (c : Char) : Option OptionName :=
  if c = 'e' then some (.flag .exhaustive)
  else if c = 'c' then some (.flag .captures)
  else if c = 'g' then some (.setting .diagram)
  else if c = 'a' then some (.setting .attributes)
  else none

def OptionName.ofLong? (name : List Char) : Option OptionName :=
  if name = "exhaustive".toList then some (.flag .exhaustive)
  else if name = "captures".toList then some (.flag .captures)
  else if name = "graph".toList then some (.setting .diagram)
  else if name = "attr".toList then some (.setting .attributes)
  else none

/-- The parts of a text between separators. -/
def splitAt (separator : Char) : List Char → List (List Char)
  | [] => [[]]
  | c :: rest =>
    if c = separator then [] :: splitAt separator rest
    else
      match splitAt separator rest with
      | [] => [[c]]
      | part :: parts => (c :: part) :: parts

/-- A key and a value around the first equals sign. A pair with an empty side counts for nothing. -/
def attribute? (text : List Char) : Option (Option (String × String)) :=
  match text.span (· ≠ '=') with
  | (_, []) => none
  | (key, _ :: value) =>
    let key := Unicode.trimBlank key
    let value := Unicode.trimBlank value
    if key.isEmpty || value.isEmpty then some none
    else some (some (String.ofList key, String.ofList value))

namespace Reading

/-- A flag may be given once. -/
def set? (r : Reading) : Flag → Option Reading
  | .exhaustive => if r.exhaustive then none else some { r with exhaustive := true }
  | .captures => if r.captures then none else some { r with captures := true }

/-- The kind of diagram may be given once, attributes any number of times. -/
def assign? (r : Reading) (value : List Char) : Setting → Option Reading
  | .diagram =>
    if r.diagram.isSome then none
    else if value = "nfa".toList then some { r with diagram := some .nfa }
    else if value = "dfa".toList then some { r with diagram := some .dfa }
    else none
  | .attributes =>
    ((splitAt ',' value).mapM attribute?).map fun pairs =>
      { r with attributes := r.attributes ++ pairs.filterMap id }

def addPositional? (r : Reading) (value : String) : Option Reading :=
  if r.positionals.length < 2 then some { r with positionals := r.positionals ++ [value] }
  else none

/-- Reads the letters behind a dash. The result names the setting whose value is still to come. -/
def shorts? (r : Reading) : List Char → Option (Reading × Option Setting)
  | [] => some (r, none)
  | c :: rest =>
    match OptionName.ofShort? c with
    | none => none
    | some (.flag f) => (r.set? f).bind (·.shorts? rest)
    | some (.setting s) =>
      match rest with
      | [] => some (r, some s)
      | '=' :: value => (r.assign? value s).map (·, none)
      | value => (r.assign? value s).map (·, none)

/-- Reads a long option with the value attached to it, if there is one. -/
def long? (r : Reading) (name : List Char) (value : Option (List Char)) :
    Option (Reading × Option Setting) :=
  match OptionName.ofLong? name, value with
  | none, _ => none
  | some (.flag f), none => (r.set? f).map (·, none)
  | some (.flag _), some _ => none
  | some (.setting s), none => some (r, some s)
  | some (.setting s), some value => (r.assign? value s).map (·, none)

/-- Reads an argument that starts with a dash and is longer than that. -/
def dashed? (r : Reading) : List Char → Option (Reading × Option Setting)
  | '-' :: long =>
    match long.span (· ≠ '=') with
    | (name, []) => r.long? name none
    | (name, _ :: value) => r.long? name (some value)
  | shorts => r.shorts? shorts

/-- Reads all arguments, given the setting that waits for its value. -/
def arguments? (r : Reading) (waiting : Option Setting) : List String → Option Reading
  | [] => if waiting.isSome then none else some r
  | arg :: rest =>
    match arg.toList, waiting with
    | ['-', '-'], none => rest.foldlM addPositional? r
    | '-' :: c :: option, none =>
      match r.dashed? (c :: option) with
      | none => none
      | some (r, waiting) => r.arguments? waiting rest
    | '-' :: _ :: _, some _ => none
    | value, some s =>
      match r.assign? value s with
      | none => none
      | some r => r.arguments? none rest
    | _, none =>
      match r.addPositional? arg with
      | none => none
      | some r => r.arguments? none rest

end Reading

/-- The options that the arguments give, if they are in order. -/
def Options.ofArguments? (args : List String) : Option Options :=
  match ({} : Reading).arguments? none args with
  | none => none
  | some r =>
    match r.positionals with
    | [] => none
    | pattern :: others =>
      some
        { pattern
          input := others.head?
          diagram := r.diagram
          exhaustive := r.exhaustive
          captures := r.captures
          attributes := r.attributes }

end PatternAutomata.CommandLine
