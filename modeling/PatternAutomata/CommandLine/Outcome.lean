import PatternAutomata.CommandLine.Options
import PatternAutomata.Diagram.Dot
import PatternAutomata.Regex

/-!
# What the program answers

An outcome is the text for the standard output, the text for the error output, and the exit code: 0 if
all went well, 1 for input that cannot be read, 2 for arguments that are not in order, and 101 for
ranges and automata that must not occur.
-/

namespace PatternAutomata.CommandLine

structure Outcome where
  output : String := ""
  errors : String := ""
  code : Nat := 0
  deriving DecidableEq, Repr

/-- The message of a failure with its cause. -/
def failureText (what cause : String) : String :=
  s!"Error: {what}\n\nCaused by:\n    {cause}\n"

def usage : String :=
  "usage: PATTERN [INPUT] [-g|--graph nfa|dfa] [-e|--exhaustive] [-c|--captures] "
    ++ "[-a|--attr KEY=VALUE,...]\n"

/-- One line for the match and one for each of its groups. -/
def captureLines (m : Match) (subject : String) : List String :=
  s!"end {m.stop}:" ::
    m.captures.spans.zipIdx.map fun (span, group) =>
      match span with
      | some s => s!"  {group}: {s.start}..{s.stop} {Text.quote (s.extract subject)}"
      | none => s!"  {group}: -"

/-- The lines for one searched text: where the matches end, and their captures if wanted. -/
def reportLines (options : Options) (ms : List Match) (subject : String) : List String :=
  let ends := ", ".intercalate (ms.map fun m => toString m.stop)
  s!"[{ends}]" :: if options.captures then ms.flatMap (captureLines · subject) else []

/-- The text for one searched text. -/
def report (options : Options) (re : Regex) (subject : String) : Except Fault String :=
  (re.search (if options.exhaustive then .exhaustive else .bestOnly) subject).map fun ms =>
    String.join ((reportLines options ms subject).map (· ++ "\n"))

/-- The bytes of each line, given those of the first line so far in reverse. A line ends with a
newline, with a carriage return and a newline, or with the input. -/
def byteLines (line : List UInt8) : List UInt8 → List (List UInt8)
  | [] => if line.isEmpty then [] else [line.reverse]
  | byte :: rest =>
    if byte = 10 then
      (if line.head? = some 13 then line.tail else line).reverse :: byteLines [] rest
    else byteLines (byte :: line) rest

/-- Searches line after line. A line that is no text ends the search. -/
def searchLines (options : Options) (re : Regex) (output : String) :
    List (List UInt8) → Outcome
  | [] => { output }
  | line :: rest =>
    match String.fromUTF8? ⟨line.toArray⟩ with
    | none =>
      { output
        errors := failureText "Failed to read stdin" "stream did not contain valid UTF-8"
        code := 1 }
    | some subject =>
      match report options re subject with
      | .error fault => { output, errors := fault.message, code := 101 }
      | .ok text => searchLines options re (output ++ text) rest

def drawing (options : Options) (re : Regex) : DiagramKind → Except Fault String
  | .nfa => .ok (re.nfa.diagram.dot "nfa" options.attributes)
  | .dfa => re.toDfa.map fun dfa => dfa.diagram.dot "dfa" options.attributes

/-- What to do with a compiled pattern. -/
def answer (options : Options) (re : Regex) (input : List UInt8) : Outcome :=
  match options.diagram, options.input with
  | some kind, _ =>
    match drawing options re kind with
    | .error fault => { errors := fault.message, code := 101 }
    | .ok text => { output := text ++ "\n" }
  | none, some subject =>
    match report options re subject with
    | .error fault => { errors := fault.message, code := 101 }
    | .ok text => { output := text }
  | none, none => searchLines options re "" (byteLines [] input)

/-- Whether a run with some arguments searches the lines of the standard input. -/
def readsInput (args : List String) : Bool :=
  (Options.ofArguments? args).any fun options =>
    options.diagram.isNone && options.input.isNone && (Regex.compile options.pattern).isOk

/-- The outcome of a run with some arguments and the bytes of the standard input. -/
def run (args : List String) (input : List UInt8) : Outcome :=
  match Options.ofArguments? args with
  | none => { errors := usage, code := 2 }
  | some options =>
    match Regex.compile options.pattern with
    | .error (.malformed e) =>
      { errors := failureText s!"Failed to compile {Text.quote options.pattern}" e.message
        code := 1 }
    | .error (.badRange e) => { errors := e.message, code := 101 }
    | .ok re => answer options re input

end PatternAutomata.CommandLine
