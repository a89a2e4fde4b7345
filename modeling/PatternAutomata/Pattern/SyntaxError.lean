import PatternAutomata.Text.Escape

/-!
# Syntax errors
-/

namespace PatternAutomata

/-- What is wrong at some place of a pattern. -/
inductive SyntaxFault where
  | unexpected (c : Char)
  | unclosedGroup
  | missingClassItem
  | unclosedClass
  | danglingEscape
  /-- No production said what it missed. -/
  | unexplained
  deriving DecidableEq, Repr

def SyntaxFault.message : SyntaxFault → String
  | .unexpected c => s!"unexpected character {Text.quoteChar c}"
  | .unclosedGroup => "expected ')'"
  | .missingClassItem => "expected a character class item"
  | .unclosedClass => "expected ']'"
  | .danglingEscape => "dangling escape at end of pattern"
  | .unexplained => "invalid pattern"

/-- A fault with its place, counted in characters from the start of the pattern. -/
structure SyntaxError where
  fault : SyntaxFault
  offset : Nat
  deriving DecidableEq, Repr

def SyntaxError.message (e : SyntaxError) : String :=
  s!"Syntax error at offset {e.offset}: {e.fault.message}"

end PatternAutomata
