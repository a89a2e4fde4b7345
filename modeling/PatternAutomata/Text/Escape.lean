import PatternAutomata.Unicode.Visible

/-!
# Escaped text

Two ways to write a character so that it survives in a line of text. `escapeHidden` keeps every
character that can be seen and is used for messages and for the display of ranges. `escapeForeign`
keeps printable ASCII only and is used inside the quotes of dot text. Both write a backslash before
the characters they must mark and fall back to the code point in hexadecimal.
-/

namespace PatternAutomata.Text

/-- Which quotation marks are written with a backslash. -/
structure Quotes where
  single : Bool
  double : Bool
  deriving DecidableEq, Repr

def Quotes.marks (quotes : Quotes) (c : Char) : Bool :=
  (quotes.single && c == '\x27') || (quotes.double && c == '\x22')

/-- Inside single quotes only the single quote is marked. -/
def insideSingle : Quotes := ⟨true, false⟩

/-- Inside double quotes only the double quote is marked. -/
def insideDouble : Quotes := ⟨false, true⟩

/-- Outside any quotes both are marked. -/
def bare : Quotes := ⟨true, true⟩

/-- The letter that stands for a character after a backslash. -/
def shortEscape? (c : Char) : Option Char :=
  if c = '\t' then some 't'
  else if c = '\r' then some 'r'
  else if c = '\n' then some 'n'
  else if c = '\\' then some '\\'
  else none

/-- A code point in braces: lower-case hexadecimal digits without padding. -/
def escapeCodePoint (c : Char) : List Char :=
  '\\' :: 'u' :: '\x7b' :: Nat.toDigits 16 c.toNat ++ ['\x7d']

/-- Keeps what can be seen. -/
def escapeHidden (quotes : Quotes) (c : Char) : List Char :=
  if c = '\x00' then ['\\', '0']
  else
    match shortEscape? c with
    | some letter => ['\\', letter]
    | none =>
      if quotes.marks c then ['\\', c]
      else if Unicode.isVisible c then [c]
      else escapeCodePoint c

/-- Keeps printable ASCII. -/
def escapeForeign (c : Char) : List Char :=
  match shortEscape? c with
  | some letter => ['\\', letter]
  | none =>
    if bare.marks c then ['\\', c]
    else if 0x20 ≤ c.toNat ∧ c.toNat ≤ 0x7E then [c]
    else escapeCodePoint c

/-- A character between single quotes. -/
def quoteChar (c : Char) : String :=
  String.ofList ('\x27' :: escapeHidden insideSingle c ++ ['\x27'])

/-- A text between double quotes. -/
def quote (text : String) : String :=
  String.ofList ('\x22' :: text.toList.flatMap (escapeHidden insideDouble) ++ ['\x22'])

end PatternAutomata.Text
