import PatternAutomata.Pattern.Basic

/-!
# The grammar of patterns

What is a pattern, and the tree of each, said without a reader:

    union      := branch ('|' union)?
    branch     := term*
    term       := atom ('*' | '+' | '?')*
    atom       := literal | '.' | class | '(' union ')' | escape
    class      := '[' '^'? (range | escape | literal)+ ']'
    range      := literal '-' literal
    literal    := any character except \ ( ) [ ] | ^ $
    escape     := '\' any character

A branch without terms stands only before a bar or at the end of the whole pattern. A term takes all the
repetitions behind it, so `*`, `+` and `?` are literals only where a branch starts. Groups are numbered
by their opening parentheses from left to right.
-/

namespace PatternAutomata

/-- How a repetition is written. -/
def Repetition.symbol : Repetition → Char
  | .star => '*'
  | .plus => '+'
  | .optional => '?'

namespace Grammar

/-- The characters that are no literals. -/
def reserved : List Char := ['\\', '(', ')', '[', ']', '|', '^', '$']

/-- The text starts with no repetition. -/
def Unrepeated (text : List Char) : Prop := ∀ kind : Repetition, text.head? ≠ some kind.symbol

/-- The items of a class in their order. Two literals around a dash are a range wherever they can be. -/
inductive ClassText : List Char → List ClassItem → Prop
  | nil : ClassText [] []
  | range {lo hi : Char} {text : List Char} {items : List ClassItem} (hlo : lo ∉ reserved)
      (hhi : hi ∉ reserved) (h : ClassText text items) :
      ClassText (lo :: '-' :: hi :: text) (.range lo hi :: items)
  | whitespace {text : List Char} {items : List ClassItem} (h : ClassText text items) :
      ClassText ('\\' :: 's' :: text) (.whitespace :: items)
  | notWhitespace {text : List Char} {items : List ClassItem} (h : ClassText text items) :
      ClassText ('\\' :: 'S' :: text) (.notWhitespace :: items)
  | escaped {c : Char} {text : List Char} {items : List ClassItem} (hs : c ≠ 's') (hS : c ≠ 'S')
      (h : ClassText text items) : ClassText ('\\' :: c :: text) (.single c :: items)
  | literal {c : Char} {text : List Char} {items : List ClassItem} (hc : c ∉ reserved)
      (hrange : ∀ hi tail, text = '-' :: hi :: tail → hi ∈ reserved) (h : ClassText text items) :
      ClassText (c :: text) (.single c :: items)

inductive Phrase where
  | atom
  | term
  /-- Where a bar or the end of the pattern follows, a branch may be empty. -/
  | branch (mayBeEmpty : Bool)
  /-- The last branch may be empty only if the pattern ends behind it. -/
  | union (mayEndEmpty : Bool)
  deriving DecidableEq, Repr

/-- `Derives phrase n text tree m`: the text is such a phrase with this tree. Before it `n` groups have been
opened, and `m` behind it. -/
inductive Derives : Phrase → Nat → List Char → Pattern → Nat → Prop
  | literal {n : Nat} {c : Char} (hc : c ∉ reserved) (hdot : c ≠ '.') :
      Derives .atom n [c] (.literal c) n
  | dot {n : Nat} : Derives .atom n ['.'] (.charClass .anyChar) n
  | whitespace {n : Nat} : Derives .atom n ['\\', 's'] (.charClass ⟨[.whitespace], false⟩) n
  | notWhitespace {n : Nat} : Derives .atom n ['\\', 'S'] (.charClass ⟨[.notWhitespace], false⟩) n
  | escaped {n : Nat} {c : Char} (hs : c ≠ 's') (hS : c ≠ 'S') :
      Derives .atom n ['\\', c] (.literal c) n
  | charClass {n : Nat} {negated : Bool} {text : List Char} {items : List ClassItem}
      (h : ClassText text items) (hne : items ≠ []) :
      Derives .atom n ('[' :: (if negated then ['^'] else []) ++ text ++ [']'])
        (.charClass ⟨items, negated⟩) n
  | group {n m : Nat} {text : List Char} {inner : Pattern}
      (h : Derives (.union false) (n + 1) text inner m) :
      Derives .atom n ('(' :: text ++ [')']) (.group (n + 1) inner) m
  | term {n m : Nat} {text : List Char} {inner : Pattern} (h : Derives .atom n text inner m)
      (kinds : List Repetition) :
      Derives .term n (text ++ kinds.map Repetition.symbol) (inner.repeatedBy kinds) m
  | empty {n : Nat} : Derives (.branch true) n [] .empty n
  | single {mayBeEmpty : Bool} {n m : Nat} {text : List Char} {inner : Pattern}
      (h : Derives .term n text inner m) : Derives (.branch mayBeEmpty) n text inner m
  | concat {mayBeEmpty : Bool} {n m k : Nat} {text text' : List Char} {first rest : Pattern}
      (h : Derives .term n text first m) (hend : Unrepeated text')
      (h' : Derives (.branch false) m text' rest k) :
      Derives (.branch mayBeEmpty) n (text ++ text') (.concat first rest) k
  | last {mayEndEmpty : Bool} {n m : Nat} {text : List Char} {branch : Pattern}
      (h : Derives (.branch mayEndEmpty) n text branch m) :
      Derives (.union mayEndEmpty) n text branch m
  | union {mayEndEmpty : Bool} {n m k : Nat} {text text' : List Char} {first rest : Pattern}
      (h : Derives (.branch true) n text first m) (h' : Derives (.union mayEndEmpty) m text' rest k) :
      Derives (.union mayEndEmpty) n (text ++ '|' :: text') (.union first rest) k

end Grammar

end PatternAutomata
