import PatternAutomata.Automaton.Numbering

/-!
# Trees with numbers of their own

The groups of a text are numbered one by one. In a tree that is put together by hand the number of a
group is whatever it was given: a machine word, which may be that of another group or a very high one.
The groups are counted in a machine word as well. So the highest word cannot be the number of a group:
one more than it is no word, and the sum either wraps around or, where sums are checked, stops the
construction.
-/

namespace PatternAutomata

/-- One more than the highest number of a group, in machine words. What no word holds wraps around. -/
def Fragment.wordCount (f : Fragment) : UInt64 :=
  f.markers.foldl (fun n m => max n (m.2.group.toUInt64 + 1)) 0

/-- A tree whose groups can be counted in a machine word. -/
structure NumberedTree where
  pattern : Pattern
  fits : ∀ n ∈ pattern.numbers, n + 1 < UInt64.size
  deriving DecidableEq, Repr

/-- The automaton of a tree, with its groups counted in a machine word. -/
def NumberedTree.toNfa (tree : NumberedTree) : Except RangeError Nfa :=
  tree.pattern.fragment.map fun (f, anchoredEnd) =>
    { f.toNfa anchoredEnd with groupCount := f.wordCount.toNat }

end PatternAutomata
