import PatternAutomata.Proofs.Grammar
import PatternAutomata.Proofs.Numbering
import PatternAutomata.Regex

/-!
# Compiled patterns recognize their trees

Reading numbers groups from one on and puts an anchored node at the root only. The tree of a text is
therefore anchored around a plain body, whatever the text is, and the automaton that is compiled from
it recognizes the words of that body.
-/

namespace PatternAutomata

namespace Pattern

theorem Plain.repeatedBy {inner : Pattern} {kinds : List Repetition} (h : inner.Plain) :
    (inner.repeatedBy kinds).Plain := by
  induction kinds generalizing inner with
  | nil => exact h
  | cons kind rest ih =>
    have hrepeated : (Pattern.repeated kind inner).Plain := h
    exact ih hrepeated

end Pattern

/-- Derived trees number groups from one on and have no anchored node. -/
theorem Grammar.Derives.plain {phrase : Grammar.Phrase} {n m : Nat} {text : List Char} {tree : Pattern}
    (h : Grammar.Derives phrase n text tree m) : tree.Plain := by
  induction h with
  | group h ih => exact ⟨Nat.succ_ne_zero _, ih⟩
  | term h kinds ih => exact ih.repeatedBy
  | single h ih => exact ih
  | concat h hstart h' ih ih' => exact ⟨ih, ih'⟩
  | last h ih => exact ih
  | union h h' ih ih' => exact ⟨ih, ih'⟩
  | _ => trivial

/-- A text that can be read has an anchored tree with a plain body. -/
theorem Pattern.exists_of_parse_eq_ok {text : String} {pattern : Pattern}
    (h : Pattern.parse text = .ok pattern) :
    ∃ left right body, pattern = .anchored left right body ∧ body.Plain := by
  obtain ⟨left, right, _, body, _, rfl, -, hderives⟩ := derives_of_parse_eq_ok h
  exact ⟨left, right, body, rfl, hderives.plain⟩

/-- A text that can be compiled has the automaton of an anchored tree with a plain body. -/
theorem Regex.exists_toNfa {text : String} {re : Regex} (h : Regex.compile text = .ok re) :
    ∃ left right body, Pattern.parse text = .ok (.anchored left right body) ∧ body.Plain ∧
      (Pattern.anchored left right body).toNfa = .ok re.nfa := by
  simp only [Regex.compile] at h
  split at h
  · cases h
  · rename_i pattern hparse
    split at h
    · cases h
    · rename_i nfa hnfa
      cases h
      obtain ⟨left, right, body, rfl, hp⟩ := Pattern.exists_of_parse_eq_ok hparse
      exact ⟨left, right, body, hparse, hp, hnfa⟩

/-- That automaton is one for the words of the tree. -/
theorem Regex.exists_recognizes {text : String} {re : Regex} (h : Regex.compile text = .ok re) :
    ∃ left right body outside gate, Pattern.parse text = .ok (.anchored left right body) ∧
      re.nfa.Recognizes left right body outside gate := by
  obtain ⟨left, right, body, hparse, hp, hnfa⟩ := exists_toNfa h
  obtain ⟨outside, gate, hr⟩ := Pattern.exists_recognizes hp hnfa
  exact ⟨left, right, body, outside, gate, hparse, hr⟩

end PatternAutomata
