import PatternAutomata.Diagram.Dot
import PatternAutomata.Proofs.Escapes

/-!
# Labels in dot text

The bounds of a range are escaped twice, for display and for the quotes of dot text, and can be read back
all the same. What follows a bound tells its part in the label: a dash makes it the start of a range,
and a comma ends the range. Both characters may be bounds themselves, but only where a bound has to stand.
The mark of an epsilon is no printable ASCII, and no escaped text starts with it.

So a label tells the ranges and the epsilon of its bundle, and between double quotes it is not cut short.
-/

namespace PatternAutomata

namespace Text

/-- How a bound of a range is written in a label. -/
def bound (c : Char) : List Char := dotValue (escapeHidden bare c)

variable {c : Char} {text text' : List Char}

theorem selfDelimiting_bound : SelfDelimiting bound :=
  (selfDelimiting_escapeHidden bare).flatMap selfDelimiting_escapeForeign

theorem quotable_dotValue (text : List Char) : Quotable (dotValue text) :=
  .flatMap fun c _ => quotable_escapeForeign c

/-- Escaped text does not start with the mark of an epsilon. -/
theorem bound_append_ne : bound c ++ text ≠ 'ε' :: text' := by
  intro h
  have hshown := readEscaped_escapeHidden bare c []
  rw [List.append_nil] at hshown
  cases hcode : escapeHidden bare c with
  | nil =>
    rw [hcode] at hshown
    cases hshown
  | cons d rest =>
    rw [bound, dotValue, hcode, List.flatMap_cons, List.append_assoc] at h
    -- What starts with the letter can only be the letter, which is not written as itself.
    have hread := readEscaped_escapeForeign d (rest.flatMap escapeForeign ++ text)
    rw [h, readEscaped_of_ne (by decide)] at hread
    obtain ⟨rfl, -⟩ := Prod.mk.inj (Option.some.inj hread)
    cases h

theorem bound_ne_nil : bound c ≠ [] := by
  intro h
  have heq : bound c ++ ['ε'] = 'ε' :: [] := by rw [h, List.nil_append]
  exact bound_append_ne heq

end Text

open Text

theorem CharRange.dotValue_display (r : CharRange) :
    dotValue r.display = bound r.lo ++ if r.lo = r.hi then [] else '-' :: bound r.hi := by
  have hdash : escapeForeign '-' = ['-'] := by decide
  rw [CharRange.display]
  split
  · rw [bound, List.append_nil]
  · rw [dotValue, List.flatMap_append, List.flatMap_cons, hdash]
    rfl

theorem CharRange.dotValue_display_ne_nil (r : CharRange) : dotValue r.display ≠ [] := by
  rw [r.dotValue_display]
  exact List.append_ne_nil_of_left_ne_nil bound_ne_nil _

/-- Each part of a label behind a comma. -/
def joined (parts : List (List Char)) : List Char := parts.flatMap (',' :: ·)

section Joined

variable {parts parts' : List (List Char)} {r r' : CharRange} {text : List Char}

theorem intercalate_cons (part : List Char) (parts : List (List Char)) :
    [','].intercalate (part :: parts) = part ++ joined parts := by
  induction parts generalizing part with
  | nil => simp [joined, List.intercalate]
  | cons next parts ih =>
    rw [List.intercalate_cons_cons, ih, joined, joined, List.flatMap_cons]
    simp

theorem joined_ne_dash : joined parts ≠ '-' :: text := by
  cases parts with
  | nil => exact nofun
  | cons part parts =>
    intro h
    exact absurd (List.cons.inj h).1 (by decide)

/-- A range in front of further parts can be told. -/
theorem range_eq_of_append_joined
    (h : dotValue r.display ++ joined parts = dotValue r'.display ++ joined parts') :
    r = r' ∧ joined parts = joined parts' := by
  rw [r.dotValue_display, r'.dotValue_display, List.append_assoc, List.append_assoc] at h
  obtain ⟨hlo, hrest⟩ := selfDelimiting_bound _ _ _ _ h
  obtain ⟨lo, hi, hle⟩ := r
  obtain ⟨lo', hi', hle'⟩ := r'
  dsimp only at hlo hrest
  subst hlo
  by_cases hsingle : lo = hi
  · by_cases hsingle' : lo = hi'
    · rw [if_pos hsingle, if_pos hsingle', List.nil_append, List.nil_append] at hrest
      subst hsingle hsingle'
      exact ⟨rfl, hrest⟩
    · rw [if_pos hsingle, if_neg hsingle', List.nil_append, List.cons_append] at hrest
      exact (joined_ne_dash hrest).elim
  · by_cases hsingle' : lo = hi'
    · rw [if_neg hsingle, if_pos hsingle', List.nil_append, List.cons_append] at hrest
      exact (joined_ne_dash hrest.symm).elim
    · rw [if_neg hsingle, if_neg hsingle', List.cons_append, List.cons_append] at hrest
      obtain ⟨rfl, hparts⟩ := selfDelimiting_bound _ _ _ _ (List.cons.inj hrest).2
      exact ⟨rfl, hparts⟩

end Joined

namespace Bundle

/-- The parts of a label with the given ranges. -/
def partsOf (ranges : List CharRange) (epsilon : Bool) : List (List Char) :=
  ranges.map (fun r => dotValue r.display) ++ if epsilon then [['ε']] else []

theorem partsOf_cons (r : CharRange) (ranges : List CharRange) (epsilon : Bool) :
    joined (partsOf (r :: ranges) epsilon) =
      ',' :: (dotValue r.display ++ joined (partsOf ranges epsilon)) := rfl

/-- The mark of an epsilon stands in no other place than behind all ranges. -/
theorem joined_partsOf_nil_ne (epsilon : Bool) (r : CharRange) (text : List Char) :
    joined (partsOf [] epsilon) ≠ ',' :: (dotValue r.display ++ text) := by
  cases epsilon with
  | false => exact nofun
  | true =>
    intro h
    have hmark : dotValue r.display ++ text = 'ε' :: [] := (List.cons.inj h).2.symm
    rw [r.dotValue_display, List.append_assoc] at hmark
    exact bound_append_ne hmark

theorem partsOf_inj {ranges ranges' : List CharRange} {epsilon epsilon' : Bool}
    (h : joined (partsOf ranges epsilon) = joined (partsOf ranges' epsilon')) :
    ranges = ranges' ∧ epsilon = epsilon' := by
  induction ranges generalizing ranges' with
  | nil =>
    cases ranges' with
    | nil =>
      refine ⟨rfl, ?_⟩
      cases epsilon <;> cases epsilon' <;> first | rfl | cases h
    | cons r' ranges' => exact (joined_partsOf_nil_ne epsilon r' _ h).elim
  | cons r ranges ih =>
    cases ranges' with
    | nil => exact (joined_partsOf_nil_ne epsilon' r _ h.symm).elim
    | cons r' ranges' =>
      rw [partsOf_cons, partsOf_cons] at h
      obtain ⟨rfl, hrest⟩ := range_eq_of_append_joined (List.cons.inj h).2
      obtain ⟨rfl, hepsilon⟩ := ih hrest
      exact ⟨rfl, hepsilon⟩

theorem mem_labelParts {b : Bundle} {part : List Char} : part ∈ b.labelParts ↔
    (∃ r ∈ b.ranges, dotValue r.display = part) ∨ b.epsilon = true ∧ part = ['ε'] := by
  cases hepsilon : b.epsilon <;> simp [labelParts, hepsilon]

theorem part_ne_nil (b : Bundle) : ∀ part ∈ b.labelParts, part ≠ [] := by
  intro part hpart
  rcases mem_labelParts.mp hpart with ⟨r, -, rfl⟩ | ⟨-, rfl⟩
  · exact r.dotValue_display_ne_nil
  · exact List.cons_ne_nil _ _

/-- The parts are known from the label, which is empty only if there are none. -/
theorem joined_labelParts (b : Bundle) :
    joined b.labelParts = if b.label = [] then [] else ',' :: b.label := by
  have hne := b.part_ne_nil
  rw [label]
  cases hparts : b.labelParts with
  | nil => rfl
  | cons part parts =>
    rw [hparts] at hne
    rw [intercalate_cons, if_neg (List.append_ne_nil_of_left_ne_nil (hne part List.mem_cons_self) _)]
    rfl

theorem quotable_label (b : Bundle) : Quotable b.label := by
  have hparts : ∀ part ∈ b.labelParts, Quotable part := by
    intro part hpart
    rcases mem_labelParts.mp hpart with ⟨r, -, rfl⟩ | ⟨-, rfl⟩
    · exact quotable_dotValue r.display
    · exact quotable_singleton (by decide) (by decide)
  have hcomma : Quotable [','] := quotable_singleton (by decide) (by decide)
  rw [label]
  cases hlabel : b.labelParts with
  | nil => exact quotable_nil
  | cons part parts =>
    rw [hlabel] at hparts
    obtain ⟨hpart, hrest⟩ := List.forall_mem_cons.mp hparts
    rw [intercalate_cons]
    exact hpart.append (.flatMap fun next hnext => hcomma.append (hrest next hnext))

/-- A label tells the ranges and the epsilon of its bundle, whatever characters the ranges hold. Among the
characters that stand for themselves in it there is no double quote, and no backslash takes the quote behind
it. -/
theorem label_unambiguous :
    (∀ b b' : Bundle, b.label = b'.label ↔ b.ranges = b'.ranges ∧ b.epsilon = b'.epsilon) ∧
      ∀ b : Bundle, ∀ c ∈ bareChars b.label, c ≠ '\x22' ∧ c ≠ '\\' := by
  refine ⟨fun b b' => ⟨fun h => ?_, fun h => ?_⟩, fun b => b.quotable_label.bareChars⟩
  · have hjoined : joined b.labelParts = joined b'.labelParts := by
      rw [joined_labelParts, joined_labelParts, h]
    exact partsOf_inj hjoined
  · rw [label, label, labelParts, labelParts, h.1, h.2]

/-- A quote, a comma and a range that starts with the dash are told from the signs of the label itself. -/
example : label ⟨0, 1, [.single '\x22', .single ',', ⟨'-', '/', by decide⟩], true⟩ =
    ['\\', '\\', '\\', '\x22', ',', ',', ',', '-', '-', '/', ',', 'ε'] := by
  decide +kernel

end Bundle

end PatternAutomata
