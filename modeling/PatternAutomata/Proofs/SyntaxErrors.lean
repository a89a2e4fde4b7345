import Mathlib
import PatternAutomata.Proofs.Failures

/-!
# Where syntax errors are

The offset of a syntax error is that of the furthest failure. The text before it can be completed to a
pattern. With one character more it cannot, except that a dollar sign may be the anchor at the end.
-/

namespace PatternAutomata

open Grammar

namespace Reader

/-- The anchors of a text are taken off before it is read. -/
theorem exists_ofChars (text : List Char) : ∃ left right inside,
    ofChars text = (⟨inside, left.toNat, 0, none⟩, left, right) ∧
      text = (if left then ['^'] else []) ++ inside ++ (if right then ['$'] else []) ∧
      (left = false → text.head? ≠ some '^') ∧ (right = true → waits inside = false) := by
  refine ⟨(ofChars text).2.1, (ofChars text).2.2, (ofChars text).1.rest, ?_, text_ofChars text,
    fun hleft => ?_, fun hright => ?_⟩
  · by_cases hleft : text.head? = some '^' <;> simp [ofChars, hleft]
  · simpa [ofChars] using hleft
  · have hanchor : endsInAnchor (if text.head? = some '^' then text.tail else text) = true := by
      simpa only [ofChars] using hright
    have hwaits := hanchor
    rw [← dropLast_append_dollar hanchor, endsInAnchor_append, Bool.not_eq_true'] at hwaits
    simp only [ofChars, hanchor, ↓reduceIte]
    exact hwaits

end Reader

/-- What the grammar derives is what a scan gets through to where a pattern may end. -/
theorem Grammar.exists_derives_iff {inside : List Char} :
    (∃ tree groups, Derives (.union true) 0 inside tree groups) ↔
      ∃ s, Scan.start.scan? inside = some s ∧ s.Whole := by
  constructor
  · rintro ⟨tree, groups, h⟩
    obtain ⟨mode, hmode, hscan, -⟩ := h.exists_scan (d := 0) (rfl : ScanMode.branch.outside)
    exact ⟨_, hscan, rfl, hmode⟩
  · rintro ⟨s, hscan, hwhole⟩
    cases hread : Reader.unionWithin (inside.length + 1) ⟨inside, 0, 0, none⟩ with
    | mk result r =>
      by_cases h : result = none ∨ r.rest ≠ []
      · obtain ⟨e, s', r', -, ⟨text, hrest, -, hreached⟩, -, hblocks⟩ := Reader.blames_error hread h
        have hrest : inside = text ++ r'.rest := hrest
        rw [hrest, Scan.scan?_append, hreached] at hscan
        exact (hblocks.not_whole hscan hwhole).elim
      · simp only [not_or, ne_eq, not_not] at h
        obtain ⟨tree, rfl⟩ := Option.ne_none_iff_exists'.mp h.1
        obtain ⟨text, hrest, hderives⟩ := Reader.readsBefore_unionWithin _ _ _ _ hread
        rw [h.2, List.append_nil] at hrest
        rw [h.2] at hderives
        have hrest : inside = text := hrest
        exact ⟨tree, r.groups, hrest ▸ hderives (by simp)⟩

namespace Pattern

variable {text text' : String} {pattern : Pattern} {e : SyntaxError} {s : Scan} {c : Char}
  {left : Bool} {before : List Char}

/-- The error of a text lies where its scan does not get on. -/
theorem exists_blocks_of_parse (h : Pattern.parse text = .error e) : ∃ left right before after s,
    text.toList = (if left then ['^'] else []) ++ (before ++ after) ++ (if right then ['$'] else []) ∧
      (left = false → text.toList.head? ≠ some '^') ∧ (right = true → waits (before ++ after) = false) ∧
      e.offset = left.toNat + before.length ∧ Scan.start.scan? before = some s ∧
      Blocks s after e.fault := by
  obtain ⟨left, right, inside, hchars, htext, hleft, hright⟩ := Reader.exists_ofChars text.toList
  have hblames : Reader.Blames .start ⟨inside, left.toNat, 0, none⟩ (some e) := by
    simp only [Pattern.parse, Pattern.ofChars, hchars] at h
    split at h
    · rename_i tree r hread
      split at h
      · cases h
      · rename_i hrest
        cases h
        exact Reader.blames_error hread (.inr hrest)
    · rename_i r hread
      cases h
      exact Reader.blames_error hread (.inl rfl)
  obtain ⟨e', s, r, he, ⟨before, hrest, hoffset, hscan⟩, hplace, hblocks⟩ := hblames
  cases he
  have hrest : inside = before ++ r.rest := hrest
  rw [hrest] at htext hright
  exact ⟨left, right, before, r.rest, s, htext, hleft, hright, hplace.trans hoffset, hscan, hblocks⟩

/-- A text that is scanned can be completed to a pattern. -/
theorem exists_parse_of_scan (left : Bool) (h : Scan.start.scan? before = some s) :
    ∃ more pattern,
      Pattern.parse (.ofList ((if left then ['^'] else []) ++ before ++ more)) = .ok pattern := by
  obtain ⟨more, s', hmore, hwhole⟩ := s.exists_completion
  have hscan : Scan.start.scan? (before ++ more) = some s' := by
    rw [Scan.scan?_append, h]
    exact hmore
  obtain ⟨tree, groups, hderives⟩ := Grammar.exists_derives_iff.mpr ⟨s', hscan, hwhole⟩
  refine ⟨more, .anchored left false tree, parse_eq_ok_of_derives ?_ hderives⟩
  simp

theorem head?_eq_caret_iff {rest : List Char} (h : left = false → rest.head? ≠ some '^') :
    ((if left then ['^'] else []) ++ rest).head? = some '^' ↔ left = true := by
  cases left <;> simp_all

/-- Behind a character that the scan does not take no pattern goes on. It may be an anchor at the end. -/
theorem eq_of_step?_eq_none (hscan : Scan.start.scan? before = some s) (hstep : s.step? c = none)
    (hleft : left = false → (before ++ [c]).head? ≠ some '^') (h : Pattern.parse text' = .ok pattern)
    (hstarts : (if left then ['^'] else []) ++ (before ++ [c]) <+: text'.toList) :
    text'.toList = (if left then ['^'] else []) ++ (before ++ [c]) := by
  obtain ⟨left', right', inside, tree, groups, -, htext', hderives⟩ := derives_of_parse_eq_ok h
  have hstuck : ¬before ++ [c] <+: inside := by
    rintro ⟨more, rfl⟩
    obtain ⟨s', hwhole, -⟩ := Grammar.exists_derives_iff.mp ⟨tree, groups, hderives⟩
    obtain ⟨between, hbetween⟩ := Scan.exists_scan?_of_append hwhole
    rw [Scan.scan?_concat, hscan, Option.bind_some, hstep] at hbetween
    cases hbetween
  have hcaret : (inside ++ if right' then ['$'] else []).head? ≠ some '^' := by
    cases inside with
    | nil => cases right' <;> simp
    | cons c inside => exact hderives.head?_ne_caret
  -- The caret in front is an anchor of both texts or of neither.
  have hsame : left = left' := by
    have hne : (if left then ['^'] else []) ++ (before ++ [c]) ≠ [] := by simp
    obtain ⟨tail, htail⟩ := hstarts
    rw [Bool.eq_iff_iff]
    calc left = true
        ↔ ((if left then ['^'] else []) ++ (before ++ [c])).head? = some '^' :=
          (head?_eq_caret_iff hleft).symm
      _ ↔ text'.toList.head? = some '^' := by rw [← htail, List.head?_append_of_ne_nil _ hne]
      _ ↔ left' = true := by
        rw [htext', List.append_assoc]
        exact head?_eq_caret_iff fun _ => hcaret
  subst hsame
  rw [htext', List.append_assoc, List.prefix_append_right_inj] at hstarts
  rw [htext', List.append_assoc, List.append_cancel_left_eq]
  cases right' with
  | false => exact (hstuck (by simpa using hstarts)).elim
  | true => exact ((List.prefix_concat_iff.mp hstarts).resolve_right hstuck).symm

/-- The character at the place of an error is taken by no scan, be it the dollar sign of an anchor, unless
it is a backslash at the end of the text. -/
theorem step?_eq_none_of_blocks {right : Bool} {after tail : List Char} {fault : SyntaxFault}
    (hscan : Scan.start.scan? before = some s) (hb : Blocks s after fault)
    (hright : right = true → waits (before ++ after) = false)
    (hnext : after ++ (if right then ['$'] else []) = c :: tail) :
    s.step? c = none ∨ fault = .danglingEscape ∧ c = '\\' ∧ tail = [] := by
  cases hb with
  | ended _ =>
    cases right with
    | false => cases hnext
    | true =>
      cases hnext
      rw [List.append_nil] at hright
      exact .inl (Scan.step?_dollar ((Scan.waits_scan? hscan).trans (hright rfl)))
  | barred h =>
    cases hnext
    exact .inl h
  | dangling h =>
    cases right with
    | false =>
      cases hnext
      exact .inr ⟨rfl, rfl, rfl⟩
    | true =>
      -- Behind this backslash the dollar sign would be no anchor.
      have hwaits := hright rfl
      rw [waits_append, ← Scan.waits_scan? hscan, h] at hwaits
      cases hwaits

/-- Where the offset of a syntax error points: the text before it can be completed to a pattern. With the
next character it cannot be continued to one any more, unless the error is the backslash at the end of the
text, behind which a character is missing. -/
theorem offset_of_parse_eq_error (h : Pattern.parse text = .error e) :
    e.offset ≤ text.length ∧
      (∃ more pattern, Pattern.parse (.ofList (text.toList.take e.offset ++ more)) = .ok pattern) ∧
      (e.offset < text.length →
        e.fault = .danglingEscape ∧ text.toList.drop e.offset = ['\\'] ∨
        ∀ text' pattern, Pattern.parse text' = .ok pattern →
          text.toList.take (e.offset + 1) <+: text'.toList →
            text'.toList = text.toList.take (e.offset + 1)) := by
  obtain ⟨left, right, before, after, s, htext, hleft, hright, hoffset, hscan, hblocks⟩ :=
    exists_blocks_of_parse h
  have hlength : (if left then ['^'] else [] : List Char).length = left.toNat := by cases left <;> rfl
  rw [List.append_assoc, List.append_assoc, ← List.append_assoc _ before] at htext
  have hoffset : e.offset = ((if left then ['^'] else []) ++ before).length := by
    rw [List.length_append, hlength, hoffset]
  have htake : text.toList.take e.offset = (if left then ['^'] else []) ++ before := by
    rw [htext, hoffset, List.take_left']
    rfl
  have hdrop : text.toList.drop e.offset = after ++ if right then ['$'] else [] := by
    rw [htext, hoffset, List.drop_left']
    rfl
  refine ⟨?_, ?_, fun hlt => ?_⟩
  · have htotal := congrArg List.length htext
    rw [List.length_append, ← hoffset, String.length_toList] at htotal
    omega
  · rw [htake]
    exact exists_parse_of_scan left hscan
  · cases hnext : after ++ if right then ['$'] else [] with
    | nil =>
      rw [hnext, List.drop_eq_nil_iff, String.length_toList] at hdrop
      omega
    | cons c tail =>
      have htake' : text.toList.take (e.offset + 1) = (if left then ['^'] else []) ++ (before ++ [c]) := by
        rw [List.take_add, htake, hdrop, hnext, List.append_assoc]
        rfl
      rcases step?_eq_none_of_blocks hscan hblocks hright hnext with hstep | ⟨hfault, rfl, rfl⟩
      · right
        intro text' pattern hparse hstarts
        rw [htake'] at hstarts ⊢
        refine eq_of_step?_eq_none hscan hstep (fun hl hhead => hleft hl ?_) hparse hstarts
        rw [htext, hnext, ← hhead]
        cases before <;> simp [hl]
      · exact .inl ⟨hfault, hdrop.trans hnext⟩

/-- The class goes wrong at its second caret, and then the group and the whole text fail further back. The
error is that of the class. -/
theorem offset_of_parse_eq_error_class : Pattern.parse "(a|[^b^c])" = .error ⟨.unclosedClass, 6⟩ ∧
    (∃ more pattern, Pattern.parse (.ofList ("(a|[^b".toList ++ more)) = .ok pattern) ∧
    ∀ text' pattern, Pattern.parse text' = .ok pattern → "(a|[^b^".toList <+: text'.toList →
      text'.toList = "(a|[^b^".toList := by
  have hparse : Pattern.parse "(a|[^b^c])" = .error ⟨.unclosedClass, 6⟩ := by cbv
  obtain ⟨-, hmore, hstuck⟩ := offset_of_parse_eq_error hparse
  exact ⟨hparse, hmore, (hstuck (by decide)).resolve_left fun h => by cases h.1⟩

end Pattern

end PatternAutomata
