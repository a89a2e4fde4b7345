import PatternAutomata.Proofs.Compiled
import PatternAutomata.Proofs.Construction

/-!
# Trees without an automaton

Only a written range can keep a tree from having an automaton. All ranges of the tree are looked at, also
where no text ever leads, in the order in which they are written, and the first one that is refused gives
the error. A tree with numbers of its own fails like its pattern, by `NumberedTree.toNfa_eq`. Reading a
pattern looks at none of the ranges: a class of two characters joined by a dash is read whatever the
characters are.
-/

namespace PatternAutomata

open CharRange

section Failures

variable {α β ε : Type}

/-- The error of a computation, if it fails. -/
def errorOf? : Except ε α → Option ε
  | .ok _ => none
  | .error e => some e

@[simp] theorem errorOf?_ok (a : α) : errorOf? (.ok a : Except ε α) = none := rfl

@[simp] theorem errorOf?_error (e : ε) : errorOf? (.error e : Except ε α) = some e := rfl

theorem errorOf?_eq_some_iff {x : Except ε α} {e : ε} : errorOf? x = some e ↔ x = .error e := by
  cases x <;> simp

theorem errorOf?_eq_none_iff {x : Except ε α} : errorOf? x = none ↔ ∃ a, x = .ok a := by
  cases x <;> simp

@[simp] theorem errorOf?_map (f : α → β) (x : Except ε α) : errorOf? (x.map f) = errorOf? x := by
  cases x <;> rfl

/-- A list of computations fails with the first of their errors. -/
theorem errorOf?_mapM (f : α → Except ε β) (as : List α) :
    errorOf? (as.mapM f) = as.findSome? fun a => errorOf? (f a) := by
  induction as with
  | nil => rfl
  | cons a as ih =>
    rw [List.mapM_cons, List.findSome?_cons]
    cases hfirst : f a with
    | error e => rfl
    | ok b =>
      rw [errorOf?_ok, ← ih]
      cases as.mapM f <;> rfl

end Failures

/-- Only a written range is ever refused. -/
theorem ClassItem.errorOf?_ranges_eq_some_iff {item : ClassItem} {e : RangeError} :
    errorOf? item.ranges = some e ↔ ∃ lo hi, item = .range lo hi ∧ written lo hi = .error e := by
  cases item with
  | range lo hi =>
    rw [ranges, errorOf?_map, errorOf?_eq_some_iff]
    simp
  | single c => simp [ranges]
  | whitespace => simp [ranges]
  | notWhitespace => simp [ranges]

namespace Pattern

variable {pattern : Pattern} {e : RangeError}

/-- The items of all classes of a tree, in the order in which they are written. -/
def items : Pattern → List ClassItem
  | .empty | .literal _ => []
  | .charClass cls => cls.items
  | .union left right | .concat left right => left.items ++ right.items
  | .repeated _ inner | .group _ inner | .anchored _ _ inner => inner.items

/-- The error of the first item that is refused. -/
def firstError? (items : List ClassItem) : Option RangeError :=
  items.findSome? fun item => errorOf? item.ranges

theorem firstError?_append (items others : List ClassItem) :
    firstError? (items ++ others) = (firstError? items).or (firstError? others) :=
  List.findSome?_append

/-- The items in front of the first one that is refused write ranges that are accepted. -/
theorem firstError?_eq_some_iff {items : List ClassItem} : firstError? items = some e ↔
    ∃ before lo hi after, items = before ++ .range lo hi :: after ∧ written lo hi = .error e ∧
      ∀ lo' hi', .range lo' hi' ∈ before → ∃ r, written lo' hi' = .ok r := by
  rw [firstError?, List.findSome?_eq_some_iff]
  constructor
  · rintro ⟨before, item, after, rfl, he, hbefore⟩
    obtain ⟨lo, hi, rfl, hw⟩ := ClassItem.errorOf?_ranges_eq_some_iff.mp he
    refine ⟨before, lo, hi, after, rfl, hw, fun lo' hi' hmem => ?_⟩
    have hnone := hbefore _ hmem
    rwa [ClassItem.ranges, errorOf?_map, errorOf?_eq_none_iff] at hnone
  · rintro ⟨before, lo, hi, after, rfl, hw, hbefore⟩
    have he : errorOf? (ClassItem.range lo hi).ranges = some e :=
      ClassItem.errorOf?_ranges_eq_some_iff.mpr ⟨lo, hi, rfl, hw⟩
    refine ⟨before, _, after, rfl, he, fun item hmem => ?_⟩
    by_contra hne
    obtain ⟨e', he'⟩ := Option.ne_none_iff_exists'.mp hne
    obtain ⟨lo', hi', rfl, hw'⟩ := ClassItem.errorOf?_ranges_eq_some_iff.mp he'
    obtain ⟨r, hr⟩ := hbefore lo' hi' hmem
    rw [hw'] at hr
    cases hr

end Pattern

/-- A fragment fails with the first error of its tree, wherever its nodes start. -/
theorem Fragment.errorOf?_ofPattern (pattern : Pattern) (base : Nat) :
    errorOf? (ofPattern pattern base) = Pattern.firstError? pattern.items := by
  induction pattern generalizing base with
  | empty => rfl
  | literal c => rfl
  | charClass cls =>
    rw [ofPattern, errorOf?_map, CharClass.ranges, errorOf?_map, errorOf?_mapM]
    rfl
  | union left right ihl ihr =>
    rw [Pattern.items, Pattern.firstError?_append, ← ihl (base + 2), ofPattern]
    cases ofPattern left (base + 2) with
    | error e => rfl
    | ok a =>
      simp only [← ihr a.next]
      cases ofPattern right a.next <;> rfl
  | concat left right ihl ihr =>
    rw [Pattern.items, Pattern.firstError?_append, ← ihl base, ofPattern]
    cases ofPattern left base with
    | error e => rfl
    | ok a =>
      simp only [← ihr a.next]
      cases ofPattern right a.next <;> rfl
  | repeated kind inner ih => rw [ofPattern, errorOf?_map, ih, Pattern.items]
  | group number inner ih => rw [ofPattern, errorOf?_map, ih, Pattern.items]
  | anchored left right inner ih =>
    cases left <;> rw [ofPattern, errorOf?_map, ih, Pattern.items]

namespace Pattern

/-- The group that is put around a root without anchors has the items of the root. -/
theorem errorOf?_toNfa (pattern : Pattern) : errorOf? pattern.toNfa = firstError? pattern.items := by
  have hgroup : errorOf? (Fragment.ofPattern (.group 0 pattern) 0) = firstError? pattern.items :=
    Fragment.errorOf?_ofPattern _ 0
  rw [toNfa, errorOf?_map]
  cases pattern with
  | anchored left right inner => rw [fragment, errorOf?_map, Fragment.errorOf?_ofPattern]
  | _ => simp only [fragment, errorOf?_map, hgroup]

theorem exists_firstError?_iff {items : List ClassItem} : (∃ e, firstError? items = some e) ↔
    ∃ lo hi e, .range lo hi ∈ items ∧ written lo hi = .error e := by
  rw [firstError?, ← Option.isSome_iff_exists, List.findSome?_isSome_iff]
  simp only [Option.isSome_iff_exists, ClassItem.errorOf?_ranges_eq_some_iff]
  constructor
  · rintro ⟨item, hmem, e, lo, hi, rfl, hw⟩
    exact ⟨lo, hi, e, hmem, hw⟩
  · rintro ⟨lo, hi, e, hmem, hw⟩
    exact ⟨_, hmem, e, lo, hi, rfl, hw⟩

/-- Two literals with a dash between them are a class, in either order and case. -/
theorem parse_class {lo hi : Char} (hlo : lo ∉ Grammar.reserved) (hhi : hi ∉ Grammar.reserved) :
    Pattern.parse (String.ofList ['[', lo, '-', hi, ']']) =
      .ok (.anchored false false (.charClass ⟨[.range lo hi], false⟩)) := by
  have hclass : Grammar.ClassText [lo, '-', hi] [.range lo hi] := .range hlo hhi .nil
  have hatom : Grammar.Derives .atom 0 ['[', lo, '-', hi, ']'] (.charClass ⟨[.range lo hi], false⟩) 0 :=
    @Grammar.Derives.charClass 0 false _ _ hclass (List.cons_ne_nil _ _)
  have hunion : Grammar.Derives (.union true) 0 ['[', lo, '-', hi, ']'] _ 0 :=
    .last (.single (.term hatom []))
  exact parse_eq_ok_of_derives (by simp) hunion

end Pattern

/-- Only a text that was read can fail on its ranges. -/
theorem Regex.compile_eq_badRange_iff {text : String} {e : RangeError} :
    Regex.compile text = .error (.badRange e) ↔
      ∃ pattern, Pattern.parse text = .ok pattern ∧ pattern.toNfa = .error e := by
  rw [Regex.compile]
  cases Pattern.parse text with
  | error e' => simp
  | ok pattern => cases hnfa : pattern.toNfa <;> simp [hnfa]

namespace Pattern

/-- A tree has no automaton exactly if some class of it writes a range that is refused. The error is that
of the first such range of the tree. It is never the error of reading a text, since a text is read without
regard to the ranges: two literals with a dash between them make a class in either order and case. A tree
with numbers of its own fails as its pattern does. -/
theorem toNfa_eq_error_iff :
    (∀ (pattern : Pattern) (e : RangeError), pattern.toNfa = .error e ↔
      ∃ before lo hi after, pattern.items = before ++ .range lo hi :: after ∧ written lo hi = .error e ∧
        ∀ lo' hi', .range lo' hi' ∈ before → ∃ r, written lo' hi' = .ok r) ∧
    (∀ pattern : Pattern, (∃ e, pattern.toNfa = .error e) ↔
      ∃ lo hi e, .range lo hi ∈ pattern.items ∧ written lo hi = .error e) ∧
    (∀ text e, Regex.compile text = .error (.badRange e) ↔
      ∃ pattern, Pattern.parse text = .ok pattern ∧ pattern.toNfa = .error e) ∧
    (∀ lo hi, lo ∉ Grammar.reserved → hi ∉ Grammar.reserved →
      Pattern.parse (String.ofList ['[', lo, '-', hi, ']']) =
        .ok (.anchored false false (.charClass ⟨[.range lo hi], false⟩))) ∧
    ∀ tree : NumberedTree, tree.toNfa = tree.pattern.toNfa := by
  refine ⟨fun pattern e => ?_, fun pattern => ?_, fun text e => ?_, fun lo hi hlo hhi => ?_,
    NumberedTree.toNfa_eq⟩
  · rw [← errorOf?_eq_some_iff, errorOf?_toNfa, firstError?_eq_some_iff]
  · simp only [← errorOf?_eq_some_iff, errorOf?_toNfa, exists_firstError?_iff]
  · exact Regex.compile_eq_badRange_iff
  · exact parse_class hlo hhi

/-- Nothing gets past a class without items, and a later branch has a bad range of its own. -/
theorem toNfa_eq_error_unreachable : ∃ pattern : Pattern,
    pattern = .union
      (.concat (.charClass ⟨[], false⟩) (.charClass ⟨[.range 'b' 'd', .single 'x', .range 'z' 'a'], true⟩))
      (.charClass ⟨[.range 'a' 'Z'], false⟩) ∧
    written 'a' 'Z' = .error (.mixedCase 'a' 'Z') ∧ pattern.toNfa = .error (.reversed 'z' 'a') := by
  have hbad : written 'z' 'a' = .error (.reversed 'z' 'a') := by cbv
  have hgood : written 'b' 'd' = .ok ⟨'b', 'd', by decide⟩ := by cbv
  refine ⟨_, rfl, by cbv, (toNfa_eq_error_iff.1 _ _).mpr
    ⟨[.range 'b' 'd', .single 'x'], 'z', 'a', [.range 'a' 'Z'], rfl, hbad, fun lo hi hmem => ?_⟩⟩
  simp only [List.mem_cons, ClassItem.range.injEq, reduceCtorEq, List.not_mem_nil, or_false] at hmem
  obtain ⟨rfl, rfl⟩ := hmem
  exact ⟨_, hgood⟩

end Pattern

end PatternAutomata
