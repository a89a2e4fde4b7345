import PatternAutomata.Proofs.NumberedTree
import PatternAutomata.Proofs.Numbering

/-!
# Every valid tree has an automaton for its language

A tree is valid when the bounds of the ranges that its classes write agree in case and are in order.
Nothing else is asked of it: anchored nodes may stand anywhere, groups may repeat and skip numbers, as
long as they can be counted, a class may have no items, and the root may be any node. The construction does not fail on such a
tree, and from the entry of its automaton to the final node lead exactly the words of the tree.
-/

namespace PatternAutomata

open PatternAutomata.Graph

/-- Whether the item can be made into ranges. Only a written range may be malformed. -/
def ClassItem.Valid : ClassItem → Prop
  | .range lo hi => sameCase lo hi = true ∧ lo ≤ hi
  | .single _ | .whitespace | .notWhitespace => True

instance ClassItem.decidableValid : DecidablePred ClassItem.Valid
  | .range lo hi => inferInstanceAs (Decidable (sameCase lo hi = true ∧ lo ≤ hi))
  | .single _ | .whitespace | .notWhitespace => inferInstanceAs (Decidable True)

def CharClass.Valid (cls : CharClass) : Prop := ∀ item ∈ cls.items, item.Valid

instance CharClass.decidableValid (cls : CharClass) : Decidable cls.Valid :=
  inferInstanceAs (Decidable (∀ item ∈ cls.items, item.Valid))

/-- Whether all classes of a tree are valid. -/
def Pattern.Valid : Pattern → Prop
  | .empty | .literal _ => True
  | .charClass cls => cls.Valid
  | .union left right | .concat left right => left.Valid ∧ right.Valid
  | .repeated _ inner | .group _ inner | .anchored _ _ inner => inner.Valid

instance Pattern.decidableValid : DecidablePred Pattern.Valid
  | .empty | .literal _ => inferInstanceAs (Decidable True)
  | .charClass cls => inferInstanceAs (Decidable cls.Valid)
  | .union left right | .concat left right =>
    have := decidableValid left
    have := decidableValid right
    inferInstanceAs (Decidable (left.Valid ∧ right.Valid))
  | .repeated _ inner | .group _ inner | .anchored _ _ inner => decidableValid inner

theorem ClassItem.exists_ranges {item : ClassItem} (h : item.Valid) :
    ∃ ranges, item.ranges = .ok ranges := by
  cases item with
  | range lo hi =>
    obtain ⟨hcase, hle⟩ := h
    exact ⟨[⟨lo, hi, hle⟩], by simp [ranges, CharRange.written, hcase, hle, Except.map]⟩
  | single c => exact ⟨_, rfl⟩
  | whitespace => exact ⟨_, rfl⟩
  | notWhitespace => exact ⟨_, rfl⟩

theorem ClassItem.valid_range_iff {lo hi : Char} :
    (range lo hi).Valid ↔ ∃ r, CharRange.written lo hi = .ok r := by
  simp only [Valid, CharRange.written]
  split
  · split <;> simp_all
  · simp_all

theorem exists_mapM_eq_ok {α β ε : Type} {f : α → Except ε β} {as : List α}
    (h : ∀ a ∈ as, ∃ b, f a = .ok b) : ∃ bs, as.mapM f = .ok bs := by
  induction as with
  | nil => exact ⟨[], rfl⟩
  | cons a as ih =>
    obtain ⟨hfirst, hrest⟩ := List.forall_mem_cons.mp h
    obtain ⟨b, hb⟩ := hfirst
    obtain ⟨bs, hbs⟩ := ih hrest
    refine ⟨b :: bs, ?_⟩
    rw [List.mapM_cons, hb, hbs]
    rfl

theorem CharClass.exists_ranges {cls : CharClass} (h : cls.Valid) :
    ∃ ranges, cls.ranges = .ok ranges := by
  obtain ⟨lists, hlists⟩ := exists_mapM_eq_ok fun item hitem => ClassItem.exists_ranges (h item hitem)
  rw [ranges, hlists]
  exact ⟨_, rfl⟩

/-- Written ranges are all that can make a class invalid. -/
theorem CharClass.valid_iff {cls : CharClass} : cls.Valid ↔
    ∀ lo hi, .range lo hi ∈ cls.items → ∃ r, CharRange.written lo hi = .ok r := by
  constructor
  · exact fun h lo hi hmem => ClassItem.valid_range_iff.mp (h _ hmem)
  · intro h item hmem
    cases item with
    | range lo hi => exact ClassItem.valid_range_iff.mpr (h lo hi hmem)
    | single c => trivial
    | whitespace => trivial
    | notWhitespace => trivial

/-- The construction does not fail on a valid tree, wherever its nodes start. -/
theorem Fragment.exists_ofPattern {pattern : Pattern} (h : pattern.Valid) (base : Nat) :
    ∃ f, ofPattern pattern base = .ok f := by
  induction pattern generalizing base with
  | empty => exact ⟨_, rfl⟩
  | literal c => exact ⟨_, rfl⟩
  | charClass cls =>
    obtain ⟨ranges, hranges⟩ := CharClass.exists_ranges h
    rw [ofPattern, hranges]
    exact ⟨_, rfl⟩
  | union left right ihl ihr =>
    obtain ⟨a, ha⟩ := ihl h.1 (base + 2)
    obtain ⟨b, hb⟩ := ihr h.2 a.next
    simp [ofPattern, ha, hb]
  | concat left right ihl ihr =>
    obtain ⟨a, ha⟩ := ihl h.1 base
    obtain ⟨b, hb⟩ := ihr h.2 a.next
    simp [ofPattern, ha, hb]
  | repeated kind inner ih =>
    obtain ⟨a, ha⟩ := ih h (base + 2)
    simp [ofPattern, ha, Except.map]
  | group number inner ih =>
    obtain ⟨a, ha⟩ := ih h (base + 4)
    simp [ofPattern, ha, Except.map]
  | anchored left right inner ih =>
    cases left with
    | true =>
      obtain ⟨a, ha⟩ := ih h (base + 4)
      simp [ofPattern, ha, Except.map]
    | false =>
      obtain ⟨a, ha⟩ := ih h (base + 8)
      simp [ofPattern, ha, Except.map]

namespace Pattern

variable {pattern : Pattern}

/-- The fragment of a whole tree is that of a tree with the same classes and words: the tree itself
if its root is anchored, and otherwise the tree as group 0. -/
theorem exists_root (pattern : Pattern) : ∃ root anchoredEnd,
    pattern.fragment = (Fragment.ofPattern root 0).map (·, anchoredEnd) ∧
      (root.Valid ↔ pattern.Valid) ∧ root.language = pattern.language := by
  have hvalid : (group 0 pattern).Valid ↔ pattern.Valid := Iff.rfl
  have hlanguage : (group 0 pattern).language = pattern.language := by rw [language]
  cases pattern with
  | anchored left right inner => exact ⟨anchored left right inner, right, rfl, Iff.rfl, rfl⟩
  | _ => exact ⟨_, false, rfl, hvalid, hlanguage⟩

/-- The automaton of a tree is that of some fragment for its words. -/
theorem exists_fragment {nfa : Nfa} (h : pattern.toNfa = .ok nfa) : ∃ root f anchoredEnd,
    Fragment.ofPattern root 0 = .ok f ∧ nfa = f.toNfa anchoredEnd ∧
      root.language = pattern.language := by
  obtain ⟨root, anchoredEnd, hfragment, -, hlanguage⟩ := pattern.exists_root
  obtain ⟨⟨f, e⟩, hfe, rfl⟩ := exists_of_map_eq_ok h
  rw [hfragment] at hfe
  obtain ⟨f, hf, heq⟩ := exists_of_map_eq_ok hfe
  cases heq
  exact ⟨root, f, _, hf, rfl, hlanguage⟩

theorem wellFormed_toNfa {nfa : Nfa} (h : pattern.toNfa = .ok nfa) : nfa.WellFormed := by
  obtain ⟨root, f, anchoredEnd, hf, rfl, -⟩ := exists_fragment h
  exact Fragment.wellFormed_toNfa (Fragment.ofPattern_spec root hf).1 anchoredEnd

end Pattern

/-- A valid tree has an automaton, and the words that lead through it are those of the tree. -/
theorem NumberedTree.spells_toNfa_iff {tree : NumberedTree} (h : tree.pattern.Valid) :
    ∃ nfa, tree.toNfa = .ok nfa ∧
      ∀ w, nfa.graph.Spells nfa.entry w nfa.finalId ↔ w ∈ tree.pattern.language := by
  obtain ⟨root, anchoredEnd, hfragment, hvalid, hlanguage⟩ := tree.pattern.exists_root
  obtain ⟨f, hf⟩ := Fragment.exists_ofPattern (hvalid.mpr h) 0
  obtain ⟨hscoped, hroot⟩ := Fragment.ofPattern_spec root hf
  have hnfa : tree.toNfa = .ok (f.toNfa anchoredEnd) := by
    rw [toNfa_eq, Pattern.toNfa, hfragment, hf]
    rfl
  refine ⟨_, hnfa, fun w => ?_⟩
  rw [← hlanguage, ← hroot]
  exact Fragment.spells_toNfa hscoped (Fragment.entry_mem_order hscoped)
    (Fragment.exit_mem_order hscoped)

/-- No text is read into this tree: an anchored node stands in a branch, a group has the highest number that
can be counted, and a class has no items. -/
theorem NumberedTree.spells_toNfa_anchored_branch : ∃ (tree : NumberedTree) (nfa : Nfa),
    tree.pattern = .union (.anchored false true (.group 0xfffffffffffffffe (.literal 'a')))
      (.concat (.charClass ⟨[], false⟩) (.charClass ⟨[.range 'b' 'd'], true⟩)) ∧
    tree.pattern.Valid ∧ tree.toNfa = .ok nfa ∧
      nfa.graph.Spells nfa.entry ['x', 'a'] nfa.finalId ∧
        ¬nfa.graph.Spells nfa.entry ['\n', 'a'] nfa.finalId := by
  let tree : NumberedTree :=
    ⟨.union (.anchored false true (.group 0xfffffffffffffffe (.literal 'a')))
      (.concat (.charClass ⟨[], false⟩) (.charClass ⟨[.range 'b' 'd'], true⟩)), by decide⟩
  have hvalid : tree.pattern.Valid := by decide
  obtain ⟨nfa, hnfa, hspells⟩ := spells_toNfa_iff hvalid
  refine ⟨tree, nfa, rfl, hvalid, hnfa, (hspells _).mpr ?_, fun h => ?_⟩
  · have hmem : ['x'] ++ ['a'] ∈ lineLanguage * letters (· = 'a') :=
      Language.append_mem_mul (by simp [mem_lineLanguage]) ⟨'a', rfl, rfl⟩
    exact .inl hmem
  · cases (hspells _).mp h with
    | inl h =>
      obtain ⟨u, hu, v, ⟨c, rfl, rfl⟩, huv⟩ := Language.mem_mul.mp h
      obtain rfl : u = ['\n'] := List.append_cancel_right huv
      exact hu List.mem_cons_self
    | inr h =>
      obtain ⟨u, ⟨c, hc, rfl⟩, -⟩ := Language.mem_mul.mp h
      simp [CharClass.Matches] at hc

end PatternAutomata
