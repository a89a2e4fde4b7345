import PatternAutomata.Automaton.NumberedTree
import PatternAutomata.Proofs.Numbering

/-!
# Counting groups in machine words

The markers of a fragment carry the numbers of its tree, and 0 for the whole match. Their count in
machine words is the one without bounds exactly if no sum wraps around, that is, if one more than each
number is a machine word. So the automaton of a tree with numbers of its own is the automaton of its
pattern, and its errors are those of its pattern.
-/

namespace PatternAutomata

namespace Fragment

variable {f : Fragment} {base : Nat}

/-- The numbers of the markers are those of the tree, and that of the whole match. -/
theorem group_mem_numbers (pattern : Pattern) (h : ofPattern pattern base = .ok f) :
    ∀ m ∈ f.markers, m.2.group ∈ 0 :: pattern.numbers := by
  induction pattern generalizing base f with
  | empty | literal =>
    cases h
    simp [link]
  | charClass cls =>
    obtain ⟨ranges, -, rfl⟩ := exists_of_map_eq_ok h
    simp [link]
  | union left right ihl ihr =>
    obtain ⟨a, b, ha, hb, rfl⟩ := of_union_eq_ok h
    have hleft := ihl ha
    have hright := ihr hb
    simp only [Pattern.numbers, Pattern.groups, choice, List.map_append] at *
    grind
  | concat left right ihl ihr =>
    obtain ⟨a, b, ha, hb, rfl⟩ := of_concat_eq_ok h
    have hleft := ihl ha
    have hright := ihr hb
    simp only [Pattern.numbers, Pattern.groups, sequence, List.map_append] at *
    grind
  | repeated kind inner ih =>
    obtain ⟨a, ha, rfl⟩ := exists_of_map_eq_ok h
    have hinner := ih ha
    exact hinner
  | group number inner ih =>
    obtain ⟨a, ha, rfl⟩ := exists_of_map_eq_ok h
    have hinner := ih ha
    simp only [Pattern.numbers, Pattern.groups, marked, List.map_cons] at *
    grind
  | anchored left right inner ih =>
    cases left with
    | true =>
      obtain ⟨a, ha, rfl⟩ := exists_of_map_eq_ok h
      have hinner := ih ha
      simp only [Pattern.numbers, Pattern.groups, marked] at *
      grind
    | false =>
      obtain ⟨a, ha, rfl⟩ := exists_of_map_eq_ok h
      have hinner := ih ha
      simp only [Pattern.numbers, Pattern.groups, sequence, runUp, rounds, link, marked] at *
      grind

/-- The count in machine words is the right one exactly if one more than each number is a word. -/
theorem toNat_wordCount_iff : f.wordCount.toNat = f.groupCount ↔
    ∀ m ∈ f.markers, m.2.group + 1 < UInt64.size := by
  have hfold : ∀ (ms : List (Nat × Marker)) (n : UInt64), (∀ m ∈ ms, m.2.group + 1 < UInt64.size) →
      (ms.foldl (fun n m => max n (m.2.group.toUInt64 + 1)) n).toNat =
        ms.foldl (fun n m => max n (m.2.group + 1)) n.toNat := by
    intro ms
    induction ms with
    | nil => exact fun n _ => rfl
    | cons m ms ih =>
      intro n hms
      have hword : (m.2.group.toUInt64 + 1).toNat = m.2.group + 1 := by
        have := hms m List.mem_cons_self
        simp
        omega
      rw [List.foldl_cons, List.foldl_cons, ih _ fun m' hm' => hms m' (List.mem_cons_of_mem _ hm'),
        UInt64.toNat_max, hword]
  constructor
  · intro heq m hm
    have hlt := group_lt_groupCount hm
    have hword := f.wordCount.toNat_lt
    rw [heq] at hword
    exact Nat.lt_of_le_of_lt hlt hword
  · exact hfold f.markers 0

/-- Behind the highest word the count starts again. -/
example : (marked 0 0xffffffffffffffff (link 4 [.epsilon])).wordCount = 0 := by decide

end Fragment

/-- The numbers of a whole pattern are those of its tree, and that of the whole match. -/
theorem Pattern.group_mem_numbers {pattern : Pattern} {f : Fragment} {anchoredEnd : Bool}
    (h : pattern.fragment = .ok (f, anchoredEnd)) : ∀ m ∈ f.markers, m.2.group ∈ 0 :: pattern.numbers := by
  have hgroup : (Fragment.ofPattern (.group 0 pattern) 0).map (·, false) = .ok (f, anchoredEnd) →
      ∀ m ∈ f.markers, m.2.group ∈ 0 :: pattern.numbers := by
    intro h m hm
    obtain ⟨f, hf, heq⟩ := exists_of_map_eq_ok h
    cases heq
    simpa [numbers, groups] using Fragment.group_mem_numbers _ hf m hm
  cases pattern with
  | anchored left right inner =>
    obtain ⟨f, hf, heq⟩ := exists_of_map_eq_ok h
    cases heq
    exact Fragment.group_mem_numbers _ hf
  | _ => exact hgroup h

namespace NumberedTree

variable {tree : NumberedTree} {nfa : Nfa}

/-- Nothing is lost by counting in machine words. -/
theorem toNfa_eq (tree : NumberedTree) : tree.toNfa = tree.pattern.toNfa := by
  rw [toNfa, Pattern.toNfa]
  cases hfragment : tree.pattern.fragment with
  | error e => rfl
  | ok whole =>
    obtain ⟨f, anchoredEnd⟩ := whole
    have hcount : f.wordCount.toNat = f.groupCount := by
      refine Fragment.toNat_wordCount_iff.mpr fun m hm => ?_
      rcases List.mem_cons.mp (Pattern.group_mem_numbers hfragment m hm) with hzero | hnumber
      · rw [hzero]
        decide
      · exact tree.fits _ hnumber
    simp only [Except.map, hcount]
    rfl

/-- The count is a machine word. -/
theorem groupCount_lt (h : tree.toNfa = .ok nfa) : nfa.groupCount < UInt64.size := by
  obtain ⟨⟨f, anchoredEnd⟩, -, rfl⟩ := exists_of_map_eq_ok h
  exact f.wordCount.toNat_lt

end NumberedTree

end PatternAutomata
