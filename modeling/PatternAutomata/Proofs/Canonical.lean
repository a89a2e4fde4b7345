import Mathlib
import PatternAutomata.Proofs.Construction

/-!
# Range lists in canonical form

Separated ranges are determined by the characters that they cover: the first of them starts at the first
covered character and ends in front of the first one behind it that is not covered, and the others cover
what comes later. So merging yields one list for each set of characters, complementing twice changes
nothing, and classes for the same characters have the same ranges, however they are written.
-/

namespace PatternAutomata

theorem exists_index_eq {i : Nat} (h : i < Char.numCodePoints) : ∃ c, index c = i :=
  ⟨Char.ofOrdinal ⟨i, h⟩, by simp [index]⟩

namespace CharRange

variable {r s : CharRange} {c : Char} {ranges others rest : List CharRange}

theorem separated_iff : Separated r s ↔ ∃ c, r.hi < c ∧ c < s.lo := by
  simp only [lt_iff_index_lt]
  constructor
  · intro h
    have hlo := index_lt s.lo
    simp only [Separated] at h
    obtain ⟨c, hc⟩ := exists_index_eq (i := index r.hi + 1) (by omega)
    exact ⟨c, by omega, by omega⟩
  · rintro ⟨c, hr, hs⟩
    simp only [Separated]
    omega

theorem eq_of_index_eq (hlo : index r.lo = index s.lo) (hhi : index r.hi = index s.hi) : r = s := by
  cases r
  cases s
  simp_all [index_inj]

/-- A separated list starts at the first character it covers. -/
theorem lo_le_of_covers (h : (r :: rest).Pairwise Separated) (hc : Covers (r :: rest) c) :
    index r.lo ≤ index c := by
  rcases covers_cons.mp hc with hc | hc
  · exact (mem_iff.mp hc).1
  · have := behind_of_covers h hc
    have := r.index_lo_le_hi
    omega

/-- A range whose characters are all covered goes no further than the range that it starts with. -/
theorem hi_le_of_covers (h : (s :: rest).Pairwise Separated) (hlo : index r.lo = index s.lo)
    (hcov : ∀ c ∈ r, Covers (s :: rest) c) : index r.hi ≤ index s.hi := by
  by_contra hlt
  have hr := index_lt r.hi
  have hs := s.index_lo_le_hi
  -- the character right behind `s` belongs to `r`, but to no range of the list
  obtain ⟨c, hc⟩ := exists_index_eq (i := index s.hi + 1) (by omega)
  rcases covers_cons.mp (hcov c (mem_iff.mpr (by omega))) with hmem | hmem
  · rw [mem_iff] at hmem
    omega
  · have := behind_of_covers h hmem
    omega

theorem covers_rest_iff (h : (r :: rest).Pairwise Separated) :
    Covers rest c ↔ Covers (r :: rest) c ∧ index r.hi < index c := by
  rw [covers_cons, mem_iff]
  constructor
  · intro hc
    exact ⟨.inr hc, by have := behind_of_covers h hc; omega⟩
  · rintro ⟨hmem | hc, hlt⟩
    · omega
    · exact hc

/-- Separated lists that cover the same characters are equal. -/
theorem eq_of_covers_iff (hr : ranges.Pairwise Separated) (ho : others.Pairwise Separated)
    (hcov : ∀ c, Covers ranges c ↔ Covers others c) : ranges = others := by
  induction ranges generalizing others with
  | nil =>
    cases others with
    | nil => rfl
    | cons s rest => exact absurd ((hcov s.lo).mpr (covers_cons.mpr (.inl s.lo_mem))) covers_nil
  | cons r ranges ih =>
    cases others with
    | nil => exact absurd ((hcov r.lo).mp (covers_cons.mpr (.inl r.lo_mem))) covers_nil
    | cons s others =>
      have hrs : ∀ c ∈ r, Covers (s :: others) c := fun c hc => (hcov c).mp (covers_cons.mpr (.inl hc))
      have hsr : ∀ c ∈ s, Covers (r :: ranges) c := fun c hc => (hcov c).mpr (covers_cons.mpr (.inl hc))
      have hlo : index r.lo = index s.lo :=
        Nat.le_antisymm (lo_le_of_covers hr (hsr _ s.lo_mem)) (lo_le_of_covers ho (hrs _ r.lo_mem))
      have hhi : index r.hi = index s.hi :=
        Nat.le_antisymm (hi_le_of_covers ho hlo hrs) (hi_le_of_covers hr hlo.symm hsr)
      obtain rfl := eq_of_index_eq hlo hhi
      rw [ih hr.of_cons ho.of_cons fun c => ?_]
      rw [covers_rest_iff hr, covers_rest_iff ho, hcov]

theorem merge_eq_merge_iff : merge ranges = merge others ↔ ∀ c, Covers ranges c ↔ Covers others c := by
  constructor
  · intro heq c
    rw [← covers_merge, heq, covers_merge]
  · intro hcov
    refine eq_of_covers_iff (merge_separated ranges) (merge_separated others) fun c => ?_
    rw [covers_merge, covers_merge, hcov]

theorem complement_complement (h : ranges.Pairwise Separated) :
    complement (complement ranges) = ranges := by
  have hsep := complement_separated h
  refine eq_of_covers_iff (complement_separated hsep) h fun c => ?_
  rw [covers_complement hsep, covers_complement h, not_not]

/-- The merged list is the canonical form of the characters that some ranges cover: it covers them, a
character lies between any two of its ranges, and every list for the same characters merges into it. -/
theorem merge_canonical (ranges : List CharRange) :
    (merge ranges).Pairwise (fun r s => ∃ c, r.hi < c ∧ c < s.lo) ∧
      (∀ c, Covers (merge ranges) c ↔ Covers ranges c) ∧
      (∀ others, merge others = merge ranges ↔ ∀ c, Covers others c ↔ Covers ranges c) ∧
      merge (merge ranges) = merge ranges ∧
      ∀ others, (∀ r, r ∈ others ↔ r ∈ ranges) → merge others = merge ranges := by
  refine ⟨(merge_separated ranges).imp separated_iff.mp, fun c => covers_merge,
    fun others => merge_eq_merge_iff, merge_eq_merge_iff.mpr fun c => covers_merge,
    fun others hmem => merge_eq_merge_iff.mpr fun c => ?_⟩
  simp only [Covers, hmem]

/-- The surrogates leave no gap between the two halves, and the order of the ranges plays no part. -/
theorem merge_canonical_surrogates : ∃ ranges others : List CharRange,
    ranges = [⟨'\uE000', '\uE005', by decide⟩, single 'x', ⟨'a', '\uD7FF', by decide⟩] ∧
    others = single 'x' :: ranges.reverse ∧ (∀ r, r ∈ others ↔ r ∈ ranges) ∧
      merge others = merge ranges ∧ merge ranges = [⟨'a', '\uE005', by decide⟩] := by
  have hmem (r : CharRange) : r ∈ single 'x' ::
      [⟨'\uE000', '\uE005', by decide⟩, single 'x', ⟨'a', '\uD7FF', by decide⟩].reverse ↔
        r ∈ [⟨'\uE000', '\uE005', by decide⟩, single 'x', ⟨'a', '\uD7FF', by decide⟩] := by
    rw [List.mem_cons, List.mem_reverse]
    exact or_iff_right_of_imp fun h => by simp [h]
  refine ⟨_, _, rfl, rfl, hmem, (merge_canonical _).2.2.2.2 _ hmem, ?_⟩
  cbv

/-- The complement of a merged list covers exactly the other characters, a character lies between any two
of its ranges, and its complement is the merged list again. -/
theorem complement_merge (ranges : List CharRange) :
    (∀ c, Covers (complement (merge ranges)) c ↔ ¬Covers (merge ranges) c) ∧
      (complement (merge ranges)).Pairwise (fun r s => ∃ c, r.hi < c ∧ c < s.lo) ∧
      complement (complement (merge ranges)) = merge ranges := by
  have hsep := merge_separated ranges
  exact ⟨fun c => covers_complement hsep, (complement_separated hsep).imp separated_iff.mp,
    complement_complement hsep⟩

end CharRange

open CharRange

/-- A class whose written ranges are accepted has ranges for exactly the characters that it matches. They
depend on these characters alone, and so do the edges that a pattern gets from the class. -/
theorem CharClass.ranges_canonical {cls other : CharClass}
    (hcls : ∀ lo hi, .range lo hi ∈ cls.items → ∃ r, written lo hi = .ok r)
    (hother : ∀ lo hi, .range lo hi ∈ other.items → ∃ r, written lo hi = .ok r) :
    ∃ ranges, cls.ranges = .ok ranges ∧ (∀ c, Covers ranges c ↔ cls.Matches c) ∧
      ((∀ c, other.Matches c ↔ cls.Matches c) → other.ranges = .ok ranges ∧
        ∀ base, Fragment.ofPattern (.charClass other) base = Fragment.ofPattern (.charClass cls) base) := by
  obtain ⟨ranges, hranges⟩ := CharClass.exists_ranges (CharClass.valid_iff.mpr hcls)
  obtain ⟨ranges', hranges'⟩ := CharClass.exists_ranges (CharClass.valid_iff.mpr hother)
  refine ⟨ranges, hranges, fun c => CharClass.covers_ranges hranges, fun hmatches => ?_⟩
  have heq : ranges' = ranges := by
    refine eq_of_covers_iff (CharClass.ranges_separated hranges') (CharClass.ranges_separated hranges)
      fun c => ?_
    rw [CharClass.covers_ranges hranges', hmatches, CharClass.covers_ranges hranges]
  rw [heq] at hranges'
  exact ⟨hranges', fun base => by rw [Fragment.ofPattern, Fragment.ofPattern, hranges, hranges']⟩

/-- Three ways to write white space. The range in the second one holds nothing else. -/
theorem CharClass.ranges_canonical_whitespace : ∃ classes : List CharClass,
    classes = [⟨[.whitespace], false⟩, ⟨[.range '\t' '\r', .whitespace], false⟩,
      ⟨[.notWhitespace], true⟩] ∧
    (∀ cls ∈ classes, ∀ lo hi, .range lo hi ∈ cls.items → ∃ r, written lo hi = .ok r) ∧
    (∀ cls ∈ classes, ∀ c, cls.Matches c ↔ c ∈ patternSpace) ∧
    ∀ cls ∈ classes, ∀ other ∈ classes, other.ranges = cls.ranges ∧
      Fragment.ofPattern (.charClass other) 0 = Fragment.ofPattern (.charClass cls) 0 := by
  generalize hclasses : [(⟨[.whitespace], false⟩ : CharClass),
    ⟨[.range '\t' '\r', .whitespace], false⟩, ⟨[.notWhitespace], true⟩] = classes
  have haccepted : ∀ cls ∈ classes, ∀ lo hi, .range lo hi ∈ cls.items → ∃ r, written lo hi = .ok r := by
    have hrange : ∃ r, written '\t' '\r' = .ok r := ⟨⟨'\t', '\r', by decide⟩, by cbv⟩
    simp [← hclasses, hrange]
  have hspace (c : Char) : '\t' ≤ c ∧ c ≤ '\r' → c ∈ patternSpace := by
    rintro ⟨hlo, hhi⟩
    have hcases : c.toNat = 9 ∨ c.toNat = 10 ∨ c.toNat = 11 ∨ c.toNat = 12 ∨ c.toNat = 13 := by
      have h9 : 9 ≤ c.toNat := hlo
      have h13 : c.toNat ≤ 13 := hhi
      omega
    rw [← Char.ofNat_toNat c]
    rcases hcases with h | h | h | h | h <;> rw [h] <;> decide
  have hmatches : ∀ cls ∈ classes, ∀ c, cls.Matches c ↔ c ∈ patternSpace := by
    intro cls hcls c
    simp only [← hclasses, List.mem_cons, List.not_mem_nil, or_false] at hcls
    rcases hcls with rfl | rfl | rfl
    · simp [CharClass.Matches, ClassItem.Matches]
    · simp only [CharClass.Matches, ClassItem.Matches, List.mem_cons, List.not_mem_nil, or_false,
        exists_eq_or_imp, exists_eq_left, iff_true]
      exact or_iff_right_of_imp (hspace c)
    · simp [CharClass.Matches, ClassItem.Matches]
  refine ⟨classes, rfl, haccepted, hmatches, fun cls hcls other hother => ?_⟩
  obtain ⟨ranges, hranges, -, hsame⟩ :=
    CharClass.ranges_canonical (haccepted cls hcls) (haccepted other hother)
  obtain ⟨hranges', hedges⟩ := hsame fun c => by rw [hmatches cls hcls, hmatches other hother]
  exact ⟨hranges'.trans hranges.symm, hedges 0⟩

end PatternAutomata
