import Mathlib.Data.Prod.Lex
import PatternAutomata.CharClass
import PatternAutomata.Proofs.Sorting

/-!
# The characters of range lists

Characters are compared by their index among the Unicode scalar values, where U+D7FF and U+E000 are
neighbours. A list of ranges covers the characters of its members. Merging keeps what is covered and
separates the ranges, complementing a separated list covers exactly the rest, and so the ranges of a
class cover the characters that the class, as it is written, matches.
-/

namespace PatternAutomata

theorem exists_of_map_eq_ok {α β ε : Type} {f : α → β} {x : Except ε α} {b : β}
    (h : x.map f = .ok b) : ∃ a, x = .ok a ∧ f a = b := by
  cases x with
  | error e => cases h
  | ok a => exact ⟨a, rfl, Except.ok.inj h⟩

/-- The index of a character among all characters. -/
def index (c : Char) : Nat := c.ordinal.val

theorem le_iff_index_le {c d : Char} : c ≤ d ↔ index c ≤ index d := by
  rw [Char.le_iff_ordinal_le, Fin.le_def]
  rfl

theorem index_inj {c d : Char} : index c = index d ↔ c = d := by
  rw [← Char.ordinal_inj, Fin.ext_iff]
  rfl

theorem lt_iff_index_lt {c d : Char} : c < d ↔ index c < index d := by
  rw [Char.lt_iff_ordinal_lt, Fin.lt_def]
  rfl

theorem index_lt (c : Char) : index c < Char.numCodePoints := c.ordinal.isLt

@[simp] theorem index_nul : index '\x00' = 0 := by simp [index]

@[simp] theorem index_lastChar : index lastChar = Char.numCodePoints - 1 := by decide

theorem compare_eq_compare_index (c d : Char) : compare c d = compare (index c) (index d) := by
  rw [Nat.compare_eq_ite_lt]
  change compareOfLessAndEq c d = _
  simp only [compareOfLessAndEq, lt_iff_index_lt, ← index_inj]
  split
  · rfl
  · split <;> split <;> first | rfl | omega

theorem succ?_eq_some_iff {c d : Char} : c.succ? = some d ↔ index d = index c + 1 := by
  rw [Char.succ?_eq]
  simp only [index, Fin.addNat?, Option.map_eq_some_iff]
  constructor
  · rintro ⟨i, hi, rfl⟩
    split at hi
    · cases hi
      simp
    · cases hi
  · intro h
    have hd := d.ordinal.isLt
    refine ⟨d.ordinal, ?_, by simp⟩
    rw [dif_pos (by omega)]
    exact congrArg some (Fin.ext (by simp [h]))

theorem succ?_eq_none_iff {c : Char} : c.succ? = none ↔ index c + 1 = Char.numCodePoints := by
  rw [Char.succ?_eq, Option.map_eq_none_iff]
  have hc := c.ordinal.isLt
  simp only [Fin.addNat?, index]
  split <;> simp <;> omega

theorem pred?_eq_some_iff {c d : Char} : pred? c = some d ↔ index c = index d + 1 := by
  have hc := c.ordinal.isLt
  simp only [pred?, index]
  split
  · simp only [reduceCtorEq, false_iff]
    omega
  · rw [Option.some_inj, ← Char.ordinal_inj, Char.ordinal_ofOrdinal, Fin.ext_iff]
    simp only
    omega

namespace CharRange

variable {r s : CharRange} {c d x : Char} {ranges rest : List CharRange}

theorem mem_iff : c ∈ r ↔ index r.lo ≤ index c ∧ index c ≤ index r.hi := by
  rw [← le_iff_index_le, ← le_iff_index_le]
  rfl

theorem index_lo_le_hi (r : CharRange) : index r.lo ≤ index r.hi := le_iff_index_le.mp r.lo_le_hi

theorem lo_mem (r : CharRange) : r.lo ∈ r := mem_iff.mpr ⟨Nat.le_refl _, r.index_lo_le_hi⟩

@[simp] theorem mem_single : c ∈ single d ↔ c = d := by
  rw [mem_iff, ← index_inj]
  simp only [single]
  omega

theorem written_eq_ok (h : written c d = .ok r) : r.lo = c ∧ r.hi = d := by
  simp only [written] at h
  split at h
  · split at h
    · cases h
      exact ⟨rfl, rfl⟩
    · cases h
  · cases h

/-- Whether some range of a list holds the character. -/
def Covers (ranges : List CharRange) (c : Char) : Prop := ∃ r ∈ ranges, c ∈ r

@[simp] theorem covers_nil : ¬Covers [] c := by simp [Covers]

@[simp] theorem covers_cons : Covers (r :: rest) c ↔ c ∈ r ∨ Covers rest c := by simp [Covers]

@[simp] theorem covers_append : Covers (ranges ++ rest) c ↔ Covers ranges c ∨ Covers rest c := by
  simp [Covers, or_and_right, exists_or]

theorem covers_map_single {chars : List Char} : Covers (chars.map single) c ↔ c ∈ chars := by
  simp only [Covers, List.mem_map]
  constructor
  · rintro ⟨r, ⟨d, hd, rfl⟩, hc⟩
    exact mem_single.mp hc ▸ hd
  · intro hc
    exact ⟨single c, ⟨c, hc, rfl⟩, mem_single.mpr rfl⟩

/-- At least one character lies between the end of `r` and the start of `s`. -/
def Separated (r s : CharRange) : Prop := index r.hi + 1 < index s.lo

/-- What the rest of a separated list covers lies behind its first range. -/
theorem behind_of_covers (h : (r :: rest).Pairwise Separated) (hc : Covers rest c) :
    index r.hi + 1 < index c := by
  obtain ⟨s, hs, hmem⟩ := hc
  have hsep : index r.hi + 1 < index s.lo := List.rel_of_pairwise_cons h hs
  rw [mem_iff] at hmem
  omega

/-- Right behind the first range of a separated list no other one has started. -/
theorem le_lo_of_succ? (h : (r :: rest).Pairwise Separated) (hd : r.hi.succ? = some d) :
    ∀ s ∈ rest, index d ≤ index s.lo := by
  intro s hs
  have hsep : index r.hi + 1 < index s.lo := List.rel_of_pairwise_cons h hs
  rw [succ?_eq_some_iff] at hd
  omega

/-- The order of starts. -/
def StartsBefore (r s : CharRange) : Prop := index r.lo ≤ index s.lo

theorem reaches_iff : r.reaches s = true ↔ index s.lo ≤ index r.hi + 1 := by
  simp only [reaches, abuts, Bool.or_eq_true, decide_eq_true_eq, beq_iff_eq, succ?_eq_some_iff,
    le_iff_index_le]
  omega

@[simp] theorem extend_lo : (r.extend s).lo = r.lo := by
  simp only [extend]
  split <;> rfl

theorem extend_hi : (r.extend s).hi = if index r.hi ≤ index s.hi then s.hi else r.hi := by
  simp only [extend, le_iff_index_le]
  split <;> rfl

theorem mem_extend (hlo : StartsBefore r s) (h : r.reaches s = true) :
    c ∈ r.extend s ↔ c ∈ r ∨ c ∈ s := by
  rw [reaches_iff] at h
  have hr := r.index_lo_le_hi
  have hs := s.index_lo_le_hi
  simp only [StartsBefore] at hlo
  rw [mem_iff, mem_iff, mem_iff, extend_lo]
  by_cases hle : index r.hi ≤ index s.hi
  · rw [extend_hi, if_pos hle]
    omega
  · rw [extend_hi, if_neg hle]
    omega

theorem startsBefore_extend (h : (r :: s :: rest).Pairwise StartsBefore) :
    (r.extend s :: rest).Pairwise StartsBefore := by
  obtain ⟨hr, hs⟩ := List.pairwise_cons.mp h
  refine List.pairwise_cons.mpr ⟨fun t ht => ?_, hs.of_cons⟩
  simpa [StartsBefore] using hr t (List.mem_cons_of_mem s ht)

theorem fuse_startsBefore (h : (r :: rest).Pairwise StartsBefore) :
    ∀ s ∈ fuse r rest, StartsBefore r s := by
  induction rest generalizing r with
  | nil => simp [fuse, StartsBefore]
  | cons t rest ih =>
    obtain ⟨hr, ht⟩ := List.pairwise_cons.mp h
    simp only [fuse]
    split
    · simpa [StartsBefore] using ih (startsBefore_extend h)
    · intro s hs
      rcases List.mem_cons.mp hs with rfl | hs
      · exact Nat.le_refl _
      · exact Nat.le_trans (hr t List.mem_cons_self) (ih ht s hs)

theorem covers_fuse (h : (r :: rest).Pairwise StartsBefore) :
    Covers (fuse r rest) c ↔ Covers (r :: rest) c := by
  induction rest generalizing r with
  | nil => rfl
  | cons t rest ih =>
    obtain ⟨hr, ht⟩ := List.pairwise_cons.mp h
    simp only [fuse]
    split
    · rename_i hreach
      rw [ih (startsBefore_extend h), covers_cons, covers_cons, covers_cons,
        mem_extend (hr t List.mem_cons_self) hreach, or_assoc]
    · rw [covers_cons, ih ht, ← covers_cons]

theorem fuse_separated (h : (r :: rest).Pairwise StartsBefore) :
    (fuse r rest).Pairwise Separated := by
  induction rest generalizing r with
  | nil => simp [fuse]
  | cons t rest ih =>
    obtain ⟨hr, ht⟩ := List.pairwise_cons.mp h
    simp only [fuse]
    split
    · exact ih (startsBefore_extend h)
    · rename_i hreach
      refine List.pairwise_cons.mpr ⟨fun s hs => ?_, ih ht⟩
      have hts : index t.lo ≤ index s.lo := fuse_startsBefore ht s hs
      rw [reaches_iff] at hreach
      simp only [Separated]
      omega

theorem le_iff : r.le s = true ↔
    index r.lo < index s.lo ∨ index r.lo = index s.lo ∧ index r.hi ≤ index s.hi := by
  have h : compare r s = (compare r.lo s.lo).then (compare r.hi s.hi) := rfl
  rw [le, h, compare_eq_compare_index, compare_eq_compare_index, Ordering.isLE_then_iff_or,
    Nat.compare_eq_lt, Nat.compare_eq_eq, Nat.isLE_compare]

theorem startsBefore_mergeSort (ranges : List CharRange) :
    (ranges.mergeSort le).Pairwise StartsBefore := by
  have hle : ∀ r s : CharRange, r.le s = true ↔
      toLex (index r.lo, index r.hi) ≤ toLex (index s.lo, index s.hi) := by
    intro r s
    rw [le_iff, Prod.Lex.toLex_le_toLex]
  exact (pairwise_mergeSort_of_iff _ hle ranges).imp fun h => Prod.Lex.monotone_fst _ _ h

/-- Merging keeps the covered characters. -/
theorem covers_merge : Covers (merge ranges) c ↔ Covers ranges c := by
  have hsorted := startsBefore_mergeSort ranges
  have hmem : Covers (ranges.mergeSort le) c ↔ Covers ranges c := by simp [Covers]
  rw [← hmem, merge]
  cases hl : ranges.mergeSort le with
  | nil => rfl
  | cons r rest => exact covers_fuse (hl ▸ hsorted)

/-- Merged ranges keep a distance from each other. -/
theorem merge_separated (ranges : List CharRange) : (merge ranges).Pairwise Separated := by
  have hsorted := startsBefore_mergeSort ranges
  rw [merge]
  cases hl : ranges.mergeSort le with
  | nil => exact .nil
  | cons r rest => exact fuse_separated (hl ▸ hsorted)

theorem covers_ofBounds? :
    Covers (ofBounds? c d).toList x ↔ index c ≤ index x ∧ index x ≤ index d := by
  simp only [ofBounds?, le_iff_index_le]
  split
  · simp [mem_iff]
  · simp only [Option.toList_none, covers_nil, false_iff]
    omega

theorem covers_between? :
    Covers (between? c d).toList x ↔ index c ≤ index x ∧ index x < index d := by
  rw [between?]
  cases hd : pred? d with
  | none =>
    have hzero : index d = 0 := by
      simp only [pred?] at hd
      split at hd
      · assumption
      · cases hd
    simp [hzero]
  | some e =>
    rw [pred?_eq_some_iff] at hd
    simp only [Option.bind_some, covers_ofBounds?]
    omega

theorem covers_from? : Covers (from? c).toList x ↔ index c ≤ index x := by
  have hx := index_lt x
  rw [from?, covers_ofBounds?, index_lastChar]
  omega

/-- From a character on, the gaps of a separated list cover exactly what the list leaves out. -/
theorem covers_gaps (h : ranges.Pairwise Separated) (hc : ∀ r ∈ ranges, index c ≤ index r.lo) :
    Covers (gaps (some c) ranges) x ↔ index c ≤ index x ∧ ¬Covers ranges x := by
  induction ranges generalizing c with
  | nil => simp [gaps, covers_from?]
  | cons r rest ih =>
    have hrest := h.of_cons
    have hcr := hc r List.mem_cons_self
    have hlen := r.index_lo_le_hi
    have hx := index_lt x
    rw [gaps, covers_append, covers_between?, covers_cons, mem_iff]
    cases hd : r.hi.succ? with
    | none =>
      rw [succ?_eq_none_iff] at hd
      have hnone : ¬Covers rest x := by
        intro hcov
        have := behind_of_covers h hcov
        omega
      simp only [gaps, covers_nil, hnone, or_false]
      omega
    | some d =>
      have hfrom := le_lo_of_succ? h hd
      rw [succ?_eq_some_iff] at hd
      rw [ih hrest hfrom]
      by_cases hcov : Covers rest x
      · have := behind_of_covers h hcov
        simp only [hcov, not_true_eq_false, and_false, or_false, or_true, iff_false]
        omega
      · simp only [hcov, not_false_eq_true, and_true, or_false]
        omega

/-- The complement of a separated list covers exactly the other characters. -/
theorem covers_complement (h : ranges.Pairwise Separated) :
    Covers (complement ranges) c ↔ ¬Covers ranges c := by
  rw [complement, covers_gaps h (by simp)]
  simp

theorem pairwise_option_toList {α : Type} (R : α → α → Prop) (x : Option α) : x.toList.Pairwise R := by
  cases x <;> simp

/-- The gaps of a separated list are separated: a range of the list lies between two of them. -/
theorem gaps_separated (h : ranges.Pairwise Separated) (hc : ∀ r ∈ ranges, index c ≤ index r.lo) :
    (gaps (some c) ranges).Pairwise Separated := by
  induction ranges generalizing c with
  | nil => exact pairwise_option_toList _ _
  | cons r rest ih =>
    have hrest := h.of_cons
    rw [gaps]
    cases hd : r.hi.succ? with
    | none =>
      rw [gaps, List.append_nil]
      exact pairwise_option_toList _ _
    | some d =>
      have hfrom := le_lo_of_succ? h hd
      rw [succ?_eq_some_iff] at hd
      refine List.pairwise_append.mpr ⟨pairwise_option_toList _ _, ih hrest hfrom, fun s hs t ht => ?_⟩
      have hlt := (covers_between?.mp ⟨s, hs, mem_iff.mpr ⟨s.index_lo_le_hi, Nat.le_refl _⟩⟩).2
      have hge := ((covers_gaps hrest hfrom).mp ⟨t, ht, t.lo_mem⟩).1
      have hlen := r.index_lo_le_hi
      simp only [Separated]
      omega

theorem complement_separated (h : ranges.Pairwise Separated) :
    (complement ranges).Pairwise Separated :=
  gaps_separated h (by simp)

end CharRange

open CharRange

/-- What a written item stands for. -/
def ClassItem.Matches : ClassItem → Char → Prop
  | .single d, c => c = d
  | .range lo hi, c => lo ≤ c ∧ c ≤ hi
  | .whitespace, c => c ∈ patternSpace
  | .notWhitespace, c => c ∉ patternSpace

/-- What a written class stands for: a negated one matches the characters that no item does. -/
def CharClass.Matches (cls : CharClass) (c : Char) : Prop :=
  (∃ item ∈ cls.items, item.Matches c) ↔ cls.negated = false

theorem ClassItem.covers_ranges {item : ClassItem} {ranges : List CharRange} {c : Char}
    (h : item.ranges = .ok ranges) : Covers ranges c ↔ item.Matches c := by
  cases item with
  | single d =>
    cases h
    simp [Matches]
  | range lo hi =>
    obtain ⟨r, hw, rfl⟩ := exists_of_map_eq_ok h
    obtain ⟨rfl, rfl⟩ := written_eq_ok hw
    simp only [covers_cons, covers_nil, or_false]
    rfl
  | whitespace =>
    cases h
    exact covers_map_single
  | notWhitespace =>
    cases h
    rw [covers_complement (merge_separated _), covers_merge, covers_map_single]
    rfl

theorem covers_flatten {items : List ClassItem} {lists : List (List CharRange)} {c : Char}
    (h : items.mapM ClassItem.ranges = .ok lists) :
    Covers lists.flatten c ↔ ∃ item ∈ items, item.Matches c := by
  induction items generalizing lists with
  | nil =>
    cases h
    simp
  | cons item items ih =>
    rw [List.mapM_cons] at h
    cases hi : item.ranges with
    | error e =>
      rw [hi] at h
      cases h
    | ok ranges =>
      cases hr : items.mapM ClassItem.ranges with
      | error e =>
        rw [hi, hr] at h
        cases h
      | ok rest =>
        rw [hi, hr] at h
        cases h
        simp [ih hr, ClassItem.covers_ranges hi]

/-- The ranges of a class cover the characters that the class matches. -/
theorem CharClass.covers_ranges {cls : CharClass} {ranges : List CharRange} {c : Char}
    (h : cls.ranges = .ok ranges) : Covers ranges c ↔ cls.Matches c := by
  obtain ⟨lists, hl, rfl⟩ := exists_of_map_eq_ok h
  cases hn : cls.negated with
  | true =>
    simp [Matches, hn, covers_complement (merge_separated _), covers_merge, covers_flatten hl]
  | false => simp [Matches, hn, covers_merge, covers_flatten hl]

/-- The ranges of a class keep a distance from each other. -/
theorem CharClass.ranges_separated {cls : CharClass} {ranges : List CharRange}
    (h : cls.ranges = .ok ranges) : ranges.Pairwise Separated := by
  obtain ⟨lists, -, rfl⟩ := exists_of_map_eq_ok h
  dsimp only
  split
  · exact complement_separated (merge_separated _)
  · exact merge_separated _

end PatternAutomata
