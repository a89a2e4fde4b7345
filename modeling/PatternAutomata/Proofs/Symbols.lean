import PatternAutomata.Automaton.Subset
import PatternAutomata.Proofs.CharSets

/-!
# Cutting ranges into symbols

The bounds of some ranges are the characters where one of them starts or has just ended. Between two
neighbouring bounds nothing starts or ends, so the characters from one bound up to the next lie in the
same ranges. Refining the ranges keeps those pieces that lie in some range: they ascend without
touching each other's characters, cover what the ranges cover, and each of them lies inside or outside
every range.
-/

namespace PatternAutomata

open CharRange

variable {c d x : Char} {r s piece : CharRange} {ranges : List CharRange} {bounds chars : List Char}
  {wanted : Char → Bool}

/-- The characters ascend without repetition. -/
def Ascending (chars : List Char) : Prop := chars.Pairwise fun c d => index c < index d

/-- Dropping the repetitions of an ordered list leaves its characters in ascending order. -/
theorem ascending_eraseReps_loop (h : (c :: chars).Pairwise fun c d => index c ≤ index d)
    (before : List Char) :
    ∃ rest, List.eraseRepsBy.loop (· == ·) c chars before = before.reverse ++ c :: rest ∧
      Ascending (c :: rest) ∧ ∀ x, x ∈ c :: rest ↔ x ∈ c :: chars := by
  induction chars generalizing c before with
  | nil => exact ⟨[], by simp [List.eraseRepsBy.loop], List.pairwise_singleton _ _, fun x => Iff.rfl⟩
  | cons d chars ih =>
    obtain ⟨hc, hd⟩ := List.pairwise_cons.mp h
    simp only [List.eraseRepsBy.loop]
    cases hcd : c == d with
    | true =>
      obtain rfl := eq_of_beq hcd
      obtain ⟨rest, hrest, hasc, hmem⟩ := ih hd before
      exact ⟨rest, hrest, hasc, fun x => by rw [hmem]; simp⟩
    | false =>
      obtain ⟨rest, hrest, hasc, hmem⟩ := ih hd (c :: before)
      have hne : index c ≠ index d := fun heq => by simp [index_inj.mp heq] at hcd
      have hlt : index c < index d := by
        have := hc d List.mem_cons_self
        omega
      refine ⟨d :: rest, by simp [hrest], List.pairwise_cons.mpr ⟨fun x hx => ?_, hasc⟩, fun x => ?_⟩
      · rcases List.mem_cons.mp hx with rfl | hx
        · exact hlt
        · have := (List.pairwise_cons.mp hasc).1 x hx
          omega
      · rw [List.mem_cons, hmem, ← List.mem_cons]

theorem ascending_eraseReps (h : chars.Pairwise fun c d => index c ≤ index d) :
    Ascending chars.eraseReps ∧ ∀ x, x ∈ chars.eraseReps ↔ x ∈ chars := by
  cases chars with
  | nil => exact ⟨.nil, fun x => Iff.rfl⟩
  | cons c chars =>
    obtain ⟨rest, hrest, hasc, hmem⟩ := ascending_eraseReps_loop h []
    rw [List.eraseReps, List.eraseRepsBy, hrest]
    exact ⟨hasc, hmem⟩

theorem sorted_mergeSort_chars (chars : List Char) :
    (chars.mergeSort (· ≤ ·)).Pairwise fun c d => index c ≤ index d :=
  pairwise_mergeSort_of_iff index (fun _ _ => decide_eq_true_iff.trans le_iff_index_le) chars

namespace CharRange

theorem bounds_of_mem_ofBounds? (h : r ∈ (ofBounds? c d).toList) : r.lo = c ∧ r.hi = d := by
  simp only [ofBounds?] at h
  split at h
  · simp only [Option.toList_some, List.mem_singleton] at h
    rw [h]
    exact ⟨rfl, rfl⟩
  · simp at h

theorem bounds_of_mem_between? (h : r ∈ (between? c d).toList) :
    r.lo = c ∧ index r.hi + 1 = index d := by
  rw [between?] at h
  cases hd : pred? d with
  | none => simp [hd] at h
  | some e =>
    rw [hd, Option.bind_some] at h
    obtain ⟨hlo, hhi⟩ := bounds_of_mem_ofBounds? h
    rw [pred?_eq_some_iff] at hd
    exact ⟨hlo, by rw [hhi, hd]⟩

end CharRange

/-- The character lies at the bound or behind it, and no other bound comes between the two. -/
def LiesAt (bounds : List Char) (lo c : Char) : Prop :=
  index lo ≤ index c ∧ ∀ b ∈ bounds, index lo < index b → index c < index b

/-- A piece starts at a wanted bound and reaches no other one. -/
theorem mem_pieces (h : Ascending bounds) (hp : piece ∈ pieces wanted bounds) :
    piece.lo ∈ bounds ∧ wanted piece.lo = true ∧
      ∀ b ∈ bounds, index piece.lo < index b → index piece.hi < index b := by
  induction bounds with
  | nil => simp [pieces] at hp
  | cons lo bounds ih =>
    cases bounds with
    | nil =>
      simp only [pieces, List.mem_ite_nil_right] at hp
      obtain ⟨hw, hp⟩ := hp
      obtain ⟨rfl, -⟩ := bounds_of_mem_ofBounds? hp
      refine ⟨List.mem_singleton_self _, hw, fun b hb hlt => ?_⟩
      rw [List.mem_singleton.mp hb] at hlt
      omega
    | cons next rest =>
      obtain ⟨hlo, hasc⟩ := List.pairwise_cons.mp h
      simp only [pieces, List.mem_append, List.mem_ite_nil_right] at hp
      rcases hp with ⟨hw, hp⟩ | hp
      · obtain ⟨rfl, hhi⟩ := bounds_of_mem_between? hp
        refine ⟨List.mem_cons_self, hw, fun b hb hlt => ?_⟩
        rcases List.mem_cons.mp hb with rfl | hb
        · omega
        · rcases List.mem_cons.mp hb with rfl | hb
          · omega
          · have := (List.pairwise_cons.mp hasc).1 b hb
            omega
      · obtain ⟨hmem, hw, hstop⟩ := ih hasc hp
        refine ⟨List.mem_cons_of_mem lo hmem, hw, fun b hb hlt => ?_⟩
        rcases List.mem_cons.mp hb with rfl | hb
        · have := hlo _ hmem
          omega
        · exact hstop b hb hlt

/-- The pieces come one after the other. -/
theorem pairwise_pieces (h : Ascending bounds) :
    (pieces wanted bounds).Pairwise fun r s => index r.hi < index s.lo := by
  induction bounds with
  | nil => exact .nil
  | cons lo bounds ih =>
    cases bounds with
    | nil =>
      simp only [pieces]
      split
      · exact pairwise_option_toList _ _
      · exact .nil
    | cons next rest =>
      have hasc := (List.pairwise_cons.mp h).2
      simp only [pieces]
      refine List.pairwise_append.mpr ⟨?_, ih hasc, fun r hr s hs => ?_⟩
      · split
        · exact pairwise_option_toList _ _
        · exact .nil
      · obtain ⟨-, hr⟩ := List.mem_ite_nil_right.mp hr
        have hhi := (bounds_of_mem_between? hr).2
        have hmem := (mem_pieces hasc hs).1
        rcases List.mem_cons.mp hmem with heq | hmem
        · rw [heq]
          omega
        · have := (List.pairwise_cons.mp hasc).1 _ hmem
          omega

theorem exists_between? (h : index c < index d) : ∃ r, between? c d = some r ∧ r.lo = c := by
  cases hd : pred? d with
  | none =>
    have hc : Covers (between? c d).toList c := covers_between?.mpr ⟨Nat.le_refl _, h⟩
    simp [between?, hd] at hc
  | some e =>
    have he := pred?_eq_some_iff.mp hd
    have hle : c ≤ e := le_iff_index_le.mpr (by omega)
    exact ⟨⟨c, e, hle⟩, by simp [between?, hd, ofBounds?, hle], rfl⟩

theorem exists_from? (c : Char) : ∃ r, from? c = some r ∧ r.lo = c := by
  have hc := index_lt c
  have hle : c ≤ lastChar := le_iff_index_le.mpr (by rw [index_lastChar]; omega)
  exact ⟨⟨c, lastChar, hle⟩, by simp [from?, ofBounds?, hle], rfl⟩

/-- A piece starts at every wanted bound: none has its ends the wrong way round. -/
theorem map_lo_pieces (h : Ascending bounds) : (pieces wanted bounds).map (·.lo) = bounds.filter wanted := by
  induction bounds with
  | nil => rfl
  | cons lo bounds ih =>
    cases bounds with
    | nil =>
      obtain ⟨r, hr, hlo⟩ := exists_from? lo
      cases hw : wanted lo <;> simp [pieces, hw, hr, hlo]
    | cons next rest =>
      obtain ⟨hfirst, hasc⟩ := List.pairwise_cons.mp h
      obtain ⟨r, hr, hlo⟩ := exists_between? (hfirst next List.mem_cons_self)
      rw [pieces, List.map_append, ih hasc]
      by_cases hw : wanted lo = true
      · rw [List.filter_cons_of_pos hw, if_pos hw, hr]
        simp [hlo]
      · rw [List.filter_cons_of_neg hw, if_neg hw]
        rfl

/-- The pieces hold the characters that lie at a wanted bound. -/
theorem covers_pieces (h : Ascending bounds) :
    Covers (pieces wanted bounds) c ↔ ∃ lo ∈ bounds, wanted lo = true ∧ LiesAt bounds lo c := by
  induction bounds with
  | nil => simp [pieces]
  | cons lo bounds ih =>
    cases bounds with
    | nil =>
      simp only [pieces, List.mem_singleton, exists_eq_left]
      split
      · rename_i hw
        simp [covers_from?, hw, LiesAt]
      · rename_i hw
        simp [hw]
    | cons next rest =>
      obtain ⟨hlo, hasc⟩ := List.pairwise_cons.mp h
      have hlt := hlo next List.mem_cons_self
      have hfirst : LiesAt (lo :: next :: rest) lo c ↔ index lo ≤ index c ∧ index c < index next := by
        refine and_congr_right fun hle => ⟨fun hb => hb next (by simp) hlt, fun hc b hb hlb => ?_⟩
        rcases List.mem_cons.mp hb with rfl | hb
        · omega
        · rcases List.mem_cons.mp hb with rfl | hb
          · exact hc
          · have := (List.pairwise_cons.mp hasc).1 b hb
            omega
      have hlater : ∀ b ∈ next :: rest, LiesAt (lo :: next :: rest) b c ↔ LiesAt (next :: rest) b c := by
        intro b hb
        have := hlo b hb
        refine and_congr_right fun _ => ?_
        rw [List.forall_mem_cons]
        exact and_iff_right fun hlt => by omega
      rw [pieces, covers_append, ih hasc]
      constructor
      · rintro (hc | ⟨b, hb, hw, hc⟩)
        · split at hc
          · rename_i hw
            exact ⟨lo, List.mem_cons_self, hw, hfirst.mpr (covers_between?.mp hc)⟩
          · exact (covers_nil hc).elim
        · exact ⟨b, List.mem_cons_of_mem lo hb, hw, (hlater b hb).mpr hc⟩
      · rintro ⟨b, hb, hw, hc⟩
        rcases List.mem_cons.mp hb with rfl | hb
        · rw [if_pos hw]
          exact .inl (covers_between?.mpr (hfirst.mp hc))
        · exact .inr ⟨b, hb, hw, (hlater b hb).mp hc⟩

/-- Behind the first bound every character lies at some bound. -/
theorem exists_liesAt (hb : d ∈ bounds) (hd : index d ≤ index c) :
    ∃ lo ∈ bounds, LiesAt bounds lo c := by
  induction bounds generalizing d with
  | nil => cases hb
  | cons b bounds ih =>
    by_cases hlater : ∃ lo ∈ bounds, index lo ≤ index c
    · obtain ⟨lo, hlo, hle⟩ := hlater
      obtain ⟨lo, hlo, hle, hno⟩ := ih hlo hle
      by_cases hbc : index b ≤ index c ∧ index lo < index b
      · refine ⟨b, List.mem_cons_self, hbc.1, fun e he hlt => ?_⟩
        rcases List.mem_cons.mp he with rfl | he
        · omega
        · exact hno e he (by omega)
      · refine ⟨lo, List.mem_cons_of_mem b hlo, hle, fun e he hlt => ?_⟩
        rcases List.mem_cons.mp he with rfl | he
        · omega
        · exact hno e he hlt
    · have hnone : ∀ e ∈ bounds, index c < index e :=
        fun e he => Nat.lt_of_not_le fun hle => hlater ⟨e, he, hle⟩
      rcases List.mem_cons.mp hb with rfl | hb
      · refine ⟨d, List.mem_cons_self, hd, fun e he hlt => ?_⟩
        rcases List.mem_cons.mp he with rfl | he
        · omega
        · exact hnone e he
      · have := hnone d hb
        omega

/-- Where a range starts, and where it has just ended. -/
def CharRange.ends (r : CharRange) : List Char := r.lo :: r.hi.succ?.toList

/-- Characters that lie at the same bound lie in the same ranges. -/
theorem mem_iff_of_liesAt (hr : ∀ b ∈ r.ends, b ∈ bounds) (h : LiesAt bounds c x) : x ∈ r ↔ c ∈ r := by
  obtain ⟨hle, hno⟩ := h
  have hlo := hno r.lo (hr _ List.mem_cons_self)
  have hx := index_lt x
  rw [mem_iff, mem_iff]
  cases hd : r.hi.succ? with
  | none =>
    rw [succ?_eq_none_iff] at hd
    omega
  | some d =>
    have hhi := hno d (hr _ (by simp [CharRange.ends, hd]))
    rw [succ?_eq_some_iff] at hd
    omega

/-- Where some ranges are cut: at the bounds of all of them, in ascending order. -/
def cuts (ranges : List CharRange) : List Char :=
  ((ranges.flatMap CharRange.ends).mergeSort (· ≤ ·)).eraseReps

theorem ascending_cuts (ranges : List CharRange) : Ascending (cuts ranges) :=
  (ascending_eraseReps (sorted_mergeSort_chars _)).1

theorem mem_cuts_iff : c ∈ cuts ranges ↔ ∃ r ∈ ranges, c ∈ r.ends := by
  rw [cuts, (ascending_eraseReps (sorted_mergeSort_chars _)).2, List.mem_mergeSort, List.mem_flatMap]

theorem refine_eq (ranges : List CharRange) : ∃ bounds, Ascending bounds ∧
    (∀ r ∈ ranges, ∀ b ∈ r.ends, b ∈ bounds) ∧
      refine ranges = pieces (fun c => ranges.any (c ∈ ·)) bounds :=
  ⟨cuts ranges, ascending_cuts ranges, fun r hr _ hb => mem_cuts_iff.mpr ⟨r, hr, hb⟩, rfl⟩

/-- Refined ranges come one after the other. -/
theorem pairwise_refine (ranges : List CharRange) :
    (refine ranges).Pairwise fun r s => index r.hi < index s.lo := by
  obtain ⟨bounds, hasc, -, heq⟩ := refine_eq ranges
  rw [heq]
  exact pairwise_pieces hasc

/-- Refining keeps the covered characters. -/
theorem covers_refine : Covers (refine ranges) c ↔ Covers ranges c := by
  obtain ⟨bounds, hasc, hends, heq⟩ := refine_eq ranges
  rw [heq, covers_pieces hasc]
  constructor
  · rintro ⟨lo, -, hw, hlies⟩
    obtain ⟨r, hr, hlo⟩ := List.any_eq_true.mp hw
    exact ⟨r, hr, (mem_iff_of_liesAt (hends r hr) hlies).mpr (of_decide_eq_true hlo)⟩
  · rintro ⟨r, hr, hc⟩
    obtain ⟨lo, hlo, hlies⟩ := exists_liesAt (hends r hr _ List.mem_cons_self) (mem_iff.mp hc).1
    refine ⟨lo, hlo, List.any_eq_true.mpr ⟨r, hr, ?_⟩, hlies⟩
    exact decide_eq_true ((mem_iff_of_liesAt (hends r hr) hlies).mp hc)

/-- A refined range lies inside or outside each of the ranges. -/
theorem mem_iff_of_mem_refine (hp : piece ∈ refine ranges) (hr : r ∈ ranges) (hc : c ∈ piece) :
    c ∈ r ↔ piece.lo ∈ r := by
  obtain ⟨bounds, hasc, hends, heq⟩ := refine_eq ranges
  obtain ⟨-, -, hstop⟩ := mem_pieces hasc (heq ▸ hp)
  obtain ⟨hlo, hhi⟩ := mem_iff.mp hc
  refine mem_iff_of_liesAt (hends r hr) ⟨hlo, fun b hb hlt => ?_⟩
  have := hstop b hb hlt
  omega

end PatternAutomata
