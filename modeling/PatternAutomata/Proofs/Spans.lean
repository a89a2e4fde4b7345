import Mathlib
import PatternAutomata.Search.Captures

/-!
# The text of a span

A text can be cut where a character starts and at its end. The offsets that are looked up for a span are
such places, and the first of them does not come after the other one. So every span has a text: the
characters from its start on, as many as it is long or as there are. The texts of spans that follow each
other make up the text of the span over both.
-/

namespace PatternAutomata

namespace Text

variable {text before inside after : List Char} {base start stop i n : Nat}

theorem byteLength_eq_zero_iff : byteLength text = 0 ↔ text = [] := by
  cases text with
  | nil => simp
  | cons c text => simp [Nat.ne_of_gt c.utf8Size_pos]

/-- A text can be cut where one of its characters ends, and nowhere else. -/
theorem cut?_eq_some_iff :
    cut? n text = some (before, after) ↔ text = before ++ after ∧ byteLength before = n := by
  fun_induction cut? n text generalizing before with
  | case1 text =>
    rw [byteLength_eq_zero_iff, Option.some_inj, Prod.mk.injEq]
    constructor
    · rintro ⟨rfl, rfl⟩
      exact ⟨rfl, rfl⟩
    · rintro ⟨rfl, rfl⟩
      exact ⟨rfl, rfl⟩
  | case2 n =>
    refine iff_of_false nofun ?_
    rintro ⟨htext, hn⟩
    rw [(List.append_eq_nil_iff.mp htext.symm).1] at hn
    cases hn
  | case3 n c rest hle ih =>
    rw [Option.map_eq_some_iff]
    constructor
    · rintro ⟨⟨before, after⟩, hcut, heq⟩
      obtain ⟨rfl, rfl⟩ := Prod.mk.inj heq
      obtain ⟨rfl, hn⟩ := ih.mp hcut
      exact ⟨rfl, by rw [byteLength_cons]; omega⟩
    · rintro ⟨htext, hn⟩
      cases before with
      | nil => cases hn
      | cons d before =>
        obtain ⟨rfl, rfl⟩ := List.cons.inj htext
        rw [byteLength_cons] at hn
        exact ⟨(before, after), ih.mpr ⟨rfl, by omega⟩, rfl⟩
  | case4 n c rest hlt =>
    refine iff_of_false nofun ?_
    rintro ⟨htext, hn⟩
    cases before with
    | nil => cases hn
    | cons d before =>
      obtain ⟨rfl, -⟩ := List.cons.inj htext
      rw [byteLength_cons] at hn
      omega

/-- The text from one offset to another is what lies between two places where it can be cut. -/
theorem slice?_eq_some_iff : slice? start stop text = some inside ↔
    ∃ before after, text = before ++ (inside ++ after) ∧ byteLength before = start ∧
      start + byteLength inside = stop := by
  simp only [slice?, Option.ite_none_right_eq_some, Option.bind_eq_some_iff, Option.map_eq_some_iff,
    Prod.exists, cut?_eq_some_iff]
  constructor
  · rintro ⟨hle, before, rest, ⟨rfl, hstart⟩, inside, after, ⟨rfl, hinside⟩, rfl⟩
    exact ⟨before, after, rfl, hstart, by omega⟩
  · rintro ⟨before, after, rfl, hstart, hstop⟩
    exact ⟨by omega, before, _, ⟨rfl, hstart⟩, inside, after, ⟨rfl, by omega⟩, rfl⟩

theorem slice?_take (text : List Char) (i n : Nat) :
    slice? (byteLength (text.take i)) (byteLength (text.take (i + n))) text =
      some ((text.drop i).take n) := by
  rw [slice?_eq_some_iff, List.take_add, byteLength_append]
  exact ⟨text.take i, (text.drop i).drop n, by simp only [List.take_append_drop], rfl, rfl⟩

theorem getElem?_offsets (h : i ≤ text.length) :
    (offsets base text)[i]? = some (base + byteLength (text.take i)) := by
  induction text generalizing base i with
  | nil =>
    obtain rfl := Nat.le_zero.mp h
    rfl
  | cons c text ih =>
    cases i with
    | zero => rfl
    | succ i =>
      rw [offsets, List.getElem?_cons_succ, ih (Nat.le_of_succ_le_succ h), List.take_succ_cons,
        byteLength_cons, Nat.add_assoc]

/-- Where there is no character any more, the text ends. -/
theorem getD_offsets (text : List Char) (i : Nat) :
    (offsets 0 text)[i]?.getD (byteLength text) = byteLength (text.take i) := by
  rcases Nat.lt_or_ge text.length i with h | h
  · rw [List.getElem?_eq_none (by rw [length_offsets]; omega), List.take_of_length_le (Nat.le_of_lt h),
      Option.getD_none]
  · rw [getElem?_offsets h, Option.getD_some, Nat.zero_add]

end Text

/-- Whether an integer fits into 64 bits, of which one is the sign. -/
def FitsWord (i : Int) : Prop := -0x8000000000000000 ≤ i ∧ i < 0x8000000000000000

instance (i : Int) : Decidable (FitsWord i) := inferInstanceAs (Decidable (_ ∧ _))

namespace Span

variable {s : Span} {text : List Char} {i : Int}

/-- The place of the first character and the length fit into words. -/
def Fits (s : Span) : Prop := FitsWord (s.start + 1) ∧ FitsWord (s.stop - s.start)

instance (s : Span) : Decidable s.Fits := inferInstanceAs (Decidable (_ ∧ _))

theorem word_of_nonneg (h : FitsWord i) (hi : 0 ≤ i) : word i = i.toNat := by
  obtain ⟨-, hlt⟩ := h
  rw [word, Int.emod_eq_of_lt hi (by omega)]

theorem word_eq_zero_iff (h : FitsWord i) : word i = 0 ↔ i = 0 := by
  obtain ⟨hge, hlt⟩ := h
  simp only [word]
  omega

theorem isEmpty_iff : s.isEmpty = true ↔ s.start = s.stop := by
  simp [isEmpty]

theorem extractChars?_eq (h : s.Fits) (text : List Char) : s.extractChars? text =
    some (if text.length < word (s.start + 1) ∨ s.start = s.stop then []
      else (text.drop (word (s.start + 1))).take (word (s.stop - s.start))) := by
  simp only [extractChars?, isEmpty_iff, length]
  generalize word (s.start + 1) = first
  rcases Nat.lt_or_ge text.length first with hlt | hle
  · rw [List.getElem?_eq_none (by rw [Text.length_offsets]; omega), if_pos (.inl hlt)]
  · rw [Text.getElem?_offsets hle, Nat.zero_add]
    by_cases hempty : s.start = s.stop
    · rw [if_pos (.inr hempty)]
      simp only [if_pos hempty]
      exact Text.slice?_take text first 0
    · rw [if_neg (not_or.mpr ⟨Nat.not_lt.mpr hle, hempty⟩)]
      simp only [if_neg hempty]
      cases hlength : word (s.stop - s.start) with
      | zero =>
        -- only the length of an empty span is the word zero
        have := (word_eq_zero_iff h.2).mp hlength
        omega
      | succ n =>
        -- the offset behind the last character, or the end of the text
        simp only [List.getElem?_drop, Nat.add_assoc, Nat.add_comm 1, Text.getD_offsets]
        exact Text.slice?_take text first (n + 1)

theorem extract?_eq (h : s.Fits) (text : String) : s.extract? text =
    some (if text.length < word (s.start + 1) ∨ s.start = s.stop then ""
      else .ofList ((text.toList.drop (word (s.start + 1))).take (word (s.stop - s.start)))) := by
  rw [extract?, extractChars?_eq h, Option.map_some, apply_ite String.ofList, String.length_toList]

theorem extract_eq_of_le {a b : Int} {text : String} (h : Fits ⟨a, b⟩) (ha : -1 ≤ a) (hab : a ≤ b)
    (hb : a < text.length) :
    extract ⟨a, b⟩ text = .ofList ((text.toList.drop (a + 1).toNat).take (b - a).toNat) := by
  have hstart : word (a + 1) = (a + 1).toNat := word_of_nonneg h.1 (by omega)
  have hlength : word (b - a) = (b - a).toNat := word_of_nonneg h.2 (by omega)
  simp only [extract, extract?_eq h, Option.getD_some, hstart, hlength]
  by_cases hempty : a = b
  · rw [if_pos (.inr hempty), hempty, Int.sub_self, Int.toNat_zero, List.take_zero]
  · rw [if_neg (by omega)]

/-- Every span has a text. It is empty if the span is, or if the word of its first place lies behind the
subject. Otherwise it has the characters from that place on, as many as the span is long or as there are.
Spans that follow each other inside the subject have texts that make up the text of the span over both. -/
theorem extract_exact (text : String) :
    (∀ s : Span, s.Fits → s.extract? text = some (s.extract text) ∧
      s.extract text = if text.length < word (s.start + 1) ∨ s.start = s.stop then ""
        else .ofList ((text.toList.drop (word (s.start + 1))).take (word (s.stop - s.start)))) ∧
      ∀ a b c : Int, -1 ≤ a → a ≤ b → b ≤ c → c ≤ text.length - 1 →
        Fits ⟨a, b⟩ → Fits ⟨b, c⟩ → Fits ⟨a, c⟩ →
          extract ⟨a, b⟩ text ++ extract ⟨b, c⟩ text = extract ⟨a, c⟩ text := by
  refine ⟨fun s h => ?_, fun a b c ha hab hbc hc hfab hfbc hfac => ?_⟩
  · rw [extract, extract?_eq h]
    exact ⟨rfl, rfl⟩
  · rw [extract_eq_of_le hfab ha hab (by omega), extract_eq_of_le hfbc (by omega) hbc (by omega),
      extract_eq_of_le hfac ha (by omega) (by omega), ← String.ofList_append]
    have hstart : (b + 1).toNat = (a + 1).toNat + (b - a).toNat := by omega
    have hlength : (c - a).toNat = (b - a).toNat + (c - b).toNat := by omega
    rw [hlength, List.take_add, hstart, ← List.drop_drop]

/-- Characters of one to four bytes. A span goes past the end, one lies behind it, one is reversed and one
starts before all places. -/
theorem extract_exact_mixed : ∃ (text : String) (spans : List Span),
    text = "aéß€😀z" ∧ spans = [⟨0, 3⟩, ⟨3, 9⟩, ⟨6, 7⟩, ⟨4, 1⟩, ⟨-3, 2⟩] ∧
    (∀ s ∈ spans, s.Fits) ∧ (∀ s ∈ spans, s.extract? text = some (s.extract text)) ∧
      spans.map (·.extract text) = ["éß€", "😀z", "", "z", ""] ∧
      extract ⟨0, 2⟩ text ++ extract ⟨2, 4⟩ text = extract ⟨0, 4⟩ text := by
  have hfits : ∀ s ∈ [⟨0, 3⟩, ⟨3, 9⟩, ⟨6, 7⟩, ⟨4, 1⟩, ⟨-3, 2⟩], Fits s := by decide
  refine ⟨_, _, rfl, rfl, hfits, fun s hs => ((extract_exact _).1 s (hfits s hs)).1, by cbv, ?_⟩
  exact (extract_exact _).2 0 2 4 (by decide) (by decide) (by decide) (by decide) (by decide) (by decide)
    (by decide)

end Span

end PatternAutomata
