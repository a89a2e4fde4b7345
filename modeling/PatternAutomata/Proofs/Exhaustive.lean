import Mathlib
import PatternAutomata.Proofs.Accepting
import PatternAutomata.Proofs.Compiled

/-!
# Exhaustive search is exact

What an exhaustive search has to list is said of the text alone: the spans of words of the pattern
that the anchors allow. The search lists exactly these, by end and then by start.
-/

namespace PatternAutomata

/-- A span of the text with a word of the body, where the anchors allow it. An open left side has to be
reached on the first line. -/
structure Occurs (left right : Bool) (body : Pattern) (text : List Char) (start stop : Int) : Prop where
  neg_one_le : -1 ≤ start
  start_le : start ≤ stop
  stop_lt : stop < text.length
  word_mem : (text.drop (start + 1).toNat).take (stop - start).toNat ∈ body.language
  left_anchored : left = true → start = -1
  left_open : left = false → '\n' ∉ text.take (start + 1).toNat
  right_anchored : right = true → stop = text.length - 1

variable {left right : Bool} {body : Pattern} {text : List Char} {start stop : Int}

/-- The text up to the end of an occurrence is what stands in front of the word, and the word. -/
theorem occurs_iff : Occurs left right body text start stop ↔
    ∃ i ≤ text.length, stop = placeAfter (text.take i) ∧ (right = true → stop = text.length - 1) ∧
      ∃ u v, text.take i = u ++ v ∧ start = placeAfter u ∧
        (if left then u = [] else u ∈ lineLanguage) ∧ v ∈ body.language := by
  constructor
  · intro h
    have hge := h.neg_one_le
    have hle := h.start_le
    have hlt := h.stop_lt
    refine ⟨(stop + 1).toNat, by omega, ?_, h.right_anchored, text.take (start + 1).toNat, _, ?_, ?_, ?_,
      h.word_mem⟩
    · rw [placeAfter, List.length_take]
      omega
    · rw [← List.take_add]
      congr 1
      omega
    · rw [placeAfter, List.length_take]
      omega
    · cases left with
      | true => simp [h.left_anchored rfl]
      | false => exact h.left_open rfl
  · rintro ⟨i, hi, rfl, hright, u, v, huv, rfl, hu, hv⟩
    have htext : text = u ++ v ++ text.drop i := by rw [← huv, List.take_append_drop]
    have hstart : (placeAfter u + 1).toNat = u.length := by
      simp only [placeAfter]
      omega
    have hlength : (placeAfter (u ++ v) - placeAfter u).toNat = v.length := by
      rw [placeAfter_append]
      omega
    have hlen := congrArg List.length htext
    simp only [List.length_append] at hlen
    refine ⟨neg_one_le_placeAfter u, ?_, ?_, ?_, fun hl => ?_, fun hl => ?_, hright⟩
    · rw [huv, placeAfter_append]
      omega
    · simp only [huv, placeAfter, List.length_append]
      omega
    · rw [huv, hstart, hlength, htext, List.append_assoc, List.drop_left, List.take_left]
      exact hv
    · rw [if_pos hl] at hu
      rw [hu]
      rfl
    · rw [hl] at hu
      rw [hstart, htext, List.append_assoc, List.take_left]
      exact hu

/-- Exhaustive search lists the occurrences of the pattern, by end and then by start. The order is
strict, so each of them is listed once. -/
theorem Regex.search_exhaustive {pattern : String} {re : Regex} (h : Regex.compile pattern = .ok re)
    (subject : String) :
    ∃ left right body ms, Pattern.parse pattern = .ok (.anchored left right body) ∧
      re.search .exhaustive subject = .ok ms ∧
      (∀ s e, (s, e) ∈ ms.map (fun m => (m.start, m.stop)) ↔
        Occurs left right body subject.toList s e) ∧
      (ms.map fun m => (m.start, m.stop)).Pairwise
        (fun x y => x.2 < y.2 ∨ x.2 = y.2 ∧ x.1 < y.1) := by
  obtain ⟨left, right, body, outside, gate, hparse, hn⟩ := exists_recognizes h
  obtain ⟨ms, hms, hcount, hsees⟩ := Nfa.exists_moments hn.wellFormed .exhaustive subject.toList
  refine ⟨left, right, body, ms.flatMap (·.accepting re.nfa (subject.toList.length - 1)), hparse, ?_,
    fun s e => ?_, ?_⟩
  · rw [Regex.search, Nfa.search, hms]
    rfl
  · rw [occurs_iff]
    simp only [List.mem_map, List.mem_flatMap, Prod.mk.injEq]
    constructor
    · rintro ⟨x, ⟨m, hm, hx⟩, rfl, rfl⟩
      obtain ⟨i, hi⟩ := List.mem_iff_getElem?.mp hm
      have hile : i ≤ subject.toList.length := by
        have := (List.getElem?_eq_some_iff.mp hi).1
        omega
      have hsee := hsees i m hi
      obtain ⟨hlast, hsplit⟩ := (hsee.exists_accepting_iff hn (List.length_take_le' _ _)).mp
        ⟨x, hx, rfl⟩
      rw [hsee.stop_eq hx]
      exact ⟨i, hile, rfl, hlast, hsplit⟩
    · rintro ⟨i, hi, rfl, hlast, hsplit⟩
      have hilt : i < ms.length := by omega
      have hsee := hsees i ms[i] (List.getElem?_eq_getElem hilt)
      obtain ⟨x, hx, rfl⟩ := (hsee.exists_accepting_iff hn (List.length_take_le' _ _)).mpr
        ⟨hlast, hsplit⟩
      exact ⟨x, ⟨ms[i], List.getElem_mem hilt, hx⟩, rfl, hsee.stop_eq hx⟩
  · rw [List.pairwise_map]
    exact (Nfa.grouped_accepting hn hcount hsees).pairwise_flatten

/-- In a text of two letters one or more of the letter occur three times, and nothing else is listed. -/
theorem occurs_plus_iff : ∃ left right body, Pattern.parse "a+" = .ok (.anchored left right body) ∧
    ∀ s e, Occurs left right body ['a', 'a'] s e ↔ (s, e) ∈ [(-1, 0), (-1, 1), (0, 1)] := by
  have hrun : (Regex.compile "a+").map (fun re => (re.search .exhaustive "aa").map fun ms =>
      ms.map fun m => (m.start, m.stop)) = .ok (.ok [(-1, 0), (-1, 1), (0, 1)]) := by
    cbv
  obtain ⟨re, hre, hspans⟩ := exists_of_map_eq_ok hrun
  obtain ⟨left, right, body, ms, hparse, hms, hiff, -⟩ := Regex.search_exhaustive hre "aa"
  rw [hms] at hspans
  refine ⟨left, right, body, hparse, fun s e => ?_⟩
  rw [← Except.ok.inj hspans]
  exact (hiff s e).symm

end PatternAutomata
