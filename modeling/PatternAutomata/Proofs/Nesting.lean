import PatternAutomata.Proofs.Agreement

/-!
# Reported matches are never nested

A start whose match is still to come has a thread on the way to it. A search for the best may have
given the node of that thread to an earlier start, so at every place in between the start itself or an
earlier one is alive. Until then nothing with a later start is reported, and the match that comes
discards what is held with a later start.
-/

namespace PatternAutomata

open PatternAutomata.Graph Leftmost

theorem Moment.mem_liveStarts {now : Moment} {s : Int} :
    s ∈ now.liveStarts ↔ ∃ t ∈ now.threads, t.node.isFinal = false ∧ t.start = some s := by
  simp [Moment.liveStarts, and_assoc]

section Alive

namespace Nfa

variable {nfa : Nfa} {mode : Mode} {length : Nat} {u v w z : List Char} {c : Char} {now later : Moment}
  {left right : Bool} {body : Pattern} {outside : Nat → Prop} {gate : Nat} {last : Int} {b : Match}

/-- A start from which a word of the pattern goes on behind a place is alive there, or an earlier one
is. -/
theorem Sees.exists_live (hs : nfa.Sees .bestOnly length (u ++ v) now)
    (hn : nfa.Recognizes left right body outside gate) (hl : (u ++ v).length ≤ length)
    (hu : nfa.graph.Spells nfa.entry u gate) (hv : nfa.graph.Spells gate (v ++ c :: z) nfa.finalId) :
    ∃ s ∈ now.liveStarts, s ≤ placeAfter u := by
  obtain ⟨q, q', hq, hread, -⟩ := hv.exists_read
  obtain ⟨node, hnode, hstep⟩ := id hread
  have hopen : node.isFinal = false := by
    by_contra hfinal
    rw [Bool.not_eq_false, hn.wellFormed.isFinal_iff q node hnode] at hfinal
    exact hn.final_stuck _ _ (hfinal ▸ hread)
  have hlive : ∀ node', nfa.nodes[q]? = some node' → node'.isLive = true := by
    intro node' hnode'
    rw [← Option.some.inj (hnode.symm.trans hnode')]
    exact isLive_of_mem_step hstep
  -- The exhaustive search has a thread at the node with this very start.
  obtain ⟨all, hall⟩ := exists_sees hn.wellFormed .exhaustive hl
  obtain ⟨t, ht, htnode, hstart⟩ :=
    hall.exists_mem_threads hn.wellFormed hn.gated hl hu hq hlive
  obtain ⟨t', ht', hnode', hle⟩ := (hall.thinner hs hn.wellFormed hn.gated hl).covered t ht
  rw [hstart] at hle
  cases hs' : t'.start with
  | none => simp [hs', startsNoLater] at hle
  | some s =>
    have hopen' : t'.node.isFinal = false := by
      rw [hnode', Option.some.inj (htnode.symm.trans hnode), hopen]
    refine ⟨s, Moment.mem_liveStarts.mpr ⟨t', ht', hopen', hs'⟩, ?_⟩
    simpa [hs', startsNoLater] using hle

/-- A match ends no earlier than it starts. -/
theorem Sees.start_le_place (hs : nfa.Sees mode length w now)
    (hn : nfa.Recognizes left right body outside gate) (hb : b ∈ now.accepting nfa last) :
    b.start ≤ now.place := by
  obtain ⟨-, t, ht, hf, rfl⟩ := mem_accepting.mp hb
  obtain ⟨u, v, rfl, hi⟩ := hs.within_of_isFinal hn ht hf
  rw [hi.start_eq, hs.place_eq, placeAfter_append]
  omega

/-- As long as a start is to win, it or an earlier one is alive. -/
theorem Sees.exists_live_of_accepting (hs : nfa.Sees .bestOnly length w now)
    (hs' : nfa.Sees .bestOnly length (w ++ c :: z) later)
    (hn : nfa.Recognizes left right body outside gate) (hl : w.length ≤ length)
    (hb : b ∈ later.accepting nfa last) (hle : b.start ≤ now.place) :
    ∃ s ∈ now.liveStarts, s ≤ b.start := by
  obtain ⟨-, t, ht, hf, rfl⟩ := mem_accepting.mp hb
  obtain ⟨u, v, hw, hi⟩ := hs'.within_of_isFinal hn ht hf
  rw [hi.start_eq] at hle ⊢
  rw [hs.place_eq] at hle
  simp only [placeAfter] at hle
  -- The match starts in the part that has been read, and its word goes on behind it.
  have hsplit : ∃ v', w = u ++ v' ∧ v = v' ++ c :: z := by
    rcases List.append_eq_append_iff.mp hw with ⟨u', rfl, hcz⟩ | ⟨v', rfl, rfl⟩
    · have hnil : u' = [] := by
        apply List.eq_nil_of_length_eq_zero
        rw [List.length_append] at hle
        omega
      subst hnil
      exact ⟨[], by simp, hcz.symm⟩
    · exact ⟨v', rfl, rfl⟩
  obtain ⟨v', rfl, rfl⟩ := hsplit
  exact hs.exists_live hn hl hi.spells_gate hi.spells

end Nfa

end Alive

namespace Leftmost

variable {live : List Int} {m b : Match} {l : Leftmost} {best : Option Match} {p : Int}
  {step : List Int × Option Match} {steps : List (List Int × Option Match)}

/-- The places count up from `p`. No winner starts behind its place, and as long as a start is to win,
it or an earlier one is alive. -/
structure Announced (p : Int) (steps : List (List Int × Option Match)) : Prop where
  start_le : ∀ (i : Nat) (live : List Int) (m : Match), steps[i]? = some (live, some m) →
    m.start ≤ p + i
  alive : ∀ (i j : Nat) (live live' : List Int) (best : Option Match) (b : Match),
    steps[i]? = some (live, best) → steps[j]? = some (live', some b) → i < j → b.start ≤ p + i →
      ∃ s ∈ live, s ≤ b.start

theorem Announced.tail (h : Announced p (step :: steps)) : Announced (p + 1) steps := by
  constructor
  · intro i live m hi
    have hle := h.start_le (i + 1) live m hi
    omega
  · intro i j live live' best b hi hj hij hle
    exact h.alive (i + 1) (j + 1) live live' best b hi hj (by omega) (by omega)

/-- What a place reports starts no later than anything alive there. -/
theorem clear_of_mem_step (hm : m ∈ (l.step live best).1) : ∀ s ∈ live, m.start ≤ s := by
  rw [step_eq, List.mem_append] at hm
  rcases hm with hm | hm
  · cases best with
    | none => simp [considered] at hm
    | some b =>
      rcases l.consider_cases live b with ⟨hclear, heq⟩ | ⟨-, heq⟩ | ⟨-, heq⟩
      · simp only [considered, heq, List.mem_singleton] at hm
        rwa [hm]
      · simp [considered, heq] at hm
      · simp [considered, heq] at hm
  · exact (mem_ready.mp hm).2

/-- What a winner leaves over starts no later than the winner. -/
theorem start_le_of_mem_step
    (hm : m ∈ (l.step live (some b)).1 ∨ m ∈ (l.step live (some b)).2.held) : m.start ≤ b.start := by
  have hmid : m ∈ (l.considered live (some b)).1 ∨ m ∈ (l.considered live (some b)).2.held := by
    simp only [step_eq, List.mem_append, mem_ready, mem_waiting] at hm
    tauto
  have hkept : ∀ x ∈ l.kept b, x.start ≤ b.start := fun x hx => (mem_kept.mp hx).2
  rcases l.consider_cases live b with ⟨-, heq⟩ | ⟨-, heq⟩ | ⟨-, heq⟩
  all_goals
    simp only [considered, heq] at hmid
    grind

/-- No winner that ends after a reported match starts before it. -/
theorem start_le_of_mem_run (h : Announced p steps) (hheld : ∀ x ∈ l.held, x.start ≤ p)
    (hasc : (l.held ++ winners steps).Pairwise fun a b => a.stop < b.stop) (hm : m ∈ l.run steps) :
    ∀ b ∈ winners steps, m.stop < b.stop → m.start ≤ b.start := by
  induction steps generalizing l p with
  | nil => simp [winners]
  | cons step steps ih =>
    obtain ⟨live, best⟩ := step
    rw [winners_cons] at hasc ⊢
    rw [← List.append_assoc] at hasc
    have hstart : ∀ x, x ∈ (l.step live best).1 ∨ x ∈ (l.step live best).2.held → x.start ≤ p := by
      intro x hx
      rcases step_subset hx with hx | rfl
      · exact hheld x hx
      · simpa using h.start_le 0 live x rfl
    intro b hb hlt
    rcases List.mem_append.mp hb with hb | hb
    · -- The winner of this place comes after all that was held, so the match is not a later winner.
      obtain rfl := Option.mem_toList.mp hb
      rw [run_cons, List.mem_append] at hm
      rcases hm with hm | hm
      · exact start_le_of_mem_step (.inl hm)
      · rcases run_subset hm with hm | hm
        · exact start_le_of_mem_step (.inr hm)
        · have hgt := (List.pairwise_append.mp hasc).2.2 b (by simp) m (mem_winners.mpr hm)
          omega
    · rw [run_cons, List.mem_append] at hm
      rcases hm with hm | hm
      · by_contra hlate
        have hp := hstart m (.inl hm)
        obtain ⟨step, hstep, hbest⟩ := mem_winners.mp hb
        obtain ⟨j, hj⟩ := List.mem_iff_getElem?.mp hstep
        obtain ⟨live', best'⟩ := step
        obtain rfl : best' = some b := hbest
        obtain ⟨s, hs, hsb⟩ := h.alive 0 (j + 1) live live' best b rfl hj (by omega) (by omega)
        have hclear := clear_of_mem_step hm s hs
        omega
      · refine ih h.tail (fun x hx => ?_) (hasc.sublist (step_held_sublist.append_right _)) hm b hb hlt
        have hp := hstart x (.inr hx)
        omega

end Leftmost

/-- The moments of a text are at its places, counted from the one before the first character. -/
theorem Nfa.place_of_moments {nfa : Nfa} {mode : Mode} {text : List Char} {ms : List Moment}
    (hw : nfa.WellFormed) (hm : nfa.moments mode text = .ok ms) {i : Nat} {now : Moment}
    (hi : ms[i]? = some now) : i ≤ text.length ∧ now.place = -1 + i := by
  obtain ⟨hcount, hsees⟩ := sees_of_moments hw hm
  have hlt := (List.getElem?_eq_some_iff.mp hi).1
  rw [(hsees i now hi).place_eq, placeAfter, List.length_take]
  omega

/-- What a search for the best sees of a text announces its winners. -/
theorem Regex.announced {pattern : String} {re : Regex} (h : Regex.compile pattern = .ok re)
    {subject : String} {moments : List Moment}
    (hm : re.nfa.moments .bestOnly subject.toList = .ok moments) (last : Int) :
    Announced (-1) (moments.map (·.observe re.nfa last)) := by
  obtain ⟨left, right, body, outside, gate, -, hn⟩ := exists_recognizes h
  obtain ⟨-, hsees⟩ := Nfa.sees_of_moments hn.wellFormed hm
  constructor
  · intro i live m hi
    rw [List.getElem?_map, Option.map_eq_some_iff] at hi
    obtain ⟨now, hnow, hobs⟩ := hi
    have hwin := List.mem_of_mem_head? (Prod.mk.inj hobs).2
    rw [← (Nfa.place_of_moments hn.wellFormed hm hnow).2]
    exact (hsees i now hnow).start_le_place hn hwin
  · intro i j live live' best b hi hj hij hle
    rw [List.getElem?_map, Option.map_eq_some_iff] at hi hj
    obtain ⟨now, hnow, hobs⟩ := hi
    obtain ⟨later, hlater, hobs'⟩ := hj
    obtain ⟨rfl, -⟩ := Prod.mk.inj hobs
    have hwin := List.mem_of_mem_head? (Prod.mk.inj hobs').2
    obtain ⟨hin, hp⟩ := Nfa.place_of_moments hn.wellFormed hm hnow
    obtain ⟨hjn, -⟩ := Nfa.place_of_moments hn.wellFormed hm hlater
    have hne : (subject.toList.drop i).take (j - i) ≠ [] := by
      apply List.ne_nil_of_length_pos
      rw [List.length_take, List.length_drop]
      omega
    obtain ⟨c, z, hcz⟩ := List.exists_cons_of_ne_nil hne
    have htext : subject.toList.take j = subject.toList.take i ++ c :: z := by
      rw [← hcz, ← List.take_add, Nat.add_sub_cancel' (Nat.le_of_lt hij)]
    have hsee := hsees j later hlater
    rw [htext] at hsee
    refine (hsees i now hnow).exists_live_of_accepting hsee hn (List.length_take_le' _ _) hwin ?_
    omega

/-- Items whose keys ascend are told apart by their keys. -/
theorem eq_of_ascending {α : Type} {key : α → Int} {xs : List α} {a b : α}
    (hasc : xs.Pairwise fun a b => key a < key b) (ha : a ∈ xs) (hb : b ∈ xs) (hab : key a = key b) :
    a = b := by
  have hnodup : (xs.map key).Nodup :=
    List.pairwise_map.mpr (hasc.imp fun hlt => Int.ne_of_lt hlt)
  exact List.inj_on_of_nodup_map hnodup ha hb hab

/-- Of two reported matches the one that starts earlier ends earlier. So the starts do not decrease when
the matches are put in the order of their ends. -/
theorem Regex.search_bestOnly_not_nested {pattern : String} {re : Regex}
    (h : Regex.compile pattern = .ok re) (subject : String) :
    ∃ best, re.search .bestOnly subject = .ok best ∧
      (∀ m ∈ best, ∀ x ∈ best, m.start < x.start → m.stop < x.stop) ∧
      ((best.mergeSort fun a b => a.stop ≤ b.stop).map (·.start)).Pairwise (· ≤ ·) := by
  obtain ⟨found, moments, hfound, -, hmoments, hbest, hwinners⟩ := exists_searches h subject
  have hann := announced h hmoments (subject.toList.length - 1)
  generalize moments.map (·.observe re.nfa (subject.toList.length - 1)) = steps at hbest hwinners hann
  have hasc : (winners steps).Pairwise fun a b => a.stop < b.stop := hwinners ▸ hfound.pairwise_firsts
  have hwinner : ∀ m ∈ Leftmost.run {} steps, m ∈ winners steps := by
    intro m hm
    rcases run_subset hm with hm | hm
    · cases hm
    · exact mem_winners.mpr hm
  have hnested : ∀ m ∈ Leftmost.run {} steps, ∀ x ∈ Leftmost.run {} steps,
      m.start < x.start → m.stop < x.stop := by
    intro m hm x hx hlt
    by_contra hle
    by_cases heq : x.stop = m.stop
    · have hxm := eq_of_ascending hasc (hwinner x hx) (hwinner m hm) heq
      rw [hxm] at hlt
      omega
    · have hstart := start_le_of_mem_run hann (by simp) (by simpa using hasc) hx m (hwinner m hm)
        (by omega)
      omega
  refine ⟨_, hbest, hnested, List.pairwise_map.mpr ?_⟩
  refine (pairwise_mergeSort_key Match.stop (Leftmost.run {} steps)).imp_of_mem fun {a b} ha hb hle => ?_
  by_contra hlt
  have hgt := hnested b (List.mem_mergeSort.mp hb) a (List.mem_mergeSort.mp ha) (by omega)
  omega

/-- A match that is released after a later one has been reported still starts and ends before it. -/
theorem not_nested_of_release : ∃ re best, Regex.compile "abcd|c|e" = .ok re ∧
    re.search .bestOnly "abce" = .ok best ∧
      best.map (fun m => (m.start, m.stop)) = [(2, 3), (1, 2)] ∧
      ∀ m ∈ best, ∀ x ∈ best, m.start < x.start → m.stop < x.stop := by
  have hrun : (Regex.compile "abcd|c|e").map (fun re => (re.search .bestOnly "abce").map fun ms =>
      ms.map fun m => (m.start, m.stop)) = .ok (.ok [(2, 3), (1, 2)]) := by
    cbv
  obtain ⟨re, hre, hspans⟩ := exists_of_map_eq_ok hrun
  obtain ⟨best, hbest, hnested, -⟩ := Regex.search_bestOnly_not_nested hre "abce"
  rw [hbest] at hspans
  exact ⟨re, best, hre, hbest, Except.ok.inj hspans, hnested⟩

end PatternAutomata
