import Mathlib
import PatternAutomata.Proofs.BestOnly
import PatternAutomata.Proofs.Compiled
import PatternAutomata.Proofs.Leftmost

/-!
# Both searches see the same winners

The matches of an exhaustive search come in groups, one for each place. The winners that a search for
the best considers are the first matches of these groups. So whatever it reports is a match of the
exhaustive search, captures included, and no match with the same end starts earlier.
-/

namespace PatternAutomata

open Leftmost

/-- What the rules for leftmost matches see of a moment. -/
def Moment.observe (nfa : Nfa) (last : Int) (now : Moment) : List Int × Option Match :=
  (now.liveStarts, (now.accepting nfa last).head?)

/-- The first matches of the groups. -/
def firsts (found : List (List Match)) : List Match := found.filterMap List.head?

section Grouped

variable {found : List (List Match)} {m x : Match}

theorem mem_of_mem_firsts (h : m ∈ firsts found) : m ∈ found.flatten := by
  obtain ⟨ms, hms, hm⟩ := List.mem_filterMap.mp h
  exact List.mem_flatten.mpr ⟨ms, hms, List.mem_of_mem_head? hm⟩

/-- Matches with the same end are in one group. -/
theorem Grouped.eq_of_stop_eq (h : Grouped found) {ms ms' : List Match} (hms : ms ∈ found)
    (hms' : ms' ∈ found) {a b : Match} (ha : a ∈ ms) (hb : b ∈ ms') (hab : a.stop = b.stop) :
    ms = ms' := by
  have hall := List.Pairwise.forall_of_forall_of_flip
    (R := fun ms ms' => ∀ a ∈ ms, ∀ b ∈ ms', a.stop = b.stop → ms = ms') (l := found)
    (fun _ _ _ _ _ _ _ => rfl)
    (h.by_stop.imp fun hlt a ha b hb hab => absurd (hlt a ha b hb) (by omega))
    (h.by_stop.imp fun hlt a ha b hb hab => absurd (hlt b hb a ha) (by omega))
  exact hall hms hms' a ha b hb hab

/-- The first match of a group has the earliest start of the matches with its end. -/
theorem Grouped.start_le_of_mem_firsts (h : Grouped found) (hm : m ∈ firsts found)
    (hx : x ∈ found.flatten) (hstop : x.stop = m.stop) : m.start ≤ x.start := by
  obtain ⟨ms, hms, hfirst⟩ := List.mem_filterMap.mp hm
  obtain ⟨ms', hms', hx⟩ := List.mem_flatten.mp hx
  obtain rfl := h.eq_of_stop_eq hms' hms hx (List.mem_of_mem_head? hfirst) hstop
  cases ms' with
  | nil => cases hx
  | cons b rest =>
    cases hfirst
    rcases List.mem_cons.mp hx with rfl | hx
    · exact Int.le_refl _
    · exact Int.le_of_lt ((List.pairwise_cons.mp (h.by_start _ hms)).1 x hx)

/-- A match that starts no later than any other with its end is the first of its group. -/
theorem Grouped.mem_firsts (h : Grouped found) (hm : m ∈ found.flatten)
    (hle : ∀ x ∈ found.flatten, x.stop = m.stop → m.start ≤ x.start) : m ∈ firsts found := by
  obtain ⟨ms, hms, hm⟩ := List.mem_flatten.mp hm
  refine List.mem_filterMap.mpr ⟨ms, hms, ?_⟩
  cases ms with
  | nil => cases hm
  | cons b rest =>
    rcases List.mem_cons.mp hm with rfl | hmr
    · rfl
    · have hlt := (List.pairwise_cons.mp (h.by_start _ hms)).1 m hmr
      have hb := hle b (List.mem_flatten.mpr ⟨_, hms, List.mem_cons_self⟩)
        (h.same_stop _ hms b List.mem_cons_self m hm)
      omega

/-- Every end belongs to the first match of a group. -/
theorem Grouped.exists_mem_firsts (h : Grouped found) (hx : x ∈ found.flatten) :
    ∃ m ∈ firsts found, m.stop = x.stop := by
  obtain ⟨ms, hms, hx⟩ := List.mem_flatten.mp hx
  cases ms with
  | nil => cases hx
  | cons m rest =>
    refine ⟨m, List.mem_filterMap.mpr ⟨_, hms, rfl⟩, ?_⟩
    exact h.same_stop _ hms m List.mem_cons_self x hx

theorem Grouped.pairwise_firsts (h : Grouped found) :
    (firsts found).Pairwise fun a b => a.stop < b.stop := by
  refine List.pairwise_filterMap.mpr (h.by_stop.imp fun hlt a ha b hb => ?_)
  exact hlt a (List.mem_of_mem_head? ha) b (List.mem_of_mem_head? hb)

end Grouped

/-- Both searches go through, and the best matches come from the first ones of the exhaustive search. -/
theorem Regex.exists_searches {pattern : String} {re : Regex} (h : Regex.compile pattern = .ok re)
    (subject : String) :
    ∃ found moments, Grouped found ∧ re.search .exhaustive subject = .ok found.flatten ∧
      re.nfa.moments .bestOnly subject.toList = .ok moments ∧
      re.search .bestOnly subject =
        .ok (Leftmost.run {} (moments.map (·.observe re.nfa (subject.toList.length - 1)))) ∧
      winners (moments.map (·.observe re.nfa (subject.toList.length - 1))) = firsts found := by
  obtain ⟨left, right, body, outside, gate, -, hn⟩ := exists_recognizes h
  obtain ⟨all, hall, hcount, hsees⟩ := Nfa.exists_moments hn.wellFormed .exhaustive subject.toList
  obtain ⟨best, hbest, hcount', hsees'⟩ := Nfa.exists_moments hn.wellFormed .bestOnly subject.toList
  generalize hlast : (subject.toList.length - 1 : Int) = last
  refine ⟨all.map (·.accepting re.nfa last), best, Nfa.grouped_accepting hn hcount hsees, ?_, hbest,
    ?_, ?_⟩
  · rw [Regex.search, Nfa.search, hall, hlast]
    rfl
  · rw [Regex.search, Nfa.search, hbest, hlast]
    rfl
  · have hheads : (best.map (·.observe re.nfa last)).map (·.2) =
        (all.map (·.accepting re.nfa last)).map List.head? := by
      refine List.ext_getElem (by simp [hcount, hcount']) fun i hi hj => ?_
      simp only [List.length_map] at hi hj
      simp only [List.getElem_map, Moment.observe]
      exact (hsees i _ (List.getElem?_eq_getElem hj)).head?_accepting
        (hsees' i _ (List.getElem?_eq_getElem hi)) hn (List.length_take_le' _ _)
    have hfilter : ∀ {α : Type} (f : α → Option Match) (xs : List α),
        xs.filterMap f = (xs.map f).filterMap id := fun f xs => by simp [List.filterMap_map]
    rw [winners, firsts, hfilter, hfilter List.head?, hheads]

/-- Whatever a search for the best reports, the exhaustive search lists with the same captures, and
lists nothing with the same end and an earlier start. -/
theorem Regex.search_bestOnly_subset {pattern : String} {re : Regex}
    (h : Regex.compile pattern = .ok re) (subject : String) :
    ∃ best all, re.search .bestOnly subject = .ok best ∧ re.search .exhaustive subject = .ok all ∧
      ∀ m ∈ best, m ∈ all ∧ ∀ x ∈ all, x.stop = m.stop → m.start ≤ x.start := by
  obtain ⟨found, moments, hfound, hall, -, hbest, hwinners⟩ := exists_searches h subject
  refine ⟨_, _, hbest, hall, fun m hm => ?_⟩
  have hfirst : m ∈ firsts found := by
    rw [← hwinners]
    rcases run_subset hm with hm | ⟨step, hstep, hm⟩
    · cases hm
    · exact List.mem_filterMap.mpr ⟨step, hstep, hm⟩
  exact ⟨mem_of_mem_firsts hfirst, fun x hx hstop => hfound.start_le_of_mem_firsts hfirst hx hstop⟩

/-- Three matches of the exhaustive search end at the last place. The best one has the earliest start, and
the group captures what it does there. -/
theorem search_bestOnly_subset_group : ∃ re best all, Regex.compile "a*(b)" = .ok re ∧
    re.search .bestOnly "aab" = .ok best ∧ re.search .exhaustive "aab" = .ok all ∧
      (best.map fun m => (m.stop, m.captures.spans)) = [(2, [some ⟨-1, 2⟩, some ⟨1, 2⟩])] ∧
      (all.map fun m => (m.start, m.stop)) = [(-1, 2), (0, 2), (1, 2)] ∧
      ∀ m ∈ best, m ∈ all ∧ ∀ x ∈ all, x.stop = m.stop → m.start ≤ x.start := by
  have hrun : (Regex.compile "a*(b)").map (fun re =>
      ((re.search .bestOnly "aab").map fun ms => ms.map fun m => (m.stop, m.captures.spans),
        (re.search .exhaustive "aab").map fun ms => ms.map fun m => (m.start, m.stop))) =
      .ok (.ok [(2, [some ⟨-1, 2⟩, some ⟨1, 2⟩])], .ok [(-1, 2), (0, 2), (1, 2)]) := by
    cbv
  obtain ⟨re, hre, hspans⟩ := exists_of_map_eq_ok hrun
  obtain ⟨best, all, hbest, hall, hsub⟩ := Regex.search_bestOnly_subset hre "aab"
  rw [hbest, hall] at hspans
  obtain ⟨hbests, halls⟩ := Prod.mk.inj hspans
  exact ⟨re, best, all, hre, hbest, hall, Except.ok.inj hbests, Except.ok.inj halls, hsub⟩

/-- The ends of the best matches are distinct. They ascend exactly if at no place a winner is reported
at once over a held match that starts no later. -/
theorem Regex.ends_pairwise_iff {pattern : String} {re : Regex} (h : Regex.compile pattern = .ok re)
    (subject : String) :
    ∃ moments ends, re.nfa.moments .bestOnly subject.toList = .ok moments ∧
      re.ends subject = .ok ends ∧ ends.Nodup ∧
      (ends.Pairwise (· < ·) ↔
        Leftmost.Orderly {} (moments.map (·.observe re.nfa (subject.toList.length - 1)))) := by
  obtain ⟨found, moments, hfound, -, hmoments, hbest, hwinners⟩ := exists_searches h subject
  have hasc : (Leftmost.held {} ++ winners (moments.map
      (·.observe re.nfa (subject.toList.length - 1)))).Pairwise fun a b => a.stop < b.stop := by
    rw [hwinners]
    exact hfound.pairwise_firsts
  refine ⟨moments, _, hmoments, by rw [Regex.ends, hbest]; rfl, nodup_run hasc, ?_⟩
  rw [List.pairwise_map]
  exact pairwise_run_iff hasc .nil

/-- The match that is held until `d` fails to come is overtaken by the one that ends there. -/
theorem ends_overtaken : ∃ re ends, Regex.compile "abcd|c|e" = .ok re ∧ re.ends "abce" = .ok ends ∧
    ends = [3, 2] ∧ ¬ends.Pairwise (· < ·) := by
  have hrun : (Regex.compile "abcd|c|e").map (fun re => re.ends "abce") = .ok (.ok [3, 2]) := by
    cbv
  obtain ⟨re, hre, hends⟩ := exists_of_map_eq_ok hrun
  exact ⟨re, [3, 2], hre, hends, rfl, by decide⟩

/-- After the first `c` its match is held, since `abcd` may still come. Nothing matches where it is
released, and the ends ascend. -/
theorem ends_pairwise_of_release : ∃ re moments ends, Regex.compile "abcd|c" = .ok re ∧
    re.nfa.moments .bestOnly "abcexc".toList = .ok moments ∧ re.ends "abcexc" = .ok ends ∧
      ends = [2, 5] ∧
      (Leftmost.after {} ((moments.map (·.observe re.nfa 5)).take 4)).held.map (·.stop) = [2] ∧
      Leftmost.Orderly {} (moments.map (·.observe re.nfa 5)) := by
  have hrun : (Regex.compile "abcd|c").map (fun re => (re.ends "abcexc",
      (re.nfa.moments .bestOnly "abcexc".toList).map fun moments =>
        (Leftmost.after {} ((moments.map (·.observe re.nfa 5)).take 4)).held.map (·.stop))) =
      .ok (.ok [2, 5], .ok [2]) := by
    cbv
  obtain ⟨re, hre, hrun⟩ := exists_of_map_eq_ok hrun
  obtain ⟨moments, ends, hmoments, hends, -, hiff⟩ := Regex.ends_pairwise_iff hre "abcexc"
  rw [hends, hmoments] at hrun
  obtain ⟨hrun, hheld⟩ := Prod.mk.inj hrun
  obtain rfl := Except.ok.inj hrun
  exact ⟨re, moments, _, hre, hmoments, hends, rfl, Except.ok.inj hheld, hiff.mp (by decide)⟩

end PatternAutomata
