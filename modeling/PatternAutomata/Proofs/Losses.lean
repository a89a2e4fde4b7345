import PatternAutomata.Proofs.Find
import PatternAutomata.Proofs.Nesting

/-!
# Why a winner is not reported

A winner is lost in two ways only. It is discarded when a match with an earlier start ends later, or it
is dropped when it ends, because an earlier start has been reported and is still alive: the match of that
start may still grow over it, whether it does so later or not. The second way is what keeps the end of a
match from being reported that no earlier match overlaps.
-/

namespace PatternAutomata

open Leftmost

/-- When the match ended, an earlier start had been reported at an earlier place and was still alive. -/
def Nfa.Outgrown (nfa : Nfa) (last : Int) (moments : List Moment) (m : Match) : Prop :=
  ∃ before now later, moments = before ++ now :: later ∧ now.place = m.stop ∧
    ∃ x ∈ Leftmost.output {} (before.map (·.observe nfa last)),
      x.start < m.start ∧ x.start ∈ now.liveStarts

namespace Leftmost

variable {b : Match} {steps : List (List Int × Option Match)}

/-- Of the winners the first to start is reported, so something is that starts no later than a given
one. -/
theorem exists_mem_run_le (hb : b ∈ winners steps) : ∃ x ∈ Leftmost.run {} steps, x.start ≤ b.start := by
  have hne : winners steps ≠ [] := List.ne_nil_of_mem hb
  obtain ⟨x, -, hx, hle⟩ := Match.exists_leftmostLongest hne
  have hinit : Leftmost.NoneBefore x.start {} := ⟨by simp, by simp⟩
  refine ⟨x, hinit.mem_run (fun step hstep y hy => ?_) rfl (.inr (mem_winners.mp hx)), (hle b hb).1⟩
  exact (hle y (mem_winners.mpr ⟨step, hstep, hy⟩)).1

end Leftmost

namespace Nfa

variable {nfa : Nfa} {mode : Mode} {text : List Char} {last : Int} {moments : List Moment} {m : Match}

theorem pairwise_place (hw : nfa.WellFormed) (hm : nfa.moments mode text = .ok moments) :
    moments.Pairwise fun a b => a.place < b.place := by
  refine List.pairwise_iff_getElem.mpr fun i j hi hj hij => ?_
  have hpi := (place_of_moments hw hm (List.getElem?_eq_getElem hi)).2
  have hpj := (place_of_moments hw hm (List.getElem?_eq_getElem hj)).2
  omega

/-- A winner is the first match at its place. -/
theorem mem_winners_observe :
    m ∈ winners (moments.map (·.observe nfa last)) ↔
      ∃ now ∈ moments, (now.accepting nfa last).head? = some m := by
  simp [mem_winners, Moment.observe]

theorem place_eq_stop {now : Moment} (hm : (now.accepting nfa last).head? = some m) :
    now.place = m.stop := by
  obtain ⟨-, t, -, -, rfl⟩ := mem_accepting.mp (List.mem_of_mem_head? hm)
  rfl

/-- A text whose moments part at a winner is seen in parts too. -/
theorem map_observe_of_head? {before later : List Moment} {now : Moment}
    (hm : (now.accepting nfa last).head? = some m) : (before ++ now :: later).map (·.observe nfa last) =
      before.map (·.observe nfa last) ++ (now.liveStarts, some m) :: later.map (·.observe nfa last) := by
  simp [Moment.observe, hm]

/-- A winner is reported, or a later winner starts before it, or it is outgrown. -/
theorem mem_run_or_outgrown (hm : m ∈ winners (moments.map (·.observe nfa last)))
    (hasc : (winners (moments.map (·.observe nfa last))).Pairwise fun a b => a.stop < b.stop) :
    m ∈ Leftmost.run {} (moments.map (·.observe nfa last)) ∨
      (∃ b ∈ winners (moments.map (·.observe nfa last)), m.stop < b.stop ∧ b.start < m.start) ∨
      nfa.Outgrown last moments m := by
  obtain ⟨now, hnow, hhead⟩ := mem_winners_observe.mp hm
  obtain ⟨before, later, rfl⟩ := List.append_of_mem hnow
  rw [map_observe_of_head? hhead] at hasc ⊢
  rcases mem_run_or_lost {} (before.map (·.observe nfa last)) now.liveStarts m
    (later.map (·.observe nfa last)) with hrun | ⟨b, hb, hlt⟩ | ⟨s, hs, hlt, hr⟩
  · exact .inl hrun
  · rw [winners_append, winners_cons, List.pairwise_append] at hasc
    have hstop := (List.pairwise_cons.mp hasc.2.1).1 b hb
    refine .inr (.inl ⟨b, ?_, hstop, hlt⟩)
    simp [winners_append, winners_cons, hb]
  · obtain ⟨x, hx, rfl⟩ : ∃ x ∈ Leftmost.output {} (before.map (·.observe nfa last)), x.start = s := by
      simpa using mem_reported_after.mp hr
    exact .inr (.inr ⟨before, now, later, rfl, place_eq_stop hhead, x, hx, hlt, hs⟩)

/-- Nothing is reported with the end of a winner that is outgrown. -/
theorem Outgrown.stop_ne (h : nfa.Outgrown last moments m)
    (hplace : moments.Pairwise fun a b => a.place < b.place)
    (hm : m ∈ winners (moments.map (·.observe nfa last)))
    (hasc : (winners (moments.map (·.observe nfa last))).Pairwise fun a b => a.stop < b.stop) :
    ∀ x ∈ Leftmost.run {} (moments.map (·.observe nfa last)), x.stop ≠ m.stop := by
  obtain ⟨before, now, later, rfl, hstop, x, hx, hlt, hlive⟩ := h
  obtain ⟨now', hnow', hhead⟩ := mem_winners_observe.mp hm
  have hsame : now' = now :=
    eq_of_ascending hplace hnow' (by simp) ((place_eq_stop hhead).trans hstop.symm)
  rw [hsame] at hhead
  rw [map_observe_of_head? hhead] at hasc ⊢
  exact stop_ne_of_dropped (by simpa using hasc)
    ⟨x.start, hlive, hlt, mem_reported_after.mpr (.inr ⟨x, hx, rfl⟩)⟩

/-- The match that outgrows another one is reported in the end. -/
theorem Outgrown.exists_mem_run (h : nfa.Outgrown last moments m) :
    ∃ x ∈ Leftmost.run {} (moments.map (·.observe nfa last)), x.start < m.start := by
  obtain ⟨before, now, later, rfl, -, x, hx, hlt, -⟩ := h
  refine ⟨x, ?_, hlt⟩
  rw [List.map_append, run_append]
  exact List.mem_append_left _ hx

end Nfa

/-- An end at which the exhaustive search has a match is missing for a cause only: a later match starts
before all matches with this end, or an earlier start had been reported and was still alive there. Either
way something is reported that starts before them. -/
theorem Regex.search_bestOnly_lost {pattern : String} {re : Regex}
    (h : Regex.compile pattern = .ok re) (subject : String) :
    ∃ moments all best, re.nfa.moments .bestOnly subject.toList = .ok moments ∧
      re.search .exhaustive subject = .ok all ∧ re.search .bestOnly subject = .ok best ∧
      ∀ m ∈ all, (∀ x ∈ all, x.stop = m.stop → m.start ≤ x.start) → m.stop ∉ best.map (·.stop) →
        ((∃ x ∈ all, m.stop < x.stop ∧ x.start < m.start) ∨
          re.nfa.Outgrown (subject.toList.length - 1) moments m) ∧
        ∃ x ∈ best, x.start < m.start := by
  obtain ⟨found, moments, hfound, hall, hmoments, hbest, hwinners⟩ := exists_searches h subject
  have hasc := hfound.pairwise_firsts
  rw [← hwinners] at hasc
  refine ⟨moments, _, _, hmoments, hall, hbest, fun m hm hle hmiss => ?_⟩
  have hwin := hwinners ▸ hfound.mem_firsts hm hle
  rcases Nfa.mem_run_or_outgrown hwin hasc with hrun | ⟨b, hb, hstop, hlt⟩ | hout
  · exact (hmiss (List.mem_map_of_mem hrun)).elim
  · obtain ⟨x, hx, hxb⟩ := exists_mem_run_le hb
    exact ⟨.inl ⟨b, mem_of_mem_firsts (hwinners ▸ hb), hstop, hlt⟩, x, hx, by omega⟩
  · exact ⟨.inr hout, hout.exists_mem_run⟩

/-- After `a` the rest `bc` may follow, so its start is alive when `b` matches on its own. -/
theorem ends_dead_end : ∃ re a b, Regex.compile "a(bc)?|b" = .ok re ∧
    re.search .exhaustive "ab" = .ok [a, b] ∧ re.ends "ab" = .ok [0] ∧
      (a.start = -1 ∧ a.stop = 0) ∧ b.start = 0 ∧ b.stop = 1 := by
  have hrun : (Regex.compile "a(bc)?|b").map (fun re =>
      ((re.search .exhaustive "ab").map fun ms => ms.map (·.span), re.ends "ab")) =
      .ok (.ok [⟨-1, 0⟩, ⟨0, 1⟩], .ok [0]) := by
    cbv
  obtain ⟨re, hre, hboth⟩ := exists_of_map_eq_ok hrun
  obtain ⟨hall, hends⟩ := Prod.mk.inj hboth
  obtain ⟨all, hall, hspans⟩ := exists_of_map_eq_ok hall
  obtain ⟨a, rest, rfl, ha, hrest⟩ := List.map_eq_cons_iff.mp hspans
  obtain ⟨b, none, rfl, hb, hnone⟩ := List.map_eq_cons_iff.mp hrest
  rw [List.map_eq_nil_iff.mp hnone] at hall
  exact ⟨re, a, b, hre, hall, hends, Span.mk.inj ha, Span.mk.inj hb⟩

/-- A reported start that is alive keeps a later match from being reported. -/
theorem search_lost_to_live_start : ∃ re moments all best m, Regex.compile "a(bc)?|b" = .ok re ∧
    re.nfa.moments .bestOnly "ab".toList = .ok moments ∧ re.search .exhaustive "ab" = .ok all ∧
      re.search .bestOnly "ab" = .ok best ∧ m ∈ all ∧ m.span = ⟨0, 1⟩ ∧
      m.stop ∉ best.map (·.stop) ∧ re.nfa.Outgrown 1 moments m ∧ ∃ x ∈ best, x.start < m.start := by
  obtain ⟨re, a, b, hre, hall, hends, ha, hb⟩ := ends_dead_end
  obtain ⟨moments, all, best, hmoments, hall', hbest, hlost⟩ := Regex.search_bestOnly_lost hre "ab"
  obtain rfl : [a, b] = all := Except.ok.inj (hall.symm.trans hall')
  rw [Regex.ends, hbest] at hends
  have hstops : best.map (·.stop) = [0] := Except.ok.inj hends
  have hspan : b.span = ⟨0, 1⟩ := by rw [Match.span, hb.1, hb.2]
  have hmiss : b.stop ∉ best.map (·.stop) := by simp [hstops, hb]
  have hfirst : ∀ x ∈ [a, b], x.stop = b.stop → b.start ≤ x.start := by simp [ha, hb]
  have hlast : ¬∃ x ∈ [a, b], b.stop < x.stop ∧ x.start < b.start := by simp [ha, hb]
  obtain ⟨hlater | hout, hless⟩ := hlost b (by simp) hfirst hmiss
  · exact (hlast hlater).elim
  · exact ⟨re, moments, [a, b], best, b, hre, hmoments, hall, hbest, by simp, hspan, hmiss, hout, hless⟩

/-- In an exhaustive search no match ends before it starts. -/
theorem Regex.start_le_stop {pattern : String} {re : Regex} (h : Regex.compile pattern = .ok re)
    {subject : String} {all : List Match} (hall : re.search .exhaustive subject = .ok all) :
    ∀ m ∈ all, m.start ≤ m.stop := by
  obtain ⟨left, right, body, outside, gate, -, hn⟩ := exists_recognizes h
  obtain ⟨ms, hms, hall⟩ := exists_of_map_eq_ok hall
  obtain ⟨-, hsees⟩ := Nfa.sees_of_moments hn.wellFormed hms
  subst hall
  intro m hm
  obtain ⟨now, hnow, hm⟩ := List.mem_flatMap.mp hm
  obtain ⟨i, hi⟩ := List.mem_iff_getElem?.mp hnow
  have hsee := hsees i now hi
  rw [hsee.stop_eq hm, ← hsee.place_eq]
  exact hsee.start_le_place hn hm

/-- If no match starts before a given match and ends behind its start, the end of that match is reported,
unless the first match with this end is outgrown. -/
theorem Regex.mem_ends_iff_not_outgrown {pattern : String} {re : Regex}
    (h : Regex.compile pattern = .ok re) (subject : String) :
    ∃ moments all ends, re.nfa.moments .bestOnly subject.toList = .ok moments ∧
      re.search .exhaustive subject = .ok all ∧ re.ends subject = .ok ends ∧
      ∀ m ∈ all, (∀ x ∈ all, ¬(x.start < m.start ∧ m.start < x.stop)) →
        ∃ first ∈ all, first.stop = m.stop ∧ (∀ x ∈ all, x.stop = m.stop → first.start ≤ x.start) ∧
          (m.stop ∈ ends ↔ ¬re.nfa.Outgrown (subject.toList.length - 1) moments first) := by
  obtain ⟨found, moments, hfound, hall, hmoments, hbest, hwinners⟩ := exists_searches h subject
  have hasc := hfound.pairwise_firsts
  rw [← hwinners] at hasc
  obtain ⟨left, right, body, outside, gate, -, hn⟩ := exists_recognizes h
  refine ⟨moments, _, _, hmoments, hall, by rw [Regex.ends, hbest]; rfl, fun m hm hfree => ?_⟩
  obtain ⟨first, hfirst, hstop⟩ := hfound.exists_mem_firsts hm
  have hmem := mem_of_mem_firsts hfirst
  have hle : ∀ x ∈ found.flatten, x.stop = m.stop → first.start ≤ x.start :=
    fun x hx hxm => hfound.start_le_of_mem_firsts hfirst hx (hxm.trans hstop.symm)
  have hwin := hwinners ▸ hfirst
  refine ⟨first, hmem, hstop, hle, ?_⟩
  rw [← hstop]
  constructor
  · intro hend hout
    obtain ⟨x, hx, hxstop⟩ := List.mem_map.mp hend
    exact hout.stop_ne (Nfa.pairwise_place hn.wellFormed hmoments) hwin hasc x hx hxstop
  · intro hin
    rcases Nfa.mem_run_or_outgrown hwin hasc with hrun | ⟨b, hb, hlater, hlt⟩ | hout
    · exact List.mem_map_of_mem hrun
    · -- A later match that starts before the first one would overlap the given one.
      have hstart := hle m hm rfl
      have hend := start_le_stop h hall m hm
      exact (hfree b (mem_of_mem_firsts (hwinners ▸ hb)) (by omega)).elim
    · exact (hin hout).elim

/-- Nothing overlaps the match of `b`, and yet its end is missing. -/
theorem ends_missing_dead_end : ∃ re all ends, Regex.compile "a(bc)?|b" = .ok re ∧
    re.search .exhaustive "ab" = .ok all ∧ re.ends "ab" = .ok ends ∧ ends = [0] ∧
      ¬∀ m ∈ all, (∀ x ∈ all, ¬(x.start < m.start ∧ m.start < x.stop)) → m.stop ∈ ends := by
  obtain ⟨re, a, b, hre, hall, hends, ha, hb⟩ := ends_dead_end
  refine ⟨re, [a, b], [0], hre, hall, hends, rfl, fun hreported => ?_⟩
  have hend := hreported b (by simp) (by simp [ha, hb])
  simp [hb] at hend

/-- The missing end is that of an outgrown match, and the reported one is not. -/
theorem mem_ends_iff_dead_end : ∃ re moments all, Regex.compile "a(bc)?|b" = .ok re ∧
    re.nfa.moments .bestOnly "ab".toList = .ok moments ∧ re.search .exhaustive "ab" = .ok all ∧
      re.ends "ab" = .ok [0] ∧ (∃ m ∈ all, m.span = ⟨0, 1⟩ ∧ re.nfa.Outgrown 1 moments m) ∧
      ∃ m ∈ all, m.span = ⟨-1, 0⟩ ∧ ¬re.nfa.Outgrown 1 moments m := by
  obtain ⟨re, a, b, hre, hall, hends, ha, hb⟩ := ends_dead_end
  obtain ⟨moments, all, ends, hmoments, hall', hends', hiff⟩ := Regex.mem_ends_iff_not_outgrown hre "ab"
  obtain rfl : [a, b] = all := Except.ok.inj (hall.symm.trans hall')
  obtain rfl : [0] = ends := Except.ok.inj (hends.symm.trans hends')
  refine ⟨re, moments, [a, b], hre, hmoments, hall, hends, ⟨b, by simp, ?_, ?_⟩, a, by simp, ?_, ?_⟩
  · rw [Match.span, hb.1, hb.2]
  · obtain ⟨first, hfirst, hstop, -, hin⟩ := hiff b (by simp) (by simp [ha, hb])
    have heq : first = b := by
      rcases List.mem_pair.mp hfirst with rfl | rfl
      · omega
      · rfl
    simpa [heq, hb] using hin
  · rw [Match.span, ha.1, ha.2]
  · obtain ⟨first, hfirst, hstop, -, hin⟩ := hiff a (by simp) (by simp [ha, hb])
    have heq : first = a := by
      rcases List.mem_pair.mp hfirst with rfl | rfl
      · rfl
      · omega
    simpa [heq, ha] using hin

end PatternAutomata
