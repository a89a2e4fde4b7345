import Mathlib
import PatternAutomata.Proofs.Accepting
import PatternAutomata.Proofs.Brackets
import PatternAutomata.Proofs.GroupNumbers
import PatternAutomata.Proofs.Leftmost

/-!
# What groups capture

Inside of a group, captures tell where the group was last entered, and the rest of the word that was
read since then leads from the opening of the group to the node. So a closing that is passed finds the
opening that it belongs to, and gives the group the span of a word of its own, however often the group
was entered before. The span lies within the match, since no group is entered before the match starts.
-/

namespace PatternAutomata

open PatternAutomata.Graph

/-- What stands between two places is the word that leads from the one to the other. -/
theorem take_drop_span (u v rest : List Char) :
    ((u ++ v ++ rest).drop (placeAfter u + 1).toNat).take (placeAfter (u ++ v) - placeAfter u).toNat =
      v := by
  have hfirst : (placeAfter u + 1).toNat = u.length := by
    simp only [placeAfter]
    omega
  have hlength : (placeAfter (u ++ v) - placeAfter u).toNat = v.length := by
    rw [placeAfter_append]
    omega
  rw [hfirst, hlength, List.append_assoc, List.drop_left, List.take_left]

namespace Captures

variable {captures captures' : Captures} {marker : Option Marker} {place s : Int}

/-- A group was entered at a place, or what it has captured starts there. -/
def Touches (captures : Captures) (k : Nat) (place : Int) : Prop :=
  captures.opened? k = some place ∨ ∃ stop, captures.span? k = some ⟨place, stop⟩

theorem touches_of_pass {k : Nat} (h : captures.pass marker place = .ok captures')
    (ht : captures'.Touches k s) :
    captures.Touches k s ∨ marker = some ⟨.groupStart, k⟩ ∧ s = place := by
  rcases ht with ht | ⟨stop, ht⟩
  · rw [opened?_of_pass h] at ht
    split at ht
    · rename_i hm
      exact .inr ⟨hm, (Option.some.inj ht).symm⟩
    · exact .inl (.inl ht)
  · rw [span?_of_pass h] at ht
    split at ht
    · rcases Option.or_eq_some_iff.mp ht with ht | ⟨-, ht⟩
      · obtain ⟨start, hopened, heq⟩ := Option.map_eq_some_iff.mp ht
        cases heq
        exact .inl (.inl hopened)
      · exact .inl (.inr ⟨stop, ht⟩)
    · exact .inl (.inr ⟨stop, ht⟩)

end Captures

namespace Nfa

/-- What is known of a group at a node after reading a word: inside of it, what was read since it was
entered leads from its opening to the node, and what it has captured is a word of the group. -/
structure Grasps (nfa : Nfa) (number : Nat) (l : Language Char) (inside : Nat → Prop) (opening : Nat)
    (w : List Char) (p : Nat) (captures : Captures) : Prop where
  opened : inside p → ∃ u v, w = u ++ v ∧ captures.opened? number = some (placeAfter u) ∧
    (nfa.graph.into inside).Spells opening v p
  captured : ∀ span, captures.span? number = some span → ∃ u v rest, w = u ++ v ++ rest ∧
    span = ⟨placeAfter u, placeAfter (u ++ v)⟩ ∧ v ∈ l

variable {nfa : Nfa} {mode : Mode} {length number opening gate q : Nat} {l : Language Char}
  {inside outside : Nat → Prop} {w : List Char} {a : Arrival} {t : Thread} {next : List Arrival}
  {o : Option Char} {now : Moment} {last : Int} {x : Match}

/-- A step keeps what is known of a group. -/
theorem Grasps.go (h : nfa.Grasps number l inside opening w a.target a.captures)
    (he : Enclosed nfa.graph nfa.marker number l inside opening)
    (hv : a.visit nfa (placeAfter w) = .ok (t, next)) (hq : t.node.LeadsTo o q) :
    nfa.Grasps number l inside opening (w ++ o.toList) q t.captures := by
  obtain ⟨-, hpass, -⟩ := visit_eq_ok hv
  rw [← marker_of_visit hv] at hpass
  have hs := (graph_of_visit hv).mpr hq
  have hopened := Captures.opened?_of_pass hpass number
  have hspan := Captures.span?_of_pass hpass number
  refine ⟨fun hin => ?_, fun span hsome => ?_⟩
  · have hstep : (nfa.graph.into inside).Spells a.target o.toList q := .single ⟨hs, hin⟩
    rcases he.enter _ _ _ hs hin with hp | ⟨hp, rfl, hm⟩
    · obtain ⟨u, v, rfl, hu, hpath⟩ := h.opened hp
      rw [if_neg fun hm => he.not_inside_of_opens _ hm hp] at hopened
      exact ⟨u, v ++ o.toList, List.append_assoc .., hopened.trans hu, hpath.trans hstep⟩
    · rw [if_pos hm] at hopened
      exact ⟨w, [], rfl, hopened, hp ▸ hstep⟩
  · split at hspan
    · -- The closing lies inside of the group, so the group is given what was read since it was entered.
      rename_i hm
      obtain ⟨u, v, rfl, hu, hpath⟩ := h.opened (he.inside_of_closes _ hm)
      rw [hu, Option.map_some, Option.some_or, hsome, Option.some_inj] at hspan
      exact ⟨u, v, o.toList, rfl, hspan, he.word_mem _ v hm hpath⟩
    · obtain ⟨u, v, rest, rfl, hword⟩ := h.captured span (hspan ▸ hsome)
      exact ⟨u, v, rest ++ o.toList, List.append_assoc .., hword⟩

theorem Arrives.grasps (ha : nfa.Arrives w a)
    (he : Enclosed nfa.graph nfa.marker number l inside opening) (hentry : ¬inside nfa.entry) :
    nfa.Grasps number l inside opening w a.target a.captures := by
  induction ha with
  | entry =>
    refine ⟨fun hin => (hentry hin).elim, fun span hsome => ?_⟩
    rw [Captures.span?_blank] at hsome
    cases hsome
  | go _ hv hq ih => exact ih.go he hv hq

/-- No group is entered before the match starts. -/
theorem Arrives.matchStart_le_of_touches (ha : nfa.Arrives w a) (hw : nfa.WellFormed)
    (hg : Gated nfa.graph nfa.marker outside gate nfa.entry nfa.finalId) {place : Int}
    (ht : a.captures.Touches number place) :
    ∃ first, a.captures.matchStart = some first ∧ first ≤ place := by
  induction ha with
  | entry =>
    rcases ht with ht | ⟨stop, ht⟩
    · rw [Captures.opened?_blank] at ht
      cases ht
    · rw [Captures.span?_blank] at ht
      cases ht
  | @go w a t next o q ha hv hq ih =>
    have hstart := start_of_visit hg hv
    obtain ⟨-, hpass, -⟩ := visit_eq_ok hv
    rw [← marker_of_visit hv] at hpass
    rcases Captures.touches_of_pass hpass ht with ht | ⟨hm, rfl⟩
    · obtain ⟨first, hfirst, hle⟩ := ih ht
      have hne : a.target ≠ gate := by
        rintro rfl
        rw [ha.matchStart_of_outside hg hg.gate_outside] at hfirst
        cases hfirst
      rw [if_neg hne] at hstart
      exact ⟨first, hstart.trans hfirst, hle⟩
    · by_cases hgate : a.target = gate
      · rw [if_pos hgate] at hstart
        exact ⟨_, hstart, le_rfl⟩
      · obtain ⟨u, v, -, hi⟩ := ha.within hg (hg.not_outside hm hgate)
        rw [if_neg hgate, hi.matchStart_eq] at hstart
        exact ⟨_, hstart, ((ha.fits hw).2.matchStart_le hi.matchStart_eq).2⟩

/-- The whole match is given its span in front of the final node. -/
theorem Arrives.span?_zero (ha : nfa.Arrives w a)
    (hg : Gated nfa.graph nfa.marker outside gate nfa.entry nfa.finalId)
    (he : EndsMatch nfa.graph nfa.marker nfa.finalId) (hfinal : a.target = nfa.finalId) :
    ∃ start, a.captures.matchStart = some start ∧
      a.captures.span? 0 = some ⟨start, placeAfter w⟩ := by
  cases ha with
  | entry =>
    have hentry : nfa.entry = nfa.finalId := hfinal
    exact (hg.final_inside (hentry ▸ hg.entry_outside)).elim
  | @go w a t next o q ha hv hq =>
    have hs := (graph_of_visit hv).mpr hq
    obtain ⟨rfl, hm⟩ := he.step_final a.target o (hfinal ▸ hs)
    have hgate : a.target ≠ gate := fun heq => by
      rw [heq, hg.marker_gate] at hm
      cases hm
    have ho := hg.not_outside hm hgate
    obtain ⟨u, v, -, hi⟩ := ha.within hg ho
    obtain ⟨-, hpass, -⟩ := visit_eq_ok hv
    rw [← marker_of_visit hv, hm] at hpass
    have hopened : a.captures.opened? 0 = some (placeAfter u) := hi.matchStart_eq
    refine ⟨placeAfter u, (hi.visit hg hv ho).matchStart_eq, (Captures.span?_of_pass hpass 0).trans ?_⟩
    rw [matchEnds, if_pos rfl, hopened, Option.toList_none, List.append_nil]
    rfl

/-- A match has the captures that arrive at the final node. -/
theorem Sees.arrives_of_accepting (hs : nfa.Sees mode length w now) (hw : nfa.WellFormed)
    (he : EndsMatch nfa.graph nfa.marker nfa.finalId) (hx : x ∈ now.accepting nfa last) :
    nfa.Arrives w ⟨nfa.finalId, x.captures⟩ := by
  obtain ⟨-, t, ht, hf, rfl⟩ := mem_accepting.mp hx
  obtain ⟨log, hr, rfl⟩ := hs
  obtain ⟨⟨a, ha⟩, -⟩ := mem_liveThreads.mp ht
  obtain ⟨harr, later, hv⟩ := hr.arrives ha
  have hfinal : a.target = nfa.finalId := (hw.isFinal_iff _ _ (hr.nodes_eq ha)).mp hf
  obtain ⟨-, hpass, -⟩ := visit_eq_ok hv
  rw [← marker_of_visit hv, hfinal, he.marker_final] at hpass
  have hcaptures : a.captures = t.captures := Except.ok.inj hpass
  exact hcaptures ▸ hfinal ▸ harr

/-- Whatever a search of either kind reports ends at some place of the text. -/
theorem mem_accepting_of_search {text : String} {ms : List Match} (h : nfa.search mode text = .ok ms)
    (hx : x ∈ ms) : ∃ moments, nfa.moments mode text.toList = .ok moments ∧
      ∃ now ∈ moments, x ∈ now.accepting nfa (text.toList.length - 1) := by
  obtain ⟨moments, hmoments, hms⟩ := exists_of_map_eq_ok h
  refine ⟨moments, hmoments, ?_⟩
  subst hms
  cases mode with
  | exhaustive => exact List.mem_flatMap.mp hx
  | bestOnly =>
    rcases Leftmost.run_subset hx with hheld | ⟨step, hstep, hbest⟩
    · cases hheld
    · obtain ⟨now, hnow, rfl⟩ := List.mem_map.mp hstep
      exact ⟨now, hnow, List.mem_of_mem_head? hbest⟩

theorem exists_search (hw : nfa.WellFormed) (mode : Mode) (text : String) :
    ∃ ms, nfa.search mode text = .ok ms := by
  obtain ⟨moments, hmoments, -⟩ := exists_moments hw mode text.toList
  rw [search, hmoments]
  exact ⟨_, rfl⟩

end Nfa

/-- In either kind of search a match captures itself and, for each of its groups, nothing or a word of
that group that lies within the match. -/
theorem Regex.captures_of_match {pattern : String} {re : Regex} (h : Regex.compile pattern = .ok re)
    (mode : Mode) (subject : String) :
    ∃ left right body ms, Pattern.parse pattern = .ok (.anchored left right body) ∧
      (body.groups.map Prod.fst).Nodup ∧ re.search mode subject = .ok ms ∧ ∀ m ∈ ms,
        m.captures.span? 0 = some ⟨m.start, m.stop⟩ ∧ m.captures.size = re.groupCount ∧
        ∀ number inner, (number, inner) ∈ body.groups → ∀ span, m.captures.span? number = some span →
          m.start ≤ span.start ∧ span.start ≤ span.stop ∧ span.stop ≤ m.stop ∧
          (subject.toList.drop (span.start + 1).toNat).take (span.stop - span.start).toNat ∈
            inner.language := by
  obtain ⟨left, right, body, hparse, hp, hnfa⟩ := exists_toNfa h
  obtain ⟨outside, gate, hn⟩ := Pattern.exists_recognizes hp hnfa
  have hnodup := Pattern.numbers_nodup_of_parse hparse
  obtain ⟨hends, hgroups⟩ := Pattern.enclosed_toNfa hp hnodup hnfa
  obtain ⟨ms, hms⟩ := Nfa.exists_search hn.wellFormed mode subject
  refine ⟨left, right, body, ms, hparse, hnodup, hms, fun m hm => ?_⟩
  obtain ⟨moments, hmoments, now, hnow, hx⟩ := Nfa.mem_accepting_of_search hms hm
  obtain ⟨i, hi⟩ := List.mem_iff_getElem?.mp hnow
  have hsee := (Nfa.sees_of_moments hn.wellFormed hmoments).2 i now hi
  have harr := hsee.arrives_of_accepting hn.wellFormed hends hx
  have hstop := hsee.stop_eq hx
  obtain ⟨start, hfirst, hspan⟩ := harr.span?_zero hn.gated hends rfl
  have hstart : m.start = start := by rw [Match.start, hspan]
  refine ⟨by rw [hspan, hstart, hstop], (harr.fits hn.wellFormed).2.size_eq,
    fun number inner hg span hsome => ?_⟩
  obtain ⟨inside, opening, hentry, he⟩ := hgroups number inner hg
  obtain ⟨first, hfirst', hle⟩ :=
    harr.matchStart_le_of_touches hn.wellFormed hn.gated (.inr ⟨span.stop, hsome⟩)
  obtain rfl : start = first := Option.some.inj (hfirst.symm.trans hfirst')
  obtain ⟨u, v, rest, hw, rfl, hv⟩ := (harr.grasps he hentry).captured span hsome
  have htext : subject.toList = u ++ v ++ (rest ++ subject.toList.drop i) := by
    rw [← List.append_assoc, ← hw, List.take_append_drop]
  refine ⟨hstart ▸ hle, ?_, ?_, ?_⟩
  · simp only [placeAfter_append]
    omega
  · simp only [hstop, hw, placeAfter_append]
    omega
  · rw [htext, take_drop_span]
    exact hv

set_option maxRecDepth 4000 in
/-- The last round of the outer group skips the inner one, which keeps what it captured before. Both
searches report the match. -/
theorem captures_of_earlier_round : ∃ re, Regex.compile "(a(b)?)+" = .ok re ∧
    ∀ mode, ∃ ms, re.search mode "aba" = .ok ms ∧ ∃ m ∈ ms,
      m.captures.span? 0 = some ⟨-1, 2⟩ ∧ m.start = -1 ∧ m.stop = 2 ∧
      m.captures.span? 1 = some ⟨1, 2⟩ ∧ m.captures.span? 2 = some ⟨0, 1⟩ ∧
      ['a'] ∈ (Pattern.concat (.literal 'a') (.repeated .optional (.group 2 (.literal 'b')))).language ∧
      ['b'] ∈ (Pattern.literal 'b').language := by
  have hrun : (Regex.compile "(a(b)?)+").map (fun re =>
      ((re.search .bestOnly "aba").map fun ms => ms.map fun m => m.captures.spans,
        (re.search .exhaustive "aba").map fun ms => ms.map fun m => m.captures.spans)) =
      .ok (.ok [[some ⟨-1, 0⟩, some ⟨-1, 0⟩, none], [some ⟨-1, 1⟩, some ⟨-1, 1⟩, some ⟨0, 1⟩],
          [some ⟨-1, 2⟩, some ⟨1, 2⟩, some ⟨0, 1⟩]],
        .ok [[some ⟨-1, 0⟩, some ⟨-1, 0⟩, none], [some ⟨-1, 1⟩, some ⟨-1, 1⟩, some ⟨0, 1⟩],
          [some ⟨-1, 2⟩, some ⟨1, 2⟩, some ⟨0, 1⟩], [some ⟨1, 2⟩, some ⟨1, 2⟩, none]]) := by
    cbv
  have hgroups : (Pattern.parse "(a(b)?)+").map Pattern.groups =
      .ok [(1, .concat (.literal 'a') (.repeated .optional (.group 2 (.literal 'b')))),
        (2, .literal 'b')] := by
    cbv
  obtain ⟨re, hre, hspans⟩ := exists_of_map_eq_ok hrun
  obtain ⟨hbest, hall⟩ := Prod.mk.inj hspans
  refine ⟨re, hre, fun mode => ?_⟩
  obtain ⟨left, right, body, ms, hparse, -, hms, hcaptures⟩ :=
    Regex.captures_of_match hre mode "aba"
  rw [hparse] at hgroups
  have hbody : body.groups = _ := Except.ok.inj hgroups
  have hthird : [some ⟨-1, 2⟩, some ⟨1, 2⟩, some ⟨0, 1⟩] ∈ ms.map fun m => m.captures.spans := by
    cases mode with
    | bestOnly =>
      rw [hms] at hbest
      have hfound : (ms.map fun m => m.captures.spans) = _ := Except.ok.inj hbest
      simp [hfound]
    | exhaustive =>
      rw [hms] at hall
      have hfound : (ms.map fun m => m.captures.spans) = _ := Except.ok.inj hall
      simp [hfound]
  obtain ⟨m, hm, hspans⟩ := List.mem_map.mp hthird
  have hspan : ∀ k, m.captures.span? k =
      [some (⟨-1, 2⟩ : Span), some ⟨1, 2⟩, some ⟨0, 1⟩][k]?.join := by
    intro k
    rw [← hspans, Captures.spans, List.getElem?_map, Captures.span?]
    cases m.captures.groups[k]? <;> rfl
  obtain ⟨hzero, -, hwords⟩ := hcaptures m hm
  have hwhole := Option.some.inj (hzero.symm.trans (hspan 0))
  obtain ⟨hstart, hstop⟩ := Span.mk.inj hwhole
  exact ⟨ms, hms, m, hm, hspan 0, hstart, hstop, hspan 1, hspan 2,
    (hwords 1 _ (by rw [hbody]; simp) ⟨1, 2⟩ (hspan 1)).2.2.2,
    (hwords 2 _ (by rw [hbody]; simp) ⟨0, 1⟩ (hspan 2)).2.2.2⟩

end PatternAutomata
