import PatternAutomata.Proofs.Groups
import PatternAutomata.Proofs.Trails

/-!
# Captures follow the path that precedes all others

A match may be read along many paths. Of those that pass no node twice without reading, the exhaustive
search follows the one that takes the earlier epsilon wherever it parts from another, so that the left
branch of a union, a further round and a round at all are tried first. The captures of the match are
the replay of this path.
-/

namespace PatternAutomata

open PatternAutomata.Graph

namespace Nfa

/-- A path of a match: it leads from the entry to the final node over the text up to the stop, passes
the marker that starts the match at the start, and passes no node twice between two characters. -/
structure Realizes (nfa : Nfa) (text : List Char) (start stop : Int) (π : Steps) : Prop where
  path : nfa.graph.Path nfa.entry π nfa.finalId
  word_eq : π.word = text.take (stop + 1).toNat
  starts : ∃ p, nfa.marker p = some matchStarts ∧ (p, start) ∈ nfa.visits π
  nodup : (nfa.visits π).Nodup

variable {nfa : Nfa} {length : Nat} {left right : Bool} {body : Pattern} {outside : Nat → Prop}
  {gate : Nat} {text w : List Char} {now : Moment} {last start stop : Int} {x : Match} {π : Steps}

/-- What follows a path of a match arrives with the start of the match. -/
theorem Realizes.exists_follows (h : nfa.Realizes text start stop π)
    (hn : nfa.Recognizes left right body outside gate) : ∃ a, nfa.Follows π a ∧
      a.nodeAndStart = (nfa.finalId, some start) := by
  obtain ⟨a, ha, htarget⟩ := Nfa.exists_follows hn.wellFormed h.path
  obtain ⟨p, hp, hvisit⟩ := h.starts
  obtain rfl := hn.gated.marker_iff.mp hp
  have hne : a.target ≠ p := htarget ▸ hn.gated.final_ne_gate
  exact ⟨a, ha, Prod.ext htarget
    ((ha.start_eq_some_iff_of_ne hn.wellFormed hn.gated hne).mpr hvisit)⟩

/-- A match of an exhaustive search has the captures of the path that precedes all others. -/
theorem Sees.exists_least (hs : nfa.Sees .exhaustive length w now)
    (hn : nfa.Recognizes left right body outside gate) (hf : nfa.Forks) (hl : w.length ≤ length)
    (hw : w = text.take w.length) (hx : x ∈ now.accepting nfa last) :
    ∃ π, nfa.Realizes text x.start x.stop π ∧ nfa.replay π = .ok x.captures ∧
      ∀ π', nfa.Realizes text x.start x.stop π' → π' ≠ π → nfa.Precedes π π' := by
  have hstop := hs.stop_eq hx
  obtain ⟨-, t, ht, hfinal, rfl⟩ := mem_accepting.mp hx
  have hstart := hs.start_of_isFinal hn ht hfinal now.place
  obtain ⟨bare, hr, rfl⟩ := hs
  obtain ⟨log, htrace, rfl⟩ := hr.exists_trace hn.wellFormed hl
  have hcharted := htrace.charted hf hn.wellFormed hn.gated
  obtain ⟨⟨a, ha⟩, -⟩ := mem_liveThreads.mp ht
  obtain ⟨e, he, heq⟩ := List.mem_map.mp ha
  cases heq
  obtain ⟨hfollows, hword⟩ := hcharted.tracks e he
  obtain ⟨next, hv⟩ := hcharted.exists_next he
  have htarget := (hn.wellFormed.isFinal_iff _ _ (visit_eq_ok hv).1).mp hfinal
  have hne : e.1.arrival.target ≠ gate := htarget ▸ hn.gated.final_ne_gate
  have hkey : e.1.key = (nfa.finalId, some (Match.start ⟨placeAfter w, e.2.captures⟩)) := by
    have harrival := start_of_visit hn.gated hv
    rw [if_neg hne, hstart] at harrival
    exact Prod.ext htarget harrival.symm
  have hlast : (placeAfter w + 1).toNat = w.length := by
    simp only [placeAfter]
    omega
  refine ⟨e.1.steps, ⟨htarget ▸ hfollows.path, ?_, ⟨gate, hn.gated.marker_gate, ?_⟩,
    hcharted.nodup e he⟩, hfollows.replay_eq (hword ▸ hv), fun π' hπ' hother => ?_⟩
  · rw [hword, hlast, ← hw]
  · exact (hfollows.start_eq_some_iff hn.gated (hword ▸ hv)).mp hstart
  · obtain ⟨a, ha, hkey'⟩ := hπ'.exists_follows hn
    have hword' : π'.word = w := by rw [hπ'.word_eq, hlast, ← hw]
    have htoward : Toward (Match.start ⟨placeAfter w, e.2.captures⟩) (placeAfter π'.word) a.start :=
      .inl (congrArg Prod.snd hkey')
    obtain ⟨e', he', hkey'', hle⟩ := ha.exists_least hf hn.wellFormed hn.gated hπ'.nodup htoward
      (hword' ▸ htrace)
    -- There is one path only to the final node with this start.
    obtain rfl := List.inj_on_of_nodup_map hcharted.nodup_keys he he'
      (hkey.trans (hkey''.trans hkey').symm)
    exact hle.resolve_left (Ne.symm hother)

end Nfa

/-- For every match of an exhaustive search, the captures are the replay of the path that precedes all
other paths of the match. The epsilons of the automaton are those of its fragment, in an order that
prefers left branches, further rounds and rounds at all. -/
theorem Regex.captures_eq_replay {pattern : String} {re : Regex} (h : Regex.compile pattern = .ok re)
    (subject : String) :
    ∃ left right body f ms, Pattern.parse pattern = .ok (.anchored left right body) ∧
      Fragment.ofPattern (.anchored left right body) 0 = .ok f ∧ re.nfa = f.toNfa right ∧
      f.Prefers (.anchored left right body) 0 ∧ re.search .exhaustive subject = .ok ms ∧ ∀ m ∈ ms,
        ∃ π, re.nfa.Realizes subject.toList m.start m.stop π ∧ re.nfa.replay π = .ok m.captures ∧
          ∀ π', re.nfa.Realizes subject.toList m.start m.stop π' → π' ≠ π → re.nfa.Precedes π π' := by
  obtain ⟨left, right, body, hparse, hp, hnfa⟩ := exists_toNfa h
  obtain ⟨outside, gate, hn⟩ := Pattern.exists_recognizes hp hnfa
  obtain ⟨f, hf, hre⟩ := Pattern.exists_of_anchored_toNfa hnfa
  have hforks : re.nfa.Forks :=
    hre ▸ Fragment.forks_toNfa (Fragment.ofPattern_spec _ hf).1 (Fragment.forks_ofPattern _ hf) right
  obtain ⟨ms, hms⟩ := Nfa.exists_search hn.wellFormed .exhaustive subject
  refine ⟨left, right, body, f, ms, hparse, hf, hre, Fragment.prefers_ofPattern _ hf, hms,
    fun m hm => ?_⟩
  obtain ⟨moments, hmoments, now, hnow, hx⟩ := Nfa.mem_accepting_of_search hms hm
  obtain ⟨i, hi⟩ := List.mem_iff_getElem?.mp hnow
  have hsee := (Nfa.sees_of_moments hn.wellFormed hmoments).2 i now hi
  refine hsee.exists_least hn hforks (List.length_take_le' _ _) ?_ hx
  rw [List.length_take, List.take_eq_take_iff]
  omega

set_option maxRecDepth 4000 in
/-- Both ways through the two unions read the text, and the one through the left branch of the first is
kept. -/
theorem replay_of_left_branch : ∃ re ms m π, Regex.compile "(a|ab)(c|bc)" = .ok re ∧
    re.search .exhaustive "abc" = .ok ms ∧ m ∈ ms ∧
      m.captures.spans = [some ⟨-1, 2⟩, some ⟨-1, 0⟩, some ⟨0, 2⟩] ∧
      re.nfa.Realizes "abc".toList (-1) 2 π ∧ re.nfa.replay π = .ok m.captures ∧
      ∀ π', re.nfa.Realizes "abc".toList (-1) 2 π' → π' ≠ π → re.nfa.Precedes π π' := by
  have hrun : (Regex.compile "(a|ab)(c|bc)").map (fun re => (re.search .exhaustive "abc").map fun ms =>
      ms.map fun m => (m.start, m.stop, m.captures.spans)) =
      .ok (.ok [(-1, 2, [some ⟨-1, 2⟩, some ⟨-1, 0⟩, some ⟨0, 2⟩])]) := by
    cbv
  obtain ⟨re, hre, hspans⟩ := exists_of_map_eq_ok hrun
  obtain ⟨left, right, body, f, ms, -, -, -, -, hms, hall⟩ := Regex.captures_eq_replay hre "abc"
  rw [hms] at hspans
  have hfound : (ms.map fun m => (m.start, m.stop, m.captures.spans)) = _ := Except.ok.inj hspans
  obtain ⟨m, rfl, hm⟩ := List.map_eq_singleton_iff.mp hfound
  obtain ⟨hstart, hm⟩ := Prod.mk.inj hm
  obtain ⟨hstop, hspans⟩ := Prod.mk.inj hm
  obtain ⟨π, hπ, hreplay, hleast⟩ := hall m List.mem_cons_self
  rw [hstart, hstop] at hπ hleast
  exact ⟨re, [m], m, π, hre, hms, List.mem_cons_self, hspans, hπ, hreplay, hleast⟩

end PatternAutomata
