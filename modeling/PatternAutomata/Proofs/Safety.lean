import PatternAutomata.Proofs.Accepting
import PatternAutomata.Proofs.Construction
import PatternAutomata.Proofs.Subset
import PatternAutomata.Search.Leftmost

/-!
# Automata of patterns are safe to use

Searching an automaton and making it deterministic look up nodes, slots and groups by number, end groups
and add transitions, and each of these may fail. On the automaton of a pattern none of them does, whatever
the tree of the pattern looks like. Threads stay at nodes of the automaton, have a record for each group,
and know of no place beyond the one they are at. Where ranges are cut, every piece has its ends in order.
The one thing that may be missing is the room for the records, if the groups have high numbers.
-/

namespace PatternAutomata

namespace Nfa

variable {nfa : Nfa} {mode : Mode} {length : Nat} {w : List Char} {m : Moment} {t : Thread}

/-- A thread is at a node of the automaton, and its captures fit the groups and the place. -/
theorem Sees.fits (hs : nfa.Sees mode length w m) (hw : nfa.WellFormed) (ht : t ∈ m.threads) :
    nfa.nodes[t.node.id]? = some t.node ∧ t.captures.Fits nfa.groupCount m.place := by
  obtain ⟨log, hr, rfl⟩ := hs
  obtain ⟨⟨a, ha⟩, -⟩ := mem_liveThreads.mp ht
  obtain ⟨harrives, next, hv⟩ := hr.arrives ha
  have hnode := hr.nodes_eq ha
  rw [hw.id_eq _ _ hnode]
  exact ⟨hnode, harrives.fits_of_visit hw hv⟩

/-- A search goes through, and so does all that it looks up at the places of the text. -/
theorem exists_safe_search (hw : nfa.WellFormed) (mode : Mode) (subject : String) :
    ∃ moments found, nfa.moments mode subject.toList = .ok moments ∧
      nfa.search mode subject = .ok found ∧
      ∀ now ∈ moments, ∀ t ∈ now.threads,
        nfa.nodes[t.node.id]? = some t.node ∧ t.captures.Fits nfa.groupCount now.place := by
  obtain ⟨moments, hmoments, -, hsees⟩ := exists_moments hw mode subject.toList
  refine ⟨moments, _, hmoments, by rw [search, hmoments]; rfl, fun now hnow t ht => ?_⟩
  obtain ⟨i, hi⟩ := List.mem_iff_getElem?.mp hnow
  exact (hsees i now hi).fits hw ht

end Nfa

/-- No search and no construction on the automaton of a tree fails. Only the room for the records of the
groups may be missing, and then a search stops before it looks anything up. -/
theorem NumberedTree.search_toDfa_succeed {tree : NumberedTree} {nfa : Nfa}
    (h : tree.toNfa = .ok nfa) :
    (∀ (mode : Mode) (subject : String), (nfa.groupCount ≤ Captures.capacity → ∃ moments found,
      nfa.moments mode subject.toList = .ok moments ∧ nfa.searchWithRoom mode subject = .ok found ∧
      ∀ now ∈ moments, ∀ t ∈ now.threads,
        nfa.nodes[t.node.id]? = some t.node ∧ t.captures.Fits nfa.groupCount now.place) ∧
      ∀ fault, nfa.searchWithRoom mode subject = .error fault →
        fault = .tooManyGroups nfa.groupCount ∧ Captures.capacity < nfa.groupCount) ∧
    (∃ dfa, nfa.toDfa = .ok dfa) ∧
    ∀ ranges : List CharRange,
      (refine ranges).map (·.lo) = (cuts ranges).filter fun c => ranges.any (c ∈ ·) := by
  rw [toNfa_eq] at h
  have hw := Pattern.wellFormed_toNfa h
  obtain ⟨dfa, hdfa, -⟩ := Nfa.exists_toDfa hw
  refine ⟨fun mode subject => ?_, ⟨dfa, hdfa⟩, fun ranges => map_lo_pieces (ascending_cuts ranges)⟩
  obtain ⟨moments, found, hmoments, hfound, hfits⟩ := Nfa.exists_safe_search hw mode subject
  constructor
  · intro hroom
    exact ⟨moments, found, hmoments, by rw [Nfa.searchWithRoom, if_pos hroom, hfound], hfits⟩
  · intro fault hfault
    rw [Nfa.searchWithRoom] at hfault
    split at hfault
    · rw [hfound] at hfault
      cases hfault
    · cases hfault
      exact ⟨rfl, by omega⟩

set_option maxRecDepth 4000 in
/-- Group 0 is nested in itself and group 5 occurs twice, without any group from 1 to 4. -/
theorem NumberedTree.search_toDfa_succeed_skipped : ∃ (tree : NumberedTree) (nfa : Nfa)
    (moments : List Moment) (found : List Match) (dfa : Dfa),
    tree.pattern = .repeated .plus (.group 5 (.anchored false true (.group 5 (.literal 'a')))) ∧
    tree.toNfa = .ok nfa ∧ nfa.groupCount = 6 ∧
      nfa.moments .exhaustive "baa".toList = .ok moments ∧
      nfa.searchWithRoom .exhaustive "baa" = .ok found ∧ found.length = 2 ∧
      (∀ now ∈ moments, ∀ t ∈ now.threads, t.captures.Fits 6 now.place) ∧ nfa.toDfa = .ok dfa := by
  let tree : NumberedTree :=
    ⟨.repeated .plus (.group 5 (.anchored false true (.group 5 (.literal 'a')))), by decide⟩
  have hrun : tree.toNfa.map (fun nfa =>
      (nfa.groupCount, (nfa.searchWithRoom .exhaustive "baa").map List.length)) = .ok (6, .ok 2) := by
    cbv
  obtain ⟨nfa, hnfa, hok⟩ := exists_of_map_eq_ok hrun
  obtain ⟨hcount, hlength⟩ := Prod.mk.inj hok
  obtain ⟨hsearch, ⟨dfa, hdfa⟩, -⟩ := NumberedTree.search_toDfa_succeed hnfa
  have hroom : nfa.groupCount ≤ Captures.capacity := by
    rw [hcount]
    decide
  obtain ⟨moments, found, hmoments, hfound, hfits⟩ := (hsearch .exhaustive "baa").1 hroom
  rw [hfound] at hlength
  exact ⟨tree, nfa, moments, found, dfa, rfl, hnfa, hcount, hmoments, hfound, Except.ok.inj hlength,
    fun now hnow t ht => hcount ▸ (hfits now hnow t ht).2, hdfa⟩

end PatternAutomata
