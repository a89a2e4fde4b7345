import PatternAutomata.Proofs.Accepting
import PatternAutomata.Proofs.Subset
import PatternAutomata.Search.Leftmost

/-!
# Searching and accepting the parts before a place

The matches of an exhaustive search that end at a place come from threads at the final node. Whether
there is such a thread depends on the text up to the place alone, and the deterministic automaton
decides it. Nothing is asked of the shape of the tree: where group 0 is entered again and again a thread
changes its start on the way, but what it goes on to depends only on its node and on the start it arrived
with. The numbers of the groups only have to leave room for their records.
-/

namespace PatternAutomata

open PatternAutomata.Graph

namespace Nfa

variable {nfa : Nfa} {length : Nat} {w : List Char} {m : Moment} {last : Int}

/-- An exhaustive search has a thread at a final node exactly if the word leads to one. -/
theorem Sees.exists_isFinal_iff (hs : nfa.Sees .exhaustive length w m) (hw : nfa.WellFormed)
    (hl : w.length ≤ length) : (∃ t ∈ m.threads, t.node.isFinal = true) ↔
      ∃ p node, nfa.nodes[p]? = some node ∧ node.isFinal = true ∧ nfa.graph.Spells nfa.entry w p := by
  obtain ⟨log, hr, rfl⟩ := hs
  constructor
  · rintro ⟨t, ht, hf⟩
    obtain ⟨⟨a, ha⟩, -⟩ := mem_liveThreads.mp ht
    exact ⟨a.target, t.node, hr.nodes_eq ha, hf, (hr.arrives ha).1.spells_entry⟩
  · rintro ⟨p, node, hnode, hf, hp⟩
    obtain ⟨a, ha, rfl⟩ := (Arrives.entry : nfa.Arrives [] _).exists_of_spells hw hp
    obtain ⟨⟨b, t⟩, hx, htarget, -⟩ := ha.covered hw hr hl
    have ht := hr.nodes_eq hx
    rw [htarget, hnode] at ht
    obtain rfl := Option.some.inj ht
    exact ⟨t, mem_liveThreads.mpr ⟨⟨b, hx⟩, by simp [Node.isLive, hf]⟩, hf⟩

theorem exists_mem_accepting_iff : (∃ x, x ∈ m.accepting nfa last) ↔
    (nfa.anchoredEnd = true → m.place = last) ∧ ∃ t ∈ m.threads, t.node.isFinal = true := by
  simp only [mem_accepting]
  constructor
  · rintro ⟨x, hlast, t, ht, hf, -⟩
    exact ⟨hlast, t, ht, hf⟩
  · rintro ⟨hlast, t, ht, hf⟩
    exact ⟨_, hlast, t, ht, hf, rfl⟩

end Nfa

/-- In the automaton of any tree an exhaustive search, once there is room for it, finds a match that ends at
a place exactly if the deterministic automaton accepts the text up to there, and the end is not anchored or
reached. -/
theorem NumberedTree.exists_stop_iff_accepts {tree : NumberedTree} {nfa : Nfa}
    (h : tree.toNfa = .ok nfa) (hroom : nfa.groupCount ≤ Captures.capacity) (subject : String) :
    ∃ dfa ms, nfa.toDfa = .ok dfa ∧ nfa.searchWithRoom .exhaustive subject = .ok ms ∧
      ∀ e : Int, -1 ≤ e → e < subject.toList.length →
        ((∃ m ∈ ms, m.stop = e) ↔
          dfa.accepts (String.ofList (subject.toList.take (e + 1).toNat)) = true ∧
            (nfa.anchoredEnd = false ∨ e = subject.toList.length - 1)) := by
  rw [toNfa_eq] at h
  have hw := Pattern.wellFormed_toNfa h
  obtain ⟨dfa, hdfa, hd⟩ := Nfa.exists_toDfa hw
  obtain ⟨moments, hmoments, hcount, hsees⟩ := Nfa.exists_moments hw .exhaustive subject.toList
  refine ⟨dfa, moments.flatMap (·.accepting nfa (subject.toList.length - 1)), hdfa,
    by rw [Nfa.searchWithRoom, if_pos hroom, Nfa.search, hmoments]; rfl, fun e hge hlt => ?_⟩
  have hi : (e + 1).toNat < moments.length := by omega
  have hsee := hsees _ _ (List.getElem?_eq_getElem hi)
  have hplace : placeAfter (subject.toList.take (e + 1).toNat) = e := by
    rw [placeAfter, List.length_take]
    omega
  have hmoment : (∃ m ∈ moments.flatMap (·.accepting nfa (subject.toList.length - 1)), m.stop = e) ↔
      ∃ x, x ∈ moments[(e + 1).toNat].accepting nfa (subject.toList.length - 1) := by
    constructor
    · rintro ⟨x, hx, rfl⟩
      obtain ⟨now, hnow, hx⟩ := List.mem_flatMap.mp hx
      obtain ⟨j, hj⟩ := List.mem_iff_getElem?.mp hnow
      have hstop := (hsees j now hj).stop_eq hx
      have hjlt := (List.getElem?_eq_some_iff.mp hj).1
      obtain rfl : j = (x.stop + 1).toNat := by
        rw [hstop, placeAfter, List.length_take]
        omega
      rw [List.getElem?_eq_getElem hi] at hj
      exact ⟨x, Option.some.inj hj ▸ hx⟩
    · rintro ⟨x, hx⟩
      exact ⟨x, List.mem_flatMap.mpr ⟨_, List.getElem_mem hi, hx⟩, (hsee.stop_eq hx).trans hplace⟩
  rw [hmoment, Nfa.exists_mem_accepting_iff, hsee.exists_isFinal_iff hw (List.length_take_le' _ _),
    hd.accepts_iff, String.toList_ofList, hsee.place_eq, hplace, and_comm]
  refine and_congr_right fun _ => ?_
  cases nfa.anchoredEnd <;> simp

/-- Group 0 is entered again in every round, and the inner anchored node skips characters of its own. -/
theorem NumberedTree.exists_stop_of_nested_match : ∃ (tree : NumberedTree) (nfa : Nfa) (dfa : Dfa)
    (ms : List Match),
    tree.pattern = .repeated .plus (.group 0 (.anchored false true (.literal 'a'))) ∧
    tree.toNfa = .ok nfa ∧ nfa.groupCount ≤ Captures.capacity ∧ nfa.toDfa = .ok dfa ∧
      nfa.searchWithRoom .exhaustive "baxa" = .ok ms ∧
      (∃ m ∈ ms, m.stop = 1) ∧ (-1 : Int) ≤ 1 ∧ (1 : Int) < "baxa".toList.length ∧
        dfa.accepts (String.ofList ['b', 'a']) = true := by
  let tree : NumberedTree := ⟨.repeated .plus (.group 0 (.anchored false true (.literal 'a'))), by decide⟩
  have hrun : tree.toNfa.map (fun nfa => (nfa.groupCount,
      (nfa.searchWithRoom .exhaustive "baxa").map fun ms => ms.any (·.stop = 1))) =
        .ok (1, .ok true) := by
    cbv
  obtain ⟨nfa, hnfa, hparts⟩ := exists_of_map_eq_ok hrun
  obtain ⟨hcount, hok⟩ := Prod.mk.inj hparts
  have hroom : nfa.groupCount ≤ Captures.capacity := by
    rw [hcount]
    decide
  obtain ⟨dfa, ms, hdfa, hms, hiff⟩ := NumberedTree.exists_stop_iff_accepts hnfa hroom "baxa"
  rw [hms] at hok
  have hstop : ∃ m ∈ ms, m.stop = 1 := by simpa using Except.ok.inj hok
  exact ⟨tree, nfa, dfa, ms, rfl, hnfa, hroom, hdfa, hms, hstop, by decide, by decide,
    ((hiff 1 (by decide) (by decide)).mp hstop).1⟩

end PatternAutomata
