import PatternAutomata.Proofs.Subset

/-!
# Well-formed deterministic automata

What the subset construction builds from the automaton of a pattern can be used without further checks.
States are numbered by their places and are found from the first one on. Each of them stands for a set
of nodes of its own, closed under steps that read nothing, and moves on exactly the characters on which
a node of the set moves, by ranges in ascending order that lead to states of the automaton.
-/

namespace PatternAutomata

/-- A state that may stand in a deterministic automaton built from `nfa`. -/
structure DfaState.Proper (nfa : Nfa) (dfa : Dfa) (state : DfaState) : Prop where
  members_lt : ∀ p ∈ state.members, p < nfa.size
  ascending : state.members.Pairwise (· < ·)
  ne_nil : state.members ≠ []
  closed : ∀ p ∈ state.members, ∀ node, nfa.nodes[p]? = some node →
    ∀ q ∈ node.epsilons, q ∈ state.members
  reachable : ∃ w, dfa.run w = some state
  target_lt : ∀ t ∈ state.transitions, t.2 < dfa.size
  ordered : state.transitions.Pairwise fun t u => t.1.hi < u.1.lo
  covers : ∀ c, (∃ t ∈ state.transitions, c ∈ t.1) ↔
    ∃ p ∈ state.members, ∃ node, nfa.nodes[p]? = some node ∧ ∃ t ∈ node.transitions, c ∈ t.range
  isFinal_iff : state.isFinal = true ↔ nfa.finalId ∈ state.members

/-- All states are proper, numbered by their places, and stand for different sets of nodes. -/
structure Dfa.WellFormed (nfa : Nfa) (dfa : Dfa) : Prop where
  start_eq : dfa.start = 0
  start_lt : 0 < dfa.size
  id_eq : ∀ (i : Nat) (state : DfaState), dfa.states[i]? = some state → state.id = i
  distinct : ∀ (i j : Nat) (s t : DfaState), dfa.states[i]? = some s → dfa.states[j]? = some t →
    s.members = t.members → i = j
  proper : ∀ (i : Nat) (state : DfaState), dfa.states[i]? = some state → state.Proper nfa dfa

namespace Nfa

variable {nfa : Nfa} {dfa : Dfa} {state : DfaState} {members : List Nat} {c : Char}

/-- Where a word leads is closed under steps that read nothing. -/
theorem Reached.closed (h : nfa.Reached members) {p q : Nat} (hp : p ∈ members)
    (hs : nfa.graph p none q) : q ∈ members := by
  obtain ⟨w, hw⟩ := h
  have hq := ((hw p).mp hp).trans (.silent hs)
  rw [List.append_nil] at hq
  exact (hw q).mpr hq

theorem exists_step_iff {p : Nat} : (∃ q, nfa.graph p (some c) q) ↔
    ∃ node, nfa.nodes[p]? = some node ∧ ∃ t ∈ node.transitions, c ∈ t.range := by
  constructor
  · rintro ⟨q, node, hnode, hq⟩
    obtain ⟨t, ht, hc, -⟩ := mem_step_iff.mp hq
    exact ⟨node, hnode, t, ht, hc⟩
  · rintro ⟨node, hnode, t, ht, hc⟩
    exact ⟨t.target, node, hnode, mem_step_iff.mpr ⟨t, ht, hc, rfl⟩⟩

theorem Sound.isFinal_iff_mem (h : nfa.Sound state) (hw : nfa.WellFormed) :
    state.isFinal = true ↔ nfa.finalId ∈ state.members := by
  rw [h.isFinal_iff]
  constructor
  · rintro ⟨p, hp, node, hnode, hf⟩
    exact (hw.isFinal_iff p node hnode).mp hf ▸ hp
  · intro hp
    have hnode := Array.getElem?_eq_getElem (h.members_lt _ hp)
    exact ⟨_, hp, _, hnode, (hw.isFinal_iff _ _ hnode).mpr rfl⟩

theorem Determinizes.proper (h : nfa.Determinizes dfa) (hw : nfa.WellFormed) {i : Nat}
    (hi : dfa.states[i]? = some state) : state.Proper nfa dfa := by
  have hsound := h.subsets.sound i state hi
  have hexpanded := h.expanded i state hi
  refine ⟨hsound.members_lt, hsound.ascending, hsound.ne_nil, fun p hp node hnode q hq => ?_, ?_,
    fun t ht => ?_, hexpanded.ascending.imp lt_iff_index_lt.mpr, fun c => ?_,
    hsound.isFinal_iff_mem hw⟩
  · exact hsound.reached.closed hp ⟨node, hnode, hq⟩
  · obtain ⟨w, hmem⟩ := hsound.reached
    exact ⟨w, h.run_eq_some_iff.mpr ⟨Array.mem_of_getElem? hi, hmem⟩⟩
  · obtain ⟨s, hs, -⟩ := hexpanded.leads t ht
    exact (Array.getElem?_eq_some_iff.mp hs).1
  · rw [hexpanded.covers c]
    exact exists_congr fun p => and_congr_right fun _ => exists_step_iff

end Nfa

/-- The automaton of a pattern can be made deterministic, and what comes out is well formed. -/
theorem Pattern.wellFormed_toDfa {pattern : Pattern} {nfa : Nfa} (h : pattern.toNfa = .ok nfa) :
    ∃ dfa, nfa.toDfa = .ok dfa ∧ dfa.WellFormed nfa := by
  have hw := wellFormed_toNfa h
  obtain ⟨dfa, hdfa, hd⟩ := Nfa.exists_toDfa hw
  obtain ⟨s, hs, -⟩ := hd.start
  have hlt := (Array.getElem?_eq_some_iff.mp hs).1
  rw [hd.start_eq] at hlt
  exact ⟨dfa, hdfa, hd.start_eq, hlt, hd.subsets.id_eq, hd.subsets.distinct,
    fun i state hi => hd.proper hw hi⟩

set_option maxRecDepth 4000 in
/-- Two overlapping classes are cut into three pieces, one of which leads on to both of them. -/
theorem Pattern.wellFormed_toDfa_overlap : ∃ pattern nfa dfa,
    pattern = Pattern.union (.charClass ⟨[.range 'a' 'c'], false⟩)
      (.charClass ⟨[.range 'b' 'z'], false⟩) ∧
    pattern.toNfa = .ok nfa ∧ nfa.toDfa = .ok dfa ∧ dfa.WellFormed nfa ∧
      (dfa.states[0]?.map fun s => s.transitions.map fun t => (t.1.lo, t.1.hi, t.2)) =
        some [('a', 'a', 1), ('b', 'c', 2), ('d', 'z', 3)] := by
  have hrun : (Pattern.toNfa (.union (.charClass ⟨[.range 'a' 'c'], false⟩)
      (.charClass ⟨[.range 'b' 'z'], false⟩))).map (fun nfa => nfa.toDfa.map fun dfa =>
        dfa.states[0]?.map fun s => s.transitions.map fun t => (t.1.lo, t.1.hi, t.2)) =
      .ok (.ok (some [('a', 'a', 1), ('b', 'c', 2), ('d', 'z', 3)])) := by
    cbv
  obtain ⟨nfa, hnfa, hok⟩ := exists_of_map_eq_ok hrun
  obtain ⟨dfa, hdfa, hwell⟩ := Pattern.wellFormed_toDfa hnfa
  rw [hdfa] at hok
  exact ⟨_, nfa, dfa, rfl, hnfa, hdfa, hwell, Except.ok.inj hok⟩

end PatternAutomata
