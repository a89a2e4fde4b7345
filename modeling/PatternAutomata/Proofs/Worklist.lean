import PatternAutomata.Proofs.Subset

/-!
# The worklist of the subset construction

The states that wait to be expanded stand in a queue, which grows at its end while it is taken off at
its front. A state is put there once, when it is found, so the queue holds the numbers from the state
whose turn it is up to the last one that was found, and going through the states in the order of their
numbers is to serve the queue. Since no two states stand for the same nodes and none of them for no
nodes, the queue runs dry. Each turn takes closures, which end because they visit no node twice.
-/

namespace PatternAutomata

namespace Nfa

/-- The numbers of the states that wait, and all states that were found. -/
structure Worklist where
  queue : List Nat
  states : Array DfaState

/-- Takes the first number off the queue, expands its state, and puts the numbers of the states that
were found on the way at the end. -/
def Worklist.turn (nfa : Nfa) (work : Worklist) : Except Fault (Option (Nat × Worklist)) :=
  match work.queue with
  | [] => .ok none
  | id :: queue =>
    match work.states[id]? with
    | none => .error (.missingState id)
    | some state => do
      let symbols ← nfa.symbols state.members
      let (state, states) ← nfa.expand state work.states symbols
      let found := List.range' work.states.size (states.size - work.states.size)
      return some (id, ⟨queue ++ found, states.setIfInBounds id state⟩)

/-- The turns end with an empty queue: the numbers that were taken off, and the states at the end. -/
inductive Worklist.Drains (nfa : Nfa) : Worklist → List Nat → Array DfaState → Prop
  | done {work : Worklist} (h : work.turn nfa = .ok none) : Drains nfa work [] work.states
  | turn {work next : Worklist} {id : Nat} {taken : List Nat} {final : Array DfaState}
      (h : work.turn nfa = .ok (some (id, next))) (hrest : Drains nfa next taken final) :
      Drains nfa work (id :: taken) final

variable {nfa : Nfa} {states later : Array DfaState} {limit current : Nat} {seeds : List Nat}

theorem Extends.size_le (h : Extends states later) : states.size ≤ later.size := by
  by_contra hlt
  have hget : states[later.size]? = some _ := Array.getElem?_eq_getElem (by omega)
  obtain ⟨t, ht, -⟩ := h _ _ hget
  simp at ht

/-- Where no state is left the queue is empty. -/
theorem drains_of_none (hlater : nfa.expandFrom limit current states = .ok later)
    (hcurrent : states[current]? = none) : states.size ≤ later.size ∧
      Worklist.Drains nfa ⟨List.range' current (states.size - current), states⟩
        (List.range' current (later.size - current)) later := by
  have hstates : nfa.expandFrom limit current states = .ok states := by
    cases limit <;> rw [expandFrom, hcurrent]
  obtain rfl : states = later := Except.ok.inj (hstates.symm.trans hlater)
  rw [Nat.sub_eq_zero_of_le (Array.getElem?_eq_none_iff.mp hcurrent)]
  exact ⟨Nat.le_refl _, .done rfl⟩

/-- While states are expanded in the order of their numbers, the queue holds those that are left. -/
theorem Progress.drains (h : nfa.Progress current states) (hw : nfa.WellFormed)
    (hlater : nfa.expandFrom limit current states = .ok later) (hle : current ≤ states.size) :
    states.size ≤ later.size ∧
      Worklist.Drains nfa ⟨List.range' current (states.size - current), states⟩
        (List.range' current (later.size - current)) later := by
  induction limit generalizing current states with
  | zero =>
    cases hcurrent : states[current]? with
    | none => exact drains_of_none hlater hcurrent
    | some state => simp [expandFrom, hcurrent] at hlater
  | succ limit ih =>
    cases hcurrent : states[current]? with
    | none => exact drains_of_none hlater hcurrent
    | some state =>
      obtain ⟨symbols, state', mid, hsymbols, hexpand, hnext, hext⟩ := h.step hw hcurrent
      have hlt := (Array.getElem?_eq_some_iff.mp hcurrent).1
      have hgrown := hext.size_le
      rw [Array.size_setIfInBounds] at hgrown
      have hrest : nfa.expandFrom limit (current + 1) (mid.setIfInBounds current state') = .ok later := by
        rw [expandFrom, hcurrent] at hlater
        simpa [hsymbols, hexpand, bind, Except.bind] using hlater
      obtain ⟨hsize, hdrains⟩ := ih hnext hrest (by rw [Array.size_setIfInBounds]; omega)
      rw [Array.size_setIfInBounds] at hsize hdrains
      -- The rest of the old queue and what was found make up the new one.
      have hqueue : List.range' (current + 1) (states.size - (current + 1)) ++
          List.range' states.size (mid.size - states.size) =
            List.range' (current + 1) (mid.size - (current + 1)) := by
        have hstart : states.size = current + 1 + (states.size - (current + 1)) := by omega
        nth_rewrite 2 [hstart]
        rw [List.range'_append_1]
        congr 1
        omega
      have hfirst : ∀ n, current < n → List.range' current (n - current) =
          current :: List.range' (current + 1) (n - (current + 1)) := by
        intro n hn
        rw [show n - current = n - (current + 1) + 1 by omega, List.range'_succ]
      refine ⟨by omega, ?_⟩
      rw [hfirst _ hlt, hfirst _ (by omega)]
      refine .turn ?_ (hqueue ▸ hdrains)
      simp [Worklist.turn, hcurrent, hsymbols, hexpand, bind, Except.bind, pure, Except.pure]

/-- A closure ends, and visits each node at most once. -/
theorem exists_closure_log (hw : nfa.WellFormed) (h : ∀ p ∈ seeds, p < nfa.size) :
    ∃ log final, Traversal nfa.slot nfa.visit (noMarks nfa.size) seeds log final ∧
      nfa.closure seeds = .ok (log.map Prod.snd).mergeSort ∧ (log.map Prod.fst).Nodup ∧
        log.length ≤ nfa.size := by
  obtain ⟨log, final, ht⟩ := exists_traversal_of_seeds hw h
  refine ⟨log, final, ht, closure_eq ht, nodup_log ht, ?_⟩
  have hsub : log.map Prod.fst ⊆ List.range nfa.size := by
    intro p hp
    obtain ⟨x, hx, rfl⟩ := List.mem_map.mp hp
    exact List.mem_range.mpr (spells_of_mem_log ht x hx).2.1
  simpa using ((nodup_log ht).subperm hsub).length_le

end Nfa

/-- The subset construction ends on the automaton of a pattern. Its worklist starts with the state of
the entry and runs dry when every state was taken off and expanded once, and there are fewer states than
sets of nodes. Every closure ends after it has visited each node at most once. -/
theorem Pattern.drains_toDfa {pattern : Pattern} {nfa : Nfa} (h : pattern.toNfa = .ok nfa) :
    (∃ members start dfa, nfa.closure [nfa.entry] = .ok members ∧ nfa.stateOf 0 members = .ok start ∧
      nfa.toDfa = .ok dfa ∧ dfa.size ≤ 2 ^ nfa.size - 1 ∧
        Nfa.Worklist.Drains nfa ⟨[0], #[start]⟩ (List.range dfa.size) dfa.states) ∧
      ∀ seeds, (∀ p ∈ seeds, p < nfa.size) →
        ∃ log final, Traversal nfa.slot nfa.visit (noMarks nfa.size) seeds log final ∧
          nfa.closure seeds = .ok (log.map Prod.snd).mergeSort ∧ (log.map Prod.fst).Nodup ∧
            log.length ≤ nfa.size := by
  have hw := wellFormed_toNfa h
  refine ⟨?_, fun seeds hseeds => Nfa.exists_closure_log hw hseeds⟩
  obtain ⟨members, start, hmembers, hstart, hprogress, -⟩ := Nfa.exists_start hw
  obtain ⟨later, hlater, hsubsets, -, -⟩ := hprogress.exists_expandFrom hw (Nat.zero_add _).ge
  obtain ⟨-, hdrains⟩ := hprogress.drains hw hlater (Nat.zero_le _)
  refine ⟨members, start, ⟨later, 0⟩, hmembers, hstart, Nfa.toDfa_eq_ok hw hmembers hstart hlater,
    Nat.le_sub_one_of_lt hsubsets.size_lt, ?_⟩
  rw [List.range_eq_range']
  exact hdrains

set_option maxRecDepth 4000 in
/-- A repetition of a repetition has a cycle of nodes that read nothing. Two states are found and
expanded. -/
theorem Pattern.drains_toDfa_cycle : ∃ pattern nfa start dfa,
    pattern = Pattern.repeated .star (.repeated .star (.literal 'a')) ∧ pattern.toNfa = .ok nfa ∧
      nfa.toDfa = .ok dfa ∧ Nfa.Worklist.Drains nfa ⟨[0], #[start]⟩ [0, 1] dfa.states ∧
        (∀ p ∈ [nfa.entry], p < nfa.size) ∧
          ∃ log final, Traversal nfa.slot nfa.visit (noMarks nfa.size) [nfa.entry] log final ∧
            log.length ≤ nfa.size := by
  have hrun : (Pattern.toNfa (.repeated .star (.repeated .star (.literal 'a')))).map
      (fun nfa => (decide (nfa.entry < nfa.size), nfa.toDfa.map Dfa.size)) = .ok (true, .ok 2) := by
    cbv
  obtain ⟨nfa, hnfa, hok⟩ := exists_of_map_eq_ok hrun
  obtain ⟨hentry, hsize⟩ := Prod.mk.inj hok
  obtain ⟨⟨members, start, dfa, -, -, hdfa, -, hdrains⟩, hclosure⟩ := Pattern.drains_toDfa hnfa
  rw [hdfa] at hsize
  rw [show dfa.size = 2 from Except.ok.inj hsize] at hdrains
  have hseeds : ∀ p ∈ [nfa.entry], p < nfa.size := by simpa using hentry
  obtain ⟨log, final, ht, -, -, hle⟩ := hclosure _ hseeds
  exact ⟨_, nfa, start, dfa, rfl, hnfa, hdfa, hdrains, hseeds, log, final, ht, hle⟩

end PatternAutomata
