import PatternAutomata.Proofs.Alphabet

/-!
# The states of the subset construction

A state stands for the nodes that some word leads to. While the states are gone through, no two of them
have the same members, so there are never more of them than sets of nodes and the bound on their number
is not met. A state that was gone through has its transitions on the symbols of its members, where one
character speaks for all characters of a symbol. When no state is left, a word leads the deterministic
automaton exactly to the state whose members are the nodes that the word leads to.
-/

namespace PatternAutomata

open PatternAutomata.Graph CharRange

/-- The nodes that a word and a character lead to are those that the character leads to from where the
word leads. -/
theorem Graph.spells_concat_iff {G : Graph} {p q : Nat} {w : List Char} {c : Char} :
    G.Spells p (w ++ [c]) q ↔ ∃ r r', G.Spells p w r ∧ G r (some c) r' ∧ G.Spells r' [] q := by
  constructor
  · exact Spells.exists_read
  · rintro ⟨r, r', hw, hs, hq⟩
    exact hw.trans (.step hs hq)

namespace Nfa

variable {nfa : Nfa} {members seeds : List Nat} {c : Char} {id limit current : Nat} {p q : Nat}

/-- Where the members of a set lead on a character: to what they step to, and to what follows that
without reading. -/
def Leads (nfa : Nfa) (members : List Nat) (c : Char) (q : Nat) : Prop :=
  ∃ p ∈ members, ∃ r, nfa.graph p (some c) r ∧ nfa.graph.Spells r [] q

theorem exists_move (h : ∀ p ∈ members, p < nfa.size) (c : Char) :
    ∃ moved, nfa.move members c = .ok moved ∧
      ∀ q, q ∈ moved ↔ ∃ p ∈ members, nfa.graph p (some c) q := by
  obtain ⟨nodes, hnodes, hmem⟩ := exists_mapM_node h
  refine ⟨nodes.flatMap (·.step c), by rw [move, hnodes]; rfl, fun q => ?_⟩
  simp only [List.mem_flatMap, hmem]
  constructor
  · rintro ⟨node, ⟨p, hp, hnode⟩, hq⟩
    exact ⟨p, hp, node, hnode, hq⟩
  · rintro ⟨p, hp, node, hnode, hq⟩
    exact ⟨node, ⟨p, hp, hnode⟩, hq⟩

theorem slot_eq_ok_iff {i : Fin nfa.size} : nfa.slot p = .ok i ↔ i.val = p := by
  simp only [slot]
  split
  · rw [Except.ok.injEq, Fin.ext_iff, eq_comm]
  · rename_i h
    simp only [reduceCtorEq, false_iff]
    rintro rfl
    exact h i.isLt

theorem visit_node_iff {next : List Nat} :
    nfa.visit p = .ok (id, next) ↔
      id = p ∧ ∃ node, nfa.nodes[p]? = some node ∧ next = node.epsilons := by
  rw [visit]
  constructor
  · intro h
    obtain ⟨node, hnode, heq⟩ := exists_of_map_eq_ok h
    cases heq
    exact ⟨rfl, node, node_eq_ok_iff.mp hnode, rfl⟩
  · rintro ⟨rfl, node, hnode, rfl⟩
    rw [node_eq_ok_iff.mpr hnode]
    rfl

section Closure

variable {log : List (Nat × Nat)} {final : Vector Bool nfa.size}

theorem exists_traversal_of_seeds (hw : nfa.WellFormed) (h : ∀ p ∈ seeds, p < nfa.size) :
    ∃ log final, Traversal nfa.slot nfa.visit (noMarks nfa.size) seeds log final := by
  refine Traversal.exists nfa.slot nfa.visit (· < nfa.size)
    (fun p hp => ⟨⟨p, hp⟩, slot_eq_ok_iff.mpr rfl⟩) (fun p hp => ?_) h (noMarks nfa.size)
  have hnode : nfa.nodes[p]? = some nfa.nodes[p] := Array.getElem?_eq_getElem hp
  exact ⟨p, _, visit_node_iff.mpr ⟨rfl, _, hnode, rfl⟩, fun q hq => hw.step_lt p none q ⟨_, hnode, hq⟩⟩

/-- Every visited node follows some of the first ones without reading. -/
theorem spells_of_mem_log (ht : Traversal nfa.slot nfa.visit (noMarks nfa.size) seeds log final) :
    ∀ x ∈ log, x.2 = x.1 ∧ x.1 < nfa.size ∧ ∃ p ∈ seeds, nfa.graph.Spells p [] x.1 := by
  intro x hx
  obtain ⟨next, hv, -⟩ := ht.next_marked x hx
  obtain ⟨i, hi, -⟩ := ht.slot_free x hx
  refine ⟨(visit_node_iff.mp hv).1, slot_eq_ok_iff.mp hi ▸ i.isLt, ?_⟩
  refine ht.forall_log (fun q => ∃ p ∈ seeds, nfa.graph.Spells p [] q) ?_
    (fun p hp => ⟨p, hp, .refl p⟩) x hx
  rintro p id next ⟨seed, hseed, hp⟩ hv q hq
  obtain ⟨-, node, hnode, rfl⟩ := visit_node_iff.mp hv
  exact ⟨seed, hseed, hp.trans (.silent ⟨node, hnode, hq⟩)⟩

theorem mem_log_of_marked (ht : Traversal nfa.slot nfa.visit (noMarks nfa.size) seeds log final)
    (hm : ∃ i, nfa.slot q = .ok i ∧ final.get i = true) : ∃ x ∈ log, x.1 = q := by
  obtain ⟨i, hi, hmark⟩ := hm
  obtain ⟨x, hx, hxi⟩ := ht.mem_of_marked hmark
  exact ⟨x, hx, (slot_eq_ok_iff.mp hxi).symm.trans (slot_eq_ok_iff.mp hi)⟩

/-- Whatever follows a visited node without reading is visited. -/
theorem mem_log_of_spells (ht : Traversal nfa.slot nfa.visit (noMarks nfa.size) seeds log final)
    (hs : nfa.graph.Spells p [] q) (hp : ∃ x ∈ log, x.1 = p) : ∃ x ∈ log, x.1 = q := by
  generalize hword : [] = w at hs
  induction hs with
  | refl p => exact hp
  | @step p r q o w hs _ ih =>
    obtain ⟨ho, rfl⟩ := List.append_eq_nil_iff.mp hword.symm
    obtain rfl := Option.toList_eq_nil_iff.mp ho
    obtain ⟨x, hx, rfl⟩ := hp
    obtain ⟨node, hnode, hr⟩ := hs
    obtain ⟨next, hv, hnext⟩ := ht.next_marked x hx
    obtain ⟨-, node', hnode', rfl⟩ := visit_node_iff.mp hv
    rw [hnode] at hnode'
    cases hnode'
    exact ih (mem_log_of_marked ht (hnext r hr)) rfl

theorem closure_eq (ht : Traversal nfa.slot nfa.visit (noMarks nfa.size) seeds log final) :
    nfa.closure seeds = .ok (log.map Prod.snd).mergeSort := by
  rw [closure, ht.explore_eq]
  rfl

/-- No node is visited twice. -/
theorem nodup_log (ht : Traversal nfa.slot nfa.visit (noMarks nfa.size) seeds log final) :
    (log.map Prod.fst).Nodup :=
  List.pairwise_map.mpr (ht.pairwise_slot_ne.imp fun hne heq => hne (congrArg nfa.slot heq))

/-- The closure of some nodes holds what they lead to without reading, in ascending order. -/
theorem exists_closure_of_seeds (hw : nfa.WellFormed) (h : ∀ p ∈ seeds, p < nfa.size) :
    ∃ ids, nfa.closure seeds = .ok ids ∧ ids.Pairwise (· < ·) ∧ (∀ q ∈ ids, q < nfa.size) ∧
      ∀ q, q ∈ ids ↔ ∃ p ∈ seeds, nfa.graph.Spells p [] q := by
  obtain ⟨log, final, ht⟩ := exists_traversal_of_seeds hw h
  have hlog := spells_of_mem_log ht
  have hids : log.map Prod.snd = log.map Prod.fst :=
    List.map_congr_left fun x hx => (hlog x hx).1
  refine ⟨_, hids ▸ closure_eq ht, ?_, fun q hq => ?_, fun q => ?_⟩
  · have hsorted : ((log.map Prod.fst).mergeSort).Pairwise fun p q => p ≤ q :=
      pairwise_mergeSort_of_iff id (fun _ _ => decide_eq_true_iff) _
    have hne := (List.mergeSort_perm (log.map Prod.fst) (· ≤ ·)).nodup_iff.mpr (nodup_log ht)
    exact (hsorted.and hne).imp fun h => Nat.lt_of_le_of_ne h.1 h.2
  · obtain ⟨x, hx, rfl⟩ := List.mem_map.mp (List.mem_mergeSort.mp hq)
    exact (hlog x hx).2.1
  · rw [List.mem_mergeSort, List.mem_map]
    constructor
    · rintro ⟨x, hx, rfl⟩
      exact (hlog x hx).2.2
    · rintro ⟨p, hp, hs⟩
      exact mem_log_of_spells ht hs (mem_log_of_marked ht (ht.stack_marked p hp))

end Closure

/-- The nodes are those that some word leads to. -/
def Reached (nfa : Nfa) (members : List Nat) : Prop :=
  ∃ w, ∀ q, q ∈ members ↔ nfa.graph.Spells nfa.entry w q

/-- A state stands for the nodes that some word leads to, and there are such nodes. -/
structure Sound (nfa : Nfa) (state : DfaState) : Prop where
  members_lt : ∀ p ∈ state.members, p < nfa.size
  ascending : state.members.Pairwise (· < ·)
  ne_nil : state.members ≠ []
  reached : nfa.Reached state.members
  isFinal_iff : state.isFinal = true ↔
    ∃ p ∈ state.members, ∃ node, nfa.nodes[p]? = some node ∧ node.isFinal = true

/-- Each state is numbered by its place, and stands for a set of nodes that no other one stands for. -/
structure Subsets (nfa : Nfa) (states : Array DfaState) : Prop where
  id_eq : ∀ (i : Nat) (state : DfaState), states[i]? = some state → state.id = i
  sound : ∀ (i : Nat) (state : DfaState), states[i]? = some state → nfa.Sound state
  distinct : ∀ (i j : Nat) (s t : DfaState), states[i]? = some s → states[j]? = some t →
    s.members = t.members → i = j

/-- The transitions of a state ascend, go where its members lead, and hold the characters on which a
member steps. -/
structure Expanded (nfa : Nfa) (states : Array DfaState) (state : DfaState) : Prop where
  ascending : state.transitions.Pairwise fun t u => index t.1.hi < index u.1.lo
  leads : ∀ t ∈ state.transitions, ∃ s, states[t.2]? = some s ∧
    ∀ c ∈ t.1, ∀ q, q ∈ s.members ↔ nfa.Leads state.members c q
  covers : ∀ c, (∃ t ∈ state.transitions, c ∈ t.1) ↔ ∃ p ∈ state.members, ∃ q, nfa.graph p (some c) q

/-- The states before are states still, and the states after them have no transitions yet. -/
structure Grows (states later : Array DfaState) : Prop where
  keeps : ∀ (i : Nat) (s : DfaState), states[i]? = some s → later[i]? = some s
  fresh : ∀ (i : Nat) (s : DfaState), states.size ≤ i → later[i]? = some s → s.transitions = []

/-- The states before have their members still. -/
def Extends (states later : Array DfaState) : Prop :=
  ∀ (i : Nat) (s : DfaState), states[i]? = some s → ∃ t, later[i]? = some t ∧ t.members = s.members

variable {states mid later : Array DfaState} {state : DfaState} {symbols : List CharRange}

theorem Grows.refl (states : Array DfaState) : Grows states states := by
  refine ⟨fun i s h => h, fun i s hi hs => ?_⟩
  rw [Array.getElem?_eq_none_iff.mpr hi] at hs
  cases hs

theorem Grows.trans (h : Grows states mid) (h' : Grows mid later) : Grows states later := by
  refine ⟨fun i s hs => h'.keeps i s (h.keeps i s hs), fun i s hi hs => ?_⟩
  by_cases hmid : i < mid.size
  · have hkept := h'.keeps i _ (Array.getElem?_eq_getElem hmid)
    rw [hs] at hkept
    cases hkept
    exact h.fresh i _ hi (Array.getElem?_eq_getElem hmid)
  · exact h'.fresh i s (by omega) hs

theorem Grows.extends (h : Grows states later) : Extends states later :=
  fun i s hs => ⟨s, h.keeps i s hs, rfl⟩

theorem Extends.trans (h : Extends states mid) (h' : Extends mid later) : Extends states later := by
  intro i s hs
  obtain ⟨t, ht, hts⟩ := h i s hs
  obtain ⟨u, hu, hut⟩ := h' i t ht
  exact ⟨u, hu, hut.trans hts⟩

theorem Expanded.mono (h : nfa.Expanded states state) (he : Extends states later) :
    nfa.Expanded later state := by
  refine ⟨h.ascending, fun t ht => ?_, h.covers⟩
  obtain ⟨s, hs, hmem⟩ := h.leads t ht
  obtain ⟨u, hu, heq⟩ := he t.2 s hs
  exact ⟨u, hu, heq ▸ hmem⟩

/-- The state after a character is the one for the nodes that the character leads to. -/
theorem Expanded.leads_of_next? (h : nfa.Expanded states state) {j : Nat}
    (hj : state.next? c = some j) :
    ∃ t, states[j]? = some t ∧ ∀ q, q ∈ t.members ↔ nfa.Leads state.members c q := by
  obtain ⟨t, ht, rfl⟩ := Option.map_eq_some_iff.mp hj
  have hfound := List.find?_some ht
  have hmem : c ∈ t.1 := of_decide_eq_true hfound
  obtain ⟨s, hs, hiff⟩ := h.leads t (List.mem_of_find?_eq_some ht)
  exact ⟨s, hs, hiff c hmem⟩

theorem Expanded.stuck_of_next? (h : nfa.Expanded states state) (hc : state.next? c = none) :
    ∀ q, ¬nfa.Leads state.members c q := by
  rintro q ⟨p, hp, r, hr, -⟩
  obtain ⟨t, ht, hmem⟩ := (h.covers c).mpr ⟨p, hp, r, hr⟩
  exact List.find?_eq_none.mp (Option.map_eq_none_iff.mp hc) t ht (decide_eq_true hmem)

/-- There are no more states than sets of nodes that are not empty. -/
theorem Subsets.size_lt (h : nfa.Subsets states) : states.size < 2 ^ nfa.size := by
  have hget : ∀ (i : Nat) (hi : i < states.size), states[i]? = some states[i] :=
    fun i hi => Array.getElem?_eq_getElem hi
  have hinj : ∀ i ∈ Finset.range states.size, ∀ j ∈ Finset.range states.size,
      (states[i]?.elim ∅ fun s => s.members.toFinset) = (states[j]?.elim ∅ fun s => s.members.toFinset) →
        i = j := by
    intro i hi j hj heq
    have hsi := hget i (Finset.mem_range.mp hi)
    have hsj := hget j (Finset.mem_range.mp hj)
    rw [hsi, hsj] at heq
    refine h.distinct i j _ _ hsi hsj ?_
    refine (h.sound i _ hsi).ascending.eq_of_mem_iff (h.sound j _ hsj).ascending fun p => ?_
    rw [← List.mem_toFinset, ← List.mem_toFinset]
    exact Finset.ext_iff.mp heq p
  have hsub : ∀ i ∈ Finset.range states.size,
      (states[i]?.elim ∅ fun s => s.members.toFinset) ∈ (Finset.range nfa.size).powerset.erase ∅ := by
    intro i hi
    have hsi := hget i (Finset.mem_range.mp hi)
    rw [hsi, Finset.mem_erase, Finset.mem_powerset]
    refine ⟨fun hempty => ?_, fun p hp => ?_⟩
    · exact (h.sound i _ hsi).ne_nil (List.toFinset_eq_empty_iff _ |>.mp hempty)
    · exact Finset.mem_range.mpr ((h.sound i _ hsi).members_lt p (List.mem_toFinset.mp hp))
  have hcard := Finset.card_le_card_of_injOn _ hsub hinj
  rw [Finset.card_range, Finset.card_erase_of_mem (Finset.empty_mem_powerset _), Finset.card_powerset,
    Finset.card_range] at hcard
  have := Nat.two_pow_pos nfa.size
  omega

/-- The state for a set of nodes. -/
theorem exists_stateOf (id : Nat) (hlt : ∀ p ∈ members, p < nfa.size)
    (hasc : members.Pairwise (· < ·)) (hne : members ≠ []) (hreached : nfa.Reached members) :
    ∃ state, nfa.stateOf id members = .ok state ∧ nfa.Sound state ∧ state.id = id ∧
      state.members = members ∧ state.transitions = [] := by
  obtain ⟨nodes, hnodes, hmem⟩ := exists_mapM_node hlt
  refine ⟨⟨id, members, nodes.any (·.isFinal), []⟩, by rw [stateOf, hnodes]; rfl, ?_, rfl, rfl, rfl⟩
  refine ⟨hlt, hasc, hne, hreached, ?_⟩
  simp only [List.any_eq_true, hmem]
  constructor
  · rintro ⟨node, ⟨p, hp, hnode⟩, hf⟩
    exact ⟨p, hp, node, hnode, hf⟩
  · rintro ⟨p, hp, node, hnode, hf⟩
    exact ⟨node, ⟨p, hp, hnode⟩, hf⟩

/-- A state for a set of nodes that had none may be added. -/
theorem Subsets.push (h : nfa.Subsets states) (hsound : nfa.Sound state) (hid : state.id = states.size)
    (htrans : state.transitions = [])
    (hnew : ∀ (i : Nat) (s : DfaState), states[i]? = some s → s.members ≠ state.members) :
    nfa.Subsets (states.push state) ∧ Grows states (states.push state) := by
  have hlast : ∀ (i : Nat) (s : DfaState), (states.push state)[i]? = some s →
      i = states.size ∧ s = state ∨ states[i]? = some s := by
    intro i s hs
    rw [Array.getElem?_push] at hs
    split at hs
    · exact .inl ⟨‹_›, (Option.some.inj hs).symm⟩
    · exact .inr hs
  refine ⟨⟨fun i s hs => ?_, fun i s hs => ?_, fun i j s t hs ht heq => ?_⟩,
    ⟨fun i s hs => ?_, fun i s hi hs => ?_⟩⟩
  · rcases hlast i s hs with ⟨rfl, rfl⟩ | hs
    · exact hid
    · exact h.id_eq i s hs
  · rcases hlast i s hs with ⟨-, rfl⟩ | hs
    · exact hsound
    · exact h.sound i s hs
  · rcases hlast i s hs with ⟨hi, rfl⟩ | hs'
    · rcases hlast j t ht with ⟨hj, -⟩ | ht'
      · rw [hi, hj]
      · exact (hnew j t ht' heq.symm).elim
    · rcases hlast j t ht with ⟨-, rfl⟩ | ht'
      · exact (hnew i s hs' heq).elim
      · exact h.distinct i j s t hs' ht' heq
  · have hi : i ≠ states.size := by
      have := (Array.getElem?_eq_some_iff.mp hs).1
      omega
    rw [Array.getElem?_push, if_neg hi]
    exact hs
  · rcases hlast i s hs with ⟨-, rfl⟩ | hs
    · exact htrans
    · rw [Array.getElem?_eq_none_iff.mpr hi] at hs
      cases hs

/-- A set of nodes has a state, which is added if it was missing. -/
theorem Subsets.exists_findOrAdd (h : nfa.Subsets states) (hlt : ∀ p ∈ members, p < nfa.size)
    (hasc : members.Pairwise (· < ·)) (hne : members ≠ []) (hreached : nfa.Reached members) :
    ∃ id later, nfa.findOrAdd states members = .ok (id, later) ∧ nfa.Subsets later ∧
      Grows states later ∧ ∃ t, later[id]? = some t ∧ t.members = members := by
  rw [findOrAdd]
  split
  · rename_i id hid
    obtain ⟨hi, heq, -⟩ := Array.findIdx?_eq_some_iff_getElem.mp hid
    exact ⟨id, states, rfl, h, .refl states, _, Array.getElem?_eq_getElem hi, of_decide_eq_true heq⟩
  · rename_i hnone
    obtain ⟨state, hstate, hsound, hid, rfl, htrans⟩ := exists_stateOf states.size hlt hasc hne hreached
    have hnew : ∀ (i : Nat) (s : DfaState), states[i]? = some s → s.members ≠ state.members :=
      fun i s hs => of_decide_eq_false
        (Array.findIdx?_eq_none_iff.mp hnone s (Array.mem_of_getElem? hs))
    obtain ⟨hpush, hgrows⟩ := h.push hsound hid htrans hnew
    exact ⟨states.size, states.push state, by rw [hstate]; rfl, hpush, hgrows, state,
      Array.getElem?_push_size, rfl⟩

/-- The nodes that some nodes lead to on a character are found by a move and its closure. Nothing is
moved to exactly if there are none. -/
theorem exists_leads (hw : nfa.WellFormed) (hlt : ∀ p ∈ members, p < nfa.size) (c : Char) :
    ∃ moved, nfa.move members c = .ok moved ∧ (moved = [] → ∀ q, ¬nfa.Leads members c q) ∧
      ∃ ids, nfa.closure moved = .ok ids ∧ ids.Pairwise (· < ·) ∧ (∀ q ∈ ids, q < nfa.size) ∧
        (moved ≠ [] → ids ≠ []) ∧ ∀ q, q ∈ ids ↔ nfa.Leads members c q := by
  obtain ⟨moved, hmoved, hmem⟩ := exists_move hlt c
  have hmovedlt : ∀ q ∈ moved, q < nfa.size := by
    intro q hq
    obtain ⟨p, -, hs⟩ := (hmem q).mp hq
    exact hw.step_lt p _ q hs
  obtain ⟨ids, hids, hasc, hidslt, hiff⟩ := exists_closure_of_seeds hw hmovedlt
  have hleads : ∀ q, nfa.Leads members c q ↔ ∃ r ∈ moved, nfa.graph.Spells r [] q := by
    intro q
    simp only [Leads, hmem]
    constructor
    · rintro ⟨p, hp, r, hr, hq⟩
      exact ⟨r, ⟨p, hp, hr⟩, hq⟩
    · rintro ⟨r, ⟨p, hp, hr⟩, hq⟩
      exact ⟨p, hp, r, hr, hq⟩
  refine ⟨moved, hmoved, fun hnil q hq => ?_, ids, hids, hasc, hidslt, fun hne => ?_, fun q => ?_⟩
  · obtain ⟨r, hr, -⟩ := (hleads q).mp hq
    rw [hnil] at hr
    cases hr
  · obtain ⟨q, hq⟩ := List.exists_mem_of_ne_nil moved hne
    exact List.ne_nil_of_mem ((hiff q).mpr ⟨q, hq, .refl q⟩)
  · rw [hleads]
    exact hiff q

/-- Where a word leads and a character leads on from there is where the word with the character leads. -/
theorem leads_iff_spells {w : List Char} (h : ∀ q, q ∈ members ↔ nfa.graph.Spells nfa.entry w q) :
    nfa.Leads members c q ↔ nfa.graph.Spells nfa.entry (w ++ [c]) q := by
  simp only [spells_concat_iff, Leads, h]
  constructor
  · rintro ⟨p, hp, r, hs, hq⟩
    exact ⟨p, r, hp, hs, hq⟩
  · rintro ⟨p, r, hp, hs, hq⟩
    exact ⟨p, hp, r, hs, hq⟩

theorem Reached.of_leads {ids : List Nat} (h : nfa.Reached members)
    (hiff : ∀ q, q ∈ ids ↔ nfa.Leads members c q) : nfa.Reached ids := by
  obtain ⟨w, hw⟩ := h
  exact ⟨w ++ [c], fun q => (hiff q).trans (leads_iff_spells hw)⟩

theorem addTransition_eq_ok {symbol : CharRange}
    (h : ∀ t ∈ state.transitions, index t.1.hi < index symbol.lo) : state.addTransition symbol id =
      .ok { state with transitions := state.transitions ++ [(symbol, id)] } := by
  have hfree : state.transitions.any (fun t => t.1.overlaps symbol) = false := by
    rw [List.any_eq_false]
    intro t ht hover
    simp only [overlaps, Bool.and_eq_true, decide_eq_true_eq, le_iff_index_le] at hover
    have := h t ht
    omega
  rw [DfaState.addTransition, hfree]
  rfl

/-- Expanding a state on ascending symbols adds a transition for each symbol on which a member steps. -/
theorem Subsets.exists_expand (hw : nfa.WellFormed) (h : nfa.Subsets states)
    (hlt : ∀ p ∈ state.members, p < nfa.size) (hreached : nfa.Reached state.members)
    (hasc : symbols.Pairwise fun r s => index r.hi < index s.lo)
    (hfree : ∀ t ∈ state.transitions, ∀ r ∈ symbols, index t.1.hi < index r.lo) :
    ∃ added later, nfa.expand state states symbols =
        .ok ({ state with transitions := state.transitions ++ added }, later) ∧
      nfa.Subsets later ∧ Grows states later ∧ (added.map (·.1)).Sublist symbols ∧
      (∀ t ∈ added, ∃ s, later[t.2]? = some s ∧
        ∀ q, q ∈ s.members ↔ nfa.Leads state.members t.1.lo q) ∧
      ∀ symbol ∈ symbols, ∀ q, nfa.Leads state.members symbol.lo q → ∃ j, (symbol, j) ∈ added := by
  induction symbols generalizing state states with
  | nil => exact ⟨[], states, by simp [expand], h, .refl states, .slnil, by simp, by simp⟩
  | cons symbol symbols ih =>
    obtain ⟨hfirst, hasc⟩ := List.pairwise_cons.mp hasc
    obtain ⟨moved, hmoved, hstuck, ids, hids, hidsasc, hidslt, hne, hiff⟩ :=
      exists_leads hw hlt symbol.lo
    by_cases hempty : moved = []
    · obtain ⟨added, later, hexpand, hs, hg, hsub, hadded, hall⟩ := ih h hlt hreached hasc
        fun t ht r hr => hfree t ht r (List.mem_cons_of_mem symbol hr)
      refine ⟨added, later, ?_, hs, hg, hsub.cons symbol, hadded, fun s hs q hq => ?_⟩
      · simpa [expand, hmoved, hempty, bind, Except.bind] using hexpand
      · rcases List.mem_cons.mp hs with rfl | hs
        · exact (hstuck hempty q hq).elim
        · exact hall s hs q hq
    · obtain ⟨id, mid, hfind, hmid, hgrows, t, ht, htmem⟩ :=
        h.exists_findOrAdd hidslt hidsasc (hne hempty) (hreached.of_leads hiff)
      have hadd := @addTransition_eq_ok id state symbol fun t ht => hfree t ht symbol List.mem_cons_self
      have hfree' : ∀ t ∈ { state with transitions := state.transitions ++ [(symbol, id)] }.transitions,
          ∀ r ∈ symbols, index t.1.hi < index r.lo := by
        intro t ht r hr
        rcases List.mem_append.mp ht with ht | ht
        · exact hfree t ht r (List.mem_cons_of_mem symbol hr)
        · rw [List.mem_singleton.mp ht]
          exact hfirst r hr
      obtain ⟨added, later, hexpand, hs, hg, hsub, hadded, hall⟩ :=
        @ih _ { state with transitions := state.transitions ++ [(symbol, id)] } hmid hlt hreached hasc
          hfree'
      refine ⟨(symbol, id) :: added, later, ?_, hs, hgrows.trans hg, hsub.cons_cons symbol,
        fun u hu => ?_, fun s hs q hq => ?_⟩
      · simpa [expand, hmoved, hempty, hids, hfind, hadd, bind, Except.bind] using hexpand
      · rcases List.mem_cons.mp hu with rfl | hu
        · refine ⟨t, hg.keeps id t ht, fun q => ?_⟩
          rw [htmem]
          exact hiff q
        · exact hadded u hu
      · rcases List.mem_cons.mp hs with rfl | hs
        · exact ⟨id, List.mem_cons_self⟩
        · obtain ⟨j, hj⟩ := hall s hs q hq
          exact ⟨j, List.mem_cons_of_mem _ hj⟩

/-- A state without transitions, expanded on the symbols of its members, goes where they lead. -/
theorem Subsets.exists_expanded (hw : nfa.WellFormed) (h : nfa.Subsets states)
    (hsound : nfa.Sound state) (hnone : state.transitions = []) :
    ∃ symbols state' later, nfa.symbols state.members = .ok symbols ∧
      nfa.expand state states symbols = .ok (state', later) ∧ state'.id = state.id ∧
      state'.members = state.members ∧ state'.isFinal = state.isFinal ∧ nfa.Subsets later ∧
      Grows states later ∧ nfa.Expanded later state' := by
  obtain ⟨symbols, hsymbols, hasc, hcovers, huniform⟩ := exists_symbols hsound.members_lt
  obtain ⟨added, later, hexpand, hs, hg, hsub, hadded, hall⟩ :=
    h.exists_expand hw hsound.members_lt hsound.reached hasc (by simp [hnone])
  rw [hnone, List.nil_append] at hexpand
  have hsame : ∀ symbol ∈ symbols, ∀ c ∈ symbol, ∀ q,
      nfa.Leads state.members c q ↔ nfa.Leads state.members symbol.lo q := by
    intro symbol hsymbol c hc q
    refine exists_congr fun p => and_congr_right fun hp => exists_congr fun r => ?_
    rw [huniform symbol hsymbol c hc p hp r]
  have hleads : ∀ t ∈ added, ∃ s, later[t.2]? = some s ∧
      ∀ c ∈ t.1, ∀ q, q ∈ s.members ↔ nfa.Leads state.members c q := by
    intro t ht
    obtain ⟨s, hs, hiff⟩ := hadded t ht
    have hsymbol : t.1 ∈ symbols := hsub.subset (List.mem_map_of_mem ht)
    exact ⟨s, hs, fun c hc q => (hiff q).trans (hsame t.1 hsymbol c hc q).symm⟩
  refine ⟨symbols, _, later, hsymbols, hexpand, rfl, rfl, rfl, hs, hg,
    List.pairwise_map.mp (hasc.sublist hsub), hleads, fun c => ⟨?_, ?_⟩⟩
  · rintro ⟨t, ht, hc⟩
    obtain ⟨s, hslater, hiff⟩ := hleads t ht
    obtain ⟨q, hq⟩ := List.exists_mem_of_ne_nil s.members (hs.sound t.2 s hslater).ne_nil
    obtain ⟨p, hp, r, hr, -⟩ := (hiff c hc q).mp hq
    exact ⟨p, hp, r, hr⟩
  · rintro ⟨p, hp, r, hr⟩
    obtain ⟨symbol, hsymbol, hmem⟩ := hcovers c p r hp hr
    obtain ⟨j, hj⟩ := hall symbol hsymbol r ((hsame symbol hsymbol c hmem r).mp ⟨p, hp, r, hr, .refl r⟩)
    exact ⟨(symbol, j), hj, hmem⟩

/-- Replacing a state by one with the same members. -/
theorem Subsets.set {s state : DfaState} (h : nfa.Subsets states) (hs : states[current]? = some s)
    (hsound : nfa.Sound state) (hid : state.id = s.id) (hmembers : state.members = s.members) :
    nfa.Subsets (states.setIfInBounds current state) ∧
      Extends states (states.setIfInBounds current state) := by
  have hlt : current < states.size := (Array.getElem?_eq_some_iff.mp hs).1
  have hget : ∀ (i : Nat) (t : DfaState), (states.setIfInBounds current state)[i]? = some t →
      (t = state ∨ states[i]? = some t) ∧
        ∃ u, states[i]? = some u ∧ t.id = u.id ∧ t.members = u.members := by
    intro i t ht
    rw [Array.getElem?_setIfInBounds] at ht
    split at ht
    · rename_i hi
      subst hi
      cases ht
      exact ⟨.inl rfl, s, hs, hid, hmembers⟩
    · exact ⟨.inr ht, t, ht, rfl, rfl⟩
  refine ⟨⟨fun i t ht => ?_, fun i t ht => ?_, fun i j t u ht hu heq => ?_⟩, fun i t ht => ?_⟩
  · obtain ⟨u, hu, htu, -⟩ := (hget i t ht).2
    rw [htu]
    exact h.id_eq i u hu
  · rcases (hget i t ht).1 with rfl | ht
    · exact hsound
    · exact h.sound i t ht
  · obtain ⟨t', ht', -, htt⟩ := (hget i t ht).2
    obtain ⟨u', hu', -, huu⟩ := (hget j u hu).2
    exact h.distinct i j t' u' ht' hu' (by rw [← htt, ← huu, heq])
  · rw [Array.getElem?_setIfInBounds]
    split
    · rename_i hi
      subst hi
      rw [hs] at ht
      cases ht
      exact ⟨state, rfl, hmembers⟩
    · exact ⟨t, ht, rfl⟩

/-- The states before `current` are expanded, and those from there on have no transitions yet. -/
structure Progress (nfa : Nfa) (current : Nat) (states : Array DfaState) : Prop where
  subsets : nfa.Subsets states
  done : ∀ (i : Nat) (s : DfaState), states[i]? = some s → i < current → nfa.Expanded states s
  fresh : ∀ (i : Nat) (s : DfaState), states[i]? = some s → current ≤ i → s.transitions = []

/-- Where no state is left, all of them are expanded. -/
theorem Progress.expanded (h : nfa.Progress current states) (hnone : states[current]? = none) :
    ∀ (i : Nat) (s : DfaState), states[i]? = some s → nfa.Expanded states s := by
  intro i s hs
  have := (Array.getElem?_eq_some_iff.mp hs).1
  have := Array.getElem?_eq_none_iff.mp hnone
  exact h.done i s hs (by omega)

/-- Expanding the next state makes progress. -/
theorem Progress.step (h : nfa.Progress current states) (hw : nfa.WellFormed)
    (hcurrent : states[current]? = some state) :
    ∃ symbols state' mid, nfa.symbols state.members = .ok symbols ∧
      nfa.expand state states symbols = .ok (state', mid) ∧
      nfa.Progress (current + 1) (mid.setIfInBounds current state') ∧
      Extends states (mid.setIfInBounds current state') := by
  have hsound := h.subsets.sound current state hcurrent
  obtain ⟨symbols, state', mid, hsymbols, hexpand, hid, hmembers, hfinal, hmid, hgrows, hexpanded⟩ :=
    h.subsets.exists_expanded hw hsound (h.fresh current state hcurrent (Nat.le_refl _))
  have hsound' : nfa.Sound state' :=
    ⟨hmembers ▸ hsound.members_lt, hmembers ▸ hsound.ascending, hmembers ▸ hsound.ne_nil,
      hmembers ▸ hsound.reached, hfinal ▸ hmembers ▸ hsound.isFinal_iff⟩
  obtain ⟨hset, hext⟩ := hmid.set (hgrows.keeps current state hcurrent) hsound' hid hmembers
  have hget : ∀ (i : Nat) (s : DfaState), (mid.setIfInBounds current state')[i]? = some s →
      i = current ∧ s = state' ∨ i ≠ current ∧ mid[i]? = some s := by
    intro i s hs
    rw [Array.getElem?_setIfInBounds] at hs
    split at hs
    · rename_i hi
      split at hs
      · exact .inl ⟨hi.symm, (Option.some.inj hs).symm⟩
      · cases hs
    · rename_i hi
      exact .inr ⟨Ne.symm hi, hs⟩
  have hbefore : ∀ (i : Nat) (s : DfaState), mid[i]? = some s → i < states.size →
      states[i]? = some s := by
    intro i s hs hi
    have hget := Array.getElem?_eq_getElem hi
    rw [hgrows.keeps i _ hget] at hs
    rw [hget, hs]
  have hcurrentlt : current < states.size := (Array.getElem?_eq_some_iff.mp hcurrent).1
  refine ⟨symbols, state', mid, hsymbols, hexpand, ⟨hset, fun i s hs hi => ?_, fun i s hs hi => ?_⟩,
    hgrows.extends.trans hext⟩
  · rcases hget i s hs with ⟨-, rfl⟩ | ⟨hne, hs⟩
    · exact hexpanded.mono hext
    · exact (h.done i s (hbefore i s hs (by omega)) (by omega)).mono (hgrows.extends.trans hext)
  · rcases hget i s hs with ⟨rfl, -⟩ | ⟨hne, hs⟩
    · omega
    · by_cases hi' : i < states.size
      · exact h.fresh i s (hbefore i s hs hi') (by omega)
      · exact hgrows.fresh i s (by omega) hs

/-- Going through the states expands all of them. -/
theorem Progress.exists_expandFrom (h : nfa.Progress current states) (hw : nfa.WellFormed)
    (hlimit : 2 ^ nfa.size ≤ current + limit) :
    ∃ later, nfa.expandFrom limit current states = .ok later ∧ nfa.Subsets later ∧
      Extends states later ∧ ∀ (i : Nat) (s : DfaState), later[i]? = some s → nfa.Expanded later s := by
  induction limit generalizing current states with
  | zero =>
    have hnone : states[current]? = none := by
      have := h.subsets.size_lt
      exact Array.getElem?_eq_none_iff.mpr (by omega)
    exact ⟨states, by simp [expandFrom, hnone], h.subsets, (Grows.refl states).extends, h.expanded hnone⟩
  | succ limit ih =>
    cases hcurrent : states[current]? with
    | none =>
      exact ⟨states, by simp [expandFrom, hcurrent], h.subsets, (Grows.refl states).extends,
        h.expanded hcurrent⟩
    | some state =>
      obtain ⟨symbols, state', mid, hsymbols, hexpand, hnext, hext⟩ := h.step hw hcurrent
      obtain ⟨later, hlater, hs, hext', hall⟩ := ih hnext (by omega)
      refine ⟨later, ?_, hs, hext.trans hext', hall⟩
      rw [expandFrom, hcurrent]
      simpa [hsymbols, hexpand, bind, Except.bind] using hlater

/-- All states of a deterministic automaton are expanded, and the first one stands for the nodes that
follow the entry without reading. -/
structure Determinizes (nfa : Nfa) (dfa : Dfa) : Prop where
  subsets : nfa.Subsets dfa.states
  expanded : ∀ (i : Nat) (s : DfaState), dfa.states[i]? = some s → nfa.Expanded dfa.states s
  start_eq : dfa.start = 0
  start : ∃ s, dfa.states[dfa.start]? = some s ∧
    ∀ q, q ∈ s.members ↔ nfa.graph.Spells nfa.entry [] q

/-- The first state is ready to be expanded. -/
theorem exists_start (hw : nfa.WellFormed) :
    ∃ members start, nfa.closure [nfa.entry] = .ok members ∧ nfa.stateOf 0 members = .ok start ∧
      nfa.Progress 0 #[start] ∧ ∀ q, q ∈ start.members ↔ nfa.graph.Spells nfa.entry [] q := by
  have hentry : ∀ p ∈ [nfa.entry], p < nfa.size := by simpa using hw.entry_lt
  obtain ⟨members, hmembers, hasc, hlt, hiff⟩ := exists_closure_of_seeds hw hentry
  have hmem : ∀ q, q ∈ members ↔ nfa.graph.Spells nfa.entry [] q := by
    intro q
    rw [hiff]
    simp
  have hne : members ≠ [] := List.ne_nil_of_mem ((hmem nfa.entry).mpr (.refl _))
  obtain ⟨start, hstart, hsound, hid, rfl, hnone⟩ := exists_stateOf 0 hlt hasc hne ⟨[], hmem⟩
  have hget : ∀ (i : Nat) (s : DfaState), (#[start])[i]? = some s → i = 0 ∧ s = start := by
    intro i s hs
    cases i with
    | zero => exact ⟨rfl, by simpa using hs.symm⟩
    | succ i => simp at hs
  have hsubsets : nfa.Subsets #[start] := by
    refine ⟨fun i s hs => ?_, fun i s hs => ?_, fun i j s t hs ht _ => ?_⟩
    · rw [(hget i s hs).1, (hget i s hs).2, hid]
    · rw [(hget i s hs).2]
      exact hsound
    · rw [(hget i s hs).1, (hget j t ht).1]
  exact ⟨_, start, hmembers, hstart,
    ⟨hsubsets, fun i s _ hi => by omega, fun i s hs _ => by rw [(hget i s hs).2, hnone]⟩, hmem⟩

/-- The construction goes through the states from the first one on. -/
theorem toDfa_eq_ok (hw : nfa.WellFormed) {start : DfaState}
    (hmembers : nfa.closure [nfa.entry] = .ok members) (hstart : nfa.stateOf 0 members = .ok start)
    (hlater : nfa.expandFrom (2 ^ nfa.size) 0 #[start] = .ok later) : nfa.toDfa = .ok ⟨later, 0⟩ := by
  have hne : nfa.size ≠ 0 := by
    have := hw.entry_lt
    omega
  rw [toDfa, if_neg hne]
  simp [hmembers, hstart, hlater, bind, Except.bind, pure, Except.pure]

/-- The construction does not fail. -/
theorem exists_toDfa (hw : nfa.WellFormed) : ∃ dfa, nfa.toDfa = .ok dfa ∧ nfa.Determinizes dfa := by
  obtain ⟨members, start, hmembers, hstart, hprogress, hmem⟩ := exists_start hw
  obtain ⟨later, hlater, hs, hext, hall⟩ := hprogress.exists_expandFrom hw (Nat.zero_add _).ge
  obtain ⟨s, hs0, heq⟩ := hext 0 start (by simp)
  exact ⟨⟨later, 0⟩, toDfa_eq_ok hw hmembers hstart hlater, hs, hall, rfl, s, hs0,
    fun q => by rw [heq]; exact hmem q⟩

end Nfa

theorem Dfa.runFrom_concat (dfa : Dfa) (id : Nat) (w : List Char) (c : Char) :
    dfa.runFrom id (w ++ [c]) =
      (dfa.runFrom id w).bind fun s => (s.next? c).bind fun j => dfa.states[j]? := by
  induction w generalizing id with
  | nil =>
    simp only [List.nil_append, runFrom]
    cases dfa.states[id]? with
    | none => rfl
    | some s =>
      simp only [Option.bind_some]
      cases s.next? c <;> rfl
  | cons d w ih =>
    simp only [List.cons_append, runFrom]
    cases dfa.states[id]?.bind (·.next? d) with
    | none => rfl
    | some j => exact ih j

namespace Nfa

variable {nfa : Nfa} {dfa : Dfa} {w : List Char}

/-- A word leads to the state for the nodes it leads to, if there are any. -/
theorem Determinizes.run_spec (h : nfa.Determinizes dfa) (w : List Char) :
    (∀ s, dfa.run w = some s →
      s ∈ dfa.states ∧ ∀ q, q ∈ s.members ↔ nfa.graph.Spells nfa.entry w q) ∧
      (dfa.run w = none → ∀ q, ¬nfa.graph.Spells nfa.entry w q) := by
  induction w using List.reverseRecOn with
  | nil =>
    obtain ⟨s, hs, hmem⟩ := h.start
    refine ⟨fun t ht => ?_, fun hnone => ?_⟩
    · obtain rfl : s = t := Option.some.inj (hs.symm.trans ht)
      exact ⟨Array.mem_of_getElem? hs, hmem⟩
    · cases hs.symm.trans hnone
  | append_singleton w c ih =>
    obtain ⟨hsome, hnone⟩ := ih
    have hstep : dfa.run (w ++ [c]) =
        (dfa.run w).bind fun s => (s.next? c).bind fun j => dfa.states[j]? :=
      dfa.runFrom_concat dfa.start w c
    rw [hstep]
    cases hrun : dfa.run w with
    | none =>
      refine ⟨nofun, fun _ q hq => ?_⟩
      obtain ⟨p, r, hp, -, -⟩ := spells_concat_iff.mp hq
      exact hnone hrun p hp
    | some s =>
      obtain ⟨hs, hmem⟩ := hsome s hrun
      obtain ⟨i, hi⟩ := Array.mem_iff_getElem?.mp hs
      have hexp := h.expanded i s hi
      rw [Option.bind_some]
      cases hnext : s.next? c with
      | none =>
        refine ⟨nofun, fun _ q hq => ?_⟩
        exact hexp.stuck_of_next? hnext q ((leads_iff_spells hmem).mpr hq)
      | some j =>
        obtain ⟨t, ht, hiff⟩ := hexp.leads_of_next? hnext
        rw [Option.bind_some, ht]
        refine ⟨fun u hu => ?_, nofun⟩
        cases hu
        exact ⟨Array.mem_of_getElem? ht, fun q => (hiff q).trans (leads_iff_spells hmem)⟩

theorem Determinizes.sound (h : nfa.Determinizes dfa) : ∀ s ∈ dfa.states, nfa.Sound s := by
  intro s hs
  obtain ⟨i, hi⟩ := Array.mem_iff_getElem?.mp hs
  exact h.subsets.sound i s hi

/-- There is no state after a word that leads nowhere. -/
theorem Determinizes.run_eq_none_iff (h : nfa.Determinizes dfa) :
    dfa.run w = none ↔ ∀ p, ¬nfa.graph.Spells nfa.entry w p := by
  refine ⟨(h.run_spec w).2, fun hstuck => ?_⟩
  cases hw : dfa.run w with
  | none => rfl
  | some s =>
    obtain ⟨hs, hmem⟩ := (h.run_spec w).1 s hw
    obtain ⟨p, hp⟩ := List.exists_mem_of_ne_nil s.members (h.sound s hs).ne_nil
    exact (hstuck p ((hmem p).mp hp)).elim

/-- The state after a word is the one that stands for the nodes the word leads to. -/
theorem Determinizes.run_eq_some_iff (h : nfa.Determinizes dfa) {s : DfaState} :
    dfa.run w = some s ↔ s ∈ dfa.states ∧ ∀ p, p ∈ s.members ↔ nfa.graph.Spells nfa.entry w p := by
  refine ⟨(h.run_spec w).1 s, fun ⟨hs, hmem⟩ => ?_⟩
  cases hw : dfa.run w with
  | none =>
    obtain ⟨p, hp⟩ := List.exists_mem_of_ne_nil s.members (h.sound s hs).ne_nil
    exact (h.run_eq_none_iff.mp hw p ((hmem p).mp hp)).elim
  | some t =>
    obtain ⟨ht, hmem'⟩ := (h.run_spec w).1 t hw
    obtain ⟨i, hi⟩ := Array.mem_iff_getElem?.mp hs
    obtain ⟨j, hj⟩ := Array.mem_iff_getElem?.mp ht
    -- two states with the same members are the same state
    have hsame : t.members = s.members :=
      (h.sound t ht).ascending.eq_of_mem_iff (h.sound s hs).ascending
        fun p => (hmem' p).trans (hmem p).symm
    obtain rfl := h.subsets.distinct j i t s hj hi hsame
    exact hj.symm.trans hi

/-- A text is accepted if it leads to a final node. -/
theorem Determinizes.accepts_iff (h : nfa.Determinizes dfa) (text : String) :
    dfa.accepts text = true ↔ ∃ p node, nfa.nodes[p]? = some node ∧ node.isFinal = true ∧
      nfa.graph.Spells nfa.entry text.toList p := by
  cases hw : dfa.run text.toList with
  | none =>
    simp only [Dfa.accepts, hw, Option.any_none, Bool.false_eq_true, false_iff]
    rintro ⟨p, node, -, -, hp⟩
    exact h.run_eq_none_iff.mp hw p hp
  | some s =>
    obtain ⟨hs, hmem⟩ := h.run_eq_some_iff.mp hw
    rw [Dfa.accepts, hw, Option.any_some, (h.sound s hs).isFinal_iff]
    constructor
    · rintro ⟨p, hp, node, hnode, hf⟩
      exact ⟨p, node, hnode, hf, (hmem p).mp hp⟩
    · rintro ⟨p, node, hnode, hf, hp⟩
      exact ⟨p, (hmem p).mpr hp, node, hnode, hf⟩

end Nfa

/-- The automaton of a pattern can be made deterministic. A text is accepted exactly if it leads to a
final node, and any word leads to the one state that stands for the nodes the word leads to. Without
such nodes there is no state. -/
theorem Pattern.toDfa_run_iff {pattern : Pattern} {nfa : Nfa} (h : pattern.toNfa = .ok nfa) :
    ∃ dfa, nfa.toDfa = .ok dfa ∧
      (∀ text : String, dfa.accepts text = true ↔ ∃ p node, nfa.nodes[p]? = some node ∧
        node.isFinal = true ∧ nfa.graph.Spells nfa.entry text.toList p) ∧
      ∀ w, (∀ state, dfa.run w = some state ↔ state ∈ dfa.states ∧
          ∀ p, p ∈ state.members ↔ nfa.graph.Spells nfa.entry w p) ∧
        (dfa.run w = none ↔ ∀ p, ¬nfa.graph.Spells nfa.entry w p) := by
  obtain ⟨dfa, hdfa, hd⟩ := Nfa.exists_toDfa (Pattern.wellFormed_toNfa h)
  exact ⟨dfa, hdfa, hd.accepts_iff, fun w => ⟨fun state => hd.run_eq_some_iff, hd.run_eq_none_iff⟩⟩

set_option maxRecDepth 4000 in
/-- The two classes overlap, so each of them is cut where the other one starts or ends. -/
theorem Pattern.toDfa_run_overlapping : ∃ pattern nfa dfa,
    pattern = Pattern.concat (.repeated .star (.charClass ⟨[.range 'a' 'c'], false⟩))
      (.charClass ⟨[.range 'b' 'z'], false⟩) ∧
    pattern.toNfa = .ok nfa ∧ nfa.toDfa = .ok dfa ∧ dfa.accepts "ab" = true ∧
      (∃ p node, nfa.nodes[p]? = some node ∧ node.isFinal = true ∧
        nfa.graph.Spells nfa.entry ['a', 'b'] p) ∧
      dfa.run ['z', 'a'] = none ∧ ∀ p, ¬nfa.graph.Spells nfa.entry ['z', 'a'] p := by
  have hrun : (Pattern.toNfa (.concat (.repeated .star (.charClass ⟨[.range 'a' 'c'], false⟩))
      (.charClass ⟨[.range 'b' 'z'], false⟩))).map (fun nfa => nfa.toDfa.map fun dfa =>
        (dfa.accepts "ab", (dfa.run ['z', 'a']).isNone)) = .ok (.ok (true, true)) := by
    cbv
  obtain ⟨nfa, hnfa, hok⟩ := exists_of_map_eq_ok hrun
  obtain ⟨dfa, hdfa, haccepts, hstate⟩ := Pattern.toDfa_run_iff hnfa
  rw [hdfa] at hok
  obtain ⟨hab, hza⟩ := Prod.mk.inj (Except.ok.inj hok)
  have hnone := Option.isNone_iff_eq_none.mp hza
  exact ⟨_, nfa, dfa, rfl, hnfa, hdfa, hab, (haccepts "ab").mp hab, hnone, (hstate _).2.mp hnone⟩

end PatternAutomata
