import PatternAutomata.Proofs.Numbering

/-!
# Where paths part

In an automaton of a pattern a node that reads leads to one node only and does not go on without
reading, so paths part at epsilons alone. No epsilon is listed twice, and their order is that of the
tree: the left branch of a union comes before the right one, a round of a repetition before skipping
it, and another round before leaving.
-/

namespace PatternAutomata

open PatternAutomata.Graph

namespace Fragment

variable {f a b : Fragment} {base number p : Nat}

theorem epsilonTargets_link {labels : List Label} : (link base labels).epsilonTargets p =
    if p = base then (labels.filter (· = .epsilon)).map fun _ => base + 1 else [] := by
  split
  · rename_i h
    subst h
    simp [epsilonTargets, link, List.filter_map, Function.comp_def]
  · rename_i h
    simp [epsilonTargets, link, Ne.symm h]

theorem epsilonTargets_choice : (choice base a b).epsilonTargets p =
    (if p = base then [a.entry, b.entry] else []) ++ (if p = a.exit then [base + 1] else []) ++
      (if p = b.exit then [base + 1] else []) ++ a.epsilonTargets p ++ b.epsilonTargets p := by
  simp only [epsilonTargets, choice, List.filter_append, List.filter_cons, List.filter_nil,
    List.map_append, eq_comm (b := p)]
  split_ifs <;> simp_all

theorem epsilonTargets_sequence : (sequence a b).epsilonTargets p =
    (if p = a.exit then [b.entry] else []) ++ a.epsilonTargets p ++ b.epsilonTargets p := by
  simp only [epsilonTargets, sequence, List.filter_append, List.filter_cons, List.map_append,
    eq_comm (b := p)]
  split_ifs <;> simp_all

theorem epsilonTargets_rounds {kind : Repetition} : (rounds base kind a).epsilonTargets p =
    (if p = base then a.entry :: (if kind.maySkip then [base + 1] else []) else []) ++
      (if p = a.exit then (if kind.mayLoop then [a.entry] else []) ++ [base + 1] else []) ++
        a.epsilonTargets p := by
  simp only [epsilonTargets, rounds, List.filter_append, List.filter_cons, List.map_append,
    eq_comm (b := p)]
  split_ifs <;> simp_all

theorem epsilonTargets_marked : (marked base number a).epsilonTargets p =
    (if p = base then [base + 2] else []) ++ (if p = base + 2 then [a.entry] else []) ++
      (if p = a.exit then [base + 3] else []) ++ (if p = base + 3 then [base + 1] else []) ++
        a.epsilonTargets p := by
  simp only [epsilonTargets, marked, List.filter_append, List.filter_cons, List.filter_nil,
    List.map_append, eq_comm (b := p)]
  split_ifs <;> simp_all

/-- Without reading, a fragment leads on from its own nodes only, and not from its exit. -/
theorem epsilonTargets_eq_nil (h : f.Scoped base) (hp : p < base ∨ f.next ≤ p ∨ p = f.exit) :
    f.epsilonTargets p = [] := by
  rw [List.eq_nil_iff_forall_not_mem]
  intro q hq
  have := h.edge_mem _ (mem_epsilonTargets.mp hq)
  dsimp only at this
  omega

/-- Paths part at epsilons alone, and each of them leads elsewhere. -/
structure Forks (f : Fragment) : Prop where
  nodup : ∀ p, (f.epsilonTargets p).Nodup
  sole : ∀ p c q o q', f.graph p (some c) q → f.graph p o q' → o ≠ none ∧ q' = q

theorem forks_link_epsilon : (link base [.epsilon]).Forks := by
  refine ⟨fun p => ?_, fun p c q o q' hs _ => ?_⟩
  · rw [epsilonTargets_link]
    split <;> simp
  · obtain ⟨-, -, l, hl, ho⟩ := graph_link.mp hs
    rw [List.mem_singleton.mp hl] at ho
    exact ho.elim

theorem forks_link_ranges (ranges : List CharRange) : (link base (ranges.map .range)).Forks := by
  refine ⟨fun p => ?_, fun p c q o q' hs hs' => ?_⟩
  · rw [epsilonTargets_link]
    split <;> simp [List.filter_map, Function.comp_def]
  · obtain ⟨-, rfl, -⟩ := graph_link.mp hs
    obtain ⟨-, rfl, l, hl, ho⟩ := graph_link.mp hs'
    obtain ⟨r, -, rfl⟩ := List.mem_map.mp hl
    obtain ⟨d, -, rfl⟩ := Label.admits_range.mp ho
    exact ⟨nofun, rfl⟩

theorem Forks.choice (ha : a.Forks) (hb : b.Forks) (hsa : a.Scoped (base + 2))
    (hsb : b.Scoped a.next) : (choice base a b).Forks := by
  have haentry := hsa.entry_mem
  have haexit := hsa.exit_mem
  have hbentry := hsb.entry_mem
  have hbexit := hsb.exit_mem
  refine ⟨fun p => ?_, fun p c q o q' hs hs' => ?_⟩
  · rw [epsilonTargets_choice]
    have hanil := epsilonTargets_eq_nil (p := p) hsa
    have hbnil := epsilonTargets_eq_nil (p := p) hsb
    have hanodup := ha.nodup p
    have hbnodup := hb.nodup p
    grind
  · have hastep := fun p o q (hs : a.graph p o q) => hsa.step_mem hs
    have hbstep := fun p o q (hs : b.graph p o q) => hsb.step_mem hs
    have hane := fun p o q (hs : a.graph p o q) => (hsa.step_ne hs).1
    have hbne := fun p o q (hs : b.graph p o q) => (hsb.step_ne hs).1
    have hasole := ha.sole
    have hbsole := hb.sole
    rw [graph_choice] at hs hs'
    grind

theorem Forks.sequence (ha : a.Forks) (hb : b.Forks) (hsa : a.Scoped base) (hsb : b.Scoped a.next) :
    (sequence a b).Forks := by
  have haexit := hsa.exit_mem
  refine ⟨fun p => ?_, fun p c q o q' hs hs' => ?_⟩
  · rw [epsilonTargets_sequence]
    have hanil := epsilonTargets_eq_nil (p := p) hsa
    have hbnil := epsilonTargets_eq_nil (p := p) hsb
    have hanodup := ha.nodup p
    have hbnodup := hb.nodup p
    grind
  · have hastep := fun p o q (hs : a.graph p o q) => hsa.step_mem hs
    have hbstep := fun p o q (hs : b.graph p o q) => hsb.step_mem hs
    have hane := fun p o q (hs : a.graph p o q) => (hsa.step_ne hs).1
    have hasole := ha.sole
    have hbsole := hb.sole
    rw [graph_sequence] at hs hs'
    grind

theorem Forks.rounds (ha : a.Forks) (hsa : a.Scoped (base + 2)) (kind : Repetition) :
    (rounds base kind a).Forks := by
  have haentry := hsa.entry_mem
  have haexit := hsa.exit_mem
  refine ⟨fun p => ?_, fun p c q o q' hs hs' => ?_⟩
  · rw [epsilonTargets_rounds]
    have hanil := epsilonTargets_eq_nil (p := p) hsa
    have hanodup := ha.nodup p
    grind
  · have hastep := fun p o q (hs : a.graph p o q) => hsa.step_mem hs
    have hane := fun p o q (hs : a.graph p o q) => (hsa.step_ne hs).1
    have hasole := ha.sole
    rw [graph_rounds] at hs hs'
    grind

theorem Forks.marked (ha : a.Forks) (hsa : a.Scoped (base + 4)) (number : Nat) :
    (marked base number a).Forks := by
  have haentry := hsa.entry_mem
  have haexit := hsa.exit_mem
  refine ⟨fun p => ?_, fun p c q o q' hs hs' => ?_⟩
  · rw [epsilonTargets_marked]
    have hanil := epsilonTargets_eq_nil (p := p) hsa
    have hanodup := ha.nodup p
    grind
  · have hastep := fun p o q (hs : a.graph p o q) => hsa.step_mem hs
    have hane := fun p o q (hs : a.graph p o q) => (hsa.step_ne hs).1
    have hasole := ha.sole
    rw [graph_marked] at hs hs'
    grind

theorem forks_ofPattern (pattern : Pattern) (h : ofPattern pattern base = .ok f) : f.Forks := by
  induction pattern generalizing base f with
  | empty =>
    cases h
    exact forks_link_epsilon
  | literal c =>
    cases h
    exact forks_link_ranges [.single c]
  | charClass cls =>
    obtain ⟨ranges, -, rfl⟩ := exists_of_map_eq_ok h
    exact forks_link_ranges ranges
  | union left right ihl ihr =>
    obtain ⟨a, b, ha, hb, rfl⟩ := of_union_eq_ok h
    exact (ihl ha).choice (ihr hb) (ofPattern_spec left ha).1 (ofPattern_spec right hb).1
  | concat left right ihl ihr =>
    obtain ⟨a, b, ha, hb, rfl⟩ := of_concat_eq_ok h
    exact (ihl ha).sequence (ihr hb) (ofPattern_spec left ha).1 (ofPattern_spec right hb).1
  | repeated kind inner ih =>
    obtain ⟨a, ha, rfl⟩ := exists_of_map_eq_ok h
    exact (ih ha).rounds (ofPattern_spec inner ha).1 kind
  | group number inner ih =>
    obtain ⟨a, ha, rfl⟩ := exists_of_map_eq_ok h
    exact (ih ha).marked (ofPattern_spec inner ha).1 number
  | anchored left right inner ih =>
    cases left with
    | true =>
      obtain ⟨a, ha, rfl⟩ := exists_of_map_eq_ok h
      exact (ih ha).marked (ofPattern_spec inner ha).1 0
    | false =>
      obtain ⟨a, ha, rfl⟩ := exists_of_map_eq_ok h
      have hsa := (ofPattern_spec inner ha).1
      have hrun : (runUp base).Forks := (forks_link_ranges notNewline).rounds (Scoped.link _) .star
      exact hrun.sequence ((ih ha).marked hsa 0) scoped_runUp (hsa.marked 0)

/-- Around the fragment of a tree, the nodes of the tree are left in its order: for the left branch of
a union first, for a round before skipping it, and for another round before leaving. -/
def Prefers (f : Fragment) : Pattern → Nat → Prop
  | .empty, _ | .literal _, _ | .charClass _, _ => True
  | .union left right, base => ∃ a b, ofPattern left (base + 2) = .ok a ∧
      ofPattern right a.next = .ok b ∧ f.epsilonTargets base = [a.entry, b.entry] ∧
      f.Prefers left (base + 2) ∧ f.Prefers right a.next
  | .concat left right, base =>
    ∃ a, ofPattern left base = .ok a ∧ f.Prefers left base ∧ f.Prefers right a.next
  | .repeated kind inner, base => ∃ a, ofPattern inner (base + 2) = .ok a ∧
      f.epsilonTargets base = a.entry :: (if kind.maySkip then [base + 1] else []) ∧
      f.epsilonTargets a.exit = (if kind.mayLoop then [a.entry] else []) ++ [base + 1] ∧
      f.Prefers inner (base + 2)
  | .group _ inner, base | .anchored true _ inner, base => f.Prefers inner (base + 4)
  | .anchored false _ inner, base => f.Prefers inner (base + 8)

/-- A fragment that adds epsilons only at the exit of another one leaves its nodes in the order of the
tree. -/
theorem prefers_of_extends (pattern : Pattern) (h : ofPattern pattern base = .ok a)
    (hext : ∀ p, base ≤ p → p < a.next → p ≠ a.exit → f.epsilonTargets p = a.epsilonTargets p) :
    f.Prefers pattern base := by
  induction pattern generalizing base a with
  | empty | literal | charClass => trivial
  | union left right ihl ihr =>
    obtain ⟨a, b, ha, hb, rfl⟩ := of_union_eq_ok h
    have hsa := (ofPattern_spec left ha).1
    have hsb := (ofPattern_spec right hb).1
    have haexit := hsa.exit_mem
    have hbexit := hsb.exit_mem
    have hanil := fun p => epsilonTargets_eq_nil (p := p) hsa
    have hbnil := fun p => epsilonTargets_eq_nil (p := p) hsb
    simp only [epsilonTargets_choice] at hext
    simp only [choice] at hext
    refine ⟨a, b, ha, hb, ?_, ihl ha fun p hp hlt hne => ?_, ihr hb fun p hp hlt hne => ?_⟩
    · rw [hext base le_rfl (by omega) (by omega), hanil, hbnil] <;> grind
    · rw [hext p (by omega) (by omega) (by omega), hbnil] <;> grind
    · rw [hext p (by omega) (by omega) (by omega), hanil] <;> grind
  | concat left right ihl ihr =>
    obtain ⟨a, b, ha, hb, rfl⟩ := of_concat_eq_ok h
    have hsa := (ofPattern_spec left ha).1
    have hsb := (ofPattern_spec right hb).1
    have haexit := hsa.exit_mem
    have hbexit := hsb.exit_mem
    have hanil := fun p => epsilonTargets_eq_nil (p := p) hsa
    have hbnil := fun p => epsilonTargets_eq_nil (p := p) hsb
    simp only [epsilonTargets_sequence] at hext
    simp only [sequence] at hext
    refine ⟨a, ha, ihl ha fun p hp hlt hne => ?_, ihr hb fun p hp hlt hne => ?_⟩
    · rw [hext p (by omega) (by omega) (by omega), hbnil] <;> grind
    · rw [hext p (by omega) (by omega) (by omega), hanil] <;> grind
  | repeated kind inner ih =>
    obtain ⟨a, ha, rfl⟩ := exists_of_map_eq_ok h
    have hsa := (ofPattern_spec inner ha).1
    have haexit := hsa.exit_mem
    have hanil := fun p => epsilonTargets_eq_nil (p := p) hsa
    simp only [epsilonTargets_rounds] at hext
    simp only [rounds] at hext
    refine ⟨a, ha, ?_, ?_, ih ha fun p hp hlt hne => ?_⟩
    · rw [hext base le_rfl (by omega) (by omega), hanil] <;> grind
    · rw [hext a.exit (by omega) (by omega) (by omega), hanil] <;> grind
    · rw [hext p (by omega) (by omega) (by omega)]
      grind
  | group number inner ih =>
    obtain ⟨a, ha, rfl⟩ := exists_of_map_eq_ok h
    have haexit := (ofPattern_spec inner ha).1.exit_mem
    simp only [epsilonTargets_marked] at hext
    simp only [marked] at hext
    refine ih ha fun p hp hlt hne => ?_
    rw [hext p (by omega) (by omega) (by omega)]
    grind
  | anchored left right inner ih =>
    cases left with
    | true =>
      obtain ⟨a, ha, rfl⟩ := exists_of_map_eq_ok h
      have haexit := (ofPattern_spec inner ha).1.exit_mem
      simp only [epsilonTargets_marked] at hext
      simp only [marked] at hext
      refine ih ha fun p hp hlt hne => ?_
      rw [hext p (by omega) (by omega) (by omega)]
      grind
    | false =>
      obtain ⟨a, ha, rfl⟩ := exists_of_map_eq_ok h
      have haexit := (ofPattern_spec inner ha).1.exit_mem
      have hscoped : (runUp base).Scoped base := scoped_runUp
      have hrnil := fun p => epsilonTargets_eq_nil (p := p) hscoped
      have hrnext : (runUp base).next = base + 4 := rfl
      have hrexit : (runUp base).exit = base + 1 := rfl
      simp only [epsilonTargets_sequence, epsilonTargets_marked] at hext
      simp only [sequence, marked] at hext
      refine ih ha fun p hp hlt hne => ?_
      rw [hext p (by omega) (by omega) (by omega), hrnil] <;> grind

theorem prefers_ofPattern (pattern : Pattern) (h : ofPattern pattern base = .ok f) :
    f.Prefers pattern base :=
  prefers_of_extends pattern h fun _ _ _ _ => rfl

end Fragment

/-- In an automaton paths part at epsilons alone, and each of them leads elsewhere. -/
structure Nfa.Forks (nfa : Nfa) : Prop where
  nodup : ∀ (p : Nat) (node : Node), nfa.nodes[p]? = some node → node.epsilons.Nodup
  sole : ∀ p c q o q', nfa.graph p (some c) q → nfa.graph p o q' → o ≠ none ∧ q' = q

theorem Fragment.forks_toNfa {f : Fragment} {base : Nat} (hs : f.Scoped base) (h : f.Forks) (e : Bool) :
    (f.toNfa e).Forks := by
  refine ⟨fun i node hi => ?_, fun i c j o j' hstep hstep' => ?_⟩
  · obtain ⟨p, hp, -, rfl⟩ := nodes_toNfa_eq_some_iff.mp hi
    refine List.Nodup.map_on (fun q hq r _ heq => ?_) (h.nodup p)
    exact (number_inj (step_mem_order hs (graph_none.mpr hq) hp)).mp heq
  · obtain ⟨p, hp, rfl, q, hf, rfl⟩ := graph_toNfa.mp hstep
    obtain ⟨p', hp', hpp, q', hf', rfl⟩ := graph_toNfa.mp hstep'
    obtain rfl := (number_inj hp').mp hpp
    obtain ⟨ho, rfl⟩ := h.sole _ _ _ _ _ hf hf'
    exact ⟨ho, rfl⟩

end PatternAutomata
