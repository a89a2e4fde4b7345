import PatternAutomata.Automaton.Numbering
import PatternAutomata.Proofs.Thompson

/-!
# The gate of a pattern

In the automaton of a pattern with an anchored root, the node that opens group 0 is a gate. Outside of
it lie only the entry and the run up to the match, and what is inside is never left again. A path to
the final node therefore passes the gate exactly once: what it reads before is the part of the text in
front of the match, and what it reads after is a word of the pattern.
-/

namespace PatternAutomata

open PatternAutomata.Graph Fragment

/-- No anchored node, and no group that is numbered like the whole match. -/
def Pattern.Plain : Pattern → Prop
  | .empty | .literal _ | .charClass _ => True
  | .union left right | .concat left right => left.Plain ∧ right.Plain
  | .repeated _ inner => inner.Plain
  | .group number inner => number ≠ 0 ∧ inner.Plain
  | .anchored .. => False

theorem Pattern.Plain.group_ne_zero {pattern : Pattern} (h : pattern.Plain) :
    ∀ x ∈ pattern.groups, x.1 ≠ 0 := by
  induction pattern with
  | empty | literal | charClass => simp [groups]
  | union left right ihl ihr | concat left right ihl ihr =>
    intro x hx
    rcases List.mem_append.mp hx with hx | hx
    · exact ihl h.1 x hx
    · exact ihr h.2 x hx
  | repeated kind inner ih => exact ih h
  | group number inner ih =>
    intro x hx
    rcases List.mem_cons.mp hx with rfl | hx
    · exact h.1
    · exact ih h.2 x hx
  | anchored left right inner ih => exact h.elim

/-- The marker that starts the whole match. -/
def matchStarts : Marker := ⟨.groupStart, 0⟩

/-- A graph with markers that is parted by a gate. -/
structure Gated (G : Graph) (marker : Nat → Option Marker) (outside : Nat → Prop)
    (gate entry final : Nat) : Prop where
  entry_outside : outside entry
  gate_outside : outside gate
  final_inside : ¬outside final
  marker_gate : marker gate = some matchStarts
  marker_outside : ∀ p, outside p → p ≠ gate → marker p = none
  marker_inside : ∀ p, ¬outside p → marker p ≠ some matchStarts
  step_outside : ∀ p o q, G p o q → outside p → p ≠ gate → outside q
  step_gate : ∀ o q, G gate o q → ¬outside q
  step_inside : ∀ p o q, G p o q → ¬outside p → ¬outside q

section Gated

variable {G : Graph} {marker : Nat → Option Marker} {outside : Nat → Prop}
  {gate entry final p q : Nat} {w : List Char}

theorem Gated.final_ne_gate (h : Gated G marker outside gate entry final) : final ≠ gate :=
  fun heq => h.final_inside (heq ▸ h.gate_outside)

/-- Other markers than that of the gate stand inside. -/
theorem Gated.not_outside {m : Marker} (h : Gated G marker outside gate entry final)
    (hm : marker p = some m) (hp : p ≠ gate) : ¬outside p := fun ho => by
  rw [h.marker_outside p ho hp] at hm
  cases hm

theorem Gated.marker_iff (h : Gated G marker outside gate entry final) :
    marker p = some matchStarts ↔ p = gate := by
  refine ⟨fun hm => ?_, fun hgate => hgate ▸ h.marker_gate⟩
  by_contra hgate
  exact h.marker_inside p (h.not_outside hm hgate) hm

theorem Gated.spells_inside (h : Gated G marker outside gate entry final) (hw : G.Spells p w q)
    (hp : ¬outside p) : ¬outside q :=
  (hw.confined (H := G) (¬outside ·) (fun p o q hp hs => ⟨hs, h.step_inside p o q hs hp⟩) hp).2

theorem Gated.spells_gate (h : Gated G marker outside gate entry final) :
    G.Spells gate w gate ↔ w = [] := by
  constructor
  · intro hw
    cases hw with
    | refl => rfl
    | step hs hw => exact (h.spells_inside hw (h.step_gate _ _ hs) h.gate_outside).elim
  · rintro rfl
    exact .refl gate

end Gated

namespace Fragment

variable {f a b : Fragment} {base p : Nat} {m : Marker} {u v : List Char}

/-- In a tree without anchored nodes, each group brings the two markers of its own, in the order of the
tree. -/
theorem groups_markers (pattern : Pattern) (h : ofPattern pattern base = .ok f) (hp : pattern.Plain) :
    f.markers.map (·.2.group) = (pattern.groups.map Prod.fst).flatMap fun n => [n, n] := by
  induction pattern generalizing base f with
  | empty | literal =>
    cases h
    rfl
  | charClass cls =>
    obtain ⟨ranges, -, rfl⟩ := exists_of_map_eq_ok h
    rfl
  | union left right ihl ihr =>
    obtain ⟨a, b, ha, hb, rfl⟩ := of_union_eq_ok h
    simp only [choice, Pattern.groups, List.map_append, List.flatMap_append, ihl ha hp.1, ihr hb hp.2]
  | concat left right ihl ihr =>
    obtain ⟨a, b, ha, hb, rfl⟩ := of_concat_eq_ok h
    simp only [sequence, Pattern.groups, List.map_append, List.flatMap_append, ihl ha hp.1, ihr hb hp.2]
  | repeated kind inner ih =>
    obtain ⟨a, ha, rfl⟩ := exists_of_map_eq_ok h
    simp only [rounds, Pattern.groups, ih ha hp]
  | group number inner ih =>
    obtain ⟨a, ha, rfl⟩ := exists_of_map_eq_ok h
    simp only [marked, Pattern.groups, List.map_cons, List.flatMap_cons, ih ha hp.2, List.cons_append,
      List.nil_append]
  | anchored left right inner ih => exact hp.elim

/-- The groups of a tree without anchored nodes are those that its markers belong to. -/
theorem marker_group_mem (pattern : Pattern) (h : ofPattern pattern base = .ok f)
    (hp : pattern.Plain) : ∀ m ∈ f.markers, ∃ x ∈ pattern.groups, x.1 = m.2.group := by
  intro m hm
  have hmem : m.2.group ∈ f.markers.map (·.2.group) := List.mem_map_of_mem hm
  simpa [groups_markers pattern h hp] using hmem

theorem marker_group_ne_zero (pattern : Pattern) (h : ofPattern pattern base = .ok f)
    (hp : pattern.Plain) : ∀ m ∈ f.markers, m.2.group ≠ 0 := by
  intro m hm
  obtain ⟨x, hx, heq⟩ := marker_group_mem pattern h hp m hm
  exact heq ▸ hp.group_ne_zero x hx

/-- The marker that a node carries. -/
def marker (f : Fragment) (p : Nat) : Option Marker := f.markers.lookup p

theorem marker_marked {number p : Nat} : (marked base number a).marker p =
    if p = base + 2 then some ⟨.groupStart, number⟩
    else if p = base + 3 then some ⟨.groupEnd, number⟩ else a.marker p := by
  have hcons : ∀ (k : Nat) (m : Marker) (rest : List (Nat × Marker)),
      List.lookup p ((k, m) :: rest) = if p = k then some m else List.lookup p rest := by
    intro k m rest
    by_cases hk : p = k
    · simp [hk]
    · have hb : (p == k) = false := beq_false_of_ne hk
      simp [List.lookup_cons, hb, hk]
  simp only [marker, marked, hcons]

theorem marker_eq_none (ha : a.Scoped base) {p : Nat} (hp : p < base) : a.marker p = none := by
  rw [marker, List.lookup_eq_none_iff]
  intro m hm
  have := ha.marker_mem m hm
  simp only [bne_iff_ne, ne_eq]
  omega

theorem marker_ne_matchStarts (hm : ∀ m ∈ a.markers, m.2.group ≠ 0) (p : Nat) :
    a.marker p ≠ some matchStarts := by
  intro hl
  obtain ⟨l₁, l₂, hsplit, -⟩ := List.lookup_eq_some_iff.mp hl
  exact hm (p, matchStarts) (by simp [hsplit]) rfl

theorem exists_mem_of_marker (h : f.marker p = some m) : (p, m) ∈ f.markers := by
  obtain ⟨l₁, l₂, hsplit, -⟩ := List.lookup_eq_some_iff.mp h
  simp [hsplit]

theorem marker_choice : (choice base a b).marker p = (a.marker p).or (b.marker p) := List.lookup_append

theorem marker_sequence : (sequence a b).marker p = (a.marker p).or (b.marker p) := List.lookup_append

theorem Scoped.mem_of_marker (h : f.Scoped base) (hm : f.marker p = some m) :
    base ≤ p ∧ p < f.next :=
  h.marker_mem _ (exists_mem_of_marker hm)

/-- The markers of two fragments side by side are those of the one that a node belongs to. -/
theorem or_marker_eq (ha : a.Scoped base) (hb : b.Scoped a.next) (p : Nat) :
    (a.marker p).or (b.marker p) = if p < a.next then a.marker p else b.marker p := by
  split
  · rename_i hp
    rw [marker_eq_none hb hp, Option.or_none]
  · rename_i hp
    have hnone : a.marker p = none :=
      Option.eq_none_iff_forall_ne_some.mpr fun m hm => hp (ha.mem_of_marker hm).2
    rw [hnone, Option.none_or]

/-- A pattern that is anchored on the left has its gate behind the entry. -/
theorem gated_marked (ha : a.Scoped 4) (hm : ∀ m ∈ a.markers, m.2.group ≠ 0) :
    Gated (marked 0 0 a).graph (marked 0 0 a).marker (fun p => p = 0 ∨ p = 2) 2 0 1 := by
  have hastep := fun p o q (hs : a.graph p o q) => ha.step_mem hs
  have haentry := ha.entry_mem
  have haexit := ha.exit_mem
  refine ⟨by simp, by simp, by simp, ?_, fun p hp hne => ?_, fun p hp => ?_, fun p o q hs hp hne => ?_,
    fun o q hs => ?_, fun p o q hs hp => ?_⟩
  · rw [marker_marked]
    rfl
  · rw [marker_marked, if_neg hne, if_neg (by omega), marker_eq_none ha (by omega)]
  · rw [marker_marked, if_neg (by omega)]
    split
    · simp [matchStarts]
    · exact marker_ne_matchStarts hm p
  · rw [graph_marked] at hs
    grind
  · rw [graph_marked] at hs
    grind
  · rw [graph_marked] at hs
    grind

/-- A pattern that is open on the left has its gate behind the run up to the match. -/
theorem gated_runUp (ha : a.Scoped 8) (hm : ∀ m ∈ a.markers, m.2.group ≠ 0) :
    Gated (sequence (runUp 0) (marked 4 0 a)).graph (sequence (runUp 0) (marked 4 0 a)).marker
      (fun p => p < 5 ∨ p = 6) 6 0 5 := by
  have hrstep := fun p o q (hs : (runUp 0).graph p o q) => scoped_runUp.step_mem hs
  have hastep := fun p o q (hs : a.graph p o q) => ha.step_mem hs
  have haentry := ha.entry_mem
  have haexit := ha.exit_mem
  have hnext : (runUp 0).next = 4 := rfl
  have hexit : (runUp 0).exit = 1 := rfl
  have hmarkers : (sequence (runUp 0) (marked 4 0 a)).marker = (marked 4 0 a).marker := rfl
  have hgraph : ∀ p o q, (sequence (runUp 0) (marked 4 0 a)).graph p o q ↔
      (o = none ∧ p = 1 ∧ q = 4) ∨ (runUp 0).graph p o q ∨ (marked 4 0 a).graph p o q :=
    fun p o q => graph_sequence
  refine ⟨by simp, by simp, by simp, ?_, fun p hp hne => ?_, fun p hp => ?_, fun p o q hs hp hne => ?_,
    fun o q hs => ?_, fun p o q hs hp => ?_⟩
  · rw [hmarkers, marker_marked]
    rfl
  · rw [hmarkers, marker_marked, if_neg hne, if_neg (by omega), marker_eq_none ha (by omega)]
  · rw [hmarkers, marker_marked, if_neg (by omega)]
    split
    · simp [matchStarts]
    · exact marker_ne_matchStarts hm p
  · rw [hgraph, graph_marked] at hs
    grind
  · rw [hgraph, graph_marked] at hs
    grind
  · rw [hgraph, graph_marked] at hs
    grind

/-- Up to its gate a pattern that is open on the left reads any part of a line. -/
theorem spells_runUp_gate (ha : a.Scoped 8) (hm : ∀ m ∈ a.markers, m.2.group ≠ 0) :
    (sequence (runUp 0) (marked 4 0 a)).graph.Spells (runUp 0).entry u 6 ↔ u ∈ lineLanguage := by
  have hsm : (marked 4 0 a).Scoped 4 := ha.marked 0
  have haexit := ha.exit_mem
  have hastep := fun p o q (hs : a.graph p o q) => ha.step_mem hs
  have hrstep := fun p o q (hs : (runUp 0).graph p o q) => scoped_runUp.step_mem hs
  have hmstep := fun p o q (hs : (marked 4 0 a).graph p o q) => hsm.step_mem hs
  have hnext : (runUp 0).next = 4 := rfl
  have hexit : (runUp 0).exit = 1 := rfl
  have hentry : (marked 4 0 a).entry = 4 := rfl
  have hgate : ∀ v, (sequence (runUp 0) (marked 4 0 a)).graph.Spells 4 v 6 ↔ v = [] := by
    intro v
    rw [spells_iff_of_sole_step (q := 6) (fun o q => by rw [graph_sequence, graph_marked]; grind)
      (by omega)]
    exact (gated_runUp ha hm).spells_gate
  rw [scoped_runUp.spells_through 4 _ (by omega), language_runUp]
  · simp [hgate]
  · intro p o q hp hp'
    rw [graph_sequence]
    grind

/-- The fragment of an anchored pattern has a gate. The run up to it reads what may stand in front of
a match, and behind it the words of the pattern are read. -/
theorem exists_gated {left right : Bool} {inner : Pattern} (hp : inner.Plain)
    (h : ofPattern (.anchored left right inner) 0 = .ok f) :
    ∃ outside gate, Gated f.graph f.marker outside gate f.entry f.exit ∧
      (∀ u, f.graph.Spells f.entry u gate ↔ if left then u = [] else u ∈ lineLanguage) ∧
      ∀ v, f.graph.Spells gate v f.exit ↔ v ∈ inner.language := by
  cases left with
  | true =>
    obtain ⟨a, ha, rfl⟩ := exists_of_map_eq_ok h
    obtain ⟨hsa, hla⟩ := ofPattern_spec inner ha
    have hgated := gated_marked hsa (marker_group_ne_zero inner ha hp)
    have haexit := hsa.exit_mem
    have hastep := fun p o q (hs : a.graph p o q) => hsa.step_mem hs
    refine ⟨_, 2, hgated, fun u => ?_, fun v => hla ▸ spells_marked_inside 0 hsa⟩
    change (marked 0 0 a).graph.Spells 0 u 2 ↔ u = []
    rw [spells_iff_of_sole_step (q := 2) (fun o q => by rw [graph_marked]; grind) (by omega)]
    exact hgated.spells_gate
  | false =>
    obtain ⟨a, ha, rfl⟩ := exists_of_map_eq_ok h
    obtain ⟨hsa, hla⟩ := ofPattern_spec inner ha
    have hm := marker_group_ne_zero inner ha hp
    have hsm : (marked 4 0 a).Scoped 4 := hsa.marked 0
    have haentry := hsa.entry_mem
    have hrstep := fun p o q (hs : (runUp 0).graph p o q) => scoped_runUp.step_mem hs
    have hnext : (runUp 0).next = 4 := rfl
    have hexit : (runUp 0).exit = 1 := rfl
    refine ⟨_, 6, gated_runUp hsa hm, fun u => spells_runUp_gate hsa hm, fun v => ?_⟩
    change (sequence (runUp 0) (marked 4 0 a)).graph.Spells 6 v 5 ↔ _
    rw [hsm.spells_within _ (by simp only [marked]; omega), spells_marked_inside 0 hsa, hla]
    intro p o q hp hp'
    rw [graph_sequence]
    grind

end Fragment

end PatternAutomata
