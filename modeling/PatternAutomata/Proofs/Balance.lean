import PatternAutomata.Proofs.Brackets
import PatternAutomata.Proofs.GroupNumbers
import PatternAutomata.Proofs.Paths

/-!
# Markers are balanced

Every node lies inside of certain groups, and a step leads into one more, out of the innermost one, or
stays inside of the same groups, as the marker at its end says. So the groups that are open are told by
the node that a path has reached, through whatever loops it got there, and at the final node there are
none.
-/

namespace PatternAutomata

/-- The open groups after a marker, the innermost first. A group is not opened within itself, and only the
innermost one is closed. -/
def Marker.pass? (opened : List Nat) : Marker → Option (List Nat)
  | ⟨.groupStart, group⟩ => if group ∈ opened then none else some (group :: opened)
  | ⟨.groupEnd, group⟩ => if opened.head? = some group then some opened.tail else none

/-- The open groups after some markers, if they are well nested. -/
def Marker.nest? (opened : List Nat) (markers : List Marker) : Option (List Nat) :=
  markers.foldlM Marker.pass? opened

/-- The markers that a path from the entry passes, in their order. -/
def Nfa.passed (nfa : Nfa) (π : Steps) : List Marker :=
  (nfa.visits π).filterMap fun v => nfa.marker v.1

/-- The open groups after a node that may carry a marker. -/
def enter? (opened : List Nat) (marker : Option Marker) : Option (List Nat) :=
  Marker.nest? opened marker.toList

/-- Each step leads from the groups around its source to those around its target. -/
def Surrounds (G : Graph) (marker : Nat → Option Marker) (around : Nat → List Nat) : Prop :=
  ∀ p o q, G p o q → enter? (around p) (marker q) = some (around q)

section Surrounds

variable {opened opened' : List Nat} {group : Nat} {marker : Option Marker}

@[simp] theorem enter?_none : enter? opened none = some opened := rfl

@[simp] theorem enter?_some (m : Marker) : enter? opened (some m) = m.pass? opened := by
  simp [enter?, Marker.nest?]

theorem Marker.nest?_append (ms ms' : List Marker) :
    nest? opened (ms ++ ms') = (nest? opened ms).bind (nest? · ms') := by
  simp only [nest?, List.foldlM_append]
  rfl

/-- Nothing changes for the inner groups if there is one group more around all of them. -/
theorem enter?_append (h : enter? opened marker = some opened') (hgroup : group ∉ opened') :
    enter? (opened ++ [group]) marker = some (opened' ++ [group]) := by
  match marker with
  | none =>
    cases h
    rfl
  | some ⟨.groupStart, n⟩ =>
    simp only [enter?_some, Marker.pass?, Option.ite_none_left_eq_some, Option.some_inj] at h
    obtain ⟨hn, rfl⟩ := h
    have hne : n ≠ group := fun heq => hgroup (heq ▸ List.mem_cons_self)
    simp [Marker.pass?, hn, hne]
  | some ⟨.groupEnd, n⟩ =>
    simp only [enter?_some, Marker.pass?, Option.ite_none_right_eq_some, Option.some_inj] at h
    obtain ⟨hn, rfl⟩ := h
    obtain ⟨rest, rfl⟩ := List.head?_eq_some_iff.mp hn
    simp [Marker.pass?]

end Surrounds

namespace Fragment

variable {f a b : Fragment} {base number p : Nat} {numbers numbers' : List Nat}
  {around around' : Nat → List Nat}

/-- The groups around the nodes of a fragment. There are none at its ends. -/
structure Nests (f : Fragment) (base : Nat) (numbers : List Nat) (around : Nat → List Nat) : Prop where
  outside : ∀ p < base, around p = []
  entry : around f.entry = [] ∧ f.marker f.entry = none
  exit : around f.exit = [] ∧ f.marker f.exit = none
  subset : ∀ p, around p ⊆ numbers
  surrounds : Surrounds f.graph f.marker around

theorem nests_link {labels : List Label} : (link base labels).Nests base [] fun _ => [] :=
  ⟨fun _ _ => rfl, ⟨rfl, rfl⟩, ⟨rfl, rfl⟩, fun _ => List.Subset.refl [], fun _ _ _ _ => rfl⟩

/-- The groups around the nodes of two fragments side by side. -/
def beside (next : Nat) (around around' : Nat → List Nat) (p : Nat) : List Nat :=
  if p < next then around p else around' p

theorem beside_of_lt {next : Nat} (h : p < next) : beside next around around' p = around p := if_pos h

theorem beside_of_le {next : Nat} (h : next ≤ p) : beside next around around' p = around' p :=
  if_neg (Nat.not_lt.mpr h)

/-- Two fragments side by side, before any edge leads from one to the other. -/
theorem Nests.beside {base' : Nat} (ha : a.Nests base' numbers around)
    (hb : b.Nests a.next numbers' around') (hsa : a.Scoped base') (hsb : b.Scoped a.next) :
    (∀ p, beside a.next around around' p ⊆ numbers ++ numbers') ∧
      ∀ p o q, a.graph p o q ∨ b.graph p o q →
        enter? (beside a.next around around' p) ((a.marker q).or (b.marker q)) =
          some (beside a.next around around' q) := by
  refine ⟨fun p => ?_, fun p o q hs => ?_⟩
  · simp only [Fragment.beside]
    split
    · exact List.subset_append_of_subset_left _ (ha.subset p)
    · exact List.subset_append_of_subset_right _ (hb.subset p)
  · rw [or_marker_eq hsa hsb]
    rcases hs with hs | hs
    · have hmem := hsa.step_mem hs
      rw [beside_of_lt hmem.2.1, beside_of_lt hmem.2.2.2, if_pos hmem.2.2.2]
      exact ha.surrounds p o q hs
    · have hmem := hsb.step_mem hs
      rw [beside_of_le hmem.1, beside_of_le hmem.2.2.1, if_neg (by omega)]
      exact hb.surrounds p o q hs

theorem Nests.choice (ha : a.Nests (base + 2) numbers around) (hb : b.Nests a.next numbers' around')
    (hsa : a.Scoped (base + 2)) (hsb : b.Scoped a.next) :
    (choice base a b).Nests base (numbers ++ numbers') (Fragment.beside a.next around around') := by
  obtain ⟨hsubset, hinside⟩ := ha.beside hb hsa hsb
  have haentry := hsa.entry_mem
  have haexit := hsa.exit_mem
  have hbentry := hsb.entry_mem
  have hbexit := hsb.exit_mem
  have hbefore : ∀ p < base + 2, Fragment.beside a.next around around' p = [] ∧
      (Fragment.choice base a b).marker p = none := by
    intro p hp
    rw [beside_of_lt (by omega), marker_choice, marker_eq_none hsa hp, marker_eq_none hsb (by omega)]
    exact ⟨ha.outside p hp, rfl⟩
  refine ⟨fun p hp => (hbefore p (by omega)).1, hbefore base (by omega), hbefore (base + 1) (by omega),
    hsubset, fun p o q hs => ?_⟩
  rcases graph_choice.mp hs with ⟨-, hends⟩ | hs
  · rcases hends with ⟨rfl, rfl | rfl⟩ | ⟨rfl | rfl, rfl⟩
    · rw [(hbefore _ (by omega)).1, marker_choice, or_marker_eq hsa hsb, if_pos haentry.2, ha.entry.2,
        beside_of_lt haentry.2, ha.entry.1, enter?_none]
    · rw [(hbefore _ (by omega)).1, marker_choice, or_marker_eq hsa hsb, if_neg (by omega), hb.entry.2,
        beside_of_le hbentry.1, hb.entry.1, enter?_none]
    · rw [(hbefore (base + 1) (by omega)).1, (hbefore (base + 1) (by omega)).2, beside_of_lt haexit.2,
        ha.exit.1, enter?_none]
    · rw [(hbefore (base + 1) (by omega)).1, (hbefore (base + 1) (by omega)).2, beside_of_le hbexit.1,
        hb.exit.1, enter?_none]
  · rw [marker_choice]
    exact hinside p o q hs

theorem Nests.sequence (ha : a.Nests base numbers around) (hb : b.Nests a.next numbers' around')
    (hsa : a.Scoped base) (hsb : b.Scoped a.next) :
    (sequence a b).Nests base (numbers ++ numbers') (Fragment.beside a.next around around') := by
  obtain ⟨hsubset, hinside⟩ := ha.beside hb hsa hsb
  have haentry := hsa.entry_mem
  have haexit := hsa.exit_mem
  have hbentry := hsb.entry_mem
  have hbexit := hsb.exit_mem
  have hentry : (Fragment.sequence a b).marker a.entry = none := by
    rw [marker_sequence, or_marker_eq hsa hsb, if_pos haentry.2, ha.entry.2]
  have hjoin : (Fragment.sequence a b).marker b.entry = none := by
    rw [marker_sequence, or_marker_eq hsa hsb, if_neg (by omega), hb.entry.2]
  have hexit : (Fragment.sequence a b).marker b.exit = none := by
    rw [marker_sequence, or_marker_eq hsa hsb, if_neg (by omega), hb.exit.2]
  refine ⟨fun p hp => ?_, ⟨?_, hentry⟩, ⟨?_, hexit⟩, hsubset, fun p o q hs => ?_⟩
  · rw [beside_of_lt (by omega), ha.outside p hp]
  · exact (beside_of_lt haentry.2).trans ha.entry.1
  · exact (beside_of_le hbexit.1).trans hb.exit.1
  · rcases graph_sequence.mp hs with ⟨-, rfl, rfl⟩ | hs
    · rw [beside_of_lt haexit.2, ha.exit.1, beside_of_le hbentry.1, hb.entry.1, hjoin, enter?_none]
    · rw [marker_sequence]
      exact hinside p o q hs

theorem Nests.rounds (ha : a.Nests (base + 2) numbers around) (hsa : a.Scoped (base + 2))
    (kind : Repetition) : (rounds base kind a).Nests base numbers around := by
  have hmarker : (Fragment.rounds base kind a).marker = a.marker := rfl
  have hbefore : ∀ p < base + 2, around p = [] ∧ (Fragment.rounds base kind a).marker p = none :=
    fun p hp => ⟨ha.outside p hp, hmarker ▸ marker_eq_none hsa hp⟩
  refine ⟨fun p hp => (hbefore p (by omega)).1, hbefore base (by omega), hbefore (base + 1) (by omega),
    ha.subset, fun p o q hs => ?_⟩
  rcases graph_rounds.mp hs with ⟨-, hends⟩ | hs
  · -- All ends lie outside of the groups, and none of them carries a marker.
    have hends : (around p = [] ∧ around q = []) ∧ (Fragment.rounds base kind a).marker q = none := by
      have hstart := hbefore base (by omega)
      have hstop := hbefore (base + 1) (by omega)
      have hentry := ha.entry
      have hexit := ha.exit
      rw [hmarker] at *
      rcases hends with ⟨rfl, rfl | ⟨-, rfl⟩⟩ | ⟨rfl, ⟨-, rfl⟩ | rfl⟩
      · exact ⟨⟨hstart.1, hentry.1⟩, hentry.2⟩
      · exact ⟨⟨hstart.1, hstop.1⟩, hstop.2⟩
      · exact ⟨⟨hexit.1, hentry.1⟩, hentry.2⟩
      · exact ⟨⟨hexit.1, hstop.1⟩, hstop.2⟩
    rw [hends.1.1, hends.1.2, hends.2, enter?_none]
  · exact ha.surrounds p o q hs

/-- The groups around the nodes between the markers of a group. -/
def within (base number : Nat) (around : Nat → List Nat) (p : Nat) : List Nat :=
  if p = base + 2 then [number] else if p < base + 4 then [] else around p ++ [number]

theorem Nests.marked (ha : a.Nests (base + 4) numbers around) (hsa : a.Scoped (base + 4))
    (hn : number ∉ numbers) :
    (marked base number a).Nests base (number :: numbers) (within base number around) := by
  have haentry := hsa.entry_mem
  have haexit := hsa.exit_mem
  have houter : ∀ p, p < base + 2 ∨ p = base + 3 → within base number around p = [] := by
    intro p hp
    rw [within, if_neg (by omega), if_pos (by omega)]
  have hinner : ∀ p, base + 4 ≤ p → within base number around p = around p ++ [number] ∧
      (Fragment.marked base number a).marker p = a.marker p := by
    intro p hp
    rw [within, if_neg (by omega), if_neg (by omega), marker_marked, if_neg (by omega),
      if_neg (by omega)]
    exact ⟨rfl, rfl⟩
  have hbefore : ∀ p < base + 2, (Fragment.marked base number a).marker p = none := by
    intro p hp
    rw [marker_marked, if_neg (by omega), if_neg (by omega), marker_eq_none hsa (by omega)]
  have hstart : (Fragment.marked base number a).marker (base + 2) = some ⟨.groupStart, number⟩ := by
    rw [marker_marked, if_pos rfl]
  have hstop : (Fragment.marked base number a).marker (base + 3) = some ⟨.groupEnd, number⟩ := by
    rw [marker_marked, if_neg (by omega), if_pos rfl]
  have hopened : within base number around (base + 2) = [number] := if_pos rfl
  refine ⟨fun p hp => houter p (by omega), ⟨houter base (by omega), hbefore base (by omega)⟩,
    ⟨houter (base + 1) (by omega), hbefore (base + 1) (by omega)⟩, fun p => ?_, fun p o q hs => ?_⟩
  · simp only [within]
    split
    · simp
    · split
      · simp
      · exact List.append_subset.mpr ⟨List.subset_cons_of_subset _ (ha.subset p), by simp⟩
  · rcases graph_marked.mp hs with ⟨-, hends⟩ | hs
    · rcases hends with ⟨rfl, rfl⟩ | ⟨rfl, rfl⟩ | ⟨rfl, rfl⟩ | ⟨rfl, rfl⟩
      · rw [houter p (by omega), hstart, hopened]
        simp [Marker.pass?]
      · rw [hopened, (hinner _ haentry.1).1, (hinner _ haentry.1).2, ha.entry.1, ha.entry.2]
        rfl
      · rw [(hinner _ haexit.1).1, ha.exit.1, hstop, houter (base + 3) (by omega)]
        simp [Marker.pass?]
      · rw [houter (base + 3) (by omega), hbefore (base + 1) (by omega), houter (base + 1) (by omega),
          enter?_none]
    · have hmem := hsa.step_mem hs
      rw [(hinner p hmem.1).1, (hinner q hmem.2.2.1).1, (hinner q hmem.2.2.1).2]
      exact enter?_append (ha.surrounds p o q hs) fun hin => hn (ha.subset q hin)

/-- The fragment of a tree without anchored nodes nests its groups, if no two have the same number. -/
theorem exists_nests (pattern : Pattern) (h : ofPattern pattern base = .ok f) (hp : pattern.Plain)
    (hn : pattern.numbers.Nodup) : ∃ around, f.Nests base pattern.numbers around := by
  induction pattern generalizing base f with
  | empty | literal =>
    cases h
    exact ⟨_, nests_link⟩
  | charClass cls =>
    obtain ⟨ranges, -, rfl⟩ := exists_of_map_eq_ok h
    exact ⟨_, nests_link⟩
  | union left right ihl ihr =>
    obtain ⟨a, b, ha, hb, rfl⟩ := of_union_eq_ok h
    rw [Pattern.numbers_union] at hn ⊢
    obtain ⟨around, hna⟩ := ihl ha hp.1 hn.of_append_left
    obtain ⟨around', hnb⟩ := ihr hb hp.2 hn.of_append_right
    exact ⟨_, hna.choice hnb (ofPattern_spec left ha).1 (ofPattern_spec right hb).1⟩
  | concat left right ihl ihr =>
    obtain ⟨a, b, ha, hb, rfl⟩ := of_concat_eq_ok h
    rw [Pattern.numbers_concat] at hn ⊢
    obtain ⟨around, hna⟩ := ihl ha hp.1 hn.of_append_left
    obtain ⟨around', hnb⟩ := ihr hb hp.2 hn.of_append_right
    exact ⟨_, hna.sequence hnb (ofPattern_spec left ha).1 (ofPattern_spec right hb).1⟩
  | repeated kind inner ih =>
    obtain ⟨a, ha, rfl⟩ := exists_of_map_eq_ok h
    obtain ⟨around, hna⟩ := ih ha hp hn
    exact ⟨_, hna.rounds (ofPattern_spec inner ha).1 kind⟩
  | group number inner ih =>
    obtain ⟨a, ha, rfl⟩ := exists_of_map_eq_ok h
    obtain ⟨hnumber, hn⟩ := List.nodup_cons.mp hn
    obtain ⟨around, hna⟩ := ih ha hp.2 hn
    exact ⟨_, hna.marked (ofPattern_spec inner ha).1 hnumber⟩
  | anchored left right inner ih => exact hp.elim

/-- The whole match is a group around all others. -/
theorem exists_nests_anchored {left right : Bool} {body : Pattern}
    (h : ofPattern (.anchored left right body) base = .ok f) (hp : body.Plain)
    (hn : body.numbers.Nodup) : ∃ around, f.Nests base (0 :: body.numbers) around := by
  have hzero : 0 ∉ body.numbers := by
    intro hmem
    obtain ⟨x, hx, heq⟩ := List.mem_map.mp hmem
    exact hp.group_ne_zero x hx heq
  cases left with
  | true =>
    obtain ⟨a, ha, rfl⟩ := exists_of_map_eq_ok h
    obtain ⟨around, hna⟩ := exists_nests body ha hp hn
    exact ⟨_, hna.marked (ofPattern_spec body ha).1 hzero⟩
  | false =>
    obtain ⟨a, ha, rfl⟩ := exists_of_map_eq_ok h
    obtain ⟨around, hna⟩ := exists_nests body ha hp hn
    have hsa := (ofPattern_spec body ha).1
    have hrun : (runUp base).Nests base [] fun _ => [] := nests_link.rounds (Scoped.link _) .star
    exact ⟨_, hrun.sequence (hna.marked hsa hzero) scoped_runUp (hsa.marked 0)⟩

/-- Numbering keeps the groups around the nodes. -/
theorem Nests.toNfa (h : f.Nests base numbers around) (hs : f.Scoped base) (e : Bool) :
    ∃ around', around' (f.toNfa e).entry = [] ∧ (f.toNfa e).marker (f.toNfa e).entry = none ∧
      around' (f.toNfa e).finalId = [] ∧
        Surrounds (f.toNfa e).graph (f.toNfa e).marker around' := by
  have hnumber : ∀ p ∈ f.order, (f.order[f.number p]?).elim [] around = around p := by
    intro p hp
    rw [number, List.getElem?_idxOf hp]
    rfl
  have hentry := entry_mem_order hs
  refine ⟨fun i => (f.order[i]?).elim [] around, ?_, ?_, ?_, fun i o j hstep => ?_⟩
  · exact (hnumber _ hentry).trans h.entry.1
  · exact (marker_toNfa hentry).trans h.entry.2
  · exact (hnumber _ (exit_mem_order hs)).trans h.exit.1
  · obtain ⟨p, hp, rfl, q, hf, rfl⟩ := graph_toNfa.mp hstep
    have hq := step_mem_order hs hf hp
    beta_reduce
    rw [hnumber p hp, hnumber q hq, marker_toNfa hq]
    exact h.surrounds p o q hf

end Fragment

namespace Marker

variable {opened opened' : List Nat} {n : Nat} {ms : List Marker}

theorem nest?_cons (m : Marker) (ms : List Marker) :
    nest? opened (m :: ms) = (m.pass? opened).bind (nest? · ms) := by
  rw [nest?, List.foldlM_cons]
  rfl

/-- A group is open only once. -/
theorem nodup_of_nest? (h : nest? opened ms = some opened') (hn : opened.Nodup) : opened'.Nodup := by
  induction ms generalizing opened with
  | nil =>
    cases h
    exact hn
  | cons m ms ih =>
    obtain ⟨between, hpass, hrest⟩ := Option.bind_eq_some_iff.mp (nest?_cons m ms ▸ h)
    refine ih hrest ?_
    match m with
    | ⟨.groupStart, group⟩ =>
      simp only [pass?, Option.ite_none_left_eq_some, Option.some_inj] at hpass
      obtain ⟨hgroup, rfl⟩ := hpass
      exact List.nodup_cons.mpr ⟨hgroup, hn⟩
    | ⟨.groupEnd, group⟩ =>
      simp only [pass?, Option.ite_none_right_eq_some, Option.some_inj] at hpass
      obtain ⟨-, rfl⟩ := hpass
      exact hn.tail

/-- Only its opening opens a group. -/
theorem not_mem_of_nest? (h : nest? opened ms = some opened') (hn : n ∉ opened)
    (hms : ⟨.groupStart, n⟩ ∉ ms) : n ∉ opened' := by
  induction ms generalizing opened with
  | nil =>
    cases h
    exact hn
  | cons m ms ih =>
    obtain ⟨between, hpass, hrest⟩ := Option.bind_eq_some_iff.mp (nest?_cons m ms ▸ h)
    refine ih hrest ?_ fun hmem => hms (List.mem_cons_of_mem _ hmem)
    match m with
    | ⟨.groupStart, group⟩ =>
      simp only [pass?, Option.ite_none_left_eq_some, Option.some_inj] at hpass
      obtain ⟨-, rfl⟩ := hpass
      have hne : n ≠ group := fun heq => hms (heq ▸ List.mem_cons_self)
      simp [hne, hn]
    | ⟨.groupEnd, group⟩ =>
      simp only [pass?, Option.ite_none_right_eq_some, Option.some_inj] at hpass
      obtain ⟨-, rfl⟩ := hpass
      exact fun hmem => hn (List.mem_of_mem_tail hmem)

/-- If the outermost group is opened once and closed at the end, it is not closed before. -/
theorem close_not_mem_of_nest? (h : nest? [] (⟨.groupStart, n⟩ :: ms ++ [⟨.groupEnd, n⟩]) = some [])
    (hms : ⟨.groupStart, n⟩ ∉ ms) : ⟨.groupEnd, n⟩ ∉ ms := by
  intro hmem
  obtain ⟨before, after, rfl⟩ := List.append_of_mem hmem
  rw [nest?_append, Option.bind_eq_some_iff] at h
  obtain ⟨atEnd, hinner, hlast⟩ := h
  rw [nest?_cons, Option.bind_eq_some_iff] at hinner
  obtain ⟨opened, hopen, hinner⟩ := hinner
  rw [nest?_append, Option.bind_eq_some_iff] at hinner
  obtain ⟨atClose, hbefore, hafter⟩ := hinner
  rw [nest?_cons, Option.bind_eq_some_iff] at hafter
  obtain ⟨closed, hclose, hafter⟩ := hafter
  have hopened : [n] = opened := by simpa [pass?] using hopen
  have hnodup : atClose.Nodup := nodup_of_nest? hbefore (hopened ▸ List.nodup_singleton n)
  simp only [pass?, Option.ite_none_right_eq_some, Option.some_inj] at hclose
  obtain ⟨hhead, rfl⟩ := hclose
  obtain ⟨rest, rfl⟩ := List.head?_eq_some_iff.mp hhead
  -- Nothing opens the group again, so there is nothing to close at the end.
  have hgone : n ∉ atEnd := not_mem_of_nest? hafter (List.nodup_cons.mp hnodup).1
    fun hin => hms (List.mem_append_right _ (List.mem_cons_of_mem _ hin))
  simp only [nest?, List.foldlM_cons, List.foldlM_nil, pass?] at hlast
  split at hlast
  · rename_i hhead'
    exact hgone (List.mem_of_head? hhead')
  · cases hlast

end Marker

namespace Nfa

variable {nfa : Nfa} {π : Steps} {o : Option Char} {p q gate : Nat} {around : Nat → List Nat}
  {outside : Nat → Prop}

theorem passed_append : nfa.passed (π ++ [(o, q)]) = nfa.passed π ++ (nfa.marker q).toList := by
  rw [passed, visits_append, List.filterMap_append]
  cases hm : nfa.marker q <;> simp [passed, hm]

theorem passed_nil : nfa.passed [] = (nfa.marker nfa.entry).toList := by
  cases hm : nfa.marker nfa.entry <;> simp [passed, visits, Steps.visits, hm]

/-- However a path gets to a node, the groups around the node are those that it has opened and not
closed. -/
theorem nest?_passed (h : Surrounds nfa.graph nfa.marker around) (hentry : around nfa.entry = [])
    (hmarker : nfa.marker nfa.entry = none) (hπ : nfa.graph.Path nfa.entry π p) :
    Marker.nest? [] (nfa.passed π) = some (around p) := by
  induction hπ with
  | nil =>
    rw [passed_nil, hmarker, hentry]
    rfl
  | @step π p r o hπ hs ih =>
    rw [passed_append, Marker.nest?_append, ih]
    exact h p o r hs

/-- The match starts once on a path, where the path passes the gate. -/
theorem passed_of_gated (h : Gated nfa.graph nfa.marker outside gate nfa.entry nfa.finalId)
    (hπ : nfa.graph.Path nfa.entry π p) :
    (outside p → nfa.passed π = if p = gate then [matchStarts] else []) ∧
      (¬outside p → ∃ ms, nfa.passed π = matchStarts :: ms ∧ matchStarts ∉ ms) := by
  have houtside : ∀ q, outside q →
      (nfa.marker q).toList = if q = gate then [matchStarts] else [] := by
    intro q ho
    split
    · rename_i hgate
      rw [hgate, h.marker_gate]
      rfl
    · rename_i hgate
      rw [h.marker_outside q ho hgate]
      rfl
  induction hπ with
  | nil =>
    refine ⟨fun ho => passed_nil.trans (houtside _ ho), fun ho => (ho h.entry_outside).elim⟩
  | @step π p q o hπ hs ih =>
    rw [passed_append]
    refine ⟨fun ho => ?_, fun ho => ?_⟩
    · have hp : outside p := by
        by_contra hp
        exact h.step_inside p o q hs hp ho
      have hgate : p ≠ gate := fun heq => h.step_gate o q (heq ▸ hs) ho
      rw [ih.1 hp, if_neg hgate, houtside q ho, List.nil_append]
    · have hmarker : matchStarts ∉ (nfa.marker q).toList := fun hmem =>
        h.marker_inside q ho (Option.mem_toList.mp hmem)
      by_cases hp : outside p
      · have hgate : p = gate := by
          by_contra hgate
          exact ho (h.step_outside p o q hs hp hgate)
        exact ⟨(nfa.marker q).toList, by rw [ih.1 hp, if_pos hgate]; rfl, hmarker⟩
      · obtain ⟨ms, hms, hnot⟩ := ih.2 hp
        refine ⟨ms ++ (nfa.marker q).toList, by rw [hms]; rfl, fun hmem => ?_⟩
        exact (List.mem_append.mp hmem).elim hnot hmarker

/-- The match ends last on a path to the final node. -/
theorem passed_of_endsMatch (h : EndsMatch nfa.graph nfa.marker nfa.finalId)
    (hne : nfa.entry ≠ nfa.finalId) (hmarker : nfa.marker nfa.entry = none)
    (hπ : nfa.graph.Path nfa.entry π nfa.finalId) : ∃ ms, nfa.passed π = ms ++ [matchEnds] := by
  generalize hfinal : nfa.finalId = final at hπ
  cases hπ with
  | nil => exact (hne hfinal.symm).elim
  | @step π p _ o hπ hs =>
    subst hfinal
    obtain ⟨-, hp⟩ := h.step_final p o hs
    rw [passed_append, h.marker_final, Option.toList_none, List.append_nil]
    cases hπ with
    | nil =>
      rw [hmarker] at hp
      cases hp
    | @step π _ _ o hπ hs => exact ⟨nfa.passed π, by rw [passed_append, hp]; rfl⟩

end Nfa

/-- On each path through a compiled automaton the markers are well nested: a group is closed when it is
the innermost open one, and is not opened within itself. The whole match is around all of them. -/
theorem Regex.markers_balanced {text : String} {re : Regex} (h : Regex.compile text = .ok re) {π : Steps}
    (hπ : re.nfa.graph.Path re.nfa.entry π re.nfa.finalId) :
    Marker.nest? [] (re.nfa.passed π) = some [] ∧
      ∃ inner, re.nfa.passed π = matchStarts :: inner ++ [matchEnds] ∧ ∀ m ∈ inner, m.group ≠ 0 := by
  obtain ⟨left, right, body, hparse, hp, hnfa⟩ := exists_toNfa h
  have hn := Pattern.numbers_nodup_of_parse hparse
  obtain ⟨outside, gate, hr⟩ := Pattern.exists_recognizes hp hnfa
  have hends := (Pattern.enclosed_toNfa hp hn hnfa).1
  obtain ⟨f, hf, hre⟩ := Pattern.exists_of_anchored_toNfa hnfa
  obtain ⟨around, hnests⟩ := Fragment.exists_nests_anchored hf hp hn
  obtain ⟨around, hentry, hmarker, hfinal, hsurrounds⟩ :=
    hnests.toNfa (Fragment.ofPattern_spec _ hf).1 right
  rw [← hre] at hentry hmarker hfinal hsurrounds
  have hnest : Marker.nest? [] (re.nfa.passed π) = some [] := by
    rw [Nfa.nest?_passed hsurrounds hentry hmarker hπ, hfinal]
  have hne : re.nfa.entry ≠ re.nfa.finalId := fun heq =>
    hr.gated.final_inside (heq ▸ hr.gated.entry_outside)
  obtain ⟨ms, hstarts, hnot⟩ := (Nfa.passed_of_gated hr.gated hπ).2 hr.gated.final_inside
  obtain ⟨ms', hends⟩ := Nfa.passed_of_endsMatch hends hne hmarker hπ
  obtain ⟨inner, rfl, rfl⟩ : ∃ inner, ms' = matchStarts :: inner ∧ ms = inner ++ [matchEnds] := by
    rw [hstarts] at hends
    cases ms' with
    | nil => cases hends
    | cons m inner =>
      obtain ⟨rfl, hinner⟩ := List.cons.inj hends
      exact ⟨inner, rfl, hinner⟩
  have hstart : matchStarts ∉ inner := fun hmem => hnot (List.mem_append_left _ hmem)
  have hclose : matchEnds ∉ inner := Marker.close_not_mem_of_nest? (hends ▸ hnest) hstart
  refine ⟨hnest, inner, hends, fun m hm hzero => ?_⟩
  match m, hzero with
  | ⟨.groupStart, _⟩, rfl => exact hstart hm
  | ⟨.groupEnd, _⟩, rfl => exact hclose hm

/-- A path through an automaton of two branches in a loop. It takes the first branch and then the other. -/
def twoRounds : Steps :=
  (List.range' 1 8).map (none, ·) ++ (some 'a', 9) :: (List.range' 10 5 ++ [3, 4, 5, 18]).map (none, ·) ++
    (some 'b', 19) :: (List.range' 12 6).map (none, ·)

/-- The second round opens the outer group again, but not the inner one. -/
theorem Regex.markers_balanced_two_rounds : ∃ re, Regex.compile "^((a)|b)+" = .ok re ∧
    re.nfa.graph.Path re.nfa.entry twoRounds re.nfa.finalId ∧ twoRounds.word = ['a', 'b'] ∧
      re.nfa.passed twoRounds = [matchStarts, ⟨.groupStart, 1⟩, ⟨.groupStart, 2⟩, ⟨.groupEnd, 2⟩,
        ⟨.groupEnd, 1⟩, ⟨.groupStart, 1⟩, ⟨.groupEnd, 1⟩, matchEnds] ∧
      Marker.nest? [] (re.nfa.passed twoRounds) = some [] := by
  have hrun : (Regex.compile "^((a)|b)+").map (fun re =>
      (decide (re.nfa.graph.Path re.nfa.entry twoRounds re.nfa.finalId), re.nfa.passed twoRounds)) =
      .ok (true, [matchStarts, ⟨.groupStart, 1⟩, ⟨.groupStart, 2⟩, ⟨.groupEnd, 2⟩, ⟨.groupEnd, 1⟩,
        ⟨.groupStart, 1⟩, ⟨.groupEnd, 1⟩, matchEnds]) := by
    cbv
  obtain ⟨re, hre, hpath⟩ := exists_of_map_eq_ok hrun
  obtain ⟨hpath, hpassed⟩ := Prod.mk.inj hpath
  have hpath := of_decide_eq_true hpath
  exact ⟨re, hre, hpath, rfl, hpassed, (markers_balanced hre hpath).1⟩

end PatternAutomata
