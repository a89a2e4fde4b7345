import PatternAutomata.Proofs.Numbering
import PatternAutomata.Search.Frontier

/-!
# What arrives at a node

The arrivals that are possible after reading a word do not depend on the mode of a search: they start
at the entry and go on from whatever a visit leads to. In front of the gate captures are blank. Behind
it they tell where the match started, and the word splits there into one that leads from the entry to
the gate and one that leads from the gate on.
-/

namespace PatternAutomata

open PatternAutomata.Graph

/-- The place that is reached by reading a word from the start of a text. -/
def placeAfter (w : List Char) : Int := w.length - 1

@[simp] theorem placeAfter_nil : placeAfter [] = -1 := rfl

@[simp] theorem placeAfter_append (u v : List Char) :
    placeAfter (u ++ v) = placeAfter u + v.length := by
  simp only [placeAfter, List.length_append]
  omega

theorem neg_one_le_placeAfter (w : List Char) : -1 ≤ placeAfter w := by
  simp only [placeAfter]
  omega

namespace Captures

/-- There is a record for each of the groups, and none was entered after the place. -/
structure Fits (captures : Captures) (count : Nat) (place : Int) : Prop where
  size_eq : captures.groups.length = count
  opened_le : ∀ g ∈ captures.groups, ∀ s, g.opened = some s → -1 ≤ s ∧ s ≤ place

variable {captures captures' : Captures} {count group : Nat} {place place' : Int}

theorem fits_blank (count : Nat) (place : Int) : (blank count).Fits count place := by
  refine ⟨List.length_replicate, fun g hg s hs => ?_⟩
  rw [(List.mem_replicate.mp hg).2] at hs
  cases hs

theorem Fits.mono (h : captures.Fits count place) (hp : place ≤ place') :
    captures.Fits count place' :=
  ⟨h.size_eq, fun g hg s hs => ⟨(h.opened_le g hg s hs).1, (h.opened_le g hg s hs).2.trans hp⟩⟩

theorem Fits.matchStart_le (h : captures.Fits count place) {s : Int}
    (hs : captures.matchStart = some s) : -1 ≤ s ∧ s ≤ place := by
  obtain ⟨g, hg, hs⟩ := Option.bind_eq_some_iff.mp hs
  exact h.opened_le g (List.mem_of_getElem? hg) s hs

theorem Fits.set (h : captures.Fits count place) {g : GroupRecord}
    (hg : ∀ s, g.opened = some s → -1 ≤ s ∧ s ≤ place) :
    Fits ⟨captures.groups.set group g⟩ count place := by
  refine ⟨by simpa using h.size_eq, fun g' hg' s hs => ?_⟩
  rcases List.mem_or_eq_of_mem_set hg' with hg' | rfl
  · exact h.opened_le g' hg' s hs
  · exact hg s hs

theorem exists_openGroup (h : captures.Fits count place) (hg : group < count) (hp : -1 ≤ place) :
    ∃ captures', captures.openGroup group place = .ok captures' ∧ captures'.Fits count place := by
  rw [openGroup, List.getElem?_eq_getElem (h.size_eq ▸ hg)]
  refine ⟨_, rfl, h.set fun s hs => ?_⟩
  cases hs
  exact ⟨hp, Int.le_refl place⟩

theorem exists_closeGroup (h : captures.Fits count place) (hg : group < count) :
    ∃ captures', captures.closeGroup group place = .ok captures' ∧ captures'.Fits count place := by
  have hlt : group < captures.groups.length := h.size_eq ▸ hg
  rw [closeGroup, List.getElem?_eq_getElem hlt]
  have hle := h.opened_le _ (List.getElem_mem hlt)
  cases hopened : captures.groups[group].opened with
  | none => exact ⟨captures, by simp only [hopened], h⟩
  | some s =>
    have hs := hle s hopened
    refine ⟨_, by simp only [hopened, if_neg (Int.not_lt.mpr hs.2)]; rfl, h.set fun s' hs' => ?_⟩
    cases hs'
    exact hs

/-- Captures that fit pass any marker of an existing group. -/
theorem exists_pass (h : captures.Fits count place) (hp : -1 ≤ place) {marker : Option Marker}
    (hm : ∀ m, marker = some m → m.group < count) :
    ∃ captures', captures.pass marker place = .ok captures' ∧ captures'.Fits count place := by
  cases marker with
  | none => exact ⟨captures, rfl, h⟩
  | some m =>
    obtain ⟨role, group⟩ := m
    cases role with
    | groupStart => exact exists_openGroup h (hm _ rfl) hp
    | groupEnd => exact exists_closeGroup h (hm _ rfl)

theorem openGroup_eq_ok (h : captures.openGroup group place = .ok captures') :
    ∃ g, captures.groups[group]? = some g ∧
      captures' = ⟨captures.groups.set group { g with opened := some place }⟩ := by
  simp only [openGroup] at h
  split at h
  · cases h
  · rename_i g hg
    exact ⟨g, hg, (Except.ok.inj h).symm⟩

theorem closeGroup_eq_ok (h : captures.closeGroup group place = .ok captures') :
    captures' = captures ∨ ∃ g start, captures.groups[group]? = some g ∧ g.opened = some start ∧
      captures' = ⟨captures.groups.set group { g with span := some ⟨start, place⟩ }⟩ := by
  simp only [closeGroup] at h
  split at h
  · cases h
  · rename_i g hg
    split at h
    · exact .inl (Except.ok.inj h).symm
    · rename_i start hstart
      split at h
      · cases h
      · exact .inr ⟨g, start, hg, hstart, (Except.ok.inj h).symm⟩

/-- Where a group was last entered. -/
def opened? (captures : Captures) (group : Nat) : Option Int := captures.groups[group]?.bind (·.opened)

theorem opened?_blank (count k : Nat) : (blank count).opened? k = none := by
  simp [opened?, blank, List.getElem?_replicate]

theorem span?_blank (count k : Nat) : (blank count).span? k = none := by
  simp [span?, blank, List.getElem?_replicate]

/-- A group is entered at the marker that starts it, and nowhere else. -/
theorem opened?_of_pass {marker : Option Marker} (h : captures.pass marker place = .ok captures')
    (k : Nat) : captures'.opened? k =
      if marker = some ⟨.groupStart, k⟩ then some place else captures.opened? k := by
  cases marker with
  | none =>
    cases h
    simp
  | some m =>
    obtain ⟨role, group⟩ := m
    cases role with
    | groupStart =>
      obtain ⟨g, hg, rfl⟩ := openGroup_eq_ok h
      obtain ⟨hlt, rfl⟩ := List.getElem?_eq_some_iff.mp hg
      by_cases hk : group = k
      · subst hk
        simp [opened?, hlt]
      · simp [opened?, hk, List.getElem?_set_ne hk]
    | groupEnd =>
      rcases closeGroup_eq_ok h with rfl | ⟨g, start, hg, hstart, rfl⟩
      · simp
      · obtain ⟨hlt, rfl⟩ := List.getElem?_eq_some_iff.mp hg
        by_cases hk : group = k
        · subst hk
          simp [opened?, hlt]
        · simp [opened?, List.getElem?_set_ne hk]

/-- A group that was entered is given a span at the marker that ends it, and nowhere else. -/
theorem span?_of_pass {marker : Option Marker} (h : captures.pass marker place = .ok captures')
    (k : Nat) : captures'.span? k = if marker = some ⟨.groupEnd, k⟩ then
      ((captures.opened? k).map (⟨·, place⟩)).or (captures.span? k) else captures.span? k := by
  cases marker with
  | none =>
    cases h
    simp
  | some m =>
    obtain ⟨role, group⟩ := m
    cases role with
    | groupStart =>
      obtain ⟨g, hg, rfl⟩ := openGroup_eq_ok h
      obtain ⟨hlt, rfl⟩ := List.getElem?_eq_some_iff.mp hg
      by_cases hk : group = k
      · subst hk
        simp [span?, hlt]
      · simp [span?, List.getElem?_set_ne hk]
    | groupEnd =>
      by_cases hk : group = k
      · subst hk
        simp only [pass, closeGroup] at h
        split at h
        · cases h
        · rename_i g hg
          obtain ⟨hlt, rfl⟩ := List.getElem?_eq_some_iff.mp hg
          split at h
          · rename_i hopened
            cases h
            simp [opened?, hlt, hopened]
          · rename_i start hopened
            split at h
            · cases h
            · cases h
              simp [opened?, span?, hlt, hopened]
      · rcases closeGroup_eq_ok h with rfl | ⟨g, start, hg, hstart, rfl⟩
        · simp [hk]
        · simp [span?, hk, List.getElem?_set_ne hk]

/-- The marker that starts the whole match sets where the match starts. -/
theorem pass_matchStarts (h : captures.pass (some matchStarts) place = .ok captures') :
    captures'.matchStart = some place ∧ captures'.span? 0 = captures.span? 0 :=
  ⟨(opened?_of_pass h 0).trans (if_pos rfl), (span?_of_pass h 0).trans (if_neg (by decide))⟩

/-- Any other marker leaves it, and the whole match can only be given a span from there on. -/
theorem pass_of_ne_matchStarts {marker : Option Marker}
    (h : captures.pass marker place = .ok captures') (hm : marker ≠ some matchStarts) :
    captures'.matchStart = captures.matchStart ∧
      (captures'.span? 0 = captures.span? 0 ∨
        ∃ s, captures.matchStart = some s ∧ captures'.span? 0 = some ⟨s, place⟩) := by
  refine ⟨(opened?_of_pass h 0).trans (if_neg hm), ?_⟩
  have hspan := span?_of_pass h 0
  split at hspan
  · cases hs : captures.opened? 0 with
    | none => exact .inl (by rw [hspan, hs, Option.map_none, Option.none_or])
    | some s => exact .inr ⟨s, hs, by rw [hspan, hs, Option.map_some, Option.some_or]⟩
  · exact .inl hspan

end Captures

namespace Nfa

/-- What can arrive at a node after reading a word. -/
inductive Arrives (nfa : Nfa) : List Char → Arrival → Prop
  | entry : Arrives nfa [] ⟨nfa.entry, .blank nfa.groupCount⟩
  | go {w : List Char} {a : Arrival} {t : Thread} {next : List Arrival} {o : Option Char} {q : Nat}
      (ha : Arrives nfa w a) (hv : a.visit nfa (placeAfter w) = .ok (t, next))
      (hq : t.node.LeadsTo o q) : Arrives nfa (w ++ o.toList) ⟨q, t.captures⟩

/-- No match has started on the way to the node. -/
structure Before (nfa : Nfa) (w : List Char) (p : Nat) (captures : Captures) : Prop where
  matchStart_eq : captures.matchStart = none
  span_eq : captures.span? 0 = none
  spells : nfa.graph.Spells nfa.entry w p

/-- A match started at the gate, between the two words. -/
structure Within (nfa : Nfa) (gate : Nat) (u v : List Char) (p : Nat) (captures : Captures) : Prop where
  matchStart_eq : captures.matchStart = some (placeAfter u)
  span_start : ∀ span, captures.span? 0 = some span → span.start = placeAfter u
  spells_gate : nfa.graph.Spells nfa.entry u gate
  spells : nfa.graph.Spells gate v p

variable {nfa : Nfa} {outside : Nat → Prop} {gate p q : Nat} {w u v : List Char} {a b : Arrival}
  {t : Thread} {next : List Arrival} {place : Int} {o : Option Char}

/-- A visit passes the marker of the node and goes on along its epsilons. -/
theorem visit_eq_ok (hv : a.visit nfa place = .ok (t, next)) :
    nfa.nodes[a.target]? = some t.node ∧ a.captures.pass t.node.marker place = .ok t.captures ∧
      next = t.node.epsilons.map (⟨·, t.captures⟩) := by
  simp only [Arrival.visit] at hv
  split at hv
  · cases hv
  · rename_i node hnode
    split at hv
    · cases hv
    · rename_i captures hpass
      cases hv
      exact ⟨node_eq_ok_iff.mp hnode, hpass, rfl⟩

theorem marker_of_visit (hv : a.visit nfa place = .ok (t, next)) :
    nfa.marker a.target = t.node.marker := by
  rw [Nfa.marker, (visit_eq_ok hv).1]
  rfl

theorem graph_of_visit (hv : a.visit nfa place = .ok (t, next)) :
    nfa.graph a.target o q ↔ t.node.LeadsTo o q := by
  obtain ⟨hnode, -, -⟩ := visit_eq_ok hv
  constructor
  · rintro ⟨node, hnode', hs⟩
    rw [hnode] at hnode'
    cases hnode'
    exact hs
  · exact fun hs => ⟨t.node, hnode, hs⟩

theorem exists_visit (hw : nfa.WellFormed) (hlt : a.target < nfa.size)
    (hf : a.captures.Fits nfa.groupCount place) (hp : -1 ≤ place) :
    ∃ t next, a.visit nfa place = .ok (t, next) ∧ t.captures.Fits nfa.groupCount place := by
  have hnode : nfa.nodes[a.target]? = some nfa.nodes[a.target] := Array.getElem?_eq_getElem hlt
  have hmarker : ∀ m, nfa.nodes[a.target].marker = some m → m.group < nfa.groupCount := by
    intro m hm
    exact hw.group_lt a.target m (by rw [Nfa.marker, hnode, Option.bind_some, hm])
  obtain ⟨captures, hpass, hf⟩ := Captures.exists_pass hf hp hmarker
  refine ⟨⟨nfa.nodes[a.target], captures⟩, nfa.nodes[a.target].epsilons.map (⟨·, captures⟩), ?_, hf⟩
  simp only [Arrival.visit, node_eq_ok_iff.mpr hnode, hpass]

theorem Arrives.fits (ha : nfa.Arrives w a) (hw : nfa.WellFormed) :
    a.target < nfa.size ∧ a.captures.Fits nfa.groupCount (placeAfter w) := by
  induction ha with
  | entry => exact ⟨hw.entry_lt, Captures.fits_blank _ _⟩
  | @go w a t next o q ha hv hq ih =>
    obtain ⟨hlt, hf⟩ := ih
    obtain ⟨t', next', hv', hf'⟩ := exists_visit hw hlt hf (neg_one_le_placeAfter w)
    rw [hv] at hv'
    cases hv'
    refine ⟨hw.step_lt _ _ _ ((graph_of_visit hv).mpr hq), hf'.mono ?_⟩
    rw [placeAfter_append]
    omega

theorem Arrives.fits_of_visit (ha : nfa.Arrives w a) (hw : nfa.WellFormed)
    (hv : a.visit nfa (placeAfter w) = .ok (t, next)) :
    t.captures.Fits nfa.groupCount (placeAfter w) := by
  obtain ⟨hlt, hf⟩ := ha.fits hw
  obtain ⟨t', next', hv', hf'⟩ := exists_visit hw hlt hf (neg_one_le_placeAfter w)
  rw [hv] at hv'
  cases hv'
  exact hf'

/-- The word that was read leads to where it arrives. -/
theorem Arrives.spells_entry (ha : nfa.Arrives w a) : nfa.graph.Spells nfa.entry w a.target := by
  induction ha with
  | entry => exact .refl _
  | @go w a t next o q _ hv hq ih =>
    exact ih.trans (.single ((graph_of_visit hv).mpr hq))

/-- Whatever arrives can be visited. -/
theorem Arrives.visit (ha : nfa.Arrives w a) (hw : nfa.WellFormed) :
    ∃ t next, a.visit nfa (placeAfter w) = .ok (t, next) := by
  obtain ⟨hlt, hf⟩ := ha.fits hw
  obtain ⟨t, next, hv, -⟩ := exists_visit hw hlt hf (neg_one_le_placeAfter w)
  exact ⟨t, next, hv⟩

/-- A visit sets the start of the match at the marker for it, and nowhere else. -/
theorem start_of_visit_marker (hv : a.visit nfa place = .ok (t, next)) :
    t.start = if nfa.marker a.target = some matchStarts then some place else a.captures.matchStart := by
  obtain ⟨-, hpass, -⟩ := visit_eq_ok hv
  rw [← marker_of_visit hv] at hpass
  split
  · rename_i hm
    rw [hm] at hpass
    exact (Captures.pass_matchStarts hpass).1
  · rename_i hm
    exact (Captures.pass_of_ne_matchStarts hpass hm).1

/-- Every path from where something arrives is taken. -/
theorem Arrives.exists_of_spells (ha : nfa.Arrives w a) (hw : nfa.WellFormed)
    (hs : nfa.graph.Spells a.target v q) : ∃ b, nfa.Arrives (w ++ v) b ∧ b.target = q := by
  generalize hp : a.target = p at hs
  induction hs generalizing w a with
  | refl p => exact ⟨a, by rwa [List.append_nil], hp⟩
  | @step p q r o v hs _ ih =>
    subst hp
    obtain ⟨t, next, hv⟩ := ha.visit hw
    obtain ⟨b, hb, hbr⟩ := ih (ha.go hv ((graph_of_visit hv).mp hs)) rfl
    exact ⟨b, by rwa [List.append_assoc] at hb, hbr⟩

/-- At the gate a visit starts the match, and everywhere else it leaves the start as it is. -/
theorem start_of_visit (hg : Gated nfa.graph nfa.marker outside gate nfa.entry nfa.finalId)
    (hv : a.visit nfa place = .ok (t, next)) :
    t.start = if a.target = gate then some place else a.captures.matchStart := by
  rw [start_of_visit_marker hv]
  simp only [hg.marker_iff]

/-- A visit in front of the gate leaves the captures as they are. -/
theorem Before.visit (hb : nfa.Before w a.target a.captures)
    (hg : Gated nfa.graph nfa.marker outside gate nfa.entry nfa.finalId)
    (hv : a.visit nfa (placeAfter w) = .ok (t, next)) (ho : outside a.target) (hne : a.target ≠ gate) :
    nfa.Before w a.target t.captures := by
  obtain ⟨-, hpass, -⟩ := visit_eq_ok hv
  rw [← marker_of_visit hv, hg.marker_outside _ ho hne] at hpass
  have hcaptures : a.captures = t.captures := Except.ok.inj hpass
  exact hcaptures ▸ hb

/-- A visit of the gate starts the match. -/
theorem Before.visit_gate (hb : nfa.Before w a.target a.captures)
    (hg : Gated nfa.graph nfa.marker outside gate nfa.entry nfa.finalId)
    (hv : a.visit nfa (placeAfter w) = .ok (t, next)) (hgate : a.target = gate) :
    nfa.Within gate w [] a.target t.captures := by
  obtain ⟨-, hpass, -⟩ := visit_eq_ok hv
  rw [← marker_of_visit hv, hgate, hg.marker_gate] at hpass
  obtain ⟨hstart, hspan⟩ := Captures.pass_matchStarts hpass
  rw [hgate] at hb ⊢
  refine ⟨hstart, fun span hs => ?_, hb.spells, .refl gate⟩
  rw [hspan, hb.span_eq] at hs
  cases hs

/-- A visit behind the gate keeps the start of the match. -/
theorem Within.visit (hi : nfa.Within gate u v a.target a.captures)
    (hg : Gated nfa.graph nfa.marker outside gate nfa.entry nfa.finalId)
    (hv : a.visit nfa place = .ok (t, next)) (ho : ¬outside a.target) :
    nfa.Within gate u v a.target t.captures := by
  obtain ⟨-, hpass, -⟩ := visit_eq_ok hv
  rw [← marker_of_visit hv] at hpass
  obtain ⟨hstart, hspan⟩ := Captures.pass_of_ne_matchStarts hpass (hg.marker_inside _ ho)
  refine ⟨hstart.trans hi.matchStart_eq, fun span hs => ?_, hi.spells_gate, hi.spells⟩
  rcases hspan with hspan | ⟨s, hs', hspan⟩
  · exact hi.span_start span (hspan ▸ hs)
  · rw [hi.matchStart_eq] at hs'
    cases hs'
    rw [hspan] at hs
    cases hs
    rfl

/-- What has arrived in front of the gate has not started a match, and behind it it has. -/
theorem Arrives.before_or_within (ha : nfa.Arrives w a)
    (hg : Gated nfa.graph nfa.marker outside gate nfa.entry nfa.finalId) :
    outside a.target ∧ nfa.Before w a.target a.captures ∨
      ¬outside a.target ∧ ∃ u v, w = u ++ v ∧ nfa.Within gate u v a.target a.captures := by
  induction ha with
  | entry =>
    exact .inl ⟨hg.entry_outside, Captures.opened?_blank _ 0, Captures.span?_blank _ 0, .refl _⟩
  | @go w a t next o q ha hv hq ih =>
    have hs := (graph_of_visit hv).mpr hq
    have hspells : ∀ {p u}, nfa.graph.Spells p u a.target → nfa.graph.Spells p (u ++ o.toList) q :=
      fun hp => hp.trans (.single hs)
    have hwithin : ∀ {u v}, nfa.Within gate u v a.target t.captures →
        nfa.Within gate u (v ++ o.toList) q t.captures :=
      fun hi => ⟨hi.matchStart_eq, hi.span_start, hi.spells_gate, hspells hi.spells⟩
    rcases ih with ⟨ho, hb⟩ | ⟨ho, u, v, rfl, hi⟩
    · by_cases hgate : a.target = gate
      · have hi := hb.visit_gate hg hv hgate
        exact .inr ⟨hg.step_gate _ _ (hgate ▸ hs), w, o.toList, rfl, hwithin hi⟩
      · obtain ⟨hstart, hspan, hp⟩ := hb.visit hg hv ho hgate
        exact .inl ⟨hg.step_outside _ _ _ hs ho hgate, hstart, hspan, hspells hp⟩
    · exact .inr ⟨hg.step_inside _ _ _ hs ho, u, v ++ o.toList, List.append_assoc ..,
        hwithin (hi.visit hg hv ho)⟩

theorem Arrives.matchStart_of_outside (ha : nfa.Arrives w a)
    (hg : Gated nfa.graph nfa.marker outside gate nfa.entry nfa.finalId) (ho : outside a.target) :
    a.captures.matchStart = none := by
  rcases ha.before_or_within hg with ⟨-, hb⟩ | ⟨ho', -⟩
  · exact hb.matchStart_eq
  · exact (ho' ho).elim

theorem Arrives.within (ha : nfa.Arrives w a)
    (hg : Gated nfa.graph nfa.marker outside gate nfa.entry nfa.finalId) (ho : ¬outside a.target) :
    ∃ u v, w = u ++ v ∧ nfa.Within gate u v a.target a.captures := by
  rcases ha.before_or_within hg with ⟨ho', -⟩ | ⟨-, h⟩
  · exact (ho ho').elim
  · exact h

/-- Every path from where something arrives is taken, and keeps the start of a match. -/
theorem Arrives.spells (ha : nfa.Arrives w a) (hw : nfa.WellFormed)
    (hg : Gated nfa.graph nfa.marker outside gate nfa.entry nfa.finalId)
    (hs : nfa.graph.Spells a.target v q) :
    ∃ b, nfa.Arrives (w ++ v) b ∧ b.target = q ∧
      (¬outside a.target → b.captures.matchStart = a.captures.matchStart) := by
  generalize hp : a.target = p at hs
  induction hs generalizing w a with
  | refl p => exact ⟨a, by rwa [List.append_nil], hp, fun _ => rfl⟩
  | @step p q r o v hs _ ih =>
    subst hp
    obtain ⟨t, next, hv⟩ := ha.visit hw
    obtain ⟨b, hb, hbr, hstart⟩ := ih (ha.go hv ((graph_of_visit hv).mp hs)) rfl
    refine ⟨b, by rwa [List.append_assoc] at hb, hbr, fun ho => ?_⟩
    have hne : a.target ≠ gate := fun hgate => ho (hgate ▸ hg.gate_outside)
    have hkeep := start_of_visit hg hv
    rw [if_neg hne] at hkeep
    exact (hstart (hg.step_inside _ _ _ hs ho)).trans hkeep

/-- A path through the gate starts a match where it passes it. -/
theorem exists_arrives (hw : nfa.WellFormed)
    (hg : Gated nfa.graph nfa.marker outside gate nfa.entry nfa.finalId)
    (hu : nfa.graph.Spells nfa.entry u gate) (hv : nfa.graph.Spells gate v q) (hne : gate ≠ q) :
    ∃ b, nfa.Arrives (u ++ v) b ∧ b.target = q ∧ b.captures.matchStart = some (placeAfter u) := by
  obtain ⟨a, ha, hgate, -⟩ := (Arrives.entry : nfa.Arrives [] _).spells hw hg hu
  obtain ⟨t, next, hvisit⟩ := ha.visit hw
  have hstart := start_of_visit hg hvisit
  rw [if_pos hgate] at hstart
  cases hv with
  | refl => exact (hne rfl).elim
  | @step _ r _ o v hs hr =>
    have hs' : nfa.graph a.target o r := hgate ▸ hs
    obtain ⟨b, hb, hbq, hkeep⟩ := (ha.go hvisit ((graph_of_visit hvisit).mp hs')).spells hw hg hr
    refine ⟨b, ?_, hbq, (hkeep (hg.step_gate _ _ hs)).trans hstart⟩
    rwa [List.nil_append, List.append_assoc] at hb

/-- A path from the gate on is taken by a thread that has the start of the match. -/
theorem exists_thread (hw : nfa.WellFormed)
    (hg : Gated nfa.graph nfa.marker outside gate nfa.entry nfa.finalId)
    (hu : nfa.graph.Spells nfa.entry u gate) (hv : nfa.graph.Spells gate v q) :
    ∃ b t next, nfa.Arrives (u ++ v) b ∧ b.target = q ∧
      b.visit nfa (placeAfter (u ++ v)) = .ok (t, next) ∧ t.start = some (placeAfter u) := by
  by_cases hne : gate = q
  · -- At the gate itself the visit starts the match.
    subst hne
    obtain rfl := hg.spells_gate.mp hv
    obtain ⟨b, hb, hbq, -⟩ := (Arrives.entry : nfa.Arrives [] _).spells hw hg hu
    rw [List.nil_append] at hb
    rw [List.append_nil]
    obtain ⟨t, next, hvisit⟩ := hb.visit hw
    exact ⟨b, t, next, hb, hbq, hvisit, by rw [start_of_visit hg hvisit, if_pos hbq]⟩
  · obtain ⟨b, hb, hbq, hstart⟩ := exists_arrives hw hg hu hv hne
    obtain ⟨t, next, hvisit⟩ := hb.visit hw
    refine ⟨b, t, next, hb, hbq, hvisit, ?_⟩
    rw [start_of_visit hg hvisit, if_neg (fun h => hne (h.symm.trans hbq)), hstart]

end Nfa

end PatternAutomata
