import PatternAutomata.Proofs.Numbering

/-!
# The inside of a group

In the automaton of a pattern a group is entered at its opening only, and its closing lies inside. So
what a path reads from the last time it entered the group to the closing is a word of the group,
whether the group stands in a loop, in another group or before the rest of the pattern. Since no two
groups have the same number, the markers of a group stand nowhere else.
-/

namespace PatternAutomata

open PatternAutomata.Graph

/-- The steps that lead into a part of a graph. -/
def Graph.into (G : Graph) (inside : Nat → Prop) : Graph := fun p o q => G p o q ∧ inside q

/-- The nodes inside of a group. The group is entered at the opening without reading, and inside of it a
path from there to a closing reads a word of the group. -/
structure Enclosed (G : Graph) (marker : Nat → Option Marker) (number : Nat) (l : Language Char)
    (inside : Nat → Prop) (opening : Nat) : Prop where
  not_inside_of_opens : ∀ p, marker p = some ⟨.groupStart, number⟩ → ¬inside p
  inside_of_closes : ∀ p, marker p = some ⟨.groupEnd, number⟩ → inside p
  enter : ∀ p o q, G p o q → inside q →
    inside p ∨ p = opening ∧ o = none ∧ marker p = some ⟨.groupStart, number⟩
  word_mem : ∀ p v, marker p = some ⟨.groupEnd, number⟩ → (G.into inside).Spells opening v p → v ∈ l

/-- A larger graph keeps the group if it neither leads into it nor reuses its number. -/
theorem Enclosed.lift {G H : Graph} {marker marker' : Nat → Option Marker} {number opening : Nat}
    {l : Language Char} {inside : Nat → Prop} (h : Enclosed G marker number l inside opening)
    (hstep : ∀ p o q, H p o q → inside q → G p o q)
    (hmarker : ∀ p m, m.group = number → (marker' p = some m ↔ marker p = some m)) :
    Enclosed H marker' number l inside opening := by
  have hopens := fun p => hmarker p ⟨.groupStart, number⟩ rfl
  have hcloses := fun p => hmarker p ⟨.groupEnd, number⟩ rfl
  refine ⟨fun p hp => h.not_inside_of_opens p ((hopens p).mp hp),
    fun p hp => h.inside_of_closes p ((hcloses p).mp hp), fun p o q hs hq => ?_, fun p v hp hv => ?_⟩
  · rcases h.enter p o q (hstep p o q hs hq) hq with hp | ⟨hp, ho, hm⟩
    · exact .inl hp
    · exact .inr ⟨hp, ho, (hopens p).mpr hm⟩
  · exact h.word_mem p v ((hcloses p).mp hp)
      (hv.mono fun p o q hs => ⟨hstep p o q hs.1 hs.2, hs.2⟩)

/-- The marker that ends the whole match. -/
def matchEnds : Marker := ⟨.groupEnd, 0⟩

/-- The whole match ends right in front of the final node. -/
structure EndsMatch (G : Graph) (marker : Nat → Option Marker) (final : Nat) : Prop where
  marker_final : marker final = none
  step_final : ∀ p o, G p o final → o = none ∧ marker p = some matchEnds

namespace Fragment

variable {f a b : Fragment} {base number p : Nat} {l : Language Char} {m : Marker}

/-- A group lies among the nodes of a fragment and is not entered at the entry of the fragment. -/
def Encloses (f : Fragment) (base number : Nat) (l : Language Char) : Prop :=
  ∃ inside opening, Enclosed f.graph f.marker number l inside opening ∧
    ∀ p, inside p → base ≤ p ∧ p < f.next ∧ p ≠ f.entry

/-- Beside a fragment without markers of a group, the markers of the group are those of the other. -/
theorem or_marker_iff_left (hb : ∀ x ∈ b.markers, x.2.group ≠ m.group) :
    (a.marker p).or (b.marker p) = some m ↔ a.marker p = some m := by
  rw [Option.or_eq_some_iff, or_iff_left]
  rintro ⟨-, hm⟩
  exact hb _ (exists_mem_of_marker hm) rfl

theorem or_marker_iff_right {base' : Nat} (ha : a.Scoped base) (hb : b.Scoped base')
    (hnext : a.next ≤ base') (hm : ∀ x ∈ a.markers, x.2.group ≠ m.group) :
    (a.marker p).or (b.marker p) = some m ↔ b.marker p = some m := by
  rw [Option.or_eq_some_iff]
  constructor
  · rintro (h | ⟨-, h⟩)
    · exact (hm _ (exists_mem_of_marker h) rfl).elim
    · exact h
  · intro h
    refine .inr ⟨Option.eq_none_iff_forall_ne_some.mpr fun m' hm' => ?_, h⟩
    have := ha.marker_mem _ (exists_mem_of_marker hm')
    have := hb.marker_mem _ (exists_mem_of_marker h)
    omega

/-- A fragment between the markers of a group that has none of them itself is a group. -/
theorem encloses_marked (ha : a.Scoped (base + 4)) (hm : ∀ x ∈ a.markers, x.2.group ≠ number) :
    (marked base number a).Encloses base number a.language := by
  have haentry := ha.entry_mem
  have haexit := ha.exit_mem
  have hastep := fun p o q (hs : a.graph p o q) => ha.step_mem hs
  have hopens : ∀ p, (marked base number a).marker p = some ⟨.groupStart, number⟩ ↔ p = base + 2 := by
    intro p
    rw [marker_marked]
    have hne : a.marker p ≠ some ⟨.groupStart, number⟩ := fun h => hm _ (exists_mem_of_marker h) rfl
    grind
  have hcloses : ∀ p, (marked base number a).marker p = some ⟨.groupEnd, number⟩ ↔ p = base + 3 := by
    intro p
    rw [marker_marked]
    have hne : a.marker p ≠ some ⟨.groupEnd, number⟩ := fun h => hm _ (exists_mem_of_marker h) rfl
    grind
  refine ⟨fun p => base + 3 ≤ p ∧ p < a.next, base + 2, ⟨fun p hp => ?_, fun p hp => ?_,
    fun p o q hs hq => ?_, fun p v hp hv => ?_⟩, fun p hp => ?_⟩
  · have := (hopens p).mp hp
    omega
  · have := (hcloses p).mp hp
    omega
  · rw [graph_marked] at hs
    rw [hopens]
    grind
  · obtain rfl := (hcloses p).mp hp
    have hleave : (marked base number a).graph (base + 3) none (base + 1) :=
      graph_marked.mpr (.inl ⟨rfl, .inr (.inr (.inr ⟨rfl, rfl⟩))⟩)
    have hpath := (hv.mono fun _ _ _ hs => hs.1).trans (.silent hleave)
    rw [List.append_nil] at hpath
    exact (spells_marked_inside number ha).mp hpath
  · simp only [marked]
    omega

/-- A larger fragment encloses the groups of a smaller one that it neither leads into, except at its
entry, nor reuses the numbers of. -/
theorem Encloses.lift {base' : Nat} (h : a.Encloses base' number l)
    (hscope : ∀ p, base' ≤ p → p < a.next → p ≠ a.entry → base ≤ p ∧ p < f.next ∧ p ≠ f.entry)
    (hstep : ∀ p o q, f.graph p o q → base' ≤ q → q < a.next → q ≠ a.entry → a.graph p o q)
    (hmarker : ∀ p m, m.group = number → (f.marker p = some m ↔ a.marker p = some m)) :
    f.Encloses base number l := by
  obtain ⟨inside, opening, he, hinside⟩ := h
  refine ⟨inside, opening, he.lift (fun p o q hs hq => ?_) hmarker, fun p hp => ?_⟩
  · obtain ⟨hle, hlt, hne⟩ := hinside q hq
    exact hstep p o q hs hle hlt hne
  · obtain ⟨hle, hlt, hne⟩ := hinside p hp
    exact hscope p hle hlt hne

theorem Encloses.choice_left (h : a.Encloses (base + 2) number l) (hb : b.Scoped a.next)
    (hm : ∀ x ∈ b.markers, x.2.group ≠ number) : (choice base a b).Encloses base number l := by
  have hbentry := hb.entry_mem
  have hbstep := fun p o q (hs : b.graph p o q) => hb.step_mem hs
  refine h.lift (fun p hle hlt hne => ?_) (fun p o q hs hle hlt hne => ?_) fun p m hg => ?_
  · simp only [choice]
    omega
  · rw [graph_choice] at hs
    grind
  · rw [marker_choice]
    exact or_marker_iff_left (hg ▸ hm)

theorem Encloses.choice_right (h : b.Encloses a.next number l) (ha : a.Scoped (base + 2))
    (hb : b.Scoped a.next) (hm : ∀ x ∈ a.markers, x.2.group ≠ number) :
    (choice base a b).Encloses base number l := by
  have haentry := ha.entry_mem
  have hastep := fun p o q (hs : a.graph p o q) => ha.step_mem hs
  refine h.lift (fun p hle hlt hne => ?_) (fun p o q hs hle hlt hne => ?_) fun p m hg => ?_
  · simp only [choice]
    omega
  · rw [graph_choice] at hs
    grind
  · rw [marker_choice]
    exact or_marker_iff_right ha hb le_rfl (hg ▸ hm)

theorem Encloses.sequence_left (h : a.Encloses base number l) (hb : b.Scoped a.next)
    (hm : ∀ x ∈ b.markers, x.2.group ≠ number) : (sequence a b).Encloses base number l := by
  have hbentry := hb.entry_mem
  have hbstep := fun p o q (hs : b.graph p o q) => hb.step_mem hs
  refine h.lift (fun p hle hlt hne => ?_) (fun p o q hs hle hlt hne => ?_) fun p m hg => ?_
  · simp only [sequence]
    omega
  · rw [graph_sequence] at hs
    grind
  · rw [marker_sequence]
    exact or_marker_iff_left (hg ▸ hm)

theorem Encloses.sequence_right (h : b.Encloses a.next number l) (ha : a.Scoped base)
    (hb : b.Scoped a.next) (hm : ∀ x ∈ a.markers, x.2.group ≠ number) :
    (sequence a b).Encloses base number l := by
  have haentry := ha.entry_mem
  have hastep := fun p o q (hs : a.graph p o q) => ha.step_mem hs
  refine h.lift (fun p hle hlt hne => ?_) (fun p o q hs hle hlt hne => ?_) fun p m hg => ?_
  · simp only [sequence]
    omega
  · rw [graph_sequence] at hs
    grind
  · rw [marker_sequence]
    exact or_marker_iff_right ha hb le_rfl (hg ▸ hm)

theorem Encloses.rounds (h : a.Encloses (base + 2) number l) (kind : Repetition) :
    (rounds base kind a).Encloses base number l := by
  refine h.lift (fun p hle hlt hne => ?_) (fun p o q hs hle hlt hne => ?_) fun p m _ => Iff.rfl
  · simp only [Fragment.rounds]
    omega
  · rw [graph_rounds] at hs
    grind

theorem Encloses.marked {outer : Nat} (h : a.Encloses (base + 4) number l) (ha : a.Scoped (base + 4))
    (hne : number ≠ outer) : (marked base outer a).Encloses base number l := by
  refine h.lift (fun p hle hlt hp => ?_) (fun p o q hs hle hlt hp => ?_) fun p m hg => ?_
  · simp only [Fragment.marked]
    omega
  · rw [graph_marked] at hs
    grind
  · have hfirst : p < base + 4 → a.marker p = none := marker_eq_none ha
    rw [marker_marked]
    grind

/-- The fragment of a tree has no markers of groups with other numbers. -/
theorem marker_group_ne (pattern : Pattern) (h : ofPattern pattern base = .ok f) (hp : pattern.Plain)
    (hn : number ∉ pattern.groups.map Prod.fst) : ∀ m ∈ f.markers, m.2.group ≠ number := by
  rintro m hm rfl
  obtain ⟨x, hx, heq⟩ := marker_group_mem pattern h hp m hm
  exact hn (List.mem_map.mpr ⟨x, hx, heq⟩)

/-- The fragment of a tree encloses each of its groups, if no two of them have the same number. -/
theorem encloses_of_mem_groups (pattern : Pattern) (h : ofPattern pattern base = .ok f)
    (hp : pattern.Plain) (hn : (pattern.groups.map Prod.fst).Nodup) {inner : Pattern}
    (hg : (number, inner) ∈ pattern.groups) : f.Encloses base number inner.language := by
  have hmem : ∀ {side : Pattern}, (number, inner) ∈ side.groups → number ∈ side.groups.map Prod.fst :=
    fun hg => List.mem_map_of_mem hg
  induction pattern generalizing base f with
  | empty | literal | charClass => cases hg
  | union left right ihl ihr =>
    obtain ⟨a, b, ha, hb, rfl⟩ := of_union_eq_ok h
    have hsa := (ofPattern_spec left ha).1
    have hsb := (ofPattern_spec right hb).1
    rw [Pattern.groups, List.map_append, List.nodup_append'] at hn
    obtain ⟨hnl, hnr, hdisjoint⟩ := hn
    rcases List.mem_append.mp hg with hg | hg
    · exact (ihl ha hp.1 hnl hg).choice_left hsb (marker_group_ne right hb hp.2 (hdisjoint (hmem hg)))
    · exact (ihr hb hp.2 hnr hg).choice_right hsa hsb
        (marker_group_ne left ha hp.1 fun h => hdisjoint h (hmem hg))
  | concat left right ihl ihr =>
    obtain ⟨a, b, ha, hb, rfl⟩ := of_concat_eq_ok h
    have hsa := (ofPattern_spec left ha).1
    have hsb := (ofPattern_spec right hb).1
    rw [Pattern.groups, List.map_append, List.nodup_append'] at hn
    obtain ⟨hnl, hnr, hdisjoint⟩ := hn
    rcases List.mem_append.mp hg with hg | hg
    · exact (ihl ha hp.1 hnl hg).sequence_left hsb (marker_group_ne right hb hp.2 (hdisjoint (hmem hg)))
    · exact (ihr hb hp.2 hnr hg).sequence_right hsa hsb
        (marker_group_ne left ha hp.1 fun h => hdisjoint h (hmem hg))
  | repeated kind inner ih =>
    obtain ⟨a, ha, rfl⟩ := exists_of_map_eq_ok h
    exact (ih ha hp hn hg).rounds kind
  | group outer body ih =>
    obtain ⟨a, ha, rfl⟩ := exists_of_map_eq_ok h
    obtain ⟨hsa, hla⟩ := ofPattern_spec body ha
    rw [Pattern.groups, List.map_cons, List.nodup_cons] at hn
    obtain ⟨hne, hn⟩ := hn
    rcases List.mem_cons.mp hg with heq | hg
    · cases heq
      exact hla ▸ encloses_marked hsa (marker_group_ne _ ha hp.2 hne)
    · exact (ih ha hp.2 hn hg).marked hsa fun heq => hne (heq ▸ hmem hg)
  | anchored left right inner ih => exact hp.elim

theorem marker_group_runUp : ∀ m ∈ (runUp base).markers, m.2.group ≠ number := by
  simp [runUp, Fragment.rounds, link]

/-- The fragment of an anchored tree encloses the groups of its body. -/
theorem encloses_of_mem_groups_anchored {left right : Bool} {body inner : Pattern}
    (h : ofPattern (.anchored left right body) 0 = .ok f) (hp : body.Plain)
    (hn : (body.groups.map Prod.fst).Nodup) (hg : (number, inner) ∈ body.groups) :
    f.Encloses 0 number inner.language := by
  have hne : number ≠ 0 := hp.group_ne_zero _ hg
  cases left with
  | true =>
    obtain ⟨a, ha, rfl⟩ := exists_of_map_eq_ok h
    exact (encloses_of_mem_groups body ha hp hn hg).marked (ofPattern_spec body ha).1 hne
  | false =>
    obtain ⟨a, ha, rfl⟩ := exists_of_map_eq_ok h
    have hsa := (ofPattern_spec body ha).1
    exact ((encloses_of_mem_groups body ha hp hn hg).marked hsa hne).sequence_right scoped_runUp
      (hsa.marked 0) marker_group_runUp

theorem endsMatch_marked (ha : a.Scoped (base + 4)) :
    EndsMatch (marked base 0 a).graph (marked base 0 a).marker (base + 1) := by
  have haentry := ha.entry_mem
  have hastep := fun p o q (hs : a.graph p o q) => ha.step_mem hs
  have hclose : (marked base 0 a).marker (base + 3) = some matchEnds := by
    rw [marker_marked, if_neg (by omega), if_pos rfl, matchEnds]
  refine ⟨?_, fun p o hs => ?_⟩
  · rw [marker_marked, if_neg (by omega), if_neg (by omega), marker_eq_none ha (by omega)]
  · rw [graph_marked] at hs
    grind

/-- The fragment of an anchored tree ends the match in front of its exit. -/
theorem endsMatch_anchored {left right : Bool} {body : Pattern}
    (h : ofPattern (.anchored left right body) 0 = .ok f) : EndsMatch f.graph f.marker f.exit := by
  cases left with
  | true =>
    obtain ⟨a, ha, rfl⟩ := exists_of_map_eq_ok h
    exact endsMatch_marked (ofPattern_spec body ha).1
  | false =>
    obtain ⟨a, ha, rfl⟩ := exists_of_map_eq_ok h
    have hsa := (ofPattern_spec body ha).1
    obtain ⟨hfinal, hstep⟩ := endsMatch_marked hsa
    refine ⟨hfinal, fun p o hs => ?_⟩
    rcases graph_sequence.mp hs with ⟨-, -, hentry⟩ | hs | hs
    · cases hentry
    · have := scoped_runUp.step_mem hs
      simp only [sequence, marked, runUp, Fragment.rounds, link] at this
      omega
    · exact hstep p o hs

section Numbered

variable {inside : Nat → Prop} {opening i j : Nat} {v : List Char}

/-- A path of the automaton into the numbers of a part is a path of the fragment into the part. -/
theorem spells_into_toNfa (e : Bool)
    (hv : ((f.toNfa e).graph.into fun i => ∃ p ∈ f.order, f.number p = i ∧ inside p).Spells i v j)
    (hi : f.number p = i) {q : Nat} (hq : q ∈ f.order) (hj : f.number q = j) :
    (f.graph.into inside).Spells p v q := by
  induction hv generalizing p with
  | refl i =>
    obtain rfl := (number_inj hq).mp (hj.trans hi.symm)
    exact .refl q
  | step hstep _ ih =>
    obtain ⟨hstep, r, hr, hri, hinside⟩ := hstep
    obtain ⟨p', hp', hpi, r', hf, hr'⟩ := graph_toNfa.mp hstep
    obtain rfl := (number_inj hp').mp (hpi.trans hi.symm)
    obtain rfl := (number_inj hr).mp (hri.trans hr'.symm)
    exact .step ⟨hf, hinside⟩ (ih hri hj)

/-- Numbering keeps a group. -/
theorem enclosed_toNfa (h : Enclosed f.graph f.marker number l inside opening) (e : Bool) :
    Enclosed (f.toNfa e).graph (f.toNfa e).marker number l
      (fun i => ∃ p ∈ f.order, f.number p = i ∧ inside p) (f.number opening) := by
  refine ⟨fun i hi => ?_, fun i hi => ?_, fun i o j hstep hj => ?_, fun i v hi hv => ?_⟩
  · obtain ⟨p, hp, rfl, hm⟩ := exists_of_marker_toNfa hi
    rintro ⟨q, hq, hqp, hinside⟩
    obtain rfl := (number_inj hq).mp hqp
    exact h.not_inside_of_opens q hm hinside
  · obtain ⟨p, hp, rfl, hm⟩ := exists_of_marker_toNfa hi
    exact ⟨p, hp, rfl, h.inside_of_closes p hm⟩
  · obtain ⟨p, hp, rfl, q, hf, rfl⟩ := graph_toNfa.mp hstep
    obtain ⟨r, hr, hrq, hinside⟩ := hj
    obtain rfl := (number_inj hr).mp hrq
    rcases h.enter p o r hf hinside with hpin | ⟨rfl, ho, hm⟩
    · exact .inl ⟨p, hp, rfl, hpin⟩
    · exact .inr ⟨rfl, ho, (marker_toNfa hp).trans hm⟩
  · obtain ⟨p, hp, rfl, hm⟩ := exists_of_marker_toNfa hi
    exact h.word_mem p v hm (spells_into_toNfa e hv rfl hp rfl)

theorem endsMatch_toNfa (hs : f.Scoped base) (h : EndsMatch f.graph f.marker f.exit) (e : Bool) :
    EndsMatch (f.toNfa e).graph (f.toNfa e).marker (f.toNfa e).finalId := by
  refine ⟨(marker_toNfa (exit_mem_order hs)).trans h.marker_final, fun i o hstep => ?_⟩
  obtain ⟨p, hp, rfl, q, hf, hq⟩ := graph_toNfa.mp hstep
  obtain rfl := (number_inj (exit_mem_order hs)).mp hq.symm
  obtain ⟨ho, hm⟩ := h.step_final p o hf
  exact ⟨ho, (marker_toNfa hp).trans hm⟩

end Numbered

end Fragment

/-- The automaton of an anchored pattern ends the match in front of its final node, and encloses the
groups of the pattern behind its entry. -/
theorem Pattern.enclosed_toNfa {left right : Bool} {body : Pattern} {nfa : Nfa} (hp : body.Plain)
    (hn : (body.groups.map Prod.fst).Nodup) (h : (Pattern.anchored left right body).toNfa = .ok nfa) :
    EndsMatch nfa.graph nfa.marker nfa.finalId ∧ ∀ number inner, (number, inner) ∈ body.groups →
      ∃ inside opening, ¬inside nfa.entry ∧
        Enclosed nfa.graph nfa.marker number inner.language inside opening := by
  obtain ⟨f, hf, rfl⟩ := exists_of_anchored_toNfa h
  have hscoped := (Fragment.ofPattern_spec _ hf).1
  refine ⟨Fragment.endsMatch_toNfa hscoped (Fragment.endsMatch_anchored hf) _,
    fun number inner hg => ?_⟩
  obtain ⟨inside, opening, he, hinside⟩ := Fragment.encloses_of_mem_groups_anchored hf hp hn hg
  refine ⟨_, _, ?_, Fragment.enclosed_toNfa he _⟩
  rintro ⟨p, hp, hpe, hin⟩
  exact (hinside p hin).2.2 ((Fragment.number_inj hp).mp hpe)

end PatternAutomata
