import PatternAutomata.Automaton.Thompson
import PatternAutomata.Proofs.Spelling

/-!
# Fragments have the languages of their patterns

A fragment built on the numbers from a base on uses only numbers from there up to its `next`, no edge
enters its entry and none leaves its exit. Fragments side by side therefore share no node, and a path
through the larger one leaves each part by the edges that were added at its exit. From this the
language between entry and exit follows for each way of combining fragments, and for every tree.
-/

namespace PatternAutomata

open PatternAutomata.Graph CharRange

/-- Whether an edge with the label can be taken on a character, or without one. -/
def Label.Admits : Label → Option Char → Prop
  | .epsilon, none => True
  | .range r, some c => c ∈ r
  | _, _ => False

@[simp] theorem Label.admits_epsilon {o : Option Char} : Label.epsilon.Admits o ↔ o = none := by
  cases o <;> simp [Admits]

@[simp] theorem Label.admits_range {r : CharRange} {o : Option Char} :
    (Label.range r).Admits o ↔ ∃ c ∈ r, o = some c := by
  cases o <;> simp [Admits]

namespace Fragment

/-- The steps along the edges of a fragment. -/
def graph (f : Fragment) : Graph := fun p o q =>
  ∃ e ∈ f.edges, e.source = p ∧ e.target = q ∧ e.label.Admits o

/-- The words that lead from the entry to the exit. -/
def language (f : Fragment) : Language Char := {w | f.graph.Spells f.entry w f.exit}

/-- The fragment lives on its own numbers, and its ends are open to the outside only. -/
structure Scoped (f : Fragment) (base : Nat) : Prop where
  entry_mem : base ≤ f.entry ∧ f.entry < f.next
  exit_mem : base ≤ f.exit ∧ f.exit < f.next
  edge_mem : ∀ e ∈ f.edges, (base ≤ e.source ∧ e.source < f.next ∧ e.source ≠ f.exit) ∧
    base ≤ e.target ∧ e.target < f.next ∧ e.target ≠ f.entry
  marker_mem : ∀ m ∈ f.markers, base ≤ m.1 ∧ m.1 < f.next

variable {f a b : Fragment} {base p q number : Nat} {o : Option Char} {w : List Char}

theorem Scoped.step_mem (h : f.Scoped base) (hs : f.graph p o q) :
    base ≤ p ∧ p < f.next ∧ base ≤ q ∧ q < f.next := by
  obtain ⟨e, he, rfl, rfl, -⟩ := hs
  have := h.edge_mem e he
  omega

theorem Scoped.step_ne (h : f.Scoped base) (hs : f.graph p o q) : p ≠ f.exit ∧ q ≠ f.entry := by
  obtain ⟨e, he, rfl, rfl, -⟩ := hs
  exact ⟨(h.edge_mem e he).1.2.2, (h.edge_mem e he).2.2.2⟩

/-- Nothing is read behind the exit. -/
theorem Scoped.eq_nil_of_exit {r : Nat} (h : f.Scoped base) (hw : f.graph.Spells f.exit w r) :
    w = [] :=
  (hw.of_stuck fun _ _ hs => (h.step_ne hs).1 rfl).1

theorem graph_link {labels : List Label} :
    (link base labels).graph p o q ↔ p = base ∧ q = base + 1 ∧ ∃ l ∈ labels, l.Admits o := by
  simp only [graph, link, List.mem_map]
  constructor
  · rintro ⟨e, ⟨l, hl, rfl⟩, rfl, rfl, ho⟩
    exact ⟨rfl, rfl, l, hl, ho⟩
  · rintro ⟨rfl, rfl, l, hl, ho⟩
    exact ⟨_, ⟨l, hl, rfl⟩, rfl, rfl, ho⟩

theorem graph_choice : (choice base a b).graph p o q ↔
    (o = none ∧ (p = base ∧ (q = a.entry ∨ q = b.entry) ∨ (p = a.exit ∨ p = b.exit) ∧ q = base + 1)) ∨
      a.graph p o q ∨ b.graph p o q := by
  simp only [graph, choice, List.mem_append, List.mem_cons, List.not_mem_nil, or_false, or_and_right,
    exists_or, exists_eq_left, Label.admits_epsilon]
  grind

theorem graph_sequence : (sequence a b).graph p o q ↔
    (o = none ∧ p = a.exit ∧ q = b.entry) ∨ a.graph p o q ∨ b.graph p o q := by
  simp only [graph, sequence, List.mem_append, List.mem_cons, or_and_right,
    exists_or, exists_eq_left, Label.admits_epsilon]
  grind

theorem graph_rounds {kind : Repetition} : (rounds base kind a).graph p o q ↔
    (o = none ∧ (p = base ∧ (q = a.entry ∨ kind.maySkip ∧ q = base + 1) ∨
      p = a.exit ∧ (kind.mayLoop ∧ q = a.entry ∨ q = base + 1))) ∨ a.graph p o q := by
  simp only [graph, rounds, List.mem_append, List.mem_cons, or_and_right,
    exists_or, exists_eq_left, Label.admits_epsilon]
  cases kind <;> simp [Repetition.maySkip, Repetition.mayLoop] <;> grind

theorem graph_marked : (marked base number a).graph p o q ↔
    (o = none ∧ (p = base ∧ q = base + 2 ∨ p = base + 2 ∧ q = a.entry ∨
      p = a.exit ∧ q = base + 3 ∨ p = base + 3 ∧ q = base + 1)) ∨ a.graph p o q := by
  simp only [graph, marked, List.mem_append, List.mem_cons, List.not_mem_nil, or_false, or_and_right,
    exists_or, exists_eq_left, Label.admits_epsilon]
  grind

theorem Scoped.link (labels : List Label) : (link base labels).Scoped base := by
  constructor <;> simp [Fragment.link]

theorem Scoped.choice (ha : a.Scoped (base + 2)) (hb : b.Scoped a.next) :
    (choice base a b).Scoped base := by
  obtain ⟨haentry, haexit, haedge, hamarker⟩ := ha
  obtain ⟨hbentry, hbexit, hbedge, hbmarker⟩ := hb
  constructor
  · simp only [Fragment.choice]
    omega
  · simp only [Fragment.choice]
    omega
  · simp only [Fragment.choice, List.forall_mem_append, List.forall_mem_cons]
    refine ⟨⟨⟨by omega, by omega, by omega, by omega, by simp⟩, fun e he => ?_⟩, fun e he => ?_⟩
    · have := haedge e he
      omega
    · have := hbedge e he
      omega
  · simp only [Fragment.choice, List.forall_mem_append]
    refine ⟨fun m hm => ?_, fun m hm => ?_⟩
    · have := hamarker m hm
      omega
    · have := hbmarker m hm
      omega

theorem Scoped.sequence (ha : a.Scoped base) (hb : b.Scoped a.next) : (sequence a b).Scoped base := by
  obtain ⟨haentry, haexit, haedge, hamarker⟩ := ha
  obtain ⟨hbentry, hbexit, hbedge, hbmarker⟩ := hb
  constructor
  · simp only [Fragment.sequence]
    omega
  · simp only [Fragment.sequence]
    omega
  · simp only [Fragment.sequence, List.forall_mem_append, List.forall_mem_cons]
    refine ⟨⟨by omega, fun e he => ?_⟩, fun e he => ?_⟩
    · have := haedge e he
      omega
    · have := hbedge e he
      omega
  · simp only [Fragment.sequence, List.forall_mem_append]
    refine ⟨fun m hm => ?_, fun m hm => ?_⟩
    · have := hamarker m hm
      omega
    · have := hbmarker m hm
      omega

theorem Scoped.rounds (ha : a.Scoped (base + 2)) (kind : Repetition) :
    (rounds base kind a).Scoped base := by
  obtain ⟨haentry, haexit, haedge, hamarker⟩ := ha
  constructor
  · simp only [Fragment.rounds]
    omega
  · simp only [Fragment.rounds]
    omega
  · simp only [Fragment.rounds, List.forall_mem_append, List.forall_mem_cons, List.mem_ite_nil_right,
      List.mem_singleton]
    refine ⟨⟨⟨by omega, ?_⟩, ?_⟩, by omega, fun e he => ?_⟩
    · rintro e ⟨-, rfl⟩
      dsimp only
      omega
    · rintro e ⟨-, rfl⟩
      dsimp only
      omega
    · have := haedge e he
      omega
  · intro m hm
    have := hamarker m hm
    simp only [Fragment.rounds]
    omega

theorem Scoped.marked (ha : a.Scoped (base + 4)) (number : Nat) :
    (marked base number a).Scoped base := by
  obtain ⟨haentry, haexit, haedge, hamarker⟩ := ha
  constructor
  · simp only [Fragment.marked]
    omega
  · simp only [Fragment.marked]
    omega
  · simp only [Fragment.marked, List.forall_mem_append, List.forall_mem_cons]
    refine ⟨⟨by omega, by omega, by omega, by omega, by simp⟩, fun e he => ?_⟩
    have := haedge e he
    omega
  · simp only [Fragment.marked, List.forall_mem_cons]
    refine ⟨by omega, by omega, fun m hm => ?_⟩
    have := hamarker m hm
    omega

section Parts

variable {G : Graph} {r : Nat}

/-- A graph that extends a fragment by one way out at its exit goes through the fragment first. -/
theorem Scoped.spells_through (ha : a.Scoped base) (next : Nat)
    (hpart : ∀ p o q, base ≤ p → p < a.next →
      (G p o q ↔ a.graph p o q ∨ p = a.exit ∧ o = none ∧ q = next))
    (hr : r < base ∨ a.next ≤ r) :
    G.Spells a.entry w r ↔ ∃ u v, w = u ++ v ∧ u ∈ a.language ∧ G.Spells next v r := by
  have hentry := ha.entry_mem
  have hexit := ha.exit_mem
  constructor
  · intro h
    have hstep : ∀ p o q, base ≤ p ∧ p < a.next → G p o q →
        a.graph p o q ∧ (base ≤ q ∧ q < a.next) ∨ p = a.exit ∧ o = none := by
      intro p o q hp hs
      rcases (hpart p o q hp.1 hp.2).mp hs with hs | ⟨hpe, ho, -⟩
      · have := ha.step_mem hs
        exact .inl ⟨hs, by omega, by omega⟩
      · exact .inr ⟨hpe, ho⟩
    obtain ⟨u, v, q, rfl, hu, hs, hv⟩ := h.leave hstep hentry (by omega)
    rcases (hpart a.exit none q hexit.1 hexit.2).mp hs with hs | ⟨-, -, rfl⟩
    · exact ((ha.step_ne hs).1 rfl).elim
    · exact ⟨u, v, rfl, hu, hv⟩
  · rintro ⟨u, v, rfl, hu, hv⟩
    have hsub : ∀ p o q, a.graph p o q → G p o q := by
      intro p o q hs
      have := ha.step_mem hs
      exact (hpart p o q (by omega) (by omega)).mpr (.inl hs)
    have hleave : G a.exit none next := (hpart _ _ _ hexit.1 hexit.2).mpr (.inr ⟨rfl, rfl, rfl⟩)
    exact (hu.mono hsub).trans (.step hleave hv)

/-- A graph that adds no way out of a fragment spells there what the fragment spells. -/
theorem Scoped.spells_within (ha : a.Scoped base)
    (hpart : ∀ p o q, base ≤ p → p < a.next → (G p o q ↔ a.graph p o q))
    (hp : base ≤ p ∧ p < a.next) : G.Spells p w r ↔ a.graph.Spells p w r := by
  constructor
  · intro h
    refine (h.confined (fun p => base ≤ p ∧ p < a.next) (fun p o q hp hs => ?_) hp).1
    have hs := (hpart p o q hp.1 hp.2).mp hs
    have := ha.step_mem hs
    exact ⟨hs, by omega, by omega⟩
  · intro h
    refine h.mono fun p o q hs => ?_
    have := ha.step_mem hs
    exact (hpart p o q (by omega) (by omega)).mpr hs

end Parts

theorem mem_language_link {labels : List Label} :
    w ∈ (link base labels).language ↔ ∃ l ∈ labels, ∃ o, l.Admits o ∧ w = o.toList := by
  constructor
  · intro h
    cases h with
    | @step _ q _ o v hs h =>
      obtain ⟨-, rfl, l, hl, ho⟩ := graph_link.mp hs
      obtain rfl := (Scoped.link labels).eq_nil_of_exit h
      exact ⟨l, hl, o, ho, List.append_nil _⟩
  · rintro ⟨l, hl, o, ho, rfl⟩
    have hs : (link base labels).graph base o (base + 1) := graph_link.mpr ⟨rfl, rfl, l, hl, ho⟩
    exact .single hs

theorem language_choice (ha : a.Scoped (base + 2)) (hb : b.Scoped a.next) :
    (choice base a b).language = a.language + b.language := by
  have haentry := ha.entry_mem
  have haexit := ha.exit_mem
  have hbentry := hb.entry_mem
  have hbexit := hb.exit_mem
  have hastep := fun p o q (hs : a.graph p o q) => ha.step_mem hs
  have hbstep := fun p o q (hs : b.graph p o q) => hb.step_mem hs
  have hend : ∀ v, (choice base a b).graph.Spells (base + 1) v (base + 1) ↔ v = [] :=
    fun v => ⟨fun h => (ha.choice hb).eq_nil_of_exit h, fun h => h ▸ .refl _⟩
  have hleft : ∀ w, (choice base a b).graph.Spells a.entry w (base + 1) ↔ w ∈ a.language := by
    intro w
    rw [ha.spells_through (base + 1) _ (by omega)]
    · simp [hend]
    · intro p o q hp hp'
      rw [graph_choice]
      grind
  have hright : ∀ w, (choice base a b).graph.Spells b.entry w (base + 1) ↔ w ∈ b.language := by
    intro w
    rw [hb.spells_through (base + 1) _ (by omega)]
    · simp [hend]
    · intro p o q hp hp'
      rw [graph_choice]
      grind
  ext w
  change (choice base a b).graph.Spells base w (base + 1) ↔ _
  rw [Language.mem_add, ← hleft, ← hright]
  constructor
  · intro h
    cases h with
    | @step _ q _ o v hs h =>
      rcases graph_choice.mp hs with ⟨rfl, hs⟩ | hs | hs
      · have hq : q = a.entry ∨ q = b.entry := by omega
        rcases hq with rfl | rfl
        · exact .inl h
        · exact .inr h
      · have := hastep _ _ _ hs
        omega
      · have := hbstep _ _ _ hs
        omega
  · rintro (h | h)
    · exact Spells.step (graph_choice.mpr (.inl ⟨rfl, .inl ⟨rfl, .inl rfl⟩⟩)) h
    · exact Spells.step (graph_choice.mpr (.inl ⟨rfl, .inl ⟨rfl, .inr rfl⟩⟩)) h

theorem language_sequence (ha : a.Scoped base) (hb : b.Scoped a.next) :
    (sequence a b).language = a.language * b.language := by
  have hbentry := hb.entry_mem
  have hbexit := hb.exit_mem
  have haexit := ha.exit_mem
  have hastep := fun p o q (hs : a.graph p o q) => ha.step_mem hs
  have hbstep := fun p o q (hs : b.graph p o q) => hb.step_mem hs
  have hright : ∀ w, (sequence a b).graph.Spells b.entry w b.exit ↔ w ∈ b.language := by
    intro w
    refine hb.spells_within (fun p o q hp hp' => ?_) hbentry
    rw [graph_sequence]
    grind
  ext w
  rw [Language.mem_mul]
  change (sequence a b).graph.Spells a.entry w b.exit ↔ _
  rw [ha.spells_through b.entry _ (by omega)]
  · simp only [hright]
    constructor
    · rintro ⟨u, v, rfl, hu, hv⟩
      exact ⟨u, hu, v, hv, rfl⟩
    · rintro ⟨u, hu, v, hv, rfl⟩
      exact ⟨u, v, rfl, hu, hv⟩
  · intro p o q hp hp'
    rw [graph_sequence]
    grind

/-- What may follow one round. -/
def laterRounds (kind : Repetition) (l : Language Char) : Language Char :=
  if kind.mayLoop then KStar.kstar l else 1

theorem nil_mem_laterRounds {kind : Repetition} {l : Language Char} : [] ∈ laterRounds kind l := by
  unfold laterRounds
  split
  · exact Language.nil_mem_kstar l
  · exact Language.nil_mem_one

/-- A path from inside a round ends the round first. More rounds may follow it if the kind allows. -/
theorem spells_rounds_inside {kind : Repetition} (ha : a.Scoped (base + 2))
    (h : (rounds base kind a).graph.Spells p w (base + 1)) (hp : base + 2 ≤ p ∧ p < a.next) :
    ∃ u v, w = u ++ v ∧ a.graph.Spells p u a.exit ∧ v ∈ laterRounds kind a.language := by
  have hastep := fun p o q (hs : a.graph p o q) => ha.step_mem hs
  have haentry := ha.entry_mem
  generalize hr : base + 1 = r at h
  induction h with
  | refl p => omega
  | @step p q r o w hs h ih =>
    rcases graph_rounds.mp hs with ⟨rfl, hends⟩ | hs
    · rcases hends with hentry | ⟨rfl, ⟨hloop, rfl⟩ | rfl⟩
      · omega
      · obtain ⟨u, v, rfl, hu, hv⟩ := ih haentry hr
        refine ⟨[], u ++ v, rfl, .refl _, ?_⟩
        rw [laterRounds, if_pos hloop] at hv ⊢
        rw [← Language.one_add_self_mul_kstar_eq_kstar]
        exact .inr (Language.append_mem_mul hu hv)
      · subst hr
        obtain rfl := (ha.rounds kind).eq_nil_of_exit h
        exact ⟨[], [], rfl, .refl _, nil_mem_laterRounds⟩
    · have := hastep _ _ _ hs
      obtain ⟨u, v, rfl, hu, hv⟩ := ih (by omega) hr
      exact ⟨o.toList ++ u, v, by rw [List.append_assoc], .step hs hu, hv⟩

theorem spells_rounds {kind : Repetition}
    (hw : w ∈ a.language * laterRounds kind a.language) :
    (rounds base kind a).graph.Spells a.entry w (base + 1) := by
  have hround : ∀ u ∈ a.language, (rounds base kind a).graph.Spells a.entry u a.exit :=
    fun u hu => Spells.mono (fun p o q hs => graph_rounds.mpr (.inr hs)) hu
  have hleave : (rounds base kind a).graph a.exit none (base + 1) :=
    graph_rounds.mpr (.inl ⟨rfl, .inr ⟨rfl, .inr rfl⟩⟩)
  obtain ⟨u, hu, v, hv, rfl⟩ := Language.mem_mul.mp hw
  unfold laterRounds at hv
  split at hv
  · rename_i hloop
    have hagain : (rounds base kind a).graph a.exit none a.entry :=
      graph_rounds.mpr (.inl ⟨rfl, .inr ⟨rfl, .inl ⟨hloop, rfl⟩⟩⟩)
    obtain ⟨words, rfl, hwords⟩ := Language.mem_kstar.mp hv
    clear hv hw
    induction words generalizing u with
    | nil => exact (hround u hu).trans (.silent hleave)
    | cons v words ih =>
      have hrest := ih v (hwords v List.mem_cons_self)
        (fun x hx => hwords x (List.mem_cons_of_mem v hx))
      exact (hround u hu).trans (.step hagain hrest)
  · obtain rfl : v = [] := hv
    exact (hround u hu).trans (.silent hleave)

theorem language_rounds {kind : Repetition} (ha : a.Scoped (base + 2)) :
    (rounds base kind a).language = kind.language a.language := by
  have hastep := fun p o q (hs : a.graph p o q) => ha.step_mem hs
  have haentry := ha.entry_mem
  have haexit := ha.exit_mem
  have hkind : ∀ w, w ∈ kind.language a.language ↔
      kind.maySkip ∧ w = [] ∨ w ∈ a.language * laterRounds kind a.language := by
    intro w
    cases kind with
    | star =>
      have hstar := Language.one_add_self_mul_kstar_eq_kstar a.language
      rw [Repetition.language, ← hstar, Language.mem_add]
      exact or_congr (by simp [Repetition.maySkip]) Iff.rfl
    | plus => simp [Repetition.language, laterRounds, Repetition.maySkip, Repetition.mayLoop]
    | optional =>
      simp [Repetition.language, Language.mem_add, laterRounds, Repetition.maySkip,
        Repetition.mayLoop]
  ext w
  change (rounds base kind a).graph.Spells base w (base + 1) ↔ _
  rw [hkind]
  constructor
  · intro h
    cases h with
    | @step _ q _ o v hs h =>
      rcases graph_rounds.mp hs with ⟨rfl, hends⟩ | hs
      · rcases hends with ⟨-, rfl | ⟨hskip, rfl⟩⟩ | ⟨hexit, -⟩
        · obtain ⟨u, v, rfl, hu, hv⟩ := spells_rounds_inside ha h haentry
          have huv : u ++ v ∈ a.language * laterRounds kind a.language :=
            Language.append_mem_mul hu hv
          exact .inr huv
        · exact .inl ⟨hskip, (ha.rounds kind).eq_nil_of_exit h⟩
        · omega
      · have := hastep _ _ _ hs
        omega
  · rintro (⟨hskip, rfl⟩ | hw)
    · exact .silent (graph_rounds.mpr (.inl ⟨rfl, .inl ⟨rfl, .inr ⟨hskip, rfl⟩⟩⟩))
    · exact Spells.step (graph_rounds.mpr (.inl ⟨rfl, .inl ⟨rfl, .inl rfl⟩⟩))
        (spells_rounds hw)

/-- Between the markers of a group a path goes through its inside and nowhere else. -/
theorem spells_marked_inside (number : Nat) (ha : a.Scoped (base + 4)) :
    (marked base number a).graph.Spells (base + 2) w (base + 1) ↔ w ∈ a.language := by
  have haentry := ha.entry_mem
  have haexit := ha.exit_mem
  have hastep := fun p o q (hs : a.graph p o q) => ha.step_mem hs
  have hclose : ∀ v, (marked base number a).graph.Spells (base + 3) v (base + 1) ↔ v = [] := by
    intro v
    rw [spells_iff_of_sole_step (q := base + 1) (fun o q => by rw [graph_marked]; grind) (by omega)]
    exact ⟨fun h => (ha.marked number).eq_nil_of_exit h, fun h => h ▸ .refl _⟩
  rw [spells_iff_of_sole_step (q := a.entry) (fun o q => by rw [graph_marked]; grind) (by omega),
    ha.spells_through (base + 3) _ (by omega)]
  · simp [hclose]
  · intro p o q hp hp'
    rw [graph_marked]
    grind

theorem language_marked (ha : a.Scoped (base + 4)) : (marked base number a).language = a.language := by
  have haexit := ha.exit_mem
  have hastep := fun p o q (hs : a.graph p o q) => ha.step_mem hs
  ext w
  change (marked base number a).graph.Spells base w (base + 1) ↔ _
  rw [← spells_marked_inside number ha]
  exact spells_iff_of_sole_step (fun o q => by rw [graph_marked]; grind) (by omega)

theorem language_link_ranges {ranges : List CharRange} :
    (link base (ranges.map .range)).language = letters (Covers ranges) := by
  ext w
  rw [mem_language_link, mem_letters]
  simp only [List.mem_map, Covers]
  constructor
  · rintro ⟨l, ⟨r, hr, rfl⟩, o, ho, rfl⟩
    obtain ⟨c, hc, rfl⟩ := Label.admits_range.mp ho
    exact ⟨c, ⟨r, hr, hc⟩, rfl⟩
  · rintro ⟨c, ⟨r, hr, hc⟩, rfl⟩
    exact ⟨_, ⟨r, hr, rfl⟩, some c, Label.admits_range.mpr ⟨c, hc, rfl⟩, rfl⟩

theorem covers_notNewline {c : Char} : Covers notNewline c ↔ c ≠ '\n' := by
  rw [notNewline, covers_complement (List.pairwise_singleton _ _)]
  simp

theorem scoped_runUp : (runUp base).Scoped base := (Scoped.link _).rounds .star

theorem language_runUp : (runUp base).language = lineLanguage := by
  ext w
  rw [runUp, language_rounds (Scoped.link _), language_link_ranges]
  change w ∈ KStar.kstar (letters (Covers notNewline)) ↔ _
  rw [Language.mem_kstar, mem_lineLanguage]
  constructor
  · rintro ⟨words, rfl, hwords⟩ hmem
    obtain ⟨word, hword, hmem⟩ := List.mem_flatten.mp hmem
    obtain ⟨c, hc, rfl⟩ := hwords word hword
    exact covers_notNewline.mp hc (List.mem_singleton.mp hmem).symm
  · intro hw
    refine ⟨w.map ([·]), List.flatMap_singleton' w |>.symm, fun y hy => ?_⟩
    obtain ⟨c, hc, rfl⟩ := List.mem_map.mp hy
    exact ⟨c, covers_notNewline.mpr fun hn => hw (hn ▸ hc), rfl⟩

theorem of_union_eq_ok {left right : Pattern} (h : ofPattern (.union left right) base = .ok f) :
    ∃ a b, ofPattern left (base + 2) = .ok a ∧ ofPattern right a.next = .ok b ∧
      f = choice base a b := by
  simp only [ofPattern] at h
  split at h
  · cases h
  · rename_i a ha
    split at h
    · cases h
    · rename_i b hb
      exact ⟨a, b, ha, hb, (Except.ok.inj h).symm⟩

theorem of_concat_eq_ok {left right : Pattern} (h : ofPattern (.concat left right) base = .ok f) :
    ∃ a b, ofPattern left base = .ok a ∧ ofPattern right a.next = .ok b ∧ f = sequence a b := by
  simp only [ofPattern] at h
  split at h
  · cases h
  · rename_i a ha
    split at h
    · cases h
    · rename_i b hb
      exact ⟨a, b, ha, hb, (Except.ok.inj h).symm⟩

/-- What the construction builds from a tree is scoped and has the language of the tree. -/
theorem ofPattern_spec (pattern : Pattern) (h : ofPattern pattern base = .ok f) :
    f.Scoped base ∧ f.language = pattern.language := by
  induction pattern generalizing base f with
  | empty =>
    cases h
    refine ⟨Scoped.link _, ?_⟩
    ext w
    rw [mem_language_link]
    simp [Pattern.language]
  | literal c =>
    cases h
    refine ⟨Scoped.link _, ?_⟩
    rw [← List.map_singleton (f := Label.range), language_link_ranges, Pattern.language]
    exact letters_congr fun d => by simp
  | charClass cls =>
    obtain ⟨ranges, hr, rfl⟩ := exists_of_map_eq_ok h
    refine ⟨Scoped.link _, ?_⟩
    rw [language_link_ranges, Pattern.language]
    exact letters_congr fun c => CharClass.covers_ranges hr
  | union left right ihl ihr =>
    obtain ⟨a, b, ha, hb, rfl⟩ := of_union_eq_ok h
    obtain ⟨hsa, hla⟩ := ihl ha
    obtain ⟨hsb, hlb⟩ := ihr hb
    exact ⟨hsa.choice hsb, by rw [language_choice hsa hsb, hla, hlb]; rfl⟩
  | concat left right ihl ihr =>
    obtain ⟨a, b, ha, hb, rfl⟩ := of_concat_eq_ok h
    obtain ⟨hsa, hla⟩ := ihl ha
    obtain ⟨hsb, hlb⟩ := ihr hb
    exact ⟨hsa.sequence hsb, by rw [language_sequence hsa hsb, hla, hlb]; rfl⟩
  | repeated kind inner ih =>
    obtain ⟨a, ha, rfl⟩ := exists_of_map_eq_ok h
    obtain ⟨hsa, hla⟩ := ih ha
    exact ⟨hsa.rounds kind, by rw [language_rounds hsa, hla]; rfl⟩
  | group number inner ih =>
    obtain ⟨a, ha, rfl⟩ := exists_of_map_eq_ok h
    obtain ⟨hsa, hla⟩ := ih ha
    exact ⟨hsa.marked number, by rw [language_marked hsa, hla]; rfl⟩
  | anchored left right inner ih =>
    cases left with
    | true =>
      obtain ⟨a, ha, rfl⟩ := exists_of_map_eq_ok h
      obtain ⟨hsa, hla⟩ := ih ha
      exact ⟨hsa.marked 0, by rw [language_marked hsa, hla]; rfl⟩
    | false =>
      obtain ⟨a, ha, rfl⟩ := exists_of_map_eq_ok h
      obtain ⟨hsa, hla⟩ := ih ha
      refine ⟨scoped_runUp.sequence (hsa.marked 0), ?_⟩
      rw [language_sequence scoped_runUp (hsa.marked 0), language_runUp, language_marked hsa, hla]
      rfl

end Fragment

end PatternAutomata
