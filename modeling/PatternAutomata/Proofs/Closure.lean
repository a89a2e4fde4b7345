import Mathlib
import PatternAutomata.Proofs.Construction
import PatternAutomata.Proofs.Moments

/-!
# Closures finish and miss nothing

A search makes one call of the closure for every arrival, and the calls of one place share a table of
marks. A call visits free slots only and marks each of them, so it ends on cyclic graphs as well, with
no more visits than there were free slots. What it has to leave behind is a saturated table: where a
slot is marked, so are the slots of the nodes that its node leads to without a character, with the
start that the marker of the node may have set. A visit pushes exactly these, and calls that end keep
a table saturated, whatever arrives. In an exhaustive search the slots tell nodes and starts apart.
-/

namespace PatternAutomata

open PatternAutomata.Graph

/-- Whether a number is that of a marked slot. -/
def Marked {n : Nat} (marks : Vector Bool n) (i : Nat) : Prop := ∃ h : i < n, marks.get ⟨i, h⟩ = true

theorem Arrival.slot_eq_ok_iff {mode : Mode} {length nodes : Nat} {a : Arrival}
    {i : Fin (mode.slots length nodes)} :
    a.slot mode length nodes = .ok i ↔ mode.slot length a.target a.captures.matchStart = i := by
  simp only [Arrival.slot]
  split
  · rw [Except.ok.injEq, Fin.ext_iff]
  · rename_i h
    constructor
    · intro hi
      cases hi
    · intro hi
      exact absurd (hi ▸ i.isLt) h

namespace Nfa

/-- An arrival at a node that exists, with captures that belong to the place. -/
def Admits (nfa : Nfa) (place : Int) (a : Arrival) : Prop :=
  a.target < nfa.size ∧ a.captures.Fits nfa.groupCount place

/-- Marked slots lead to marked slots along epsilons. The start is set on the way out of a node that
starts the whole match. -/
def Saturated (nfa : Nfa) (mode : Mode) (length : Nat) (place : Int)
    (marks : Vector Bool (mode.slots length nfa.size)) : Prop :=
  ∀ p node start q, nfa.nodes[p]? = some node → InText length start → q ∈ node.epsilons →
    Marked marks (mode.slot length p start) →
      Marked marks (mode.slot length q (if node.marker = some matchStarts then some place else start))

/-- The arrivals that a search makes calls for at the place after a word, in order. -/
inductive Enters (nfa : Nfa) (mode : Mode) (length : Nat) : List Char → List Arrival → Prop
  | entry : Enters nfa mode length [] [⟨nfa.entry, .blank nfa.groupCount⟩]
  | step {w : List Char} {log : List (Arrival × Thread)} (hr : nfa.Run mode length w log) (c : Char) :
      Enters nfa mode length (w ++ [c]) (arrivals (liveThreads log) c)

/-- A call for an arrival, with the marks that the calls before it have left. -/
def Calls (nfa : Nfa) (mode : Mode) (length : Nat) (w : List Char)
    (marks : Vector Bool (mode.slots length nfa.size)) (a : Arrival) : Prop :=
  ∃ before after log, nfa.Enters mode length w (before ++ a :: after) ∧
    Traversal (Arrival.slot mode length nfa.size) (Arrival.visit nfa (placeAfter w)) (noMarks _)
      before log marks

/-- One call of the closure. What it visits is added to what was visited before. -/
def call (nfa : Nfa) (mode : Mode) (length : Nat) (place : Int)
    (found : List Thread × Vector Bool (mode.slots length nfa.size)) (a : Arrival) :
    Except Fault (List Thread × Vector Bool (mode.slots length nfa.size)) :=
  (explore (Arrival.slot mode length nfa.size) (Arrival.visit nfa place) found.2 [a]).map
    fun (threads, marks) => (found.1 ++ threads, marks)

variable {nfa : Nfa} {mode : Mode} {length p q : Nat} {w : List Char} {a : Arrival} {place : Int}
  {marks final : Vector Bool (mode.slots length nfa.size)} {stack stack' : List Arrival}
  {log log' : List (Arrival × Thread)} {x y : Option Int} {c : Char}

/-- In both modes the slot tells the node. -/
theorem eq_of_slot_eq (hx : InText length x) (hy : InText length y)
    (h : mode.slot length p x = mode.slot length q y) : p = q := by
  cases mode with
  | bestOnly => exact h
  | exhaustive => exact (slot_exhaustive_inj hx hy h).1

theorem Admits.inText (ha : nfa.Admits place a) (hp : place < length) :
    InText length a.captures.matchStart :=
  inText_of_fits ha.2 hp

theorem Admits.exists_slot (ha : nfa.Admits place a) (hp : place < length) (mode : Mode) :
    ∃ i, a.slot mode length nfa.size = .ok i :=
  ⟨⟨_, slot_lt ha.1 (ha.inText hp)⟩, Arrival.slot_eq_ok_iff.mpr rfl⟩

theorem Admits.next (ha : nfa.Admits place a) (hw : nfa.WellFormed) (hp : -1 ≤ place) :
    ∃ t next, a.visit nfa place = .ok (t, next) ∧ ∀ b ∈ next, nfa.Admits place b := by
  obtain ⟨t, next, hv, hf⟩ := exists_visit hw ha.1 ha.2 hp
  refine ⟨t, next, hv, fun b hb => ?_⟩
  obtain ⟨-, -, rfl⟩ := visit_eq_ok hv
  obtain ⟨q, hq, rfl⟩ := List.mem_map.mp hb
  exact ⟨hw.step_lt _ none _ ((graph_of_visit hv).mpr hq), hf⟩

/-- Whatever is admitted, the closure finishes. -/
theorem exists_traversal (hw : nfa.WellFormed) (hp : -1 ≤ place) (hl : place < length)
    (hs : ∀ a ∈ stack, nfa.Admits place a) (marks : Vector Bool (mode.slots length nfa.size)) :
    ∃ log final, Traversal (Arrival.slot mode length nfa.size) (Arrival.visit nfa place)
      marks stack log final :=
  Traversal.exists _ _ (nfa.Admits place) (fun _ ha => ha.exists_slot hl mode)
    (fun _ ha => ha.next hw hp) hs marks

theorem saturated_noMarks : nfa.Saturated mode length place (noMarks _) := by
  intro p node start q _ _ _ hm
  obtain ⟨hlt, hm⟩ := hm
  rw [get_noMarks] at hm
  cases hm

/-- A closure that starts from a saturated table ends with one. -/
theorem Saturated.traversal (hsat : nfa.Saturated mode length place marks) (hw : nfa.WellFormed)
    (hp : -1 ≤ place) (hl : place < length) (hs : ∀ a ∈ stack, nfa.Admits place a)
    (ht : Traversal (Arrival.slot mode length nfa.size) (Arrival.visit nfa place) marks stack log final) :
    nfa.Saturated mode length place final := by
  intro p node start q hnode hstart hq hm
  obtain ⟨hlt, hm⟩ := hm
  rcases (ht.marked_iff ⟨_, hlt⟩).mp hm with hm | ⟨⟨b, t⟩, hb, hslot⟩
  · -- The slot was marked before, and what it leads to was marked then.
    obtain ⟨hlt', hm'⟩ := hsat p node start q hnode hstart hq ⟨hlt, hm⟩
    exact ⟨hlt', (ht.marked_iff _).mpr (.inl hm')⟩
  · -- The slot was taken by a visit, which has pushed what it leads to.
    have hadmits : nfa.Admits place b := by
      refine ht.forall_log (nfa.Admits place) (fun a t next ha hv => ?_) hs _ hb
      obtain ⟨t', next', hv', hnext⟩ := ha.next hw hp
      rw [hv] at hv'
      cases hv'
      exact hnext
    have hslot : mode.slot length b.target b.captures.matchStart = mode.slot length p start :=
      Arrival.slot_eq_ok_iff.mp hslot
    obtain ⟨next, hv, hnext⟩ := ht.next_marked _ hb
    obtain ⟨hat, -, rfl⟩ := visit_eq_ok hv
    obtain rfl := eq_of_slot_eq (hadmits.inText hl) hstart hslot
    obtain rfl : t.node = node := Option.some.inj (hat.symm.trans hnode)
    obtain ⟨j, hj, hmark⟩ := hnext _ (List.mem_map_of_mem hq)
    have hgo : mode.slot length q t.captures.matchStart =
        mode.slot length q (if t.node.marker = some matchStarts then some place else start) := by
      have htstart := start_of_visit_marker hv
      rw [marker_of_visit hv] at htstart
      rw [← Thread.start, htstart]
      cases mode with
      | bestOnly => rfl
      | exhaustive => rw [(slot_exhaustive_inj (hadmits.inText hl) hstart hslot).2]
    rw [← hgo, Arrival.slot_eq_ok_iff.mp hj]
    exact ⟨j.isLt, hmark⟩

theorem Enters.arrives (he : nfa.Enters mode length w stack) : ∀ a ∈ stack, nfa.Arrives w a := by
  cases he with
  | entry => simpa using .entry
  | step hr c => exact fun a ha => arrives_of_mem_arrivals hr ha

theorem Enters.admits (he : nfa.Enters mode length w stack) (hw : nfa.WellFormed) :
    ∀ a ∈ stack, nfa.Admits (placeAfter w) a :=
  fun a ha => (he.arrives a ha).fits hw

/-- All calls of a search are for what is admitted at a place of the text, and find a saturated table. -/
theorem Calls.saturated (hc : nfa.Calls mode length w marks a) (hw : nfa.WellFormed)
    (hl : w.length ≤ length) : placeAfter w < length ∧ nfa.Admits (placeAfter w) a ∧
      nfa.Saturated mode length (placeAfter w) marks := by
  obtain ⟨before, after, log, he, ht⟩ := hc
  have hadmits := he.admits hw
  have hlt : placeAfter w < length := placeAfter_lt hl
  exact ⟨hlt, hadmits a (by simp), saturated_noMarks.traversal hw (neg_one_le_placeAfter w) hlt
    (fun b hb => hadmits b (List.mem_append_left _ hb)) ht⟩

/-! ### The calls of a search -/

/-- What is explored from a list of arrivals is explored by one call after another. -/
theorem foldlM_call (threads : List Thread) (marks : Vector Bool (mode.slots length nfa.size)) :
    stack.foldlM (nfa.call mode length place) (threads, marks) =
      (explore (Arrival.slot mode length nfa.size) (Arrival.visit nfa place) marks stack).map
        fun (later, final) => (threads ++ later, final) := by
  induction stack generalizing threads marks with
  | nil =>
    simp only [List.foldlM_nil, explore, Except.map, List.append_nil]
    rfl
  | cons a rest ih =>
    have hsplit := explore_append (Arrival.slot mode length nfa.size) (Arrival.visit nfa place)
      marks [a] rest
    rw [List.singleton_append] at hsplit
    rw [List.foldlM_cons, call, hsplit]
    cases explore (Arrival.slot mode length nfa.size) (Arrival.visit nfa place) marks [a] with
    | error fault => rfl
    | ok found =>
      obtain ⟨visited, marks'⟩ := found
      have hrest := ih (threads ++ visited) marks'
      simp only [Except.map, bind, Except.bind] at hrest ⊢
      rw [hrest]
      cases explore (Arrival.slot mode length nfa.size) (Arrival.visit nfa place) marks' rest with
      | error fault => rfl
      | ok later => simp only [List.append_assoc]

/-- The moment at a place is what the calls for its arrivals leave, made in turn on a fresh table. -/
theorem settle_eq_foldlM (nfa : Nfa) (mode : Mode) (length : Nat) (place : Int) (stack : List Arrival) :
    nfa.settle mode length place stack =
      (stack.foldlM (nfa.call mode length place) ([], noMarks _)).map
        fun (threads, _) => ⟨place, threads.filter (·.node.isLive)⟩ := by
  rw [settle, foldlM_call]
  cases explore (Arrival.slot mode length nfa.size) (Arrival.visit nfa place) (noMarks _) stack <;> rfl

/-- The calls for some arrivals are a traversal from them. -/
theorem foldlM_call_eq_ok_iff : (∃ threads,
    stack.foldlM (nfa.call mode length place) ([], noMarks _) = .ok (threads, marks)) ↔
      ∃ log, Traversal (Arrival.slot mode length nfa.size) (Arrival.visit nfa place) (noMarks _)
        stack log marks := by
  simp only [foldlM_call, List.nil_append]
  constructor
  · rintro ⟨threads, h⟩
    obtain ⟨⟨results, final⟩, hexplore, heq⟩ := exists_of_map_eq_ok h
    cases heq
    obtain ⟨log, ht, -⟩ := Traversal.of_explore_eq hexplore
    exact ⟨log, ht⟩
  · rintro ⟨log, ht⟩
    exact ⟨_, by rw [ht.explore_eq]; rfl⟩

theorem Run.exists_enters (hr : nfa.Run mode length w log) : ∃ stack final,
    nfa.Enters mode length w stack ∧ Traversal (Arrival.slot mode length nfa.size)
      (Arrival.visit nfa (placeAfter w)) (noMarks _) stack log final := by
  cases hr with
  | first ht => exact ⟨_, _, .entry, ht⟩
  | next hr ht => exact ⟨_, _, .step hr _, ht⟩

/-- The word settles what a search visits, in the same order. -/
theorem Run.map_snd_eq (hr : nfa.Run mode length w log) (hr' : nfa.Run mode length w log') :
    log.map Prod.snd = log'.map Prod.snd := by
  induction hr generalizing log' with
  | first ht =>
    obtain ⟨final', ht'⟩ := hr'.of_nil
    have heq := ht.explore_eq.symm.trans ht'.explore_eq
    exact (Prod.mk.inj (Except.ok.inj heq)).1
  | @next w c log later final hr ht ih =>
    obtain ⟨log', final', hr', ht'⟩ := hr'.of_append
    have hlive : liveThreads log' = liveThreads log := by rw [liveThreads, ← ih hr', ← liveThreads]
    rw [hlive] at ht'
    have heq := ht.explore_eq.symm.trans ht'.explore_eq
    exact (Prod.mk.inj (Except.ok.inj heq)).1

/-- A search enters one list of arrivals at each place. -/
theorem Enters.eq (he : nfa.Enters mode length w stack) (he' : nfa.Enters mode length w stack') :
    stack = stack' := by
  generalize hw : w = w' at he'
  cases he with
  | entry =>
    cases he' with
    | entry => rfl
    | step hr' c' => simp at hw
  | step hr c =>
    cases he' with
    | entry => simp at hw
    | step hr' c' =>
      obtain ⟨rfl, hc⟩ := List.append_inj' hw rfl
      obtain rfl : c = c' := by simpa using hc
      rw [liveThreads, hr.map_snd_eq hr', ← liveThreads]

/-- A search makes the calls that are described, and no others: at every place of the text there is one
list of arrivals, the moment is what the calls for them leave, made in turn on a fresh table, and each
call finds the marks that those before it have left. -/
theorem calls_of_moments (hw : nfa.WellFormed) {text : List Char} {moments : List Moment} {i : Nat}
    {now : Moment} (h : nfa.moments mode text = .ok moments) (hi : moments[i]? = some now) :
    ∃ stack, (∀ entered, nfa.Enters mode text.length (text.take i) entered ↔ entered = stack) ∧
      (stack.foldlM (nfa.call mode text.length (placeAfter (text.take i))) ([], noMarks _)).map
        (fun (threads, _) => ⟨placeAfter (text.take i), threads.filter (·.node.isLive)⟩) = .ok now ∧
      ∀ marks a, nfa.Calls mode text.length (text.take i) marks a ↔
        ∃ before after threads, stack = before ++ a :: after ∧
          before.foldlM (nfa.call mode text.length (placeAfter (text.take i))) ([], noMarks _) =
            .ok (threads, marks) := by
  obtain ⟨-, hsees⟩ := sees_of_moments hw h
  obtain ⟨log, hr, rfl⟩ := hsees i now hi
  obtain ⟨stack, final, he, ht⟩ := hr.exists_enters
  have hstack : ∀ entered, nfa.Enters mode text.length (text.take i) entered ↔ entered = stack :=
    fun entered => ⟨fun he' => he'.eq he, fun heq => heq ▸ he⟩
  refine ⟨stack, hstack, ?_, fun marks a => ?_⟩
  · rw [← settle_eq_foldlM, settle, ht.explore_eq]
    rfl
  · simp only [Calls, hstack, exists_and_left, foldlM_call_eq_ok_iff, eq_comm (b := stack)]

end Nfa

/-- On the automaton of any tree the closure finishes. Every call of a search enters an existing node with
captures of its place, and finds a saturated table. A call of this kind ends at every place of a text:
it visits free slots, none of them twice, marks them and no others, and leaves a saturated table if it
found one. In an exhaustive search the slots of nodes and starts lie in the table and tell them apart. -/
theorem Pattern.closure_saturates {pattern : Pattern} {nfa : Nfa} (h : pattern.toNfa = .ok nfa)
    (mode : Mode) (length : Nat) :
    (∀ w marks a, nfa.Calls mode length w marks a → w.length ≤ length →
      -1 ≤ placeAfter w ∧ placeAfter w < length ∧ nfa.Admits (placeAfter w) a ∧
        nfa.Saturated mode length (placeAfter w) marks) ∧
    (∀ (place : Int) marks a, -1 ≤ place → place < length → nfa.Admits place a →
      ∃ log final, Traversal (Arrival.slot mode length nfa.size) (Arrival.visit nfa place)
          marks [a] log final ∧
        explore (Arrival.slot mode length nfa.size) (Arrival.visit nfa place) marks [a] =
          .ok (log.map Prod.snd, final) ∧
        log.Pairwise (fun x y =>
          x.1.slot mode length nfa.size ≠ y.1.slot mode length nfa.size) ∧
        (∀ x ∈ log, ∃ i, x.1.slot mode length nfa.size = .ok i ∧ marks.get i = false) ∧
        (∀ i, final.get i = true ↔
          marks.get i = true ∨ ∃ x ∈ log, x.1.slot mode length nfa.size = .ok i) ∧
        log.length + final.count false = marks.count false ∧
        Marked final (mode.slot length a.target a.captures.matchStart) ∧
        (nfa.Saturated mode length place marks → nfa.Saturated mode length place final)) ∧
    ∀ p q x y, p < nfa.size → Nfa.InText length x → Nfa.InText length y →
      Mode.exhaustive.slot length p x < Mode.exhaustive.slots length nfa.size ∧
        (Mode.exhaustive.slot length p x = Mode.exhaustive.slot length q y → p = q ∧ x = y) := by
  have hw := wellFormed_toNfa h
  refine ⟨fun w marks a hc hl => ⟨neg_one_le_placeAfter w, hc.saturated hw hl⟩,
    fun place marks a hp hl ha => ?_, fun p q x y hlt hx hy => ⟨Nfa.slot_lt hlt hx, ?_⟩⟩
  · have hs : ∀ b ∈ [a], nfa.Admits place b := by simpa using ha
    obtain ⟨log, final, ht⟩ := Nfa.exists_traversal hw hp hl hs marks
    obtain ⟨i, hi, hmark⟩ := ht.stack_marked a List.mem_cons_self
    have htop : Marked final (mode.slot length a.target a.captures.matchStart) := by
      rw [Arrival.slot_eq_ok_iff.mp hi]
      exact ⟨i.isLt, hmark⟩
    exact ⟨log, final, ht, ht.explore_eq, ht.pairwise_slot_ne, ht.slot_free, ht.marked_iff, ht.count_free,
      htop, fun hsat => hsat.traversal hw hp hl hs ht⟩
  · exact Nfa.slot_exhaustive_inj hx hy

/-- Group 0 stands in a loop that can be gone through without a character. Behind it, with a start from
before, the closure goes round once more with the new start, and then ends. -/
theorem closure_saturates_loop : ∃ pattern nfa threads final,
    pattern = Pattern.repeated .plus (.group 0 (.repeated .star (.literal 'a'))) ∧
    pattern.toNfa = .ok nfa ∧
    explore (Arrival.slot .exhaustive 1 nfa.size) (Arrival.visit nfa 0) (noMarks _)
      [⟨8, ⟨[⟨some (-1), none⟩]⟩⟩] = .ok (threads, final) ∧
    (threads.map fun t => (t.node.id, t.start)) =
      [(8, some (-1)), (9, some (-1)), (10, some (-1)), (3, some (-1)), (4, some 0), (5, some 0),
        (6, some 0), (8, some 0), (9, some 0), (10, some 0), (3, some 0), (4, some 0), (11, some 0),
        (12, some 0), (13, some 0), (11, some (-1)), (12, some (-1)), (13, some (-1))] ∧
    nfa.Saturated .exhaustive 1 0 final := by
  have hrun : (Pattern.toNfa (.repeated .plus (.group 0 (.repeated .star (.literal 'a'))))).map
      (fun nfa => (nfa.size, nfa.groupCount,
        (explore (Arrival.slot .exhaustive 1 nfa.size) (Arrival.visit nfa 0) (noMarks _)
          [⟨8, ⟨[⟨some (-1), none⟩]⟩⟩]).map fun r => r.1.map fun t => (t.node.id, t.start))) =
      .ok (14, 1, .ok
        [(8, some (-1)), (9, some (-1)), (10, some (-1)), (3, some (-1)), (4, some 0), (5, some 0),
          (6, some 0), (8, some 0), (9, some 0), (10, some 0), (3, some 0), (4, some 0), (11, some 0),
          (12, some 0), (13, some 0), (11, some (-1)), (12, some (-1)), (13, some (-1))]) := by
    cbv
  obtain ⟨nfa, hnfa, hvisits⟩ := exists_of_map_eq_ok hrun
  simp only [Prod.mk.injEq] at hvisits
  obtain ⟨hsize, hcount, hvisits⟩ := hvisits
  have ha : nfa.Admits 0 ⟨8, ⟨[⟨some (-1), none⟩]⟩⟩ := by
    refine ⟨by rw [hsize]; decide, by rw [hcount]; rfl, fun g hg s hs => ?_⟩
    cases List.mem_singleton.mp hg
    cases hs
    decide
  obtain ⟨-, hclosure, -⟩ := Pattern.closure_saturates hnfa .exhaustive 1
  obtain ⟨log, final, -, hexplore, -, -, -, -, -, hsat⟩ :=
    hclosure 0 (noMarks _) _ (by decide) (by decide) ha
  rw [hexplore] at hvisits
  exact ⟨_, nfa, _, final, rfl, hnfa, hexplore, Except.ok.inj hvisits, hsat Nfa.saturated_noMarks⟩

end PatternAutomata
