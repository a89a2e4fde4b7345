import PatternAutomata.Proofs.Arrivals
import PatternAutomata.Proofs.Traversal

/-!
# The run of a search

A run has one log for every place it has come to: what the closure there visited, in order. It never
fails on an automaton that is well formed, and everything in its logs has arrived. An exhaustive run
misses nothing that arrives, up to the captures of groups other than the whole match, and visits no
node twice with the same start; a run for the best visits no node twice.
-/

namespace PatternAutomata

open PatternAutomata.Graph

/-- The threads that a closure leaves at its place. -/
def liveThreads (log : List (Arrival × Thread)) : List Thread :=
  (log.map Prod.snd).filter (·.node.isLive)

namespace Nfa

/-- What a search has visited at the place after a word. -/
inductive Run (nfa : Nfa) (mode : Mode) (length : Nat) : List Char → List (Arrival × Thread) → Prop
  | first {log : List (Arrival × Thread)} {final : Vector Bool (mode.slots length nfa.size)}
      (ht : Traversal (Arrival.slot mode length nfa.size) (Arrival.visit nfa (placeAfter []))
        (noMarks _) [⟨nfa.entry, .blank nfa.groupCount⟩] log final) : Run nfa mode length [] log
  | next {w : List Char} {c : Char} {log log' : List (Arrival × Thread)}
      {final : Vector Bool (mode.slots length nfa.size)} (hr : Run nfa mode length w log)
      (ht : Traversal (Arrival.slot mode length nfa.size) (Arrival.visit nfa (placeAfter (w ++ [c])))
        (noMarks _) (arrivals (liveThreads log) c) log' final) : Run nfa mode length (w ++ [c]) log'

/-- The moment at the place after a word. -/
def Sees (nfa : Nfa) (mode : Mode) (length : Nat) (w : List Char) (m : Moment) : Prop :=
  ∃ log, nfa.Run mode length w log ∧ m = ⟨placeAfter w, liveThreads log⟩

variable {nfa : Nfa} {mode : Mode} {length : Nat} {w : List Char} {a b : Arrival}
  {log : List (Arrival × Thread)} {later : List Arrival} {t : Thread} {c : Char} {p q nodes : Nat}
  {outside : Nat → Prop} {gate : Nat}

theorem Arrives.next (ha : nfa.Arrives w a) (hv : a.visit nfa (placeAfter w) = .ok (t, later))
    (hb : b ∈ later) : nfa.Arrives w b := by
  obtain ⟨-, -, rfl⟩ := visit_eq_ok hv
  obtain ⟨q, hq, rfl⟩ := List.mem_map.mp hb
  have hgo := ha.go (o := none) hv hq
  rwa [Option.toList_none, List.append_nil] at hgo

theorem mem_arrivals {threads : List Thread} :
    a ∈ arrivals threads c ↔ ∃ t ∈ threads, ∃ q ∈ t.node.step c, a = ⟨q, t.captures⟩ := by
  simp only [arrivals, List.mem_flatMap, List.mem_mergeSort, List.mem_map]
  constructor
  · rintro ⟨t, ht, q, hq, rfl⟩
    exact ⟨t, ht, q, hq, rfl⟩
  · rintro ⟨t, ht, q, hq, rfl⟩
    exact ⟨t, ht, q, hq, rfl⟩

theorem mem_liveThreads : t ∈ liveThreads log ↔ (∃ a, (a, t) ∈ log) ∧ t.node.isLive = true := by
  simp [liveThreads]

/-- The closure of a place starts from what has arrived there. -/
theorem Run.exists_traversal (hr : nfa.Run mode length w log) :
    ∃ stack final, Traversal (Arrival.slot mode length nfa.size) (Arrival.visit nfa (placeAfter w))
      (noMarks _) stack log final ∧ ∀ a ∈ stack, nfa.Arrives w a := by
  induction hr with
  | first ht => exact ⟨_, _, ht, by simpa using .entry⟩
  | @next w c log log' final hr ht ih =>
    obtain ⟨stack, final', ht', hstack⟩ := ih
    refine ⟨_, _, ht, fun a ha => ?_⟩
    obtain ⟨t, ht, q, hq, rfl⟩ := mem_arrivals.mp ha
    obtain ⟨⟨b, hb⟩, -⟩ := mem_liveThreads.mp ht
    obtain ⟨next, hv, -⟩ := ht'.next_marked _ hb
    have hb := ht'.forall_log (nfa.Arrives w) (fun _ _ _ ha hv _ hc => ha.next hv hc) hstack _ hb
    exact hb.go (o := some c) hv hq

theorem Run.arrives (hr : nfa.Run mode length w log) (hx : (a, t) ∈ log) :
    nfa.Arrives w a ∧ ∃ next, a.visit nfa (placeAfter w) = .ok (t, next) := by
  obtain ⟨stack, final, ht, hstack⟩ := hr.exists_traversal
  obtain ⟨next, hv, -⟩ := ht.next_marked _ hx
  exact ⟨ht.forall_log (nfa.Arrives w) (fun _ _ _ ha hv _ hc => ha.next hv hc) hstack _ hx, next, hv⟩

/-- The part of a slot that stands for the start of a match. -/
def startIndex (length : Nat) : Option Int → Nat
  | none => length + 1
  | some place => (place + 1).toNat

/-- A start that a match may have in a text: none yet, or one of the places. -/
def InText (length : Nat) (start : Option Int) : Prop := ∀ s, start = some s → -1 ≤ s ∧ s < length

theorem startIndex_lt_of_inText {x : Option Int} (hx : InText length x) :
    startIndex length x < length + 2 := by
  cases x with
  | none =>
    simp only [startIndex]
    omega
  | some s =>
    have := hx s rfl
    simp only [startIndex]
    omega

theorem startIndex_inj {x y : Option Int} (hx : InText length x) (hy : InText length y)
    (h : startIndex length x = startIndex length y) : x = y := by
  cases x with
  | none =>
    cases y with
    | none => rfl
    | some s =>
      have := hy s rfl
      simp only [startIndex] at h
      omega
  | some r =>
    have := hx r rfl
    cases y with
    | none =>
      simp only [startIndex] at h
      omega
    | some s =>
      have := hy s rfl
      simp only [startIndex] at h
      exact congrArg some (by omega)

theorem slot_exhaustive (start : Option Int) :
    Mode.exhaustive.slot length p start = p * (length + 2) + startIndex length start := by
  cases start <;> rfl

theorem slot_lt {start : Option Int} (hp : p < nodes) (hs : InText length start) :
    mode.slot length p start < mode.slots length nodes := by
  cases mode with
  | bestOnly => exact hp
  | exhaustive =>
    have hindex := startIndex_lt_of_inText hs
    have hmul : (p + 1) * (length + 2) ≤ nodes * (length + 2) := Nat.mul_le_mul_right _ hp
    rw [Nat.succ_mul] at hmul
    rw [slot_exhaustive, Mode.slots]
    omega

/-- The slot of an exhaustive search tells the node and the start. -/
theorem slot_exhaustive_inj {x y : Option Int} (hx : InText length x) (hy : InText length y)
    (h : Mode.exhaustive.slot length p x = Mode.exhaustive.slot length q y) : p = q ∧ x = y := by
  rw [slot_exhaustive, slot_exhaustive] at h
  have hnode : p = q := by
    have hdiv := congrArg (· / (length + 2)) h
    simp only [Nat.mul_comm _ (length + 2), Nat.mul_add_div (Nat.succ_pos (length + 1)),
      Nat.div_eq_of_lt (startIndex_lt_of_inText hx), Nat.div_eq_of_lt (startIndex_lt_of_inText hy)] at hdiv
    omega
  subst hnode
  exact ⟨rfl, startIndex_inj hx hy (Nat.add_left_cancel h)⟩

theorem placeAfter_lt (hl : w.length ≤ length) : placeAfter w < length := by
  simp only [placeAfter]
  omega

/-- Captures of a place in the text start there. -/
theorem inText_of_fits {captures : Captures} {count : Nat} {place : Int}
    (h : captures.Fits count place) (hp : place < length) : InText length captures.matchStart := by
  intro s hs
  have := h.matchStart_le hs
  omega

theorem Arrives.inText (ha : nfa.Arrives w a) (hw : nfa.WellFormed) (hl : w.length ≤ length) :
    InText length a.captures.matchStart :=
  inText_of_fits (ha.fits hw).2 (placeAfter_lt hl)

theorem Arrives.slot (ha : nfa.Arrives w a) (mode : Mode) (hw : nfa.WellFormed) (hl : w.length ≤ length) :
    ∃ i, a.slot mode length nfa.size = .ok i ∧
      i.val = mode.slot length a.target a.captures.matchStart := by
  have hlt : mode.slot length a.target a.captures.matchStart < mode.slots length nfa.size :=
    slot_lt (ha.fits hw).1 (ha.inText hw hl)
  exact ⟨⟨_, hlt⟩, by rw [Arrival.slot, dif_pos hlt], rfl⟩

theorem slot_congr (h : mode.slot length a.target a.captures.matchStart =
    mode.slot length b.target b.captures.matchStart) :
    a.slot mode length nodes = b.slot mode length nodes := by
  simp only [Arrival.slot, h]

/-- In an exhaustive search the slot tells the node and the start. -/
theorem Arrives.eq_of_slot_eq (ha : nfa.Arrives w a) (hb : nfa.Arrives w b) (hw : nfa.WellFormed)
    (hl : w.length ≤ length)
    (hab : a.slot .exhaustive length nfa.size = b.slot .exhaustive length nfa.size) :
    a.target = b.target ∧ a.captures.matchStart = b.captures.matchStart := by
  obtain ⟨i, hi, hival⟩ := ha.slot .exhaustive hw hl
  obtain ⟨j, hj, hjval⟩ := hb.slot .exhaustive hw hl
  rw [hi, hj, Except.ok.injEq] at hab
  rw [hab, hjval] at hival
  exact slot_exhaustive_inj (ha.inText hw hl) (hb.inText hw hl) hival.symm

/-- In a search for the best the slot tells the node. -/
theorem Arrives.target_eq_of_slot_eq (ha : nfa.Arrives w a) (hb : nfa.Arrives w b)
    (hw : nfa.WellFormed) (hl : w.length ≤ length)
    (hab : a.slot .bestOnly length nfa.size = b.slot .bestOnly length nfa.size) :
    a.target = b.target := by
  obtain ⟨i, hi, hival⟩ := ha.slot .bestOnly hw hl
  obtain ⟨j, hj, hjval⟩ := hb.slot .bestOnly hw hl
  rw [hi, hj, Except.ok.injEq] at hab
  rw [hab, hjval] at hival
  exact hival.symm

/-- A closure that starts from what has arrived finishes. -/
theorem exists_closure (hw : nfa.WellFormed) (mode : Mode) (hl : w.length ≤ length) {stack : List Arrival}
    (hs : ∀ a ∈ stack, nfa.Arrives w a) :
    ∃ log final, Traversal (Arrival.slot mode length nfa.size) (Arrival.visit nfa (placeAfter w))
      (noMarks _) stack log final ∧
        nfa.settle mode length (placeAfter w) stack = .ok ⟨placeAfter w, liveThreads log⟩ := by
  obtain ⟨log, final, ht⟩ := Traversal.exists (Arrival.slot mode length nfa.size)
    (Arrival.visit nfa (placeAfter w)) (nfa.Arrives w)
    (fun a ha => ⟨_, (ha.slot mode hw hl).choose_spec.1⟩)
    (fun a ha => by
      obtain ⟨t, later, hv⟩ := ha.visit hw
      exact ⟨t, later, hv, fun b hb => ha.next hv hb⟩) hs (noMarks _)
  refine ⟨log, final, ht, ?_⟩
  rw [settle, ht.explore_eq]
  rfl

theorem arrives_of_mem_arrivals (hr : nfa.Run mode length w log)
    (ha : a ∈ arrivals (liveThreads log) c) : nfa.Arrives (w ++ [c]) a := by
  obtain ⟨t, ht, q, hq, rfl⟩ := mem_arrivals.mp ha
  obtain ⟨⟨b, hb⟩, -⟩ := mem_liveThreads.mp ht
  obtain ⟨hb, later, hv⟩ := hr.arrives hb
  exact hb.go (o := some c) hv hq

/-- From any moment on a search goes through to the end of the text. -/
theorem exists_momentsFrom (hw : nfa.WellFormed) (rest : List Char) (hr : nfa.Run mode length w log)
    (hl : w.length + rest.length ≤ length) :
    ∃ ms, nfa.momentsFrom mode length ⟨placeAfter w, liveThreads log⟩ rest = .ok ms ∧
      ms.length = rest.length + 1 ∧
      ∀ i m, ms[i]? = some m → nfa.Sees mode length (w ++ rest.take i) m := by
  induction rest generalizing w log with
  | nil =>
    refine ⟨_, rfl, rfl, fun i m hm => ?_⟩
    obtain ⟨rfl, rfl⟩ : i = 0 ∧ m = ⟨placeAfter w, liveThreads log⟩ := by
      cases i with
      | zero => exact ⟨rfl, (Option.some.inj hm).symm⟩
      | succ i => cases hm
    rw [List.take_nil, List.append_nil]
    exact ⟨log, hr, rfl⟩
  | cons c rest ih =>
    have hlen : (w ++ [c]).length + rest.length ≤ length := by
      simp only [List.length_append, List.length_cons, List.length_nil] at hl ⊢
      omega
    have hle : (w ++ [c]).length ≤ length := by omega
    obtain ⟨log', final, ht, hsettle⟩ := exists_closure hw mode hle
      (fun a ha => arrives_of_mem_arrivals hr ha)
    obtain ⟨ms, hms, hcount, hsees⟩ := ih (hr.next ht) hlen
    have hplace : placeAfter w + 1 = placeAfter (w ++ [c]) := by simp
    refine ⟨⟨placeAfter w, liveThreads log⟩ :: ms, ?_, by simp [hcount], fun i m hm => ?_⟩
    · simp only [momentsFrom, hplace, hsettle, hms]
    · cases i with
      | zero =>
        cases hm
        rw [List.take_zero, List.append_nil]
        exact ⟨log, hr, rfl⟩
      | succ i =>
        have hsee := hsees i m hm
        rwa [List.append_assoc] at hsee

/-- A search sees one moment for each place of the text. -/
theorem exists_moments (hw : nfa.WellFormed) (mode : Mode) (text : List Char) :
    ∃ ms, nfa.moments mode text = .ok ms ∧ ms.length = text.length + 1 ∧
      ∀ i m, ms[i]? = some m → nfa.Sees mode text.length (text.take i) m := by
  have hne : nfa.size ≠ 0 := by
    have := hw.entry_lt
    omega
  have hentry : ∀ a ∈ [(⟨nfa.entry, .blank nfa.groupCount⟩ : Arrival)], nfa.Arrives [] a := by
    simpa using .entry
  obtain ⟨log, final, ht, hsettle⟩ := exists_closure hw mode (Nat.zero_le text.length) hentry
  obtain ⟨ms, hms, hcount, hsees⟩ := exists_momentsFrom hw text (.first ht) (by simp)
  refine ⟨ms, ?_, hcount, hsees⟩
  rw [moments, if_neg hne]
  rw [placeAfter_nil] at hsettle
  simp only [hsettle]
  exact hms

/-- A search sees the place after any part of the text. -/
theorem exists_sees (hw : nfa.WellFormed) (mode : Mode) (hl : w.length ≤ length) :
    ∃ m, nfa.Sees mode length w m := by
  have hentry : ∀ a ∈ [(⟨nfa.entry, .blank nfa.groupCount⟩ : Arrival)], nfa.Arrives [] a := by
    simpa using .entry
  obtain ⟨log, final, ht, -⟩ := exists_closure hw mode (Nat.zero_le length) hentry
  obtain ⟨ms, -, hcount, hsees⟩ := exists_momentsFrom hw w (.first ht) (by simpa using hl)
  have hsee := hsees w.length _ (List.getElem?_eq_getElem (by omega))
  rw [List.take_length, List.nil_append] at hsee
  exact ⟨_, hsee⟩

/-- Whatever moments a search has seen are those of the places of the text, in order. -/
theorem sees_of_moments (hw : nfa.WellFormed) {text : List Char} {ms : List Moment}
    (hm : nfa.moments mode text = .ok ms) : ms.length = text.length + 1 ∧
      ∀ i m, ms[i]? = some m → nfa.Sees mode text.length (text.take i) m := by
  obtain ⟨ms', hms', hcount, hsees⟩ := exists_moments hw mode text
  obtain rfl : ms' = ms := Except.ok.inj (hms'.symm.trans hm)
  exact ⟨hcount, hsees⟩

theorem Run.of_nil (hr : nfa.Run mode length [] log) :
    ∃ final, Traversal (Arrival.slot mode length nfa.size) (Arrival.visit nfa (placeAfter []))
      (noMarks _) [⟨nfa.entry, .blank nfa.groupCount⟩] log final := by
  generalize hv : [] = v at hr
  cases hr with
  | first ht => exact ⟨_, ht⟩
  | next => simp at hv

theorem Run.of_append (hr : nfa.Run mode length (w ++ [c]) log) :
    ∃ before final, nfa.Run mode length w before ∧
      Traversal (Arrival.slot mode length nfa.size) (Arrival.visit nfa (placeAfter (w ++ [c])))
        (noMarks _) (arrivals (liveThreads before) c) log final := by
  generalize hv : w ++ [c] = v at hr
  cases hr with
  | first => simp at hv
  | next hr ht =>
    obtain ⟨rfl, hc⟩ := List.append_inj' hv rfl
    obtain rfl : c = _ := by simpa using hc
    exact ⟨_, _, hr, ht⟩

/-- A visit depends on the node and the start of its arrival, as far as the node and the start of the
thread go. -/
theorem eq_of_visit {s : Thread} {later' : List Arrival} {place : Int}
    (hv : a.visit nfa place = .ok (t, later)) (hv' : b.visit nfa place = .ok (s, later'))
    (htarget : a.target = b.target) (hstart : a.captures.matchStart = b.captures.matchStart) :
    t.node = s.node ∧ t.start = s.start := by
  have ha := (visit_eq_ok hv).1
  rw [htarget, (visit_eq_ok hv').1] at ha
  refine ⟨(Option.some.inj ha).symm, ?_⟩
  rw [start_of_visit_marker hv, start_of_visit_marker hv', htarget, hstart]

theorem isLive_of_mem_step {node : Node} {q : Nat} (hq : q ∈ node.step c) : node.isLive = true := by
  have hne : node.transitions ≠ [] := by
    intro h
    simp [Node.step, h] at hq
  simp [Node.isLive, hne]

/-- What an exhaustive search has marked it has visited, with the same start. -/
theorem Run.covers_of_marked (hr : nfa.Run .exhaustive length w log) (hw : nfa.WellFormed)
    (hl : w.length ≤ length) {stack : List Arrival}
    {final : Vector Bool (Mode.exhaustive.slots length nfa.size)}
    (ht : Traversal (Arrival.slot .exhaustive length nfa.size) (Arrival.visit nfa (placeAfter w))
      (noMarks _) stack log final)
    (hb : nfa.Arrives w b) (hm : ∃ i, b.slot .exhaustive length nfa.size = .ok i ∧ final.get i = true) :
    ∃ x ∈ log, x.1.target = b.target ∧ x.1.captures.matchStart = b.captures.matchStart := by
  obtain ⟨i, hi, hmark⟩ := hm
  obtain ⟨x, hx, hxi⟩ := ht.mem_of_marked hmark
  exact ⟨x, hx, (hr.arrives hx).1.eq_of_slot_eq hb hw hl (hxi.trans hi.symm)⟩

/-- An exhaustive search visits every node that something arrives at, with every start. -/
theorem Arrives.covered (ha : nfa.Arrives w a) (hw : nfa.WellFormed)
    (hr : nfa.Run .exhaustive length w log) (hl : w.length ≤ length) :
    ∃ x ∈ log, x.1.target = a.target ∧ x.1.captures.matchStart = a.captures.matchStart := by
  induction ha generalizing log with
  | entry =>
    obtain ⟨final, ht⟩ := hr.of_nil
    exact hr.covers_of_marked hw hl ht .entry (ht.stack_marked _ List.mem_cons_self)
  | @go w a t later o q ha hv hq ih =>
    cases o with
    | none =>
      simp only [Option.toList_none, List.append_nil] at hr hl
      obtain ⟨stack, final, ht, -⟩ := hr.exists_traversal
      obtain ⟨x, hx, htarget, hstart⟩ := ih hr hl
      obtain ⟨later', hv', hlater⟩ := ht.next_marked x hx
      obtain ⟨hnode, hts⟩ := eq_of_visit hv' hv htarget hstart
      have hmem : (⟨q, x.2.captures⟩ : Arrival) ∈ later' := by
        rw [(visit_eq_ok hv').2.2, hnode]
        exact List.mem_map.mpr ⟨q, hq, rfl⟩
      obtain ⟨y, hy, hyt, hys⟩ :=
        hr.covers_of_marked hw hl ht ((hr.arrives hx).1.next hv' hmem) (hlater _ hmem)
      exact ⟨y, hy, hyt, hys.trans hts⟩
    | some c =>
      obtain ⟨before, final, hr', ht⟩ := hr.of_append
      obtain ⟨x, hx, htarget, hstart⟩ := ih hr' (by rw [List.length_append] at hl; omega)
      obtain ⟨hxa, later', hv'⟩ := hr'.arrives hx
      obtain ⟨hnode, hts⟩ := eq_of_visit hv' hv htarget hstart
      have hq' : q ∈ x.2.node.step c := hnode ▸ hq
      have hlive : x.2 ∈ liveThreads before :=
        mem_liveThreads.mpr ⟨⟨x.1, hx⟩, isLive_of_mem_step hq'⟩
      obtain ⟨y, hy, hyt, hys⟩ := hr.covers_of_marked hw hl ht (hxa.go (o := some c) hv' hq')
        (ht.stack_marked _ (mem_arrivals.mpr ⟨x.2, hlive, q, hq', rfl⟩))
      exact ⟨y, hy, hyt, hys.trans hts⟩

/-- A path from the gate on to a live node is taken by a thread of an exhaustive search. -/
theorem Sees.exists_mem_threads (hs : nfa.Sees .exhaustive length (u ++ v) m) (hw : nfa.WellFormed)
    (hg : Gated nfa.graph nfa.marker outside gate nfa.entry nfa.finalId)
    (hl : (u ++ v).length ≤ length) (hu : nfa.graph.Spells nfa.entry u gate)
    (hv : nfa.graph.Spells gate v q) (hlive : ∀ node, nfa.nodes[q]? = some node → node.isLive = true) :
    ∃ t ∈ m.threads, nfa.nodes[q]? = some t.node ∧ t.start = some (placeAfter u) := by
  obtain ⟨a, t, next, ha, rfl, hvisit, hstart⟩ := exists_thread hw hg hu hv
  obtain ⟨log, hr, rfl⟩ := hs
  obtain ⟨x, hx, htarget, hmatch⟩ := ha.covered hw hr hl
  obtain ⟨-, next', hvisit'⟩ := hr.arrives hx
  obtain ⟨hnode, hxstart⟩ := eq_of_visit hvisit' hvisit htarget hmatch
  have hat : nfa.nodes[a.target]? = some x.2.node := hnode ▸ (visit_eq_ok hvisit).1
  exact ⟨x.2, mem_liveThreads.mpr ⟨⟨x.1, hx⟩, hlive _ hat⟩, hat, hxstart.trans hstart⟩

theorem Run.nodes_eq (hr : nfa.Run mode length w log) (hx : (a, t) ∈ log) :
    nfa.nodes[a.target]? = some t.node := by
  obtain ⟨-, later, hv⟩ := hr.arrives hx
  exact (visit_eq_ok hv).1

theorem Run.target_eq_iff (hr : nfa.Run mode length w log) (hw : nfa.WellFormed) {x y : Arrival × Thread}
    (hx : x ∈ log) (hy : y ∈ log) : x.1.target = y.1.target ↔ x.2.node = y.2.node := by
  have hnx := hr.nodes_eq hx
  have hny := hr.nodes_eq hy
  constructor
  · intro h
    rw [h, hny] at hnx
    exact (Option.some.inj hnx).symm
  · intro h
    rw [← hw.id_eq _ _ hnx, ← hw.id_eq _ _ hny, h]

/-- A run for the best has one thread for each node. -/
theorem Run.pairwise_bestOnly (hr : nfa.Run .bestOnly length w log) (hw : nfa.WellFormed) :
    (liveThreads log).Pairwise (fun s t => s.node ≠ t.node) := by
  obtain ⟨stack, final, ht, -⟩ := hr.exists_traversal
  refine List.Pairwise.filter _ (List.pairwise_map.mpr (ht.pairwise_slot_ne.imp_of_mem ?_))
  intro x y hx hy hslot hnode
  have htarget := (hr.target_eq_iff hw hx hy).mpr hnode
  exact hslot (slot_congr htarget)

/-- An exhaustive run has one thread for each node and start. -/
theorem Run.pairwise_exhaustive (hr : nfa.Run .exhaustive length w log) (hw : nfa.WellFormed)
    (hg : Gated nfa.graph nfa.marker outside gate nfa.entry nfa.finalId) :
    (liveThreads log).Pairwise (fun s t => s.node = t.node → s.start ≠ t.start) := by
  obtain ⟨stack, final, ht, -⟩ := hr.exists_traversal
  refine List.Pairwise.filter _ (List.pairwise_map.mpr (ht.pairwise_slot_ne.imp_of_mem ?_))
  intro x y hx hy hslot hnode hstart
  have htarget := (hr.target_eq_iff hw hx hy).mpr hnode
  obtain ⟨hxa, later, hxv⟩ := hr.arrives hx
  obtain ⟨hya, later', hyv⟩ := hr.arrives hy
  have hmatch : x.1.captures.matchStart = y.1.captures.matchStart := by
    by_cases hgate : x.1.target = gate
    · rw [hxa.matchStart_of_outside hg (hgate ▸ hg.gate_outside),
        hya.matchStart_of_outside hg (htarget ▸ hgate ▸ hg.gate_outside)]
    · rw [start_of_visit hg hxv, start_of_visit hg hyv, ← htarget, if_neg hgate, if_neg hgate] at hstart
      exact hstart
  exact hslot (slot_congr (by rw [htarget, hmatch]))

end Nfa

end PatternAutomata
