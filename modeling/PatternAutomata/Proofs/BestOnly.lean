import PatternAutomata.Proofs.Accepting
import PatternAutomata.Proofs.Thinning

/-!
# A search for the best keeps the earliest starts

A search for the best drops an arrival when its node is taken, while an exhaustive search visits it
when the start is new for the node. Otherwise both visit in the same order, threads with earlier starts
first. So by the time a node is dropped, everything it leads to has been taken by an earlier start. At
every place the threads of a search for the best are threads of the exhaustive search, captures
included, and for each node they keep one with the earliest start.
-/

namespace PatternAutomata

open PatternAutomata.Graph

section Starts

variable {x y z : Option Int} {s : Int}

@[simp] theorem startsNoLater_none : startsNoLater x none = true := by
  cases x <;> rfl

theorem startsNoLater_refl (x : Option Int) : startsNoLater x x = true := by
  cases x <;> simp [startsNoLater]

theorem startsNoLater_trans (hxy : startsNoLater x y = true) (hyz : startsNoLater y z = true) :
    startsNoLater x z = true := by
  cases x <;> cases y <;> cases z <;> simp_all [startsNoLater]
  omega

theorem startsNoLater_total (x y : Option Int) : (startsNoLater x y || startsNoLater y x) = true := by
  cases x <;> cases y <;> simp [startsNoLater]
  omega

theorem startsNoLater_antisymm (hxy : startsNoLater x y = true) (hyx : startsNoLater y x = true) :
    x = y := by
  cases x <;> cases y <;> simp_all [startsNoLater]
  omega

theorem eq_none_of_startsNoLater (h : startsNoLater none x = true) : x = none :=
  startsNoLater_antisymm startsNoLater_none h

end Starts

namespace Arrival

def start (a : Arrival) : Option Int := a.captures.matchStart

/-- What takes the slot of an exhaustive search. -/
def nodeAndStart (a : Arrival) : Nat × Option Int := (a.target, a.start)

end Arrival

namespace Nfa

variable {nfa : Nfa} {mode : Mode} {length : Nat} {w : List Char} {a b : Arrival} {t : Thread}
  {later rest : List Arrival} {outside : Nat → Prop} {gate : Nat} {seen : Nat × Option Int → Prop}
  {taken taken' : Nat → Prop}

/-- What a visit leads to has the start of its thread. -/
theorem start_of_mem_later (hv : a.visit nfa (placeAfter w) = .ok (t, later)) (hb : b ∈ later) :
    b.start = t.start := by
  obtain ⟨-, -, rfl⟩ := visit_eq_ok hv
  obtain ⟨q, -, rfl⟩ := List.mem_map.mp hb
  rfl

/-- The start of a visit goes before whatever comes after the arrival in order. -/
theorem Arrives.startsNoLater_of_visit (ha : nfa.Arrives w a)
    (hg : Gated nfa.graph nfa.marker outside gate nfa.entry nfa.finalId)
    (hv : a.visit nfa (placeAfter w) = .ok (t, later)) {x : Option Int}
    (hx : startsNoLater a.start x = true) : startsNoLater t.start x = true := by
  rw [start_of_visit hg hv]
  split
  · rename_i hgate
    have hnone : a.start = none := ha.matchStart_of_outside hg (hgate ▸ hg.gate_outside)
    rw [hnone] at hx
    rw [eq_none_of_startsNoLater hx]
    exact startsNoLater_none
  · exact hx

/-- A visit goes on with a start that is no earlier than any before. -/
theorem Arrives.startsNoLater_start (hg : Gated nfa.graph nfa.marker outside gate nfa.entry nfa.finalId)
    (hw : nfa.WellFormed) (hb : nfa.Arrives w b)
    (hv : a.visit nfa (placeAfter w) = .ok (t, later)) {s : Int} (hs : b.start = some s)
    (hx : startsNoLater (some s) a.start = true) : startsNoLater (some s) t.start = true := by
  rw [start_of_visit hg hv]
  split
  · have hle := ((hb.fits hw).2.matchStart_le hs).2
    simpa [startsNoLater] using hle
  · exact hx

/-- A visit keeps the stack in order. -/
theorem sorted_visit (hg : Gated nfa.graph nfa.marker outside gate nfa.entry nfa.finalId)
    (ha : nfa.Arrives w a) (hv : a.visit nfa (placeAfter w) = .ok (t, later))
    (hs : (a :: rest).Pairwise fun a b => startsNoLater a.start b.start = true) :
    (later ++ rest).Pairwise fun a b => startsNoLater a.start b.start = true := by
  obtain ⟨hrest, hsorted⟩ := List.pairwise_cons.mp hs
  refine List.pairwise_append.mpr ⟨?_, hsorted, fun b hb c hc => ?_⟩
  · refine List.pairwise_of_forall_mem_list fun b hb c hc => ?_
    rw [start_of_mem_later hv hb, start_of_mem_later hv hc]
    exact startsNoLater_refl t.start
  · rw [start_of_mem_later hv hb]
    exact ha.startsNoLater_of_visit hg hv (hrest c hc)

/-- How far both searches have come at a place: `seen` are the nodes and starts that the exhaustive
search has visited, `taken` the nodes that the search for the best has. -/
structure Pace (nfa : Nfa) (w : List Char) (seen : Nat × Option Int → Prop) (taken : Nat → Prop)
    (stack : List Arrival) : Prop where
  arrives : ∀ a ∈ stack, nfa.Arrives w a
  sorted : stack.Pairwise fun a b => startsNoLater a.start b.start = true
  arrived : ∀ k, seen k → ∃ a, nfa.Arrives w a ∧ a.nodeAndStart = k
  taken_of_seen : ∀ k, seen k → taken k.1
  seen_of_taken : ∀ n, taken n → ∃ start, seen (n, start)
  earlier : ∀ n s, seen (n, some s) → ∀ b ∈ stack, startsNoLater (some s) b.start = true
  /-- What follows a node behind the gate is visited with the same start, or waits for it. -/
  closed : ∀ n s q, seen (n, some s) → nfa.graph n none q →
    seen (q, some s) ∨ ∃ b ∈ stack, b.nodeAndStart = (q, some s)

theorem Pace.skip (h : nfa.Pace w seen taken (a :: rest)) (hs : seen a.nodeAndStart) :
    nfa.Pace w seen taken rest where
  arrives b hb := h.arrives b (List.mem_cons_of_mem a hb)
  sorted := (List.pairwise_cons.mp h.sorted).2
  arrived := h.arrived
  taken_of_seen := h.taken_of_seen
  seen_of_taken := h.seen_of_taken
  earlier n s hn b hb := h.earlier n s hn b (List.mem_cons_of_mem a hb)
  closed n s q hn hq := by
    rcases h.closed n s q hn hq with hseen | ⟨b, hb, hkey⟩
    · exact .inl hseen
    · rcases List.mem_cons.mp hb with rfl | hb
      · exact .inl (hkey ▸ hs)
      · exact .inr ⟨b, hb, hkey⟩

theorem Pace.visit (h : nfa.Pace w seen taken (a :: rest)) (hw : nfa.WellFormed)
    (hg : Gated nfa.graph nfa.marker outside gate nfa.entry nfa.finalId)
    (hv : a.visit nfa (placeAfter w) = .ok (t, later))
    (htaken : ∀ n, taken' n ↔ taken n ∨ n = a.target) :
    nfa.Pace w (fun k => seen k ∨ k = a.nodeAndStart) taken' (later ++ rest) := by
  have ha := h.arrives a List.mem_cons_self
  obtain ⟨hrest, -⟩ := List.pairwise_cons.mp h.sorted
  have hlater := fun b (hb : b ∈ later) => start_of_mem_later hv hb
  have hkeep : ∀ s, a.start = some s → t.start = some s := by
    intro s hs
    rw [start_of_visit hg hv, if_neg, ← hs]
    · rfl
    · intro hgate
      have hnone := ha.matchStart_of_outside hg (hgate ▸ hg.gate_outside)
      cases hs.symm.trans hnone
  refine ⟨fun b hb => ?_, ?_, fun k hk => ?_, fun k hk => ?_, fun n hn => ?_, fun n s hn b hb => ?_,
    fun n s q hn hq => ?_⟩
  · rcases List.mem_append.mp hb with hb | hb
    · exact ha.next hv hb
    · exact h.arrives b (List.mem_cons_of_mem a hb)
  · exact sorted_visit hg ha hv h.sorted
  · rcases hk with hk | rfl
    · exact h.arrived k hk
    · exact ⟨a, ha, rfl⟩
  · rcases hk with hk | rfl
    · exact (htaken _).mpr (.inl (h.taken_of_seen k hk))
    · exact (htaken _).mpr (.inr rfl)
  · rcases (htaken n).mp hn with hn | rfl
    · obtain ⟨start, hs⟩ := h.seen_of_taken n hn
      exact ⟨start, .inl hs⟩
    · exact ⟨a.start, .inr rfl⟩
  · rcases hn with hn | hn
    · rcases List.mem_append.mp hb with hb | hb
      · obtain ⟨c, hc, hkey⟩ := h.arrived _ hn
        rw [hlater b hb]
        exact hc.startsNoLater_start hg hw hv (congrArg Prod.snd hkey)
          (h.earlier n s hn a List.mem_cons_self)
      · exact h.earlier n s hn b (List.mem_cons_of_mem a hb)
    · have hs : a.start = some s := (congrArg Prod.snd hn).symm
      rcases List.mem_append.mp hb with hb | hb
      · rw [hlater b hb, hkeep s hs]
        exact startsNoLater_refl _
      · exact hs ▸ hrest b hb
  · rcases hn with hn | hn
    · rcases h.closed n s q hn hq with hseen | ⟨b, hb, hkey⟩
      · exact .inl (.inl hseen)
      · rcases List.mem_cons.mp hb with rfl | hb
        · exact .inl (.inr hkey.symm)
        · exact .inr ⟨b, List.mem_append_right _ hb, hkey⟩
    · obtain ⟨rfl, hs⟩ := Prod.mk.inj hn
      have hq' : q ∈ t.node.epsilons := (graph_of_visit hv).mp hq
      refine .inr ⟨⟨q, t.captures⟩, List.mem_append_left _ ?_, ?_⟩
      · rw [(visit_eq_ok hv).2.2]
        exact List.mem_map_of_mem hq'
      · exact Prod.ext rfl (hkeep s hs.symm)

/-- A node that is taken already leads to taken nodes only. -/
theorem Pace.taken_of_mem_later (h : nfa.Pace w seen taken (a :: rest))
    (hg : Gated nfa.graph nfa.marker outside gate nfa.entry nfa.finalId)
    (hv : a.visit nfa (placeAfter w) = .ok (t, later)) (hns : ¬seen a.nodeAndStart)
    (ht : taken a.target) : ∀ b ∈ later, taken b.target := by
  have ha := h.arrives a List.mem_cons_self
  obtain ⟨start, hseen⟩ := h.seen_of_taken _ ht
  obtain ⟨c, hc, hkey⟩ := h.arrived _ hseen
  obtain ⟨htarget, rfl⟩ := Prod.mk.inj hkey
  -- In front of the gate there is one start only, so the node lies behind it.
  have ho : ¬outside a.target := by
    intro ho
    have hca : c.start = a.start := (hc.matchStart_of_outside hg (htarget ▸ ho)).trans
      (ha.matchStart_of_outside hg ho).symm
    rw [hca] at hseen
    exact hns hseen
  obtain ⟨u, v, -, hi⟩ := ha.within hg ho
  obtain ⟨u', v', -, hi'⟩ := hc.within hg (htarget ▸ ho)
  have hs : a.start = some (placeAfter u) := hi.matchStart_eq
  have hs' : c.start = some (placeAfter u') := hi'.matchStart_eq
  intro b hb
  obtain ⟨-, -, rfl⟩ := visit_eq_ok hv
  obtain ⟨q, hq, rfl⟩ := List.mem_map.mp hb
  have hstep : nfa.graph a.target none q := (graph_of_visit hv).mpr hq
  rw [hs'] at hseen
  rcases h.closed _ _ q hseen hstep with hsq | ⟨d, hd, hdkey⟩
  · exact h.taken_of_seen _ hsq
  · -- What waits has no earlier start than the arrival, which has no earlier one than the node had.
    have hds : d.start = some (placeAfter u') := congrArg Prod.snd hdkey
    have hle := h.earlier _ _ hseen a List.mem_cons_self
    have hge : startsNoLater a.start d.start = true := by
      rcases List.mem_cons.mp hd with rfl | hd
      · exact startsNoLater_refl _
      · exact (List.pairwise_cons.mp h.sorted).1 d hd
    rw [hds] at hge
    have heq := startsNoLater_antisymm hge hle
    rw [← heq] at hseen
    exact (hns hseen).elim

/-- From a thinned out stack a search for the best visits a thinned out part of what an exhaustive search
visits. -/
theorem Pace.thinned {stack best : List Arrival} {log log' : List (Arrival × Thread)}
    (h : nfa.Pace w seen taken stack) (hw : nfa.WellFormed)
    (hg : Gated nfa.graph nfa.marker outside gate nfa.entry nfa.finalId)
    (hall : Walk Arrival.nodeAndStart (Arrival.visit nfa (placeAfter w)) seen stack log)
    (hbest : Walk Arrival.target (Arrival.visit nfa (placeAfter w)) taken best log')
    (hthin : Thinned Arrival.target taken stack best) :
    Thinned (fun x => x.1.target) taken log log' := by
  induction hall generalizing taken best log' with
  | done seen =>
    cases hthin
    cases hbest
    exact .nil taken
  | @skip a seen rest log hs _ ih =>
    have ht : taken a.target := h.taken_of_seen _ hs
    cases hthin with
    | keep hthin =>
      cases hbest with
      | skip _ hbest => exact ih (h.skip hs) hbest (hthin.mono (by rintro n (hn | rfl) <;> assumption))
      | visit hfree => exact (hfree ht).elim
    | drop _ hthin => exact ih (h.skip hs) hbest hthin
  | @visit a t seen later rest log hns hv _ ih =>
    -- A visit that the search for the best leaves out puts only dropped arrivals on the stack.
    have hdrop : ∀ {best' log''}, taken a.target → Thinned Arrival.target taken rest best' →
        Walk Arrival.target (Arrival.visit nfa (placeAfter w)) taken best' log'' →
        Thinned (fun x => x.1.target) taken ((a, t) :: log) log'' := by
      intro best' log'' ht hthin hbest
      have hpace : nfa.Pace w (fun k => seen k ∨ k = a.nodeAndStart) taken (later ++ rest) :=
        h.visit hw hg hv fun n => ⟨.inl, by rintro (hn | rfl) <;> assumption⟩
      exact .drop ht (ih hpace hbest (hthin.append_drop (h.taken_of_mem_later hg hv hns ht)))
    cases hthin with
    | @keep _ _ _ best hthin =>
      cases hbest with
      | skip ht hbest => exact hdrop ht (hthin.mono (by rintro n (hn | rfl) <;> assumption)) hbest
      | visit hfree hv' hbest =>
        rw [hv] at hv'
        cases hv'
        refine .keep (ih (h.visit hw hg hv fun n => Iff.rfl) hbest (.append_keep ?_))
        exact hthin.mono fun n hn => .inl hn
    | drop ht hthin => exact hdrop ht hthin hbest

/-- Visits come by start, but for arrivals in front of the gate. -/
theorem pairwise_start_of_traversal {slot : Arrival → Except Fault (Fin n)} {marks final : Vector Bool n}
    {stack : List Arrival} {log : List (Arrival × Thread)} (hw : nfa.WellFormed)
    (hg : Gated nfa.graph nfa.marker outside gate nfa.entry nfa.finalId)
    (ht : Traversal slot (Arrival.visit nfa (placeAfter w)) marks stack log final)
    (harr : ∀ a ∈ stack, nfa.Arrives w a)
    (hs : stack.Pairwise fun a b => startsNoLater a.start b.start = true) :
    log.Pairwise fun x y => ∀ s, x.1.start = some s → startsNoLater (some s) y.1.start = true := by
  induction ht with
  | done => exact .nil
  | skip _ _ _ ih =>
    exact ih (fun b hb => harr b (List.mem_cons_of_mem _ hb)) (List.pairwise_cons.mp hs).2
  | @visit a t i marks final later rest log _ _ hv ht ih =>
    have ha := harr a List.mem_cons_self
    have harr' : ∀ b ∈ later ++ rest, nfa.Arrives w b := by
      intro b hb
      rcases List.mem_append.mp hb with hb | hb
      · exact ha.next hv hb
      · exact harr b (List.mem_cons_of_mem a hb)
    refine .cons (fun y hy s has => ?_) (ih harr' (sorted_visit hg ha hv hs))
    refine ht.forall_log (fun b => startsNoLater (some s) b.start = true) (fun b u next hb hv' c hc => ?_)
      (fun b hb => ?_) y hy
    · rw [start_of_mem_later hv' hc]
      exact ha.startsNoLater_start hg hw hv' has hb
    · rcases List.mem_append.mp hb with hb | hb
      · rw [start_of_mem_later hv hb]
        exact ha.startsNoLater_start hg hw hv has (has ▸ startsNoLater_refl _)
      · exact has ▸ (List.pairwise_cons.mp hs).1 b hb

/-- The second list keeps, of the threads at each node, one with the earliest start. -/
structure Thinner (all best : List Thread) : Prop where
  sublist : best.Sublist all
  covered : ∀ t ∈ all, ∃ t' ∈ best, t'.node = t.node ∧ startsNoLater t'.start t.start = true

/-- Of two arrivals at a node in order the first one has the earlier thread. -/
theorem Arrives.startsNoLater_thread (ha : nfa.Arrives w a) (hb : nfa.Arrives w b)
    (hg : Gated nfa.graph nfa.marker outside gate nfa.entry nfa.finalId) {u : Thread}
    {later' : List Arrival} (hv : a.visit nfa (placeAfter w) = .ok (t, later))
    (hv' : b.visit nfa (placeAfter w) = .ok (u, later')) (htarget : a.target = b.target)
    (hs : ∀ s, a.start = some s → startsNoLater (some s) b.start = true) :
    startsNoLater t.start u.start = true := by
  by_cases ho : outside a.target
  · have hab : a.start = b.start := (ha.matchStart_of_outside hg ho).trans
      (hb.matchStart_of_outside hg (htarget ▸ ho)).symm
    rw [(eq_of_visit hv hv' htarget hab).2]
    exact startsNoLater_refl _
  · have hne : a.target ≠ gate := fun hgate => ho (hgate ▸ hg.gate_outside)
    obtain ⟨v, v', -, hi⟩ := ha.within hg ho
    rw [start_of_visit hg hv, start_of_visit hg hv', ← htarget, if_neg hne, if_neg hne]
    have hstart : a.start = some (placeAfter v) := hi.matchStart_eq
    change startsNoLater a.start b.start = true
    rw [hstart]
    exact hs _ hstart

section Walks

variable {stack : List Arrival} {log : List (Arrival × Thread)}

theorem walk_exhaustive {final : Vector Bool (Mode.exhaustive.slots length nfa.size)}
    (hw : nfa.WellFormed) (hl : w.length ≤ length)
    (ht : Traversal (Arrival.slot .exhaustive length nfa.size) (Arrival.visit nfa (placeAfter w))
      (noMarks _) stack log final)
    (harr : ∀ a ∈ stack, nfa.Arrives w a) :
    Walk Arrival.nodeAndStart (Arrival.visit nfa (placeAfter w)) (fun _ => False) stack log := by
  refine ht.walk_of_noMarks (nfa.Arrives w) (fun _ _ _ ha hv _ hb => ha.next hv hb)
    (fun a b ha hb => ⟨fun h => ?_, fun h => ?_⟩) harr
  · obtain ⟨htarget, hstart⟩ := ha.eq_of_slot_eq hb hw hl h
    exact Prod.ext htarget hstart
  · obtain ⟨htarget, hstart⟩ := Prod.mk.inj h
    exact slot_congr (by rw [htarget]; exact congrArg _ hstart)

theorem walk_bestOnly {final : Vector Bool (Mode.bestOnly.slots length nfa.size)}
    (hw : nfa.WellFormed) (hl : w.length ≤ length)
    (ht : Traversal (Arrival.slot .bestOnly length nfa.size) (Arrival.visit nfa (placeAfter w))
      (noMarks _) stack log final)
    (harr : ∀ a ∈ stack, nfa.Arrives w a) :
    Walk Arrival.target (Arrival.visit nfa (placeAfter w)) (fun _ => False) stack log :=
  ht.walk_of_noMarks (nfa.Arrives w) (fun _ _ _ ha hv _ hb => ha.next hv hb)
    (fun _ _ ha hb => ⟨fun h => ha.target_eq_of_slot_eq hb hw hl h, fun h => slot_congr h⟩) harr

end Walks

/-- Closures from an ordered stack and from a thinned out part of it end with a thinned out part of the
threads. -/
theorem Run.thinner_of_traversal {stack best : List Arrival} {log log' : List (Arrival × Thread)}
    {final : Vector Bool (Mode.exhaustive.slots length nfa.size)}
    {final' : Vector Bool (Mode.bestOnly.slots length nfa.size)} (hr : nfa.Run .exhaustive length w log)
    (hw : nfa.WellFormed)
    (hg : Gated nfa.graph nfa.marker outside gate nfa.entry nfa.finalId) (hl : w.length ≤ length)
    (ht : Traversal (Arrival.slot .exhaustive length nfa.size) (Arrival.visit nfa (placeAfter w))
      (noMarks _) stack log final)
    (ht' : Traversal (Arrival.slot .bestOnly length nfa.size) (Arrival.visit nfa (placeAfter w))
      (noMarks _) best log' final')
    (harr : ∀ a ∈ stack, nfa.Arrives w a)
    (hs : stack.Pairwise fun a b => startsNoLater a.start b.start = true)
    (hthin : Thinned Arrival.target (fun _ => False) stack best) :
    Thinner (liveThreads log) (liveThreads log') := by
  have hpace : nfa.Pace w (fun _ => False) (fun _ => False) stack :=
    ⟨harr, hs, fun _ h => h.elim, fun _ h => h.elim, fun _ h => h.elim, fun _ _ h => h.elim,
      fun _ _ _ h => h.elim⟩
  have hlog := hpace.thinned hw hg (walk_exhaustive hw hl ht harr)
    (walk_bestOnly hw hl ht' fun a ha => harr a (hthin.sublist.subset ha)) hthin
  have horder : log.Pairwise fun x y => x.1.target = y.1.target →
      startsNoLater x.2.start y.2.start = true := by
    refine (pairwise_start_of_traversal hw hg ht harr hs).imp_of_mem fun {x y} hx hy hxy htarget => ?_
    obtain ⟨hxa, later, hxv⟩ := hr.arrives hx
    obtain ⟨hya, later', hyv⟩ := hr.arrives hy
    exact hxa.startsNoLater_thread hya hg hxv hyv htarget hxy
  refine ⟨(hlog.sublist.map Prod.snd).filter _, fun t ht => ?_⟩
  obtain ⟨⟨a, hx⟩, hlive⟩ := mem_liveThreads.mp ht
  rcases hlog.covered (R := fun x y => startsNoLater x.2.start y.2.start = true)
    (fun x => startsNoLater_refl _) horder _ hx with h | ⟨y, hy, htarget, hle⟩
  · exact h.elim
  · have hnode : y.2.node = t.node := (hr.target_eq_iff hw (hlog.sublist.subset hy) hx).mp htarget
    exact ⟨y.2, mem_liveThreads.mpr ⟨⟨y.1, hy⟩, hnode ▸ hlive⟩, hnode, hle⟩

theorem sorted_threads (threads : List Thread) :
    (threads.mergeSort fun s t => startsNoLater s.start t.start).Pairwise
      fun s t => startsNoLater s.start t.start = true :=
  @List.pairwise_mergeSort Thread (fun s t => startsNoLater s.start t.start)
    (fun _ _ _ => startsNoLater_trans) (fun _ _ => startsNoLater_total _ _) threads

/-- The arrivals of a place are ordered like the threads that they come from. -/
theorem sorted_arrivals (threads : List Thread) (c : Char) :
    (arrivals threads c).Pairwise fun a b => startsNoLater a.start b.start = true := by
  refine List.pairwise_flatMap.mpr ⟨fun t _ => ?_, (sorted_threads threads).imp fun hst a ha b hb => ?_⟩
  · refine List.pairwise_of_forall_mem_list fun a ha b hb => ?_
    obtain ⟨p, -, rfl⟩ := List.mem_map.mp ha
    obtain ⟨q, -, rfl⟩ := List.mem_map.mp hb
    exact startsNoLater_refl _
  · obtain ⟨p, -, rfl⟩ := List.mem_map.mp ha
    obtain ⟨q, -, rfl⟩ := List.mem_map.mp hb
    exact hst

/-- Reading a character keeps the search for the best a thinned out part of the exhaustive one. -/
theorem Thinner.arrivals {all best : List Thread} (h : Thinner all best)
    (hne : all.Pairwise fun s t => s.node = t.node → s.start ≠ t.start) (c : Char) :
    Thinned Arrival.target (fun _ => False) (arrivals all c) (arrivals best c) := by
  have hthreads : Thinned Thread.node (fun _ => False)
      (all.mergeSort fun s t => startsNoLater s.start t.start)
      (best.mergeSort fun s t => startsNoLater s.start t.start) := by
    refine thinned_of_sublist (fun s t : Thread => startsNoLater s.start t.start = true)
      (sublist_mergeSort_of_sublist (fun _ _ _ => startsNoLater_trans)
        (fun _ _ => startsNoLater_total _ _) h.sublist)
      (sorted_threads all) ?_ fun t ht => .inr ?_
    · have hsym : ∀ {s t : Thread}, (s.node = t.node → s.start ≠ t.start) →
          t.node = s.node → t.start ≠ s.start := fun h hn hs => h hn.symm hs.symm
      exact (hne.perm (List.mergeSort_perm all _).symm hsym).imp
        fun hst hnode hle hge => hst hnode (startsNoLater_antisymm hle hge)
    · obtain ⟨t', ht', hnode, hle⟩ := h.covered t (List.mem_mergeSort.mp ht)
      exact ⟨t', List.mem_mergeSort.mpr ht', hnode, hle⟩
  refine hthreads.flatMap (fun s t hst => ?_) (fun _ _ h => h.elim)
  simp only [List.map_map, hst]
  rfl

/-- At every place the search for the best has, of the threads of the exhaustive search at each node,
one with the earliest start. -/
theorem Run.thinner {log log' : List (Arrival × Thread)} (hr : nfa.Run .exhaustive length w log)
    (hr' : nfa.Run .bestOnly length w log') (hw : nfa.WellFormed)
    (hg : Gated nfa.graph nfa.marker outside gate nfa.entry nfa.finalId) (hl : w.length ≤ length) :
    Thinner (liveThreads log) (liveThreads log') := by
  induction hr generalizing log' with
  | first ht =>
    obtain ⟨final, ht'⟩ := hr'.of_nil
    refine Run.thinner_of_traversal (.first ht) hw hg hl ht ht' (by simpa using .entry)
      (List.pairwise_singleton _ _) (.keep (.nil _))
  | @next w c log log'' final hr ht ih =>
    obtain ⟨before, final', hbefore, ht'⟩ := hr'.of_append
    have hthin := ih hbefore (by rw [List.length_append] at hl; omega)
    exact Run.thinner_of_traversal (hr.next ht) hw hg hl ht ht'
      (fun a ha => arrives_of_mem_arrivals hr ha) (sorted_arrivals _ _)
      (hthin.arrivals (hr.pairwise_exhaustive hw hg) c)

theorem Sees.thinner {m m' : Moment} (hs : nfa.Sees .exhaustive length w m)
    (hs' : nfa.Sees .bestOnly length w m') (hw : nfa.WellFormed)
    (hg : Gated nfa.graph nfa.marker outside gate nfa.entry nfa.finalId) (hl : w.length ≤ length) :
    Thinner m.threads m'.threads := by
  obtain ⟨log, hr, rfl⟩ := hs
  obtain ⟨log', hr', rfl⟩ := hs'
  exact hr.thinner hr' hw hg hl

/-- The best match that ends at a place is the first one there of the exhaustive search. -/
theorem Sees.head?_accepting {m m' : Moment} {left right : Bool} {body : Pattern} {last : Int}
    (hs : nfa.Sees .exhaustive length w m) (hs' : nfa.Sees .bestOnly length w m')
    (hn : nfa.Recognizes left right body outside gate) (hl : w.length ≤ length) :
    (m'.accepting nfa last).head? = (m.accepting nfa last).head? := by
  have hthin := hs.thinner hs' hn.wellFormed hn.gated hl
  have hplace : m'.place = m.place := hs'.place_eq.trans hs.place_eq.symm
  have hsub : ∀ x ∈ m'.accepting nfa last, x ∈ m.accepting nfa last := by
    intro x hx
    rw [mem_accepting, hplace] at hx
    obtain ⟨hlast, t, ht, hx⟩ := hx
    exact mem_accepting.mpr ⟨hlast, t, hthin.sublist.subset ht, hx⟩
  have hcov : ∀ x ∈ m.accepting nfa last, ∃ y ∈ m'.accepting nfa last, y.start ≤ x.start := by
    intro x hx
    obtain ⟨hlast, t, ht, hf, rfl⟩ := mem_accepting.mp hx
    obtain ⟨t', ht', hnode, hle⟩ := hthin.covered t ht
    have hf' : t'.node.isFinal = true := hnode ▸ hf
    refine ⟨⟨m.place, t'.captures⟩, mem_accepting.mpr ?_, ?_⟩
    · rw [hplace]
      exact ⟨hlast, t', ht', hf', rfl⟩
    · rw [hs.start_of_isFinal hn (hthin.sublist.subset ht') hf' m.place,
        hs.start_of_isFinal hn ht hf m.place] at hle
      simpa [startsNoLater] using hle
  have hlt : (m.accepting nfa last).Pairwise fun x y => x.start < y.start := hs.pairwise_accepting hn
  have hle := sorted_accepting nfa last m'
  cases hall : m.accepting nfa last with
  | nil =>
    rw [hall] at hsub
    rw [List.eq_nil_iff_forall_not_mem.mpr fun x hx => List.not_mem_nil (hsub x hx)]
  | cons x rest =>
    rw [hall] at hsub hcov hlt
    have hfirst : ∀ y ∈ m'.accepting nfa last, y.start ≤ x.start → y = x := by
      intro y hy hyx
      rcases List.mem_cons.mp (hsub y hy) with rfl | hyr
      · rfl
      · have := (List.pairwise_cons.mp hlt).1 y hyr
        omega
    obtain ⟨y, hy, hyx⟩ := hcov x List.mem_cons_self
    obtain rfl := hfirst y hy hyx
    cases hbest : m'.accepting nfa last with
    | nil =>
      rw [hbest] at hy
      cases hy
    | cons z zs =>
      rw [hbest] at hy hle hfirst
      have hzy : z.start ≤ y.start := by
        rcases List.mem_cons.mp hy with rfl | hyz
        · exact Int.le_refl _
        · exact (List.pairwise_cons.mp hle).1 y hyz
      rw [hfirst z List.mem_cons_self hzy]
      rfl

end Nfa

end PatternAutomata
