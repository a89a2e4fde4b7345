import PatternAutomata.Proofs.BestOnly
import PatternAutomata.Proofs.Forks
import PatternAutomata.Proofs.Paths
import PatternAutomata.Proofs.Preorder

/-!
# The paths behind a search

Each arrival of an exhaustive search is given the path that it followed. At every place the paths on the
way to one start come in order: a closure takes the epsilons of a node in order and never goes on from a
node that reads, and sorting by start leaves paths to the same start as they are. A path that is dropped
finds its node taken by a path that is not later. So of all paths to a node with a start, the search
keeps the one that precedes the others, as long as these pass no node twice at one place: a path that
does may take an early epsilon back to where it was.
-/

namespace PatternAutomata

open PatternAutomata.Graph

/-- An arrival with the path to it. -/
structure Trail where
  steps : Steps
  arrival : Arrival

namespace Trail

def key (x : Trail) : Nat × Option Int := x.arrival.nodeAndStart

/-- A visit, after which each way on extends the path. -/
def visit (nfa : Nfa) (place : Int) (x : Trail) : Except Fault (Thread × List Trail) :=
  (x.arrival.visit nfa place).map fun (t, next) =>
    (t, next.map fun a => ⟨x.steps ++ [(none, a.target)], a⟩)

/-- The live threads behind the paths, those with earlier starts first. -/
def sorted (log : List (Trail × Thread)) : List (Trail × Thread) :=
  (log.filter (·.2.node.isLive)).mergeSort fun x y => startsNoLater x.2.start y.2.start

/-- The paths that go on by reading `c`. -/
def onward (log : List (Trail × Thread)) (c : Char) : List Trail :=
  (sorted log).flatMap fun x =>
    (x.2.node.step c).map fun q => ⟨x.1.steps ++ [(some c, q)], ⟨q, x.2.captures⟩⟩

/-- The log without the paths. -/
def bare (log : List (Trail × Thread)) : List (Arrival × Thread) := log.map fun x => (x.1.arrival, x.2)

theorem map_arrival_onward (log : List (Trail × Thread)) (c : Char) :
    (onward log c).map Trail.arrival = Nfa.arrivals (liveThreads (bare log)) c := by
  have hlive : (log.filter (·.2.node.isLive)).map Prod.snd = liveThreads (bare log) := by
    simp only [liveThreads, bare, List.map_map, List.filter_map]
    rfl
  have hsorted : (sorted log).map Prod.snd =
      (liveThreads (bare log)).mergeSort fun s t => startsNoLater s.start t.start := by
    rw [sorted, ← hlive]
    exact List.map_mergeSort fun _ _ _ _ => rfl
  rw [onward, Nfa.arrivals, ← hsorted, List.map_flatMap, List.flatMap_map]
  simp only [List.map_map]
  rfl

end Trail

namespace Nfa

/-- An exhaustive search that keeps the paths. -/
inductive Trace (nfa : Nfa) : List Char → List (Trail × Thread) → Prop
  | first {log : List (Trail × Thread)}
      (hw : Walk Trail.key (Trail.visit nfa (placeAfter [])) (fun _ => False)
        [⟨[], ⟨nfa.entry, .blank nfa.groupCount⟩⟩] log) : Trace nfa [] log
  | next {w : List Char} {c : Char} {log log' : List (Trail × Thread)} (ht : Trace nfa w log)
      (hw : Walk Trail.key (Trail.visit nfa (placeAfter (w ++ [c]))) (fun _ => False)
        (Trail.onward log c) log') : Trace nfa (w ++ [c]) log'

variable {nfa : Nfa} {length : Nat} {w : List Char} {c : Char} {log : List (Trail × Thread)}

/-- Every walk of a search can keep the paths. -/
theorem exists_walk_trail {place : Int} {stack : List Trail} {bare : List (Arrival × Thread)}
    (hw : Walk Arrival.nodeAndStart (Arrival.visit nfa place) (fun _ => False)
      (stack.map Trail.arrival) bare) :
    ∃ log, Walk Trail.key (Trail.visit nfa place) (fun _ => False) stack log ∧
      Trail.bare log = bare := by
  refine hw.lift (fun x t next hv => ?_) rfl
  refine ⟨next.map fun a => ⟨x.steps ++ [(none, a.target)], a⟩, ?_, ?_⟩
  · rw [Trail.visit, hv]
    rfl
  · rw [List.map_map]
    exact List.map_id next

theorem Run.exists_trace {bare : List (Arrival × Thread)} (hr : nfa.Run .exhaustive length w bare)
    (hw : nfa.WellFormed) (hl : w.length ≤ length) : ∃ log, nfa.Trace w log ∧ Trail.bare log = bare := by
  induction hr with
  | first ht =>
    have hwalk := walk_exhaustive hw hl ht (by simpa using .entry)
    change Walk _ _ _ ([(⟨[], ⟨nfa.entry, .blank nfa.groupCount⟩⟩ : Trail)].map Trail.arrival) _ at hwalk
    obtain ⟨log, hwalk, hlog⟩ := exists_walk_trail hwalk
    exact ⟨log, .first hwalk, hlog⟩
  | @next w c before bare final hr ht ih =>
    obtain ⟨log, htrace, rfl⟩ := ih (by simp at hl; omega)
    have harr : ∀ a ∈ arrivals (liveThreads (Trail.bare log)) c, nfa.Arrives (w ++ [c]) a :=
      fun a ha => arrives_of_mem_arrivals hr ha
    have hwalk := walk_exhaustive hw hl ht harr
    rw [← Trail.map_arrival_onward] at hwalk
    obtain ⟨log', hwalk, hlog⟩ := exists_walk_trail hwalk
    exact ⟨log', htrace.next hwalk, hlog⟩

/-- Whether a match that starts at `s` is on its way: it has started there, or has yet to start. -/
def Toward (s place : Int) (start : Option Int) : Prop := start = some s ∨ start = none ∧ place ≤ s

instance (s place : Int) (start : Option Int) : Decidable (Toward s place start) :=
  inferInstanceAs (Decidable (_ ∨ _))

variable {outside : Nat → Prop} {gate : Nat} {a : Arrival} {t : Thread} {s place place' : Int}
  {start : Option Int} {x y z : Trail} {stack : List Trail} {π π' ρ : Steps}

theorem Toward.mono (h : Toward s place' start) (hle : place ≤ place') : Toward s place start :=
  h.imp_right (.imp_right hle.trans)

/-- A match that is on its way after a visit was on its way before. -/
theorem Arrives.toward_of_visit {next : List Arrival} (ha : nfa.Arrives w a)
    (hg : Gated nfa.graph nfa.marker outside gate nfa.entry nfa.finalId)
    (hv : a.visit nfa (placeAfter w) = .ok (t, next)) (h : Toward s (placeAfter w) t.start) :
    Toward s (placeAfter w) a.start := by
  rw [start_of_visit hg hv] at h
  split at h
  · rename_i hgate
    have hnone : a.start = none := ha.matchStart_of_outside hg (hgate ▸ hg.gate_outside)
    rcases h with h | ⟨h, -⟩
    · exact .inr ⟨hnone, (Option.some.inj h).le⟩
    · cases h
  · exact h

/-- The path of a trail leads to its arrival, and reads the word. -/
structure Tracks (nfa : Nfa) (w : List Char) (x : Trail) : Prop where
  follows : nfa.Follows x.steps x.arrival
  word_eq : x.steps.word = w

theorem Tracks.arrives (h : nfa.Tracks w x) : nfa.Arrives w x.arrival := h.word_eq ▸ h.follows.arrives

theorem Tracks.ending_eq (h : nfa.Tracks w x) : x.steps.ending nfa.entry = x.arrival.target :=
  h.follows.ending_eq

/-- A visit of a trail leads along the epsilons of its node. -/
theorem visit_trail_eq_ok {next : List Trail} (hv : x.visit nfa place = .ok (t, next)) :
    (∃ next', x.arrival.visit nfa place = .ok (t, next')) ∧
      next = t.node.epsilons.map fun q => ⟨x.steps ++ [(none, q)], ⟨q, t.captures⟩⟩ := by
  obtain ⟨⟨t', next'⟩, hv', heq⟩ := exists_of_map_eq_ok hv
  obtain ⟨rfl, rfl⟩ := Prod.mk.inj heq
  refine ⟨⟨next', hv'⟩, ?_⟩
  rw [(visit_eq_ok hv').2.2, List.map_map]
  rfl

/-- Of two paths on the way to the same start, the first precedes the second. -/
def Earlier (nfa : Nfa) (s place : Int) (x y : Trail) : Prop :=
  Toward s place x.arrival.start → Toward s place y.arrival.start → nfa.Precedes x.steps y.steps

/-- Of two paths on the way to the same start, the first goes on as the second or precedes it. -/
def NotLater (nfa : Nfa) (s place : Int) (x y : Trail) : Prop :=
  Toward s place x.arrival.start → Toward s place y.arrival.start → nfa.NoLater x.steps y.steps

/-- Visits take the epsilons of a node in order. -/
theorem orderly_visit (hf : nfa.Forks)
    (hg : Gated nfa.graph nfa.marker outside gate nfa.entry nfa.finalId) (w : List Char) (s : Int) :
    Orderly (Trail.visit nfa (placeAfter w)) (nfa.Tracks w) (nfa.Earlier s (placeAfter w))
      (nfa.NotLater s (placeAfter w)) := by
  have hback : ∀ x t next, nfa.Tracks w x → x.visit nfa (placeAfter w) = .ok (t, next) → ∀ y ∈ next,
      ∃ q ∈ t.node.epsilons, y = ⟨x.steps ++ [(none, q)], ⟨q, t.captures⟩⟩ ∧
        (Toward s (placeAfter w) y.arrival.start → Toward s (placeAfter w) x.arrival.start) := by
    intro x t next hx hv y hy
    obtain ⟨⟨next', hv'⟩, rfl⟩ := visit_trail_eq_ok hv
    obtain ⟨q, hq, rfl⟩ := List.mem_map.mp hy
    exact ⟨q, hq, rfl, hx.arrives.toward_of_visit hg hv'⟩
  refine ⟨fun x _ _ => .refl _, fun x y h hx hy => .inr (h hx hy), fun x t next hx hv y hy => ?_,
    fun x t next hx hv => ?_, fun x t next hx hv y hy z h hz hy' => ?_,
    fun x t next hx hv y hy z h hy' hz => ?_⟩
  · obtain ⟨⟨next', hv'⟩, -⟩ := visit_trail_eq_ok hv
    obtain ⟨q, hq, rfl, -⟩ := hback x t next hx hv y hy
    refine ⟨⟨hx.follows.go (o := none) (hx.word_eq ▸ hv') hq, ?_⟩, fun _ _ => ?_⟩
    · rw [Steps.word_append, Steps.word_singleton, hx.word_eq, Option.toList_none, List.append_nil]
    · exact (NoLater.refl _).append_right _
  · obtain ⟨⟨next', hv'⟩, rfl⟩ := visit_trail_eq_ok hv
    have hnode := (visit_eq_ok hv').1
    have hnodup := hf.nodup _ _ hnode
    refine List.pairwise_map.mpr (List.pairwise_iff_getElem.mpr fun i j hi hj hij _ _ => ?_)
    refine ⟨x.steps, _, _, [], [], t.node, rfl, rfl, hx.ending_eq ▸ hnode, ?_⟩
    rwa [hnodup.idxOf_getElem i hi, hnodup.idxOf_getElem j hj]
  · obtain ⟨q, hq, rfl, htoward⟩ := hback x t next hx hv y hy
    exact (h hz (htoward hy')).append_right _
  · obtain ⟨q, hq, rfl, htoward⟩ := hback x t next hx hv y hy
    exact List.append_nil z.steps ▸ (h (htoward hy') hz).append _ []

/-- What a closure starts from: paths in order that have just read, and pass no node twice at one
place. -/
structure Rooted (nfa : Nfa) (w : List Char) (stack : List Trail) : Prop where
  tracks : ∀ x ∈ stack, nfa.Tracks w x
  root : ∀ x ∈ stack, ∀ π q, x.steps ≠ π ++ [(none, q)]
  nodup : ∀ x ∈ stack, (nfa.visits x.steps).Nodup
  pairwise : ∀ s, stack.Pairwise fun x y => nfa.Earlier s (placeAfter w) x y ∨ y = x

/-- What a closure has visited: paths in order that pass no node twice at one place. -/
structure Charted (nfa : Nfa) (w : List Char) (log : List (Trail × Thread)) : Prop where
  tracks : ∀ x ∈ log, nfa.Tracks w x.1
  visited : ∀ x ∈ log, ∃ next, x.1.visit nfa (placeAfter w) = .ok (x.2, next)
  nodup_keys : (log.map fun x => x.1.key).Nodup
  nodup : ∀ x ∈ log, (nfa.visits x.1.steps).Nodup
  pairwise : ∀ s, log.Pairwise fun x y => nfa.NotLater s (placeAfter w) x.1 y.1

theorem Charted.exists_next {e : Trail × Thread} (h : nfa.Charted w log) (he : e ∈ log) :
    ∃ next, e.1.arrival.visit nfa (placeAfter w) = .ok (e.2, next) := by
  obtain ⟨next, hv⟩ := h.visited e he
  exact (visit_trail_eq_ok hv).1

theorem rooted_entry (nfa : Nfa) : nfa.Rooted [] [⟨[], ⟨nfa.entry, .blank nfa.groupCount⟩⟩] := by
  refine ⟨fun x hx => ?_, fun x hx π q => ?_, fun x hx => ?_, fun s => List.pairwise_singleton _ _⟩
  all_goals obtain rfl := List.mem_singleton.mp hx
  · exact ⟨.entry, rfl⟩
  · simp
  · simp [visits, Steps.visits]

theorem Rooted.inOrder (h : nfa.Rooted w stack) (s : Int) :
    InOrder Trail.key (nfa.Tracks w) (nfa.Earlier s (placeAfter w)) (nfa.NotLater s (placeAfter w))
      (fun _ => False) (fun _ => False) stack :=
  ⟨h.tracks, by simp, fun _ h => h.elim, (h.pairwise s).imp (.imp_right .inl)⟩

section Closure

/-- A way on from a trail adds a silent step. -/
theorem steps_of_mem_next {next : List Trail} (hv : x.visit nfa place = .ok (t, next)) (hy : y ∈ next) :
    ∃ q, y.steps = x.steps ++ [(none, q)] ∧ y.arrival.start = t.start := by
  obtain ⟨-, rfl⟩ := visit_trail_eq_ok hv
  obtain ⟨q, -, rfl⟩ := List.mem_map.mp hy
  exact ⟨q, rfl, rfl⟩

/-- What a visited path passed at this place was visited as well. -/
theorem Rooted.exists_of_prefix (h : nfa.Rooted w stack)
    (hw : Walk Trail.key (Trail.visit nfa (placeAfter w)) (fun _ => False) stack log)
    (htracks : ∀ x ∈ log, nfa.Tracks w x.1) {e : Trail × Thread} (he : e ∈ log) (hρ : ρ <+: e.1.steps)
    (hword : ρ.word.length = w.length) : ∃ z ∈ log, z.1.steps = ρ := by
  generalize hn : e.1.steps.length = n
  induction n using Nat.strong_induction_on generalizing e with
  | _ n ih =>
    obtain ⟨-, hroot | ⟨y, hy, next, hv, hnext⟩⟩ := hw.origin e he
    · -- A path that has just read passes only its last node at this place.
      refine ⟨e, he, ?_⟩
      have hw' := (htracks e he).word_eq
      rcases List.eq_nil_or_concat' e.1.steps with hnil | ⟨π, ⟨o, q⟩, hsteps⟩
      · rw [hnil] at hρ ⊢
        exact (List.prefix_nil.mp hρ).symm
      · rw [hsteps, List.prefix_concat_iff] at hρ
        rcases hρ with rfl | hρ
        · exact hsteps
        · have hle := (Steps.word_prefix hρ).length_le
          cases o with
          | none => exact (h.root _ hroot π q hsteps).elim
          | some c =>
            rw [hsteps, Steps.word_append, Steps.word_singleton] at hw'
            have hlength := congrArg List.length hw'
            simp at hlength
            omega
    · obtain ⟨q, hsteps, -⟩ := steps_of_mem_next hv hnext
      rw [hsteps, List.prefix_concat_iff] at hρ
      rcases hρ with rfl | hρ
      · exact ⟨e, he, hsteps⟩
      · refine ih _ ?_ hy hρ rfl
        rw [← hn, hsteps]
        simp

theorem Rooted.nodup_of_mem (h : nfa.Rooted w stack)
    (hwalk : Walk Trail.key (Trail.visit nfa (placeAfter w)) (fun _ => False) stack log)
    (htracks : ∀ x ∈ log, nfa.Tracks w x.1) (hw : nfa.WellFormed)
    (hg : Gated nfa.graph nfa.marker outside gate nfa.entry nfa.finalId) {e : Trail × Thread}
    (he : e ∈ log) : (nfa.visits e.1.steps).Nodup := by
  generalize hn : e.1.steps.length = n
  induction n using Nat.strong_induction_on generalizing e with
  | _ n ih =>
    obtain ⟨-, hroot | ⟨y, hy, next, hv, hnext⟩⟩ := hwalk.origin e he
    · exact h.nodup _ hroot
    · obtain ⟨q, hsteps, -⟩ := steps_of_mem_next hv hnext
      have hlength : e.1.steps.length = y.1.steps.length + 1 := by simp [hsteps]
      have hey := htracks e he
      have hword := hey.word_eq
      have hend := hey.ending_eq
      rw [hsteps] at hword hend ⊢
      rw [Steps.ending_append] at hend
      rw [visits_append, hword]
      refine List.nodup_append.mpr ⟨ih _ (by omega) hy rfl, List.nodup_singleton _, ?_⟩
      rintro v hv' v' hmem rfl
      obtain rfl := List.mem_singleton.mp hmem
      obtain ⟨ρ, hρ, hρend, hplace⟩ := Steps.mem_visits_iff.mp hv'
      -- The trail of the earlier passage has the same key, so it is the trail itself.
      obtain ⟨z, hz, rfl⟩ := h.exists_of_prefix hwalk htracks hy hρ (by
        simp only [placeAfter] at hplace
        omega)
      have htarget : z.1.arrival.target = e.1.arrival.target := by
        rw [← (htracks z hz).ending_eq, hρend, hend]
      have hprefix : z.1.steps <+: e.1.steps := hsteps ▸ hρ.trans (List.prefix_append _ _)
      have hstart := hey.follows.start_eq_of_prefix (htracks z hz).follows hw hg hprefix htarget
      have hkey : z.1.key = e.1.key := Prod.ext htarget hstart
      have heq := List.inj_on_of_nodup_map hwalk.nodup_keys.2 hz he hkey
      have hle := hρ.length_le
      rw [heq] at hle
      omega

/-- A closure visits paths in order, and none that passes a node twice at its place. -/
theorem Rooted.charted (h : nfa.Rooted w stack)
    (hwalk : Walk Trail.key (Trail.visit nfa (placeAfter w)) (fun _ => False) stack log)
    (hf : nfa.Forks) (hw : nfa.WellFormed)
    (hg : Gated nfa.graph nfa.marker outside gate nfa.entry nfa.finalId) : nfa.Charted w log := by
  have htracks : ∀ x ∈ log, nfa.Tracks w x.1 := hwalk.forall_log
    (fun x t next hx hv y hy => ((orderly_visit hf hg w 0).follow x t next hx hv y hy).1) h.tracks
  exact ⟨htracks, fun x hx => (hwalk.origin x hx).1, hwalk.nodup_keys.2,
    fun x hx => h.nodup_of_mem hwalk htracks hw hg hx,
    fun s => (hwalk.pairwise_le (orderly_visit hf hg w s) (h.inOrder s)).2⟩

/-- A visited path that can read does not go on at its place, so it precedes what is visited later. -/
theorem Charted.pairwise_precedes (h : nfa.Charted w log) (hf : nfa.Forks) (hw : nfa.WellFormed)
    (hg : Gated nfa.graph nfa.marker outside gate nfa.entry nfa.finalId) (s : Int) (c : Char) :
    log.Pairwise fun x y => Toward s (placeAfter w) x.2.start → Toward s (placeAfter w) y.2.start →
      x.2.node.step c ≠ [] → nfa.Precedes x.1.steps y.1.steps := by
  have hkeys : log.Pairwise fun x y => x.1.key ≠ y.1.key := List.pairwise_map.mp h.nodup_keys
  refine ((h.pairwise s).and hkeys).imp_of_mem fun {x y} hx hy hxy htx hty hreads => ?_
  obtain ⟨hle, hne⟩ := hxy
  have hbefore : ∀ e ∈ log, Toward s (placeAfter w) e.2.start →
      Toward s (placeAfter w) e.1.arrival.start := fun e he hte => by
    obtain ⟨next, hv⟩ := h.exists_next he
    exact (h.tracks e he).arrives.toward_of_visit hg hv hte
  rcases hle (hbefore x hx htx) (hbefore y hy hty) with hprefix | hlt
  · obtain ⟨ρ, hρ⟩ := id hprefix
    have hxw := h.tracks x hx
    have hyw := h.tracks y hy
    cases ρ with
    | nil =>
      rw [List.append_nil] at hρ
      have htarget : x.1.arrival.target = y.1.arrival.target := by
        rw [← hxw.ending_eq, hρ, hyw.ending_eq]
      have hstart := hyw.follows.start_eq_of_prefix hxw.follows hw hg hprefix htarget
      exact (hne (Prod.ext htarget hstart)).elim
    | cons step ρ =>
      obtain ⟨o, q⟩ := step
      have hfirst : x.1.steps ++ [(o, q)] <+: y.1.steps := ⟨ρ, by rw [← hρ]; simp⟩
      have hsilent : o = none := by
        have hlength := (Steps.word_prefix hfirst).length_le
        rw [Steps.word_append, Steps.word_singleton, hxw.word_eq, hyw.word_eq] at hlength
        cases o with
        | none => rfl
        | some d =>
          simp only [List.length_append, Option.toList_some, List.length_singleton] at hlength
          omega
      obtain ⟨next, hv⟩ := h.exists_next hx
      obtain ⟨r, hr⟩ := List.exists_mem_of_ne_nil _ hreads
      have hread : nfa.graph x.1.arrival.target (some c) r := (graph_of_visit hv).mpr hr
      have hgo := hyw.follows.graph_of_prefix hfirst
      rw [hxw.ending_eq] at hgo
      exact ((hf.sole _ _ _ _ _ hread hgo).1 hsilent).elim
  · exact hlt

/-- Of the threads that are alive, those with one start stay in order when they are sorted by start. -/
theorem Charted.pairwise_sorted (h : nfa.Charted w log) (hf : nfa.Forks) (hw : nfa.WellFormed)
    (hg : Gated nfa.graph nfa.marker outside gate nfa.entry nfa.finalId) (s : Int) (c : Char) :
    (Trail.sorted log).Pairwise fun x y => Toward s (placeAfter w + 1) x.2.start →
      Toward s (placeAfter w + 1) y.2.start → x.2.node.step c ≠ [] →
        nfa.Precedes x.1.steps y.1.steps := by
  have hle : placeAfter w ≤ placeAfter w + 1 := by omega
  have hbound : ∀ x ∈ log, ∀ s, x.2.start = some s → s ≤ placeAfter w := fun x hx s hs => by
    obtain ⟨next, hv⟩ := h.exists_next hx
    exact (((h.tracks x hx).arrives.fits_of_visit hw hv).matchStart_le hs).2
  have hsame : ∀ x ∈ log.filter (·.2.node.isLive), ∀ y ∈ log.filter (·.2.node.isLive),
      decide (Toward s (placeAfter w + 1) x.2.start) = true →
        decide (Toward s (placeAfter w + 1) y.2.start) = true →
          startsNoLater x.2.start y.2.start = true := by
    intro x hx y hy htx hty
    have hxs := hbound x (List.mem_filter.mp hx).1
    rcases of_decide_eq_true hty with hty | ⟨hty, hplace⟩
    · rcases of_decide_eq_true htx with htx | ⟨htx, hplace⟩
      · rw [htx, hty]
        exact startsNoLater_refl _
      · have := hbound y (List.mem_filter.mp hy).1 s hty
        omega
    · rw [hty]
      exact startsNoLater_none
  have hkeep : (Trail.sorted log).filter (fun x => decide (Toward s (placeAfter w + 1) x.2.start)) =
      (log.filter (·.2.node.isLive)).filter
        (fun x => decide (Toward s (placeAfter w + 1) x.2.start)) :=
    @filter_mergeSort_eq (Trail × Thread) (fun x y => startsNoLater x.2.start y.2.start) _
      (fun _ _ _ => startsNoLater_trans) (fun _ _ => startsNoLater_total _ _) _ hsame
  have hpairwise := (h.pairwise_precedes hf hw hg s c).filter (·.2.node.isLive)
  have hfiltered : ((Trail.sorted log).filter
      (fun x => decide (Toward s (placeAfter w + 1) x.2.start))).Pairwise
        fun x y => x.2.node.step c ≠ [] → nfa.Precedes x.1.steps y.1.steps := by
    rw [hkeep]
    refine List.pairwise_filter.mpr (hpairwise.imp fun hxy htx hty => ?_)
    exact hxy ((of_decide_eq_true htx).mono hle) ((of_decide_eq_true hty).mono hle)
  exact (List.pairwise_filter.mp hfiltered).imp fun hxy htx hty =>
    hxy (decide_eq_true htx) (decide_eq_true hty)

theorem mem_onward : x ∈ Trail.onward log c ↔ ∃ e ∈ log, ∃ q ∈ e.2.node.step c,
    x = ⟨e.1.steps ++ [(some c, q)], ⟨q, e.2.captures⟩⟩ := by
  simp only [Trail.onward, Trail.sorted, List.mem_flatMap, List.mem_mergeSort, List.mem_filter,
    List.mem_map]
  constructor
  · rintro ⟨e, ⟨he, -⟩, q, hq, rfl⟩
    exact ⟨e, he, q, hq, rfl⟩
  · rintro ⟨e, he, q, hq, rfl⟩
    exact ⟨e, ⟨he, isLive_of_mem_step hq⟩, q, hq, rfl⟩

/-- The paths that go on by reading are what the next closure may start from. -/
theorem Charted.rooted_onward (h : nfa.Charted w log) (hf : nfa.Forks) (hw : nfa.WellFormed)
    (hg : Gated nfa.graph nfa.marker outside gate nfa.entry nfa.finalId) (c : Char) :
    nfa.Rooted (w ++ [c]) (Trail.onward log c) := by
  refine ⟨fun x hx => ?_, fun x hx π q heq => ?_, fun x hx => ?_, fun s => ?_⟩
  · obtain ⟨e, he, q, hq, rfl⟩ := mem_onward.mp hx
    obtain ⟨hfollows, hword⟩ := h.tracks e he
    obtain ⟨next, hv⟩ := h.exists_next he
    refine ⟨hfollows.go (o := some c) (hword ▸ hv) hq, ?_⟩
    rw [Steps.word_append, Steps.word_singleton, hword]
    rfl
  · obtain ⟨e, he, r, hr, rfl⟩ := mem_onward.mp hx
    obtain ⟨-, hlast⟩ := List.append_inj' heq rfl
    cases hlast
  · obtain ⟨e, he, q, hq, rfl⟩ := mem_onward.mp hx
    rw [visits_append]
    refine List.nodup_append.mpr ⟨h.nodup e he, List.nodup_singleton _, ?_⟩
    rintro v hv v' hmem rfl
    obtain rfl := List.mem_singleton.mp hmem
    -- The new place lies behind all places of the path so far.
    obtain ⟨ρ, hρ, -, hplace⟩ := Steps.mem_visits_iff.mp hv
    have hlength := (Steps.word_prefix hρ).length_le
    simp only [Steps.word_append, Steps.word_singleton, placeAfter, List.length_append,
      Option.toList_some, List.length_singleton] at hplace
    omega
  · have hplace : placeAfter (w ++ [c]) = placeAfter w + 1 := by simp
    refine List.pairwise_flatMap.mpr ⟨fun e he => ?_, ?_⟩
    · have hlog := (List.mem_filter.mp ((List.mergeSort_perm _ _).mem_iff.mp he)).1
      obtain ⟨next, hv⟩ := h.exists_next hlog
      refine List.pairwise_map.mpr (List.pairwise_of_forall_mem_list fun q hq r hr => .inr ?_)
      have hq' : nfa.graph e.1.arrival.target (some c) q := (graph_of_visit hv).mpr hq
      have hr' : nfa.graph e.1.arrival.target (some c) r := (graph_of_visit hv).mpr hr
      rw [(hf.sole _ _ _ _ _ hq' hr').2]
    · refine (h.pairwise_sorted hf hw hg s c).imp fun {e e'} hee x hx y hy => .inl fun htx hty => ?_
      obtain ⟨q, hq, rfl⟩ := List.mem_map.mp hx
      obtain ⟨r, hr, rfl⟩ := List.mem_map.mp hy
      rw [hplace] at htx hty
      exact (hee htx hty (List.ne_nil_of_mem hq)).append _ _

end Closure

/-- At each place the closure starts from paths in order. -/
theorem Trace.charted (h : nfa.Trace w log) (hf : nfa.Forks) (hw : nfa.WellFormed)
    (hg : Gated nfa.graph nfa.marker outside gate nfa.entry nfa.finalId) : nfa.Charted w log := by
  induction h with
  | first hwalk => exact (rooted_entry nfa).charted hwalk hf hw hg
  | next _ hwalk ih => exact (ih.rooted_onward hf hw hg _).charted hwalk hf hw hg

theorem Trace.of_nil (h : nfa.Trace [] log) :
    Walk Trail.key (Trail.visit nfa (placeAfter [])) (fun _ => False)
      [⟨[], ⟨nfa.entry, .blank nfa.groupCount⟩⟩] log := by
  generalize hv : [] = v at h
  cases h with
  | first hwalk => exact hwalk
  | next => simp at hv

theorem Trace.of_append (h : nfa.Trace (w ++ [c]) log) : ∃ before, nfa.Trace w before ∧
    Walk Trail.key (Trail.visit nfa (placeAfter (w ++ [c]))) (fun _ => False)
      (Trail.onward before c) log := by
  generalize hv : w ++ [c] = v at h
  cases h with
  | first => simp at hv
  | next ht hwalk =>
    obtain ⟨rfl, hc⟩ := List.append_inj' hv rfl
    obtain rfl : c = _ := by simpa using hc
    exact ⟨_, ht, hwalk⟩

theorem Trace.exists_walk (h : nfa.Trace w log) (hf : nfa.Forks) (hw : nfa.WellFormed)
    (hg : Gated nfa.graph nfa.marker outside gate nfa.entry nfa.finalId) : ∃ stack,
      nfa.Rooted w stack ∧
        Walk Trail.key (Trail.visit nfa (placeAfter w)) (fun _ => False) stack log := by
  cases h with
  | first hwalk => exact ⟨_, rooted_entry nfa, hwalk⟩
  | next ht hwalk => exact ⟨_, (ht.charted hf hw hg).rooted_onward hf hw hg _, hwalk⟩

/-- What stands on the stack, or comes to it, has its node and start visited by a path that is not
later. -/
theorem Rooted.settled (h : nfa.Rooted w stack)
    (hwalk : Walk Trail.key (Trail.visit nfa (placeAfter w)) (fun _ => False) stack log)
    (hf : nfa.Forks) (hg : Gated nfa.graph nfa.marker outside gate nfa.entry nfa.finalId)
    (hx : x ∈ stack ∨ ∃ e ∈ log, ∃ next, e.1.visit nfa (placeAfter w) = .ok (e.2, next) ∧ x ∈ next)
    (ht : Toward s (placeAfter w) x.arrival.start) :
    ∃ e ∈ log, e.1.key = x.key ∧ nfa.NoLater e.1.steps x.steps := by
  obtain ⟨hstack, hnext⟩ := hwalk.settled (orderly_visit hf hg w s) (h.inOrder s)
  have hsettled : Settled Trail.key (nfa.NotLater s (placeAfter w)) (fun _ => False) log x := by
    rcases hx with hx | ⟨e, he, next, hv, hx⟩
    · exact hstack x hx
    · exact hnext e he next hv x hx
  obtain ⟨y, hy | ⟨t, hy⟩, hkey, hle⟩ := hsettled
  · exact hy.elim
  · have hstart : y.arrival.start = x.arrival.start := congrArg Prod.snd hkey
    exact ⟨_, hy, hkey, hle (hstart ▸ ht) ht⟩

/-- A visit of the same node with the same start takes the same ways on. -/
theorem Charted.eq_of_visit {e : Trail × Thread} {next : List Arrival} (h : nfa.Charted w log)
    (he : e ∈ log) (hkey : e.1.key = a.nodeAndStart)
    (hv : a.visit nfa (placeAfter w) = .ok (t, next)) : e.2.node = t.node ∧ e.2.start = t.start := by
  obtain ⟨next', hv'⟩ := h.exists_next he
  obtain ⟨htarget, hstart⟩ := Prod.mk.inj hkey
  exact Nfa.eq_of_visit hv' hv htarget hstart

/-- A path that is not later than a step from a path that is not later is the extended path, or precedes
it. -/
theorem eq_or_precedes {o : Option Char} {q : Nat} (hn : (nfa.visits (π ++ [(o, q)])).Nodup)
    (hπ : π' = π ∨ nfa.Precedes π' π) (hle : nfa.NoLater ρ (π' ++ [(o, q)]))
    (hend : ρ.ending nfa.entry = q) (hword : ρ.word = (π ++ [(o, q)]).word) :
    ρ = π ++ [(o, q)] ∨ nfa.Precedes ρ (π ++ [(o, q)]) := by
  have hstep : nfa.NoLater (π' ++ [(o, q)]) (π ++ [(o, q)]) := by
    rcases hπ with rfl | hlt
    · exact .refl _
    · exact .inr (hlt.append _ _)
  refine (hle.trans hstep).imp_left fun hprefix => ?_
  exact Steps.eq_of_prefix hprefix (hend.trans Steps.ending_append.symm) (by rw [hword]) hn

/-- A step that extends a path that is not later leads the closure to a path that is not later. -/
theorem Rooted.exists_least {o : Option Char} {q : Nat} {captures : Captures} (h : nfa.Rooted w stack)
    (hwalk : Walk Trail.key (Trail.visit nfa (placeAfter w)) (fun _ => False) stack log)
    (hf : nfa.Forks) (hw : nfa.WellFormed)
    (hg : Gated nfa.graph nfa.marker outside gate nfa.entry nfa.finalId)
    (hx : ⟨π' ++ [(o, q)], ⟨q, captures⟩⟩ ∈ stack ∨ ∃ e ∈ log, ∃ next,
      e.1.visit nfa (placeAfter w) = .ok (e.2, next) ∧ ⟨π' ++ [(o, q)], ⟨q, captures⟩⟩ ∈ next)
    (ht : Toward s (placeAfter w) captures.matchStart) (hπ : π' = π ∨ nfa.Precedes π' π)
    (hword : (π ++ [(o, q)]).word = w) (hn : (nfa.visits (π ++ [(o, q)])).Nodup) :
    ∃ e ∈ log, e.1.key = (q, captures.matchStart) ∧
      (e.1.steps = π ++ [(o, q)] ∨ nfa.Precedes e.1.steps (π ++ [(o, q)])) := by
  obtain ⟨e, he, hkey, hle⟩ := h.settled hwalk hf hg hx ht
  have htracks := (h.charted hwalk hf hw hg).tracks e he
  refine ⟨e, he, hkey, eq_or_precedes hn hπ hle ?_ (htracks.word_eq.trans hword.symm)⟩
  exact htracks.ending_eq.trans (congrArg Prod.fst hkey)

/-- Of all paths that pass no node twice at one place, the search has visited one that none precedes. -/
theorem Follows.exists_least (h : nfa.Follows π a) (hf : nfa.Forks) (hw : nfa.WellFormed)
    (hg : Gated nfa.graph nfa.marker outside gate nfa.entry nfa.finalId)
    (hn : (nfa.visits π).Nodup) (ht : Toward s (placeAfter π.word) a.start)
    (htrace : nfa.Trace π.word log) :
    ∃ e ∈ log, e.1.key = a.nodeAndStart ∧ (e.1.steps = π ∨ nfa.Precedes e.1.steps π) := by
  induction h generalizing log with
  | entry =>
    obtain ⟨e, he, hkey, hle⟩ :=
      (rooted_entry nfa).settled htrace.of_nil hf hg (.inl List.mem_cons_self) ht
    refine ⟨e, he, hkey, .inl ?_⟩
    rcases hle with hprefix | ⟨σ, q, q', rest, rest', node, -, hnil, -⟩
    · exact List.prefix_nil.mp hprefix
    · simp at hnil
  | @go π a t next o q ha hv hq ih =>
    have hnπ : (nfa.visits π).Nodup := by
      rw [visits_append] at hn
      exact (List.nodup_append.mp hn).1
    cases o with
    | none =>
      have hword : (π ++ [(none, q)] : Steps).word = π.word := by simp
      rw [hword] at htrace ht
      obtain ⟨x, hx, hkey, hle⟩ := ih hnπ (ha.arrives.toward_of_visit hg hv ht) htrace
      have hcharted := htrace.charted hf hw hg
      obtain ⟨hnode, hstart⟩ := hcharted.eq_of_visit hx hkey hv
      obtain ⟨next', hvx⟩ := hcharted.visited x hx
      have hmem : ⟨x.1.steps ++ [(none, q)], ⟨q, x.2.captures⟩⟩ ∈ next' := by
        rw [(visit_trail_eq_ok hvx).2, hnode]
        exact List.mem_map.mpr ⟨q, hq, rfl⟩
      obtain ⟨stack, hrooted, hwalk⟩ := htrace.exists_walk hf hw hg
      have htx : Toward s (placeAfter π.word) x.2.start := hstart ▸ ht
      obtain ⟨e, he, hkey', hle'⟩ :=
        hrooted.exists_least hwalk hf hw hg (.inr ⟨x, hx, next', hvx, hmem⟩) htx hle hword hn
      exact ⟨e, he, hkey'.trans (Prod.ext rfl hstart), hle'⟩
    | some c =>
      have hword : (π ++ [(some c, q)] : Steps).word = π.word ++ [c] := by simp
      rw [hword] at htrace ht
      obtain ⟨before, htrace, hwalk⟩ := htrace.of_append
      have hta : Toward s (placeAfter π.word) a.start :=
        ha.arrives.toward_of_visit hg hv (ht.mono (by rw [placeAfter_append]; omega))
      obtain ⟨x, hx, hkey, hle⟩ := ih hnπ hta htrace
      have hcharted := htrace.charted hf hw hg
      obtain ⟨hnode, hstart⟩ := hcharted.eq_of_visit hx hkey hv
      have hmem : ⟨x.1.steps ++ [(some c, q)], ⟨q, x.2.captures⟩⟩ ∈ Trail.onward before c :=
        mem_onward.mpr ⟨x, hx, q, hnode ▸ hq, rfl⟩
      have htx : Toward s (placeAfter (π.word ++ [c])) x.2.start := hstart ▸ ht
      obtain ⟨e, he, hkey', hle'⟩ := (hcharted.rooted_onward hf hw hg c).exists_least hwalk hf hw hg
        (.inl hmem) htx hle hword hn
      exact ⟨e, he, hkey'.trans (Prod.ext rfl hstart), hle'⟩

end Nfa

end PatternAutomata
