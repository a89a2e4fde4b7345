import Mathlib
import PatternAutomata.Proofs.BestOnly
import PatternAutomata.Proofs.Compiled
import PatternAutomata.Proofs.Paths

/-!
# What the frontier holds

What can be reached at a place is said of paths alone: the live nodes that a path leads to which reads the
text so far, each with the start that the path gives the match. An exhaustive search has one thread for each
node and start that are reached, and no other threads. A search for the best has one thread for each node
that is reached, with the earliest of its starts. So the number of threads is bounded by that of the nodes,
and by that of the nodes and starts.
-/

namespace PatternAutomata

open PatternAutomata.Graph

/-- What tells the threads of an exhaustive search apart. -/
def Thread.key (t : Thread) : Nat × Option Int := (t.node.id, t.start)

namespace Nfa

/-- Where a path from the entry starts the match: at the last marker for it that the path passes. -/
def startOf (nfa : Nfa) (π : Steps) : Option Int :=
  ((nfa.visits π).filter fun v => nfa.marker v.1 = some matchStarts).getLast?.map (·.2)

/-- A path that reads the word leads to the node and gives the match this start. At the node a character
can be read or the text accepted. -/
def Reaches (nfa : Nfa) (w : List Char) (p : Nat) (start : Option Int) : Prop :=
  ∃ π node, nfa.graph.Path nfa.entry π p ∧ π.word = w ∧ nfa.startOf π = start ∧
    nfa.nodes[p]? = some node ∧ node.isLive = true

/-- One thread for each node and start that are reached. -/
structure HoldsAll (nfa : Nfa) (w : List Char) (threads : List Thread) : Prop where
  nodes_eq : ∀ t ∈ threads, nfa.nodes[t.node.id]? = some t.node
  nodup : (threads.map Thread.key).Nodup
  mem_iff : ∀ p start, (p, start) ∈ threads.map Thread.key ↔ nfa.Reaches w p start

/-- One thread for each node that is reached, with the earliest start. -/
structure HoldsEarliest (nfa : Nfa) (w : List Char) (threads : List Thread) : Prop where
  nodes_eq : ∀ t ∈ threads, nfa.nodes[t.node.id]? = some t.node
  nodup : (threads.map (·.node.id)).Nodup
  mem_iff : ∀ p, p ∈ threads.map (·.node.id) ↔ ∃ start, nfa.Reaches w p start
  reached : ∀ t ∈ threads, nfa.Reaches w t.node.id t.start
  earliest : ∀ t ∈ threads, ∀ start, nfa.Reaches w t.node.id start → startsNoLater t.start start = true

variable {nfa : Nfa} {mode : Mode} {length : Nat} {w : List Char} {m m' : Moment} {a : Arrival}
  {t : Thread} {next : List Arrival} {π : Steps} {o : Option Char} {p q : Nat} {start : Option Int}
  {outside : Nat → Prop} {gate : Nat}

theorem startOf_append : nfa.startOf (π ++ [(o, q)]) =
    if nfa.marker q = some matchStarts then some (placeAfter (π ++ [(o, q)]).word) else nfa.startOf π := by
  rw [startOf, visits_append, List.filter_append]
  split
  · rename_i hm
    simp [hm]
  · rename_i hm
    simp [hm, startOf]

/-- The start of a thread is that of the path to it. -/
theorem Follows.startOf_eq (h : nfa.Follows π a) (hv : a.visit nfa (placeAfter π.word) = .ok (t, next)) :
    nfa.startOf π = t.start := by
  have hstart := start_of_visit_marker hv
  induction h generalizing t next with
  | entry =>
    have hblank : (Captures.blank nfa.groupCount).matchStart = none := Captures.opened?_blank _ 0
    rw [hstart, startOf, visits, Steps.visits]
    dsimp only
    split
    · rename_i hm
      simp [hm]
    · rename_i hm
      simp [hm, hblank]
  | @go π a t' next' o q _ hv' _ ih =>
    rw [startOf_append, hstart, ih hv' (start_of_visit_marker hv')]
    rfl

theorem Arrives.exists_follows (ha : nfa.Arrives w a) : ∃ π, nfa.Follows π a ∧ π.word = w := by
  induction ha with
  | entry => exact ⟨[], .entry, rfl⟩
  | go _ hv hq ih =>
    obtain ⟨π, hπ, rfl⟩ := ih
    exact ⟨_, hπ.go hv hq, by rw [Steps.word_append, Steps.word_singleton]⟩

/-- What a search has visited at a live node is reached. -/
theorem Run.reached {log : List (Arrival × Thread)} (hr : nfa.Run mode length w log)
    (hw : nfa.WellFormed) (ht : t ∈ liveThreads log) : nfa.Reaches w t.node.id t.start := by
  obtain ⟨⟨a, hx⟩, hlive⟩ := mem_liveThreads.mp ht
  obtain ⟨ha, next, hv⟩ := hr.arrives hx
  obtain ⟨π, hπ, rfl⟩ := ha.exists_follows
  have hnode := hr.nodes_eq hx
  rw [hw.id_eq _ _ hnode]
  exact ⟨π, t.node, hπ.path, rfl, hπ.startOf_eq hv, hnode, hlive⟩

/-- An exhaustive search has a thread for whatever is reached. -/
theorem Reaches.exists_thread {log : List (Arrival × Thread)} (h : nfa.Reaches w p start)
    (hr : nfa.Run .exhaustive length w log) (hw : nfa.WellFormed) (hl : w.length ≤ length) :
    ∃ t ∈ liveThreads log, t.node.id = p ∧ t.start = start := by
  obtain ⟨π, node, hpath, rfl, rfl, hnode, hlive⟩ := h
  obtain ⟨a, ha, rfl⟩ := exists_follows hw hpath
  obtain ⟨t, next, hv⟩ := ha.arrives.visit hw
  obtain ⟨x, hx, htarget, hmatch⟩ := ha.arrives.covered hw hr hl
  obtain ⟨-, next', hv'⟩ := hr.arrives hx
  have hat : nfa.nodes[a.target]? = some x.2.node := htarget ▸ hr.nodes_eq hx
  obtain rfl : x.2.node = node := Option.some.inj (hat.symm.trans hnode)
  refine ⟨x.2, mem_liveThreads.mpr ⟨⟨x.1, hx⟩, hlive⟩, hw.id_eq _ _ hat, ?_⟩
  rw [ha.startOf_eq hv]
  exact (eq_of_visit hv' hv htarget hmatch).2

theorem Sees.nodes_eq (hs : nfa.Sees mode length w m) (hw : nfa.WellFormed) :
    ∀ t ∈ m.threads, nfa.nodes[t.node.id]? = some t.node := by
  obtain ⟨log, hr, rfl⟩ := hs
  intro t ht
  obtain ⟨⟨a, hx⟩, -⟩ := mem_liveThreads.mp ht
  have hnode := hr.nodes_eq hx
  rwa [hw.id_eq _ _ hnode]

theorem Sees.holdsAll (hs : nfa.Sees .exhaustive length w m) (hw : nfa.WellFormed)
    (hg : Gated nfa.graph nfa.marker outside gate nfa.entry nfa.finalId) (hl : w.length ≤ length) :
    nfa.HoldsAll w m.threads := by
  have hnodes := hs.nodes_eq hw
  obtain ⟨log, hr, rfl⟩ := hs
  refine ⟨hnodes, ?_, fun p start => ?_⟩
  · refine List.pairwise_map.mpr ((hr.pairwise_exhaustive hw hg).imp_of_mem fun hs ht hne hkey => ?_)
    obtain ⟨hid, hstart⟩ := Prod.mk.inj hkey
    have hnode := hnodes _ hs
    rw [hid, hnodes _ ht] at hnode
    exact hne (Option.some.inj hnode).symm hstart
  · rw [List.mem_map]
    constructor
    · rintro ⟨t, ht, hkey⟩
      obtain ⟨rfl, rfl⟩ := Prod.mk.inj hkey
      exact hr.reached hw ht
    · intro h
      obtain ⟨t, ht, rfl, rfl⟩ := h.exists_thread hr hw hl
      exact ⟨t, ht, rfl⟩

theorem Sees.holdsEarliest (hs : nfa.Sees .bestOnly length w m) (hw : nfa.WellFormed)
    (hg : Gated nfa.graph nfa.marker outside gate nfa.entry nfa.finalId) (hl : w.length ≤ length) :
    nfa.HoldsEarliest w m.threads := by
  have hnodes := hs.nodes_eq hw
  obtain ⟨m', hs'⟩ := exists_sees hw .exhaustive hl
  have hthin := hs'.thinner hs hw hg hl
  obtain ⟨log', hr', rfl⟩ := hs'
  obtain ⟨log, hr, rfl⟩ := hs
  have hnodup : ((liveThreads log).map (·.node.id)).Nodup := by
    refine List.pairwise_map.mpr ((hr.pairwise_bestOnly hw).imp_of_mem fun hs ht hne hid => ?_)
    have hnode := hnodes _ hs
    rw [hid, hnodes _ ht] at hnode
    exact hne (Option.some.inj hnode).symm
  -- The exhaustive search has a thread for what is reached, which gives way to one that starts no later.
  have hcovered : ∀ p start, nfa.Reaches w p start →
      ∃ t ∈ liveThreads log, t.node.id = p ∧ startsNoLater t.start start = true := by
    intro p start h
    obtain ⟨t, ht, rfl, rfl⟩ := h.exists_thread hr' hw hl
    obtain ⟨t', ht', hnode, hle⟩ := hthin.covered t ht
    exact ⟨t', ht', congrArg Node.id hnode, hle⟩
  refine ⟨hnodes, hnodup, fun p => ?_, fun t ht => hr.reached hw ht, fun t ht start h => ?_⟩
  · rw [List.mem_map]
    constructor
    · rintro ⟨t, ht, rfl⟩
      exact ⟨t.start, hr.reached hw ht⟩
    · rintro ⟨start, h⟩
      obtain ⟨t, ht, rfl, -⟩ := hcovered p start h
      exact ⟨t, ht, rfl⟩
  · obtain ⟨t', ht', hid, hle⟩ := hcovered _ start h
    obtain rfl := List.inj_on_of_nodup_map hnodup ht' ht hid
    exact hle

/-- Threads at different nodes are no more than the nodes. -/
theorem length_le_size {threads : List Thread} (hn : (threads.map (·.node.id)).Nodup)
    (hnodes : ∀ t ∈ threads, nfa.nodes[t.node.id]? = some t.node) : threads.length ≤ nfa.size := by
  have hsub : threads.map (·.node.id) ⊆ List.range nfa.size := by
    intro p hp
    obtain ⟨t, ht, rfl⟩ := List.mem_map.mp hp
    exact List.mem_range.mpr (Array.getElem?_eq_some_iff.mp (hnodes t ht)).1
  have hle := (hn.subperm hsub).length_le
  rwa [List.length_map, List.length_range] at hle

/-- The starts that a thread may have in a text, and none. -/
def starts (length : Nat) : List (Option Int) :=
  none :: (List.range (length + 1)).map fun (i : Nat) => some ((i : Int) - 1)

theorem mem_starts (h : InText length start) : start ∈ starts length := by
  cases start with
  | none => exact List.mem_cons_self
  | some s =>
    have hs := h s rfl
    refine List.mem_cons_of_mem _ (List.mem_map.mpr ⟨(s + 1).toNat, List.mem_range.mpr (by omega), ?_⟩)
    exact congrArg some (by omega)

/-- Threads with different nodes or starts are no more than there are of both together. -/
theorem length_le_size_mul {threads : List Thread} (hn : (threads.map Thread.key).Nodup)
    (hnodes : ∀ t ∈ threads, nfa.nodes[t.node.id]? = some t.node)
    (hstarts : ∀ t ∈ threads, t.start ∈ starts length) : threads.length ≤ nfa.size * (length + 2) := by
  have hsub : threads.map Thread.key ⊆ List.range nfa.size ×ˢ starts length := by
    intro k hk
    obtain ⟨t, ht, rfl⟩ := List.mem_map.mp hk
    have hlt : t.node.id < nfa.size := (Array.getElem?_eq_some_iff.mp (hnodes t ht)).1
    exact List.mem_product.mpr ⟨List.mem_range.mpr hlt, hstarts t ht⟩
  have hle := (hn.subperm hsub).length_le
  rw [List.length_map, List.length_product, List.length_range] at hle
  simpa [starts] using hle

theorem Sees.start_mem_starts (hs : nfa.Sees mode length w m) (hw : nfa.WellFormed)
    (hl : w.length ≤ length) : ∀ t ∈ m.threads, t.start ∈ starts length := by
  obtain ⟨log, hr, rfl⟩ := hs
  intro t ht
  obtain ⟨⟨a, hx⟩, -⟩ := mem_liveThreads.mp ht
  obtain ⟨ha, next, hv⟩ := hr.arrives hx
  exact mem_starts (inText_of_fits (ha.fits_of_visit hw hv) (placeAfter_lt hl))

end Nfa

/-- At every place of the text an exhaustive search has exactly one thread for each node and start that a path
reaches there, and a search for the best exactly one for each node, with the earliest start. No frontier is
larger than the number of nodes, or of nodes and starts. -/
theorem Regex.frontier_exact {pattern : String} {re : Regex} (h : Regex.compile pattern = .ok re)
    (subject : String) :
    ∃ all best, re.nfa.moments .exhaustive subject.toList = .ok all ∧
      re.nfa.moments .bestOnly subject.toList = .ok best ∧
      all.length = subject.length + 1 ∧ best.length = subject.length + 1 ∧
      (∀ (i : Nat) now, all[i]? = some now → now.place = (i : Int) - 1 ∧
        re.nfa.HoldsAll (subject.toList.take i) now.threads ∧
        now.threads.length ≤ re.nfa.size * (subject.length + 2)) ∧
      ∀ (i : Nat) now, best[i]? = some now → now.place = (i : Int) - 1 ∧
        re.nfa.HoldsEarliest (subject.toList.take i) now.threads ∧ now.threads.length ≤ re.nfa.size := by
  simp only [← String.length_toList]
  obtain ⟨left, right, body, outside, gate, -, hn⟩ := exists_recognizes h
  obtain ⟨all, hall, hcount, hsees⟩ := Nfa.exists_moments hn.wellFormed .exhaustive subject.toList
  obtain ⟨best, hbest, hcount', hsees'⟩ := Nfa.exists_moments hn.wellFormed .bestOnly subject.toList
  have hplace : ∀ i : Nat, i < subject.toList.length + 1 →
      placeAfter (subject.toList.take i) = (i : Int) - 1 := by
    intro i hi
    rw [placeAfter, List.length_take]
    omega
  refine ⟨all, best, hall, hbest, hcount, hcount', fun i now hnow => ?_,
    fun i now hnow => ?_⟩
  · have hsee := hsees i now hnow
    have hlt := (List.getElem?_eq_some_iff.mp hnow).1
    have hholds := hsee.holdsAll hn.wellFormed hn.gated (List.length_take_le' _ _)
    have hstarts := hsee.start_mem_starts hn.wellFormed (List.length_take_le' _ _)
    exact ⟨hsee.place_eq.trans (hplace i (hcount ▸ hlt)), hholds,
      Nfa.length_le_size_mul hholds.nodup hholds.nodes_eq hstarts⟩
  · have hsee := hsees' i now hnow
    have hlt := (List.getElem?_eq_some_iff.mp hnow).1
    have hholds := hsee.holdsEarliest hn.wellFormed hn.gated (List.length_take_le' _ _)
    exact ⟨hsee.place_eq.trans (hplace i (hcount' ▸ hlt)), hholds,
      Nfa.length_le_size hholds.nodup hholds.nodes_eq⟩

/-- Behind two letters, matches of one or more of them may have started at three places. Node 7 reads a
letter, node 11 is the final one, and node 1 runs up to a match. -/
theorem frontier_of_plus : ∃ re all best now now', Regex.compile "a+" = .ok re ∧
    re.nfa.moments .exhaustive "aa".toList = .ok all ∧ re.nfa.moments .bestOnly "aa".toList = .ok best ∧
    all[2]? = some now ∧ best[2]? = some now' ∧
    re.nfa.HoldsAll ['a', 'a'] now.threads ∧ re.nfa.HoldsEarliest ['a', 'a'] now'.threads ∧
    now.threads.map Thread.key =
      [(7, some (-1)), (11, some (-1)), (7, some 0), (11, some 0), (1, none), (7, some 1)] ∧
    now'.threads.map Thread.key = [(7, some (-1)), (11, some (-1)), (1, none)] := by
  have hrun : (Regex.compile "a+").map (fun re =>
      ((re.nfa.moments .exhaustive "aa".toList).map fun all =>
        all[2]?.map fun now => now.threads.map Thread.key,
      (re.nfa.moments .bestOnly "aa".toList).map fun best =>
        best[2]?.map fun now => now.threads.map Thread.key)) =
      .ok (.ok (some [(7, some (-1)), (11, some (-1)), (7, some 0), (11, some 0), (1, none),
        (7, some 1)]), .ok (some [(7, some (-1)), (11, some (-1)), (1, none)])) := by
    cbv
  obtain ⟨re, hre, hkeys⟩ := exists_of_map_eq_ok hrun
  obtain ⟨all, best, hall, hbest, -, -, hholds, hholds'⟩ := Regex.frontier_exact hre "aa"
  rw [hall, hbest, Prod.mk.injEq] at hkeys
  obtain ⟨now, hnow, hkeys₁⟩ := Option.map_eq_some_iff.mp (Except.ok.inj hkeys.1)
  obtain ⟨now', hnow', hkeys₂⟩ := Option.map_eq_some_iff.mp (Except.ok.inj hkeys.2)
  exact ⟨re, all, best, now, now', hre, hall, hbest, hnow, hnow', (hholds 2 now hnow).2.1,
    (hholds' 2 now' hnow').2.1, hkeys₁, hkeys₂⟩

end PatternAutomata
