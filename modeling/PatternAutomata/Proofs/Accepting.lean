import PatternAutomata.Proofs.Moments
import PatternAutomata.Proofs.Sorting
import PatternAutomata.Search.Match

/-!
# The matches that end at a place

A thread at the final node has passed the gate, so its match starts where the gate was passed and
reads a word of the pattern from there. An exhaustive search accepts, at each place, exactly one match
for each start from which a word of the pattern leads there. So the matches of a whole text come in
groups, one for each place.
-/

namespace PatternAutomata

open PatternAutomata.Graph

/-- The matches of a text by their places: by start at each place, and by end from place to place. -/
structure Grouped (found : List (List Match)) : Prop where
  by_start : ∀ ms ∈ found, ms.Pairwise fun a b => a.start < b.start
  same_stop : ∀ ms ∈ found, ∀ a ∈ ms, ∀ b ∈ ms, a.stop = b.stop
  by_stop : found.Pairwise fun ms ms' => ∀ a ∈ ms, ∀ b ∈ ms', a.stop < b.stop

/-- Listed one after the other, the groups come by end and then by start. -/
theorem Grouped.pairwise_flatten {found : List (List Match)} (h : Grouped found) :
    found.flatten.Pairwise fun a b => a.stop < b.stop ∨ a.stop = b.stop ∧ a.start < b.start := by
  refine List.pairwise_flatten.mpr ⟨fun ms hms => ?_, ?_⟩
  · exact (h.by_start ms hms).imp_of_mem fun ha hb hlt => .inr ⟨h.same_stop ms hms _ ha _ hb, hlt⟩
  · exact h.by_stop.imp fun hlt a ha b hb => .inl (hlt a ha b hb)

theorem pairwise_mergeSort_key {α : Type} (key : α → Int) (xs : List α) :
    (xs.mergeSort fun a b => key a ≤ key b).Pairwise fun a b => key a ≤ key b :=
  pairwise_mergeSort_of_iff key (fun _ _ => decide_eq_true_iff) xs

namespace Nfa

variable {nfa : Nfa} {mode : Mode} {length : Nat} {u v w : List Char} {m : Moment} {t : Thread}
  {left right : Bool} {body : Pattern} {outside : Nat → Prop} {gate p : Nat} {last s : Int}
  {captures : Captures} {x : Match}

theorem Within.start_eq (hi : nfa.Within gate u v p captures) (stop : Int) :
    Match.start ⟨stop, captures⟩ = placeAfter u := by
  simp only [Match.start]
  split
  · rename_i span hspan
    exact hi.span_start span hspan
  · rw [hi.matchStart_eq]
    rfl

theorem Sees.place_eq (hs : nfa.Sees mode length w m) : m.place = placeAfter w := by
  obtain ⟨log, -, rfl⟩ := hs
  rfl

/-- A thread at the final node has a match, and a word of the pattern leads from its start. -/
theorem Sees.within_of_isFinal (hs : nfa.Sees mode length w m)
    (hn : nfa.Recognizes left right body outside gate) (ht : t ∈ m.threads)
    (hf : t.node.isFinal = true) :
    ∃ u v, w = u ++ v ∧ nfa.Within gate u v nfa.finalId t.captures := by
  obtain ⟨log, hr, rfl⟩ := hs
  obtain ⟨⟨a, ha⟩, -⟩ := mem_liveThreads.mp ht
  obtain ⟨harr, later, hv⟩ := hr.arrives ha
  have hfinal : a.target = nfa.finalId :=
    (hn.wellFormed.isFinal_iff _ _ (hr.nodes_eq ha)).mp hf
  have ho : ¬outside a.target := hfinal ▸ hn.gated.final_inside
  obtain ⟨u, v, rfl, hi⟩ := harr.within hn.gated ho
  exact ⟨u, v, rfl, hfinal ▸ hi.visit hn.gated hv ho⟩

theorem Sees.start_of_isFinal (hs : nfa.Sees mode length w m)
    (hn : nfa.Recognizes left right body outside gate) (ht : t ∈ m.threads)
    (hf : t.node.isFinal = true) (stop : Int) : t.start = some (Match.start ⟨stop, t.captures⟩) := by
  obtain ⟨u, v, -, hi⟩ := hs.within_of_isFinal hn ht hf
  rw [hi.start_eq]
  exact hi.matchStart_eq

theorem Sees.node_eq_of_isFinal (hs : nfa.Sees mode length w m) (hw : nfa.WellFormed) {t' : Thread}
    (ht : t ∈ m.threads) (hf : t.node.isFinal = true) (ht' : t' ∈ m.threads)
    (hf' : t'.node.isFinal = true) : t.node = t'.node := by
  obtain ⟨log, hr, rfl⟩ := hs
  obtain ⟨⟨a, ha⟩, -⟩ := mem_liveThreads.mp ht
  obtain ⟨⟨a', ha'⟩, -⟩ := mem_liveThreads.mp ht'
  refine (hr.target_eq_iff hw ha ha').mp ?_
  rw [(hw.isFinal_iff _ _ (hr.nodes_eq ha)).mp hf, (hw.isFinal_iff _ _ (hr.nodes_eq ha')).mp hf']

theorem mem_accepting :
    x ∈ m.accepting nfa last ↔ (nfa.anchoredEnd = true → m.place = last) ∧
      ∃ t ∈ m.threads, t.node.isFinal = true ∧ x = ⟨m.place, t.captures⟩ := by
  simp only [Moment.accepting]
  split
  · rename_i h
    simp [h.1, h.2]
  · rename_i h
    simp only [List.mem_mergeSort, List.mem_map, List.mem_filter, not_and, not_not] at h ⊢
    constructor
    · rintro ⟨t, ⟨ht, hf⟩, rfl⟩
      exact ⟨h, t, ht, hf, rfl⟩
    · rintro ⟨-, t, ht, hf, rfl⟩
      exact ⟨t, ⟨ht, hf⟩, rfl⟩

theorem sorted_accepting (nfa : Nfa) (last : Int) (m : Moment) :
    (m.accepting nfa last).Pairwise (fun x y => x.start ≤ y.start) := by
  simp only [Moment.accepting]
  split
  · exact .nil
  · exact pairwise_mergeSort_key Match.start _

/-- The matches at a place come by start, and no two of an exhaustive search have the same start. -/
theorem Sees.pairwise_accepting (hs : nfa.Sees .exhaustive length w m)
    (hn : nfa.Recognizes left right body outside gate) :
    (m.accepting nfa last).Pairwise (fun x y => x.start < y.start) := by
  have hdistinct : ((m.threads.filter (·.node.isFinal)).map fun t => Match.mk m.place t.captures).Pairwise
      (fun x y => x.start ≠ y.start) := by
    obtain ⟨log, hr, hm⟩ := id hs
    have hpair := hr.pairwise_exhaustive hn.wellFormed hn.gated
    subst hm
    refine List.pairwise_map.mpr ((hpair.filter _).imp_of_mem fun {t t'} ht ht' hne heq => ?_)
    obtain ⟨ht, hf⟩ := List.mem_filter.mp ht
    obtain ⟨ht', hf'⟩ := List.mem_filter.mp ht'
    refine hne (hs.node_eq_of_isFinal hn.wellFormed ht hf ht' hf') ?_
    rw [hs.start_of_isFinal hn ht hf, hs.start_of_isFinal hn ht' hf', heq]
  have hne : (m.accepting nfa last).Pairwise (fun x y => x.start ≠ y.start) := by
    simp only [Moment.accepting]
    split
    · exact .nil
    · exact hdistinct.perm (List.mergeSort_perm _ fun a b : Match => decide (a.start ≤ b.start)).symm
        Ne.symm
  exact ((sorted_accepting nfa last m).and hne).imp fun h => by omega

/-- The starts of the matches of an exhaustive search at a place. -/
theorem Sees.exists_accepting_iff (hs : nfa.Sees .exhaustive length w m)
    (hn : nfa.Recognizes left right body outside gate) (hl : w.length ≤ length) :
    (∃ x ∈ m.accepting nfa last, x.start = s) ↔
      (right = true → placeAfter w = last) ∧ ∃ u v, w = u ++ v ∧ s = placeAfter u ∧
        (if left then u = [] else u ∈ lineLanguage) ∧ v ∈ body.language := by
  simp only [mem_accepting, hn.anchoredEnd_eq, hs.place_eq]
  constructor
  · rintro ⟨x, ⟨hlast, t, ht, hf, rfl⟩, rfl⟩
    obtain ⟨u, v, rfl, hi⟩ := hs.within_of_isFinal hn ht hf
    exact ⟨hlast, u, v, rfl, hi.start_eq _, (hn.spells_gate u).mp hi.spells_gate,
      (hn.spells_final v).mp hi.spells⟩
  · rintro ⟨hlast, u, v, rfl, rfl, hu, hv⟩
    have hfinal : ∀ node, nfa.nodes[nfa.finalId]? = some node → node.isFinal = true :=
      fun node hnode => (hn.wellFormed.isFinal_iff _ node hnode).mpr rfl
    obtain ⟨t, ht, hnode, hstart⟩ := hs.exists_mem_threads hn.wellFormed hn.gated hl
      ((hn.spells_gate u).mpr hu) ((hn.spells_final v).mpr hv)
      (fun node hnode => by simp [Node.isLive, hfinal node hnode])
    have hf := hfinal _ hnode
    rw [hs.start_of_isFinal hn ht hf, Option.some_inj] at hstart
    exact ⟨_, ⟨hlast, t, ht, hf, rfl⟩, hstart⟩

theorem Sees.stop_eq (hs : nfa.Sees mode length w m) (hx : x ∈ m.accepting nfa last) :
    x.stop = placeAfter w := by
  obtain ⟨-, t, -, -, rfl⟩ := mem_accepting.mp hx
  exact hs.place_eq

/-- The matches of an exhaustive search are grouped by the places of the text. -/
theorem grouped_accepting {ms : List Moment} {text : List Char}
    (hn : nfa.Recognizes left right body outside gate) (hcount : ms.length = text.length + 1)
    (hsees : ∀ i m, ms[i]? = some m → nfa.Sees .exhaustive text.length (text.take i) m) :
    Grouped (ms.map (·.accepting nfa last)) := by
  refine ⟨fun found hfound => ?_, fun found hfound a ha b hb => ?_, ?_⟩
  · obtain ⟨m, hm, rfl⟩ := List.mem_map.mp hfound
    obtain ⟨i, hi⟩ := List.mem_iff_getElem?.mp hm
    exact (hsees i m hi).pairwise_accepting hn
  · obtain ⟨m, hm, rfl⟩ := List.mem_map.mp hfound
    obtain ⟨i, hi⟩ := List.mem_iff_getElem?.mp hm
    rw [(hsees i m hi).stop_eq ha, (hsees i m hi).stop_eq hb]
  · refine List.pairwise_map.mpr (List.pairwise_iff_getElem.mpr fun i j hi hj hij a ha b hb => ?_)
    rw [(hsees i _ (List.getElem?_eq_getElem hi)).stop_eq ha,
      (hsees j _ (List.getElem?_eq_getElem hj)).stop_eq hb]
    simp only [placeAfter, List.length_take]
    omega

end Nfa

end PatternAutomata
