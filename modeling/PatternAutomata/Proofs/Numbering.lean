import PatternAutomata.Proofs.Gate
import PatternAutomata.Proofs.Traversal

/-!
# Numbering keeps the graph

The traversal that numbers the nodes of a fragment reaches the entry, the exit and whatever follows a
node it has reached, each node once. So the numbers rename the part of the graph that matters, and the
automaton spells between two numbers what the fragment spells between their nodes. An automaton of a
pattern is well formed: the nodes and groups that it refers to exist.
-/

namespace PatternAutomata

open PatternAutomata.Graph

/-- Whether a node is left for another one on a character, or without one. -/
def Node.LeadsTo (node : Node) (o : Option Char) (q : Nat) : Prop :=
  match o with
  | none => q ∈ node.epsilons
  | some c => q ∈ node.step c

namespace Nfa

/-- The steps along the transitions and epsilons of an automaton. -/
def graph (nfa : Nfa) : Graph := fun p o q => ∃ node, nfa.nodes[p]? = some node ∧ node.LeadsTo o q

/-- The marker that a node carries. -/
def marker (nfa : Nfa) (p : Nat) : Option Marker := nfa.nodes[p]?.bind (·.marker)

theorem node_eq_ok_iff {nfa : Nfa} {p : Nat} {node : Node} :
    nfa.node p = .ok node ↔ nfa.nodes[p]? = some node := by
  simp only [Nfa.node]
  split
  · rename_i node' hnode
    rw [hnode, Except.ok.injEq, Option.some_inj]
  · rename_i hnode
    simp [hnode]

/-- All that an automaton refers to exists. -/
structure WellFormed (nfa : Nfa) : Prop where
  entry_lt : nfa.entry < nfa.size
  id_eq : ∀ (p : Nat) (node : Node), nfa.nodes[p]? = some node → node.id = p
  isFinal_iff : ∀ (p : Nat) (node : Node), nfa.nodes[p]? = some node →
    (node.isFinal = true ↔ p = nfa.finalId)
  step_lt : ∀ p o q, nfa.graph p o q → q < nfa.size
  group_lt : ∀ p m, nfa.marker p = some m → m.group < nfa.groupCount

end Nfa

namespace Fragment

variable {f : Fragment} {base p q i j : Nat} {o : Option Char} {w : List Char} {e : Bool}

theorem mem_rangeEdges {r : CharRange} :
    (r, q) ∈ f.rangeEdges p ↔ ⟨p, q, .range r⟩ ∈ f.edges := by
  simp only [rangeEdges, List.mem_filterMap]
  constructor
  · rintro ⟨⟨source, target, label⟩, he, hl⟩
    split at hl
    · cases label with
      | epsilon => cases hl
      | range s =>
        cases hl
        subst p
        exact he
    · cases hl
  · intro he
    exact ⟨_, he, by simp [Label.range?]⟩

theorem mem_epsilonTargets : q ∈ f.epsilonTargets p ↔ ⟨p, q, .epsilon⟩ ∈ f.edges := by
  simp only [epsilonTargets, List.mem_map, List.mem_filter, decide_eq_true_eq]
  constructor
  · rintro ⟨⟨source, target, label⟩, ⟨he, rfl, rfl⟩, rfl⟩
    exact he
  · intro he
    exact ⟨_, ⟨he, rfl, rfl⟩, rfl⟩

theorem graph_none : f.graph p none q ↔ q ∈ f.epsilonTargets p := by
  rw [mem_epsilonTargets]
  constructor
  · rintro ⟨⟨source, target, label⟩, he, rfl, rfl, ho⟩
    cases label with
    | epsilon => exact he
    | range r => cases ho
  · intro he
    exact ⟨_, he, rfl, rfl, trivial⟩

theorem graph_some {c : Char} : f.graph p (some c) q ↔ ∃ r, (r, q) ∈ f.rangeEdges p ∧ c ∈ r := by
  simp only [mem_rangeEdges]
  constructor
  · rintro ⟨⟨source, target, label⟩, he, rfl, rfl, ho⟩
    cases label with
    | epsilon => cases ho
    | range r => exact ⟨r, he, ho⟩
  · rintro ⟨r, he, hc⟩
    exact ⟨_, he, rfl, rfl, hc⟩

theorem mem_successors_of_graph (hs : f.graph p o q) : q ∈ f.successors p := by
  cases o with
  | none => exact List.mem_append_right _ (graph_none.mp hs)
  | some c =>
    obtain ⟨r, hr, -⟩ := graph_some.mp hs
    exact List.mem_append_left _ (List.mem_map.mpr ⟨_, hr, rfl⟩)

/-- A visit of the numbering traversal. -/
def expand (f : Fragment) (id : Fin f.next) : Except Empty (Nat × List (Fin f.next)) :=
  .ok (id, (f.successors id).filterMap f.node?)

theorem mem_filterMap_node? {ids : List Nat} {id : Fin f.next} (h : id.val ∈ ids) :
    id ∈ ids.filterMap f.node? := by
  refine List.mem_filterMap.mpr ⟨id, h, ?_⟩
  rw [node?, dif_pos id.isLt]

theorem order_eq_of_traversal {log : List (Fin f.next × Nat)} {final : Vector Bool f.next}
    (ht : Traversal .ok f.expand (noMarks f.next) ([f.entry, f.exit].filterMap f.node?) log final) :
    f.order = log.map (·.1.val) := by
  have horder : f.order = log.map Prod.snd := by
    have hexplore := ht.explore_eq
    unfold expand at hexplore
    unfold order
    simp only [hexplore]
  rw [horder]
  refine List.map_congr_left fun x hx => ?_
  obtain ⟨next, hv, -⟩ := ht.next_marked x hx
  rw [expand, Except.ok.injEq, Prod.mk.injEq] at hv
  exact hv.1.symm

theorem exists_traversal (f : Fragment) :
    ∃ log final, Traversal .ok f.expand (noMarks f.next) ([f.entry, f.exit].filterMap f.node?)
      log final ∧ f.order = log.map (·.1.val) := by
  have htrivial : ∀ id ∈ [f.entry, f.exit].filterMap f.node?, True := fun _ _ => trivial
  obtain ⟨log, final, ht⟩ := Traversal.exists (.ok : _ → Except Empty _) f.expand (fun _ => True)
    (fun a _ => ⟨a, rfl⟩) (fun a _ => ⟨_, _, rfl, fun _ _ => trivial⟩) htrivial (noMarks f.next)
  exact ⟨log, final, ht, order_eq_of_traversal ht⟩

theorem order_nodup (f : Fragment) : f.order.Nodup := by
  obtain ⟨log, final, ht, horder⟩ := f.exists_traversal
  rw [horder, List.Nodup, List.pairwise_map]
  exact ht.pairwise_slot_ne.imp fun h heq => h (congrArg Except.ok (Fin.ext heq))

/-- The numbered nodes are the ends of the fragment and what follows numbered nodes. -/
theorem order_spec (f : Fragment) :
    (∀ p ∈ f.order, p < f.next) ∧ (∀ p ∈ [f.entry, f.exit], p < f.next → p ∈ f.order) ∧
      ∀ p ∈ f.order, ∀ q ∈ f.successors p, q < f.next → q ∈ f.order := by
  obtain ⟨log, final, ht, horder⟩ := f.exists_traversal
  have hmem : ∀ p, p ∈ f.order ↔ ∃ x ∈ log, x.1.val = p := by
    intro p
    rw [horder, List.mem_map]
  have hmarked : ∀ id : Fin f.next, (∃ j, (.ok id : Except Empty _) = .ok j ∧ final.get j = true) →
      id.val ∈ f.order := by
    rintro id ⟨j, hj, hmark⟩
    obtain ⟨x, hx, hxj⟩ := ht.mem_of_marked hmark
    exact (hmem id).mpr ⟨x, hx, by rw [Except.ok.inj (hxj.trans hj.symm)]⟩
  refine ⟨fun p hp => ?_, fun p hp hlt => ?_, fun p hp q hq hlt => ?_⟩
  · obtain ⟨x, -, rfl⟩ := (hmem p).mp hp
    exact x.1.isLt
  · exact hmarked ⟨p, hlt⟩ (ht.stack_marked _ (mem_filterMap_node? hp))
  · obtain ⟨x, hx, rfl⟩ := (hmem p).mp hp
    obtain ⟨next, hv, hnext⟩ := ht.next_marked x hx
    rw [expand, Except.ok.injEq, Prod.mk.injEq] at hv
    exact hmarked ⟨q, hlt⟩ (hnext _ (hv.2 ▸ mem_filterMap_node? hq))

theorem entry_mem_order (h : f.Scoped base) : f.entry ∈ f.order :=
  f.order_spec.2.1 _ (by simp) h.entry_mem.2

theorem exit_mem_order (h : f.Scoped base) : f.exit ∈ f.order :=
  f.order_spec.2.1 _ (by simp) h.exit_mem.2

theorem step_mem_order (h : f.Scoped base) (hs : f.graph p o q) (hp : p ∈ f.order) : q ∈ f.order :=
  f.order_spec.2.2 p hp q (mem_successors_of_graph hs) (h.step_mem hs).2.2.2

theorem spells_mem_order (h : f.Scoped base) (hw : f.graph.Spells p w q) (hp : p ∈ f.order) :
    q ∈ f.order :=
  (hw.confined (H := f.graph) (· ∈ f.order) (fun _ _ _ hp hs => ⟨hs, step_mem_order h hs hp⟩) hp).2

/-- The final number of a node. -/
def number (f : Fragment) (p : Nat) : Nat := f.order.idxOf p

theorem number_inj (hp : p ∈ f.order) : f.number p = f.number q ↔ p = q :=
  List.idxOf_inj hp

/-- A node of the automaton, by its number in the fragment. -/
def nodeOf (f : Fragment) (p : Nat) : Node where
  id := f.number p
  transitions := (f.rangeEdges p).map fun (range, target) => ⟨range, f.number target⟩
  epsilons := (f.epsilonTargets p).map f.number
  isFinal := p = f.exit
  marker := f.marker p

theorem nodes_toNfa : (f.toNfa e).nodes = (f.order.map f.nodeOf).toArray := rfl

theorem size_toNfa : (f.toNfa e).size = f.order.length := by
  rw [Nfa.size, nodes_toNfa]
  simp

/-- The nodes of the automaton are those of the numbered nodes, each at its number. -/
theorem nodes_toNfa_eq_some_iff {node : Node} :
    (f.toNfa e).nodes[i]? = some node ↔ ∃ p ∈ f.order, f.number p = i ∧ f.nodeOf p = node := by
  rw [nodes_toNfa, List.getElem?_toArray, List.getElem?_map, Option.map_eq_some_iff]
  constructor
  · rintro ⟨p, hp, rfl⟩
    obtain ⟨hi, rfl⟩ := List.getElem?_eq_some_iff.mp hp
    exact ⟨_, List.getElem_mem hi, f.order_nodup.idxOf_getElem i hi, rfl⟩
  · rintro ⟨p, hp, rfl, rfl⟩
    exact ⟨p, List.getElem?_idxOf hp, rfl⟩

theorem leadsTo_nodeOf : (f.nodeOf p).LeadsTo o j ↔ ∃ q, f.graph p o q ∧ f.number q = j := by
  cases o with
  | none => simp only [Node.LeadsTo, nodeOf, graph_none, List.mem_map]
  | some c =>
    simp only [Node.LeadsTo, Node.step, nodeOf, List.mem_map, List.mem_filter, decide_eq_true_eq,
      graph_some]
    constructor
    · rintro ⟨t, ⟨⟨⟨r, q⟩, hr, rfl⟩, hc⟩, rfl⟩
      exact ⟨q, ⟨r, hr, hc⟩, rfl⟩
    · rintro ⟨q, ⟨r, hr, hc⟩, rfl⟩
      exact ⟨_, ⟨⟨_, hr, rfl⟩, hc⟩, rfl⟩

/-- The steps of the automaton are those between numbered nodes. -/
theorem graph_toNfa : (f.toNfa e).graph i o j ↔
    ∃ p ∈ f.order, f.number p = i ∧ ∃ q, f.graph p o q ∧ f.number q = j := by
  constructor
  · rintro ⟨node, hi, hs⟩
    obtain ⟨p, hp, hpi, rfl⟩ := nodes_toNfa_eq_some_iff.mp hi
    exact ⟨p, hp, hpi, leadsTo_nodeOf.mp hs⟩
  · rintro ⟨p, hp, hpi, hs⟩
    exact ⟨f.nodeOf p, nodes_toNfa_eq_some_iff.mpr ⟨p, hp, hpi, rfl⟩, leadsTo_nodeOf.mpr hs⟩

theorem marker_toNfa (hp : p ∈ f.order) : (f.toNfa e).marker (f.number p) = f.marker p := by
  rw [Nfa.marker, nodes_toNfa_eq_some_iff.mpr ⟨p, hp, rfl, rfl⟩]
  rfl

theorem exists_of_marker_toNfa {m : Marker} (hm : (f.toNfa e).marker i = some m) :
    ∃ p ∈ f.order, f.number p = i ∧ f.marker p = some m := by
  obtain ⟨node, hnode, hmarker⟩ := Option.bind_eq_some_iff.mp hm
  obtain ⟨p, hp, hpi, rfl⟩ := nodes_toNfa_eq_some_iff.mp hnode
  exact ⟨p, hp, hpi, hmarker⟩

/-- Between the numbers of two nodes the automaton spells what the fragment spells between them. -/
theorem spells_toNfa (h : f.Scoped base) (hp : p ∈ f.order) (hq : q ∈ f.order) :
    (f.toNfa e).graph.Spells (f.number p) w (f.number q) ↔ f.graph.Spells p w q := by
  constructor
  · intro hw
    generalize hi : f.number p = i at hw
    generalize hj : f.number q = j at hw
    induction hw generalizing p with
    | refl i =>
      obtain rfl := (number_inj hp).mp (hi.trans hj.symm)
      exact .refl p
    | step hs _ ih =>
      obtain ⟨p', hp', rfl, r, hf, rfl⟩ := graph_toNfa.mp hs
      obtain rfl := (number_inj hp).mp hi
      exact .step hf (ih (step_mem_order h hf hp) rfl hj)
  · intro hw
    induction hw with
    | refl p => exact .refl _
    | @step p r q o w hs _ ih =>
      exact .step (graph_toNfa.mpr ⟨p, hp, rfl, r, hs, rfl⟩) (ih (step_mem_order h hs hp) hq)

theorem group_lt_groupCount {m : Nat × Marker} (hm : m ∈ f.markers) : m.2.group < f.groupCount := by
  have hfold : ∀ (ms : List (Nat × Marker)) (n : Nat),
      n ≤ ms.foldl (fun n m => max n (m.2.group + 1)) n ∧
        ∀ m ∈ ms, m.2.group < ms.foldl (fun n m => max n (m.2.group + 1)) n := by
    intro ms
    induction ms with
    | nil => simp
    | cons a rest ih =>
      intro n
      obtain ⟨hle, hlt⟩ := ih (max n (a.2.group + 1))
      rw [List.foldl_cons]
      refine ⟨by omega, fun m hm => ?_⟩
      rcases List.mem_cons.mp hm with rfl | hm
      · omega
      · exact hlt m hm
  exact (hfold f.markers 0).2 m hm

theorem wellFormed_toNfa (h : f.Scoped base) (e : Bool) : (f.toNfa e).WellFormed := by
  have hlt : ∀ p ∈ f.order, f.number p < (f.toNfa e).size := by
    intro p hp
    rw [size_toNfa]
    exact List.idxOf_lt_length_of_mem hp
  refine ⟨hlt _ (entry_mem_order h), fun i node hi => ?_, fun i node hi => ?_, fun i o j hs => ?_,
    fun i m hm => ?_⟩
  · obtain ⟨p, -, rfl, rfl⟩ := nodes_toNfa_eq_some_iff.mp hi
    rfl
  · obtain ⟨p, hp, rfl, rfl⟩ := nodes_toNfa_eq_some_iff.mp hi
    change decide (p = f.exit) = true ↔ f.number p = f.number f.exit
    rw [number_inj hp, decide_eq_true_iff]
  · obtain ⟨p, hp, -, q, hf, rfl⟩ := graph_toNfa.mp hs
    exact hlt q (step_mem_order h hf hp)
  · obtain ⟨p, -, -, hmarker⟩ := exists_of_marker_toNfa hm
    obtain ⟨l₁, l₂, hsplit, -⟩ := List.lookup_eq_some_iff.mp hmarker
    exact group_lt_groupCount (m := (p, m)) (by simp [hsplit])

/-- Nothing leaves the final node. -/
theorem final_stuck_toNfa (h : f.Scoped base) (e : Bool) (o : Option Char) (j : Nat) :
    ¬(f.toNfa e).graph (f.toNfa e).finalId o j := by
  intro hs
  obtain ⟨p, hp, hpe, q, hf, -⟩ := graph_toNfa.mp hs
  obtain rfl := (number_inj hp).mp hpe
  exact (h.step_ne hf).1 rfl

/-- Numbering keeps the gate. -/
theorem gated_toNfa {outside : Nat → Prop} {gate : Nat} (h : f.Scoped base)
    (hg : Gated f.graph f.marker outside gate f.entry f.exit) (hgate : gate ∈ f.order) (e : Bool) :
    Gated (f.toNfa e).graph (f.toNfa e).marker (fun i => ∃ p ∈ f.order, f.number p = i ∧ outside p)
      (f.number gate) (f.toNfa e).entry (f.toNfa e).finalId := by
  have houtside : ∀ p ∈ f.order, (∃ q ∈ f.order, f.number q = f.number p ∧ outside q) → outside p := by
    rintro p hp ⟨q, hq, hqp, ho⟩
    exact (number_inj hq).mp hqp ▸ ho
  refine ⟨⟨f.entry, entry_mem_order h, rfl, hg.entry_outside⟩, ⟨gate, hgate, rfl, hg.gate_outside⟩,
    fun ho => hg.final_inside (houtside _ (exit_mem_order h) ho), ?_, ?_, fun i hi hm => ?_, ?_,
    fun o i hs ho => ?_, fun i o j hs hi hj => ?_⟩
  · rw [marker_toNfa hgate]
    exact hg.marker_gate
  · rintro i ⟨p, hp, rfl, ho⟩ hne
    rw [marker_toNfa hp]
    exact hg.marker_outside p ho (fun heq => hne (heq ▸ rfl))
  · obtain ⟨p, hp, rfl, hmarker⟩ := exists_of_marker_toNfa hm
    exact hg.marker_inside p (fun ho => hi ⟨p, hp, rfl, ho⟩) hmarker
  · rintro i o j hs ⟨p, hp, rfl, ho⟩ hne
    obtain ⟨p', hp', hpp, q, hf, rfl⟩ := graph_toNfa.mp hs
    obtain rfl := (number_inj hp').mp hpp
    exact ⟨q, step_mem_order h hf hp, rfl, hg.step_outside p' _ q hf ho (fun heq => hne (heq ▸ rfl))⟩
  · obtain ⟨p, hp, hpg, q, hf, rfl⟩ := graph_toNfa.mp hs
    obtain rfl := (number_inj hp).mp hpg
    exact hg.step_gate _ _ hf (houtside q (step_mem_order h hf hp) ho)
  · obtain ⟨p, hp, rfl, q, hf, rfl⟩ := graph_toNfa.mp hs
    exact hg.step_inside p _ q hf (fun ho => hi ⟨p, hp, rfl, ho⟩)
      (houtside q (step_mem_order h hf hp) hj)

end Fragment

/-- An automaton for the words of a pattern: it is well formed and parted by a gate. The run up to the
gate reads what may stand in front of a match, and behind the gate the words of the pattern are read.
Nothing is read behind the final node. -/
structure Nfa.Recognizes (nfa : Nfa) (left right : Bool) (body : Pattern) (outside : Nat → Prop)
    (gate : Nat) : Prop where
  wellFormed : nfa.WellFormed
  anchoredEnd_eq : nfa.anchoredEnd = right
  gated : Gated nfa.graph nfa.marker outside gate nfa.entry nfa.finalId
  spells_gate : ∀ u, nfa.graph.Spells nfa.entry u gate ↔ if left then u = [] else u ∈ lineLanguage
  spells_final : ∀ v, nfa.graph.Spells gate v nfa.finalId ↔ v ∈ body.language
  final_stuck : ∀ o q, ¬nfa.graph nfa.finalId o q

/-- The automaton of an anchored pattern is that of its fragment. -/
theorem Pattern.exists_of_anchored_toNfa {left right : Bool} {body : Pattern} {nfa : Nfa}
    (h : (Pattern.anchored left right body).toNfa = .ok nfa) :
    ∃ f, Fragment.ofPattern (.anchored left right body) 0 = .ok f ∧ nfa = f.toNfa right := by
  obtain ⟨⟨f, e⟩, hfe, rfl⟩ := exists_of_map_eq_ok h
  obtain ⟨f, hf, hfe⟩ := exists_of_map_eq_ok hfe
  obtain ⟨rfl, rfl⟩ := Prod.mk.inj hfe
  exact ⟨f, hf, rfl⟩

/-- The automaton of an anchored pattern recognizes the words of the pattern. -/
theorem Pattern.exists_recognizes {left right : Bool} {body : Pattern} {nfa : Nfa} (hp : body.Plain)
    (h : (Pattern.anchored left right body).toNfa = .ok nfa) :
    ∃ outside gate, nfa.Recognizes left right body outside gate := by
  obtain ⟨f, hf, rfl⟩ := exists_of_anchored_toNfa h
  have hscoped := (Fragment.ofPattern_spec _ hf).1
  obtain ⟨outside, gate, hg, hentry, hfinal⟩ := Fragment.exists_gated hp hf
  have hgate : gate ∈ f.order := by
    have hnil : f.graph.Spells f.entry [] gate :=
      (hentry []).mpr (by cases left <;> simp [mem_lineLanguage])
    exact Fragment.spells_mem_order hscoped hnil (Fragment.entry_mem_order hscoped)
  refine ⟨_, f.number gate, Fragment.wellFormed_toNfa hscoped right, rfl,
    Fragment.gated_toNfa hscoped hg hgate right, fun u => ?_, fun v => ?_,
    Fragment.final_stuck_toNfa hscoped right⟩
  · rw [← hentry]
    exact Fragment.spells_toNfa hscoped (Fragment.entry_mem_order hscoped) hgate
  · rw [← hfinal]
    exact Fragment.spells_toNfa hscoped hgate (Fragment.exit_mem_order hscoped)

end PatternAutomata
