import PatternAutomata.Proofs.Shape

/-!
# Numbers follow a recursive descent

A depth-first descent calls itself for one node after the other: whatever a node leads to is met before
its next sibling is looked at. The traversal that numbers the nodes keeps a stack instead, on which a
node may wait many times, and looks at the marks only when a node is taken off. Both meet the nodes in
the same order on every graph, so an automaton has its nodes in the order of a descent over its own
transitions and epsilons.
-/

namespace PatternAutomata

/-- The nodes below `n` that are not met yet. -/
def unmet (n : Nat) (met : List Nat) : Finset Nat := Finset.range n \ met.toFinset

theorem card_unmet_lt {n p : Nat} {met later : List Nat} (hp : ¬(p ∈ met ∨ n ≤ p))
    (hlater : met ++ [p] <+: later) : (unmet n later).card < (unmet n met).card := by
  rw [not_or, Nat.not_le] at hp
  have hsub : unmet n later ⊆ unmet n met := by
    intro q hq
    simp only [unmet, Finset.mem_sdiff, Finset.mem_range, List.mem_toFinset] at hq ⊢
    exact ⟨hq.1, fun hm => hq.2 (hlater.subset (List.mem_append_left [p] hm))⟩
  have hmem : p ∈ unmet n met := by simp [unmet, hp]
  have hnot : p ∉ unmet n later := by
    simp [unmet, hlater.subset (List.mem_append_right met List.mem_cons_self)]
  exact Finset.card_lt_card ((Finset.ssubset_iff_of_subset hsub).mpr ⟨p, hmem, hnot⟩)

/-- The nodes below `n` in the order in which they are met, behind those that were met before. A node
that was met is passed over; any other is followed by all that is met on a descent from it, and only then
by its siblings. -/
def descend (next : Nat → List Nat) (n : Nat) (met : List Nat) :
    List Nat → { later : List Nat // met <+: later }
  | [] => ⟨met, List.prefix_rfl⟩
  | p :: siblings =>
    if _passed : p ∈ met ∨ n ≤ p then descend next n met siblings
    else
      let inner := descend next n (met ++ [p]) (next p)
      let outer := descend next n inner.val siblings
      ⟨outer.val, ((List.prefix_append met [p]).trans inner.property).trans outer.property⟩
termination_by items => ((unmet n met).card, items.length)
decreasing_by
  · exact Prod.Lex.right _ (Nat.lt_succ_self _)
  · exact Prod.Lex.left _ _ (card_unmet_lt _passed List.prefix_rfl)
  · exact Prod.Lex.left _ _ (card_unmet_lt _passed inner.property)

section Descend

variable {next : Nat → List Nat} {n p : Nat} {met siblings : List Nat}

theorem descend_nil : (descend next n met []).val = met := by rw [descend]

theorem descend_of_passed (h : p ∈ met ∨ n ≤ p) :
    descend next n met (p :: siblings) = descend next n met siblings := by
  rw [descend, dif_pos h]

theorem descend_of_unmet (h : ¬(p ∈ met ∨ n ≤ p)) : (descend next n met (p :: siblings)).val =
    (descend next n (descend next n (met ++ [p]) (next p)).val siblings).val := by
  rw [descend, dif_neg h]

/-- Two graphs that agree up to a renaming of their nodes are descended alike. -/
theorem descend_rename {next' : Nat → List Nat} {n' : Nat} {g : Nat → Nat} (known : Nat → Prop)
    (hinj : ∀ p q, known p → known q → g p = g q → p = q)
    (hbound : ∀ p, known p → p < n ∧ g p < n') (hknown : ∀ p, known p → ∀ q ∈ next p, known q)
    (hnext : ∀ p, known p → next' (g p) = (next p).map g) (met items : List Nat)
    (hmet : ∀ p ∈ met, known p) (hitems : ∀ p ∈ items, known p) :
    (∀ p ∈ (descend next n met items).val, known p) ∧
      (descend next' n' (met.map g) (items.map g)).val = (descend next n met items).val.map g := by
  have hpassed : ∀ (p : Nat) (met : List Nat), known p → (∀ q ∈ met, known q) →
      ((g p ∈ met.map g ∨ n' ≤ g p) ↔ (p ∈ met ∨ n ≤ p)) := by
    intro p met hp hmet
    have hmem : g p ∈ met.map g ↔ p ∈ met := by
      constructor
      · intro h
        obtain ⟨q, hq, heq⟩ := List.mem_map.mp h
        exact hinj q p (hmet q hq) hp heq ▸ hq
      · exact List.mem_map_of_mem
    rw [hmem, or_iff_left (Nat.not_le.mpr (hbound p hp).2), or_iff_left (Nat.not_le.mpr (hbound p hp).1)]
  induction met, items using descend.induct next n with
  | case1 met => exact ⟨by rwa [descend_nil], by simp [descend_nil]⟩
  | case2 met p siblings h ih =>
    obtain ⟨hp, hsiblings⟩ := List.forall_mem_cons.mp hitems
    rw [descend_of_passed h, List.map_cons, descend_of_passed ((hpassed p met hp hmet).mpr h)]
    exact ih hmet hsiblings
  | case3 met p siblings h inner ihinner ihouter =>
    obtain ⟨hp, hsiblings⟩ := List.forall_mem_cons.mp hitems
    have hmet' : ∀ q ∈ met ++ [p], known q := by
      simpa [or_imp, forall_and] using ⟨hmet, hp⟩
    obtain ⟨hin, heqin⟩ := ihinner hmet' (hknown p hp)
    obtain ⟨hout, heqout⟩ := ihouter hin hsiblings
    rw [descend_of_unmet h, List.map_cons, descend_of_unmet (mt (hpassed p met hp hmet).mp h), hnext p hp]
    rw [List.map_append, List.map_singleton] at heqin
    rw [heqin]
    exact ⟨hout, heqout⟩

end Descend

namespace Fragment

variable {f : Fragment} {base p : Nat} {met items : List Nat} {marks final : Vector Bool f.next}
  {log : List (Fin f.next × Nat)} {stack : List (Fin f.next)}

/-- The marked nodes are those that were met. -/
def Records (f : Fragment) (marks : Vector Bool f.next) (met : List Nat) : Prop :=
  ∀ id : Fin f.next, marks.get id = true ↔ id.val ∈ met

theorem Records.traversal (h : f.Records marks met)
    (ht : Traversal .ok f.expand marks stack log final) :
    f.Records final (met ++ log.map (·.1.val)) := by
  intro id
  rw [ht.marked_iff, h, List.mem_append, List.mem_map]
  refine or_congr_right ⟨?_, ?_⟩
  · rintro ⟨x, hx, heq⟩
    exact ⟨x, hx, congrArg Fin.val (Except.ok.inj heq)⟩
  · rintro ⟨x, hx, heq⟩
    exact ⟨x, hx, congrArg Except.ok (Fin.ext heq)⟩

/-- The stack is gone through in the order of a descent. -/
theorem exists_traversal_eq_descend (met items : List Nat) (h : f.Records marks met) :
    ∃ log final, Traversal .ok f.expand marks (items.filterMap f.node?) log final ∧
      (descend f.successors f.next met items).val = met ++ log.map (·.1.val) := by
  -- along the calls of the descent, which cut the stack where a call returns
  induction met, items using descend.induct f.successors f.next generalizing marks with
  | case1 met => exact ⟨[], marks, .done marks, by simp [descend_nil]⟩
  | case2 met p siblings hp ih =>
    obtain ⟨log, final, ht, heq⟩ := ih h
    rw [descend_of_passed hp]
    by_cases hlt : p < f.next
    · have hnode : f.node? p = some ⟨p, hlt⟩ := dif_pos hlt
      rw [List.filterMap_cons_some hnode]
      exact ⟨log, final, .skip rfl ((h _).mpr (hp.resolve_right (Nat.not_le.mpr hlt))) ht, heq⟩
    · have hnode : f.node? p = none := dif_neg hlt
      rw [List.filterMap_cons_none hnode]
      exact ⟨log, final, ht, heq⟩
  | case3 met p siblings hp inner ihinner ihouter =>
    have hlt : p < f.next := Nat.not_le.mp (not_or.mp hp).2
    have hnode : f.node? p = some ⟨p, hlt⟩ := dif_pos hlt
    have hfree : marks.get ⟨p, hlt⟩ = false :=
      eq_false_of_ne_true fun hm => (not_or.mp hp).1 ((h _).mp hm)
    have hmarked : f.Records (marks.set p true hlt) (met ++ [p]) := by
      intro id
      rw [get_set_iff marks ⟨p, hlt⟩, h, List.mem_append, List.mem_singleton, Fin.ext_iff, eq_comm]
    obtain ⟨log, mid, ht, heq⟩ := ihinner hmarked
    have hmid : f.Records mid inner.val := heq ▸ hmarked.traversal ht
    obtain ⟨log', final, ht', heq'⟩ := ihouter hmid
    rw [List.filterMap_cons_some hnode, descend_of_unmet hp, heq']
    refine ⟨_, final, .visit rfl hfree rfl (ht.append ht'), ?_⟩
    rw [heq]
    simp

/-- The nodes in the order in which a descent meets them, first from the entry, then from the exit. -/
def preorder (f : Fragment) : List Nat :=
  (descend f.successors f.next [] [f.entry, f.exit]).val

/-- The stack numbers the nodes of any graph as a descent does. -/
theorem order_eq_preorder (f : Fragment) : f.order = f.preorder := by
  have h : f.Records (noMarks f.next) [] := by simp [Records, get_noMarks]
  obtain ⟨log, final, ht, heq⟩ := exists_traversal_eq_descend [] [f.entry, f.exit] h
  rw [order_eq_of_traversal ht, preorder, heq, List.nil_append]

end Fragment

/-- The nodes that a node leads to: first those that its transitions lead to. -/
def Node.successors (node : Node) : List Nat := node.transitions.map (·.target) ++ node.epsilons

namespace Nfa

def successors (nfa : Nfa) (p : Nat) : List Nat := nfa.nodes[p]?.elim [] Node.successors

/-- The nodes in the order in which a descent from node 0 meets them. If it does not meet the final
node, that one comes last. -/
def preorder (nfa : Nfa) : List Nat :=
  let met := (descend nfa.successors nfa.size [] [0]).val
  if nfa.finalId ∈ met then met else met ++ [nfa.finalId]

theorem Simple.successors_final {nfa : Nfa} (h : nfa.Simple) : nfa.successors nfa.finalId = [] := by
  have hnode := Array.getElem?_eq_getElem h.final_lt
  obtain ⟨htransitions, hepsilons⟩ := h.final_stuck _ hnode
  rw [successors, hnode, Option.elim_some, Node.successors, htransitions, hepsilons]
  rfl

/-- A descent that goes on at the final node adds nothing else. -/
theorem Simple.preorder_eq {nfa : Nfa} (h : nfa.Simple) :
    nfa.preorder = (descend nfa.successors nfa.size [] [0, nfa.finalId]).val := by
  have hpos : ¬(0 ∈ ([] : List Nat) ∨ nfa.size ≤ 0) := by
    have := h.final_lt
    simp only [List.not_mem_nil, false_or]
    omega
  rw [preorder, descend_of_unmet hpos, descend_of_unmet hpos, descend_nil]
  generalize (descend nfa.successors nfa.size ([] ++ [0]) (nfa.successors 0)).val = met
  by_cases hmem : nfa.finalId ∈ met
  · rw [if_pos hmem, descend_of_passed (.inl hmem), descend_nil]
  · have hunmet : ¬(nfa.finalId ∈ met ∨ nfa.size ≤ nfa.finalId) :=
      not_or.mpr ⟨hmem, Nat.not_le.mpr h.final_lt⟩
    rw [if_neg hmem, descend_of_unmet hunmet, h.successors_final, descend_nil, descend_nil]

end Nfa

namespace Fragment

variable {f : Fragment} {base p : Nat}

theorem successors_toNfa (e : Bool) (hp : p ∈ f.order) :
    (f.toNfa e).successors (f.number p) = (f.successors p).map f.number := by
  rw [Nfa.successors, nodes_toNfa_eq_some_iff.mpr ⟨p, hp, rfl, rfl⟩, Option.elim_some]
  simp [Node.successors, nodeOf, successors]

theorem map_number_order (f : Fragment) : f.order.map f.number = List.range f.order.length := by
  refine List.ext_getElem (by simp) fun i hi _ => ?_
  rw [List.length_map] at hi
  rw [List.getElem_map, List.getElem_range]
  exact f.order_nodup.idxOf_getElem i hi

/-- Renamed to its numbers, the order of the nodes is a descent over the automaton. -/
theorem descend_toNfa (h : f.Scoped base) (e : Bool) :
    (descend (f.toNfa e).successors (f.toNfa e).size [] [f.number f.entry, f.number f.exit]).val =
      List.range (f.toNfa e).size := by
  have hspec := f.order_spec
  have hstep : ∀ p ∈ f.order, ∀ q ∈ f.successors p, q ∈ f.order := by
    intro p hp q hq
    obtain ⟨o, hs⟩ := exists_graph_of_mem_successors hq
    exact step_mem_order h hs hp
  have hbound : ∀ p ∈ f.order, p < f.next ∧ f.number p < (f.toNfa e).size := by
    intro p hp
    rw [size_toNfa]
    exact ⟨hspec.1 p hp, List.idxOf_lt_length_of_mem hp⟩
  have hends : ∀ p ∈ [f.entry, f.exit], p ∈ f.order := by
    simpa using ⟨entry_mem_order h, exit_mem_order h⟩
  have hrename := (descend_rename (· ∈ f.order) (fun p q hp _ => (number_inj hp).mp) hbound hstep
    (fun p hp => successors_toNfa e hp) [] [f.entry, f.exit] (by simp) hends).2
  calc (descend (f.toNfa e).successors (f.toNfa e).size [] [f.number f.entry, f.number f.exit]).val
      = f.preorder.map f.number := hrename
    _ = f.order.map f.number := by rw [order_eq_preorder]
    _ = List.range (f.toNfa e).size := by rw [map_number_order, size_toNfa]

end Fragment

/-- Nodes are numbered in depth-first preorder. The stack meets the nodes of any graph in the order in
which a descent meets them, and the nodes of the automaton of a tree are numbered in the order of a
descent over that automaton. -/
theorem numbered_depth_first : (∀ f : Fragment, f.order = f.preorder) ∧
    ∀ (pattern : Pattern) (nfa : Nfa), pattern.toNfa = .ok nfa →
      nfa.preorder = List.range nfa.size := by
  refine ⟨Fragment.order_eq_preorder, fun pattern nfa h => ?_⟩
  obtain ⟨root, f, anchoredEnd, hf, rfl, -⟩ := Pattern.exists_fragment h
  have hscoped := (Fragment.ofPattern_spec root hf).1
  have hsimple := (Fragment.simple_ofPattern root hf).toNfa hscoped (Fragment.forks_ofPattern root hf)
    anchoredEnd
  have hdescend := Fragment.descend_toNfa hscoped anchoredEnd
  rw [Fragment.number_entry hscoped] at hdescend
  exact hsimple.preorder_eq.trans hdescend

open Pattern in
/-- The rounds of this tree lead back to their start, and nothing gets from them to the final node, which
therefore has the last number. -/
theorem numbered_depth_first_cycle : ∃ pattern nfa,
    pattern = concat (repeated .star (union (literal 'a') .empty)) (charClass ⟨[], false⟩) ∧
    pattern.toNfa = .ok nfa ∧ nfa.preorder = List.range nfa.size ∧ nfa.size = 12 ∧ nfa.finalId = 11 := by
  have hrun : (toNfa (concat (repeated .star (union (literal 'a') .empty))
      (charClass ⟨[], false⟩))).map (fun nfa => (nfa.size, nfa.finalId)) = .ok (12, 11) := by
    cbv
  obtain ⟨nfa, hnfa, hends⟩ := exists_of_map_eq_ok hrun
  rw [Prod.mk.injEq] at hends
  exact ⟨_, nfa, rfl, hnfa, numbered_depth_first.2 _ nfa hnfa, hends⟩

end PatternAutomata
