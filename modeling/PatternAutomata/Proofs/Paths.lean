import PatternAutomata.Proofs.Arrivals

/-!
# Paths and their priority

A path is told by its steps. Two paths from the entry that are neither continued by each other part at
some node, and the one that takes the earlier epsilon there precedes the other. What captures arrive
somewhere is settled by the path: they are those of its replay.
-/

namespace PatternAutomata

/-- The steps of a path: what each of them reads, if anything, and the node that it leads to. -/
abbrev Steps := List (Option Char × Nat)

namespace Steps

/-- The word that a path reads. -/
def word (π : Steps) : List Char := π.filterMap (·.1)

/-- The node where a path from `p` ends. -/
def ending (p : Nat) : Steps → Nat
  | [] => p
  | (_, q) :: π => ending q π

/-- The nodes that a path from `p` passes, with the places where it passes them. -/
def visits (p : Nat) (place : Int) : Steps → List (Nat × Int)
  | [] => [(p, place)]
  | (o, q) :: π => (p, place) :: visits q (place + o.toList.length) π

variable {π ρ : Steps} {p q : Nat} {o : Option Char} {place k : Int}

@[simp] theorem word_nil : word [] = [] := rfl

@[simp] theorem word_append (π ρ : Steps) : word (π ++ ρ) = word π ++ word ρ := List.filterMap_append

@[simp] theorem word_singleton (o : Option Char) (q : Nat) : word [(o, q)] = o.toList := by
  cases o <;> rfl

theorem word_prefix (h : ρ <+: π) : word ρ <+: word π := h.filterMap _

@[simp] theorem ending_nil : ending p [] = p := rfl

@[simp] theorem ending_append : ending p (π ++ [(o, q)]) = q := by
  induction π generalizing p with
  | nil => rfl
  | cons step π ih => exact ih

theorem visits_append : visits p place (π ++ [(o, q)]) =
    visits p place π ++ [(q, place + (word (π ++ [(o, q)])).length)] := by
  induction π generalizing p place with
  | nil => simp [visits]
  | cons step π ih =>
    obtain ⟨o', q'⟩ := step
    have hword : ∀ π : Steps, word ((o', q') :: π) = o'.toList ++ word π := fun π =>
      (word_append [(o', q')] π).trans (by rw [word_singleton])
    rw [List.cons_append, visits, ih, visits, hword, List.cons_append, List.length_append,
      Int.natCast_add, Int.add_assoc]

/-- A path passes the nodes where its prefixes end. -/
theorem mem_visits_iff : (q, k) ∈ visits p place π ↔
    ∃ ρ, ρ <+: π ∧ ending p ρ = q ∧ place + (word ρ).length = k := by
  induction π using List.reverseRecOn generalizing q k with
  | nil => simp [visits, Prod.ext_iff, eq_comm]
  | append_singleton π step ih =>
    obtain ⟨o, r⟩ := step
    rw [visits_append, List.mem_append, List.mem_singleton, ih]
    simp only [List.prefix_concat_iff, or_and_right, exists_or, exists_eq_left, ending_append,
      Prod.ext_iff, eq_comm (a := q), eq_comm (a := k)]
    exact or_comm

theorem visits_subset (h : ρ <+: π) : visits p place ρ ⊆ visits p place π := by
  intro v hv
  obtain ⟨σ, hσ, hend, hplace⟩ := mem_visits_iff.mp hv
  exact mem_visits_iff.mpr ⟨σ, hσ.trans h, hend, hplace⟩

/-- A prefix that ends where the path ends is the path, if no node is passed twice at one place. -/
theorem eq_of_prefix (h : ρ <+: π) (hend : ending p ρ = ending p π)
    (hword : (word ρ).length = (word π).length) (hn : (visits p place π).Nodup) : ρ = π := by
  induction π using List.reverseRecOn with
  | nil => exact List.prefix_nil.mp h
  | append_singleton π step ih =>
    obtain ⟨o, q⟩ := step
    rcases List.prefix_concat_iff.mp h with h | h
    · exact h
    · rw [visits_append, List.nodup_append] at hn
      rw [ending_append] at hend
      refine (hn.2.2 (q, place + (word ρ).length) (mem_visits_iff.mpr ⟨ρ, h, hend, rfl⟩) _ ?_ rfl).elim
      rw [hword]
      exact List.mem_singleton_self _

end Steps

open PatternAutomata.Graph

/-- The steps lead from one node to another. -/
inductive Graph.Path (G : Graph) (p : Nat) : Steps → Nat → Prop
  | nil : Path G p [] p
  | step {π : Steps} {q r : Nat} {o : Option Char} (h : Path G p π q) (hs : G q o r) :
      Path G p (π ++ [(o, r)]) r

section Path

variable {G : Graph} {π : Steps} {p q r : Nat} {o : Option Char}

theorem Graph.path_nil_iff : G.Path p [] q ↔ p = q := by
  constructor
  · intro h
    generalize hnil : ([] : Steps) = π at h
    cases h with
    | nil => rfl
    | step h hs => exact (List.append_ne_nil_of_right_ne_nil _ (by simp) hnil.symm).elim
  · rintro rfl
    exact .nil

theorem Graph.path_concat_iff :
    G.Path p (π ++ [(o, q)]) r ↔ q = r ∧ ∃ p', G.Path p π p' ∧ G p' o q := by
  constructor
  · intro h
    generalize hπ : π ++ [(o, q)] = ρ at h
    cases h with
    | nil => exact (List.append_ne_nil_of_right_ne_nil _ (by simp) hπ).elim
    | step h hs =>
      obtain ⟨rfl, hstep⟩ := List.append_inj' hπ rfl
      cases hstep
      exact ⟨rfl, _, h, hs⟩
  · rintro ⟨rfl, p', h, hs⟩
    exact h.step hs

/-- A path can be taken apart at its first step as well. -/
theorem Graph.path_cons_iff : G.Path p ((o, q) :: π) r ↔ G p o q ∧ G.Path q π r := by
  induction π using List.reverseRecOn generalizing r with
  | nil =>
    rw [← List.nil_append [(o, q)], path_concat_iff, path_nil_iff]
    simp only [path_nil_iff, exists_eq_left']
    exact and_comm
  | append_singleton π step ih =>
    obtain ⟨o', q'⟩ := step
    rw [← List.cons_append, path_concat_iff, path_concat_iff]
    simp only [ih, and_assoc, exists_and_left]
    exact and_left_comm

end Path

/-- Whether the steps lead from one node to another is found out by taking them. -/
instance Graph.decidablePath (G : Graph) [∀ p o q, Decidable (G p o q)] :
    ∀ (p : Nat) (π : Steps) (q : Nat), Decidable (G.Path p π q)
  | _, [], _ => decidable_of_iff _ path_nil_iff.symm
  | p, (o, r) :: π, q =>
    have := decidablePath G r π q
    decidable_of_iff (G p o r ∧ G.Path r π q) path_cons_iff.symm

instance Node.decidableLeadsTo (node : Node) : ∀ (o : Option Char) (q : Nat), Decidable (node.LeadsTo o q)
  | none, q => inferInstanceAs (Decidable (q ∈ node.epsilons))
  | some c, q => inferInstanceAs (Decidable (q ∈ node.step c))

instance Nfa.decidableGraph (nfa : Nfa) (p : Nat) (o : Option Char) (q : Nat) :
    Decidable (nfa.graph p o q) :=
  decidable_of_iff (∃ node ∈ nfa.nodes[p]?, node.LeadsTo o q) Iff.rfl

namespace Nfa

/-- The nodes that a path from the entry passes, with their places. -/
def visits (nfa : Nfa) (π : Steps) : List (Nat × Int) := π.visits nfa.entry (-1)

/-- The captures of a path from the entry: it passes the markers of its nodes, one after the other. -/
def replay (nfa : Nfa) (π : Steps) : Except Fault Captures :=
  (nfa.visits π).foldlM (fun captures v => captures.pass (nfa.marker v.1) v.2) (.blank nfa.groupCount)

/-- Two paths from the entry part at a node, where the first takes an earlier one of its epsilons. -/
def Precedes (nfa : Nfa) (π π' : Steps) : Prop :=
  ∃ ρ q q' rest rest' node, π = ρ ++ (none, q) :: rest ∧ π' = ρ ++ (none, q') :: rest' ∧
    nfa.nodes[Steps.ending nfa.entry ρ]? = some node ∧
      node.epsilons.idxOf q < node.epsilons.idxOf q'

/-- A path goes on as another or precedes it. -/
def NoLater (nfa : Nfa) (π π' : Steps) : Prop := π <+: π' ∨ nfa.Precedes π π'

variable {nfa : Nfa} {π π' π'' ρ : Steps} {a : Arrival} {t : Thread} {next : List Arrival}
  {o : Option Char} {p q : Nat}

theorem Precedes.append (h : nfa.Precedes π π') (ρ ρ' : Steps) :
    nfa.Precedes (π ++ ρ) (π' ++ ρ') := by
  obtain ⟨σ, q, q', rest, rest', node, rfl, rfl, hnode, hlt⟩ := h
  exact ⟨σ, q, q', rest ++ ρ, rest' ++ ρ', node, by simp, by simp, hnode, hlt⟩

theorem Precedes.append_right (h : nfa.Precedes π π') (ρ : Steps) : nfa.Precedes π (π' ++ ρ) :=
  List.append_nil π ▸ h.append [] ρ

/-- The path that goes before the first one of three parts from the last one where the three do. -/
theorem Precedes.trans (h : nfa.Precedes π π') (h' : nfa.Precedes π' π'') : nfa.Precedes π π'' := by
  obtain ⟨σ, q, q', rest, rest', node, rfl, rfl, hnode, hlt⟩ := h
  obtain ⟨τ, r, r', rest₁, rest₁', node', heq, rfl, hnode', hlt'⟩ := h'
  rcases List.append_eq_append_iff.mp heq with ⟨v, rfl, hv⟩ | ⟨v, rfl, hv⟩
  · cases v with
    | nil =>
      obtain ⟨hqr, -⟩ := List.cons.inj hv
      cases hqr
      rw [List.append_nil] at hnode'
      rw [hnode] at hnode'
      cases hnode'
      exact ⟨σ, q, r', rest, rest₁', node, rfl, by simp, hnode, hlt.trans hlt'⟩
    | cons step v =>
      obtain ⟨rfl, -⟩ := List.cons.inj hv
      exact ⟨σ, q, q', rest, v ++ (none, r') :: rest₁', node, rfl, by simp, hnode, hlt⟩
  · cases v with
    | nil =>
      obtain ⟨hqr, -⟩ := List.cons.inj hv
      cases hqr
      rw [List.append_nil] at hnode
      rw [hnode] at hnode'
      cases hnode'
      exact ⟨τ, q, r', rest, rest₁', node, by simp, rfl, hnode, hlt.trans hlt'⟩
    | cons step v =>
      obtain ⟨rfl, -⟩ := List.cons.inj hv
      exact ⟨τ, r, r', v ++ (none, q) :: rest, rest₁', node', by simp, rfl, hnode', hlt'⟩

/-- What a path that precedes another starts with precedes the other as well, or is shared by both. -/
theorem Precedes.of_prefix (h : nfa.Precedes π π') (hρ : ρ <+: π) : nfa.NoLater ρ π' := by
  obtain ⟨σ, q, q', rest, rest', node, rfl, rfl, hnode, hlt⟩ := h
  rcases List.prefix_or_prefix_of_prefix hρ (List.prefix_append σ _) with h | ⟨v, rfl⟩
  · exact .inl (h.trans (List.prefix_append _ _))
  · cases v with
    | nil => exact .inl (by simp)
    | cons step v =>
      obtain ⟨w, hw⟩ := (List.prefix_append_right_inj σ).mp hρ
      obtain ⟨rfl, -⟩ := List.cons.inj hw
      exact .inr ⟨σ, q, q', v, rest', node, rfl, rfl, hnode, hlt⟩

theorem NoLater.refl (π : Steps) : nfa.NoLater π π := .inl (List.prefix_refl π)

theorem NoLater.append_right (h : nfa.NoLater π π') (ρ : Steps) : nfa.NoLater π (π' ++ ρ) :=
  h.imp (·.trans (List.prefix_append _ _)) (·.append_right ρ)

theorem NoLater.trans (h : nfa.NoLater π π') (h' : nfa.NoLater π' π'') : nfa.NoLater π π'' := by
  rcases h' with ⟨ρ, rfl⟩ | h'
  · exact h.append_right ρ
  · rcases h with h | h
    · exact h'.of_prefix h
    · exact .inr (h.trans h')

/-- The path to what arrives somewhere. -/
inductive Follows (nfa : Nfa) : Steps → Arrival → Prop
  | entry : Follows nfa [] ⟨nfa.entry, .blank nfa.groupCount⟩
  | go {π : Steps} {a : Arrival} {t : Thread} {next : List Arrival} {o : Option Char} {q : Nat}
      (ha : Follows nfa π a) (hv : a.visit nfa (placeAfter π.word) = .ok (t, next))
      (hq : t.node.LeadsTo o q) : Follows nfa (π ++ [(o, q)]) ⟨q, t.captures⟩

theorem Follows.arrives (h : nfa.Follows π a) : nfa.Arrives π.word a := by
  induction h with
  | entry => exact .entry
  | go _ hv hq ih =>
    rw [Steps.word_append, Steps.word_singleton]
    exact ih.go hv hq

theorem Follows.ending_eq (h : nfa.Follows π a) : π.ending nfa.entry = a.target := by
  cases h with
  | entry => rfl
  | go _ _ _ => exact Steps.ending_append

theorem Follows.path (h : nfa.Follows π a) : nfa.graph.Path nfa.entry π a.target := by
  induction h with
  | entry => exact .nil
  | go _ hv hq ih => exact ih.step ((graph_of_visit hv).mpr hq)

/-- Each step of a path is one of the graph. -/
theorem Follows.graph_of_prefix (h : nfa.Follows π a) (hρ : ρ ++ [(o, q)] <+: π) :
    nfa.graph (ρ.ending nfa.entry) o q := by
  induction h with
  | entry => simp at hρ
  | @go π a t next o' q' ha hv hq ih =>
    rcases List.prefix_concat_iff.mp hρ with heq | hρ
    · obtain ⟨rfl, hstep⟩ := List.append_inj' heq rfl
      cases hstep
      exact ha.ending_eq ▸ (graph_of_visit hv).mpr hq
    · exact ih hρ

/-- Something follows every path. -/
theorem exists_follows (hw : nfa.WellFormed) (h : nfa.graph.Path nfa.entry π p) :
    ∃ a, nfa.Follows π a ∧ a.target = p := by
  induction h with
  | nil => exact ⟨_, .entry, rfl⟩
  | step _ hs ih =>
    obtain ⟨a, ha, rfl⟩ := ih
    obtain ⟨t, next, hv⟩ := ha.arrives.visit hw
    exact ⟨_, ha.go hv ((graph_of_visit hv).mp hs), rfl⟩

theorem visits_append : nfa.visits (π ++ [(o, q)]) =
    nfa.visits π ++ [(q, placeAfter (π ++ [(o, q)]).word)] := by
  rw [visits, Steps.visits_append, visits, placeAfter, Int.add_comm, Int.sub_eq_add_neg]

theorem pass_of_visit {place : Int} (hv : a.visit nfa place = .ok (t, next)) :
    a.captures.pass (nfa.marker a.target) place = .ok t.captures := by
  rw [marker_of_visit hv]
  exact (visit_eq_ok hv).2.1

/-- The captures after a visit are the replay of the path. -/
theorem Follows.replay_eq (h : nfa.Follows π a) (hv : a.visit nfa (placeAfter π.word) = .ok (t, next)) :
    nfa.replay π = .ok t.captures := by
  have hlast := pass_of_visit hv
  induction h generalizing t next with
  | entry =>
    simp only [replay, visits, Steps.visits, List.foldlM_cons, List.foldlM_nil]
    rw [Steps.word_nil, placeAfter_nil] at hlast
    rw [hlast]
    rfl
  | @go π a t' next' o q _ hv' _ ih =>
    have hbefore : nfa.replay π = .ok t'.captures := ih hv' (pass_of_visit hv')
    rw [replay] at hbefore
    rw [replay, visits_append, List.foldlM_append, hbefore]
    simp only [List.foldlM_cons, List.foldlM_nil]
    change (t'.captures.pass (nfa.marker q) (placeAfter (π ++ [(o, q)]).word) >>= pure) = _
    rw [hlast]
    rfl

variable {outside : Nat → Prop} {gate : Nat} {s : Int}

/-- A thread has the start of the match from where its path passes the gate. -/
theorem Follows.start_eq_some_iff (h : nfa.Follows π a)
    (hg : Gated nfa.graph nfa.marker outside gate nfa.entry nfa.finalId)
    (hv : a.visit nfa (placeAfter π.word) = .ok (t, next)) :
    t.start = some s ↔ (gate, s) ∈ nfa.visits π := by
  have hstart := start_of_visit hg hv
  induction h generalizing t next with
  | entry =>
    have hblank : (Captures.blank nfa.groupCount).matchStart = none := Captures.opened?_blank _ 0
    rw [hstart, visits, Steps.visits, List.mem_singleton, Prod.mk.injEq]
    dsimp only
    split
    · rename_i hgate
      simp [hgate, eq_comm]
    · rename_i hgate
      simp [hblank, Ne.symm hgate]
  | @go π a t' next' o q ha hv' hq ih =>
    have hbefore := ih hv' (start_of_visit hg hv')
    rw [hstart, visits_append, List.mem_append, List.mem_singleton, Prod.mk.injEq]
    dsimp only
    split
    · -- The gate is passed once only.
      rename_i hgate
      have hnone : t'.start = none :=
        (ha.go hv' hq).arrives.matchStart_of_outside hg (hgate ▸ hg.gate_outside)
      have hout : (gate, s) ∉ nfa.visits π := fun hin => by
        rw [hbefore.mpr hin] at hnone
        cases hnone
      simp [hout, hgate, eq_comm]
    · rename_i hgate
      simp only [Ne.symm hgate, false_and, or_false]
      exact hbefore

/-- Away from the gate, what arrives has that start already. -/
theorem Follows.start_eq_some_iff_of_ne (h : nfa.Follows π a) (hw : nfa.WellFormed)
    (hg : Gated nfa.graph nfa.marker outside gate nfa.entry nfa.finalId) (hne : a.target ≠ gate) :
    a.captures.matchStart = some s ↔ (gate, s) ∈ nfa.visits π := by
  obtain ⟨t, next, hv⟩ := h.arrives.visit hw
  rw [← h.start_eq_some_iff hg hv, start_of_visit hg hv, if_neg hne]

/-- Passing a node again does not change the start. -/
theorem Follows.start_eq_of_prefix {b : Arrival} (h : nfa.Follows π a) (h' : nfa.Follows ρ b)
    (hw : nfa.WellFormed) (hg : Gated nfa.graph nfa.marker outside gate nfa.entry nfa.finalId)
    (hρ : ρ <+: π) (htarget : b.target = a.target) : b.captures.matchStart = a.captures.matchStart := by
  by_cases ho : outside a.target
  · rw [h.arrives.matchStart_of_outside hg ho, h'.arrives.matchStart_of_outside hg (htarget ▸ ho)]
  · have hne : b.target ≠ gate := fun hgate => ho (htarget ▸ hgate ▸ hg.gate_outside)
    obtain ⟨u, v, -, hi⟩ := h'.arrives.within hg (htarget ▸ ho)
    have hmem := (h'.start_eq_some_iff_of_ne hw hg hne).mp hi.matchStart_eq
    rw [hi.matchStart_eq]
    exact ((h.start_eq_some_iff_of_ne hw hg (htarget ▸ hne)).mpr (Steps.visits_subset hρ hmem)).symm

end Nfa

end PatternAutomata
