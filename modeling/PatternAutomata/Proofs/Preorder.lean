import PatternAutomata.Proofs.Traversal

/-!
# A walk goes through its items in order

Where the items of the stack are in order, and what follows an item stands between it and the items
behind it, a walk visits in order too. Of all the items with one key that ever come to the stack, it
then visits the one that no other comes before.
-/

namespace PatternAutomata

variable {α β γ ε κ : Type} {key : α → κ} {visit : α → Except ε (β × List α)} {seen : κ → Prop}
  {stack : List α} {log : List (α × β)}

/-- Items that carry more than their visits look at walk as the bare items do. -/
theorem Walk.lift {f : γ → α} {visit' : γ → Except ε (β × List γ)}
    (hvisit : ∀ c b next, visit (f c) = .ok (b, next) →
      ∃ next', visit' c = .ok (b, next') ∧ next'.map f = next)
    (hw : Walk key visit seen stack log) {stack' : List γ} (hs : stack'.map f = stack) :
    ∃ log', Walk (key ∘ f) visit' seen stack' log' ∧ log'.map (fun x => (f x.1, x.2)) = log := by
  induction hw generalizing stack' with
  | done seen =>
    obtain rfl := List.map_eq_nil_iff.mp hs
    exact ⟨[], .done seen, rfl⟩
  | skip hm _ ih =>
    obtain ⟨c, rest', rfl, rfl, hrest⟩ := List.map_eq_cons_iff.mp hs
    obtain ⟨log', hw, hlog⟩ := ih hrest
    exact ⟨log', .skip hm hw, hlog⟩
  | visit hm hv _ ih =>
    obtain ⟨c, rest', rfl, rfl, hrest⟩ := List.map_eq_cons_iff.mp hs
    obtain ⟨next', hv', hnext⟩ := hvisit c _ _ hv
    have hstack : (next' ++ rest').map f = next'.map f ++ rest'.map f := List.map_append
    rw [hnext, hrest] at hstack
    obtain ⟨log', hw, hlog⟩ := ih hstack
    exact ⟨(c, _) :: log', .visit hm hv' hw, by rw [List.map_cons, hlog]⟩

/-- A walk visits no key that was seen, and none twice. -/
theorem Walk.nodup_keys (hw : Walk key visit seen stack log) :
    (∀ x ∈ log, ¬seen (key x.1)) ∧ (log.map fun x => key x.1).Nodup := by
  induction hw with
  | done seen => simp
  | skip _ _ ih => exact ih
  | visit hm _ _ ih =>
    obtain ⟨hfree, hnodup⟩ := ih
    refine ⟨List.forall_mem_cons.mpr ⟨hm, fun x hx h => hfree x hx (.inl h)⟩, ?_⟩
    refine List.nodup_cons.mpr ⟨fun h => ?_, hnodup⟩
    obtain ⟨x, hx, heq⟩ := List.mem_map.mp h
    exact hfree x hx (.inr heq)

/-- What holds of the stack and is handed on by visits holds of everything visited. -/
theorem Walk.forall_log {P : α → Prop} (hw : Walk key visit seen stack log)
    (hvisit : ∀ a b next, P a → visit a = .ok (b, next) → ∀ c ∈ next, P c) (hs : ∀ a ∈ stack, P a) :
    ∀ x ∈ log, P x.1 := by
  induction hw with
  | done seen => simp
  | skip _ _ ih => exact ih fun c hc => hs c (List.mem_cons_of_mem _ hc)
  | @visit a b seen next rest log _ hv _ ih =>
    have ha : P a := hs a List.mem_cons_self
    refine List.forall_mem_cons.mpr ⟨ha, ih fun c hc => ?_⟩
    rcases List.mem_append.mp hc with hc | hc
    · exact hvisit a b next ha hv c hc
    · exact hs c (List.mem_cons_of_mem a hc)

/-- Whatever is visited stood on the stack at first, or follows something that is visited. -/
theorem Walk.origin (hw : Walk key visit seen stack log) : ∀ x ∈ log,
    (∃ next, visit x.1 = .ok (x.2, next)) ∧
      (x.1 ∈ stack ∨ ∃ y ∈ log, ∃ next, visit y.1 = .ok (y.2, next) ∧ x.1 ∈ next) := by
  induction hw with
  | done seen => simp
  | skip _ _ ih => exact fun x hx => (ih x hx).imp_right (.imp_left (List.mem_cons_of_mem _))
  | @visit a b seen next rest log _ hv _ ih =>
    intro x hx
    rcases List.mem_cons.mp hx with rfl | hx
    · exact ⟨⟨next, hv⟩, .inl List.mem_cons_self⟩
    · refine (ih x hx).imp_right fun h => ?_
      rcases h with h | ⟨y, hy, h⟩
      · rcases List.mem_append.mp h with h | h
        · exact .inr ⟨_, List.mem_cons_self, next, hv, h⟩
        · exact .inl (List.mem_cons_of_mem a h)
      · exact .inr ⟨y, List.mem_cons_of_mem _ hy, h⟩

/-- What follows an item is in order, not before the item, and before all that the item is before. -/
structure Orderly (visit : α → Except ε (β × List α)) (P : α → Prop) (lt le : α → α → Prop) :
    Prop where
  refl : ∀ a, le a a
  le_of_lt : ∀ a b, lt a b → le a b
  follow : ∀ a b next, P a → visit a = .ok (b, next) → ∀ c ∈ next, P c ∧ le a c
  pairwise : ∀ a b next, P a → visit a = .ok (b, next) → next.Pairwise lt
  le_follow : ∀ a b next, P a → visit a = .ok (b, next) → ∀ c ∈ next, ∀ d, le d a → le d c
  follow_lt : ∀ a b next, P a → visit a = .ok (b, next) → ∀ c ∈ next, ∀ d, lt a d → lt c d

/-- The stack in order, behind what is done. Copies of items that are done may stand anywhere. -/
structure InOrder (key : α → κ) (P : α → Prop) (lt le : α → α → Prop) (seen : κ → Prop)
    (done : α → Prop) (stack : List α) : Prop where
  holds : ∀ a ∈ stack, P a
  seen_iff : ∀ k, seen k ↔ ∃ d, done d ∧ key d = k
  behind : ∀ d, done d → ∀ x ∈ stack, le d x ∨ done x
  pairwise : stack.Pairwise fun x y => lt x y ∨ y = x ∨ done y

section InOrder

variable {P : α → Prop} {lt le : α → α → Prop} {done : α → Prop} {a : α} {b : β} {next rest : List α}

theorem InOrder.drop (h : InOrder key P lt le seen done (a :: rest)) :
    InOrder key P lt le seen done rest where
  holds := fun c hc => h.holds c (List.mem_cons_of_mem a hc)
  seen_iff := h.seen_iff
  behind := fun d hd x hx => h.behind d hd x (List.mem_cons_of_mem a hx)
  pairwise := h.pairwise.of_cons

theorem InOrder.le_of_not_seen (h : InOrder key P lt le seen done (a :: rest)) (hm : ¬seen (key a))
    {d : α} (hd : done d) : le d a :=
  (h.behind d hd a List.mem_cons_self).resolve_right fun ha => hm ((h.seen_iff _).mpr ⟨a, ha, rfl⟩)

/-- A visit replaces an item by what follows it. -/
theorem InOrder.replace (h : InOrder key P lt le seen done (a :: rest)) (ho : Orderly visit P lt le)
    (hm : ¬seen (key a)) (hv : visit a = .ok (b, next)) :
    InOrder key P lt le (fun k => seen k ∨ k = key a) (fun x => done x ∨ x = a) (next ++ rest) := by
  have ha : P a := h.holds a List.mem_cons_self
  obtain ⟨hhead, hrest⟩ := List.pairwise_cons.mp h.pairwise
  refine ⟨fun c hc => ?_, fun k => ?_, fun d hd x hx => ?_, ?_⟩
  · rcases List.mem_append.mp hc with hc | hc
    · exact (ho.follow a b next ha hv c hc).1
    · exact h.holds c (List.mem_cons_of_mem a hc)
  · rw [h.seen_iff]
    constructor
    · rintro (⟨d, hd, rfl⟩ | rfl)
      · exact ⟨d, .inl hd, rfl⟩
      · exact ⟨a, .inr rfl, rfl⟩
    · rintro ⟨d, hd | rfl, rfl⟩
      · exact .inl ⟨d, hd, rfl⟩
      · exact .inr rfl
  · rcases List.mem_append.mp hx with hx | hx
    · rcases hd with hd | rfl
      · exact .inl (ho.le_follow a b next ha hv x hx d (h.le_of_not_seen hm hd))
      · exact .inl (ho.follow d b next ha hv x hx).2
    · rcases hd with hd | rfl
      · exact (h.behind d hd x (List.mem_cons_of_mem a hx)).imp_right .inl
      · rcases hhead x hx with hlt | rfl | hx
        · exact .inl (ho.le_of_lt d x hlt)
        · exact .inr (.inr rfl)
        · exact .inr (.inl hx)
  · refine List.pairwise_append.mpr ⟨(ho.pairwise a b next ha hv).imp .inl, ?_, fun c hc x hx => ?_⟩
    · exact hrest.imp (.imp_right (.imp_right .inl))
    · rcases hhead x hx with hlt | rfl | hx
      · exact .inl (ho.follow_lt a b next ha hv c hc x hlt)
      · exact .inr (.inr (.inr rfl))
      · exact .inr (.inr (.inl hx))

/-- Some item with the same key, not behind the item, is done or visited. -/
def Settled (key : α → κ) (le : α → α → Prop) (done : α → Prop) (log : List (α × β)) (x : α) : Prop :=
  ∃ y, (done y ∨ ∃ b, (y, b) ∈ log) ∧ key y = key x ∧ le y x

theorem Settled.of_visit {x : α} (h : Settled key le (fun x => done x ∨ x = a) log x) :
    Settled key le done ((a, b) :: log) x := by
  obtain ⟨y, (hy | rfl) | ⟨b', hy⟩, hkey, hle⟩ := h
  · exact ⟨y, .inl hy, hkey, hle⟩
  · exact ⟨y, .inr ⟨b, List.mem_cons_self⟩, hkey, hle⟩
  · exact ⟨y, .inr ⟨b', List.mem_cons_of_mem _ hy⟩, hkey, hle⟩

/-- A walk over items in order visits in order. -/
theorem Walk.pairwise_le (hw : Walk key visit seen stack log) (ho : Orderly visit P lt le)
    (h : InOrder key P lt le seen done stack) :
    (∀ d, done d → ∀ x ∈ log, le d x.1) ∧ log.Pairwise fun x y => le x.1 y.1 := by
  induction hw generalizing done with
  | done seen => simp
  | skip _ _ ih => exact ih h.drop
  | visit hm hv _ ih =>
    obtain ⟨hbefore, hlog⟩ := ih (h.replace ho hm hv)
    refine ⟨fun d hd => ?_, .cons (hbefore _ (.inr rfl)) hlog⟩
    exact List.forall_mem_cons.mpr ⟨h.le_of_not_seen hm hd, hbefore d (.inl hd)⟩

/-- It settles what stands on the stack, and whatever comes to it. -/
theorem Walk.settled (hw : Walk key visit seen stack log) (ho : Orderly visit P lt le)
    (h : InOrder key P lt le seen done stack) : (∀ x ∈ stack, Settled key le done log x) ∧
      ∀ x ∈ log, ∀ next, visit x.1 = .ok (x.2, next) → ∀ c ∈ next, Settled key le done log c := by
  induction hw generalizing done with
  | done seen => simp
  | @skip a seen rest log hm _ ih =>
    obtain ⟨hrest, hlater⟩ := ih h.drop
    refine ⟨List.forall_mem_cons.mpr ⟨?_, hrest⟩, hlater⟩
    obtain ⟨d, hd, hkey⟩ := (h.seen_iff _).mp hm
    rcases h.behind d hd a List.mem_cons_self with hle | ha
    · exact ⟨d, .inl hd, hkey, hle⟩
    · exact ⟨a, .inl ha, rfl, ho.refl a⟩
  | @visit a b seen next rest log hm hv _ ih =>
    obtain ⟨hstack, hlater⟩ := ih (h.replace ho hm hv)
    refine ⟨List.forall_mem_cons.mpr ⟨?_, fun x hx => ?_⟩, List.forall_mem_cons.mpr ⟨?_, ?_⟩⟩
    · exact ⟨a, .inr ⟨b, List.mem_cons_self⟩, rfl, ho.refl a⟩
    · exact (hstack x (List.mem_append_right next hx)).of_visit
    · intro next' hv' c hc
      rw [hv] at hv'
      cases hv'
      exact (hstack c (List.mem_append_left rest hc)).of_visit
    · exact fun x hx next' hv' c hc => (hlater x hx next' hv' c hc).of_visit

end InOrder

end PatternAutomata
