import PatternAutomata.Automaton.Traversal

/-!
# What a traversal visits

A run of `explore` is described by its log: the visited items in their order, each with the result of
its visit. The log and the marks at the end determine each other, every item of the stack has its slot
marked at the end, and whatever follows a visited item has its slot marked too. The marks therefore
end closed under visits, on cyclic graphs as well. Two traversals with different slots are compared
as walks, which know the keys of the items and no table.
-/

namespace PatternAutomata

variable {α β ε : Type} {n : Nat}

theorem get_noMarks (i : Fin n) : (noMarks n).get i = false := by
  change (noMarks n)[i.val] = false
  simp [noMarks]

/-- Marking a slot leaves the other slots as they are. -/
theorem get_set_iff (marks : Vector Bool n) (i j : Fin n) :
    (marks.set i true i.isLt).get j = true ↔ marks.get j = true ∨ i = j := by
  change (marks.set i true i.isLt)[j.val] = true ↔ marks[j.val] = true ∨ i = j
  by_cases hij : i.val = j.val
  · simp [Fin.ext hij]
  · rw [Vector.getElem_set_ne i.isLt j.isLt hij]
    simp [Fin.ext_iff, hij]

/-- A finished traversal, with the log of its visits and the marks it ends with. -/
inductive Traversal (slot : α → Except ε (Fin n)) (visit : α → Except ε (β × List α)) :
    Vector Bool n → List α → List (α × β) → Vector Bool n → Prop
  | done (marks : Vector Bool n) : Traversal slot visit marks [] [] marks
  | skip {a : α} {i : Fin n} {marks final : Vector Bool n} {rest : List α} {log : List (α × β)}
      (hs : slot a = .ok i) (hm : marks.get i = true)
      (ht : Traversal slot visit marks rest log final) :
      Traversal slot visit marks (a :: rest) log final
  | visit {a : α} {b : β} {i : Fin n} {marks final : Vector Bool n} {next rest : List α}
      {log : List (α × β)} (hs : slot a = .ok i) (hm : marks.get i = false)
      (hv : visit a = .ok (b, next))
      (ht : Traversal slot visit (marks.set i true i.isLt) (next ++ rest) log final) :
      Traversal slot visit marks (a :: rest) ((a, b) :: log) final

variable {slot : α → Except ε (Fin n)} {visit : α → Except ε (β × List α)}
  {marks final : Vector Bool n} {stack : List α} {log : List (α × β)}

theorem Traversal.explore_eq (ht : Traversal slot visit marks stack log final) :
    explore slot visit marks stack = .ok (log.map Prod.snd, final) := by
  induction ht with
  | done marks => rw [explore]; rfl
  | @skip a i marks final rest log hs hm ht ih =>
    have htaken : marks[i] = true := hm
    rw [explore]
    simp only [hs, htaken, ↓reduceDIte]
    exact ih
  | @visit a b i marks final next rest log hs hm hv ht ih =>
    have hfree : marks[i] = false := hm
    rw [explore]
    simp only [hs, hfree, Bool.false_eq_true, ↓reduceDIte, hv, ih]
    rfl

/-- Whatever is explored without an error is a finished traversal. -/
theorem Traversal.of_explore_eq {results : List β}
    (h : explore slot visit marks stack = .ok (results, final)) :
    ∃ log, Traversal slot visit marks stack log final ∧ log.map Prod.snd = results := by
  induction marks, stack using explore.induct slot visit generalizing results with
  | case1 marks =>
    rw [explore] at h
    cases h
    exact ⟨[], .done _, rfl⟩
  | case2 marks a rest e he =>
    rw [explore] at h
    simp [he] at h
  | case3 marks a rest i hi hm ih =>
    rw [explore] at h
    simp only [hi, hm, ↓reduceDIte] at h
    obtain ⟨log, ht, hlog⟩ := ih h
    exact ⟨log, .skip hi hm ht, hlog⟩
  | case4 marks a rest i hi hm e he =>
    rw [explore] at h
    simp [hi, hm, he] at h
  | case5 marks a rest i hi hm b next hv e he ih =>
    rw [explore] at h
    simp [hi, hm, hv, he] at h
  | case6 marks a rest i hi hm b next hv results' marks' he ih =>
    rw [explore] at h
    simp only [hi, dif_neg hm, hv, he] at h
    cases h
    obtain ⟨log, ht, rfl⟩ := ih he
    exact ⟨(a, b) :: log, .visit hi (eq_false_of_ne_true hm) hv ht, rfl⟩

/-- A property that lets items be visited, and that visits hand on, lets the traversal finish. -/
theorem Traversal.exists (slot : α → Except ε (Fin n)) (visit : α → Except ε (β × List α))
    (P : α → Prop) (hslot : ∀ a, P a → ∃ i, slot a = .ok i)
    (hvisit : ∀ a, P a → ∃ b next, visit a = .ok (b, next) ∧ ∀ c ∈ next, P c)
    (hs : ∀ a ∈ stack, P a) (marks : Vector Bool n) :
    ∃ log final, Traversal slot visit marks stack log final := by
  induction marks, stack using explore.induct slot visit with
  | case1 marks => exact ⟨[], marks, .done marks⟩
  | case2 marks a rest e he =>
    obtain ⟨i, hi⟩ := hslot a (hs a List.mem_cons_self)
    rw [hi] at he
    cases he
  | case3 marks a rest i hi hm ih =>
    obtain ⟨log, final, ht⟩ := ih (fun c hc => hs c (List.mem_cons_of_mem a hc))
    exact ⟨log, final, .skip hi hm ht⟩
  | case4 marks a rest i hi hm e he =>
    obtain ⟨b, next, hv, -⟩ := hvisit a (hs a List.mem_cons_self)
    rw [hv] at he
    cases he
  | case5 marks a rest i hi hm b next hv _ _ ih | case6 marks a rest i hi hm b next hv _ _ _ ih =>
    obtain ⟨b', next', hv', hnext⟩ := hvisit a (hs a List.mem_cons_self)
    rw [hv] at hv'
    cases hv'
    have hstack : ∀ c ∈ next ++ rest, P c := by
      intro c hc
      rcases List.mem_append.mp hc with hc | hc
      · exact hnext c hc
      · exact hs c (List.mem_cons_of_mem a hc)
    obtain ⟨log, final, ht⟩ := ih hstack
    exact ⟨(a, b) :: log, final, .visit hi (eq_false_of_ne_true hm) hv ht⟩

/-- What stands at the bottom of the stack waits until everything above it is gone through. -/
theorem Traversal.append {below : List α} {log' : List (α × β)} {final' : Vector Bool n}
    (ht : Traversal slot visit marks stack log final)
    (ht' : Traversal slot visit final below log' final') :
    Traversal slot visit marks (stack ++ below) (log ++ log') final' := by
  induction ht with
  | done marks => exact ht'
  | skip hs hm _ ih => exact .skip hs hm (ih ht')
  | visit hs hm hv _ ih => exact .visit hs hm hv (List.append_assoc .. ▸ ih ht')

/-- What stands at the bottom of the stack is explored after everything above it, with the marks that
this has left. -/
theorem explore_append (slot : α → Except ε (Fin n)) (visit : α → Except ε (β × List α))
    (marks : Vector Bool n) (stack below : List α) :
    explore slot visit marks (stack ++ below) =
      match explore slot visit marks stack with
      | .error e => .error e
      | .ok (results, marks) =>
        (explore slot visit marks below).map fun (later, final) => (results ++ later, final) := by
  induction marks, stack using explore.induct slot visit with
  | case1 marks =>
    rw [explore.eq_def slot visit marks []]
    simp only [List.nil_append]
    cases explore slot visit marks below <;> rfl
  | case2 marks a rest e he =>
    rw [List.cons_append, explore, explore.eq_def slot visit marks (a :: rest)]
    simp only [he]
  | case3 marks a rest i hi hm ih =>
    rw [List.cons_append, explore, explore.eq_def slot visit marks (a :: rest)]
    simp only [hi, dif_pos hm]
    exact ih
  | case4 marks a rest i hi hm e he =>
    rw [List.cons_append, explore, explore.eq_def slot visit marks (a :: rest)]
    simp only [hi, dif_neg hm, he]
  | case5 marks a rest i hi hm b next hv e he ih =>
    rw [List.cons_append, explore, explore.eq_def slot visit marks (a :: rest)]
    rw [he, List.append_assoc] at ih
    simp only [hi, dif_neg hm, hv, he, ih]
  | case6 marks a rest i hi hm b next hv results' marks' he ih =>
    rw [List.cons_append, explore, explore.eq_def slot visit marks (a :: rest)]
    rw [he, List.append_assoc] at ih
    simp only [hi, dif_neg hm, hv, he, ih]
    cases explore slot visit marks' below <;> rfl

/-- What holds of the stack and is handed on by visits holds of everything visited. -/
theorem Traversal.forall_log (ht : Traversal slot visit marks stack log final) (P : α → Prop)
    (hvisit : ∀ a b next, P a → visit a = .ok (b, next) → ∀ c ∈ next, P c)
    (hs : ∀ a ∈ stack, P a) : ∀ x ∈ log, P x.1 := by
  induction ht with
  | done marks => simp
  | skip _ _ _ ih => exact ih (fun c hc => hs c (List.mem_cons_of_mem _ hc))
  | @visit a b i marks final next rest log _ _ hv _ ih =>
    have ha : P a := hs a List.mem_cons_self
    intro x hx
    rcases List.mem_cons.mp hx with rfl | hx
    · exact ha
    · refine ih (fun c hc => ?_) x hx
      rcases List.mem_append.mp hc with hc | hc
      · exact hvisit a b next ha hv c hc
      · exact hs c (List.mem_cons_of_mem a hc)

/-- The slots marked at the end are those marked before and those of the visited items. -/
theorem Traversal.marked_iff (ht : Traversal slot visit marks stack log final) (j : Fin n) :
    final.get j = true ↔ marks.get j = true ∨ ∃ x ∈ log, slot x.1 = .ok j := by
  induction ht with
  | done marks => simp
  | skip _ _ _ ih => exact ih
  | visit hs _ _ _ ih =>
    rw [ih, get_set_iff, or_assoc]
    simp [hs]

theorem Traversal.stack_marked (ht : Traversal slot visit marks stack log final) :
    ∀ a ∈ stack, ∃ i, slot a = .ok i ∧ final.get i = true := by
  induction ht with
  | done marks => simp
  | @skip a i marks final rest log hs hm ht ih =>
    intro c hc
    rcases List.mem_cons.mp hc with rfl | hc
    · exact ⟨i, hs, (ht.marked_iff i).mpr (.inl hm)⟩
    · exact ih c hc
  | @visit a b i marks final next rest log hs _ _ ht ih =>
    intro c hc
    rcases List.mem_cons.mp hc with rfl | hc
    · exact ⟨i, hs, (ht.marked_iff i).mpr (.inl ((get_set_iff marks i i).mpr (.inr rfl)))⟩
    · exact ih c (List.mem_append_right next hc)

/-- Whatever follows a visited item ends with its slot marked. -/
theorem Traversal.next_marked (ht : Traversal slot visit marks stack log final) :
    ∀ x ∈ log, ∃ next, visit x.1 = .ok (x.2, next) ∧
      ∀ c ∈ next, ∃ j, slot c = .ok j ∧ final.get j = true := by
  induction ht with
  | done marks => simp
  | skip _ _ _ ih => exact ih
  | @visit a b i marks final next rest log _ _ hv ht ih =>
    intro x hx
    rcases List.mem_cons.mp hx with rfl | hx
    · exact ⟨next, hv, fun c hc => ht.stack_marked c (List.mem_append_left rest hc)⟩
    · exact ih x hx

/-- Only free slots are visited. -/
theorem Traversal.slot_free (ht : Traversal slot visit marks stack log final) :
    ∀ x ∈ log, ∃ i, slot x.1 = .ok i ∧ marks.get i = false := by
  induction ht with
  | done marks => simp
  | skip _ _ _ ih => exact ih
  | @visit a b i marks final next rest log hs hm _ _ ih =>
    intro x hx
    rcases List.mem_cons.mp hx with rfl | hx
    · exact ⟨i, hs, hm⟩
    · obtain ⟨j, hj, hfree⟩ := ih x hx
      refine ⟨j, hj, eq_false_of_ne_true fun htaken => ?_⟩
      rw [(get_set_iff marks i j).mpr (.inl htaken)] at hfree
      cases hfree

/-- No slot is visited twice. -/
theorem Traversal.pairwise_slot_ne (ht : Traversal slot visit marks stack log final) :
    log.Pairwise (fun x y => slot x.1 ≠ slot y.1) := by
  induction ht with
  | done marks => exact .nil
  | skip _ _ _ ih => exact ih
  | @visit a b i marks final next rest log hs _ _ ht ih =>
    refine .cons (fun y hy heq => ?_) ih
    obtain ⟨j, hj, hfree⟩ := ht.slot_free y hy
    have hij : i = j := Except.ok.inj (hs.symm.trans (heq.trans hj))
    rw [(get_set_iff marks i j).mpr (.inr hij)] at hfree
    cases hfree

/-- Every visit takes one free slot. -/
theorem Traversal.count_free (ht : Traversal slot visit marks stack log final) :
    log.length + final.count false = marks.count false := by
  induction ht with
  | done marks => exact Nat.zero_add _
  | skip _ _ _ ih => exact ih
  | @visit a b i marks final next rest log _ hm _ _ ih =>
    have hfree : marks[i.val] = false := hm
    have hpos : 0 < marks.count false := Vector.count_pos_iff.mpr (hfree ▸ Vector.getElem_mem i.isLt)
    have hcount : (marks.set i.val true i.isLt).count false = marks.count false - 1 := by
      rw [Vector.count_set i.isLt, hfree]
      rfl
    rw [List.length_cons]
    omega

/-- From an unmarked table, the marked slots are exactly those of the visited items. -/
theorem Traversal.mem_of_marked (ht : Traversal slot visit (noMarks n) stack log final) {j : Fin n}
    (hj : final.get j = true) : ∃ x ∈ log, slot x.1 = .ok j := by
  rcases (ht.marked_iff j).mp hj with h | h
  · rw [get_noMarks] at h
    cases h
  · exact h

/-- A traversal told by the keys of its items, with the keys that were seen before. -/
inductive Walk {κ : Type} (key : α → κ) (visit : α → Except ε (β × List α)) :
    (κ → Prop) → List α → List (α × β) → Prop
  | done (seen : κ → Prop) : Walk key visit seen [] []
  | skip {a : α} {seen : κ → Prop} {rest : List α} {log : List (α × β)} (hm : seen (key a))
      (hw : Walk key visit seen rest log) : Walk key visit seen (a :: rest) log
  | visit {a : α} {b : β} {seen : κ → Prop} {next rest : List α} {log : List (α × β)}
      (hm : ¬seen (key a)) (hv : visit a = .ok (b, next))
      (hw : Walk key visit (fun k => seen k ∨ k = key a) (next ++ rest) log) :
      Walk key visit seen (a :: rest) ((a, b) :: log)

/-- Where the slots tell exactly the keys of items, the keys describe the traversal. -/
theorem Traversal.walk {κ : Type} {key : α → κ} (ht : Traversal slot visit marks stack log final)
    (P : α → Prop) (hvisit : ∀ a b next, P a → visit a = .ok (b, next) → ∀ c ∈ next, P c)
    (hkey : ∀ a b, P a → P b → (slot a = slot b ↔ key a = key b)) (hs : ∀ a ∈ stack, P a)
    {seen : κ → Prop} (hseen : ∀ a i, P a → slot a = .ok i → (marks.get i = true ↔ seen (key a))) :
    Walk key visit seen stack log := by
  induction ht generalizing seen with
  | done marks => exact .done seen
  | @skip a i marks final rest log hi hm _ ih =>
    have ha : P a := hs a List.mem_cons_self
    exact .skip ((hseen a i ha hi).mp hm) (ih (fun c hc => hs c (List.mem_cons_of_mem a hc)) hseen)
  | @visit a b i marks final next rest log hi hm hv _ ih =>
    have ha : P a := hs a List.mem_cons_self
    refine .visit (fun h => ?_) hv (ih (fun c hc => ?_) fun c j hc hj => ?_)
    · rw [(hseen a i ha hi).mpr h] at hm
      cases hm
    · rcases List.mem_append.mp hc with hc | hc
      · exact hvisit a b next ha hv c hc
      · exact hs c (List.mem_cons_of_mem a hc)
    · rw [get_set_iff, hseen c j hc hj, ← hkey c a hc ha, hj, hi, Except.ok.injEq]
      exact or_congr_right eq_comm

theorem Traversal.walk_of_noMarks {κ : Type} {key : α → κ}
    (ht : Traversal slot visit (noMarks n) stack log final)
    (P : α → Prop) (hvisit : ∀ a b next, P a → visit a = .ok (b, next) → ∀ c ∈ next, P c)
    (hkey : ∀ a b, P a → P b → (slot a = slot b ↔ key a = key b)) (hs : ∀ a ∈ stack, P a) :
    Walk key visit (fun _ => False) stack log := by
  refine ht.walk P hvisit hkey hs fun a i _ _ => ?_
  rw [get_noMarks]
  simp

end PatternAutomata
