import Mathlib.Data.List.Perm.Subperm
import PatternAutomata.Search.Leftmost

/-!
# What the rules for leftmost matches let through

The rules see one winner at each place at most. A winner is reported unless a later winner starts before
it, or an earlier start that was reported is still alive when it ends. So winners with the earliest
start of all are never lost. Whatever is reported is a winner. It is reported in the order of the
winners, unless a winner is reported at once while matches that start no later are still held.
-/

namespace PatternAutomata

namespace Leftmost

variable {live : List Int} {m : Match} {l : Leftmost} {best : Option Match} {s : Int}
  {steps : List (List Int × Option Match)}

/-- The held matches that a winner does not discard. -/
def kept (l : Leftmost) (m : Match) : List Match := l.held.filter (·.start ≤ m.start)

/-- The held matches that no live start comes before. -/
def ready (l : Leftmost) (live : List Int) : List Match :=
  l.held.filter fun m => live.all (m.start ≤ ·)

/-- The held matches that some live start comes before. -/
def waiting (l : Leftmost) (live : List Int) : List Match :=
  l.held.filter fun m => !live.all (m.start ≤ ·)

theorem mem_kept {h : Match} : h ∈ l.kept m ↔ h ∈ l.held ∧ h.start ≤ m.start := by
  simp [kept]

theorem mem_ready {h : Match} : h ∈ l.ready live ↔ h ∈ l.held ∧ ∀ s ∈ live, h.start ≤ s := by
  simp [ready]

theorem mem_waiting {h : Match} : h ∈ l.waiting live ↔ h ∈ l.held ∧ ¬∀ s ∈ live, h.start ≤ s := by
  simp [waiting]

/-- A winner is reported at once, dropped or held back, by the starts that are alive before it. -/
theorem consider_cases (live : List Int) (m : Match) (l : Leftmost) :
    (∀ s ∈ live, m.start ≤ s) ∧ l.consider live m = ([m], ⟨m.start :: l.reported, l.kept m⟩) ∨
      (∃ s ∈ live, s < m.start ∧ s ∈ l.reported) ∧
        l.consider live m = ([], ⟨l.reported, l.kept m⟩) ∨
      ((∃ s ∈ live, s < m.start) ∧ ∀ s ∈ live, s < m.start → s ∉ l.reported) ∧
        l.consider live m = ([], ⟨l.reported, l.kept m ++ [m]⟩) := by
  simp only [consider]
  split
  · rename_i hclear
    refine .inl ⟨fun s hs => ?_, rfl⟩
    rw [List.isEmpty_iff, List.filter_eq_nil_iff] at hclear
    simpa using hclear s hs
  · rename_i hblocked
    split
    · rename_i hreported
      obtain ⟨s, hs, hr⟩ := List.any_eq_true.mp hreported
      obtain ⟨hs, hlt⟩ := List.mem_filter.mp hs
      exact .inr (.inl ⟨⟨s, hs, of_decide_eq_true hlt, List.contains_iff_mem.mp hr⟩, rfl⟩)
    · rename_i hreported
      refine .inr (.inr ⟨⟨?_, fun s hs hlt hr => hreported ?_⟩, rfl⟩)
      · rw [List.isEmpty_iff] at hblocked
        obtain ⟨s, hs⟩ := List.exists_mem_of_ne_nil _ hblocked
        obtain ⟨hs, hlt⟩ := List.mem_filter.mp hs
        exact ⟨s, hs, of_decide_eq_true hlt⟩
      · exact List.any_eq_true.mpr ⟨s, List.mem_filter.mpr ⟨hs, decide_eq_true hlt⟩,
          List.contains_iff_mem.mpr hr⟩

theorem foldl_report (ms : List Match) (l : Leftmost) :
    ms.foldl report l = ⟨(ms.map (·.start)).reverse ++ l.reported, l.held⟩ := by
  induction ms generalizing l with
  | nil => rfl
  | cons m ms ih =>
    rw [List.foldl_cons, ih]
    simp [report]

theorem release_eq (live : List Int) (l : Leftmost) :
    l.release live = (l.ready live,
      ⟨((l.ready live).map (·.start)).reverse ++ l.reported, l.waiting live⟩) := by
  simp only [release, List.partition_eq_filter_filter, foldl_report]
  rfl

/-- The winner of a place is considered, if there is one. -/
def considered (l : Leftmost) (live : List Int) : Option Match → List Match × Leftmost
  | some m => l.consider live m
  | none => ([], l)

/-- At each place the winner is considered, and then held matches are released. -/
theorem step_eq (live : List Int) (best : Option Match) (l : Leftmost) :
    l.step live best = ((l.considered live best).1 ++ (l.considered live best).2.ready live,
      ⟨(((l.considered live best).2.ready live).map (·.start)).reverse ++
        (l.considered live best).2.reported, (l.considered live best).2.waiting live⟩) := by
  cases best with
  | none => simp only [step, considered, release_eq]
  | some m => simp only [step, considered, release_eq]

theorem run_cons : l.run ((live, best) :: steps) =
    (l.step live best).1 ++ (l.step live best).2.run steps := rfl

section Winners

/-- The winners of the places, in order. -/
def winners (steps : List (List Int × Option Match)) : List Match := steps.filterMap (·.2)

theorem winners_cons : winners ((live, best) :: steps) = best.toList ++ winners steps := by
  cases best <;> rfl

theorem winners_append (before rest : List (List Int × Option Match)) :
    winners (before ++ rest) = winners before ++ winners rest := List.filterMap_append

theorem mem_winners : m ∈ winners steps ↔ ∃ step ∈ steps, step.2 = some m := by
  simp only [winners, List.mem_filterMap]

/-- Every match that is reported or held comes from the winners. -/
theorem considered_subset (live : List Int) {h : Match}
    (hh : h ∈ (l.considered live best).1 ∨ h ∈ (l.considered live best).2.held) :
    h ∈ l.held ∨ best = some h := by
  cases best with
  | none =>
    rcases hh with hh | hh
    · cases hh
    · exact .inl hh
  | some m =>
    have hk : ∀ h ∈ l.kept m, h ∈ l.held := fun h hh => (mem_kept.mp hh).1
    simp only [considered] at hh
    rcases l.consider_cases live m with ⟨-, heq⟩ | ⟨-, heq⟩ | ⟨-, heq⟩
    · rw [heq] at hh
      rcases hh with hh | hh
      · exact .inr (by rw [List.mem_singleton.mp hh])
      · exact .inl (hk h hh)
    · rw [heq] at hh
      rcases hh with hh | hh
      · cases hh
      · exact .inl (hk h hh)
    · rw [heq] at hh
      rcases hh with hh | hh
      · cases hh
      · rcases List.mem_append.mp hh with hh | hh
        · exact .inl (hk h hh)
        · exact .inr (by rw [List.mem_singleton.mp hh])

theorem step_subset {h : Match} (hh : h ∈ (l.step live best).1 ∨ h ∈ (l.step live best).2.held) :
    h ∈ l.held ∨ best = some h := by
  rw [step_eq] at hh
  refine considered_subset live ?_
  rcases hh with hh | hh
  · rcases List.mem_append.mp hh with hh | hh
    · exact .inl hh
    · exact .inr (mem_ready.mp hh).1
  · exact .inr (mem_waiting.mp hh).1

/-- Only winners are reported, and matches that were held from the start. -/
theorem run_subset (hm : m ∈ l.run steps) : m ∈ l.held ∨ ∃ step ∈ steps, step.2 = some m := by
  induction steps generalizing l with
  | nil => exact .inl hm
  | cons step steps ih =>
    obtain ⟨live, best⟩ := step
    have hstep : m ∈ (l.step live best).1 ∨ m ∈ (l.step live best).2.held ∨
        ∃ step ∈ steps, step.2 = some m := by
      rcases List.mem_append.mp (run_cons ▸ hm) with hm | hm
      · exact .inl hm
      · exact .inr (ih hm)
    rcases hstep with hm | hm | ⟨step, hs, hm⟩
    · exact (step_subset (.inl hm)).imp_right fun h => ⟨_, List.mem_cons_self, h⟩
    · exact (step_subset (.inr hm)).imp_right fun h => ⟨_, List.mem_cons_self, h⟩
    · exact .inr ⟨step, List.mem_cons_of_mem _ hs, hm⟩

end Winners

section Fate

/-- What is known after some places. -/
def after (l : Leftmost) : List (List Int × Option Match) → Leftmost
  | [] => l
  | (live, best) :: steps => (l.step live best).2.after steps

/-- What is reported at some places, without what is still held behind them. -/
def output (l : Leftmost) : List (List Int × Option Match) → List Match
  | [] => []
  | (live, best) :: steps => (l.step live best).1 ++ (l.step live best).2.output steps

/-- A run goes on from what is known after its first places. -/
theorem run_append (l : Leftmost) (before rest : List (List Int × Option Match)) :
    l.run (before ++ rest) = l.output before ++ (l.after before).run rest := by
  induction before generalizing l with
  | nil => rfl
  | cons step before ih =>
    obtain ⟨live, best⟩ := step
    rw [List.cons_append, run_cons, ih, ← List.append_assoc]
    rfl

/-- What some places report, and hold behind them, comes from their winners. -/
theorem output_subset (hm : m ∈ l.output steps ∨ m ∈ (l.after steps).held) :
    m ∈ l.held ∨ ∃ step ∈ steps, step.2 = some m := by
  apply run_subset
  have hrun := run_append l steps []
  rw [List.append_nil] at hrun
  rw [hrun]
  exact List.mem_append.mpr hm

/-- A start is known as reported from the place on at which it is reported. -/
theorem mem_reported_step :
    s ∈ (l.step live best).2.reported ↔ s ∈ l.reported ∨ ∃ m ∈ (l.step live best).1, m.start = s := by
  cases best with
  | none => simp [step_eq, considered, or_comm]
  | some m =>
    rcases l.consider_cases live m with ⟨-, heq⟩ | ⟨-, heq⟩ | ⟨-, heq⟩
    · simp only [step_eq, considered, heq]
      grind
    · simp only [step_eq, considered, heq]
      grind
    · simp only [step_eq, considered, heq]
      grind

theorem mem_reported_after :
    s ∈ (l.after steps).reported ↔ s ∈ l.reported ∨ ∃ m ∈ l.output steps, m.start = s := by
  induction steps generalizing l with
  | nil => simp [after, output]
  | cons step steps ih =>
    simp only [after, output, ih, mem_reported_step, List.mem_append, or_and_right, exists_or, or_assoc]

/-- What is left of a place is either released there or held on. -/
theorem mem_step_of_considered
    (hm : m ∈ (l.considered live best).1 ∨ m ∈ (l.considered live best).2.held) :
    m ∈ (l.step live best).1 ∨ m ∈ (l.step live best).2.held := by
  rw [step_eq]
  rcases hm with hm | hm
  · exact .inl (List.mem_append_left _ hm)
  · by_cases hready : ∀ s ∈ live, m.start ≤ s
    · exact .inl (List.mem_append_right _ (mem_ready.mpr ⟨hm, hready⟩))
    · exact .inr (mem_waiting.mpr ⟨hm, hready⟩)

/-- Only a winner with an earlier start discards a held match. -/
theorem mem_considered_of_held (hm : m ∈ l.held) (hle : ∀ b, best = some b → m.start ≤ b.start) :
    m ∈ (l.considered live best).2.held := by
  cases best with
  | none => exact hm
  | some b =>
    have hkept : m ∈ l.kept b := mem_kept.mpr ⟨hm, hle b rfl⟩
    rcases l.consider_cases live b with ⟨-, heq⟩ | ⟨-, heq⟩ | ⟨-, heq⟩
    · simp [considered, heq, hkept]
    · simp [considered, heq, hkept]
    · simp [considered, heq, hkept]

/-- Only an earlier start that is alive and was reported drops a winner. -/
theorem mem_considered_of_winner (hlive : ∀ s ∈ live, s < m.start → s ∉ l.reported) :
    m ∈ (l.considered live (some m)).1 ∨ m ∈ (l.considered live (some m)).2.held := by
  rcases l.consider_cases live m with ⟨-, heq⟩ | ⟨⟨s, hs, hlt, hr⟩, -⟩ | ⟨-, heq⟩
  · simp [considered, heq]
  · exact (hlive s hs hlt hr).elim
  · simp [considered, heq]

/-- A held match is reported in the end, if no winner with an earlier start follows. -/
theorem mem_run_of_held (hm : m ∈ l.held) (hle : ∀ b ∈ winners steps, m.start ≤ b.start) :
    m ∈ l.run steps := by
  induction steps generalizing l with
  | nil => exact hm
  | cons step steps ih =>
    obtain ⟨live, best⟩ := step
    rw [winners_cons] at hle
    have hnow : ∀ b, best = some b → m.start ≤ b.start := fun b hb => hle b (by simp [hb])
    rw [run_cons, List.mem_append]
    refine (mem_step_of_considered (.inr (mem_considered_of_held hm hnow))).imp_right fun hheld => ?_
    exact ih hheld fun b hb => hle b (by simp [hb])

/-- A winner is reported, or discarded by a later winner with an earlier start, or dropped because an
earlier start that was reported before is still alive. -/
theorem mem_run_or_lost (l : Leftmost) (before : List (List Int × Option Match)) (live : List Int)
    (m : Match) (rest : List (List Int × Option Match)) :
    m ∈ l.run (before ++ (live, some m) :: rest) ∨ (∃ b ∈ winners rest, b.start < m.start) ∨
      ∃ s ∈ live, s < m.start ∧ s ∈ (l.after before).reported := by
  by_cases hdrop : ∃ s ∈ live, s < m.start ∧ s ∈ (l.after before).reported
  · exact .inr (.inr hdrop)
  by_cases hlater : ∃ b ∈ winners rest, b.start < m.start
  · exact .inr (.inl hlater)
  left
  rw [run_append, run_cons, List.mem_append, List.mem_append]
  have hkeep : ∀ s ∈ live, s < m.start → s ∉ (l.after before).reported :=
    fun s hs hlt hr => hdrop ⟨s, hs, hlt, hr⟩
  refine .inr ((mem_step_of_considered (mem_considered_of_winner hkeep)).imp_right fun hheld => ?_)
  exact mem_run_of_held hheld fun b hb => Int.not_lt.mp fun hlt => hlater ⟨b, hb, hlt⟩

/-- Nothing is reported with the end of a winner that is dropped. -/
theorem stop_ne_of_dropped {before rest : List (List Int × Option Match)}
    (hasc : (l.held ++ winners (before ++ (live, some m) :: rest)).Pairwise fun a b => a.stop < b.stop)
    (hdrop : ∃ s ∈ live, s < m.start ∧ s ∈ (l.after before).reported) :
    ∀ x ∈ l.run (before ++ (live, some m) :: rest), x.stop ≠ m.stop := by
  obtain ⟨s, hs, hlt, hr⟩ := hdrop
  rw [winners_append, winners_cons, ← List.append_assoc, List.pairwise_append, Option.toList_some,
    List.singleton_append, List.pairwise_cons] at hasc
  obtain ⟨-, ⟨hrest, -⟩, hbefore⟩ := hasc
  have hearlier : ∀ x, x ∈ l.held ∨ (∃ step ∈ before, step.2 = some x) → x.stop ≠ m.stop := by
    intro x hx
    have hmem : x ∈ l.held ++ winners before := List.mem_append.mpr (hx.imp_right mem_winners.mpr)
    have := hbefore x hmem m List.mem_cons_self
    omega
  have hstep : ∀ x, x ∈ ((l.after before).step live (some m)).1 ∨
      x ∈ ((l.after before).step live (some m)).2.held → x ∈ (l.after before).held := by
    intro x hx
    rcases (l.after before).consider_cases live m with ⟨hclear, -⟩ | ⟨-, heq⟩ | ⟨⟨-, hnone⟩, -⟩
    · have := hclear s hs
      omega
    · simp only [step_eq, considered, heq, List.nil_append, mem_ready, mem_waiting, mem_kept] at hx
      tauto
    · exact (hnone s hs hlt hr).elim
  intro x hx
  rw [run_append, run_cons, List.mem_append, List.mem_append] at hx
  rcases hx with hx | hx | hx
  · exact hearlier x (output_subset (.inl hx))
  · exact hearlier x (output_subset (.inr (hstep x (.inl hx))))
  · rcases run_subset hx with hx | hx
    · exact hearlier x (output_subset (.inr (hstep x (.inr hx))))
    · have := hrest x (mem_winners.mpr hx)
      omega

end Fate

section Earliest

/-- No start before `s` has been reported or is held. -/
structure NoneBefore (s : Int) (l : Leftmost) : Prop where
  reported : ∀ r ∈ l.reported, s ≤ r
  held : ∀ m ∈ l.held, s ≤ m.start

/-- Winners with the earliest start of all are reported. -/
theorem NoneBefore.mem_run (hl : l.NoneBefore s)
    (hb : ∀ step ∈ steps, ∀ m, step.2 = some m → s ≤ m.start) (hs : m.start = s)
    (hm : m ∈ l.held ∨ ∃ step ∈ steps, step.2 = some m) : m ∈ l.run steps := by
  subst hs
  rcases hm with hm | ⟨⟨live, best⟩, hstep, hbest⟩
  · apply mem_run_of_held hm
    intro b hbw
    obtain ⟨step, hstep, hbs⟩ := mem_winners.mp hbw
    exact hb step hstep b hbs
  · obtain rfl : best = some m := hbest
    obtain ⟨before, rest, rfl⟩ := List.append_of_mem hstep
    rcases mem_run_or_lost l before live m rest with hrun | ⟨b, hbw, hlt⟩ | ⟨r, -, hlt, hr⟩
    · exact hrun
    · obtain ⟨step, hmem, hbs⟩ := mem_winners.mp hbw
      have hle := hb step (by simp [hmem]) b hbs
      omega
    · -- A start that drops the winner was known at first or is the start of an earlier winner.
      rcases mem_reported_after.mp hr with hr | ⟨x, hx, rfl⟩
      · have hle := hl.reported r hr
        omega
      · rcases output_subset (.inl hx) with hx | ⟨step, hmem, hxs⟩
        · have hle := hl.held x hx
          omega
        · have hle := hb step (by simp [hmem]) x hxs
          omega

end Earliest

section Order

/-- A winner is reported at once although a held match starts no later. -/
def Overtakes (live : List Int) (m : Match) (l : Leftmost) : Prop :=
  (∀ s ∈ live, m.start ≤ s) ∧ ∃ h ∈ l.held, h.start ≤ m.start

/-- At no place does the winner overtake a held match. -/
def Orderly (l : Leftmost) : List (List Int × Option Match) → Prop
  | [] => True
  | (live, best) :: rest =>
    (∀ m, best = some m → ¬Overtakes live m l) ∧ Orderly (l.step live best).2 rest

theorem kept_sublist : (l.kept m).Sublist l.held := List.filter_sublist

theorem waiting_sublist : (l.waiting live).Sublist l.held := List.filter_sublist

theorem considered_sublist :
    (l.considered live best).2.held.Sublist (l.held ++ best.toList) := by
  cases best with
  | none => simp [considered]
  | some m =>
    simp only [considered, Option.toList_some]
    rcases l.consider_cases live m with ⟨-, heq⟩ | ⟨-, heq⟩ | ⟨-, heq⟩
    · rw [heq]
      exact kept_sublist.trans (List.sublist_append_left _ _)
    · rw [heq]
      exact kept_sublist.trans (List.sublist_append_left _ _)
    · rw [heq]
      exact kept_sublist.append_right [m]

/-- The held matches come by start, as later winners discard those with a later start. -/
theorem pairwise_considered (hs : l.held.Pairwise fun a b => a.start ≤ b.start) :
    (l.considered live best).2.held.Pairwise fun a b => a.start ≤ b.start := by
  cases best with
  | none => exact hs
  | some m =>
    have hk := hs.sublist (kept_sublist (m := m))
    simp only [considered]
    rcases l.consider_cases live m with ⟨-, heq⟩ | ⟨-, heq⟩ | ⟨-, heq⟩
    · rw [heq]
      exact hk
    · rw [heq]
      exact hk
    · rw [heq]
      refine List.pairwise_append.mpr ⟨hk, List.pairwise_singleton _ _, fun a ha b hb => ?_⟩
      rw [List.mem_singleton.mp hb]
      exact (mem_kept.mp ha).2

/-- If a property passes on to what comes before, the items with it are in front. -/
theorem filter_append_filter_not {α : Type} {p : α → Bool} {xs : List α}
    (h : xs.Pairwise fun a b => p b = true → p a = true) :
    xs.filter p ++ xs.filter (fun a => !p a) = xs := by
  induction xs with
  | nil => rfl
  | cons a xs ih =>
    obtain ⟨ha, hxs⟩ := List.pairwise_cons.mp h
    by_cases hp : p a = true
    · simp only [List.filter_cons, hp, ↓reduceIte, Bool.not_true, Bool.false_eq_true, List.cons_append,
        ih hxs]
    · have hnone : xs.filter p = [] := List.filter_eq_nil_iff.mpr fun b hb hpb => hp (ha b hb hpb)
      have hall : xs.filter (fun a => !p a) = xs :=
        List.filter_eq_self.mpr fun b hb => by simpa using fun hpb => hp (ha b hb hpb)
      simp only [List.filter_cons, hp, hnone, hall]
      rfl

/-- Held matches are released from the front. -/
theorem ready_append_waiting (hs : l.held.Pairwise fun a b => a.start ≤ b.start) :
    l.ready live ++ l.waiting live = l.held := by
  refine filter_append_filter_not (hs.imp fun {a b} hab hb => List.all_eq_true.mpr fun s hs => ?_)
  have hbs := of_decide_eq_true (List.all_eq_true.mp hb s hs)
  exact decide_eq_true (Int.le_trans hab hbs)

theorem step_held_sublist : (l.step live best).2.held.Sublist (l.held ++ best.toList) := by
  rw [step_eq]
  exact waiting_sublist.trans considered_sublist

theorem pairwise_step (live : List Int) (hs : l.held.Pairwise fun a b => a.start ≤ b.start) :
    (l.step live best).2.held.Pairwise fun a b => a.start ≤ b.start := by
  rw [step_eq]
  exact (pairwise_considered hs).sublist waiting_sublist

/-- Without overtaking, a place reports in the order of the winners. -/
theorem step_sublist (hs : l.held.Pairwise fun a b => a.start ≤ b.start)
    (ho : ∀ m, best = some m → ¬Overtakes live m l) :
    ((l.step live best).1 ++ (l.step live best).2.held).Sublist (l.held ++ best.toList) := by
  rw [step_eq, List.append_assoc, ready_append_waiting (pairwise_considered hs)]
  cases best with
  | none => simp [considered]
  | some m =>
    simp only [considered, Option.toList_some]
    rcases l.consider_cases live m with ⟨hclear, heq⟩ | ⟨-, heq⟩ | ⟨-, heq⟩
    · have hnil : l.kept m = [] := by
        refine List.eq_nil_iff_forall_not_mem.mpr fun h hh => ho m rfl ⟨hclear, ?_⟩
        exact ⟨h, mem_kept.mp hh⟩
      rw [heq, hnil, List.append_nil]
      exact List.sublist_append_right l.held [m]
    · rw [heq, List.nil_append]
      exact kept_sublist.trans (List.sublist_append_left _ _)
    · rw [heq, List.nil_append]
      exact kept_sublist.append_right [m]

/-- A place reports and holds nothing twice. -/
theorem step_subperm :
    ((l.step live best).1 ++ (l.step live best).2.held).Subperm (l.held ++ best.toList) := by
  have hmid : ∀ mid : Leftmost, (mid.ready live ++ mid.waiting live).Perm mid.held :=
    fun mid => List.filter_append_perm _ mid.held
  rw [step_eq, List.append_assoc]
  refine ((hmid _).append_left _).subperm.trans ?_
  cases best with
  | none => simpa [considered] using List.Subperm.refl l.held
  | some m =>
    simp only [considered, Option.toList_some]
    rcases l.consider_cases live m with ⟨-, heq⟩ | ⟨-, heq⟩ | ⟨-, heq⟩
    · rw [heq]
      exact List.perm_append_comm.subperm.trans (kept_sublist.append_right [m]).subperm
    · rw [heq]
      exact (kept_sublist.trans (List.sublist_append_left _ _)).subperm
    · rw [heq]
      exact (kept_sublist.append_right [m]).subperm

/-- No winner is reported twice. -/
theorem run_subperm : (l.run steps).Subperm (l.held ++ winners steps) := by
  induction steps generalizing l with
  | nil => exact (List.sublist_append_left _ _).subperm
  | cons step steps ih =>
    obtain ⟨live, best⟩ := step
    rw [run_cons, winners_cons, ← List.append_assoc]
    refine ((List.subperm_append_left _).mpr ih).trans ?_
    rw [← List.append_assoc]
    exact (List.subperm_append_right _).mpr step_subperm

/-- Winners of different places end at different places, so no two reported matches end together. -/
theorem nodup_run (hasc : (l.held ++ winners steps).Pairwise fun a b => a.stop < b.stop) :
    ((l.run steps).map (·.stop)).Nodup := by
  have hsubperm : (l.run steps).Subperm (l.held ++ winners steps) := run_subperm
  obtain ⟨ms, hperm, hsub⟩ := hsubperm
  refine (hperm.map (·.stop)).nodup_iff.mp (List.pairwise_map.mpr ?_)
  exact (hasc.sublist hsub).imp fun h => by omega

/-- A winner that overtakes is reported before a held match. -/
theorem Overtakes.mem_step (h : Overtakes live m l) :
    ∃ released, (l.step live (some m)).1 = m :: released ∧ ∃ x ∈ released, x ∈ l.held := by
  obtain ⟨hclear, x, hx, hle⟩ := h
  rcases l.consider_cases live m with ⟨-, heq⟩ | ⟨⟨s, hs, hlt, -⟩, -⟩ | ⟨⟨⟨s, hs, hlt⟩, -⟩, -⟩
  · refine ⟨ready ⟨m.start :: l.reported, l.kept m⟩ live, ?_, x, ?_, hx⟩
    · rw [step_eq, considered, heq]
      rfl
    · exact mem_ready.mpr ⟨mem_kept.mpr ⟨hx, hle⟩, fun s hs => Int.le_trans hle (hclear s hs)⟩
  · have := hclear s hs
    omega
  · have := hclear s hs
    omega

/-- The ends of what is reported ascend exactly if no winner overtakes a held match. -/
theorem pairwise_run_iff (hasc : (l.held ++ winners steps).Pairwise fun a b => a.stop < b.stop)
    (hs : l.held.Pairwise fun a b => a.start ≤ b.start) :
    ((l.run steps).Pairwise fun a b => a.stop < b.stop) ↔ l.Orderly steps := by
  induction steps generalizing l with
  | nil => exact ⟨fun _ => trivial, fun _ => (List.pairwise_append.mp hasc).1⟩
  | cons step steps ih =>
    obtain ⟨live, best⟩ := step
    rw [winners_cons, ← List.append_assoc] at hasc
    have hnext := ih (hasc.sublist (step_held_sublist.append_right _)) (pairwise_step live hs)
    rw [run_cons, List.pairwise_append, Orderly, hnext]
    constructor
    · rintro ⟨hout, hrest, -⟩
      refine ⟨fun m hm ho => ?_, hrest⟩
      subst hm
      obtain ⟨released, hrel, x, hx, hheld⟩ := ho.mem_step
      rw [hrel] at hout
      have hlt := (List.pairwise_cons.mp hout).1 x hx
      have hgt := (List.pairwise_append.mp (List.pairwise_append.mp hasc).1).2.2 x hheld m
        (List.mem_singleton_self m)
      omega
    · rintro ⟨ho, hrest⟩
      have hsub := (step_sublist hs ho).append_right (winners steps)
      have hall := hasc.sublist hsub
      rw [List.append_assoc] at hall
      obtain ⟨hout, -, hcross⟩ := List.pairwise_append.mp hall
      refine ⟨hout, hrest, fun a ha b hb => hcross a ha b ?_⟩
      rcases run_subset hb with hb | ⟨step, hstep, hb⟩
      · exact List.mem_append_left _ hb
      · exact List.mem_append_right _ (List.mem_filterMap.mpr ⟨step, hstep, hb⟩)

end Order

end Leftmost

end PatternAutomata
