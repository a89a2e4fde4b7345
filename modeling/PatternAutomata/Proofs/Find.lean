import PatternAutomata.Proofs.Agreement

/-!
# Finding the leftmost longest match

The match that is found is chosen from the best ones only. None of the matches with the earliest start
of all is missing there, so the choice is the same as from all matches.
-/

namespace PatternAutomata

open Leftmost

namespace Match

variable {m : Match} {ms : List Match}

/-- A candidate replaces the choice so far if it precedes it. -/
def choose (best : Option Match) (m : Match) : Option Match :=
  match best with
  | none => some m
  | some b => if m.precedes b then some m else some b

theorem leftmostLongest_eq (ms : List Match) : leftmostLongest ms = ms.foldl choose none := rfl

theorem precedes_iff {a b : Match} :
    a.precedes b = true ↔ a.start < b.start ∨ a.start = b.start ∧ b.stop < a.stop := by
  simp [precedes]

/-- Nothing precedes the last choice, neither the first one nor a candidate. -/
theorem exists_foldl_choose (b : Match) (ms : List Match) :
    ∃ x, ms.foldl choose (some b) = some x ∧ (x = b ∨ x ∈ ms) ∧ ¬b.precedes x = true ∧
      ∀ y ∈ ms, ¬y.precedes x = true := by
  induction ms generalizing b with
  | nil => exact ⟨b, rfl, .inl rfl, by simp [precedes], by simp⟩
  | cons m ms ih =>
    by_cases hm : m.precedes b = true
    · obtain ⟨x, hx, hmem, hmx, hall⟩ := ih m
      refine ⟨x, by simpa [choose, hm] using hx, .inr ?_, ?_, ?_⟩
      · rcases hmem with rfl | hmem
        · exact List.mem_cons_self
        · exact List.mem_cons_of_mem m hmem
      · rw [precedes_iff] at hm hmx ⊢
        omega
      · intro y hy
        rcases List.mem_cons.mp hy with rfl | hy
        · exact hmx
        · exact hall y hy
    · obtain ⟨x, hx, hmem, hbx, hall⟩ := ih b
      refine ⟨x, by simpa [choose, hm] using hx, hmem.imp_right (List.mem_cons_of_mem m), hbx, ?_⟩
      intro y hy
      rcases List.mem_cons.mp hy with rfl | hy
      · rw [precedes_iff] at hm hbx ⊢
        omega
      · exact hall y hy

/-- From any matches one is chosen that no other precedes. -/
theorem exists_leftmostLongest (hne : ms ≠ []) :
    ∃ m, leftmostLongest ms = some m ∧ m ∈ ms ∧
      ∀ x ∈ ms, m.start ≤ x.start ∧ (x.start = m.start → x.stop ≤ m.stop) := by
  cases ms with
  | nil => exact (hne rfl).elim
  | cons b ms =>
    obtain ⟨m, hm, hmem, hb, hall⟩ := exists_foldl_choose b ms
    rw [leftmostLongest_eq]
    refine ⟨m, hm, List.mem_cons.mpr hmem, fun x hx => ?_⟩
    have hx : ¬x.precedes m = true := by
      rcases List.mem_cons.mp hx with rfl | hx
      · exact hb
      · exact hall x hx
    rw [precedes_iff] at hx
    omega

theorem leftmostLongest_eq_none_iff : leftmostLongest ms = none ↔ ms = [] := by
  constructor
  · intro h
    by_contra hne
    obtain ⟨m, hm, -⟩ := exists_leftmostLongest hne
    rw [hm] at h
    cases h
  · rintro rfl
    rfl

theorem isSome_leftmostLongest : (leftmostLongest ms).isSome = !ms.isEmpty := by
  rw [Bool.eq_iff_iff, Option.isSome_iff_ne_none, Ne, leftmostLongest_eq_none_iff]
  simp

end Match

/-- The match that is found is the longest of those that start first, with the captures it has in an
exhaustive search. A search for the best reports every match that starts first. -/
theorem Regex.find_leftmost_longest {pattern : String} {re : Regex}
    (h : Regex.compile pattern = .ok re) (subject : String) :
    ∃ all best found, re.search .exhaustive subject = .ok all ∧ re.search .bestOnly subject = .ok best ∧
      re.find? subject = .ok found ∧ re.isMatch subject = .ok found.isSome ∧
      (found = none ↔ all = []) ∧
      (∀ m, found = some m →
        m ∈ all ∧ ∀ x ∈ all, m.start ≤ x.start ∧ (x.start = m.start → x.stop ≤ m.stop)) ∧
      ∀ m ∈ all, (∀ x ∈ all, m.start ≤ x.start) → m ∈ best := by
  obtain ⟨groups, moments, hgroups, hall, -, hbest, hwinners⟩ := exists_searches h subject
  generalize hsteps : moments.map (·.observe re.nfa (subject.toList.length - 1)) = steps at hbest hwinners
  have hwinner : ∀ step ∈ steps, ∀ m, step.2 = some m → m ∈ firsts groups :=
    fun step hstep m hm => hwinners ▸ List.mem_filterMap.mpr ⟨step, hstep, hm⟩
  have hsub : ∀ m ∈ Leftmost.run {} steps, m ∈ groups.flatten := by
    intro m hm
    rcases run_subset hm with hm | ⟨step, hstep, hm⟩
    · cases hm
    · exact mem_of_mem_firsts (hwinner step hstep m hm)
  have hkeep : ∀ m ∈ groups.flatten, (∀ x ∈ groups.flatten, m.start ≤ x.start) →
      m ∈ Leftmost.run {} steps := by
    intro m hm hle
    have hfirst := hgroups.mem_firsts hm fun x hx _ => hle x hx
    rw [← hwinners] at hfirst
    obtain ⟨step, hstep, hmstep⟩ := List.mem_filterMap.mp hfirst
    have hinit : Leftmost.NoneBefore m.start {} :=
      ⟨fun r hr => (List.not_mem_nil hr).elim, fun x hx => (List.not_mem_nil hx).elim⟩
    refine hinit.mem_run (fun step hstep x hx => ?_) rfl (.inr ⟨step, hstep, hmstep⟩)
    exact hle x (mem_of_mem_firsts (hwinner step hstep x hx))
  have hnil : Leftmost.run {} steps = [] ↔ groups.flatten = [] := by
    constructor
    · intro hrun
      by_contra hne
      obtain ⟨m, -, hm, hle⟩ := Match.exists_leftmostLongest hne
      have hmem := hkeep m hm fun x hx => (hle x hx).1
      rw [hrun] at hmem
      cases hmem
    · intro hflat
      refine List.eq_nil_iff_forall_not_mem.mpr fun m hm => ?_
      have hmem := hsub m hm
      rw [hflat] at hmem
      cases hmem
  refine ⟨_, _, _, hall, hbest, by rw [Regex.find?, hbest]; rfl, ?_, ?_, fun m hm => ?_, hkeep⟩
  · rw [Regex.isMatch, hbest, Match.isSome_leftmostLongest]
    rfl
  · rw [Match.leftmostLongest_eq_none_iff, hnil]
  · have hne : Leftmost.run {} steps ≠ [] := by
      intro hrun
      rw [Match.leftmostLongest_eq_none_iff.mpr hrun] at hm
      cases hm
    -- The choice from all matches is among the best ones, so it does not precede the choice from them.
    obtain ⟨b, hb, hbmem, hble⟩ := Match.exists_leftmostLongest hne
    obtain ⟨a, -, hamem, hale⟩ := Match.exists_leftmostLongest (mt hnil.mpr hne)
    rw [hb] at hm
    obtain rfl := Option.some.inj hm
    have hab := hble a (hkeep a hamem fun x hx => (hale x hx).1)
    have hba := hale b (hsub b hbmem)
    refine ⟨hsub b hbmem, fun x hx => ?_⟩
    have hx := hale x hx
    omega

/-- The longer branch is found, though the shorter one is written first. -/
theorem find_longer_branch : ∃ re all best m, Regex.compile "a|ab" = .ok re ∧
    re.search .exhaustive "xab" = .ok all ∧ re.search .bestOnly "xab" = .ok best ∧
      re.find? "xab" = .ok (some m) ∧ m.start = 0 ∧ m.stop = 2 ∧
      ∀ x ∈ all, m.start ≤ x.start ∧ (x.start = m.start → x.stop ≤ m.stop) := by
  have hrun : (Regex.compile "a|ab").map (fun re => (re.find? "xab").map fun found =>
      found.map fun m => (m.start, m.stop)) = .ok (.ok (some (0, 2))) := by
    cbv
  obtain ⟨re, hre, hspan⟩ := exists_of_map_eq_ok hrun
  obtain ⟨all, best, found, hall, hbest, hfound, -, -, hleftmost, -⟩ :=
    Regex.find_leftmost_longest hre "xab"
  rw [hfound] at hspan
  obtain ⟨m, rfl, hm⟩ := Option.map_eq_some_iff.mp (Except.ok.inj hspan)
  obtain ⟨hstart, hstop⟩ := Prod.mk.inj hm
  exact ⟨re, all, best, m, hre, hall, hbest, hfound, hstart, hstop, (hleftmost m rfl).2⟩

end PatternAutomata
