import Mathlib.Data.List.SplitBy
import Mathlib.Order.Lattice

/-!
# Sorting by a key

A list that is sorted by a key ascends in it, so members with the same key stand together. A run of them
holds all that have its key, and the key grows from one run to the next.
-/

namespace PatternAutomata

variable {α κ : Type} {key : α → κ} {le same : α → α → Bool} {l run : List α} {runs : List (List α)}
  {a b : α}

/-- All members of a run have the same key. -/
theorem key_eq_of_mem_run (hsame : ∀ a b, same a b = true ↔ key a = key b)
    (hrun : run ∈ l.splitBy same) (ha : a ∈ run) (hb : b ∈ run) : key a = key b := by
  have hchain : (run.map key).IsChain Eq :=
    (List.isChain_map key).mpr ((List.isChain_of_mem_splitBy hrun).imp fun a b => (hsame a b).mp)
  exact hchain.pairwise.forall_of_forall (fun _ _ => rfl) (List.mem_map_of_mem ha)
    (List.mem_map_of_mem hb)

variable [LinearOrder κ]

theorem pairwise_mergeSort_of_iff (key : α → κ) (hle : ∀ a b, le a b = true ↔ key a ≤ key b) (l : List α) :
    (l.mergeSort le).Pairwise fun a b => key a ≤ key b := by
  have htrans : ∀ a b c, le a b = true → le b c = true → le a c = true := by
    simp only [hle]
    exact fun a b c => le_trans
  have htotal : ∀ a b, (le a b || le b a) = true := by
    simp only [Bool.or_eq_true, hle]
    exact fun a b => le_total _ _
  exact (List.pairwise_mergeSort htrans htotal l).imp (hle _ _).mp

/-- Runs ascend strictly if they ascend, keep to one key each and differ in it from the next one. -/
theorem pairwise_lt_of_isChain
    (hkey : ∀ run ∈ runs, ∀ a ∈ run, ∀ b ∈ run, key a = key b)
    (hle : runs.Pairwise fun run other => ∀ a ∈ run, ∀ b ∈ other, key a ≤ key b)
    (hchain : runs.IsChain fun run other => ∃ a ∈ run, ∃ b ∈ other, key a ≠ key b) :
    runs.Pairwise fun run other => ∀ a ∈ run, ∀ b ∈ other, key a < key b := by
  induction runs with
  | nil => exact .nil
  | cons run runs ih =>
    cases runs with
    | nil => exact List.pairwise_singleton _ _
    | cons next runs =>
      obtain ⟨⟨a', ha', b', hb', hdiff⟩, hchain⟩ := List.isChain_cons_cons.mp hchain
      obtain ⟨hfirst, hle⟩ := List.pairwise_cons.mp hle
      have hrest := ih (fun r hr => hkey r (.tail _ hr)) hle hchain
      have hnext : ∀ a ∈ run, ∀ b ∈ next, key a < key b := by
        intro a ha b hb
        refine lt_of_le_of_ne (hfirst next List.mem_cons_self a ha b hb) ?_
        rwa [hkey run List.mem_cons_self a ha a' ha',
          hkey next (.tail _ List.mem_cons_self) b hb b' hb']
      refine List.pairwise_cons.mpr ⟨?_, hrest⟩
      intro other hother a ha b hb
      rcases List.mem_cons.mp hother with rfl | hother
      · exact hnext a ha b hb
      -- a later run is behind the next one, of which `b'` is a member
      · exact (hnext a ha b' hb').trans ((List.pairwise_cons.mp hrest).1 other hother b' hb' b hb)

/-- From one run of a sorted list to the next the key grows. -/
theorem pairwise_splitBy (hsame : ∀ a b, same a b = true ↔ key a = key b)
    (hl : l.Pairwise fun a b => key a ≤ key b) :
    (l.splitBy same).Pairwise fun run other => ∀ a ∈ run, ∀ b ∈ other, key a < key b := by
  refine pairwise_lt_of_isChain (fun run hrun a ha b hb => key_eq_of_mem_run hsame hrun ha hb) ?_ ?_
  · rw [← List.flatten_splitBy same l, List.pairwise_flatten] at hl
    exact hl.2
  · refine (List.isChain_getLast_head_splitBy same l).imp fun run other => ?_
    rintro ⟨hrun, hother, hdiff⟩
    refine ⟨_, List.getLast_mem hrun, _, List.head_mem hother, fun heq => ?_⟩
    rw [(hsame _ _).mpr heq] at hdiff
    contradiction

/-- A run holds every member of a sorted list that has the key of its members. -/
theorem mem_run_iff (hsame : ∀ a b, same a b = true ↔ key a = key b)
    (hl : l.Pairwise fun a b => key a ≤ key b) (hrun : run ∈ l.splitBy same) (ha : a ∈ run) :
    b ∈ run ↔ b ∈ l ∧ key a = key b := by
  rw [← List.flatten_splitBy same l]
  constructor
  · intro hb
    exact ⟨List.mem_flatten_of_mem hrun hb, key_eq_of_mem_run hsame hrun ha hb⟩
  · rintro ⟨hb, heq⟩
    obtain ⟨other, hother, hb⟩ := List.mem_flatten.mp hb
    by_contra hnot
    have hne : run ≠ other := by
      rintro rfl
      exact hnot hb
    -- two runs do not share a key, in whatever order they come
    have hdiff : (l.splitBy same).Pairwise fun run other => ∀ a ∈ run, ∀ b ∈ other, key a ≠ key b :=
      (pairwise_splitBy hsame hl).imp fun h a ha b hb => (h a ha b hb).ne
    have : Std.Symm fun run other : List α => ∀ a ∈ run, ∀ b ∈ other, key a ≠ key b :=
      ⟨fun run other h a ha b hb => (h b hb a ha).symm⟩
    exact hdiff.forall hrun hother hne a ha b hb heq

end PatternAutomata
