/-!
# Thinning out lists

A list is thinned out when some of its items are dropped, each after another item with the same key or
with a key that was seen before. What the items lead to is thinned out with them, and sorting keeps
sublists.
-/

namespace PatternAutomata

section Thinned

variable {α β κ : Type} {key : α → κ} {seen seen' : κ → Prop} {xs ys : List α}

/-- The second list is the first one without some items whose keys were seen before. -/
inductive Thinned (key : α → κ) : (κ → Prop) → List α → List α → Prop
  | nil (seen : κ → Prop) : Thinned key seen [] []
  | keep {a : α} {seen : κ → Prop} {xs ys : List α}
      (h : Thinned key (fun k => seen k ∨ k = key a) xs ys) : Thinned key seen (a :: xs) (a :: ys)
  | drop {a : α} {seen : κ → Prop} {xs ys : List α} (hs : seen (key a))
      (h : Thinned key seen xs ys) : Thinned key seen (a :: xs) ys

theorem Thinned.mono (h : Thinned key seen xs ys) (hs : ∀ k, seen k → seen' k) :
    Thinned key seen' xs ys := by
  induction h generalizing seen' with
  | nil => exact .nil seen'
  | keep _ ih => exact .keep (ih fun k hk => hk.imp_left (hs k))
  | drop hk _ ih => exact .drop (hs _ hk) (ih hs)

theorem Thinned.sublist (h : Thinned key seen xs ys) : ys.Sublist xs := by
  induction h with
  | nil => exact .slnil
  | keep _ ih => exact .cons_cons _ ih
  | drop _ _ ih => exact .cons _ ih

theorem Thinned.append_drop {zs : List α} (hz : ∀ a ∈ zs, seen (key a)) (h : Thinned key seen xs ys) :
    Thinned key seen (zs ++ xs) ys := by
  induction zs with
  | nil => exact h
  | cons a zs ih =>
    exact .drop (hz a List.mem_cons_self) (ih fun b hb => hz b (List.mem_cons_of_mem a hb))

theorem Thinned.append_keep {zs : List α}
    (h : Thinned key (fun k => seen k ∨ ∃ a ∈ zs, k = key a) xs ys) :
    Thinned key seen (zs ++ xs) (zs ++ ys) := by
  induction zs generalizing seen with
  | nil => exact h.mono (by simp)
  | cons a zs ih =>
    refine .keep (ih (h.mono fun k hk => ?_))
    rcases hk with hk | ⟨b, hb, rfl⟩
    · exact .inl (.inl hk)
    · rcases List.mem_cons.mp hb with rfl | hb
      · exact .inl (.inr rfl)
      · exact .inr ⟨b, hb, rfl⟩

/-- Where items with the same key come in an order, a kept item goes before each dropped one. -/
theorem Thinned.covered {R : α → α → Prop} (h : Thinned key seen xs ys) (hrefl : ∀ a, R a a)
    (hR : xs.Pairwise fun a b => key a = key b → R a b) :
    ∀ a ∈ xs, seen (key a) ∨ ∃ b ∈ ys, key b = key a ∧ R b a := by
  induction h with
  | nil => simp
  | @keep a seen xs ys _ ih =>
    obtain ⟨ha, hR⟩ := List.pairwise_cons.mp hR
    intro b hb
    rcases List.mem_cons.mp hb with rfl | hb
    · exact .inr ⟨b, List.mem_cons_self, rfl, hrefl b⟩
    · rcases ih hR b hb with (hs | hk) | ⟨c, hc, hcb⟩
      · exact .inl hs
      · exact .inr ⟨a, List.mem_cons_self, hk.symm, ha b hb hk.symm⟩
      · exact .inr ⟨c, List.mem_cons_of_mem a hc, hcb⟩
  | @drop a seen xs ys hs _ ih =>
    obtain ⟨-, hR⟩ := List.pairwise_cons.mp hR
    intro b hb
    rcases List.mem_cons.mp hb with rfl | hb
    · exact .inl hs
    · exact ih hR b hb

/-- A sublist that covers every item of an ordered list thins it out, if no two items are alike. -/
theorem thinned_of_sublist (le : α → α → Prop) (h : ys.Sublist xs) (hle : xs.Pairwise le)
    (hne : xs.Pairwise fun a b => key a = key b → le a b → ¬le b a)
    (hc : ∀ a ∈ xs, seen (key a) ∨ ∃ b ∈ ys, key b = key a ∧ le b a) : Thinned key seen xs ys := by
  induction h generalizing seen with
  | slnil => exact .nil seen
  | @cons ys xs a hsub ih =>
    obtain ⟨hle, hle'⟩ := List.pairwise_cons.mp hle
    obtain ⟨hne, hne'⟩ := List.pairwise_cons.mp hne
    refine .drop ?_ (ih hle' hne' fun b hb => hc b (List.mem_cons_of_mem a hb))
    rcases hc a List.mem_cons_self with hs | ⟨b, hb, hk, hba⟩
    · exact hs
    · have hbx := hsub.subset hb
      exact (hne b hbx hk.symm (hle b hbx) hba).elim
  | @cons_cons ys xs a hsub ih =>
    obtain ⟨-, hle⟩ := List.pairwise_cons.mp hle
    obtain ⟨-, hne⟩ := List.pairwise_cons.mp hne
    refine .keep (ih hle hne fun b hb => ?_)
    rcases hc b (List.mem_cons_of_mem a hb) with hs | ⟨c, hc, hk, hcb⟩
    · exact .inl (.inl hs)
    · rcases List.mem_cons.mp hc with rfl | hc
      · exact .inl (.inr hk.symm)
      · exact .inr ⟨c, hc, hk, hcb⟩

/-- What items lead to is thinned out with them, if items with the same key lead to the same keys. -/
theorem Thinned.flatMap {γ μ : Type} {key' : γ → μ} {later : μ → Prop} {f : α → List γ}
    (h : Thinned key seen xs ys)
    (hf : ∀ a b, key a = key b → (f a).map key' = (f b).map key')
    (hs : ∀ a ∈ xs, seen (key a) → ∀ c ∈ f a, later (key' c)) :
    Thinned key' later (xs.flatMap f) (ys.flatMap f) := by
  induction h generalizing later with
  | nil => exact .nil later
  | @keep a seen xs ys _ ih =>
    simp only [List.flatMap_cons]
    refine .append_keep (ih fun b hb hk c hc => ?_)
    rcases hk with hk | hk
    · exact .inl (hs b (List.mem_cons_of_mem a hb) hk c hc)
    · have hmem : key' c ∈ (f a).map key' := hf b a hk ▸ List.mem_map_of_mem hc
      obtain ⟨d, hd, hdc⟩ := List.mem_map.mp hmem
      exact .inr ⟨d, hd, hdc.symm⟩
  | @drop a seen xs ys hk _ ih =>
    simp only [List.flatMap_cons]
    exact .append_drop (hs a List.mem_cons_self hk) (ih fun b hb => hs b (List.mem_cons_of_mem a hb))

end Thinned

section Sorting

variable {α : Type} {le : α → α → Bool} {xs ys : List α}

/-- The first item goes between those it does not precede and those it does. -/
theorem mergeSort_cons_eq (trans : ∀ a b c, le a b → le b c → le a c)
    (total : ∀ a b, le a b || le b a) (a : α) (xs : List α) :
    (a :: xs).mergeSort le =
      (xs.mergeSort le).filter (fun b => !le a b) ++ a :: (xs.mergeSort le).filter (le a ·) := by
  obtain ⟨before, after, hcons, hxs, hbefore⟩ := List.mergeSort_cons trans total a xs
  have hafter : ∀ b ∈ after, le a b = true := by
    have hsorted := List.pairwise_mergeSort trans total (a :: xs)
    rw [hcons] at hsorted
    exact (List.pairwise_cons.mp (List.pairwise_append.mp hsorted).2.1).1
  have hlt : before.filter (fun b => !le a b) = before := List.filter_eq_self.mpr hbefore
  have hnlt : after.filter (fun b => !le a b) = [] :=
    List.filter_eq_nil_iff.mpr fun b hb => by simp [hafter b hb]
  have hnle : before.filter (le a ·) = [] :=
    List.filter_eq_nil_iff.mpr fun b hb => by simpa using hbefore b hb
  have hle : after.filter (le a ·) = after := List.filter_eq_self.mpr hafter
  rw [hcons, hxs, List.filter_append, List.filter_append, hlt, hnlt, hnle, hle, List.append_nil,
    List.nil_append]

/-- Sorting keeps sublists. -/
theorem sublist_mergeSort_of_sublist (trans : ∀ a b c, le a b → le b c → le a c)
    (total : ∀ a b, le a b || le b a) (h : ys.Sublist xs) :
    (ys.mergeSort le).Sublist (xs.mergeSort le) := by
  induction h with
  | slnil => simp
  | @cons ys xs a _ ih =>
    obtain ⟨before, after, hcons, hxs, -⟩ := List.mergeSort_cons trans total a xs
    rw [hcons]
    exact (hxs ▸ ih).middle a
  | @cons_cons ys xs a _ ih =>
    rw [mergeSort_cons_eq trans total, mergeSort_cons_eq trans total]
    exact (ih.filter _).append (.cons_cons a (ih.filter _))

/-- Sorting keeps the order of items that go before each other. -/
theorem filter_mergeSort_eq (trans : ∀ a b c, le a b → le b c → le a c)
    (total : ∀ a b, le a b || le b a) {p : α → Bool}
    (hp : ∀ a ∈ xs, ∀ b ∈ xs, p a → p b → le a b) :
    (xs.mergeSort le).filter p = xs.filter p := by
  have hsorted : (xs.filter p).Pairwise (le · ·) := List.pairwise_of_forall_mem_list fun a ha b hb => by
    obtain ⟨ha, hpa⟩ := List.mem_filter.mp ha
    obtain ⟨hb, hpb⟩ := List.mem_filter.mp hb
    exact hp a ha b hb hpa hpb
  have hsub := sublist_mergeSort_of_sublist trans total (List.filter_sublist (p := p) (l := xs))
  rw [List.mergeSort_of_pairwise hsorted] at hsub
  have hfilter := hsub.filter p
  simp only [List.filter_filter, Bool.and_self] at hfilter
  exact (hfilter.eq_of_length ((List.mergeSort_perm xs le).filter p).length_eq.symm).symm

end Sorting

end PatternAutomata
