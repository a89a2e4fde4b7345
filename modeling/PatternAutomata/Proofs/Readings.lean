import Mathlib.Data.List.Basic
import PatternAutomata.Pattern.Grammar
import PatternAutomata.Pattern.Parser

/-!
# What the productions read

A production that fails leaves the text where it found it. One that succeeds has read a phrase of the
grammar, and the tree it returns is the tree of that phrase.

The count of groups is the one thing a failure may change: a group takes its number before its inside is
read. A branch that was read up to a group which cannot be read stops before the opening parenthesis, and
nothing goes on from there.
-/

namespace PatternAutomata

open Grammar

section Derives

variable {n m : Nat} {text : List Char} {tree : Pattern}

theorem Grammar.Derives.atom_ne_nil (h : Derives .atom n text tree m) : text ≠ [] := by
  cases h <;> simp

theorem Grammar.Derives.term_ne_nil (h : Derives .term n text tree m) : text ≠ [] := by
  cases h with
  | term h kinds => exact List.append_ne_nil_of_left_ne_nil h.atom_ne_nil _

theorem Grammar.Derives.branch_ne_nil (h : Derives (.branch false) n text tree m) : text ≠ [] := by
  cases h with
  | single h => exact h.term_ne_nil
  | concat h => exact List.append_ne_nil_of_left_ne_nil h.term_ne_nil _

end Derives

namespace Reader

variable {α : Type} {p : Production α} {nested : Production Pattern}

@[simp] theorem rest_advance (r : Reader) : r.advance.rest = r.rest.tail := rfl

@[simp] theorem rest_fail (r : Reader) (fault : SyntaxFault) (offset : Nat) :
    (r.fail fault offset).rest = r.rest := by
  simp only [fail]
  split
  · split <;> rfl
  · rfl

@[simp] theorem groups_advance (r : Reader) : r.advance.groups = r.groups := rfl

@[simp] theorem groups_fail (r : Reader) (fault : SyntaxFault) (offset : Nat) :
    (r.fail fault offset).groups = r.groups := by
  simp only [fail]
  split
  · split <;> rfl
  · rfl

theorem groups_of_eat? {r r' : Reader} {c : Char} (h : r.eat? c = some r') : r'.groups = r.groups := by
  simp only [eat?] at h
  split at h
  · cases h
    rfl
  · cases h

theorem rest_of_eat? {r r' : Reader} {c : Char} (h : r.eat? c = some r') : r.rest = c :: r'.rest := by
  simp only [eat?, Option.ite_none_right_eq_some, Option.some.injEq] at h
  obtain ⟨hhead, rfl⟩ := h
  exact List.eq_cons_of_mem_head? hhead

theorem head?_of_eat?_eq_none {r : Reader} {c : Char} (h : r.eat? c = none) : r.rest.head? ≠ some c := by
  simpa [eat?] using h

theorem isReserved_iff {c : Char} : isReserved c = true ↔ c ∈ reserved := by
  simp [isReserved, reserved]

/-! ### Classes -/

theorem of_literalChar_eq_some {r r' : Reader} {c : Char} (h : literalChar r = (some c, r')) :
    c ∉ reserved ∧ r.rest = c :: r'.rest := by
  simp only [literalChar] at h
  split at h
  · cases h
  · rename_i c' rest hrest
    split at h
    · cases h
    · rename_i hc
      cases h
      rw [isReserved_iff] at hc
      exact ⟨hc, by rw [rest_advance, hrest, List.tail_cons]⟩

theorem of_literalChar_eq_none {r r' : Reader} (h : literalChar r = (none, r')) :
    r' = r ∧ ∀ c rest, r.rest = c :: rest → c ∈ reserved := by
  simp only [literalChar] at h
  split at h
  · rename_i hrest
    cases h
    exact ⟨rfl, by simp [hrest]⟩
  · rename_i c rest hrest
    split at h
    · rename_i hc
      cases h
      refine ⟨rfl, fun c' rest' hcons => ?_⟩
      rw [hrest] at hcons
      cases hcons
      exact isReserved_iff.mp hc
    · cases h

theorem escaped_of_ne {c : Char} (hs : c ≠ 's') (hS : c ≠ 'S') : escaped c = .single c := by
  rw [escaped, if_neg hs, if_neg hS]

theorem of_escape_eq_some {r r' : Reader} {item : ClassItem} (h : escape r = (some item, r')) :
    ∃ c, r.rest = '\\' :: c :: r'.rest ∧ item = escaped c := by
  simp only [escape] at h
  split at h
  · cases h
  · rename_i r₁ heat
    split at h
    · cases h
    · rename_i c rest hrest
      cases h
      exact ⟨c, by rw [rest_of_eat? heat, rest_advance, hrest, List.tail_cons], rfl⟩

theorem rest_of_escape_eq_none {r r' : Reader} (h : escape r = (none, r')) : r'.rest = r.rest := by
  simp only [escape] at h
  split at h
  · cases h
    rfl
  · split at h
    · cases h
      exact rest_fail r _ _
    · cases h

theorem of_classRange_eq_some {r r' : Reader} {item : ClassItem} (h : classRange r = (some item, r')) :
    ∃ lo hi, lo ∉ reserved ∧ hi ∉ reserved ∧ r.rest = lo :: '-' :: hi :: r'.rest ∧
      item = .range lo hi := by
  simp only [classRange] at h
  split at h
  · cases h
  · rename_i lo r₁ hlo
    split at h
    · cases h
    · rename_i r₂ heat
      split at h
      · cases h
      · rename_i hi r₃ hhi
        cases h
        obtain ⟨hlo, hrest⟩ := of_literalChar_eq_some hlo
        obtain ⟨hhi, hrest₂⟩ := of_literalChar_eq_some hhi
        exact ⟨lo, hi, hlo, hhi, by rw [hrest, rest_of_eat? heat, hrest₂], rfl⟩

/-- There is no range where none is found. -/
theorem of_classRange_eq_none {r r' : Reader} (h : classRange r = (none, r')) :
    r'.rest = r.rest ∧
      ∀ lo hi tail, lo ∉ reserved → r.rest = lo :: '-' :: hi :: tail → hi ∈ reserved := by
  simp only [classRange] at h
  split at h
  · rename_i r₁ hlo
    cases h
    obtain ⟨rfl, hstuck⟩ := of_literalChar_eq_none hlo
    exact ⟨rfl, fun lo hi tail hmem hrest => absurd (hstuck lo _ hrest) hmem⟩
  · rename_i lo r₁ hlo
    obtain ⟨-, hrest⟩ := of_literalChar_eq_some hlo
    split at h
    · rename_i heat
      cases h
      refine ⟨rfl, fun lo' hi tail _ hcons => absurd ?_ (head?_of_eat?_eq_none heat)⟩
      rw [hrest, List.cons_eq_cons] at hcons
      rw [hcons.2, List.head?_cons]
    · rename_i r₂ heat
      split at h
      · rename_i r₃ hhi
        cases h
        refine ⟨rfl, fun lo' hi tail _ hcons => (of_literalChar_eq_none hhi).2 hi tail ?_⟩
        simp only [hrest, rest_of_eat? heat, List.cons_eq_cons, true_and] at hcons
        exact hcons.2
      · cases h

/-- One item, and what it adds to the items of a class behind it. -/
theorem of_classItem_eq_some {r r' : Reader} {item : ClassItem} (h : classItem r = (some item, r')) :
    ∃ text, r.rest = text ++ r'.rest ∧ text ≠ [] ∧
      ∀ rest tail items, r'.rest = rest ++ tail → ClassText rest items →
        ClassText (text ++ rest) (item :: items) := by
  simp only [classItem] at h
  split at h
  · rename_i hrange
    cases h
    obtain ⟨lo, hi, hlo, hhi, hrest, rfl⟩ := of_classRange_eq_some hrange
    exact ⟨[lo, '-', hi], hrest, by simp, fun _ _ _ _ htext => .range hlo hhi htext⟩
  · rename_i r₁ hrange
    obtain ⟨hrest₁, hnone⟩ := of_classRange_eq_none hrange
    split at h
    · rename_i r₂ hescape
      cases h
      obtain ⟨c, hrest, rfl⟩ := of_escape_eq_some hescape
      refine ⟨['\\', c], hrest₁.symm.trans hrest, by simp, fun rest _ items _ htext => ?_⟩
      by_cases hs : c = 's'
      · subst hs
        exact .whitespace htext
      by_cases hS : c = 'S'
      · subst hS
        exact .notWhitespace htext
      rw [escaped_of_ne hs hS]
      exact .escaped hs hS htext
    · rename_i r₂ hescape
      have hrest₂ := rest_of_escape_eq_none hescape
      split at h
      · rename_i c r₃ hliteral
        cases h
        obtain ⟨hc, hrest⟩ := of_literalChar_eq_some hliteral
        have hrest : r.rest = c :: r'.rest := by rw [← hrest₁, ← hrest₂, hrest]
        refine ⟨[c], hrest, by simp, fun rest tail items hsplit htext => ?_⟩
        have hstart : ∀ hi tail', rest = '-' :: hi :: tail' → hi ∈ reserved := by
          intro hi tail' hdash
          refine hnone c hi (tail' ++ tail) hc ?_
          rw [hrest, hsplit, hdash, List.cons_append, List.cons_append]
        exact .literal hc hstart htext
      · cases h

theorem of_many_classItem (r : Reader) :
    ∃ text, r.rest = text ++ (many classItem r).2.rest ∧ ClassText text (many classItem r).1 := by
  induction r using many.induct classItem with
  | case1 r r₁ hp =>
    rw [many, hp]
    refine ⟨[], ?_, .nil⟩
    simp only [classItem] at hp
    split at hp
    · cases hp
    · rename_i hrange
      split at hp
      · cases hp
      · rename_i hescape
        split at hp
        · cases hp
        · rename_i hliteral
          cases hp
          rw [(of_literalChar_eq_none hliteral).1, rest_of_escape_eq_none hescape,
            (of_classRange_eq_none hrange).1, List.nil_append]
  | case2 r item r₁ hp hlt items r₂ hmany ih =>
    rw [many, hp]
    simp only [hlt, ↓reduceIte, hmany]
    rw [hmany] at ih
    obtain ⟨rest, hrest, htext⟩ := ih
    obtain ⟨text, hsplit, -, hcons⟩ := of_classItem_eq_some hp
    exact ⟨text ++ rest, by rw [hsplit, hrest, List.append_assoc], hcons rest _ items hrest htext⟩
  | case3 r item r₁ hp hlt =>
    -- an item is never empty, so this round read something
    obtain ⟨text, hsplit, hne, -⟩ := of_classItem_eq_some hp
    have hpos := List.length_pos_iff.mpr hne
    rw [hsplit, List.length_append] at hlt
    omega

/-! ### The count of groups -/

/-- The production takes no number. -/
def Uncounted (p : Production α) : Prop := ∀ r x r', p r = (x, r') → r'.groups = r.groups

theorem uncounted_literalChar : Uncounted literalChar := by
  intro r x r' h
  simp only [literalChar] at h
  split at h
  · cases h
    rfl
  · split at h
    · cases h
      rfl
    · cases h
      rfl

theorem uncounted_escape : Uncounted escape := by
  intro r x r' h
  simp only [escape] at h
  split at h
  · cases h
    rfl
  · rename_i r₁ heat
    split at h
    · cases h
      exact groups_fail r _ _
    · cases h
      exact (groups_advance r₁).trans (groups_of_eat? heat)

theorem uncounted_classRange : Uncounted classRange := by
  intro r x r' h
  simp only [classRange] at h
  split at h
  · rename_i r₁ hlo
    cases h
    exact uncounted_literalChar r _ _ hlo
  · rename_i lo r₁ hlo
    have hr₁ := uncounted_literalChar r _ _ hlo
    split at h
    · cases h
      exact hr₁
    · rename_i r₂ heat
      have hr₂ := groups_of_eat? heat
      split at h
      all_goals
        rename_i hhi
        cases h
        exact (uncounted_literalChar r₂ _ _ hhi).trans (hr₂.trans hr₁)

theorem uncounted_classItem : Uncounted classItem := by
  intro r x r' h
  simp only [classItem] at h
  split at h
  · rename_i item r₁ hrange
    cases h
    exact uncounted_classRange r _ _ hrange
  · rename_i r₁ hrange
    have hr₁ := uncounted_classRange r _ _ hrange
    split at h
    · rename_i item r₂ hescape
      cases h
      exact (uncounted_escape r₁ _ _ hescape).trans hr₁
    · rename_i r₂ hescape
      have hr₂ := (uncounted_escape r₁ _ _ hescape).trans hr₁
      split at h
      all_goals
        rename_i hliteral
        cases h
        exact (uncounted_literalChar r₂ _ _ hliteral).trans hr₂

theorem uncounted_quantifier : Uncounted quantifier := by
  intro r x r' h
  simp only [quantifier] at h
  split at h
  · cases h
    rfl
  · repeat' split at h
    all_goals
      cases h
      rfl

theorem Uncounted.many (h : Uncounted p) (r : Reader) : (many p r).2.groups = r.groups := by
  induction r using many.induct p with
  | case1 r r₁ hp =>
    rw [Reader.many, hp]
    exact h r _ _ hp
  | case2 r a r₁ hp hlt found r₂ hmany ih =>
    rw [hmany] at ih
    rw [Reader.many, hp]
    simp only [hlt, ↓reduceIte, hmany]
    exact ih.trans (h r _ _ hp)
  | case3 r a r₁ hp hlt =>
    rw [Reader.many, hp]
    simp only [hlt, ↓reduceIte]
    exact h r _ _ hp

theorem uncounted_bracketClass : Uncounted bracketClass := by
  intro r x r' h
  simp only [bracketClass] at h
  split at h
  case' h_1 r₁ heat => have hr₁ := groups_of_eat? heat
  case' h_2 => have hr₁ := groups_advance r
  all_goals
    have hr₂ := (uncounted_classItem.many _).trans hr₁
    split at h
    · cases h
      exact (groups_fail _ _ _).trans hr₂
    · split at h
      · cases h
        exact (groups_fail _ _ _).trans hr₂
      · rename_i hclose
        cases h
        exact (groups_of_eat? hclose).trans hr₂

/-! ### Atoms and terms -/

/-- A production that fails leaves the text where it found it. Unless it stands at a group, it leaves the
count of groups as well. -/
def Restores (p : Production α) : Prop :=
  ∀ r r', p r = (none, r') →
    r'.rest = r.rest ∧ (r.rest.head? ≠ some '(' → r'.groups = r.groups)

/-- What the production returns is the tree of the phrase that it read. -/
def Reads (phrase : Phrase) (p : Production Pattern) : Prop :=
  ∀ r a r', p r = (some a, r') →
    ∃ text, r.rest = text ++ r'.rest ∧ Derives phrase r.groups text a r'.groups

/-- What the production returns is the tree of the phrase that it read, if no group stands where it stops.
What the phrase may be depends on what follows. -/
def ReadsBefore (phrase : List Char → Phrase) (p : Production Pattern) : Prop :=
  ∀ r a r', p r = (some a, r') →
    ∃ text, r.rest = text ++ r'.rest ∧
      (r'.rest.head? ≠ some '(' → Derives (phrase r'.rest) r.groups text a r'.groups)

/-- A branch may be empty before this text. -/
def endsBranch (rest : List Char) : Bool := rest.isEmpty || rest.head? == some '|'

def branchBefore (rest : List Char) : Phrase := .branch (endsBranch rest)

def unionBefore (rest : List Char) : Phrase := .union rest.isEmpty

theorem of_bracketClass_eq_some {r r' : Reader} {a : Pattern} (hopen : r.rest.head? = some '[')
    (h : bracketClass r = (some a, r')) :
    ∃ text, r.rest = text ++ r'.rest ∧ Derives .atom r.groups text a r'.groups := by
  have hgroups := uncounted_bracketClass r _ _ h
  have hrest : r.rest = '[' :: r.advance.rest := List.eq_cons_of_mem_head? hopen
  simp only [bracketClass] at h
  split at h
  case' h_1 r₁ heat => have hrest := hrest.trans (congrArg _ (rest_of_eat? heat))
  all_goals
    split at h
    · cases h
    · rename_i hne
      split at h
      · cases h
      · rename_i r₃ hclose
        cases h
        obtain ⟨text, hsplit, htext⟩ := of_many_classItem _
        rw [List.isEmpty_iff] at hne
        refine ⟨_, ?_, by rw [hgroups]; exact .charClass htext hne⟩
        rw [hrest, hsplit, rest_of_eat? hclose]
        simp

theorem of_escape_atom {r r' : Reader} {item : ClassItem} (h : escape r = (some item, r')) :
    ∃ text, r.rest = text ++ r'.rest ∧ Derives .atom r.groups text (Pattern.ofEscape item) r'.groups := by
  have hgroups := uncounted_escape r _ _ h
  obtain ⟨c, hrest, rfl⟩ := of_escape_eq_some h
  refine ⟨['\\', c], hrest, ?_⟩
  rw [hgroups]
  by_cases hs : c = 's'
  · subst hs
    exact .whitespace
  by_cases hS : c = 'S'
  · subst hS
    exact .notWhitespace
  rw [escaped_of_ne hs hS]
  exact .escaped hs hS

theorem ReadsBefore.group (h : ReadsBefore unionBefore nested) {r r' : Reader} {a : Pattern}
    (hopen : r.rest.head? = some '(') (hr : group nested r = (some a, r')) :
    ∃ text, r.rest = text ++ r'.rest ∧ Derives .atom r.groups text a r'.groups := by
  have hrest : r.rest = '(' :: r.advance.rest := List.eq_cons_of_mem_head? hopen
  simp only [Reader.group] at hr
  split at hr
  · cases hr
  · rename_i inner r₁ hinner
    split at hr
    · cases hr
    · rename_i r₂ hclose
      cases hr
      obtain ⟨text, hsplit, hderives⟩ := h _ _ _ hinner
      rw [rest_of_eat? hclose, ← groups_of_eat? hclose] at hderives
      refine ⟨'(' :: text ++ [')'], ?_, .group (hderives (by simp))⟩
      rw [hrest, show r.advance.rest = _ from hsplit, rest_of_eat? hclose]
      simp

theorem ReadsBefore.atom (h : ReadsBefore unionBefore nested) : Reads .atom (atom nested) := by
  intro r a r' hr
  simp only [Reader.atom] at hr
  split at hr
  · cases hr
  · rename_i c rest hrest
    have hhead : r.rest.head? = some c := by rw [hrest, List.head?_cons]
    split at hr
    · rename_i hc
      exact h.group (hc ▸ hhead) hr
    · split at hr
      · rename_i hc
        exact of_bracketClass_eq_some (hc ▸ hhead) hr
      · split at hr
        · rename_i hc
          cases hr
          exact ⟨['.'], by rw [rest_advance, hrest, hc, List.tail_cons, List.singleton_append], .dot⟩
        · rename_i hdot
          split at hr
          · split at hr
            · rename_i item r₁ hescape
              cases hr
              exact of_escape_atom hescape
            · cases hr
          · split at hr
            · rename_i c' r₁ hliteral
              cases hr
              obtain ⟨hc', hrest'⟩ := of_literalChar_eq_some hliteral
              rw [hrest, List.cons_eq_cons] at hrest'
              obtain ⟨rfl, rfl⟩ := hrest'
              rw [uncounted_literalChar r _ _ hliteral]
              exact ⟨[c], hrest, .literal hc' hdot⟩
            · cases hr

theorem restores_bracketClass : Restores bracketClass := by
  intro r r' h
  refine ⟨?_, fun _ => uncounted_bracketClass r _ _ h⟩
  simp only [bracketClass] at h
  split at h
  all_goals
    split at h
    · cases h
      rfl
    · split at h
      · cases h
        rfl
      · cases h

theorem restores_atom : Restores (atom nested) := by
  intro r r' hr
  simp only [atom] at hr
  split at hr
  · cases hr
    exact ⟨rfl, fun _ => rfl⟩
  · rename_i c rest hrest
    split at hr
    · rename_i hc
      refine ⟨?_, fun hhead => absurd (by rw [hrest, hc, List.head?_cons]) hhead⟩
      simp only [group] at hr
      split at hr
      · cases hr
        rfl
      · split at hr
        · cases hr
          rfl
        · cases hr
    · split at hr
      · exact restores_bracketClass r r' hr
      · split at hr
        · cases hr
        · split at hr
          · split at hr
            · cases hr
            · rename_i hescape
              cases hr
              exact ⟨rest_of_escape_eq_none hescape, fun _ => uncounted_escape r _ _ hescape⟩
          · split at hr
            · cases hr
            · rename_i hliteral
              cases hr
              rw [(of_literalChar_eq_none hliteral).1]
              exact ⟨rest_fail r _ _, fun _ => groups_fail r _ _⟩

theorem of_quantifier_eq_some {r r' : Reader} {kind : Repetition} (h : quantifier r = (some kind, r')) :
    r.rest = kind.symbol :: r'.rest := by
  simp only [quantifier] at h
  split at h
  · cases h
  · rename_i c rest hrest
    repeat' split at h
    all_goals
      cases h
      try
        rename_i hc
        rw [rest_advance, hrest, hc]
        rfl

theorem of_quantifier_eq_none {r r' : Reader} (h : quantifier r = (none, r')) :
    r' = r ∧ Unrepeated r.rest := by
  simp only [quantifier] at h
  split at h
  · rename_i hrest
    cases h
    exact ⟨rfl, by simp [Unrepeated, hrest]⟩
  · rename_i c rest hrest
    split at h
    · cases h
    · split at h
      · cases h
      · split at h
        · cases h
        · cases h
          refine ⟨rfl, fun kind => ?_⟩
          cases kind <;> simpa [hrest, Repetition.symbol]

/-- The repetitions behind an atom are all read. -/
theorem of_many_quantifier (r : Reader) :
    r.rest = (many quantifier r).1.map Repetition.symbol ++ (many quantifier r).2.rest ∧
      Unrepeated (many quantifier r).2.rest := by
  induction r using many.induct quantifier with
  | case1 r r₁ hp =>
    obtain ⟨rfl, hend⟩ := of_quantifier_eq_none hp
    rw [many, hp]
    exact ⟨rfl, hend⟩
  | case2 r kind r₁ hp hlt kinds r₂ hmany ih =>
    rw [hmany] at ih
    obtain ⟨hrest, hend⟩ := ih
    rw [many, hp]
    simp only [hlt, ↓reduceIte, hmany]
    refine ⟨?_, hend⟩
    rw [of_quantifier_eq_some hp, hrest, List.map_cons, List.cons_append]
  | case3 r kind r₁ hp hlt =>
    rw [of_quantifier_eq_some hp, List.length_cons] at hlt
    omega

theorem restores_term : Restores (term nested) := by
  intro r r' hr
  simp only [term] at hr
  split at hr
  · rename_i hatom
    cases hr
    exact restores_atom r _ hatom
  · cases hr

/-- No repetition follows a term that was read. -/
theorem ReadsBefore.term (h : ReadsBefore unionBefore nested) {r r' : Reader} {a : Pattern}
    (hr : term nested r = (some a, r')) :
    ∃ text, r.rest = text ++ r'.rest ∧ Derives .term r.groups text a r'.groups ∧
      Unrepeated r'.rest := by
  simp only [Reader.term] at hr
  split at hr
  · cases hr
  · rename_i inner r₁ hatom
    cases hr
    obtain ⟨text, hrest, hderives⟩ := h.atom r _ _ hatom
    obtain ⟨hrest₁, hend⟩ := of_many_quantifier r₁
    rw [uncounted_quantifier.many]
    exact ⟨_, by rw [List.append_assoc, ← hrest₁, hrest], .term hderives _, hend⟩

theorem ReadsBefore.length_term (h : ReadsBefore unionBefore nested) {r r' : Reader} {a : Pattern}
    (hr : Reader.term nested r = (some a, r')) : r'.rest.length < r.rest.length := by
  obtain ⟨text, hrest, hterm, -⟩ := h.term hr
  have hpos := List.length_pos_iff.mpr hterm.term_ne_nil
  rw [hrest, List.length_append]
  omega

/-! ### Branches and unions -/

/-- The terms behind a first one. -/
theorem ReadsBefore.many_term (h : ReadsBefore unionBefore nested) (r : Reader) :
    ∃ text, r.rest = text ++ (many (Reader.term nested) r).2.rest ∧
      ((many (Reader.term nested) r).2.rest.head? ≠ some '(' →
        ∀ n before first mayBeEmpty, Derives .term n before first r.groups → Unrepeated r.rest →
          Derives (.branch mayBeEmpty) n (before ++ text)
            (first.concatOf (many (Reader.term nested) r).1) (many (Reader.term nested) r).2.groups) := by
  induction r using many.induct (Reader.term nested) with
  | case1 r r₁ hp =>
    rw [many, hp]
    obtain ⟨hrest, hgroups⟩ := restores_term r r₁ hp
    refine ⟨[], hrest.symm, fun hparen n before first mayBeEmpty hfirst _ => ?_⟩
    rw [show (([] : List Pattern), r₁).2.groups = r.groups from hgroups (hrest ▸ hparen), List.append_nil]
    exact .single hfirst
  | case2 r a r₁ hp hlt found r₂ hmany ih =>
    rw [many, hp]
    simp only [hlt, ↓reduceIte, hmany]
    rw [hmany] at ih
    obtain ⟨text, hrest, hterm, hend⟩ := h.term hp
    obtain ⟨text', hrest', hbranch⟩ := ih
    refine ⟨text ++ text', by rw [hrest, hrest', List.append_assoc], ?_⟩
    intro hparen n before first mayBeEmpty hfirst hstart
    refine .concat hfirst ?_ (hbranch hparen _ text a false hterm hend)
    intro kind
    have hhead := hstart kind
    rw [hrest, List.head?_append_of_ne_nil _ hterm.term_ne_nil] at hhead
    rwa [List.head?_append_of_ne_nil _ hterm.term_ne_nil]
  | case3 r a r₁ hp hlt => exact absurd (h.length_term hp) hlt

theorem ReadsBefore.concatenation (h : ReadsBefore unionBefore nested) :
    ReadsBefore branchBefore (concatenation nested) := by
  intro r a r' hr
  simp only [Reader.concatenation] at hr
  split at hr
  · rename_i r₁ hterm
    obtain ⟨hrest, hgroups⟩ := restores_term r r₁ hterm
    split at hr
    · rename_i hend
      cases hr
      refine ⟨[], hrest.symm, fun hparen => ?_⟩
      have hempty : endsBranch r'.rest = true := by simpa [endsBranch] using hend
      rw [branchBefore, hempty, hgroups (hrest ▸ hparen)]
      exact .empty
    · cases hr
  · rename_i first r₁ hfirst
    cases hr
    obtain ⟨text, hrest, hterm, hend⟩ := h.term hfirst
    obtain ⟨text', hrest', hbranch⟩ := h.many_term r₁
    refine ⟨text ++ text', by rw [hrest, List.append_assoc, ← hrest'], fun hparen => ?_⟩
    exact hbranch hparen _ _ _ _ hterm hend

/-- The branches behind a first one. They start behind a bar if there are any, so nothing goes on from a
group that cannot be read. -/
theorem ReadsBefore.moreBranches (h : ReadsBefore unionBefore nested) (r : Reader) :
    ∀ others r', moreBranches nested r = (some others, r') →
      ∃ text, r.rest = text ++ r'.rest ∧ (r'.rest.head? ≠ some '(' →
        r.rest.head? ≠ some '(' ∧
        ∀ n before first, Derives (branchBefore r.rest) n before first r.groups →
          Derives (unionBefore r'.rest) n (before ++ text) (first.unionOf others) r'.groups) := by
  induction r using moreBranches.induct nested with
  | case1 r heat =>
    intro others r' hr
    rw [Reader.moreBranches, heat] at hr
    cases hr
    have hbar := head?_of_eat?_eq_none heat
    refine ⟨[], rfl, fun hparen => ⟨hparen, fun n before first hfirst => ?_⟩⟩
    have hempty : endsBranch r.rest = r.rest.isEmpty := by simp [endsBranch, hbar]
    rw [branchBefore, hempty] at hfirst
    rw [List.append_nil]
    exact .last hfirst
  | case2 r r₁ heat r₂ hbranch =>
    intro others r' hr
    rw [Reader.moreBranches, heat] at hr
    simp only [hbranch] at hr
    cases hr
  | case3 r r₁ heat branch r₂ hbranch hlt r₃ hmore ih =>
    intro others r' hr
    rw [Reader.moreBranches, heat] at hr
    simp only [hbranch, hlt, ↓reduceIte, hmore] at hr
    cases hr
  | case4 r r₁ heat branch r₂ hbranch hlt later r₃ hmore ih =>
    intro others r' hr
    rw [Reader.moreBranches, heat] at hr
    simp only [hbranch, hlt, ↓reduceIte, hmore] at hr
    cases hr
    have hrest := rest_of_eat? heat
    obtain ⟨text, hrest₁, hreads⟩ := h.concatenation _ _ _ hbranch
    obtain ⟨text', hrest₂, hunion⟩ := ih _ _ hmore
    refine ⟨'|' :: (text ++ text'), by simp [hrest, hrest₁, hrest₂], fun hparen => ?_⟩
    obtain ⟨hparen₂, hunion⟩ := hunion hparen
    refine ⟨by simp [hrest], fun n before first hfirst => ?_⟩
    rw [hrest, ← groups_of_eat? heat] at hfirst
    exact .union hfirst (hunion _ _ _ (hreads hparen₂))
  | case5 r r₁ heat branch r₂ hbranch hlt =>
    obtain ⟨text, hrest₁, -⟩ := h.concatenation _ _ _ hbranch
    rw [rest_of_eat? heat, hrest₁, List.length_cons, List.length_append] at hlt
    omega

theorem ReadsBefore.alternatives (h : ReadsBefore unionBefore nested) :
    ReadsBefore unionBefore (alternatives nested) := by
  intro r a r' hr
  simp only [Reader.alternatives] at hr
  split at hr
  · cases hr
  · rename_i first r₁ hfirst
    split at hr
    · cases hr
    · rename_i others r₂ hothers
      cases hr
      obtain ⟨text, hrest, hbranch⟩ := h.concatenation _ _ _ hfirst
      obtain ⟨text', hrest', hunion⟩ := h.moreBranches r₁ _ _ hothers
      refine ⟨text ++ text', by rw [hrest, hrest', List.append_assoc], fun hparen => ?_⟩
      obtain ⟨hparen₁, hunion⟩ := hunion hparen
      exact hunion _ _ _ (hbranch hparen₁)

theorem readsBefore_unionWithin (depth : Nat) : ReadsBefore unionBefore (unionWithin depth) := by
  induction depth with
  | zero =>
    intro r a r' h
    cases h
  | succ depth ih => exact ih.alternatives

end Reader

end PatternAutomata
