import PatternAutomata.Proofs.Readings

/-!
# Derivations are read

A phrase of the grammar is read where it stands, whatever groups it nests, as long as a text follows that
may follow such a phrase: behind a term no further repetition, behind a branch or a union what ends it.
-/

namespace PatternAutomata

open Grammar

theorem Grammar.ClassText.head?_ne_caret {text : List Char} {items : List ClassItem}
    (h : ClassText text items) : text.head? ≠ some '^' := by
  have hne : ∀ c ∉ reserved, c ≠ '^' := by
    rintro c hc rfl
    simp [reserved] at hc
  cases h with
  | range hlo => simpa using hne _ hlo
  | literal hc => simpa using hne _ hc
  | _ => simp

namespace Reader

variable {α : Type} {p : Production α} {nested : Production Pattern} {r r₁ r₂ : Reader}

theorem eat?_eq_some {c : Char} {rest : List Char} (h : r.rest = c :: rest) :
    r.eat? c = some r.advance := by
  simp [eat?, h]

theorem eat?_eq_none {c : Char} (h : r.rest.head? ≠ some c) : r.eat? c = none := by
  simp [eat?, h]

theorem many_eq_nil (hp : p r = (none, r₁)) : many p r = ([], r₁) := by
  rw [many, hp]

theorem many_eq_cons {a : α} {found : List α} (hp : p r = (some a, r₁))
    (hlt : r₁.rest.length < r.rest.length) (hmany : many p r₁ = (found, r₂)) :
    many p r = (a :: found, r₂) := by
  rw [many, hp]
  simp only [hlt, ↓reduceIte, hmany]

theorem exists_many_cons {a : α} {found : List α} {tail : List Char} (hp : p r = (some a, r₁))
    (hlt : r₁.rest.length < r.rest.length)
    (hmany : ∃ r', many p r₁ = (found, r') ∧ r'.rest = tail) :
    ∃ r', many p r = (a :: found, r') ∧ r'.rest = tail := by
  obtain ⟨r', hmany, hrest⟩ := hmany
  exact ⟨r', many_eq_cons hp hlt hmany, hrest⟩

/-! ### Classes -/

theorem literalChar_eq_some {c : Char} {rest : List Char} (h : r.rest = c :: rest) (hc : c ∉ reserved) :
    literalChar r = (some c, r.advance) := by
  simp [literalChar, h, isReserved_iff, hc]

theorem literalChar_eq_none (h : ∀ c rest, r.rest = c :: rest → c ∈ reserved) :
    literalChar r = (none, r) := by
  simp only [literalChar]
  split
  · rfl
  · rename_i c rest hrest
    rw [if_pos (isReserved_iff.mpr (h c rest hrest))]

theorem escape_eq_some {c : Char} {rest : List Char} (h : r.rest = '\\' :: c :: rest) :
    escape r = (some (escaped c), r.advance.advance) := by
  simp [escape, eat?_eq_some h, h]

theorem escape_eq_none (h : r.rest.head? ≠ some '\\') : escape r = (none, r) := by
  simp [escape, eat?_eq_none h]

theorem classItem_range {lo hi : Char} {rest : List Char} (h : r.rest = lo :: '-' :: hi :: rest)
    (hlo : lo ∉ reserved) (hhi : hi ∉ reserved) :
    classItem r = (some (.range lo hi), r.advance.advance.advance) := by
  have h₁ : r.advance.rest = '-' :: hi :: rest := by rw [rest_advance, h, List.tail_cons]
  have h₂ : r.advance.advance.rest = hi :: rest := by rw [rest_advance, h₁, List.tail_cons]
  simp [classItem, classRange, literalChar_eq_some h hlo, eat?_eq_some h₁, literalChar_eq_some h₂ hhi]

/-- Where no range starts, the reader stays where it is. -/
theorem classRange_eq_none
    (h : ∀ lo hi tail, r.rest = lo :: '-' :: hi :: tail → lo ∈ reserved ∨ hi ∈ reserved) :
    classRange r = (none, r) := by
  simp only [classRange]
  split
  · rename_i r₁ hlo
    rw [(of_literalChar_eq_none hlo).1]
  · rename_i lo r₁ hlo
    obtain ⟨hmem, hrest⟩ := of_literalChar_eq_some hlo
    rw [literalChar_eq_some hrest hmem] at hlo
    cases hlo
    split
    · rfl
    · rename_i r₂ heat
      have hrest₂ := rest_of_eat? heat
      rw [eat?_eq_some hrest₂] at heat
      cases heat
      rw [literalChar_eq_none]
      · rfl
      · intro hi tail hhi
        exact (h lo hi tail (by rw [hrest, hrest₂, hhi])).resolve_left hmem

theorem classItem_escape {c : Char} {rest : List Char} (h : r.rest = '\\' :: c :: rest) :
    classItem r = (some (escaped c), r.advance.advance) := by
  have hrange : classRange r = (none, r) := by
    refine classRange_eq_none fun lo hi tail hrest => .inl ?_
    rw [h, List.cons_eq_cons] at hrest
    simp [← hrest.1, reserved]
  simp [classItem, hrange, escape_eq_some h]

theorem classItem_literal {c : Char} {rest : List Char} (h : r.rest = c :: rest) (hc : c ∉ reserved)
    (hdash : ∀ hi tail, rest = '-' :: hi :: tail → hi ∈ reserved) :
    classItem r = (some (.single c), r.advance) := by
  have hrange : classRange r = (none, r) := by
    refine classRange_eq_none fun lo hi tail hrest => .inr ?_
    rw [h, List.cons_eq_cons] at hrest
    exact hdash hi tail hrest.2
  have hescape : r.rest.head? ≠ some '\\' := by
    rintro hhead
    rw [h, List.head?_cons, Option.some_inj] at hhead
    exact hc (hhead ▸ List.mem_cons_self)
  simp [classItem, hrange, escape_eq_none hescape, literalChar_eq_some h hc]

theorem classItem_eq_none {rest : List Char} (h : r.rest = ']' :: rest) : classItem r = (none, r) := by
  have hstuck : ∀ c rest', r.rest = c :: rest' → c ∈ reserved := by
    intro c rest' hrest
    rw [h, List.cons_eq_cons] at hrest
    simp [← hrest.1, reserved]
  have hrange : classRange r = (none, r) :=
    classRange_eq_none fun lo hi tail hrest => .inl (hstuck lo _ hrest)
  have hescape : r.rest.head? ≠ some '\\' := by simp [h]
  simp [classItem, hrange, escape_eq_none hescape, literalChar_eq_none hstuck]

/-- A dash at the end of a class stands before the closing bracket. -/
theorem mem_reserved_of_dash {text tail tail' : List Char} {hi : Char}
    (hrange : ∀ hi tail, text = '-' :: hi :: tail → hi ∈ reserved)
    (h : text ++ ']' :: tail = '-' :: hi :: tail') : hi ∈ reserved := by
  match text with
  | [] => simp at h
  | [c] =>
    simp only [List.singleton_append, List.cons_eq_cons] at h
    simp [← h.2.1, reserved]
  | c :: c' :: rest =>
    simp only [List.cons_append, List.cons_eq_cons] at h
    obtain ⟨rfl, rfl, -⟩ := h
    exact hrange c' rest rfl

theorem many_classItem {text tail : List Char} {items : List ClassItem} (h : ClassText text items)
    (hr : r.rest = text ++ ']' :: tail) :
    ∃ r', many classItem r = (items, r') ∧ r'.rest = ']' :: tail := by
  induction h generalizing r with
  | nil => exact ⟨r, many_eq_nil (classItem_eq_none hr), hr⟩
  | range hlo hhi h ih =>
    exact exists_many_cons (classItem_range hr hlo hhi) (by simp +arith [hr]) (ih (by simp [hr]))
  | whitespace h ih =>
    exact exists_many_cons (classItem_escape hr) (by simp +arith [hr]) (ih (by simp [hr]))
  | notWhitespace h ih =>
    exact exists_many_cons (classItem_escape hr) (by simp +arith [hr]) (ih (by simp [hr]))
  | escaped hs hS h ih =>
    have hitem := classItem_escape hr
    rw [escaped_of_ne hs hS] at hitem
    exact exists_many_cons hitem (by simp +arith [hr]) (ih (by simp [hr]))
  | literal hc hrange h ih =>
    have hitem := classItem_literal hr hc fun hi tail' => mem_reserved_of_dash hrange
    exact exists_many_cons hitem (by simp [hr]) (ih (by simp [hr]))

theorem bracketClass_eq_some {negated : Bool} {text tail : List Char} {items : List ClassItem}
    (h : ClassText text items) (hne : items ≠ [])
    (hr : r.rest = '[' :: (if negated then ['^'] else []) ++ text ++ ']' :: tail) :
    ∃ r', bracketClass r = (some (.charClass ⟨items, negated⟩), r') ∧ r'.rest = tail := by
  have hitems : items.isEmpty = false := by simpa using hne
  cases negated with
  | false =>
    have hopened : r.advance.rest = text ++ ']' :: tail := by simp [hr]
    obtain ⟨r₂, hmany, hrest₂⟩ := many_classItem h hopened
    have hcaret : r.advance.eat? '^' = none := by
      refine eat?_eq_none ?_
      rw [hopened]
      cases text with
      | nil => simp
      | cons c text => exact h.head?_ne_caret
    refine ⟨r₂.advance, ?_, by rw [rest_advance, hrest₂, List.tail_cons]⟩
    simp [bracketClass, hcaret, hmany, hitems, eat?_eq_some hrest₂]
  | true =>
    have hopened : r.advance.rest = '^' :: (text ++ ']' :: tail) := by simp [hr]
    have hcaret := eat?_eq_some hopened
    have hinside : r.advance.advance.rest = text ++ ']' :: tail := by
      rw [rest_advance, hopened, List.tail_cons]
    obtain ⟨r₂, hmany, hrest₂⟩ := many_classItem h hinside
    refine ⟨r₂.advance, ?_, by rw [rest_advance, hrest₂, List.tail_cons]⟩
    simp [bracketClass, hcaret, hmany, hitems, eat?_eq_some hrest₂]

/-! ### Repetitions -/

theorem quantifier_eq_some {kind : Repetition} {rest : List Char} (h : r.rest = kind.symbol :: rest) :
    quantifier r = (some kind, r.advance) := by
  cases kind <;> simp [quantifier, h, Repetition.symbol]

theorem quantifier_eq_none (h : Unrepeated r.rest) : quantifier r = (none, r) := by
  cases hkind : quantifier r with
  | mk x r' =>
    cases x with
    | none => rw [(of_quantifier_eq_none hkind).1]
    | some kind => exact absurd (by rw [of_quantifier_eq_some hkind, List.head?_cons]) (h kind)

theorem many_quantifier {kinds : List Repetition} {tail : List Char} (htail : Unrepeated tail)
    (hr : r.rest = kinds.map Repetition.symbol ++ tail) :
    ∃ r', many quantifier r = (kinds, r') ∧ r'.rest = tail := by
  induction kinds generalizing r with
  | nil =>
    have hrest : r.rest = tail := hr
    exact ⟨r, many_eq_nil (quantifier_eq_none (hrest ▸ htail)), hrest⟩
  | cons kind kinds ih =>
    obtain ⟨r', hmany, hrest⟩ := ih (r := r.advance) (by simp [hr])
    exact ⟨r', many_eq_cons (quantifier_eq_some hr) (by simp [hr]) hmany, hrest⟩

/-! ### Phrases -/

/-- The production for a phrase whose groups nest less than `depth` deep. -/
def production (depth : Nat) : Phrase → Production Pattern
  | .atom => atom (unionWithin depth)
  | .term => term (unionWithin depth)
  | .branch _ => concatenation (unionWithin depth)
  | .union _ => alternatives (unionWithin depth)

/-- The text ends a branch: it is the end of the pattern, of a group or of a branch before another. -/
def EndsTerms (tail : List Char) : Prop := ∀ c, tail.head? = some c → c = '|' ∨ c = ')'

/-- The text may follow such a phrase. -/
def Follows : Phrase → List Char → Prop
  | .atom, _ => True
  | .term, tail => Unrepeated tail
  | .branch mayBeEmpty, tail => EndsTerms tail ∧ (mayBeEmpty → endsBranch tail)
  | .union mayEndEmpty, tail =>
    EndsTerms tail ∧ tail.head? ≠ some '|' ∧ (mayEndEmpty → tail = [])

theorem EndsTerms.unrepeated {tail : List Char} (h : EndsTerms tail) : Unrepeated tail := by
  intro kind hhead
  have := h _ hhead
  cases kind <;> simp [Repetition.symbol] at this

theorem atom_literal {c : Char} {rest : List Char} (h : r.rest = c :: rest) (hc : c ∉ reserved)
    (hdot : c ≠ '.') : atom nested r = (some (.literal c), r.advance) := by
  have hmem : c ≠ '(' ∧ c ≠ '[' ∧ c ≠ '\\' := by
    refine ⟨?_, ?_, ?_⟩
    all_goals
      rintro rfl
      simp [reserved] at hc
  simp [atom, h, hmem, hdot, literalChar_eq_some h hc]

theorem atom_escape {c : Char} {rest : List Char} (h : r.rest = '\\' :: c :: rest) :
    atom nested r = (some (Pattern.ofEscape (escaped c)), r.advance.advance) := by
  simp [atom, h, escape_eq_some h]

theorem atom_class {negated : Bool} {text tail : List Char} {items : List ClassItem}
    (h : ClassText text items) (hne : items ≠ [])
    (hr : r.rest = '[' :: (if negated then ['^'] else []) ++ text ++ ']' :: tail) :
    ∃ r', atom nested r = (some (.charClass ⟨items, negated⟩), r') ∧ r'.rest = tail ∧
      r'.groups = r.groups := by
  obtain ⟨r', hclass, hrest⟩ := bracketClass_eq_some h hne hr
  exact ⟨r', by simp [atom, hr, hclass], hrest, uncounted_bracketClass r _ _ hclass⟩

theorem atom_group {inner : Pattern} {rest tail : List Char} (hr : r.rest = '(' :: rest)
    (h : nested { r.advance with groups := r.groups + 1 } = (some inner, r₁))
    (hrest : r₁.rest = ')' :: tail) :
    atom nested r = (some (.group (r.groups + 1) inner), r₁.advance) := by
  simp only [atom, hr, ↓reduceIte, group, h, eat?_eq_some hrest]

theorem term_eq_some {inner : Pattern} {kinds : List Repetition}
    (h : atom nested r = (some inner, r₁)) (hkinds : many quantifier r₁ = (kinds, r₂)) :
    term nested r = (some (inner.repeatedBy kinds), r₂) := by
  simp [term, h, hkinds]

/-- No term starts where a branch ends. -/
theorem term_eq_none (nested : Production Pattern) (h : EndsTerms r.rest) :
    ∃ r', term nested r = (none, r') ∧ r'.rest = r.rest ∧ r'.groups = r.groups := by
  have hparen : r.rest.head? ≠ some '(' := by
    intro hhead
    have := h _ hhead
    simp at this
  have hatom : ∃ r', atom nested r = (none, r') := by
    simp only [atom]
    split
    · exact ⟨r, rfl⟩
    · rename_i c rest hrest
      have hstuck : literalChar r = (none, r) := by
        refine literalChar_eq_none fun c' rest' hcons => ?_
        rcases h c' (by rw [hcons, List.head?_cons]) with rfl | rfl
        all_goals simp [reserved]
      rcases h c (by rw [hrest, List.head?_cons]) with rfl | rfl
      all_goals simp [hstuck]
  obtain ⟨r', hatom⟩ := hatom
  obtain ⟨hrest, hgroups⟩ := restores_atom r r' hatom
  exact ⟨r', by simp [term, hatom], hrest, hgroups hparen⟩

/-- A branch that was read is empty, or it is its first term and those behind it. -/
theorem of_concatenation_eq_some {a : Pattern} (h : concatenation nested r = (some a, r₂)) :
    r₂.rest = r.rest ∨
      ∃ first others r₁, term nested r = (some first, r₁) ∧
        many (term nested) r₁ = (others, r₂) ∧ a = first.concatOf others := by
  simp only [concatenation] at h
  split at h
  · rename_i r₁ hterm
    split at h
    · cases h
      exact .inl (restores_term r _ hterm).1
    · cases h
  · rename_i first r₁ hfirst
    cases h
    exact .inr ⟨first, _, r₁, hfirst, rfl, rfl⟩

theorem concatenation_eq_some {first : Pattern} {others : List Pattern}
    (h : term nested r = (some first, r₁)) (hmany : many (term nested) r₁ = (others, r₂)) :
    concatenation nested r = (some (first.concatOf others), r₂) := by
  simp [concatenation, h, hmany]

theorem of_alternatives_eq_some {a : Pattern} (h : alternatives nested r = (some a, r₂)) :
    ∃ first others r₁, concatenation nested r = (some first, r₁) ∧
      moreBranches nested r₁ = (some others, r₂) ∧ a = first.unionOf others := by
  simp only [alternatives] at h
  split at h
  · cases h
  · rename_i first r₁ hfirst
    split at h
    · cases h
    · rename_i others _ hothers
      cases h
      exact ⟨first, others, r₁, hfirst, hothers, rfl⟩

theorem alternatives_eq_some {first : Pattern} {others : List Pattern}
    (h : concatenation nested r = (some first, r₁)) (hmore : moreBranches nested r₁ = (some others, r₂)) :
    alternatives nested r = (some (first.unionOf others), r₂) := by
  simp [alternatives, h, hmore]

theorem moreBranches_eq_nil (nested : Production Pattern) (h : r.rest.head? ≠ some '|') :
    moreBranches nested r = (some [], r) := by
  rw [moreBranches, eat?_eq_none h]

theorem moreBranches_eq_cons {branch : Pattern} {others : List Pattern} (hbar : r.eat? '|' = some r₁)
    {r₃ : Reader} (hbranch : concatenation nested r₁ = (some branch, r₂))
    (hlt : r₂.rest.length < r.rest.length) (hmore : moreBranches nested r₂ = (some others, r₃)) :
    moreBranches nested r = (some (branch :: others), r₃) := by
  rw [moreBranches, hbar]
  simp only [hbranch, hlt, ↓reduceIte, hmore]

/-- The phrase is read, with this tree, wherever a text stands behind it that may follow. -/
def IsRead (phrase : Phrase) (n : Nat) (text : List Char) (a : Pattern) (m : Nat) : Prop :=
  ∀ depth r tail, text.length ≤ depth → r.rest = text ++ tail → r.groups = n → Follows phrase tail →
    ∃ r', production depth phrase r = (some a, r') ∧ r'.rest = tail ∧ r'.groups = m

section IsRead

variable {n m k : Nat} {text text' : List Char} {inner first rest : Pattern}

theorem isRead_escape {c : Char} : IsRead .atom n ['\\', c] (Pattern.ofEscape (escaped c)) n := by
  intro depth r tail _ hr hn _
  exact ⟨r.advance.advance, atom_escape hr, by simp [hr], hn⟩

theorem isRead_class {negated : Bool} {items : List ClassItem} (h : ClassText text items)
    (hne : items ≠ []) :
    IsRead .atom n ('[' :: (if negated then ['^'] else []) ++ text ++ [']'])
      (.charClass ⟨items, negated⟩) n := by
  intro depth r tail _ hr hn _
  exact hn ▸ atom_class h hne (by simpa using hr)

/-- The inside of a group is shorter than the group, so it is read one level deeper. -/
theorem IsRead.group (h : IsRead (.union false) (n + 1) text inner m) :
    IsRead .atom n ('(' :: text ++ [')']) (.group (n + 1) inner) m := by
  intro depth r tail hdepth hr hn _
  simp only [List.cons_append, List.length_cons, List.length_append, List.length_nil] at hdepth
  obtain ⟨inside, rfl⟩ : ∃ inside, depth = inside + 1 := Nat.exists_eq_add_one.mpr (by omega)
  have hclose : Follows (.union false) (')' :: tail) := by simp [Follows, EndsTerms]
  obtain ⟨r₁, hread, hrest₁, hgroups₁⟩ :=
    h inside { r.advance with groups := r.groups + 1 } (')' :: tail) (by omega) (by simp [hr])
      (by simp [hn]) hclose
  exact ⟨r₁.advance, hn ▸ atom_group hr hread hrest₁, by simp [hrest₁], hgroups₁⟩

theorem IsRead.term (h : IsRead .atom n text inner m) (kinds : List Repetition) :
    IsRead .term n (text ++ kinds.map Repetition.symbol) (inner.repeatedBy kinds) m := by
  intro depth r tail hdepth hr hn hend
  rw [List.append_assoc] at hr
  rw [List.length_append] at hdepth
  obtain ⟨r₁, hatom, hrest₁, hgroups₁⟩ := h depth r _ (by omega) hr hn trivial
  obtain ⟨r₂, hkinds, hrest₂⟩ := many_quantifier hend hrest₁
  have hgroups₂ : r₂.groups = r₁.groups := by
    simpa [hkinds] using uncounted_quantifier.many r₁
  exact ⟨r₂, term_eq_some hatom hkinds, hrest₂, hgroups₂.trans hgroups₁⟩

theorem isRead_empty : IsRead (.branch true) n [] .empty n := by
  intro depth r tail _ hr hn hend
  obtain ⟨hends, hempty⟩ := hend
  have hrest : r.rest = tail := hr
  obtain ⟨r', hterm, hrest', hgroups⟩ := term_eq_none (unionWithin depth) (hrest ▸ hends)
  have hbar : r'.rest = [] ∨ r'.rest.head? = some '|' := by
    simpa [endsBranch, hrest', hrest] using hempty rfl
  refine ⟨r', ?_, hrest'.trans hrest, hgroups.trans hn⟩
  simp [production, concatenation, hterm, hbar]

theorem IsRead.single {mayBeEmpty : Bool} (h : IsRead .term n text first m) :
    IsRead (.branch mayBeEmpty) n text first m := by
  intro depth r tail hdepth hr hn hend
  obtain ⟨r₁, hterm, hrest₁, hgroups₁⟩ := h depth r tail hdepth hr hn hend.1.unrepeated
  obtain ⟨r₂, hnone, hrest₂, hgroups₂⟩ :=
    term_eq_none (unionWithin depth) (hrest₁.symm ▸ hend.1)
  have hbranch := concatenation_eq_some hterm (many_eq_nil hnone)
  exact ⟨r₂, hbranch, hrest₂.trans hrest₁, hgroups₂.trans hgroups₁⟩

/-- The branch behind the first term is not empty, so the terms of both are read in one round. -/
theorem IsRead.concat {mayBeEmpty : Bool} (h : IsRead .term n text first m) (hstart : Unrepeated text')
    (hne : text' ≠ []) (h' : IsRead (.branch false) m text' rest k) :
    IsRead (.branch mayBeEmpty) n (text ++ text') (.concat first rest) k := by
  intro depth r tail hdepth hr hn hend
  rw [List.append_assoc] at hr
  rw [List.length_append] at hdepth
  have hunrepeated : Unrepeated (text' ++ tail) := by
    intro kind
    rw [List.head?_append_of_ne_nil _ hne]
    exact hstart kind
  obtain ⟨r₁, hterm, hrest₁, hgroups₁⟩ := h depth r _ (by omega) hr hn hunrepeated
  obtain ⟨r', hbranch, hrest', hgroups'⟩ := h' depth r₁ tail (by omega) hrest₁ hgroups₁ ⟨hend.1, by simp⟩
  rcases of_concatenation_eq_some hbranch with hsame | ⟨next, others, r₂, hnext, hothers, rfl⟩
  · rw [hrest', hrest₁, List.self_eq_append_left] at hsame
    exact absurd hsame hne
  · have hlt := (readsBefore_unionWithin depth).length_term hnext
    exact ⟨r', concatenation_eq_some hterm (many_eq_cons hnext hlt hothers), hrest', hgroups'⟩

theorem IsRead.last {mayEndEmpty : Bool} (h : IsRead (.branch mayEndEmpty) n text first m) :
    IsRead (.union mayEndEmpty) n text first m := by
  intro depth r tail hdepth hr hn hend
  obtain ⟨hends, hbar, hempty⟩ := hend
  have hfollows : Follows (.branch mayEndEmpty) tail :=
    ⟨hends, fun he => by simp [hempty he, endsBranch]⟩
  obtain ⟨r₁, hbranch, hrest₁, hgroups₁⟩ := h depth r tail hdepth hr hn hfollows
  have hmore := moreBranches_eq_nil (unionWithin depth) (hrest₁.symm ▸ hbar)
  exact ⟨r₁, alternatives_eq_some hbranch hmore, hrest₁, hgroups₁⟩

theorem IsRead.union {mayEndEmpty : Bool} (h : IsRead (.branch true) n text first m)
    (h' : IsRead (.union mayEndEmpty) m text' rest k) :
    IsRead (.union mayEndEmpty) n (text ++ '|' :: text') (.union first rest) k := by
  intro depth r tail hdepth hr hn hend
  rw [List.append_assoc, List.cons_append] at hr
  rw [List.length_append, List.length_cons] at hdepth
  have hfollows : Follows (.branch true) ('|' :: (text' ++ tail)) := by
    simp [Follows, EndsTerms, endsBranch]
  obtain ⟨r₁, hfirst, hrest₁, hgroups₁⟩ := h depth r _ (by omega) hr hn hfollows
  obtain ⟨r', hunion, hrest', hgroups'⟩ :=
    h' depth r₁.advance tail (by omega) (by simp [hrest₁]) hgroups₁ hend
  obtain ⟨next, others, r₂, hnext, hothers, rfl⟩ := of_alternatives_eq_some hunion
  obtain ⟨text₂, hrest₂, -⟩ := (readsBefore_unionWithin depth).concatenation _ _ _ hnext
  have hlt : r₂.rest.length < r₁.rest.length := by
    have hlength := congrArg List.length hrest₂
    simp only [rest_advance, List.length_tail, List.length_append, hrest₁, List.length_cons] at hlength ⊢
    omega
  have hmore := moreBranches_eq_cons (eat?_eq_some hrest₁) hnext hlt hothers
  exact ⟨r', alternatives_eq_some hfirst hmore, hrest', hgroups'⟩

end IsRead

theorem isRead_of_derives {phrase : Phrase} {n m : Nat} {text : List Char} {a : Pattern}
    (h : Derives phrase n text a m) : IsRead phrase n text a m := by
  induction h with
  | literal hc hdot =>
    intro depth r tail _ hr hn _
    exact ⟨r.advance, atom_literal hr hc hdot, by simp [hr], hn⟩
  | dot =>
    intro depth r tail _ hr hn _
    exact ⟨r.advance, by simp [production, atom, hr], by simp [hr], hn⟩
  | whitespace => exact isRead_escape
  | notWhitespace => exact isRead_escape
  | @escaped n c hs hS =>
    have hread : IsRead .atom n ['\\', c] (Pattern.ofEscape (escaped c)) n := isRead_escape
    rw [escaped_of_ne hs hS] at hread
    exact hread
  | charClass h hne => exact isRead_class h hne
  | group h ih => exact ih.group
  | term h kinds ih => exact ih.term kinds
  | empty => exact isRead_empty
  | single h ih => exact ih.single
  | concat h hstart h' ih ih' => exact ih.concat hstart h'.branch_ne_nil ih'
  | last h ih => exact ih.last
  | union h h' ih ih' => exact ih.union ih'

theorem follows_nil (phrase : Phrase) : Follows phrase [] := by
  cases phrase <;> simp [Follows, Unrepeated, EndsTerms, endsBranch]

end Reader

/-- The grammar is unambiguous: a phrase has one tree. -/
theorem Grammar.Derives.unique {phrase : Phrase} {n m k : Nat} {text : List Char} {a b : Pattern}
    (h : Derives phrase n text a m) (h' : Derives phrase n text b k) : a = b ∧ m = k := by
  have hrest : text = text ++ [] := (List.append_nil text).symm
  obtain ⟨r₁, hread, -, hgroups⟩ :=
    Reader.isRead_of_derives h text.length ⟨text, 0, n, none⟩ [] (Nat.le_refl _) hrest rfl
      (Reader.follows_nil phrase)
  obtain ⟨r₂, hread', -, hgroups'⟩ :=
    Reader.isRead_of_derives h' text.length ⟨text, 0, n, none⟩ [] (Nat.le_refl _) hrest rfl
      (Reader.follows_nil phrase)
  rw [hread, Prod.mk.injEq, Option.some_inj] at hread'
  obtain ⟨rfl, rfl⟩ := hread'
  exact ⟨rfl, hgroups.symm.trans hgroups'⟩

end PatternAutomata
