import PatternAutomata.Proofs.Scanning

/-!
# Failures lie where the scan stops

Most productions put the reader back when they fail, and what is tried next may fail earlier. The reader
keeps the failure that got furthest, so a production is told by how far it has scanned the text when it
succeeds, and when it fails, by a failure at a place behind which the scan does not get on.

Failing is part of reading: a branch ends where no term can be read. At a bar, at a closing parenthesis and
at the end of the text that is no harm. Anywhere else the failure is known by then that the whole text is
going to be blamed for.
-/

namespace PatternAutomata

open Grammar

/-- The text does not go on from here as a pattern. Either it ends where no pattern does, or its next
character fits nowhere, or this is a backslash with nothing behind it. -/
inductive Blocks : Scan → List Char → SyntaxFault → Prop
  | ended {s : Scan} {fault : SyntaxFault} (h : ¬s.Whole) : Blocks s [] fault
  | barred {s : Scan} {c : Char} {tail : List Char} {fault : SyntaxFault} (h : s.step? c = none) :
      Blocks s (c :: tail) fault
  | dangling {s : Scan} (h : s.mode.waits = false) : Blocks s ['\\'] .danglingEscape

theorem Blocks.not_whole {s s' : Scan} {rest : List Char} {fault : SyntaxFault} (h : Blocks s rest fault)
    (hs : s.scan? rest = some s') : ¬s'.Whole := by
  cases h with
  | ended h =>
    cases hs
    exact h
  | barred h =>
    rw [Scan.scan?_cons, h] at hs
    cases hs
  | dangling h =>
    obtain ⟨between, hstep, hnil⟩ := Option.bind_eq_some_iff.mp (Scan.scan?_cons ▸ hs)
    cases hnil
    rintro ⟨-, houtside⟩
    have hwaits := Scan.waits_step hstep
    rw [ScanMode.waits_of_outside houtside, h] at hwaits
    cases hwaits

namespace Reader

variable {r r' r₁ r₂ : Reader} {s s₁ s₂ : Scan} {c : Char} {tail : List Char} {offset d n : Nat}
  {mode : ScanMode} {fault : SyntaxFault} {failure : Option SyntaxError} {e : SyntaxError}

@[simp] theorem offset_fail (r : Reader) (fault : SyntaxFault) (offset : Nat) :
    (r.fail fault offset).offset = r.offset := by
  simp only [fail]
  split
  · split <;> rfl
  · rfl

theorem eq_advance_of_eat? (h : r.eat? c = some r') : r' = r.advance := by
  simp only [eat?, Option.ite_none_right_eq_some, Option.some.injEq] at h
  exact h.2.symm

/-! ### Failures -/

/-- What is known to have failed lies before this offset. -/
def FailsBefore (r : Reader) (offset : Nat) : Prop := ∀ e, r.failure = some e → e.offset < offset

theorem FailsBefore.mono {offset' : Nat} (h : r.FailsBefore offset) (hle : offset ≤ offset')
    (hf : r'.failure = r.failure) : r'.FailsBefore offset' :=
  fun e he => Nat.lt_of_lt_of_le (h e (hf ▸ he)) hle

theorem failsBefore_of_eq (h : r.failure = some e) (hlt : e.offset < offset) : r.FailsBefore offset := by
  intro e' he'
  rw [h] at he'
  cases he'
  exact hlt

/-- The first failure at a place is kept. -/
theorem failure_fail (h : r.FailsBefore offset) :
    (r.fail fault offset).failure = some ⟨fault, offset⟩ := by
  simp only [fail]
  split
  · rename_i known hknown
    rw [if_pos (h known hknown)]
  · rfl

theorem fail_eq_self (h : r.failure = some e) (hle : offset ≤ e.offset) : r.fail fault offset = r := by
  simp only [fail, h]
  rw [if_neg (Nat.not_lt.mpr hle)]

/-- A failure gives way to none that is closer to the start. -/
theorem failure_fail_cases (r : Reader) (fault : SyntaxFault) (offset : Nat) :
    (∃ e, r.failure = some e ∧ offset ≤ e.offset ∧ r.fail fault offset = r) ∨
      r.FailsBefore offset ∧ (r.fail fault offset).failure = some ⟨fault, offset⟩ := by
  by_cases h : r.FailsBefore offset
  · exact .inr ⟨h, failure_fail h⟩
  · simp only [FailsBefore, not_forall] at h
    obtain ⟨e, he, hle⟩ := h
    exact .inl ⟨e, he, Nat.not_lt.mp hle, fail_eq_self he (Nat.not_lt.mp hle)⟩

theorem exists_failure_fail (h : r.FailsBefore (offset + 1)) :
    ∃ e, (r.fail fault offset).failure = some e ∧ e.offset = offset := by
  rcases failure_fail_cases r fault offset with ⟨e, he, hle, hsame⟩ | ⟨-, hfail⟩
  · have hlt := h e he
    exact ⟨e, by rw [hsame, he], by omega⟩
  · exact ⟨_, hfail, rfl⟩

/-- The reader has got from one place to another, and a scan has got from one state to another. -/
def Reaches (s : Scan) (r : Reader) (s' : Scan) (r' : Reader) : Prop :=
  ∃ text, r.rest = text ++ r'.rest ∧ r'.offset = r.offset + text.length ∧ s.scan? text = some s'

theorem reaches_of_eq (hrest : r'.rest = r.rest) (hoffset : r'.offset = r.offset) : Reaches s r s r' :=
  ⟨[], hrest.symm, hoffset, rfl⟩

theorem Reaches.trans (h : Reaches s r s₁ r₁) (h' : Reaches s₁ r₁ s₂ r₂) : Reaches s r s₂ r₂ := by
  obtain ⟨text, hrest, hoffset, hscan⟩ := h
  obtain ⟨text', hrest', hoffset', hscan'⟩ := h'
  refine ⟨text ++ text', by rw [hrest, hrest', List.append_assoc], ?_, ?_⟩
  · rw [hoffset', hoffset, List.length_append, Nat.add_assoc]
  · rw [Scan.scan?_append, hscan]
    exact hscan'

theorem reaches_advance (h : r.rest = c :: tail) (hs : s.step? c = some s₁) :
    Reaches s r s₁ r.advance := by
  refine ⟨[c], by rw [rest_advance, h]; rfl, rfl, ?_⟩
  rw [Scan.scan?_cons, hs]
  rfl

theorem Reaches.length_le (h : Reaches s r s₁ r₁) : r₁.rest.length ≤ r.rest.length := by
  obtain ⟨text, hrest, -, -⟩ := h
  rw [hrest, List.length_append]
  exact Nat.le_add_left _ _

theorem Reaches.offset_le (h : Reaches s r s₁ r₁) : r.offset ≤ r₁.offset := by
  obtain ⟨text, -, hoffset, -⟩ := h
  omega

/-- The failure lies where the scan that starts here does not get on. -/
def Blames (s : Scan) (r : Reader) (failure : Option SyntaxError) : Prop :=
  ∃ e s' r', failure = some e ∧ Reaches s r s' r' ∧ e.offset = r'.offset ∧ Blocks s' r'.rest e.fault

theorem Reaches.blames (h : Reaches s r s₁ r₁) (hb : Blames s₁ r₁ failure) : Blames s r failure := by
  obtain ⟨e, s', r', he, hreaches, hoffset, hblocks⟩ := hb
  exact ⟨e, s', r', he, h.trans hreaches, hoffset, hblocks⟩

theorem blames_of_eq (he : failure = some e) (hoffset : e.offset = r.offset)
    (hb : Blocks s r.rest e.fault) : Blames s r failure :=
  ⟨e, s, r, he, reaches_of_eq rfl rfl, hoffset, hb⟩

/-- If nothing failed further on, this failure is reported or another one at the same place. -/
theorem blames_fail (h : r.FailsBefore (r.offset + 1)) (hb : ∀ fault, Blocks s r.rest fault) :
    Blames s r (r.fail fault r.offset).failure := by
  obtain ⟨e, he, hoffset⟩ := exists_failure_fail h
  exact blames_of_eq he hoffset (hb e.fault)

/-- A later failure at an earlier place is not reported. -/
theorem Blames.fail_eq_self (h : Blames s r r'.failure) (hle : offset ≤ r.offset) :
    r'.fail fault offset = r' := by
  obtain ⟨e, s', r₁, he, hreaches, hoffset, -⟩ := h
  have := hreaches.offset_le
  exact Reader.fail_eq_self he (by omega)

/-! ### Classes -/

/-- No item of a class can be read here, and what failed before lies further back, unless it is the
backslash that stands here. -/
inductive NoItem (r : Reader) : Prop
  | reserved (hf : r.FailsBefore r.offset)
      (h : ∀ c tail, r.rest = c :: tail → c ∈ Grammar.reserved ∧ c ≠ '\\')
  | dangling (hf : r.failure = some ⟨.danglingEscape, r.offset⟩) (h : r.rest = ['\\'])

theorem classRange_eq_none_of_reserved (h : ∀ c tail, r.rest = c :: tail → c ∈ reserved) :
    classRange r = (none, r) :=
  classRange_eq_none fun lo _ _ hrest => .inl (h lo _ hrest)

theorem classItem_eq_none_of_reserved (h : ∀ c tail, r.rest = c :: tail → c ∈ reserved ∧ c ≠ '\\') :
    classItem r = (none, r) := by
  have hstuck : ∀ c tail, r.rest = c :: tail → c ∈ reserved := fun c tail hrest => (h c tail hrest).1
  have hbackslash : r.rest.head? ≠ some '\\' := fun hhead =>
    (h '\\' _ (List.eq_cons_of_mem_head? hhead)).2 rfl
  simp [classItem, classRange_eq_none_of_reserved hstuck, escape_eq_none hbackslash,
    literalChar_eq_none hstuck]

theorem escape_dangling (h : r.rest = ['\\']) : escape r = (none, r.fail .danglingEscape r.offset) := by
  simp [escape, eat?_eq_some h, h]

theorem classItem_dangling (h : r.rest = ['\\']) :
    classItem r = (none, r.fail .danglingEscape r.offset) := by
  have hstuck : ∀ c tail, r.rest = c :: tail → c ∈ reserved := by
    intro c tail hrest
    rw [h, List.cons_eq_cons] at hrest
    simp [← hrest.1, reserved]
  have hstuck' : ∀ c tail, (r.fail .danglingEscape r.offset).rest = c :: tail → c ∈ reserved := by
    rw [rest_fail]
    exact hstuck
  simp [classItem, classRange_eq_none_of_reserved hstuck, escape_dangling h, literalChar_eq_none hstuck']

/-- An item is read as it is scanned, or there is none. -/
theorem classItem_cases (r : Reader) (hf : r.FailsBefore r.offset) :
    (∃ item r', classItem r = (some item, r') ∧ r'.failure = r.failure ∧
      ∀ d mode, mode.inClass → Reaches ⟨d, mode⟩ r ⟨d, .items⟩ r') ∨
    ∃ r', classItem r = (none, r') ∧ r'.rest = r.rest ∧ r'.offset = r.offset ∧ NoItem r' := by
  cases hrest : r.rest with
  | nil =>
    have hstuck : ∀ c tail, r.rest = c :: tail → c ∈ reserved ∧ c ≠ '\\' := by simp [hrest]
    exact .inr ⟨r, classItem_eq_none_of_reserved hstuck, hrest, rfl, .reserved hf hstuck⟩
  | cons c tail =>
    by_cases hc : c ∈ reserved
    · by_cases hbackslash : c = '\\'
      · subst hbackslash
        cases tail with
        | nil =>
          refine .inr ⟨_, classItem_dangling hrest, by rw [rest_fail, hrest], offset_fail r _ _, ?_⟩
          exact .dangling (by rw [failure_fail hf, offset_fail]) (by rw [rest_fail, hrest])
        | cons c tail =>
          refine .inl ⟨_, _, classItem_escape hrest, rfl, fun d mode hmode => ?_⟩
          have hnext : r.advance.rest = c :: tail := by rw [rest_advance, hrest, List.tail_cons]
          exact (reaches_advance hrest (Scan.step?_itemBackslash hmode)).trans (reaches_advance hnext rfl)
      · have hstuck : ∀ c tail, r.rest = c :: tail → c ∈ reserved ∧ c ≠ '\\' := by
          intro c' tail' hrest'
          rw [hrest, List.cons_eq_cons] at hrest'
          exact hrest'.1 ▸ ⟨hc, hbackslash⟩
        exact .inr ⟨r, classItem_eq_none_of_reserved hstuck, hrest, rfl, .reserved hf hstuck⟩
    · by_cases hrange : ∃ hi tail', hi ∉ reserved ∧ tail = '-' :: hi :: tail'
      · obtain ⟨hi, tail, hhi, rfl⟩ := hrange
        refine .inl ⟨_, _, classItem_range hrest hc hhi, rfl, fun d mode hmode => ?_⟩
        have hdash : r.advance.rest = '-' :: hi :: tail := by rw [rest_advance, hrest, List.tail_cons]
        have hbound : r.advance.advance.rest = hi :: tail := by rw [rest_advance, hdash, List.tail_cons]
        exact (reaches_advance hrest (Scan.step?_item hmode hc)).trans
          ((reaches_advance hdash (Scan.step?_item rfl (by decide))).trans
            (reaches_advance hbound (Scan.step?_item rfl hhi)))
      · have hdash : ∀ hi tail', tail = '-' :: hi :: tail' → hi ∈ reserved := by
          intro hi tail' htail
          by_contra hhi
          exact hrange ⟨hi, tail', hhi, htail⟩
        exact .inl ⟨_, _, classItem_literal hrest hc hdash, rfl, fun d mode hmode =>
          reaches_advance hrest (Scan.step?_item hmode hc)⟩

/-- The items of a class are read as they are scanned. -/
theorem many_classItem_reaches (d : Nat) (r : Reader) (hf : r.FailsBefore r.offset) (hm : mode.inClass) :
    Reaches ⟨d, mode⟩ r ⟨d, if (many classItem r).1 = [] then mode else .items⟩ (many classItem r).2 ∧
      ((many classItem r).1 = [] → (many classItem r).2.rest = r.rest) ∧
        NoItem (many classItem r).2 := by
  induction r using many.induct classItem generalizing mode with
  | case1 r r₁ hp =>
    rw [many_eq_nil hp, if_pos rfl]
    rcases classItem_cases r hf with ⟨item, r', hitem, -⟩ | ⟨r', hitem, hrest, hoffset, hnone⟩
    · rw [hp] at hitem
      cases hitem
    · rw [hp] at hitem
      cases hitem
      exact ⟨reaches_of_eq hrest hoffset, fun _ => hrest, hnone⟩
  | case2 r item r₁ hp hlt items r₂ hmany ih =>
    rw [many_eq_cons hp hlt hmany, if_neg (List.cons_ne_nil item items)]
    rcases classItem_cases r hf with ⟨item', r', hitem, hfailure, hreaches⟩ | ⟨r', hitem, -⟩
    · rw [hp] at hitem
      cases hitem
      have hstep := hreaches d mode hm
      obtain ⟨hmore, -, hnone⟩ := ih (hf.mono hstep.offset_le hfailure) (rfl : ScanMode.items.inClass)
      rw [hmany, ite_self] at hmore
      rw [hmany] at hnone
      exact ⟨hstep.trans hmore, by simp, hnone⟩
    · rw [hp] at hitem
      cases hitem
  | case3 r item r₁ hp hlt =>
    obtain ⟨text, hsplit, hne, -⟩ := of_classItem_eq_some hp
    have hpos := List.length_pos_iff.mpr hne
    rw [hsplit, List.length_append] at hlt
    omega

/-- Whatever is missing behind the items of a class, it is missing where they end. -/
theorem NoItem.blames (h : NoItem r) (hm : mode.inClass) (hcaret : mode = .opened → r.rest.head? ≠ some '^')
    (hclose : mode = .items → r.rest.head? ≠ some ']') :
    Blames ⟨d, mode⟩ r (r.fail fault r.offset).failure := by
  cases h with
  | reserved hf h =>
    refine blames_fail (hf.mono (Nat.le_succ _) rfl) fun fault => ?_
    cases hrest : r.rest with
    | nil =>
      refine .ended fun hwhole => ?_
      have houtside : mode.outside = true := hwhole.2
      rw [ScanMode.outside_of_inClass hm] at houtside
      cases houtside
    | cons c tail =>
      obtain ⟨hc, hbackslash⟩ := h c tail hrest
      refine .barred (Scan.step?_class_eq_none hm hc hbackslash (fun heq => ?_) fun heq => ?_)
      · simpa [hrest] using hcaret heq
      · simpa [hrest] using hclose heq
  | dangling hf h =>
    rw [fail_eq_self hf (Nat.le_refl _), hf]
    exact blames_of_eq rfl rfl (h ▸ .dangling (ScanMode.waits_of_inClass hm))

/-! ### Atoms and terms -/

/-- Where the terms of a branch end, what failed there is known, or what failed further on. -/
inductive Stops (s : Scan) (r : Reader) : Prop
  | ended (hf : r.FailsBefore (r.offset + 1)) (h : r.rest = [])
  | before {c : Char} {tail : List Char} {e : SyntaxError} (he : r.failure = some e)
      (hoffset : e.offset = r.offset) (h : r.rest = c :: tail) (hc : c = '|' ∨ c = ')')
  | blames (hb : Blames s r r.failure) (h : ¬EndsTerms r.rest)

/-- A term is read as it is scanned, or there is none. -/
def Places (d : Nat) (mode : ScanMode) (r : Reader) : Option Pattern × Reader → Prop
  | (some _, r') => Reaches ⟨d, mode⟩ r ⟨d, .term⟩ r' ∧ r'.FailsBefore r'.offset
  | (none, r') => r'.rest = r.rest ∧ r'.offset = r.offset ∧ Stops ⟨d, mode⟩ r'

theorem not_endsTerms (h : r.rest = c :: tail) (hc : c ≠ '|' ∧ c ≠ ')') : ¬EndsTerms r.rest := by
  intro hends
  have := hends c (by rw [h, List.head?_cons])
  tauto

/-- At a bar or a closing parenthesis it is known that no term starts. -/
theorem Stops.failsBefore (h : Stops s r) (hrest : r.rest = c :: tail) (hc : c = '|' ∨ c = ')') :
    r.advance.FailsBefore r.advance.offset := by
  cases h with
  | ended _ hnil =>
    rw [hnil] at hrest
    cases hrest
  | before he hoffset _ _ => exact failsBefore_of_eq he (hoffset ▸ Nat.lt_succ_self _)
  | blames _ hends =>
    refine (hends fun c' hc' => ?_).elim
    rw [hrest, List.head?_cons, Option.some_inj] at hc'
    exact hc' ▸ hc

/-- The reader is put back to where the term should start. -/
theorem Blames.places (h : Blames ⟨d, mode⟩ r failure) (hrest : r.rest = c :: tail)
    (hc : c ≠ '|' ∧ c ≠ ')') (hr' : r'.rest = r.rest) (hoffset : r'.offset = r.offset)
    (hf : r'.failure = failure) : Places d mode r (none, r') := by
  refine ⟨hr', hoffset, .blames ?_ (hr' ▸ not_endsTerms hrest hc)⟩
  rw [hf]
  exact (reaches_of_eq hr'.symm hoffset.symm).blames h

/-- A class from behind its opening on, where `start` is the place of the bracket. -/
def closeClass (start : Reader) (negated : Bool) : Production Pattern := fun r =>
  let (items, r₁) := many classItem r
  if items.isEmpty then (none, (r₁.fail .missingClassItem r₁.offset).rewind start)
  else
    match r₁.eat? ']' with
    | none => (none, (r₁.fail .unclosedClass r₁.offset).rewind start)
    | some r₂ => (some (.charClass ⟨items, negated⟩), r₂)

theorem bracketClass_eq (r : Reader) : bracketClass r =
    match r.advance.eat? '^' with
    | some r₁ => closeClass r true r₁
    | none => closeClass r false r.advance := by
  cases heat : r.advance.eat? '^' with
  | none =>
    cases hclose : (many classItem r.advance).2.eat? ']' <;> simp [bracketClass, closeClass, heat, hclose]
  | some r₁ =>
    cases hclose : (many classItem r₁).2.eat? ']' <;> simp [bracketClass, closeClass, heat, hclose]

theorem places_closeClass {start : Reader} {mode₀ : ScanMode} {negated : Bool}
    (hopen : start.rest = '[' :: tail) (h : Reaches ⟨d, mode₀⟩ start ⟨d, mode⟩ r)
    (hf : r.FailsBefore r.offset) (hm : mode.inClass) (hcaret : mode = .opened → r.rest.head? ≠ some '^')
    (hempty : mode ≠ .items) : Places d mode₀ start (closeClass start negated r) := by
  obtain ⟨hitems, hsame, hnone⟩ := many_classItem_reaches d r hf hm
  simp only [closeClass]
  generalize many classItem r = found at *
  obtain ⟨items, r₁⟩ := found
  dsimp only at *
  by_cases hne : items = []
  · have hblames : Blames ⟨d, mode⟩ r₁ (r₁.fail .missingClassItem r₁.offset).failure :=
      hnone.blames hm (hsame hne ▸ hcaret) fun heq => (hempty heq).elim
    rw [if_pos (List.isEmpty_iff.mpr hne)]
    rw [if_pos hne] at hitems
    exact ((h.trans hitems).blames hblames).places hopen (by decide) rfl rfl rfl
  · rw [if_neg (by simpa using hne)]
    rw [if_neg hne] at hitems
    split
    · rename_i heat
      have hblames : Blames ⟨d, .items⟩ r₁ (r₁.fail .unclosedClass r₁.offset).failure :=
        hnone.blames rfl (by simp) fun _ => head?_of_eat?_eq_none heat
      exact ((h.trans hitems).blames hblames).places hopen (by decide) rfl rfl rfl
    · rename_i r₂ heat
      have hclose := reaches_advance (rest_of_eat? heat) (Scan.step?_class_close (d := d))
      rw [eq_advance_of_eat? heat]
      refine ⟨h.trans (hitems.trans hclose), ?_⟩
      cases hnone with
      | reserved hf h => exact hf.mono (Nat.le_succ _) rfl
      | dangling hf h => exact failsBefore_of_eq hf (Nat.lt_succ_self _)

theorem places_bracketClass (h : r.rest = '[' :: tail) (hf : r.FailsBefore r.offset) (hm : mode.outside) :
    Places d mode r (bracketClass r) := by
  have hopen : Reaches ⟨d, mode⟩ r ⟨d, .opened⟩ r.advance := reaches_advance h (Scan.step?_bracket hm)
  have hopenf : r.advance.FailsBefore r.advance.offset := hf.mono (Nat.le_succ _) rfl
  rw [bracketClass_eq]
  split
  · rename_i r₁ heat
    have hcaret := reaches_advance (rest_of_eat? heat) (Scan.step?_caret (d := d))
    rw [← eq_advance_of_eat? heat] at hcaret
    have hf₁ : r₁.FailsBefore r₁.offset := by
      rw [eq_advance_of_eat? heat]
      exact hopenf.mono (Nat.le_succ _) rfl
    exact places_closeClass h (hopen.trans hcaret) hf₁ rfl (by simp) (by simp)
  · rename_i heat
    exact places_closeClass h hopen hopenf rfl (fun _ => head?_of_eat?_eq_none heat) (by simp)

theorem places_escape (h : r.rest = '\\' :: tail) (hf : r.FailsBefore r.offset) (hm : mode.outside) :
    Places d mode r (match escape r with
      | (some item, r₁) => (some (Pattern.ofEscape item), r₁)
      | (none, r₁) => (none, r₁)) := by
  have hstep : Reaches ⟨d, mode⟩ r ⟨d, .escape⟩ r.advance := reaches_advance h (Scan.step?_backslash hm)
  cases tail with
  | nil =>
    have hblames : Blames ⟨d, mode⟩ r (r.fail .danglingEscape r.offset).failure :=
      blames_of_eq (failure_fail hf) rfl (h ▸ .dangling (ScanMode.waits_of_outside hm))
    rw [escape_dangling h]
    exact hblames.places h (by decide) (rest_fail r _ _) (offset_fail r _ _) rfl
  | cons c tail =>
    have hnext : r.advance.rest = c :: tail := by rw [rest_advance, h, List.tail_cons]
    rw [escape_eq_some h]
    exact ⟨hstep.trans (reaches_advance hnext rfl), hf.mono (Nat.le_add_right _ 2) rfl⟩

/-! ### Branches and unions -/

/-- Where a branch ends. An empty one does not end before a parenthesis. -/
structure Halts (d : Nat) (mode : ScanMode) (r : Reader) : Prop where
  outside : mode.outside
  stops : Stops ⟨d, mode⟩ r
  not_closed : mode = .branch → r.rest.head? ≠ some ')'

/-- A branch is read as it is scanned, or the failure tells why it cannot be. -/
def Branches (d : Nat) (r : Reader) : Option Pattern × Reader → Prop
  | (some _, r') => ∃ mode, Reaches ⟨d, .branch⟩ r ⟨d, mode⟩ r' ∧ Halts d mode r'
  | (none, r') => r'.rest = r.rest ∧ r'.offset = r.offset ∧ Blames ⟨d, .branch⟩ r r'.failure

/-- A union takes all branches that there are. -/
def Unions (d : Nat) (r : Reader) (result : Option Pattern × Reader) : Prop :=
  Branches d r result ∧ (result.1.isSome → result.2.rest.head? ≠ some '|')

/-- What is known of the inside of groups, if they nest less than `n` deep. -/
def Accounts (n : Nat) : Prop :=
  ∀ d r, r.rest.length < n → r.FailsBefore r.offset → Unions d r (unionWithin n r)

theorem Accounts.places_group (h : Accounts n) (hr : r.rest = '(' :: tail) (hn : r.rest.length ≤ n)
    (hf : r.FailsBefore r.offset) (hm : mode.outside) :
    Places d mode r (group (unionWithin n) r) := by
  have hopen : Reaches ⟨d, mode⟩ r ⟨d + 1, .branch⟩ { r.advance with groups := r.groups + 1 } :=
    reaches_advance hr (Scan.step?_open hm)
  have hinside := h (d + 1) { r.advance with groups := r.groups + 1 }
    (by simpa [hr, Nat.succ_le_iff] using hn) (hf.mono (Nat.le_succ _) rfl)
  simp only [group]
  generalize unionWithin n { r.advance with groups := r.groups + 1 } = result at *
  obtain ⟨_ | inner, r₁⟩ := result
  · exact (hopen.blames hinside.1.2.2).places hr (by decide) rfl rfl rfl
  · obtain ⟨⟨mode₁, hreaches, hmode₁, hstops, hempty⟩, hbar⟩ := hinside
    have hbar : r₁.rest.head? ≠ some '|' := hbar rfl
    dsimp only
    split
    · -- The parenthesis is missing, so this is the end of the text or something failed further on.
      rename_i heat
      have hparen := head?_of_eat?_eq_none heat
      have hblames : Blames ⟨d + 1, mode₁⟩ r₁ (r₁.fail .unclosedGroup r₁.offset).failure := by
        cases hstops with
        | ended hf hrest => exact blames_fail hf fun _ => hrest ▸ .ended fun hwhole => by cases hwhole.1
        | before he hoffset hrest hc =>
          rw [hrest, List.head?_cons] at hbar hparen
          rcases hc with rfl | rfl
          · exact (hbar rfl).elim
          · exact (hparen rfl).elim
        | blames hb _ =>
          rw [hb.fail_eq_self (Nat.le_refl _)]
          exact hb
      exact ((hopen.trans hreaches).blames hblames).places hr (by decide) rfl rfl rfl
    · rename_i r₂ heat
      have hrest := rest_of_eat? heat
      obtain rfl := eq_advance_of_eat? heat
      have hterm : mode₁ = .term := by
        cases mode₁ with
        | branch => exact (hempty rfl (by rw [hrest, List.head?_cons])).elim
        | term => rfl
        | _ => cases hmode₁
      subst hterm
      exact ⟨hopen.trans (hreaches.trans (reaches_advance hrest Scan.step?_close)),
        hstops.failsBefore hrest (.inr rfl)⟩

theorem Accounts.places_atom (h : Accounts n) (hn : r.rest.length ≤ n) (hf : r.FailsBefore r.offset)
    (hm : mode.outside) : Places d mode r (atom (unionWithin n) r) := by
  simp only [atom]
  split
  · rename_i hrest
    exact ⟨rfl, rfl, .ended (hf.mono (Nat.le_succ _) rfl) hrest⟩
  · rename_i c tail hrest
    split
    · rename_i hc
      subst hc
      exact h.places_group hrest hn hf hm
    split
    · rename_i hc
      subst hc
      exact places_bracketClass hrest hf hm
    split
    · rename_i hc
      subst hc
      exact ⟨reaches_advance hrest (Scan.step?_literal hm (by decide)), hf.mono (Nat.le_succ _) rfl⟩
    split
    · rename_i hc
      subst hc
      exact places_escape hrest hf hm
    · by_cases hc : c ∈ reserved
      · have hstuck : literalChar r = (none, r) := literalChar_eq_none fun c' tail' hrest' => by
          rw [hrest, List.cons_eq_cons] at hrest'
          exact hrest'.1 ▸ hc
        rw [hstuck]
        by_cases hends : c = '|' ∨ c = ')'
        · exact ⟨rest_fail r _ _, offset_fail r _ _, .before (failure_fail hf) (offset_fail r _ _).symm
            ((rest_fail r _ _).trans hrest) hends⟩
        · have hbarred : Scan.step? ⟨d, mode⟩ c = none := by
            refine Scan.step?_outside_eq_none hm ?_
            simp only [reserved, List.mem_cons, List.not_mem_nil, or_false] at hc
            tauto
          have hblames : Blames ⟨d, mode⟩ r (r.fail (.unexpected c) r.offset).failure :=
            blames_of_eq (failure_fail hf) rfl (hrest ▸ .barred hbarred)
          exact hblames.places hrest (not_or.mp hends) (rest_fail r _ _) (offset_fail r _ _) rfl
      · rw [literalChar_eq_some hrest hc]
        exact ⟨reaches_advance hrest (Scan.step?_literal hm hc), hf.mono (Nat.le_succ _) rfl⟩

theorem many_quantifier_reaches (d : Nat) (r : Reader) :
    Reaches ⟨d, .term⟩ r ⟨d, .term⟩ (many quantifier r).2 ∧
      (many quantifier r).2.failure = r.failure := by
  induction r using many.induct quantifier with
  | case1 r r₁ hp =>
    obtain rfl := (of_quantifier_eq_none hp).1
    rw [many_eq_nil hp]
    exact ⟨reaches_of_eq rfl rfl, rfl⟩
  | case2 r kind r₁ hp hlt kinds r₂ hmany ih =>
    have hrest := of_quantifier_eq_some hp
    have hsymbol : Scan.step? ⟨d, .term⟩ kind.symbol = some ⟨d, .term⟩ := by cases kind <;> rfl
    obtain rfl : r₁ = r.advance := by
      rw [quantifier_eq_some hrest] at hp
      cases hp
      rfl
    rw [many_eq_cons hp hlt hmany]
    rw [hmany] at ih
    exact ⟨(reaches_advance hrest hsymbol).trans ih.1, ih.2⟩
  | case3 r kind r₁ hp hlt =>
    rw [of_quantifier_eq_some hp, List.length_cons] at hlt
    omega

theorem Accounts.places_term (h : Accounts n) (hn : r.rest.length ≤ n) (hf : r.FailsBefore r.offset)
    (hm : mode.outside) : Places d mode r (term (unionWithin n) r) := by
  have hatom := h.places_atom (d := d) hn hf hm
  simp only [term]
  generalize atom (unionWithin n) r = result at *
  obtain ⟨_ | inner, r₁⟩ := result
  · exact hatom
  · obtain ⟨hreaches, hf₁⟩ := hatom
    obtain ⟨hkinds, hfailure⟩ := many_quantifier_reaches d r₁
    exact ⟨hreaches.trans hkinds, hf₁.mono hkinds.offset_le hfailure⟩

theorem Accounts.many_term (h : Accounts n) (r : Reader) (hn : r.rest.length ≤ n)
    (hf : r.FailsBefore r.offset) :
    Reaches ⟨d, .term⟩ r ⟨d, .term⟩ (many (term (unionWithin n)) r).2 ∧
      Stops ⟨d, .term⟩ (many (term (unionWithin n)) r).2 := by
  induction r using many.induct (term (unionWithin n)) with
  | case1 r r₁ hp =>
    have hterm := h.places_term (d := d) hn hf (rfl : ScanMode.term.outside)
    rw [hp] at hterm
    obtain ⟨hrest, hoffset, hstops⟩ := hterm
    rw [many_eq_nil hp]
    exact ⟨reaches_of_eq hrest hoffset, hstops⟩
  | case2 r a r₁ hp hlt found r₂ hmany ih =>
    have hterm := h.places_term (d := d) hn hf (rfl : ScanMode.term.outside)
    rw [hp] at hterm
    obtain ⟨hreaches, hf₁⟩ := hterm
    obtain ⟨hmore, hstops⟩ := ih (Nat.le_trans hreaches.length_le hn) hf₁
    rw [hmany] at hmore hstops
    rw [many_eq_cons hp hlt hmany]
    exact ⟨hreaches.trans hmore, hstops⟩
  | case3 r a r₁ hp hlt => exact absurd ((readsBefore_unionWithin n).length_term hp) hlt

theorem Accounts.branches_concatenation (h : Accounts n) (hn : r.rest.length ≤ n)
    (hf : r.FailsBefore r.offset) : Branches d r (concatenation (unionWithin n) r) := by
  have hterm := h.places_term (d := d) hn hf (rfl : ScanMode.branch.outside)
  simp only [concatenation]
  generalize term (unionWithin n) r = result at *
  obtain ⟨_ | first, r₁⟩ := result
  · obtain ⟨hrest, hoffset, hstops⟩ := hterm
    dsimp only
    split
    · rename_i hends
      refine ⟨.branch, reaches_of_eq hrest hoffset, rfl, hstops, fun _ hparen => ?_⟩
      rcases hends with hnil | hbar
      · simp [hnil] at hparen
      · simp [hbar] at hparen
    · rename_i hends
      rw [not_or] at hends
      refine ⟨rfl, rfl, ?_⟩
      cases hstops with
      | ended hf hnil => exact (hends.1 hnil).elim
      | before he hoffset' hcons hc =>
        rw [hcons, List.head?_cons, Option.some_inj] at hends
        obtain rfl := hc.resolve_left hends.2
        exact blames_of_eq he (hoffset'.trans hoffset) (hrest ▸ hcons ▸ .barred Scan.step?_branch_close)
      | blames hb _ => exact (reaches_of_eq hrest hoffset).blames hb
  · obtain ⟨hreaches, hf₁⟩ := hterm
    obtain ⟨hmore, hstops⟩ := h.many_term (d := d) r₁ (Nat.le_trans hreaches.length_le hn) hf₁
    exact ⟨.term, hreaches.trans hmore, rfl, hstops, by simp⟩

/-- What failed at a bar lies further back than the branch behind it. -/
theorem Accounts.branches_behind_bar (h : Accounts n) (hn : r.rest.length ≤ n) (hhalts : Halts d mode r)
    (heat : r.eat? '|' = some r₁) :
    Reaches ⟨d, mode⟩ r ⟨d, .branch⟩ r₁ ∧ Branches d r₁ (concatenation (unionWithin n) r₁) := by
  obtain ⟨hmode, hstops, -⟩ := hhalts
  have hrest := rest_of_eat? heat
  obtain rfl := eq_advance_of_eat? heat
  have hreaches : Reaches ⟨d, mode⟩ r ⟨d, .branch⟩ r.advance :=
    reaches_advance hrest (Scan.step?_bar hmode)
  exact ⟨hreaches, h.branches_concatenation (Nat.le_trans hreaches.length_le hn)
    (hstops.failsBefore hrest (.inl rfl))⟩

theorem Accounts.moreBranches (h : Accounts n) (r : Reader) (hn : r.rest.length ≤ n)
    (hhalts : Halts d mode r) :
    match moreBranches (unionWithin n) r with
    | (some _, r') => ∃ mode', Reaches ⟨d, mode⟩ r ⟨d, mode'⟩ r' ∧ Halts d mode' r' ∧
      r'.rest.head? ≠ some '|'
    | (none, r') => Blames ⟨d, mode⟩ r r'.failure := by
  induction r using moreBranches.induct (unionWithin n) generalizing mode with
  | case1 r heat =>
    have hbar := head?_of_eat?_eq_none heat
    rw [moreBranches_eq_nil _ hbar]
    exact ⟨mode, reaches_of_eq rfl rfl, hhalts, hbar⟩
  | case2 r r₁ heat r₂ hbranch =>
    obtain ⟨hreaches, hnext⟩ := h.branches_behind_bar hn hhalts heat
    rw [hbranch] at hnext
    rw [Reader.moreBranches, heat]
    simp only [hbranch]
    exact hreaches.blames hnext.2.2
  | case3 r r₁ heat branch r₂ hbranch hlt r₃ hmore ih =>
    obtain ⟨hreaches, hnext⟩ := h.branches_behind_bar hn hhalts heat
    rw [hbranch] at hnext
    obtain ⟨mode₂, hreaches₂, hhalts₂⟩ := hnext
    have hlater := ih (Nat.le_of_lt (Nat.lt_of_lt_of_le hlt hn)) hhalts₂
    rw [hmore] at hlater
    rw [Reader.moreBranches, heat]
    simp only [hbranch, hlt, ↓reduceIte, hmore]
    exact (hreaches.trans hreaches₂).blames hlater
  | case4 r r₁ heat branch r₂ hbranch hlt later r₃ hmore ih =>
    obtain ⟨hreaches, hnext⟩ := h.branches_behind_bar hn hhalts heat
    rw [hbranch] at hnext
    obtain ⟨mode₂, hreaches₂, hhalts₂⟩ := hnext
    have hlater := ih (Nat.le_of_lt (Nat.lt_of_lt_of_le hlt hn)) hhalts₂
    rw [hmore] at hlater
    obtain ⟨mode₃, hreaches₃, hhalts₃⟩ := hlater
    rw [moreBranches_eq_cons heat hbranch hlt hmore]
    exact ⟨mode₃, (hreaches.trans hreaches₂).trans hreaches₃, hhalts₃⟩
  | case5 r r₁ heat branch r₂ hbranch hlt =>
    obtain ⟨-, hnext⟩ := h.branches_behind_bar hn hhalts heat
    rw [hbranch] at hnext
    obtain ⟨_, hreaches₂, -⟩ := hnext
    have hle := hreaches₂.length_le
    rw [rest_of_eat? heat, List.length_cons] at hlt
    omega

theorem Accounts.unions_alternatives (h : Accounts n) (hn : r.rest.length ≤ n)
    (hf : r.FailsBefore r.offset) : Unions d r (alternatives (unionWithin n) r) := by
  have hfirst := h.branches_concatenation (d := d) hn hf
  simp only [alternatives]
  generalize concatenation (unionWithin n) r = result at *
  obtain ⟨_ | first, r₁⟩ := result
  · exact ⟨hfirst, by simp⟩
  · obtain ⟨mode₁, hreaches, hhalts⟩ := hfirst
    have hmore := h.moreBranches r₁ (Nat.le_trans hreaches.length_le hn) hhalts
    dsimp only
    generalize Reader.moreBranches (unionWithin n) r₁ = result at *
    obtain ⟨_ | others, r₂⟩ := result
    · exact ⟨⟨rfl, rfl, hreaches.blames hmore⟩, by simp⟩
    · obtain ⟨mode₂, hreaches₂, hhalts₂, hbar⟩ := hmore
      exact ⟨⟨mode₂, hreaches.trans hreaches₂, hhalts₂⟩, fun _ => hbar⟩

theorem accounts_unionWithin (n : Nat) : Accounts n := by
  induction n with
  | zero => exact fun d r hn => (Nat.not_lt_zero _ hn).elim
  | succ n ih => exact fun d r hn hf => ih.unions_alternatives (Nat.le_of_lt_succ hn) hf

/-! ### The whole text -/

/-- A failure that lies behind the place of the reader is the error. -/
theorem Blames.failure_eq_error (h : Blames s r r'.failure) (hoffset : r'.offset ≤ r.offset) :
    r'.failure = some r'.error := by
  have hsame : ∀ fault, r'.fail fault r'.offset = r' := fun fault => h.fail_eq_self hoffset
  obtain ⟨e, _, _, he, -⟩ := h
  simp only [error, he]
  split
  · rw [he]
    rfl
  · rw [hsame, he]
    rfl

/-- A text that is not read to its end is blamed for the error. -/
theorem blames_error {text : List Char} {result : Option Pattern}
    (hread : unionWithin (text.length + 1) ⟨text, offset, 0, none⟩ = (result, r))
    (h : result = none ∨ r.rest ≠ []) : Blames .start ⟨text, offset, 0, none⟩ (some r.error) := by
  have hunion := accounts_unionWithin (text.length + 1) 0 ⟨text, offset, 0, none⟩ (Nat.lt_succ_self _)
    fun e he => by cases he
  rw [hread] at hunion
  cases result with
  | none =>
    obtain ⟨⟨hrest, hoffset, hblames⟩, -⟩ := hunion
    rw [← hblames.failure_eq_error (Nat.le_of_eq hoffset)]
    exact hblames
  | some tree =>
    obtain ⟨⟨mode, hreaches, hmode, hstops, -⟩, hbar⟩ := hunion
    have hblames : Blames ⟨0, mode⟩ r r.failure := by
      cases hstops with
      | ended hf hnil => exact (h.resolve_left (by simp) hnil).elim
      | before he hoffset hcons hc =>
        have hne := hbar rfl
        rw [hcons, List.head?_cons, ne_eq, Option.some_inj] at hne
        obtain rfl := hc.resolve_left hne
        exact blames_of_eq he hoffset (hcons ▸ .barred (Scan.step?_zero_close hmode))
      | blames hb _ => exact hb
    rw [← hblames.failure_eq_error (Nat.le_refl _)]
    exact hreaches.blames hblames

end Reader

end PatternAutomata
