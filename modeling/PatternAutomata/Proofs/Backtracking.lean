import PatternAutomata.Proofs.Failures

/-!
# Productions go back where they fail

What a production does to a reader is told by two things that every production keeps. The reader goes on:
it gets some way through the text, and a failure that was known gives way to none but one further on. And
where a production fails, the reader is back where it was tried. Both pass from the parts of a production
to the whole, so the inside of groups comes in by induction on the depth to which they nest.

A union takes the depth from the length of the text, which is never too little, so it is the alternatives
over itself. A union or a branch that fails has recorded some failure on the way, and the error of a text is
taken from what is recorded.
-/

namespace PatternAutomata

namespace Reader

variable {α β : Type} {p q : Production α} {nested nested' : Production Pattern} {r r' r₁ r₂ : Reader}
  {result : Option α × Reader} {fault : SyntaxFault} {offset n depth : Nat} {c : Char} {tail : List Char}

/-- The reader got further in the text, and what it knows to have failed got no closer to the start. -/
structure Onward (r r' : Reader) : Prop where
  read : ∃ text, r.rest = text ++ r'.rest ∧ r'.offset = r.offset + text.length
  failure_le : ∀ e, r.failure = some e → ∃ e', r'.failure = some e' ∧ e.offset ≤ e'.offset
  explained : ∀ e, r'.failure = some e → r.failure = some e ∨ e.fault ≠ .unexplained

/-- The reader goes on where the production succeeds, and is put back where it fails. -/
structure Backtracks (r : Reader) (result : Option α × Reader) : Prop where
  onward : Onward r result.2
  put_back : result.1 = none → result.2.rest = r.rest ∧ result.2.offset = r.offset

theorem onward_of_eq (hrest : r'.rest = r.rest) (hoffset : r'.offset = r.offset)
    (hfailure : r'.failure = r.failure) : Onward r r' :=
  ⟨⟨[], hrest.symm, hoffset⟩, fun e he => ⟨e, hfailure.trans he, Nat.le_refl _⟩,
    fun _ he => .inl (hfailure.symm.trans he)⟩

theorem Onward.trans (h : Onward r r₁) (h' : Onward r₁ r₂) : Onward r r₂ := by
  obtain ⟨text, hrest, hoffset⟩ := h.read
  obtain ⟨text', hrest', hoffset'⟩ := h'.read
  refine ⟨⟨text ++ text', by rw [hrest, hrest', List.append_assoc], ?_⟩, fun e he => ?_, fun e he => ?_⟩
  · rw [hoffset', hoffset, List.length_append, Nat.add_assoc]
  · obtain ⟨e₁, he₁, hle⟩ := h.failure_le e he
    obtain ⟨e₂, he₂, hle'⟩ := h'.failure_le e₁ he₁
    exact ⟨e₂, he₂, Nat.le_trans hle hle'⟩
  · exact (h'.explained e he).elim (h.explained e) .inr

theorem Onward.length_le (h : Onward r r') : r'.rest.length ≤ r.rest.length := by
  obtain ⟨text, hrest, -⟩ := h.read
  rw [hrest, List.length_append]
  exact Nat.le_add_left _ _

theorem onward_advance (h : r.rest = c :: tail) : Onward r r.advance :=
  ⟨⟨[c], by rw [rest_advance, h]; rfl, rfl⟩, fun e he => ⟨e, he, Nat.le_refl _⟩, fun _ => .inl⟩

theorem onward_eat? (h : r.eat? c = some r') : Onward r r' := by
  obtain rfl := eq_advance_of_eat? h
  exact onward_advance (rest_of_eat? h)

theorem onward_fail (r : Reader) (h : fault ≠ .unexplained) (offset : Nat) :
    Onward r (r.fail fault offset) := by
  refine ⟨⟨[], (rest_fail r fault offset).symm, offset_fail r fault offset⟩, fun e he => ?_,
    fun e he => ?_⟩
  all_goals rcases failure_fail_cases r fault offset with ⟨_, _, _, hsame⟩ | ⟨hbefore, hfail⟩
  · exact ⟨e, by rw [hsame, he], Nat.le_refl _⟩
  · exact ⟨_, hfail, Nat.le_of_lt (hbefore e he)⟩
  · exact .inl (hsame ▸ he)
  · rw [hfail] at he
    cases he
    exact .inr h

theorem Onward.some (h : Onward r r') (a : α) : Backtracks r (some a, r') := ⟨h, by simp⟩

theorem Onward.back (h : Onward r r') : Backtracks r ((none : Option α), r'.rewind r) :=
  ⟨⟨⟨[], rfl, rfl⟩, h.failure_le, h.explained⟩, fun _ => ⟨rfl, rfl⟩⟩

theorem backtracks_none (r : Reader) : Backtracks r ((none : Option α), r) :=
  ⟨onward_of_eq rfl rfl rfl, fun _ => ⟨rfl, rfl⟩⟩

theorem backtracks_fail (r : Reader) (h : fault ≠ .unexplained) (offset : Nat) :
    Backtracks r ((none : Option α), r.fail fault offset) :=
  ⟨onward_fail r h offset, fun _ => ⟨rest_fail r fault offset, offset_fail r fault offset⟩⟩

theorem onward_of_apply {x : Option α} (hp : ∀ r, Backtracks r (p r)) (h : p r = (x, r₁)) :
    Onward r r₁ := by
  have honward := (hp r).onward
  rwa [h] at honward

/-- What is tried next where a production has failed stands in for it. -/
theorem Backtracks.next (h : Backtracks r ((none : Option β), r₁)) (h' : Backtracks r₁ result) :
    Backtracks r result := by
  obtain ⟨hrest, hoffset⟩ := h.put_back rfl
  refine ⟨h.onward.trans h'.onward, fun hnone => ?_⟩
  obtain ⟨hrest', hoffset'⟩ := h'.put_back hnone
  exact ⟨hrest'.trans hrest, hoffset'.trans hoffset⟩

theorem Backtracks.of_none (h : Backtracks r ((none : Option β), r₁)) :
    Backtracks r ((none : Option α), r₁) :=
  h.next (backtracks_none r₁)

theorem many_eq_singleton {a : α} (hp : p r = (some a, r₁)) (hlt : ¬r₁.rest.length < r.rest.length) :
    many p r = ([a], r₁) := by
  rw [many, hp]
  simp only [hlt, ↓reduceIte]

theorem onward_many (hp : ∀ r, Backtracks r (p r)) (r : Reader) : Onward r (many p r).2 := by
  induction r using many.induct p with
  | case1 r r₁ h =>
    rw [many_eq_nil h]
    exact onward_of_apply hp h
  | case2 r a r₁ h hlt found r₂ hmany ih =>
    rw [hmany] at ih
    rw [many_eq_cons h hlt hmany]
    exact (onward_of_apply hp h).trans ih
  | case3 r a r₁ h hlt =>
    rw [many_eq_singleton h hlt]
    exact onward_of_apply hp h

/-! ### Classes -/

theorem backtracks_literalChar (r : Reader) : Backtracks r (literalChar r) := by
  simp only [literalChar]
  split
  · exact backtracks_none r
  · rename_i c tail hrest
    split
    · exact backtracks_none r
    · exact (onward_advance hrest).some c

theorem backtracks_escape (r : Reader) : Backtracks r (escape r) := by
  simp only [escape]
  split
  · exact backtracks_none r
  · rename_i r₁ heat
    split
    · exact backtracks_fail r (by decide) _
    · rename_i c tail hrest
      exact ((onward_eat? heat).trans (onward_advance hrest)).some _

theorem backtracks_classRange (r : Reader) : Backtracks r (classRange r) := by
  have hlo := backtracks_literalChar r
  simp only [classRange]
  generalize literalChar r = result at *
  obtain ⟨_ | lo, r₁⟩ := result
  · exact hlo.of_none
  · dsimp only
    split
    · exact hlo.onward.back
    · rename_i r₂ heat
      have hdash := hlo.onward.trans (onward_eat? heat)
      have hhi := backtracks_literalChar r₂
      generalize literalChar r₂ = result at *
      obtain ⟨_ | hi, r₃⟩ := result
      · exact (hdash.trans hhi.onward).back
      · exact (hdash.trans hhi.onward).some _

theorem backtracks_classItem (r : Reader) : Backtracks r (classItem r) := by
  have hrange := backtracks_classRange r
  simp only [classItem]
  generalize classRange r = result at *
  obtain ⟨_ | item, r₁⟩ := result
  · refine hrange.next ?_
    have hescape := backtracks_escape r₁
    dsimp only
    generalize escape r₁ = result at *
    obtain ⟨_ | item, r₂⟩ := result
    · refine hescape.next ?_
      have hliteral := backtracks_literalChar r₂
      dsimp only
      generalize literalChar r₂ = result at *
      obtain ⟨_ | c, r₃⟩ := result
      · exact hliteral.of_none
      · exact hliteral.onward.some _
    · exact hescape
  · exact hrange

theorem Onward.closeClass {start : Reader} (h : Onward start r) (negated : Bool) :
    Backtracks start (closeClass start negated r) := by
  have hitems := h.trans (onward_many backtracks_classItem r)
  simp only [Reader.closeClass]
  generalize many classItem r = found at *
  obtain ⟨items, r₁⟩ := found
  dsimp only
  split
  · exact (hitems.trans (onward_fail r₁ (by decide) _)).back
  · split
    · exact (hitems.trans (onward_fail r₁ (by decide) _)).back
    · rename_i r₂ heat
      exact (hitems.trans (onward_eat? heat)).some _

theorem backtracks_bracketClass (h : r.rest = '[' :: tail) : Backtracks r (bracketClass r) := by
  have hopen := onward_advance h
  rw [bracketClass_eq]
  split
  · rename_i r₁ heat
    exact (hopen.trans (onward_eat? heat)).closeClass true
  · exact hopen.closeClass false

/-! ### Terms and branches -/

theorem backtracks_group (hn : ∀ r, Backtracks r (nested r)) (h : r.rest = '(' :: tail) :
    Backtracks r (group nested r) := by
  have hopen : Onward r { r.advance with groups := r.groups + 1 } :=
    (onward_advance h).trans (onward_of_eq rfl rfl rfl)
  have hinside := hn { r.advance with groups := r.groups + 1 }
  simp only [group]
  generalize nested { r.advance with groups := r.groups + 1 } = result at *
  obtain ⟨_ | inner, r₁⟩ := result
  · exact (hopen.trans hinside.onward).back
  · dsimp only
    split
    · exact ((hopen.trans hinside.onward).trans (onward_fail r₁ (by decide) _)).back
    · rename_i r₂ heat
      exact ((hopen.trans hinside.onward).trans (onward_eat? heat)).some _

theorem backtracks_atom (hn : ∀ r, Backtracks r (nested r)) (r : Reader) :
    Backtracks r (atom nested r) := by
  simp only [atom]
  split
  · exact backtracks_none r
  · rename_i c tail hrest
    split
    · rename_i hc
      exact backtracks_group hn (hc ▸ hrest)
    split
    · rename_i hc
      exact backtracks_bracketClass (hc ▸ hrest)
    split
    · exact (onward_advance hrest).some _
    split
    · have hescape := backtracks_escape r
      generalize escape r = result at *
      obtain ⟨_ | item, r₁⟩ := result
      · exact hescape.of_none
      · exact hescape.onward.some _
    · have hliteral := backtracks_literalChar r
      generalize literalChar r = result at *
      obtain ⟨_ | c', r₁⟩ := result
      · exact hliteral.next (backtracks_fail r₁ (by simp) _)
      · exact hliteral.onward.some _

theorem backtracks_quantifier (r : Reader) : Backtracks r (quantifier r) := by
  simp only [quantifier]
  split
  · exact backtracks_none r
  · rename_i c tail hrest
    repeat' split
    all_goals first
      | exact (onward_advance hrest).some _
      | exact backtracks_none r

theorem backtracks_term (hn : ∀ r, Backtracks r (nested r)) (r : Reader) :
    Backtracks r (term nested r) := by
  have hatom := backtracks_atom hn r
  simp only [term]
  generalize atom nested r = result at *
  obtain ⟨_ | inner, r₁⟩ := result
  · exact hatom
  · exact (hatom.onward.trans (onward_many backtracks_quantifier r₁)).some _

theorem backtracks_concatenation (hn : ∀ r, Backtracks r (nested r)) (r : Reader) :
    Backtracks r (concatenation nested r) := by
  have hterm := backtracks_term hn r
  simp only [concatenation]
  generalize term nested r = result at *
  obtain ⟨_ | first, r₁⟩ := result
  · dsimp only
    split
    · exact hterm.onward.some _
    · exact hterm.onward.back
  · exact (hterm.onward.trans (onward_many (backtracks_term hn) r₁)).some _

/-- A branch behind a bar, and the reader on its way there. -/
theorem onward_behind_bar (hn : ∀ r, Backtracks r (nested r)) {x : Option Pattern}
    (heat : r.eat? '|' = some r₁) (h : concatenation nested r₁ = (x, r₂)) :
    Onward r r₂ ∧ r₂.rest.length < r.rest.length := by
  have hbranch := onward_of_apply (backtracks_concatenation hn) h
  refine ⟨(onward_eat? heat).trans hbranch, ?_⟩
  rw [rest_of_eat? heat, List.length_cons]
  exact Nat.lt_succ_of_le hbranch.length_le

theorem onward_moreBranches (hn : ∀ r, Backtracks r (nested r)) (r : Reader) :
    Onward r (moreBranches nested r).2 := by
  induction r using moreBranches.induct nested with
  | case1 r heat =>
    rw [moreBranches, heat]
    exact onward_of_eq rfl rfl rfl
  | case2 r r₁ heat r₂ hbranch =>
    rw [moreBranches, heat]
    simp only [hbranch]
    exact (onward_behind_bar hn heat hbranch).1
  | case3 r r₁ heat branch r₂ hbranch hlt r₃ hmore ih
  | case4 r r₁ heat branch r₂ hbranch hlt _ r₃ hmore ih =>
    rw [hmore] at ih
    rw [moreBranches, heat]
    simp only [hbranch, hlt, ↓reduceIte, hmore]
    exact (onward_behind_bar hn heat hbranch).1.trans ih
  | case5 r r₁ heat branch r₂ hbranch hlt => exact absurd (onward_behind_bar hn heat hbranch).2 hlt

theorem backtracks_alternatives (hn : ∀ r, Backtracks r (nested r)) (r : Reader) :
    Backtracks r (alternatives nested r) := by
  have hfirst := backtracks_concatenation hn r
  simp only [alternatives]
  generalize concatenation nested r = result at *
  obtain ⟨_ | first, r₁⟩ := result
  · exact hfirst
  · have hmore := hfirst.onward.trans (onward_moreBranches hn r₁)
    dsimp only
    generalize moreBranches nested r₁ = result at *
    obtain ⟨_ | others, r₂⟩ := result
    · exact hmore.back
    · exact hmore.some _

theorem backtracks_unionWithin (depth : Nat) (r : Reader) : Backtracks r (unionWithin depth r) := by
  induction depth generalizing r with
  | zero => exact backtracks_none r
  | succ depth ih => exact backtracks_alternatives ih r

/-! ### Loops and depth -/

/-- The loop over a production goes on as long as the production succeeds. -/
def Loops (p : Production α) : Prop := ∀ r, many p r =
  match p r with
  | (none, r₁) => ([], r₁)
  | (some a, r₁) => (a :: (many p r₁).1, (many p r₁).2)

/-- No round of a loop reads nothing. -/
theorem loops_of_length_lt (h : ∀ r a r', p r = (some a, r') → r'.rest.length < r.rest.length) :
    Loops p := by
  intro r
  cases hp : p r with
  | mk x r₁ =>
    cases x with
    | none => exact many_eq_nil hp
    | some a => exact many_eq_cons hp (h r a r₁ hp) rfl

theorem loops_classItem : Loops classItem := by
  refine loops_of_length_lt fun r item r' h => ?_
  obtain ⟨text, hrest, hne, -⟩ := of_classItem_eq_some h
  have := List.length_pos_iff.mpr hne
  rw [hrest, List.length_append]
  omega

theorem loops_quantifier : Loops quantifier := by
  refine loops_of_length_lt fun r kind r' h => ?_
  rw [of_quantifier_eq_some h, List.length_cons]
  exact Nat.lt_succ_self _

/-- The productions do the same on texts shorter than this. -/
def Agree (n : Nat) (p q : Reader → α) : Prop := ∀ r, r.rest.length < n → p r = q r

/-- A group reads its opening parenthesis before its inside. -/
theorem Agree.atom (h : Agree n nested nested') : Agree (n + 1) (atom nested) (atom nested') := by
  intro r hr
  cases hrest : r.rest with
  | nil => simp only [Reader.atom, hrest]
  | cons c tail =>
    have hinside : nested { r.advance with groups := r.groups + 1 } =
        nested' { r.advance with groups := r.groups + 1 } := by
      refine h _ ?_
      rw [hrest, List.length_cons] at hr
      rw [rest_advance, hrest, List.tail_cons]
      exact Nat.lt_of_succ_lt_succ hr
    simp only [Reader.atom, hrest, group, hinside]

theorem Agree.term (h : Agree n nested nested') : Agree (n + 1) (term nested) (term nested') := by
  intro r hr
  simp only [Reader.term, h.atom r hr]

theorem Agree.many (h : Agree n p q) : Agree n (many p) (many q) := by
  intro r hr
  have hsame := h r hr
  induction r using many.induct p with
  | case1 r r₁ hp => rw [many_eq_nil hp, many_eq_nil (hsame ▸ hp)]
  | case2 r a r₁ hp hlt found r₂ hmany ih =>
    have hr₁ := Nat.lt_trans hlt hr
    rw [many_eq_cons hp hlt hmany, many_eq_cons (hsame ▸ hp) hlt (ih hr₁ (h r₁ hr₁) ▸ hmany)]
  | case3 r a r₁ hp hlt => rw [many_eq_singleton hp hlt, many_eq_singleton (hsame ▸ hp) hlt]

theorem Agree.concatenation (h : Agree n nested nested') (hn : ∀ r, Backtracks r (nested r)) :
    Agree (n + 1) (concatenation nested) (concatenation nested') := by
  intro r hr
  have hfirst := (backtracks_term hn r).onward
  simp only [Reader.concatenation, ← h.term r hr]
  generalize Reader.term nested r = result at *
  obtain ⟨_ | first, r₁⟩ := result
  · rfl
  · simp only [h.term.many r₁ (Nat.lt_of_le_of_lt hfirst.length_le hr)]

theorem Agree.moreBranches (h : Agree n nested nested') (hn : ∀ r, Backtracks r (nested r)) :
    Agree (n + 1) (moreBranches nested) (moreBranches nested') := by
  intro r hr
  have hbehind : ∀ {r r₁ : Reader}, r.eat? '|' = some r₁ → r.rest.length < n + 1 →
      Reader.concatenation nested r₁ = Reader.concatenation nested' r₁ := by
    intro r r₁ heat hr
    exact h.concatenation hn r₁ (Nat.lt_of_le_of_lt (onward_eat? heat).length_le hr)
  induction r using moreBranches.induct nested with
  | case1 r heat => rw [Reader.moreBranches, heat, Reader.moreBranches, heat]
  | case2 r r₁ heat r₂ hbranch =>
    have hbranch' := hbehind heat hr ▸ hbranch
    rw [Reader.moreBranches, heat, Reader.moreBranches, heat]
    simp only [hbranch, hbranch']
  | case3 r r₁ heat branch r₂ hbranch hlt r₃ hmore ih
  | case4 r r₁ heat branch r₂ hbranch hlt _ r₃ hmore ih =>
    have hbranch' := hbehind heat hr ▸ hbranch
    have hmore' := ih (Nat.lt_trans hlt hr) ▸ hmore
    rw [Reader.moreBranches, heat, Reader.moreBranches, heat]
    simp only [hbranch, hbranch', hlt, ↓reduceIte, hmore, hmore']
  | case5 r r₁ heat branch r₂ hbranch hlt => exact absurd (onward_behind_bar hn heat hbranch).2 hlt

theorem Agree.alternatives (h : Agree n nested nested') (hn : ∀ r, Backtracks r (nested r)) :
    Agree (n + 1) (alternatives nested) (alternatives nested') := by
  intro r hr
  have hfirst := (backtracks_concatenation hn r).onward
  simp only [Reader.alternatives, ← h.concatenation hn r hr]
  generalize Reader.concatenation nested r = result at *
  obtain ⟨_ | first, r₁⟩ := result
  · rfl
  · simp only [h.moreBranches hn r₁ (Nat.lt_of_le_of_lt hfirst.length_le hr)]

/-- The production for patterns, which groups have inside as well. -/
def union : Production Pattern := fun r => unionWithin (r.rest.length + 1) r

theorem backtracks_union (r : Reader) : Backtracks r (union r) :=
  backtracks_unionWithin _ r

theorem agree_unionWithin_succ (depth : Nat) : Agree depth (unionWithin depth) (unionWithin (depth + 1)) := by
  induction depth with
  | zero => exact fun r hr => (Nat.not_lt_zero _ hr).elim
  | succ depth ih => exact ih.alternatives (backtracks_unionWithin depth)

/-- Groups do not nest deeper than the text is long. -/
theorem agree_unionWithin (depth : Nat) : Agree depth (unionWithin depth) union := by
  intro r hr
  induction hr with
  | refl => rfl
  | @step depth hr ih => exact (agree_unionWithin_succ depth r hr).symm.trans ih

theorem union_eq : union = alternatives union := by
  funext r
  exact (agree_unionWithin r.rest.length).alternatives (backtracks_unionWithin _) r (Nat.lt_succ_self _)

theorem readsBefore_union : ReadsBefore unionBefore union :=
  fun r a r' h => readsBefore_unionWithin _ r a r' h

theorem loops_term : Loops (term union) :=
  loops_of_length_lt fun _ _ _ h => readsBefore_union.length_term h

theorem moreBranches_of_eat? (hn : ∀ r, Backtracks r (nested r)) {branch : Pattern}
    (heat : r.eat? '|' = some r₁) (hbranch : concatenation nested r₁ = (some branch, r₂)) :
    moreBranches nested r =
      ((moreBranches nested r₂).1.map (branch :: ·), (moreBranches nested r₂).2) := by
  have hlt := (onward_behind_bar hn heat hbranch).2
  rw [moreBranches, heat]
  simp only [hbranch, hlt, ↓reduceIte]
  obtain ⟨_ | branches, r₃⟩ := moreBranches nested r₂
  · rfl
  · rfl

/-- The recursion and the loops are those of the grammar. The depth that is allowed for never runs out, and
no loop is left because a round has read nothing. -/
structure Unbounded : Prop where
  depth : ∀ depth, Agree depth (unionWithin depth) union
  union_eq : union = alternatives union
  items : Loops classItem
  repetitions : Loops quantifier
  terms : Loops (term union)
  branches : ∀ r r₁ r₂ branch, r.eat? '|' = some r₁ → concatenation union r₁ = (some branch, r₂) →
    moreBranches union r = ((moreBranches union r₂).1.map (branch :: ·), (moreBranches union r₂).2)

theorem unbounded : Unbounded :=
  ⟨agree_unionWithin, union_eq, loops_classItem, loops_quantifier, loops_term,
    fun _ _ _ _ => moreBranches_of_eat? backtracks_union⟩

/-! ### Errors -/

/-- Where the production fails on a text shorter than this, some failure is known. -/
def Explains (n : Nat) (p : Production α) : Prop :=
  ∀ r r', r.rest.length < n → p r = (none, r') → ∃ e, r'.failure = some e

theorem exists_failure (r : Reader) (fault : SyntaxFault) (offset : Nat) :
    ∃ e, (r.fail fault offset).failure = some e := by
  rcases failure_fail_cases r fault offset with ⟨e, he, -, hsame⟩ | ⟨-, hfail⟩
  · exact ⟨e, hsame.symm ▸ he⟩
  · exact ⟨_, hfail⟩

theorem exists_failure_of_bracketClass (h : bracketClass r = (none, r')) : ∃ e, r'.failure = some e := by
  simp only [bracketClass] at h
  split at h
  all_goals
    split at h
    · cases h
      exact exists_failure _ _ _
    · split at h
      · cases h
        exact exists_failure _ _ _
      · cases h

theorem exists_failure_of_escape (hr : r.rest = '\\' :: tail) (h : escape r = (none, r')) :
    ∃ e, r'.failure = some e := by
  simp only [escape, eat?_eq_some hr] at h
  split at h
  · cases h
    exact exists_failure _ _ _
  · cases h

theorem Explains.group (h : Explains n nested) (hr : r.rest = '(' :: tail) (hlen : r.rest.length < n + 1)
    (hg : group nested r = (none, r')) : ∃ e, r'.failure = some e := by
  simp only [Reader.group] at hg
  split at hg
  · rename_i r₁ hinside
    cases hg
    refine h _ r₁ ?_ hinside
    rw [hr, List.length_cons] at hlen
    rw [rest_advance, hr, List.tail_cons]
    exact Nat.lt_of_succ_lt_succ hlen
  · split at hg
    · cases hg
      exact exists_failure _ _ _
    · cases hg

/-- Only at the end of the text an atom fails for no reason. -/
theorem Explains.atom (h : Explains n nested) (hlen : r.rest.length < n + 1)
    (hatom : atom nested r = (none, r')) : r.rest = [] ∨ ∃ e, r'.failure = some e := by
  simp only [Reader.atom] at hatom
  split at hatom
  · rename_i hrest
    exact .inl hrest
  · rename_i c tail hrest
    right
    split at hatom
    · rename_i hc
      exact h.group (hc ▸ hrest) hlen hatom
    split at hatom
    · exact exists_failure_of_bracketClass hatom
    split at hatom
    · cases hatom
    split at hatom
    · rename_i hc
      split at hatom
      · cases hatom
      · rename_i r₁ hescape
        cases hatom
        exact exists_failure_of_escape (hc ▸ hrest) hescape
    · split at hatom
      · cases hatom
      · cases hatom
        exact exists_failure _ _ _

theorem Explains.term (h : Explains n nested) (hlen : r.rest.length < n + 1)
    (hterm : term nested r = (none, r')) : r.rest = [] ∨ ∃ e, r'.failure = some e := by
  simp only [Reader.term] at hterm
  split at hterm
  · rename_i hatom
    cases hterm
    exact h.atom hlen hatom
  · cases hterm

theorem Explains.concatenation (h : Explains n nested) :
    Explains (n + 1) (concatenation nested) := by
  intro r r' hlen hc
  simp only [Reader.concatenation] at hc
  split at hc
  · rename_i r₁ hterm
    split at hc
    · cases hc
    · rename_i hends
      cases hc
      refine (h.term hlen hterm).resolve_left fun hnil => ?_
      exact hends (.inl ((restores_term r r₁ hterm).1.trans hnil))
  · cases hc

theorem Explains.moreBranches (h : Explains n nested) (hn : ∀ r, Backtracks r (nested r)) (r r' : Reader)
    (hlen : r.rest.length < n + 1) (hm : moreBranches nested r = (none, r')) :
    ∃ e, r'.failure = some e := by
  induction r using moreBranches.induct nested with
  | case1 r heat =>
    rw [Reader.moreBranches, heat] at hm
    cases hm
  | case2 r r₁ heat r₂ hbranch =>
    rw [Reader.moreBranches, heat] at hm
    simp only [hbranch] at hm
    cases hm
    exact h.concatenation r₁ _ (Nat.lt_of_le_of_lt (onward_eat? heat).length_le hlen) hbranch
  | case3 r r₁ heat branch r₂ hbranch hlt r₃ hmore ih =>
    rw [Reader.moreBranches, heat] at hm
    simp only [hbranch, hlt, ↓reduceIte, hmore] at hm
    cases hm
    exact ih (Nat.lt_trans hlt hlen) hmore
  | case4 r r₁ heat branch r₂ hbranch hlt _ r₃ hmore ih =>
    rw [Reader.moreBranches, heat] at hm
    simp only [hbranch, hlt, ↓reduceIte, hmore] at hm
    cases hm
  | case5 r r₁ heat branch r₂ hbranch hlt => exact absurd (onward_behind_bar hn heat hbranch).2 hlt

theorem Explains.alternatives (h : Explains n nested) (hn : ∀ r, Backtracks r (nested r)) :
    Explains (n + 1) (alternatives nested) := by
  intro r r' hlen ha
  simp only [Reader.alternatives] at ha
  split at ha
  · rename_i r₁ hfirst
    cases ha
    exact h.concatenation r r' hlen hfirst
  · rename_i first r₁ hfirst
    have honward := onward_of_apply (backtracks_concatenation hn) hfirst
    split at ha
    · rename_i r₂ hmore
      cases ha
      exact h.moreBranches hn r₁ r₂ (Nat.lt_of_le_of_lt honward.length_le hlen) hmore
    · cases ha

theorem explains_unionWithin (n : Nat) : Explains n (unionWithin n) := by
  induction n with
  | zero => exact fun r r' hlen => (Nat.not_lt_zero _ hlen).elim
  | succ n ih => exact ih.alternatives (backtracks_unionWithin n)

theorem explains_union (n : Nat) : Explains n union :=
  fun r r' _ h => explains_unionWithin _ r r' (Nat.lt_succ_self _) h

/-- An error is a failure that is known, or the character that is left over. -/
theorem fault_error_ne (h : ∀ e, r.failure = some e → e.fault ≠ .unexplained)
    (hr : r.rest ≠ [] ∨ ∃ e, r.failure = some e) : r.error.fault ≠ .unexplained := by
  simp only [error]
  split
  · rename_i hrest
    obtain ⟨e, he⟩ := hr.resolve_left (not_not_intro hrest)
    rw [he]
    exact h e he
  · rename_i c tail hrest
    obtain ⟨e, he⟩ := exists_failure r (.unexpected c) r.offset
    rw [he]
    have hfault : SyntaxFault.unexpected c ≠ .unexplained := by simp
    exact ((onward_fail r hfault r.offset).explained e he).elim (h e) id

theorem fault_ne_of_parse_eq_error {text : String} {e : SyntaxError} (h : Pattern.parse text = .error e) :
    e.fault ≠ .unexplained := by
  have hstart : (ofChars text.toList).1.failure = none := rfl
  simp only [Pattern.parse, Pattern.ofChars] at h
  generalize ofChars text.toList = chars at h hstart
  obtain ⟨start, left, right⟩ := chars
  have hback := (backtracks_union start).onward
  have hknown : ∀ e, (union start).2.failure = some e → e.fault ≠ .unexplained := by
    intro e he
    refine (hback.explained e he).resolve_left fun hnone => ?_
    rw [hstart] at hnone
    cases hnone
  split at h
  · rename_i inner r hread
    split at h
    · cases h
    · rename_i hrest
      cases h
      rw [union, hread] at hknown
      exact fault_error_ne hknown (.inl hrest)
  · rename_i r hread
    cases h
    rw [union, hread] at hknown
    exact fault_error_ne hknown (.inr (explains_union _ start r (Nat.lt_succ_self _) hread))

/-- Whatever state a production is tried in, it ends, in the text and not in front of where it was tried. Where
it fails, it has read nothing, and in no case is a failure lost but to one further on. A union or a branch
that fails has some failure to show for it, so no text is rejected without a reason. -/
theorem productions_backtrack :
    Unbounded ∧
    (∀ r, Backtracks r (union r) ∧ Backtracks r (concatenation union r) ∧
      Backtracks r (term union r) ∧ Backtracks r (quantifier r) ∧ Backtracks r (atom union r) ∧
      (r.rest.head? = some '(' → Backtracks r (group union r)) ∧
      (r.rest.head? = some '[' → Backtracks r (bracketClass r)) ∧
      Backtracks r (classItem r) ∧ Backtracks r (classRange r) ∧ Backtracks r (escape r) ∧
      Backtracks r (literalChar r)) ∧
    (∀ r r', union r = (none, r') ∨ concatenation union r = (none, r') → ∃ e, r'.failure = some e) ∧
    ∀ text e, Pattern.parse text = .error e → e.fault ≠ .unexplained := by
  refine ⟨unbounded, fun r => ⟨backtracks_union r, backtracks_concatenation backtracks_union r,
    backtracks_term backtracks_union r, backtracks_quantifier r, backtracks_atom backtracks_union r,
    fun h => backtracks_group backtracks_union (List.eq_cons_of_mem_head? h),
    fun h => backtracks_bracketClass (List.eq_cons_of_mem_head? h), backtracks_classItem r,
    backtracks_classRange r, backtracks_escape r, backtracks_literalChar r⟩, fun r r' h => ?_,
    fun text e h => ?_⟩
  · rcases h with h | h
    · exact explains_union _ r r' (Nat.lt_succ_self _) h
    · exact (explains_union r.rest.length).concatenation r r' (Nat.lt_succ_self _) h
  · exact fault_ne_of_parse_eq_error h

/-- The group keeps its number and its failure, and is back at its opening parenthesis. -/
example : atom union ⟨['(', 'a', '|'], 3, 0, none⟩ =
    (none, ⟨['(', 'a', '|'], 3, 1, some ⟨.unclosedGroup, 6⟩⟩) := by
  cbv

end Reader

end PatternAutomata
