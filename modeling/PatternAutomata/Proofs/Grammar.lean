import Mathlib.Data.List.Induction
import PatternAutomata.Proofs.Derivations

/-!
# Patterns are read by the grammar

Between its anchors, a text can be read if and only if the grammar derives it, and the tree that is read
is the tree of the derivation.

A dollar sign at the end is an anchor if the backslashes before it pair up. A derived text consists of
escapes and of characters that are neither a backslash nor a dollar sign, so its backslashes pair up, and
a dollar sign at its end belongs to an escape. The anchors are therefore found where they are written.
-/

namespace PatternAutomata

open Grammar

namespace Grammar

/-- Whether the last character of the text is a backslash that escapes what comes next. -/
def waits (text : List Char) : Bool := text.foldl (fun waiting c => !waiting && c == '\\') false

/-- The text consists of escapes and of characters that need none to stand at the end of a pattern. -/
inductive Paired : List Char → Prop
  | nil : Paired []
  | plain {c : Char} {text : List Char} (hbackslash : c ≠ '\\') (hdollar : c ≠ '$') (h : Paired text) :
      Paired (c :: text)
  | escape {c : Char} {text : List Char} (h : Paired text) : Paired ('\\' :: c :: text)

theorem waits_append (text : List Char) (c : Char) :
    waits (text ++ [c]) = (!waits text && c == '\\') := by
  simp [waits]

theorem waits_plain {c : Char} (hc : c ≠ '\\') (text : List Char) : waits (c :: text) = waits text := by
  have hc : (c == '\\') = false := by simpa using hc
  simp [waits, hc]

theorem waits_escape (c : Char) (text : List Char) : waits ('\\' :: c :: text) = waits text := by
  simp [waits]

section Paired

variable {text text' : List Char}

theorem Paired.append (h : Paired text) (h' : Paired text') : Paired (text ++ text') := by
  induction h with
  | nil => exact h'
  | plain hbackslash hdollar h ih => exact .plain hbackslash hdollar ih
  | escape h ih => exact .escape ih

theorem Paired.literal {c : Char} (hc : c ∉ reserved) (h : Paired text) : Paired (c :: text) := by
  refine .plain ?_ ?_ h
  all_goals
    rintro rfl
    simp [reserved] at hc

theorem Paired.of_classText {items : List ClassItem} (h : ClassText text items) : Paired text := by
  induction h with
  | nil => exact .nil
  | range hlo hhi h ih => exact .literal hlo (.plain (by decide) (by decide) (.literal hhi ih))
  | whitespace h ih => exact .escape ih
  | notWhitespace h ih => exact .escape ih
  | escaped hs hS h ih => exact .escape ih
  | literal hc hrange h ih => exact .literal hc ih

theorem paired_symbols (kinds : List Repetition) : Paired (kinds.map Repetition.symbol) := by
  induction kinds with
  | nil => exact .nil
  | cons kind kinds ih => cases kind <;> exact .plain (by decide) (by decide) ih

theorem Paired.single {c : Char} (hbackslash : c ≠ '\\') (hdollar : c ≠ '$') : Paired [c] :=
  .plain hbackslash hdollar .nil

theorem Paired.of_derives {phrase : Phrase} {n m : Nat} {tree : Pattern}
    (h : Derives phrase n text tree m) : Paired text := by
  induction h with
  | literal hc hdot => exact .literal hc .nil
  | dot => exact .single (by decide) (by decide)
  | whitespace => exact .escape .nil
  | notWhitespace => exact .escape .nil
  | escaped hs hS => exact .escape .nil
  | @charClass n negated text items h hne =>
    have hinside := (Paired.of_classText h).append (.single (by decide : ']' ≠ '\\') (by decide))
    cases negated with
    | false => exact .plain (by decide) (by decide) hinside
    | true => exact .plain (by decide) (by decide) (.plain (by decide) (by decide) hinside)
  | group h ih =>
    exact .plain (by decide) (by decide) (ih.append (.single (by decide) (by decide)))
  | term h kinds ih => exact ih.append (paired_symbols kinds)
  | empty => exact .nil
  | single h ih => exact ih
  | concat h hstart h' ih ih' => exact ih.append ih'
  | last h ih => exact ih
  | union h h' ih ih' => exact ih.append (.plain (by decide) (by decide) ih')

theorem Paired.waits_eq_false (h : Paired text) : waits text = false := by
  induction h with
  | nil => rfl
  | plain hbackslash hdollar h ih => rw [waits_plain hbackslash, ih]
  | escape h ih => rw [waits_escape, ih]

/-- A dollar sign at the end of such a text belongs to an escape. -/
theorem Paired.waits_of_dollar {before : List Char} (h : Paired (before ++ ['$'])) :
    waits before = true := by
  generalize htext : before ++ ['$'] = text at h
  induction h generalizing before with
  | nil => simp at htext
  | plain hbackslash hdollar h ih =>
    cases before with
    | nil =>
      cases htext
      exact absurd rfl hdollar
    | cons c before =>
      cases htext
      rw [waits_plain hbackslash, ih rfl]
  | escape h ih =>
    match before with
    | [] => simp at htext
    | [c] =>
      cases htext
      rfl
    | c :: c' :: before =>
      cases htext
      rw [waits_escape, ih rfl]

/-- A derived text starts with no caret. -/
theorem Derives.head?_ne_caret {phrase : Phrase} {n m : Nat} {tree : Pattern}
    (h : Derives phrase n text tree m) : text.head? ≠ some '^' := by
  induction h with
  | literal hc hdot =>
    rintro ⟨⟩
    simp [reserved] at hc
  | dot => simp
  | whitespace => simp
  | notWhitespace => simp
  | escaped hs hS => simp
  | charClass h hne => simp
  | group h ih => simp
  | term h kinds ih => rwa [List.head?_append_of_ne_nil _ h.atom_ne_nil]
  | empty => simp
  | single h ih => exact ih
  | concat h hstart h' ih ih' => rwa [List.head?_append_of_ne_nil _ h.term_ne_nil]
  | last h ih => exact ih
  | @union _ _ _ _ text text' _ _ h h' ih ih' =>
    cases text with
    | nil => simp
    | cons c text => exact ih

end Paired

end Grammar

namespace Reader

variable {text : List Char}

/-- The run of backslashes at the end is even unless its last backslash waits. -/
theorem even_run_eq (text : List Char) :
    ((text.reverse.takeWhile (· == '\\')).length % 2 == 0) = !waits text := by
  have hsucc : ∀ n : Nat, ((n + 1) % 2 == 0) = !(n % 2 == 0) := by
    intro n
    rcases Nat.mod_two_eq_zero_or_one n with h | h <;> simp [Nat.add_mod, h]
  induction text using List.reverseRecOn with
  | nil => rfl
  | append_singleton text c ih =>
    rw [List.reverse_append, List.reverse_singleton, List.singleton_append, List.takeWhile_cons,
      waits_append]
    by_cases hc : c = '\\'
    · simp only [hc, beq_self_eq_true, ↓reduceIte, List.length_cons, hsucc, ih, Bool.and_true]
    · simp [hc]

theorem endsInAnchor_append (text : List Char) : endsInAnchor (text ++ ['$']) = !waits text := by
  simp [endsInAnchor, ← even_run_eq]

theorem endsInAnchor_of_paired (h : Paired text) : endsInAnchor text = false := by
  cases text using List.reverseRecOn with
  | nil => rfl
  | append_singleton before c _ =>
    by_cases hc : c = '$'
    · subst hc
      rw [endsInAnchor_append, h.waits_of_dollar]
      rfl
    · simp [endsInAnchor, hc]

theorem dropLast_append_dollar (h : endsInAnchor text = true) : text.dropLast ++ ['$'] = text := by
  cases text using List.reverseRecOn with
  | nil => cases h
  | append_singleton before c _ =>
    by_cases hc : c = '$'
    · rw [hc, List.dropLast_concat]
    · simp [endsInAnchor, hc] at h

/-- The text, put together again from the anchors that are found and from what lies between them. -/
theorem text_ofChars (text : List Char) :
    text = (if (ofChars text).2.1 then ['^'] else []) ++ (ofChars text).1.rest ++
      (if (ofChars text).2.2 then ['$'] else []) := by
  have hright : ∀ body : List Char,
      (if endsInAnchor body then body.dropLast else body) ++
        (if endsInAnchor body then ['$'] else []) = body := by
    intro body
    cases hanchor : endsInAnchor body with
    | true => exact dropLast_append_dollar hanchor
    | false => simp
  rw [List.append_assoc]
  by_cases hleft : text.head? = some '^'
  · simp only [ofChars, hleft, ↓reduceIte, decide_true, hright]
    exact List.eq_cons_of_mem_head? hleft
  · simp [ofChars, hleft, hright]

/-- The anchors of a text are found if nothing between them can be taken for one. -/
theorem ofChars_eq (left right : Bool) (hcaret : text.head? ≠ some '^') (h : Paired text) :
    ofChars ((if left then ['^'] else []) ++ text ++ (if right then ['$'] else [])) =
      (⟨text, left.toNat, 0, none⟩, left, right) := by
  have hbody : ∀ body : List Char, body = text ++ (if right then ['$'] else []) →
      endsInAnchor body = right ∧ (if right then body.dropLast else body) = text := by
    rintro _ rfl
    cases right with
    | false => simpa using endsInAnchor_of_paired h
    | true => simp [endsInAnchor_append, h.waits_eq_false]
  obtain ⟨hanchor, hwindow⟩ := hbody _ rfl
  cases left with
  | true => simp [ofChars, hanchor, hwindow]
  | false =>
    have hhead : (text ++ if right then ['$'] else []).head? ≠ some '^' := by
      cases text with
      | nil => cases right <;> simp
      | cons c text => exact hcaret
    simp only [Bool.false_eq_true, ↓reduceIte, List.nil_append, ofChars, hhead, decide_false, hanchor,
      hwindow, Bool.toNat_false]

end Reader

namespace Pattern

variable {text : String} {pattern : Pattern}

/-- What is read was written by the grammar. -/
theorem derives_of_parse_eq_ok (h : Pattern.parse text = .ok pattern) :
    ∃ left right inside tree groups, pattern = .anchored left right tree ∧
      text.toList = (if left then ['^'] else []) ++ inside ++ (if right then ['$'] else []) ∧
      Derives (.union true) 0 inside tree groups := by
  have htext := Reader.text_ofChars text.toList
  simp only [Pattern.parse, Pattern.ofChars] at h
  split at h
  · rename_i tree r hread
    split at h
    · rename_i hrest
      cases h
      obtain ⟨inside, hinside, hderives⟩ := Reader.readsBefore_unionWithin _ _ _ _ hread
      rw [hrest, List.append_nil] at hinside
      rw [hinside] at htext
      rw [hrest] at hderives
      exact ⟨_, _, inside, tree, r.groups, rfl, htext, hderives (by simp)⟩
    · cases h
  · cases h

/-- What the grammar writes is read. -/
theorem parse_eq_ok_of_derives {left right : Bool} {inside : List Char} {tree : Pattern} {groups : Nat}
    (htext : text.toList = (if left then ['^'] else []) ++ inside ++ (if right then ['$'] else []))
    (hderives : Derives (.union true) 0 inside tree groups) :
    Pattern.parse text = .ok (.anchored left right tree) := by
  obtain ⟨r, hread, hrest, -⟩ :=
    Reader.isRead_of_derives hderives inside.length ⟨inside, left.toNat, 0, none⟩ [] (Nat.le_refl _)
      (List.append_nil inside).symm rfl (Reader.follows_nil _)
  have hstart := Reader.ofChars_eq left right hderives.head?_ne_caret (.of_derives hderives)
  have hunion : Reader.unionWithin (inside.length + 1) ⟨inside, left.toNat, 0, none⟩ =
      (some tree, r) := hread
  simp only [Pattern.parse, Pattern.ofChars, htext, hstart, hunion, hrest, ↓reduceIte]

/-- A text is read if and only if it is written by the grammar between its anchors. Its tree is the one
that the grammar gives it. -/
theorem parse_eq_ok_iff :
    Pattern.parse text = .ok pattern ↔
      ∃ left right inside tree groups, pattern = .anchored left right tree ∧
        text.toList = (if left then ['^'] else []) ++ inside ++ (if right then ['$'] else []) ∧
        Derives (.union true) 0 inside tree groups := by
  constructor
  · exact derives_of_parse_eq_ok
  · rintro ⟨left, right, inside, tree, groups, rfl, htext, hderives⟩
    exact parse_eq_ok_of_derives htext hderives

end Pattern

end PatternAutomata
