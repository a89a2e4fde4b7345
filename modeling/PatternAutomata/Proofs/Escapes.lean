import Mathlib.Data.List.TakeDrop
import PatternAutomata.Text.Escape

/-!
# Escaped text can be read back

Both ways to escape a character can be undone by one reader, whatever stands behind the character: what
follows a backslash tells what it means, and a code point ends at its closing brace. So no escaped
character is the start of another one, and what is escaped once more can be read back as well.

A text can stand between double quotes if each of its quotes and backslashes is taken by a backslash in
front of it. Text that is escaped down to printable ASCII can.
-/

namespace PatternAutomata

/-- A text that starts with the code of an item tells the item and what is behind it. -/
def SelfDelimiting {α β : Type} (code : α → List β) : Prop :=
  ∀ a b before after, code a ++ before = code b ++ after → a = b ∧ before = after

section SelfDelimiting

variable {α β γ : Type} {f : α → List β} {g : β → List γ}

/-- Of two texts in such a code, the one with fewer items is the start of the other. -/
theorem SelfDelimiting.append_eq_flatMap (hg : SelfDelimiting g) {us vs : List β} {xs ys : List γ}
    (h : us.flatMap g ++ xs = vs.flatMap g ++ ys) :
    (∃ ws, us = vs ++ ws) ∨ ∃ ws, vs = us ++ ws := by
  induction us generalizing vs with
  | nil => exact .inr ⟨vs, rfl⟩
  | cons u us ih =>
    cases vs with
    | nil => exact .inl ⟨u :: us, rfl⟩
    | cons v vs =>
      simp only [List.flatMap_cons, List.append_assoc] at h
      obtain ⟨rfl, hrest⟩ := hg _ _ _ _ h
      rcases ih hrest with ⟨ws, rfl⟩ | ⟨ws, rfl⟩
      · exact .inl ⟨ws, rfl⟩
      · exact .inr ⟨ws, rfl⟩

/-- A code whose letters are written in another code. -/
theorem SelfDelimiting.flatMap (hf : SelfDelimiting f) (hg : SelfDelimiting g) :
    SelfDelimiting fun a => (f a).flatMap g := by
  intro a b before after h
  have hab : a = b := by
    rcases hg.append_eq_flatMap h with ⟨ws, heq⟩ | ⟨ws, heq⟩
    · exact (hf a b [] ws (by rw [List.append_nil, heq])).1
    · exact (hf b a [] ws (by rw [List.append_nil, heq])).1.symm
  subst hab
  exact ⟨rfl, List.append_cancel_left h⟩

end SelfDelimiting

namespace Text

/-! ### Hexadecimal digits -/

def hexValue (digit : Char) : Nat :=
  if digit.isDigit then digit.toNat - '0'.toNat else digit.toNat - 'a'.toNat + 10

/-- The number with the given hexadecimal digits. -/
def readHex (digits : List Char) : Nat := digits.foldl (fun n digit => 16 * n + hexValue digit) 0

theorem hexValue_digitChar : ∀ d < 16, hexValue d.digitChar = d := by decide

theorem forall_mem_toDigits {P : Char → Prop} (hP : ∀ d < 16, P d.digitChar) (n : Nat) :
    ∀ digit ∈ Nat.toDigits 16 n, P digit := by
  induction n using Nat.strongRecOn with
  | ind n ih =>
    rw [Nat.toDigits_eq_if (by decide)]
    split
    · rename_i hlt
      simpa using hP n hlt
    · rename_i hge
      intro digit hdigit
      rcases List.mem_append.mp hdigit with hdigit | hdigit
      · exact ih (n / 16) (by omega) digit hdigit
      · exact List.mem_singleton.mp hdigit ▸ hP (n % 16) (Nat.mod_lt n (by decide))

theorem readHex_toDigits (n : Nat) : readHex (Nat.toDigits 16 n) = n := by
  induction n using Nat.strongRecOn with
  | ind n ih =>
    rw [Nat.toDigits_eq_if (by decide)]
    split
    · rename_i hlt
      simp [readHex, hexValue_digitChar n hlt]
    · rename_i hge
      have hdiv : readHex (Nat.toDigits 16 (n / 16)) = n / 16 := ih (n / 16) (by omega)
      have hmod := hexValue_digitChar (n % 16) (Nat.mod_lt n (by decide))
      rw [readHex] at hdiv
      rw [readHex, List.foldl_append, hdiv, List.foldl_cons, List.foldl_nil, hmod]
      exact Nat.div_add_mod n 16

/-! ### Reading back -/

/-- What a character behind a backslash stands for. -/
def unescaped (letter : Char) : Char :=
  if letter = 't' then '\t'
  else if letter = 'r' then '\r'
  else if letter = 'n' then '\n'
  else if letter = '0' then '\x00'
  else letter

/-- Reads one escaped character, and returns what is behind it as well. -/
def readEscaped : List Char → Option (Char × List Char)
  | [] => none
  | '\\' :: 'u' :: '\x7b' :: text =>
    let (digits, rest) := text.span (· ≠ '\x7d')
    some (Char.ofNat (readHex digits), rest.tail)
  | '\\' :: letter :: text => some (unescaped letter, text)
  | c :: text => some (c, text)

variable {c letter : Char} {text text' : List Char} {quotes : Quotes}

theorem readEscaped_of_ne (h : c ≠ '\\') : readEscaped (c :: text) = some (c, text) := by
  rw [readEscaped]
  · exact fun _ heq => absurd heq h
  · exact fun _ _ heq => absurd heq h

theorem readEscaped_letter (h : letter ≠ 'u') :
    readEscaped ('\\' :: letter :: text) = some (unescaped letter, text) := by
  rw [readEscaped]
  exact fun _ heq => absurd heq h

theorem readEscaped_escapeCodePoint (c : Char) (text : List Char) :
    readEscaped (escapeCodePoint c ++ text) = some (c, text) := by
  have hbrace : ∀ digit ∈ Nat.toDigits 16 c.toNat, digit ≠ '\x7d' :=
    forall_mem_toDigits (by decide) c.toNat
  have hspan : (Nat.toDigits 16 c.toNat ++ '\x7d' :: text).span (· ≠ '\x7d') =
      (Nat.toDigits 16 c.toNat, '\x7d' :: text) := by
    rw [List.span_eq_takeWhile_dropWhile, List.takeWhile_append_of_pos (by simpa using hbrace),
      List.dropWhile_append_of_pos (by simpa using hbrace)]
    simp
  simp only [escapeCodePoint, List.cons_append, List.append_assoc, List.nil_append]
  rw [readEscaped]
  simp only [hspan, readHex_toDigits, Char.ofNat_toNat, List.tail_cons]

theorem shortEscape?_eq_some (h : shortEscape? c = some letter) :
    letter ≠ 'u' ∧ unescaped letter = c := by
  simp only [shortEscape?] at h
  repeat' split at h
  all_goals
    cases h
    try
      subst c
      decide

theorem ne_backslash_of_shortEscape? (h : shortEscape? c = none) : c ≠ '\\' := by
  rintro rfl
  cases h

theorem Quotes.marks_iff : quotes.marks c = true ↔
    quotes.single = true ∧ c = '\x27' ∨ quotes.double = true ∧ c = '\x22' := by
  simp [Quotes.marks]

theorem readEscaped_mark (h : quotes.marks c = true) :
    readEscaped ('\\' :: c :: text) = some (c, text) := by
  rcases Quotes.marks_iff.mp h with ⟨-, rfl⟩ | ⟨-, rfl⟩
  all_goals rfl

/-- A character that is shown where it can be seen is read back. -/
theorem readEscaped_escapeHidden (quotes : Quotes) (c : Char) (text : List Char) :
    readEscaped (escapeHidden quotes c ++ text) = some (c, text) := by
  simp only [escapeHidden]
  split
  · rename_i hnul
    subst hnul
    rfl
  · split
    · rename_i letter hshort
      obtain ⟨hletter, rfl⟩ := shortEscape?_eq_some hshort
      exact readEscaped_letter hletter
    · rename_i hshort
      split
      · rename_i hmark
        exact readEscaped_mark hmark
      · split
        · exact readEscaped_of_ne (ne_backslash_of_shortEscape? hshort)
        · exact readEscaped_escapeCodePoint c text

/-- So is one that is kept where it is printable ASCII. -/
theorem readEscaped_escapeForeign (c : Char) (text : List Char) :
    readEscaped (escapeForeign c ++ text) = some (c, text) := by
  simp only [escapeForeign]
  split
  · rename_i letter hshort
    obtain ⟨hletter, rfl⟩ := shortEscape?_eq_some hshort
    exact readEscaped_letter hletter
  · rename_i hshort
    split
    · rename_i hmark
      exact readEscaped_mark hmark
    · split
      · exact readEscaped_of_ne (ne_backslash_of_shortEscape? hshort)
      · exact readEscaped_escapeCodePoint c text

theorem selfDelimiting_of_readEscaped {code : Char → List Char}
    (h : ∀ c text, readEscaped (code c ++ text) = some (c, text)) : SelfDelimiting code := by
  intro a b before after heq
  have hread : some (a, before) = some (b, after) := by rw [← h a before, ← h b after, heq]
  exact Prod.mk.inj (Option.some.inj hread)

theorem selfDelimiting_escapeHidden (quotes : Quotes) : SelfDelimiting (escapeHidden quotes) :=
  selfDelimiting_of_readEscaped (readEscaped_escapeHidden quotes)

theorem selfDelimiting_escapeForeign : SelfDelimiting escapeForeign :=
  selfDelimiting_of_readEscaped readEscaped_escapeForeign

/-! ### Text between double quotes -/

/-- The characters that stand for themselves: from left to right, each backslash is taken together with
the character behind it. -/
def bareChars : List Char → List Char
  | [] => []
  | '\\' :: _ :: text => bareChars text
  | c :: text => c :: bareChars text

theorem bareChars_of_ne (h : c ≠ '\\') : bareChars (c :: text) = c :: bareChars text := by
  rw [bareChars]
  exact fun _ _ heq => absurd heq h

/-- Wherever the text stands, none of its characters ends a quotation or takes what is behind the text. -/
def Quotable (text : List Char) : Prop :=
  ∀ rest, ∃ bare, bareChars (text ++ rest) = bare ++ bareChars rest ∧
    ∀ c ∈ bare, c ≠ '\x22' ∧ c ≠ '\\'

theorem Quotable.bareChars (h : Quotable text) : ∀ c ∈ bareChars text, c ≠ '\x22' ∧ c ≠ '\\' := by
  obtain ⟨bare, heq, hbare⟩ := h []
  rw [List.append_nil, Text.bareChars, List.append_nil] at heq
  exact heq ▸ hbare

theorem quotable_nil : Quotable [] := fun _ => ⟨[], rfl, by simp⟩

theorem Quotable.append (h : Quotable text) (h' : Quotable text') : Quotable (text ++ text') := by
  intro rest
  obtain ⟨bare', heq', hbare'⟩ := h' rest
  obtain ⟨bare, heq, hbare⟩ := h (text' ++ rest)
  refine ⟨bare ++ bare', by rw [List.append_assoc, heq, heq', List.append_assoc], fun c hc => ?_⟩
  exact (List.mem_append.mp hc).elim (hbare c) (hbare' c)

theorem quotable_singleton (hquote : c ≠ '\x22') (hbackslash : c ≠ '\\') : Quotable [c] :=
  fun _ => ⟨[c], bareChars_of_ne hbackslash, by simp [hquote, hbackslash]⟩

theorem quotable_of_forall_mem (h : ∀ c ∈ text, c ≠ '\x22' ∧ c ≠ '\\') : Quotable text := by
  induction text with
  | nil => exact quotable_nil
  | cons c text ih =>
    obtain ⟨⟨hquote, hbackslash⟩, htext⟩ := List.forall_mem_cons.mp h
    exact (quotable_singleton hquote hbackslash).append (ih htext)

/-- A backslash and the character that it takes. -/
theorem quotable_escape (letter : Char) : Quotable ['\\', letter] := fun _ => ⟨[], rfl, by simp⟩

theorem quotable_escapeCodePoint (c : Char) : Quotable (escapeCodePoint c) := by
  have hdigits : Quotable (Nat.toDigits 16 c.toNat) :=
    quotable_of_forall_mem (forall_mem_toDigits (by decide) c.toNat)
  have hopen : Quotable ['\x7b'] := quotable_singleton (by decide) (by decide)
  have hclose : Quotable ['\x7d'] := quotable_singleton (by decide) (by decide)
  exact (quotable_escape 'u').append (hopen.append (hdigits.append hclose))

theorem quotable_escapeForeign (c : Char) : Quotable (escapeForeign c) := by
  simp only [escapeForeign]
  split
  · exact quotable_escape _
  · rename_i hshort
    split
    · exact quotable_escape c
    · rename_i hmark
      split
      · refine quotable_singleton (fun hquote => hmark ?_) (ne_backslash_of_shortEscape? hshort)
        exact Quotes.marks_iff.mpr (.inr ⟨rfl, hquote⟩)
      · exact quotable_escapeCodePoint c

theorem Quotable.flatMap {α : Type} {f : α → List Char} {items : List α}
    (h : ∀ a ∈ items, Quotable (f a)) : Quotable (items.flatMap f) := by
  induction items with
  | nil => exact quotable_nil
  | cons a items ih =>
    obtain ⟨ha, hitems⟩ := List.forall_mem_cons.mp h
    exact ha.append (ih hitems)

end Text

end PatternAutomata
