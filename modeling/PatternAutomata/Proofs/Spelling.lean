import Mathlib.Computability.Language
import PatternAutomata.Pattern.Basic
import PatternAutomata.Proofs.CharSets

/-!
# Languages and graphs

The language of a pattern is said without automata: groups are transparent, and an anchored tree that
is open on the left starts with a run of characters other than the newline. An automaton is seen as a
graph whose steps read one character or none, and a word leads from one node to another when the
characters read along some path spell it.
-/

namespace PatternAutomata

/-- The words that repetition makes of those of a language. -/
def Repetition.language (kind : Repetition) (l : Language Char) : Language Char :=
  match kind with
  | .star => KStar.kstar l
  | .plus => l * KStar.kstar l
  | .optional => 1 + l

/-- The words of one character with a property. -/
def letters (P : Char → Prop) : Language Char := {w | ∃ c, P c ∧ w = [c]}

theorem mem_letters {P : Char → Prop} {w : List Char} : w ∈ letters P ↔ ∃ c, P c ∧ w = [c] := Iff.rfl

theorem letters_congr {P Q : Char → Prop} (h : ∀ c, P c ↔ Q c) : letters P = letters Q :=
  congrArg letters (funext fun c => propext (h c))

/-- The words of any number of characters on one line. -/
def lineLanguage : Language Char := {w | '\n' ∉ w}

theorem mem_lineLanguage {w : List Char} : w ∈ lineLanguage ↔ '\n' ∉ w := Iff.rfl

namespace Pattern

/-- The words that a pattern stands for. -/
def language : Pattern → Language Char
  | .empty => 1
  | .literal c => letters (· = c)
  | .charClass cls => letters cls.Matches
  | .union left right => language left + language right
  | .concat left right => language left * language right
  | .repeated kind inner => kind.language (language inner)
  | .group _ inner => language inner
  | .anchored true _ inner => language inner
  | .anchored false _ inner => lineLanguage * language inner

end Pattern

/-- A step leads from one node to another, on a character or without reading one. -/
abbrev Graph := Nat → Option Char → Nat → Prop

namespace Graph

/-- Some path from one node to another spells the word. -/
inductive Spells (G : Graph) : Nat → List Char → Nat → Prop
  | refl (p : Nat) : Spells G p [] p
  | step {p q r : Nat} {o : Option Char} {w : List Char} (hs : G p o q) (h : Spells G q w r) :
      Spells G p (o.toList ++ w) r

variable {G H : Graph} {p q r : Nat} {u v w : List Char}

theorem Spells.trans (h : G.Spells p u q) (h' : G.Spells q v r) : G.Spells p (u ++ v) r := by
  induction h with
  | refl p => exact h'
  | step hs _ ih =>
    rw [List.append_assoc]
    exact .step hs (ih h')

theorem Spells.single {o : Option Char} (h : G p o q) : G.Spells p o.toList q :=
  o.toList.append_nil ▸ .step h (.refl q)

theorem Spells.silent (h : G p none q) : G.Spells p [] q := .single h

theorem Spells.mono (hsub : ∀ p o q, G p o q → H p o q) (h : G.Spells p w q) : H.Spells p w q := by
  induction h with
  | refl p => exact .refl p
  | step hs _ ih => exact .step (hsub _ _ _ hs) ih

/-- A path reads each character of its word by a step of its own. -/
theorem Spells.exists_read {c : Char} (h : G.Spells p (u ++ c :: v) r) :
    ∃ q q', G.Spells p u q ∧ G q (some c) q' ∧ G.Spells q' v r := by
  generalize hw : u ++ c :: v = w at h
  induction h generalizing u with
  | refl p => simp at hw
  | @step p q r o w hs h ih =>
    cases o with
    | none =>
      obtain ⟨s, s', hu, hc, hv⟩ := ih hw
      exact ⟨s, s', .step hs hu, hc, hv⟩
    | some d =>
      cases u with
      | nil =>
        obtain ⟨rfl, rfl⟩ := List.cons.inj hw
        exact ⟨p, q, .refl p, hs, h⟩
      | cons e u =>
        obtain ⟨rfl, htail⟩ := List.cons.inj hw
        obtain ⟨s, s', hu, hc, hv⟩ := ih htail
        exact ⟨s, s', .step hs hu, hc, hv⟩

/-- A node that no step leaves spells only the empty word, to itself. -/
theorem Spells.of_stuck (hstuck : ∀ o q, ¬G p o q) (h : G.Spells p w r) : w = [] ∧ p = r := by
  cases h with
  | refl => exact ⟨rfl, rfl⟩
  | step hs _ => exact (hstuck _ _ hs).elim

/-- A path from a node whose only step is silent and leads to `q`. -/
theorem spells_iff_of_sole_step (hsole : ∀ o q', G p o q' ↔ o = none ∧ q' = q) (hpr : p ≠ r) :
    G.Spells p w r ↔ G.Spells q w r := by
  constructor
  · intro h
    cases h with
    | refl => exact (hpr rfl).elim
    | step hs h =>
      obtain ⟨rfl, rfl⟩ := (hsole _ _).mp hs
      exact h
  · exact fun h => .step ((hsole none q).mpr ⟨rfl, rfl⟩) h

/-- A path that starts in a part whose steps stay in it is a path of the part. -/
theorem Spells.confined (inside : Nat → Prop)
    (hstep : ∀ p o q, inside p → G p o q → H p o q ∧ inside q)
    (h : G.Spells p w r) (hp : inside p) : H.Spells p w r ∧ inside r := by
  induction h with
  | refl p => exact ⟨.refl p, hp⟩
  | step hs _ ih =>
    obtain ⟨hH, hq⟩ := hstep _ _ _ hp hs
    exact ⟨.step hH (ih hq).1, (ih hq).2⟩

/-- A path out of a part goes to the exit of the part, leaves it there, and goes on. -/
theorem Spells.leave {inside : Nat → Prop} {exit : Nat}
    (hstep : ∀ p o q, inside p → G p o q → H p o q ∧ inside q ∨ p = exit ∧ o = none)
    (h : G.Spells p w r) (hp : inside p) (hr : ¬inside r) :
    ∃ u v q, w = u ++ v ∧ H.Spells p u exit ∧ G exit none q ∧ G.Spells q v r := by
  induction h with
  | refl p => exact (hr hp).elim
  | @step p q r o w hs h ih =>
    rcases hstep p o q hp hs with ⟨hH, hq⟩ | ⟨rfl, rfl⟩
    · obtain ⟨u, v, q', rfl, hu, hleave, hv⟩ := ih hq hr
      exact ⟨o.toList ++ u, v, q', by rw [List.append_assoc], .step hH hu, hleave, hv⟩
    · exact ⟨[], w, q, rfl, .refl p, hs, h⟩

end Graph

end PatternAutomata
