import PatternAutomata.Proofs.Grammar

/-!
# Scanning the start of a pattern

What may follow the start of a pattern depends on how many groups are open there, and on whether it stands
at the start of a branch, behind a term, behind a backslash or somewhere in a class. A scan keeps track of
both, and stops at a character behind which nothing is a pattern any more. Each text that it gets through
can be completed.
-/

namespace PatternAutomata

open Grammar

/-- Where in a pattern a text ends. -/
inductive ScanMode where
  /-- At the start of a branch. -/
  | branch
  /-- Behind a term. -/
  | term
  | escape
  /-- Behind the bracket that opens a class, where a caret may follow. -/
  | opened
  | negated
  /-- Behind an item of a class. -/
  | items
  | itemEscape
  deriving DecidableEq, Repr

namespace ScanMode

/-- Whether a term may follow. -/
def outside : ScanMode → Bool
  | .branch | .term => true
  | _ => false

/-- Whether an item of a class may follow. -/
def inClass : ScanMode → Bool
  | .opened | .negated | .items => true
  | _ => false

/-- Whether the next character is escaped. -/
def waits : ScanMode → Bool
  | .escape | .itemEscape => true
  | _ => false

variable {mode : ScanMode}

theorem waits_of_outside (h : mode.outside) : mode.waits = false := by
  cases mode <;> first | rfl | cases h

theorem waits_of_inClass (h : mode.inClass) : mode.waits = false := by
  cases mode <;> first | rfl | cases h

theorem outside_of_inClass (h : mode.inClass) : mode.outside = false := by
  cases mode <;> first | rfl | cases h

end ScanMode

structure Scan where
  /-- How many groups are open. -/
  depth : Nat
  mode : ScanMode
  deriving DecidableEq, Repr

namespace Scan

def step? (s : Scan) (c : Char) : Option Scan :=
  match s.mode with
  | .branch | .term =>
    if c = '(' then some ⟨s.depth + 1, .branch⟩
    else if c = '|' then some ⟨s.depth, .branch⟩
    else if c = '[' then some ⟨s.depth, .opened⟩
    else if c = '\\' then some ⟨s.depth, .escape⟩
    -- The last branch of a group is not empty.
    else if c = ')' ∧ s.mode = .term ∧ s.depth ≠ 0 then some ⟨s.depth - 1, .term⟩
    else if c ∈ reserved then none
    else some ⟨s.depth, .term⟩
  | .opened | .negated | .items =>
    if c = '\\' then some ⟨s.depth, .itemEscape⟩
    else if c = '^' ∧ s.mode = .opened then some ⟨s.depth, .negated⟩
    else if c = ']' ∧ s.mode = .items then some ⟨s.depth, .term⟩
    else if c ∈ reserved then none
    else some ⟨s.depth, .items⟩
  | .escape => some ⟨s.depth, .term⟩
  | .itemEscape => some ⟨s.depth, .items⟩

def scan? (s : Scan) (text : List Char) : Option Scan := text.foldlM step? s

/-- The place before the first character between the anchors. -/
def start : Scan := ⟨0, .branch⟩

/-- A pattern may end here. -/
def Whole (s : Scan) : Prop := s.depth = 0 ∧ s.mode.outside

variable {s s' : Scan} {c : Char} {text text' : List Char} {d : Nat} {mode : ScanMode}

@[simp] theorem scan?_nil : s.scan? [] = some s := rfl

theorem scan?_cons : s.scan? (c :: text) = (s.step? c).bind (·.scan? text) := rfl

theorem scan?_append : s.scan? (text ++ text') = (s.scan? text).bind (·.scan? text') :=
  List.foldlM_append

theorem scan?_concat : s.scan? (text ++ [c]) = (s.scan? text).bind (·.step? c) := by
  rw [scan?_append]
  congr 1
  funext s'
  exact bind_pure (s'.step? c)

/-- A scan can be stopped earlier. -/
theorem exists_scan?_of_append (h : s.scan? (text ++ text') = some s') :
    ∃ between, s.scan? text = some between := by
  rw [scan?_append, Option.bind_eq_some_iff] at h
  obtain ⟨between, hbetween, -⟩ := h
  exact ⟨between, hbetween⟩

/-! ### Steps -/

theorem step?_open (h : mode.outside) : step? ⟨d, mode⟩ '(' = some ⟨d + 1, .branch⟩ := by
  cases mode <;> first | rfl | cases h

theorem step?_bar (h : mode.outside) : step? ⟨d, mode⟩ '|' = some ⟨d, .branch⟩ := by
  cases mode <;> first | rfl | cases h

theorem step?_bracket (h : mode.outside) : step? ⟨d, mode⟩ '[' = some ⟨d, .opened⟩ := by
  cases mode <;> first | rfl | cases h

theorem step?_backslash (h : mode.outside) : step? ⟨d, mode⟩ '\\' = some ⟨d, .escape⟩ := by
  cases mode <;> first | rfl | cases h

theorem step?_close : step? ⟨d + 1, .term⟩ ')' = some ⟨d, .term⟩ := rfl

theorem step?_literal (h : mode.outside) (hc : c ∉ reserved) :
    step? ⟨d, mode⟩ c = some ⟨d, .term⟩ := by
  have hmem := hc
  simp only [reserved, List.mem_cons, List.not_mem_nil, or_false, not_or] at hmem
  cases mode <;> simp_all [step?, ScanMode.outside]

theorem step?_outside_eq_none (h : mode.outside) (hc : c = ']' ∨ c = '^' ∨ c = '$') :
    step? ⟨d, mode⟩ c = none := by
  rcases hc with rfl | rfl | rfl
  all_goals cases mode <;> first | rfl | cases h

/-- An empty branch is not closed. -/
theorem step?_branch_close : step? ⟨d, .branch⟩ ')' = none := rfl

/-- Outside of all groups there is none to be closed. -/
theorem step?_zero_close (h : mode.outside) : step? ⟨0, mode⟩ ')' = none := by
  cases mode <;> first | rfl | cases h

theorem step?_itemBackslash (h : mode.inClass) :
    step? ⟨d, mode⟩ '\\' = some ⟨d, .itemEscape⟩ := by
  cases mode <;> first | rfl | cases h

theorem step?_item (h : mode.inClass) (hc : c ∉ reserved) : step? ⟨d, mode⟩ c = some ⟨d, .items⟩ := by
  have hmem := hc
  simp only [reserved, List.mem_cons, List.not_mem_nil, or_false, not_or] at hmem
  cases mode <;> simp_all [step?, ScanMode.inClass]

theorem step?_caret : step? ⟨d, .opened⟩ '^' = some ⟨d, .negated⟩ := rfl

theorem step?_class_close : step? ⟨d, .items⟩ ']' = some ⟨d, .term⟩ := rfl

/-- A class that has an item goes on with one or ends, and no other class ends. -/
theorem step?_class_eq_none (h : mode.inClass) (hc : c ∈ reserved) (hbackslash : c ≠ '\\')
    (hcaret : mode = .opened → c ≠ '^') (hclose : mode = .items → c ≠ ']') :
    step? ⟨d, mode⟩ c = none := by
  cases mode <;> simp_all [step?, ScanMode.inClass]

/-! ### Derived texts -/

theorem scan?_classText {items : List ClassItem} (h : ClassText text items) (hm : mode.inClass) :
    scan? ⟨d, mode⟩ text = some ⟨d, if items = [] then mode else .items⟩ := by
  have hmore : ∀ c ∉ reserved, step? ⟨d, .items⟩ c = some ⟨d, .items⟩ := fun c hc => step?_item rfl hc
  have hescaped : ∀ c, step? ⟨d, .itemEscape⟩ c = some ⟨d, .items⟩ := fun c => rfl
  induction h generalizing mode with
  | nil => rfl
  | range hlo hhi h ih =>
    have hrest := ih (rfl : ScanMode.items.inClass)
    simp [scan?_cons, step?_item hm hlo, hmore '-' (by decide), hmore _ hhi, hrest]
  | whitespace h ih | notWhitespace h ih | escaped hs hS h ih =>
    have hrest := ih (rfl : ScanMode.items.inClass)
    simp [scan?_cons, step?_itemBackslash hm, hescaped, hrest]
  | literal hc hrange h ih =>
    have hrest := ih (rfl : ScanMode.items.inClass)
    simp [scan?_cons, step?_item hm hc, hrest]

theorem scan?_symbols (kinds : List Repetition) :
    scan? ⟨d, .term⟩ (kinds.map Repetition.symbol) = some ⟨d, .term⟩ := by
  induction kinds with
  | nil => rfl
  | cons kind kinds ih =>
    have hsymbol : step? ⟨d, .term⟩ kind.symbol = some ⟨d, .term⟩ := by cases kind <;> rfl
    rw [List.map_cons, scan?_cons, hsymbol]
    exact ih

end Scan

/-- Whether there may be nothing behind the last bar of the phrase. -/
def Grammar.Phrase.mayEndEmpty : Phrase → Bool
  | .atom | .term => false
  | .branch mayBeEmpty => mayBeEmpty
  | .union mayEndEmpty => mayEndEmpty

open Scan in
/-- A phrase closes the groups that it opens. -/
theorem Grammar.Derives.exists_scan {phrase : Phrase} {n m d : Nat} {text : List Char} {tree : Pattern}
    {mode : ScanMode} (h : Derives phrase n text tree m) (hm : mode.outside) :
    ∃ mode', mode'.outside ∧ Scan.scan? ⟨d, mode⟩ text = some ⟨d, mode'⟩ ∧
      (phrase.mayEndEmpty = false → mode' = .term) := by
  induction h generalizing d mode with
  | literal hc hdot => exact ⟨.term, rfl, by simp [scan?_cons, step?_literal hm hc], fun _ => rfl⟩
  | dot =>
    exact ⟨.term, rfl, by simp [scan?_cons, step?_literal hm (by decide : '.' ∉ reserved)], fun _ => rfl⟩
  | whitespace | notWhitespace | escaped =>
    refine ⟨.term, rfl, ?_, fun _ => rfl⟩
    rw [scan?_cons, step?_backslash hm]
    rfl
  | @charClass n negated text items h hne =>
    refine ⟨.term, rfl, ?_, fun _ => rfl⟩
    have hinside : ∀ mode : ScanMode, mode.inClass →
        Scan.scan? ⟨d, mode⟩ (text ++ [']']) = some ⟨d, .term⟩ := by
      intro mode hmode
      rw [scan?_concat, scan?_classText h hmode, if_neg hne]
      exact step?_class_close
    cases negated with
    | false => simpa [scan?_cons, step?_bracket hm] using hinside .opened rfl
    | true => simpa [scan?_cons, step?_bracket hm, step?_caret] using hinside .negated rfl
  | @group n m text inner h ih =>
    obtain ⟨mode', -, hscan, hterm⟩ := ih (d := d + 1) (rfl : ScanMode.branch.outside)
    obtain rfl := hterm rfl
    refine ⟨.term, rfl, ?_, fun _ => rfl⟩
    rw [List.cons_append, scan?_cons, step?_open hm, Option.bind_some, scan?_concat, hscan]
    exact step?_close
  | term h kinds ih =>
    obtain ⟨mode', -, hscan, hterm⟩ := ih (d := d) hm
    obtain rfl := hterm rfl
    refine ⟨.term, rfl, ?_, fun _ => rfl⟩
    rw [scan?_append, hscan]
    exact scan?_symbols kinds
  | empty => exact ⟨mode, hm, rfl, fun hempty => by cases hempty⟩
  | single h ih =>
    obtain ⟨mode', hmode', hscan, hterm⟩ := ih (d := d) hm
    exact ⟨mode', hmode', hscan, fun _ => hterm rfl⟩
  | concat h hstart h' ih ih' =>
    obtain ⟨mode₁, hmode₁, hscan, -⟩ := ih (d := d) hm
    obtain ⟨mode₂, hmode₂, hscan', hterm⟩ := ih' (d := d) hmode₁
    refine ⟨mode₂, hmode₂, ?_, fun _ => hterm rfl⟩
    rw [scan?_append, hscan]
    exact hscan'
  | last h ih => exact ih hm
  | union h h' ih ih' =>
    obtain ⟨mode₁, hmode₁, hscan, -⟩ := ih (d := d) hm
    obtain ⟨mode₂, hmode₂, hscan', hterm⟩ := ih' (d := d) (rfl : ScanMode.branch.outside)
    refine ⟨mode₂, hmode₂, ?_, hterm⟩
    rw [scan?_append, hscan, Option.bind_some, scan?_cons, step?_bar hmode₁]
    exact hscan'

namespace Scan

variable {s s' : Scan} {c : Char} {text : List Char} {d : Nat}

/-! ### Completion -/

theorem scan?_closes (d : Nat) :
    scan? ⟨d, .term⟩ (List.replicate d ')') = some ⟨0, .term⟩ := by
  induction d with
  | zero => rfl
  | succ d ih =>
    rw [List.replicate_succ, scan?_cons, step?_close]
    exact ih

/-- What is begun can be finished, and the open groups can be closed. -/
theorem exists_completion (s : Scan) : ∃ text s', s.scan? text = some s' ∧ s'.Whole := by
  have hfinish : ∃ text, s.scan? text = some ⟨s.depth, .term⟩ := by
    obtain ⟨d, mode⟩ := s
    cases mode with
    | branch | escape => exact ⟨['a'], rfl⟩
    | term => exact ⟨[], rfl⟩
    | opened | negated | itemEscape => exact ⟨['a', ']'], rfl⟩
    | items => exact ⟨[']'], rfl⟩
  obtain ⟨text, hfinish⟩ := hfinish
  refine ⟨text ++ List.replicate s.depth ')', ⟨0, .term⟩, ?_, rfl, rfl⟩
  rw [scan?_append, hfinish]
  exact scan?_closes s.depth

/-! ### Escapes -/

theorem waits_step (h : s.step? c = some s') : s'.mode.waits = (!s.mode.waits && c == '\\') := by
  obtain ⟨d, mode⟩ := s
  by_cases hc : c = '\\'
  · subst hc
    cases mode <;> cases h <;> rfl
  · cases mode
    all_goals
      simp only [step?, hc, ↓reduceIte] at h
      repeat' split at h
      all_goals
        cases h
        try simp [ScanMode.waits, hc]

/-- The scan knows whether the text ends in a backslash that escapes what comes next. -/
theorem waits_scan? (h : start.scan? text = some s) : s.mode.waits = Grammar.waits text := by
  induction text using List.reverseRecOn generalizing s with
  | nil =>
    cases h
    rfl
  | append_singleton text c ih =>
    rw [scan?_concat, Option.bind_eq_some_iff] at h
    obtain ⟨before, hbefore, hstep⟩ := h
    rw [waits_step hstep, ih hbefore, waits_append]

/-- Only an escape takes a dollar sign. -/
theorem step?_dollar (h : s.mode.waits = false) : s.step? '$' = none := by
  obtain ⟨d, mode⟩ := s
  cases mode <;> first | rfl | cases h

end Scan

end PatternAutomata
