import Mathlib
import PatternAutomata.Proofs.Compiled

/-!
# The numbers of groups

The groups of a phrase are numbered in the order of the tree, from the count before the phrase up to the
one behind it. No two groups of a tree that was read have the same number.

How many groups there are can be told from the text: each opening parenthesis opens one, unless it is the
character of an escape. The automaton has room for all of them and for the whole match.
-/

namespace PatternAutomata

namespace Grammar

/-- How many opening parentheses of the text are not the character of an escape. -/
def openings : List Char → Nat
  | [] => 0
  | '\\' :: _ :: rest => openings rest
  | c :: rest => (if c = '(' then 1 else 0) + openings rest

variable {text text' : List Char}

theorem openings_escape (c : Char) (text : List Char) : openings ('\\' :: c :: text) = openings text := by
  rw [openings]

theorem openings_plain {c : Char} (hc : c ≠ '\\') (text : List Char) :
    openings (c :: text) = (if c = '(' then 1 else 0) + openings text := by
  rw [openings]
  intro _ _ h
  exact (hc h).elim

/-- No escape reaches over the end of a text in which the escapes are whole. -/
theorem Paired.openings_append (h : Paired text) (text' : List Char) :
    openings (text ++ text') = openings text + openings text' := by
  induction h with
  | nil => simp [openings]
  | plain hbackslash hdollar h ih =>
    rw [List.cons_append, openings_plain hbackslash, openings_plain hbackslash, ih, Nat.add_assoc]
  | escape h ih => rw [List.cons_append, List.cons_append, openings_escape, openings_escape, ih]

theorem openings_literal {c : Char} (hc : c ∉ reserved) (text : List Char) :
    openings (c :: text) = openings text := by
  have hne : c ≠ '\\' ∧ c ≠ '(' := by
    constructor
    all_goals
      rintro rfl
      simp [reserved] at hc
  rw [openings_plain hne.1, if_neg hne.2, Nat.zero_add]

/-- No group is opened in a class. -/
theorem ClassText.openings_eq {items : List ClassItem} (h : ClassText text items) :
    openings text = 0 := by
  induction h with
  | nil => rfl
  | range hlo hhi h ih =>
    rw [openings_literal hlo, openings_literal (by decide), openings_literal hhi, ih]
  | whitespace h ih => rw [openings_escape, ih]
  | notWhitespace h ih => rw [openings_escape, ih]
  | escaped hs hS h ih => rw [openings_escape, ih]
  | literal hc hrange h ih => rw [openings_literal hc, ih]

theorem openings_symbols (kinds : List Repetition) : openings (kinds.map Repetition.symbol) = 0 := by
  induction kinds with
  | nil => rfl
  | cons kind kinds ih =>
    rw [List.map_cons, openings_literal (by cases kind <;> decide), ih]

/-- A phrase opens as many groups as it has opening parentheses. -/
theorem Derives.count_eq {phrase : Phrase} {n m : Nat} {tree : Pattern}
    (h : Derives phrase n text tree m) : m = n + openings text := by
  induction h with
  | literal hc hdot => rw [openings_literal hc]; rfl
  | dot | whitespace | notWhitespace | empty => rfl
  | escaped hs hS => rw [openings_escape]; rfl
  | @charClass n negated text items h hne =>
    have hinside : openings (text ++ [']']) = 0 := by
      rw [(Paired.of_classText h).openings_append, h.openings_eq]
      rfl
    cases negated with
    | false => simp [openings_plain, hinside]
    | true => simp [openings_plain, hinside]
  | @group n m text inner h ih =>
    have hinside : openings (text ++ [')']) = openings text :=
      (Paired.of_derives h).openings_append [')']
    rw [List.cons_append, openings_plain (by decide), if_pos rfl, hinside, ih]
    omega
  | term h kinds ih =>
    rw [(Paired.of_derives h).openings_append, openings_symbols, Nat.add_zero]
    exact ih
  | single h ih | last h ih => exact ih
  | concat h hstart h' ih ih' =>
    rw [(Paired.of_derives h).openings_append, ih', ih, Nat.add_assoc]
  | union h h' ih ih' =>
    rw [(Paired.of_derives h).openings_append, openings_plain (by decide), if_neg (by decide), ih', ih]
    omega

end Grammar

namespace Pattern

theorem numbers_repeatedBy (inner : Pattern) (kinds : List Repetition) :
    (inner.repeatedBy kinds).numbers = inner.numbers := by
  induction kinds generalizing inner with
  | nil => rfl
  | cons kind rest ih => exact ih (.repeated kind inner)

theorem numbers_concat (first rest : Pattern) :
    (Pattern.concat first rest).numbers = first.numbers ++ rest.numbers := List.map_append

theorem numbers_union (first rest : Pattern) :
    (Pattern.union first rest).numbers = first.numbers ++ rest.numbers := List.map_append

end Pattern

/-- The numbers that were taken between two counts, in the order in which they were taken. -/
def Taken (numbers : List Nat) (before after : Nat) : Prop :=
  before ≤ after ∧ numbers = List.range' (before + 1) (after - before)

theorem Taken.nil {n : Nat} : Taken [] n n := ⟨Nat.le_refl n, by rw [Nat.sub_self, List.range'_zero]⟩

theorem Taken.append {numbers numbers' : List Nat} {n m k : Nat} (h : Taken numbers n m)
    (h' : Taken numbers' m k) : Taken (numbers ++ numbers') n k := by
  obtain ⟨hle, rfl⟩ := h
  obtain ⟨hle', rfl⟩ := h'
  refine ⟨hle.trans hle', ?_⟩
  rw [show m + 1 = n + 1 + (m - n) by omega, List.range'_append_1]
  congr 1
  omega

/-- A group has its number before those inside it. -/
theorem Taken.group {numbers : List Nat} {n m : Nat} (h : Taken numbers (n + 1) m) :
    Taken ((n + 1) :: numbers) n m := by
  obtain ⟨hle, rfl⟩ := h
  refine ⟨by omega, ?_⟩
  rw [show m - n = m - (n + 1) + 1 by omega, List.range'_succ]

/-- The groups of a phrase have the numbers that were taken in it, in the order of the tree. -/
theorem Grammar.Derives.taken {phrase : Grammar.Phrase} {n m : Nat} {text : List Char} {tree : Pattern}
    (h : Grammar.Derives phrase n text tree m) : Taken tree.numbers n m := by
  induction h with
  | group h ih => exact ih.group
  | term h kinds ih => rwa [Pattern.numbers_repeatedBy]
  | single h ih => exact ih
  | concat h hstart h' ih ih' => exact Pattern.numbers_concat _ _ ▸ ih.append ih'
  | last h ih => exact ih
  | union h h' ih ih' => exact Pattern.numbers_union _ _ ▸ ih.append ih'
  | _ => exact .nil

/-- No two groups of a tree that was read have the same number. -/
theorem Pattern.numbers_nodup_of_parse {text : String} {left right : Bool} {body : Pattern}
    (h : Pattern.parse text = .ok (.anchored left right body)) : body.numbers.Nodup := by
  obtain ⟨_, _, _, _, _, heq, -, hderives⟩ := derives_of_parse_eq_ok h
  cases heq
  rw [hderives.taken.2]
  exact List.nodup_range'

namespace Fragment

variable {f : Fragment} {base n : Nat}

/-- An anchored tree adds the two markers of the whole match. -/
theorem groups_markers_anchored {left right : Bool} {body : Pattern}
    (h : ofPattern (.anchored left right body) base = .ok f) (hp : body.Plain) :
    f.markers.map (·.2.group) = 0 :: 0 :: body.numbers.flatMap fun n => [n, n] := by
  cases left with
  | true =>
    obtain ⟨a, ha, rfl⟩ := exists_of_map_eq_ok h
    simp only [marked, Pattern.numbers, List.map_cons, groups_markers body ha hp]
  | false =>
    obtain ⟨a, ha, rfl⟩ := exists_of_map_eq_ok h
    simp only [sequence, runUp, rounds, link, marked, Pattern.numbers, List.nil_append, List.map_cons,
      groups_markers body ha hp]

theorem groupCount_le (h : ∀ m ∈ f.markers, m.2.group < n) : f.groupCount ≤ n := by
  have hfold : ∀ (ms : List (Nat × Marker)) (k : Nat), k ≤ n → (∀ m ∈ ms, m.2.group < n) →
      ms.foldl (fun k m => max k (m.2.group + 1)) k ≤ n := by
    intro ms
    induction ms with
    | nil => exact fun k hk _ => hk
    | cons m ms ih =>
      intro k hk hms
      have hm := hms m List.mem_cons_self
      exact ih _ (Nat.max_le.mpr ⟨hk, hm⟩) fun m' hm' => hms m' (List.mem_cons_of_mem _ hm')
  exact hfold f.markers 0 (Nat.zero_le n) h

/-- If the groups of an anchored tree are numbered from one on, there is one group more in its fragment. -/
theorem groupCount_anchored {left right : Bool} {body : Pattern}
    (h : ofPattern (.anchored left right body) base = .ok f) (hp : body.Plain)
    (hn : body.numbers = List.range' 1 n) : f.groupCount = n + 1 := by
  have hgroups : ∀ k, k ∈ f.markers.map (·.2.group) ↔ k ≤ n := by
    intro k
    simp only [groups_markers_anchored h hp, hn, List.mem_cons, List.mem_flatMap, List.mem_range'_1,
      List.not_mem_nil, or_false, or_self, exists_eq_right']
    omega
  apply le_antisymm
  · exact groupCount_le fun m hm => Nat.lt_succ_of_le ((hgroups _).mp (List.mem_map_of_mem hm))
  · obtain ⟨m, hm, hgroup⟩ := List.mem_map.mp ((hgroups n).mpr le_rfl)
    have := group_lt_groupCount hm
    omega

end Fragment

/-- The groups of a tree that was read are numbered from one on in the order of the tree, one for each
opening parenthesis of the text that no escape takes. The automaton has one group more. -/
theorem Pattern.numbers_eq_range_of_parse {text : String} {pattern : Pattern}
    (h : Pattern.parse text = .ok pattern) : ∃ left right body, pattern = .anchored left right body ∧
      body.Plain ∧ body.numbers = List.range' 1 (Grammar.openings text.toList) ∧
      ∀ nfa, pattern.toNfa = .ok nfa → nfa.groupCount = Grammar.openings text.toList + 1 := by
  obtain ⟨left, right, inside, body, groups, rfl, htext, hderives⟩ := derives_of_parse_eq_ok h
  have hopenings : Grammar.openings text.toList = groups := by
    have hpaired := Grammar.Paired.of_derives hderives
    have hend : Grammar.openings (inside ++ if right then ['$'] else []) = Grammar.openings inside := by
      rw [hpaired.openings_append]
      cases right <;> rfl
    rw [hderives.count_eq, Nat.zero_add, ← hend, htext]
    cases left with
    | false => rfl
    | true =>
      rw [if_pos rfl, List.append_assoc, List.singleton_append, Grammar.openings_plain (by decide),
        if_neg (by decide), Nat.zero_add]
  have hnumbers : body.numbers = List.range' 1 (Grammar.openings text.toList) := by
    rw [hopenings]
    exact hderives.taken.2
  refine ⟨left, right, body, rfl, hderives.plain, hnumbers, fun nfa hnfa => ?_⟩
  obtain ⟨f, hf, rfl⟩ := exists_of_anchored_toNfa hnfa
  exact Fragment.groupCount_anchored hf hderives.plain hnumbers

/-- Parentheses that are escaped open no group, neither outside of a class nor in one. -/
theorem Pattern.numbers_of_nested_groups : ∃ body nfa,
    body = concat (group 1 (union (group 2 (literal 'a')) (literal '(')))
      (concat (charClass ⟨[.single '('], false⟩) (group 3 (literal 'b'))) ∧
    Pattern.parse "((a)|\\()[\\(](b)" = .ok (.anchored false false body) ∧
      (Pattern.anchored false false body).toNfa = .ok nfa ∧
      body.numbers = List.range' 1 3 ∧ nfa.groupCount = 4 := by
  have hparse : Pattern.parse "((a)|\\()[\\(](b)" =
      .ok (.anchored false false (concat (group 1 (union (group 2 (literal 'a')) (literal '(')))
        (concat (charClass ⟨[.single '('], false⟩) (group 3 (literal 'b'))))) := by
    cbv
  have hopenings : Grammar.openings "((a)|\\()[\\(](b)".toList = 3 := by cbv
  obtain ⟨_, _, body, heq, -, hnumbers, hcount⟩ := numbers_eq_range_of_parse hparse
  rw [hopenings] at hnumbers hcount
  have hrun : (toNfa (.anchored false false
      (concat (group 1 (union (group 2 (literal 'a')) (literal '(')))
        (concat (charClass ⟨[.single '('], false⟩) (group 3 (literal 'b')))))).map (fun _ => ()) =
      .ok () := by
    cbv
  obtain ⟨nfa, hnfa, -⟩ := exists_of_map_eq_ok hrun
  cases heq
  exact ⟨_, nfa, rfl, hparse, hnfa, hnumbers, hcount nfa hnfa⟩

end PatternAutomata
