/-!
# Depth-first traversal

One traversal serves the numbering of nodes, the closures of subset construction and the closures of
the search. What is explored is kept on a stack. Each item has a slot in a table of marks: the first
item to reach a slot marks it and is visited, which yields a result and further items for the top of
the stack, and every later item of the slot is dropped. Either the number of free slots goes down or
the stack gets shorter, so the traversal ends on cyclic graphs too.
-/

namespace PatternAutomata

variable {α β ε : Type} {n : Nat}

/-- The results of all visits in their order, and the marks at the end. -/
def explore (slot : α → Except ε (Fin n)) (visit : α → Except ε (β × List α))
    (marks : Vector Bool n) (stack : List α) : Except ε (List β × Vector Bool n) :=
  match stack with
  | [] => .ok ([], marks)
  | a :: rest =>
    match slot a with
    | .error e => .error e
    | .ok i =>
      if taken : marks[i] = true then explore slot visit marks rest
      else
        match visit a with
        | .error e => .error e
        | .ok (b, next) =>
          match explore slot visit (marks.set i true) (next ++ rest) with
          | .error e => .error e
          | .ok (results, marks) => .ok (b :: results, marks)
termination_by (marks.count false, stack.length)
decreasing_by
  · exact Prod.Lex.right _ (Nat.lt_succ_self _)
  · apply Prod.Lex.left
    have free : marks[i] = false := by simpa using taken
    have pos : 0 < marks.count false :=
      Vector.count_pos_iff.mpr (free ▸ Vector.getElem_mem i.isLt)
    have count : (marks.set i true).count false = _ := Vector.count_set i.isLt
    simp only [Fin.getElem_fin] at free
    simp [free] at count
    omega

/-- No slot is taken. The stamps and rounds of a table that is used again are left out: every round has
a table of its own. -/
def noMarks (n : Nat) : Vector Bool n := Vector.replicate n false

end PatternAutomata
