/-!
# Byte offsets

A character takes one to four bytes. A text can be cut at the offsets of its characters and at its end,
and nowhere else.
-/

namespace PatternAutomata.Text

def byteLength : List Char → Nat
  | [] => 0
  | c :: rest => c.utf8Size + byteLength rest

/-- The offsets of the characters of a text and of its end, if the text begins at `base`. -/
def offsets (base : Nat) : List Char → List Nat
  | [] => [base]
  | c :: rest => base :: offsets (base + c.utf8Size) rest

/-- Cuts a text after some bytes, if a character ends there. -/
def cut? : Nat → List Char → Option (List Char × List Char)
  | 0, text => some ([], text)
  | _ + 1, [] => none
  | n + 1, c :: rest =>
    if c.utf8Size ≤ n + 1 then
      (cut? (n + 1 - c.utf8Size) rest).map fun (before, after) => (c :: before, after)
    else none

/-- The text from one offset to another, which must not come before it. -/
def slice? (start stop : Nat) (text : List Char) : Option (List Char) :=
  if start ≤ stop then
    (cut? start text).bind fun (_, rest) => (cut? (stop - start) rest).map (·.1)
  else none

@[simp] theorem byteLength_nil : byteLength [] = 0 := rfl

@[simp] theorem byteLength_cons (c : Char) (text : List Char) :
    byteLength (c :: text) = c.utf8Size + byteLength text := rfl

@[simp] theorem byteLength_append (text other : List Char) :
    byteLength (text ++ other) = byteLength text + byteLength other := by
  induction text with
  | nil => rw [List.nil_append, byteLength_nil, Nat.zero_add]
  | cons c text ih => rw [List.cons_append, byteLength_cons, ih, byteLength_cons, Nat.add_assoc]

@[simp] theorem length_offsets (base : Nat) (text : List Char) :
    (offsets base text).length = text.length + 1 := by
  induction text generalizing base with
  | nil => rfl
  | cons c text ih => rw [offsets, List.length_cons, ih, List.length_cons]

end PatternAutomata.Text
