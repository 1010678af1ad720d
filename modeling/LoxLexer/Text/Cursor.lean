/-!
# Positions in a source text

A position counts the bytes of the UTF-8 form of the text before it, a line counts the line feeds
before it, beginning with one.  A `Cursor` carries both, and advancing it over a text adds the two
measures of that text, so the cursor after a text does not depend on how the text was cut.
-/

namespace LoxLexer

/-- The number of bytes of a text in UTF-8. -/
def byteLength (text : List Char) : Nat :=
  text.foldl (fun bytes c => bytes + c.utf8Size) 0

theorem foldl_utf8Size (bytes : Nat) (text : List Char) :
    text.foldl (fun bytes c => bytes + c.utf8Size) bytes = bytes + byteLength text := by
  induction text generalizing bytes with
  | nil => rfl
  | cons c text ih =>
    have hcons := ih (0 + c.utf8Size)
    rw [List.foldl_cons, ih]
    simp only [byteLength, List.foldl_cons] at hcons ⊢
    omega

@[simp] theorem byteLength_nil : byteLength [] = 0 := rfl

@[simp] theorem byteLength_cons (c : Char) (text : List Char) :
    byteLength (c :: text) = c.utf8Size + byteLength text := by
  rw [byteLength, List.foldl_cons, foldl_utf8Size, Nat.zero_add]

@[simp] theorem byteLength_append (left right : List Char) :
    byteLength (left ++ right) = byteLength left + byteLength right := by
  induction left with
  | nil => simp
  | cons c left ih => simp [ih, Nat.add_assoc]

/-- A place in a source: the bytes before it, and the number of the line it lies on. -/
structure Cursor where
  position : Nat
  line : Nat
  deriving DecidableEq, Repr

namespace Cursor

/-- The beginning of every source. -/
def origin : Cursor := ⟨0, 1⟩

/-- The cursor behind a text that begins at `cursor`. -/
def advance (cursor : Cursor) (text : List Char) : Cursor :=
  ⟨cursor.position + byteLength text, cursor.line + text.count '\n'⟩

@[simp] theorem advance_nil (cursor : Cursor) : cursor.advance [] = cursor := by
  simp [advance]

theorem advance_append (cursor : Cursor) (left right : List Char) :
    cursor.advance (left ++ right) = (cursor.advance left).advance right := by
  simp [advance, Nat.add_assoc]

end Cursor

end LoxLexer
