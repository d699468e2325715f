import TypedLet.Span.Basic

namespace TypedLet.Grammar

/-- The characters that may stand between the words of a program. -/
def isLayout (c : Char) : Bool := c == ' ' || c == '\t' || c == '\n' || c == '\r'

theorem drop_length_takeWhile (p : Char → Bool) (s : List Char) :
    s.drop (s.takeWhile p).length = s.dropWhile p := by
  induction s with
  | nil => rfl
  | cons c cs ih => cases h : p c <;> simp [h, ih]

/-- A place in a text: how many characters are behind it, the nearest of them, and all that
lie ahead. -/
structure Cursor where
  text : String
  pos : Nat
  prev : Option Char
  rest : List Char

namespace Cursor

def start (text : String) : Cursor := ⟨text, 0, none, text.toList⟩

def advance (c : Cursor) (n : Nat) : Cursor :=
  { c with
    pos := c.pos + n
    prev := (c.rest.take n).getLast?.or c.prev
    rest := c.rest.drop n }

def skipLayout (c : Cursor) : Cursor := c.advance (c.rest.takeWhile isLayout).length

def spanTo (c d : Cursor) : Span := ⟨c.text, c.pos, d.pos⟩

theorem text_advance (c : Cursor) (n : Nat) : (c.advance n).text = c.text := rfl

theorem pos_advance (c : Cursor) (n : Nat) : (c.advance n).pos = c.pos + n := rfl

theorem rest_advance (c : Cursor) (n : Nat) : (c.advance n).rest = c.rest.drop n := rfl

theorem advance_zero (c : Cursor) : c.advance 0 = c := by simp [advance]

theorem rest_skipLayout (c : Cursor) : c.skipLayout.rest = c.rest.dropWhile isLayout :=
  drop_length_takeWhile isLayout c.rest

theorem length_rest_skipLayout_le (c : Cursor) : c.skipLayout.rest.length ≤ c.rest.length := by
  simp [skipLayout, rest_advance]

end Cursor

end TypedLet.Grammar
