import TypedLet.Text.Slice

namespace TypedLet

/-- A stretch of a text, from `start` up to `stop`, counted in characters. Neither end need
lie inside the text. -/
structure Span where
  src : String
  start : Int
  stop : Int
deriving DecidableEq

namespace Span

/-- The least stretch that covers both, over the text of the first. -/
def merge (a b : Span) : Span := ⟨a.src, min a.start b.start, max a.stop b.stop⟩

def text (a : Span) : String := String.ofList (Text.slice a.src.toList a.start a.stop)

theorem merge_self (a : Span) : a.merge a = a := by
  cases a
  simp only [merge, Int.min_self, Int.max_self]

theorem merge_assoc (a b c : Span) : (a.merge b).merge c = a.merge (b.merge c) := by
  simp [merge, Int.min_assoc, Int.max_assoc]

theorem merge_eq_of_le {a b : Span} (h₁ : a.start ≤ b.start) (h₂ : a.stop ≤ b.stop) :
    a.merge b = ⟨a.src, a.start, b.stop⟩ := by
  simp [merge, Int.min_eq_left h₁, Int.max_eq_right h₂]

end Span

end TypedLet
