import Mathlib.Data.List.Basic

namespace TypedLet.Text

/-- The parentheses of a text that have no partner in it. All the closing ones stand before all the
opening ones. -/
structure Unpaired where
  closing : Nat
  opening : Nat
deriving DecidableEq

namespace Unpaired

def none : Unpaired := ⟨0, 0⟩

def ofChar (c : Char) : Unpaired := if c = '(' then ⟨0, 1⟩ else if c = ')' then ⟨1, 0⟩ else none

/-- What the first of two texts leaves open is closed by the second, as far as either goes. -/
def append (a b : Unpaired) : Unpaired :=
  ⟨a.closing + (b.closing - a.opening), b.opening + (a.opening - b.closing)⟩

theorem none_append (a : Unpaired) : none.append a = a := by simp [none, append]

theorem append_assoc (a b c : Unpaired) : (a.append b).append c = a.append (b.append c) := by
  simp only [append, mk.injEq]
  omega

end Unpaired

def unpaired (s : List Char) : Unpaired := s.foldr (fun c a ↦ (Unpaired.ofChar c).append a) .none

/-- The text with a partner in front of it, or behind it, for every parenthesis that has none. -/
def paired (s : String) : String :=
  let a := unpaired s.toList
  String.ofList (List.replicate a.closing '(' ++ s.toList ++ List.replicate a.opening ')')

variable {s t : List Char}

theorem unpaired_cons (c : Char) (s : List Char) :
    unpaired (c :: s) = (Unpaired.ofChar c).append (unpaired s) := rfl

theorem unpaired_append (s t : List Char) :
    unpaired (s ++ t) = (unpaired s).append (unpaired t) := by
  induction s with
  | nil => exact (Unpaired.none_append _).symm
  | cons c s ih => rw [List.cons_append, unpaired_cons, unpaired_cons, ih, Unpaired.append_assoc]

theorem unpaired_eq_none (h : ∀ c ∈ s, c ≠ '(' ∧ c ≠ ')') : unpaired s = .none := by
  induction s with
  | nil => rfl
  | cons c s ih =>
    obtain ⟨hc, hs⟩ := List.forall_mem_cons.mp h
    rw [unpaired_cons, Unpaired.ofChar, if_neg hc.1, if_neg hc.2, Unpaired.none_append, ih hs]

example : paired "Int) -> (Bool" = "(Int) -> (Bool)" := by decide

end TypedLet.Text
