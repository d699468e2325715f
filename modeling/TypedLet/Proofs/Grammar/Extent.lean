import TypedLet.Proofs.Grammar.Derivation

namespace TypedLet.Grammar

variable {d : Dialect} {s w mark word digits : List Char} {x : String} {e a b : Node} {ℓ : Level}
variable {m : TypeLevel} {op : Op} {span : Option Span} {i j k q : Nat}

instance : IsMark op.mark where
  head := by cases op <;> decide
  apart := by cases op <;> decide

theorem TypeDerives.bounds (h : TypeDerives d s m i j e) : i < j ∧ j ≤ s.length := by
  induction h with
  | int h | bool h => exact h.bounds
  | paren ho _ hc ih =>
    have := ho.bounds
    have := hc.bounds
    omega
  | single _ ih => exact ih
  | arrow _ hm _ iha ihb =>
    have := hm.bounds
    omega

theorem Derives.bounds (h : Derives d s ℓ i j e) : i < j ∧ j ≤ s.length := by
  induction h with
  | integer h => exact h.bounds
  | yes h | no h => exact h.bounds
  | reference h => exact h.bounds
  | paren ho _ hc ih =>
    have := ho.bounds
    have := hc.bounds
    omega
  | single _ ih | operation _ ih => exact ih
  | more _ hm _ iha ihb =>
    have := hm.bounds
    omega
  | letIn hl hx hs _ hi _ ihr ihb =>
    have := hl.bounds
    have := hx.bounds
    have := hs.bounds
    have := hi.bounds
    omega
  | function hf ho hx hc ht hr ha _ ihb =>
    have := hf.bounds
    have := ho.bounds
    have := hx.bounds
    have := hc.bounds
    have := ht.bounds
    have := hr.bounds
    have := ha.bounds
    omega

def Level.rank : Level → Nat
  | atom => 0
  | chain .sum => 1
  | chain .equal => 2
  | chain .conj => 3
  | expression => 4

end TypedLet.Grammar

namespace TypedLet.Node

open Grammar

def level : Node → Level
  | binary op _ _ _ => .chain op
  | letIn .. | fn .. => .expression
  | _ => .atom

end TypedLet.Node

namespace TypedLet.Grammar

variable {d : Dialect} {text : String} {s : List Char} {e a b : Node} {ℓ : Level}
variable {op : Op} {span : Option Span} {i j k : Nat}

theorem Op.rank_operand_lt (op : Op) : op.operand.rank < (Level.chain op).rank := by
  cases op <;> decide

theorem Derives.rank_level_le (h : Derives d s ℓ i j e) : e.level.rank ≤ ℓ.rank := by
  induction h with
  | integer | yes | no | reference | paren => exact Nat.le_refl 0
  | @single op _ _ _ _ ih => exact Nat.le_trans ih (Nat.le_of_lt (Op.rank_operand_lt op))
  | more | letIn | function => exact Nat.le_refl _
  | operation _ ih => exact Nat.le_trans ih (by decide)

/-- Whether a part that is read at a level ends right behind its last token. A chain without any
operator takes the layout after its only part. -/
def Level.tight : Level → Node → Bool
  | atom, _ => true
  | chain op, .binary op' _ b _ => op = op' && op.operand.tight b
  | expression, .binary op _ b _ => op = .conj && op.operand.tight b
  | expression, .letIn _ _ body _ => expression.tight body
  | expression, .fn _ _ body _ _ => expression.tight body
  | _, _ => false

/-- Where the reading of a part ends whose last token ends at `j`. -/
def reach (s : List Char) (ℓ : Level) (e : Node) (j : Nat) : Nat := if ℓ.tight e then j else skip s j

theorem reach_atom (s : List Char) (e : Node) (j : Nat) : reach s .atom e j = j := by
  simp [reach, Level.tight]

theorem reach_more (s : List Char) (op : Op) (a b : Node) (span : Option Span) (j : Nat) :
    reach s (.chain op) (.binary op a b span) j = reach s op.operand b j := by
  simp [reach, Level.tight]

theorem Derives.reach_single (h : Derives d s op.operand i j e) :
    reach s (.chain op) e k = skip s k := by
  have hl := h.rank_level_le
  have ht : (Level.chain op).tight e = false := by
    cases e with
    | binary op' a b span =>
      have hop : op ≠ op' := by
        rintro rfl
        exact Nat.not_lt.mpr hl (Op.rank_operand_lt op)
      simp [Level.tight, hop]
    | _ => rfl
  simp [reach, ht]

theorem Derives.reach_operation (h : Derives d s (.chain .conj) i j e) :
    reach s .expression e k = reach s (.chain .conj) e k := by
  have hl := h.rank_level_le
  cases e with
  | letIn | fn => simp [Node.level, Level.rank] at hl
  | binary op a b span => cases op <;> rfl
  | _ => rfl

theorem le_reach (s : List Char) (ℓ : Level) (e : Node) (j : Nat) : j ≤ reach s ℓ e j := by
  unfold reach
  split
  · exact Nat.le_refl j
  · exact le_skip s j

theorem reach_le (s : List Char) (ℓ : Level) (e : Node) (j : Nat) : reach s ℓ e j ≤ skip s j := by
  unfold reach
  split
  · exact le_skip s j
  · exact Nat.le_refl _

theorem blank_reach (s : List Char) (ℓ : Level) (e : Node) (j : Nat) :
    Blank s j (reach s ℓ e j) := by
  unfold reach
  split
  · exact blank_refl s j
  · exact blank_skip s j

theorem skip_reach (s : List Char) (ℓ : Level) (e : Node) (j : Nat) :
    skip s (reach s ℓ e j) = skip s j := by
  unfold reach
  split
  · rfl
  · exact skip_skip s j

/-- Numerals of at most `limit` digits, and trees whose parts stand where they are read in a
text. -/
def Dialect.placed (text : String) (limit : Nat) : Dialect where
  fits n := n ≤ limit
  place i j := some ⟨text, skip text.toList i, j⟩
  binderPlace body i j :=
    some ⟨text, skip text.toList i, reach text.toList .expression body j⟩

end TypedLet.Grammar
