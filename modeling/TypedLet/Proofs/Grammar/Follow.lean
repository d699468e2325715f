import TypedLet.Proofs.Grammar.Boundary
import TypedLet.Proofs.Grammar.Extent

namespace TypedLet.Grammar

/-- What may follow a part of an expression that is written at a level. -/
inductive Follows (s : List Char) (ℓ : Level) (j : Nat) : Prop
  | finish : Blank s j s.length → Follows s ℓ j
  | close {k} : Token s [')'] j k → Follows s ℓ j
  | inside {k} : Keyword s inWord j k → Follows s ℓ j
  | joined {op k} : ℓ.rank < (Level.chain op).rank → Token s op.mark j k → Follows s ℓ j

variable {s : List Char} {ℓ ℓ' : Level} {op op' : Op} {j k : Nat}

theorem Follows.mono (h : Follows s ℓ j) (hr : ℓ'.rank ≤ ℓ.rank) : Follows s ℓ' j := by
  cases h with
  | finish h => exact .finish h
  | close h => exact .close h
  | inside h => exact .inside h
  | joined hop h => exact .joined (Nat.lt_of_le_of_lt hr hop) h

theorem Level.rank_le (ℓ : Level) : ℓ.rank ≤ Level.expression.rank := by
  rcases ℓ with _ | (_ | _ | _) | _ <;> decide

theorem Blank.head_eq (h : Blank s j s.length) : (s.drop (skip s j)).head? = none := by
  have hs : skip s j = s.length := by
    rw [h.skip_eq, skip_eq_self]
    simp
  simp [hs]

theorem Op.eq_of_head_mark (h : op.mark.head? = op'.mark.head?) : op = op' := by
  cases op <;> cases op' <;> first | rfl | cases h

theorem Follows.not_token (h : Follows s (.chain op) j) : ¬ Token s op.mark j k := by
  intro hm
  have hh := hm.head_eq
  cases h with
  | finish h =>
    rw [h.head_eq] at hh
    cases op <;> cases hh
  | close h => exact h.not_mark (by cases op <;> decide) hm
  | inside h => exact hm.not_keyword h
  | @joined op' _ hop h =>
    rw [h.head_eq] at hh
    rw [Op.eq_of_head_mark hh] at hop
    exact Nat.lt_irrefl _ hop

theorem Follows.nameEnds (h : Follows s ℓ j) (hw : wordBefore s j) : NameEnds s j := by
  cases h with
  | finish h => exact nameEnds_of_skip (by rw [h.head_eq]; rfl)
  | close h => exact h.nameEnds
  | inside h =>
    rcases Nat.lt_or_eq_of_le (le_skip s j) with hlt | he
    · exact nameEnds_of_lt_skip hlt
    · obtain ⟨-, hb, -⟩ := keyword_iff.mp h
      rw [← he, hw] at hb
      cases hb
  | joined _ h => exact h.nameEnds

end TypedLet.Grammar
