import TypedLet.Node.Annotation
import TypedLet.Proofs.Node.Parts

namespace TypedLet.Node

def isTypeNode : Node → Bool
  | intType _ | boolType _ | funcType .. => true
  | _ => false

def isExpression : Node → Bool
  | absent => false
  | a => !a.isTypeNode

/-- A tree of annotations alone. -/
def isType : Node → Bool
  | intType _ | boolType _ => true
  | funcType a b _ => a.isType && b.isType
  | _ => false

/-- An expression in which every part is of the kind that belongs where it stands. -/
def isTerm : Node → Bool
  | var .. | intLit .. | boolLit .. => true
  | paren a _ => a.isTerm
  | binary _ a b _ | letIn _ a b _ => a.isTerm && b.isTerm
  | fn _ t b _ _ => t.isType && b.isTerm
  | _ => false

variable {a : Node}

theorem exists_toTy (h : a.isType) : ∃ ty, a.toTy = .ok ty := by
  induction a with
  | intType => exact ⟨.int, rfl⟩
  | boolType => exact ⟨.bool, rfl⟩
  | funcType a b _ iha ihb =>
    obtain ⟨ha, hb⟩ := Bool.and_eq_true_iff.mp h
    obtain ⟨domain, hd⟩ := iha ha
    obtain ⟨codomain, hc⟩ := ihb hb
    refine ⟨.fn domain codomain, ?_⟩
    rw [toTy, hd, hc]
    rfl
  | _ => cases h

theorem isExpression_of_isTerm (h : a.isTerm) : a.isExpression := by
  cases a with
  | absent | intType | boolType | funcType => cases h
  | _ => rfl

theorem isType_erase (a : Node) : a.erase.isType = a.isType := by
  induction a <;> simp_all [erase, isType]

end TypedLet.Node
