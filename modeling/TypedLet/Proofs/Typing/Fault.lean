import TypedLet.Proofs.Node.Position
import TypedLet.Proofs.Typing.Attribution

namespace TypedLet

def Branch.field : Branch → Field
  | .inner => .inner
  | .left => .left
  | .right => .right
  | .body => .body

/-- The node that an error blames, if it blames one. -/
def CheckError.node? : CheckError → Option Node
  | illTyped e => some e.node
  | unsupported n => some n
  | rollback _ => none

namespace Node

/-- Reading an annotation from the left comes to the part at a position, and that part is none. -/
inductive RefusesAt : Node → List Field → Node → Prop
  | here {n} : n.isTypeNode = false → RefusesAt n [] n
  | left {a b span p n} : RefusesAt a p n → RefusesAt (.funcType a b span) (.left :: p) n
  | right {a b span p n ty} : a.toTy = .ok ty → RefusesAt b p n →
      RefusesAt (.funcType a b span) (.right :: p) n

/-- Typing a tree comes to the part at a position and fails on account of it. -/
inductive FailsAt : Env → Node → List Field → CheckError → Prop
  | here {env n err} : Faulty env n err → err.node? = some n → FailsAt env n [] err
  | refused {env x type body paramSpan span p n} : RefusesAt type p n →
      FailsAt env (.fn x type body paramSpan span) (.paramType :: p) (.unsupported n)
  | step {env env₁ e e₁ branch p err} : Enters env e branch env₁ e₁ → FailsAt env₁ e₁ p err →
      FailsAt env e (branch.field :: p) err

variable {env env₁ : Env} {e e₁ a n : Node} {branch : Branch} {path : List Branch}
variable {p : List Field} {err : CheckError}

theorem RefusesAt.toTy_eq (h : RefusesAt a p n) : a.toTy = .error n := by
  induction h with
  | @here n hn => cases n <;> first | rfl | cases hn
  | left _ ih => rw [toTy, ih, error_bind]
  | right ha _ ih => rw [toTy, ha, ok_bind, ih, error_bind]

theorem exists_refusesAt (h : a.toTy = .error n) : ∃ p, RefusesAt a p n := by
  induction a with
  | intType | boolType => cases h
  | funcType a b span iha ihb =>
    rcases bind_error h with h | ⟨ty, ha, h⟩
    · obtain ⟨p, hp⟩ := iha h
      exact ⟨.left :: p, .left hp⟩
    rcases bind_error h with h | ⟨_, _, h⟩
    · obtain ⟨p, hp⟩ := ihb h
      exact ⟨.right :: p, .right ha hp⟩
    · cases h
  | absent | paren | var | intLit | boolLit | binary | letIn | fn =>
    cases h
    exact ⟨[], .here rfl⟩

theorem RefusesAt.at?_eq (h : RefusesAt a p n) : a.at? p = some n := by
  induction h with
  | here => exact at?_nil _
  | left _ ih | right _ _ ih => exact (at?_cons rfl).trans ih

theorem Enters.part?_eq (h : Enters env e branch env₁ e₁) : e.part? branch.field = some e₁ := by
  cases h <;> rfl

theorem FailsAt.typeIn_eq (h : FailsAt env e p err) : e.typeIn env = .error err := by
  induction h with
  | here h _ => exact h.typeIn_eq
  | refused h =>
    rw [typeIn, h.toTy_eq]
    rfl
  | step h _ ih => exact h.typeIn_eq ih

/-- An error blames the part at the position where typing fails. -/
theorem FailsAt.at?_eq (h : FailsAt env e p err) : e.at? p = err.node? := by
  induction h with
  | here _ hn => exact hn.symm
  | refused h => exact (at?_cons rfl).trans h.at?_eq
  | step h _ ih => exact (at?_cons h.part?_eq).trans ih

theorem Faulty.exists_failsAt (h : Faulty env n err) : ∃ p, FailsAt env n p err := by
  cases h with
  | unbound h => exact ⟨[], .here (.unbound h) rfl⟩
  | mismatch ha hb h => exact ⟨[], .here (.mismatch ha hb h) rfl⟩
  | stray h => exact ⟨[], .here (.stray h) rfl⟩
  | refused h =>
    obtain ⟨p, hp⟩ := exists_refusesAt (toTy_error_iff.mpr h)
    exact ⟨.paramType :: p, .refused hp⟩

theorem Leads.exists_failsAt (h : Leads env e path env₁ n) (hn : Faulty env₁ n err) :
    ∃ p, FailsAt env e p err := by
  induction h with
  | here => exact hn.exists_failsAt
  | @step _ _ _ _ _ _ branch _ h _ ih =>
    obtain ⟨p, hp⟩ := ih hn
    exact ⟨branch.field :: p, .step h hp⟩

theorem exists_failsAt (h : e.typeIn env = .error err) : ∃ p, FailsAt env e p err := by
  obtain ⟨path, env₁, n, hpath, hn⟩ := exists_faulty h
  exact hpath.exists_failsAt hn

end Node

end TypedLet
