import TypedLet.Proofs.Node.Places
import TypedLet.Proofs.Typing.Attribution

namespace TypedLet

/-- An error that a tree can give rise to: it blames an expression in it, a name or an operator. -/
inductive TypeError.Blames (t : Node) : TypeError → Prop
  | unbound {x span} : .var x span ∈ t.expressions → Blames t (.unbound x (.var x span))
  | mismatch {op left right span} (a b : Ty) : .binary op left right span ∈ t.expressions →
      Blames t (.mismatch (.binary op left right span) [a, b] op.expected)

variable {t t' n : Node} {env env' : Env} {e : TypeError} {err : CheckError} {branch : Branch}
variable {path : List Branch}

theorem TypeError.Blames.node_mem (h : e.Blames t) : e.node ∈ t.expressions := by
  cases h with
  | unbound hn | mismatch _ _ hn => exact hn

def CheckError.Blames (t : Node) (err : CheckError) : Prop := ∃ e, err = .illTyped e ∧ e.Blames t

theorem CheckError.Blames.mono (h : err.Blames t) (ht : ∀ n ∈ t.expressions, n ∈ t'.expressions) :
    err.Blames t' := by
  obtain ⟨e, rfl, he⟩ := h
  refine ⟨e, rfl, ?_⟩
  cases he with
  | unbound hn => exact .unbound (ht _ hn)
  | mismatch a b hn => exact .mismatch a b (ht _ hn)

namespace Node

theorem Enters.isTerm (h : Enters env t branch env' n) (ht : t.isTerm) : n.isTerm := by
  cases h with
  | inner => exact ht
  | left | bound => exact (Bool.and_eq_true_iff.mp ht).1
  | right | body | result => exact (Bool.and_eq_true_iff.mp ht).2

theorem Enters.expressions (h : Enters env t branch env' n) :
    ∀ m ∈ n.expressions, m ∈ t.expressions := by
  intro m hm
  cases h with
  | inner | result => exact List.mem_cons_of_mem _ hm
  | left | bound => exact List.mem_cons_of_mem _ (List.mem_append_left _ hm)
  | right | body => exact List.mem_cons_of_mem _ (List.mem_append_right _ hm)

theorem Leads.isTerm (h : Leads env t path env' n) (ht : t.isTerm) : n.isTerm := by
  induction h with
  | here => exact ht
  | step h _ ih => exact ih (h.isTerm ht)

theorem Leads.expressions (h : Leads env t path env' n) :
    ∀ m ∈ n.expressions, m ∈ t.expressions := by
  induction h with
  | here => exact fun _ hm ↦ hm
  | step h _ ih => exact fun m hm ↦ h.expressions m (ih m hm)

/-- In an expression of which every part is where it belongs, only a name or an operator can be at
fault. -/
theorem Faulty.blames (h : Faulty env n err) (hn : n.isTerm) : err.Blames n := by
  cases h with
  | unbound => exact ⟨_, rfl, .unbound List.mem_cons_self⟩
  | @mismatch _ _ _ _ a b => exact ⟨_, rfl, .mismatch a b List.mem_cons_self⟩
  | stray h =>
    rw [isExpression_of_isTerm hn] at h
    cases h
  | refused h =>
    obtain ⟨ty, hty⟩ := exists_toTy (Bool.and_eq_true_iff.mp hn).1
    rw [toTy_error_iff.mpr h] at hty
    cases hty

/-- Typing an expression fails on account of a name or an operator in it only. -/
theorem typeIn_error (ht : t.isTerm) (h : t.typeIn env = .error err) : err.Blames t := by
  obtain ⟨path, env', n, hpath, hn⟩ := exists_faulty h
  exact (hn.blames (hpath.isTerm ht)).mono hpath.expressions

end Node

end TypedLet
