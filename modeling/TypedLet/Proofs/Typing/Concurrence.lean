import TypedLet.Proofs.Typing.Fault
import TypedLet.Proofs.Typing.FreeNames

namespace TypedLet

/-- Errors of one kind that say the same, whichever nodes they blame. -/
inductive CheckError.Alike : CheckError → CheckError → Prop
  | unbound (x : String) (n n' : Node) : Alike (.illTyped (.unbound x n)) (.illTyped (.unbound x n'))
  | mismatch (n n' : Node) (actual : List Ty) (expected : String) :
      Alike (.illTyped (.mismatch n actual expected)) (.illTyped (.mismatch n' actual expected))
  | unsupported (n n' : Node) : Alike (.unsupported n) (.unsupported n')

open Node

/-- Two annotations name one type, or are refused on account of parts at one position. -/
inductive Node.Conform (t t' : Node) : Prop
  | named {ty} : t.toTy = .ok ty → t'.toTy = .ok ty → Conform t t'
  | refused {p n n'} : RefusesAt t p n → RefusesAt t' p n' → Conform t t'

/-- Two trees have one type, each in its environment, or typing fails in both at one position and
with errors that say the same. -/
inductive Concur (env env' : Env) (e e' : Node) : Prop
  | typed {ty} : HasType env e ty → HasType env' e' ty → Concur env env' e e'
  | failed {p err err'} : FailsAt env e p err → FailsAt env' e' p err' → err.Alike err' →
      Concur env env' e e'

variable {env env' : Env} {a a' b b' e e' t t' : Node} {x x' : String} {op : Op}
variable {span span' paramSpan paramSpan' : Option Span}

theorem Node.Conform.refl (t : Node) : t.Conform t := by
  cases h : t.toTy with
  | ok ty => exact .named h h
  | error n =>
    obtain ⟨p, hp⟩ := exists_refusesAt h
    exact .refused hp hp

theorem Node.Conform.funcType (ha : a.Conform a') (hb : b.Conform b') :
    (Node.funcType a b span).Conform (.funcType a' b' span') := by
  cases ha with
  | refused ha ha' => exact .refused (.left ha) (.left ha')
  | @named domain ha ha' =>
    cases hb with
    | refused hb hb' => exact .refused (.right ha hb) (.right ha' hb')
    | @named codomain hb hb' =>
      have hty {a b span} (ha : a.toTy = .ok domain) (hb : b.toTy = .ok codomain) :
          (Node.funcType a b span).toTy = .ok (.fn domain codomain) := by
        rw [toTy, ha, ok_bind, hb, ok_bind]
        rfl
      exact .named (hty ha hb) (hty ha' hb')

namespace Concur

theorem var (h : env x = env' x') (hx : env x = none → x = x') :
    Concur env env' (.var x span) (.var x' span') := by
  cases he : env x with
  | some ty => exact .typed (.var he) (.var (h.symm.trans he))
  | none =>
    obtain rfl := hx he
    exact .failed (.here (.unbound he) rfl) (.here (.unbound (h.symm.trans he)) rfl)
      (.unbound x _ _)

theorem stray (he : e.isExpression = false) (he' : e'.isExpression = false) :
    Concur env env' e e' :=
  .failed (.here (.stray he) rfl) (.here (.stray he') rfl) (.unsupported e e')

theorem paren (h : Concur env env' a a') :
    Concur env env' (.paren a span) (.paren a' span') := by
  cases h with
  | typed h h' => exact .typed (.paren h) (.paren h')
  | failed h h' he => exact .failed (.step .inner h) (.step .inner h') he

theorem binary (ha : Concur env env' a a')
    (hb : ∀ ty, HasType env a ty → Concur env env' b b') :
    Concur env env' (.binary op a b span) (.binary op a' b' span') := by
  cases ha with
  | failed ha ha' he => exact .failed (.step .left ha) (.step .left ha') he
  | @typed left ha ha' =>
    cases hb left ha with
    | failed hb hb' he => exact .failed (.step (.right ha) hb) (.step (.right ha') hb') he
    | @typed right hb hb' =>
      cases hr : op.result left right with
      | some ty => exact .typed (.of_result ha hb hr) (.of_result ha' hb' hr)
      | none =>
        have ht := Op.result_eq_none_iff.mp hr
        exact .failed (.here (.mismatch ha hb ht) rfl) (.here (.mismatch ha' hb' ht) rfl)
          (.mismatch _ _ _ _)

theorem letIn (ha : Concur env env' a a')
    (hb : ∀ ty, HasType env a ty → Concur (env.bind x ty) (env'.bind x' ty) b b') :
    Concur env env' (.letIn x a b span) (.letIn x' a' b' span') := by
  cases ha with
  | failed ha ha' he => exact .failed (.step .bound ha) (.step .bound ha') he
  | @typed ty ha ha' =>
    cases hb ty ha with
    | typed hb hb' => exact .typed (.letIn ha hb) (.letIn ha' hb')
    | failed hb hb' he => exact .failed (.step (.body ha) hb) (.step (.body ha') hb') he

theorem fn (ht : t.Conform t')
    (hb : ∀ ty, t.toTy = .ok ty → Concur (env.bind x ty) (env'.bind x' ty) b b') :
    Concur env env' (.fn x t b paramSpan span) (.fn x' t' b' paramSpan' span') := by
  cases ht with
  | refused ht ht' => exact .failed (.refused ht) (.refused ht') (.unsupported _ _)
  | @named ty ht ht' =>
    cases hb ty ht with
    | typed hb hb' => exact .typed (.fn ht hb) (.fn ht' hb')
    | failed hb hb' he => exact .failed (.step (.result ht) hb) (.step (.result ht') hb') he

/-- A tree concurs with itself in environments that agree on its free names. -/
theorem of_free (h : ∀ x ∈ e.free, env x = env' x) : Concur env env' e e := by
  induction e generalizing env env' with
  | absent | intType | boolType | funcType => exact stray rfl rfl
  | intLit => exact .typed .intLit .intLit
  | boolLit => exact .typed .boolLit .boolLit
  | var x span => exact var (h x (Finset.mem_singleton_self x)) fun _ ↦ rfl
  | paren a span ih => exact paren (ih h)
  | binary op a b span iha ihb =>
    apply binary
    · exact iha fun x hx ↦ h x (Finset.mem_union_left _ hx)
    · intro _ _
      exact ihb fun x hx ↦ h x (Finset.mem_union_right _ hx)
  | letIn y a b span iha ihb =>
    apply letIn
    · exact iha fun x hx ↦ h x (Finset.mem_union_left _ hx)
    · intro ty _
      exact ihb (Env.bind_congr fun x hx ↦ h x (Finset.mem_union_right _ hx))
  | fn y t b paramSpan span _ ihb =>
    apply fn (Conform.refl t)
    intro ty _
    exact ihb (Env.bind_congr h)

theorem refl (env : Env) (e : Node) : Concur env env e e := of_free fun _ _ ↦ rfl

end Concur

/-- Typing two trees on one scope ends alike and leaves the scope as it was: with one type, or with
errors that say the same and blame the nodes at one position. -/
inductive EndAlike (s : Scope Ty) (e e' : Node) : Prop
  | typed {ty} : e.infer s = .ok ty s → e'.infer s = .ok ty s → EndAlike s e e'
  | failed {p err err'} : e.infer s = .error err s → e'.infer s = .error err' s → err.Alike err' →
      FailsAt s.env e p err → FailsAt s.env e' p err' → e.at? p = err.node? →
      e'.at? p = err'.node? → EndAlike s e e'

theorem Concur.endAlike {s : Scope Ty} (h : Concur s.env s.env e e') : EndAlike s e e' := by
  cases h with
  | typed h h' =>
    exact .typed (infer_ok_iff.mpr ⟨h.typeIn_eq, rfl⟩) (infer_ok_iff.mpr ⟨h'.typeIn_eq, rfl⟩)
  | failed h h' he =>
    exact .failed (infer_error_iff.mpr ⟨h.typeIn_eq, rfl⟩)
      (infer_error_iff.mpr ⟨h'.typeIn_eq, rfl⟩) he h h' h.at?_eq h'.at?_eq

end TypedLet
