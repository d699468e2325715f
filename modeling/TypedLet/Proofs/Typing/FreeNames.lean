import Mathlib.Data.Finset.Basic
import TypedLet.Proofs.Typing.Attribution

namespace TypedLet

namespace Node

/-- The names that a tree uses and does not bind itself. -/
def free : Node → Finset String
  | paren a _ => a.free
  | var x _ => {x}
  | binary _ a b _ => a.free ∪ b.free
  | letIn x a b _ => a.free ∪ b.free.erase x
  | fn x _ b _ _ => b.free.erase x
  | _ => ∅

/-- A variable, as it is placed, stands in a tree and no binder around it there binds its name. -/
inductive FreeAt (x : String) (span : Option Span) : Node → Prop
  | here : FreeAt x span (.var x span)
  | inner {e s} : FreeAt x span e → FreeAt x span (.paren e s)
  | left {op a b s} : FreeAt x span a → FreeAt x span (.binary op a b s)
  | right {op a b s} : FreeAt x span b → FreeAt x span (.binary op a b s)
  | bound {y a b s} : FreeAt x span a → FreeAt x span (.letIn y a b s)
  | body {y a b s} : x ≠ y → FreeAt x span b → FreeAt x span (.letIn y a b s)
  | result {y t b p s} : x ≠ y → FreeAt x span b → FreeAt x span (.fn y t b p s)

end Node

open Node

variable {env env' env₁ : Env} {e e₁ n : Node} {x y : String} {ty : Ty} {span : Option Span}
variable {branch : Branch} {path : List Branch} {names : Finset String}

theorem Node.FreeAt.mem_free (h : e.FreeAt x span) : x ∈ e.free := by
  induction h with
  | here => exact Finset.mem_singleton_self x
  | inner _ ih => exact ih
  | left _ ih | bound _ ih => exact Finset.mem_union_left _ ih
  | right _ ih => exact Finset.mem_union_right _ ih
  | body hx _ ih => exact Finset.mem_union_right _ (Finset.mem_erase.mpr ⟨hx, ih⟩)
  | result hx _ ih => exact Finset.mem_erase.mpr ⟨hx, ih⟩

theorem Env.bind_congr (h : ∀ z ∈ names.erase x, env z = env' z) :
    ∀ z ∈ names, env.bind x ty z = env'.bind x ty z := by
  intro z hz
  by_cases hx : z = x
  · rw [hx, bind_self, bind_self]
  · rw [bind_of_ne hx, bind_of_ne hx]
    exact h z (Finset.mem_erase.mpr ⟨hx, hz⟩)

/-- Typing asks an environment for the free names of a tree only. -/
theorem Node.typeIn_congr (h : ∀ x ∈ e.free, env x = env' x) : e.typeIn env = e.typeIn env' := by
  induction e generalizing env env' with
  | absent | intType | boolType | funcType | intLit | boolLit => rfl
  | paren inner span ih => exact ih h
  | var x span => rw [typeIn, typeIn, h x (Finset.mem_singleton_self x)]
  | binary op left right span ihl ihr =>
    have hl := ihl fun x hx ↦ h x (Finset.mem_union_left _ hx)
    have hr := ihr fun x hx ↦ h x (Finset.mem_union_right _ hx)
    rw [typeIn, typeIn, hl, hr]
  | letIn x right body span ihr ihb =>
    have hr := ihr fun y hy ↦ h y (Finset.mem_union_left _ hy)
    have hb (a : Ty) : body.typeIn (env.bind x a) = body.typeIn (env'.bind x a) :=
      ihb (Env.bind_congr fun y hy ↦ h y (Finset.mem_union_right _ hy))
    simp only [typeIn, hr, hb]
  | fn x type body paramSpan span _ ihb =>
    have hb (a : Ty) : body.typeIn (env.bind x a) = body.typeIn (env'.bind x a) :=
      ihb (Env.bind_congr h)
    simp only [typeIn, hb]

/-- A tree that has a type has its free names in sight. -/
theorem HasType.exists_of_mem_free (h : HasType env e ty) (hx : x ∈ e.free) :
    ∃ a, env x = some a := by
  induction h with
  | paren _ ih => exact ih hx
  | @var _ _ _ ty h =>
    rw [free, Finset.mem_singleton] at hx
    exact ⟨ty, hx ▸ h⟩
  | intLit | boolLit => exact absurd hx (Finset.notMem_empty x)
  | conj _ _ ihl ihr | equalInt _ _ ihl ihr | equalBool _ _ ihl ihr | sum _ _ ihl ihr =>
    exact (Finset.mem_union.mp hx).elim ihl ihr
  | letIn _ _ ihr ihb =>
    rcases Finset.mem_union.mp hx with hx | hx
    · exact ihr hx
    · obtain ⟨hne, hx⟩ := Finset.mem_erase.mp hx
      obtain ⟨a, ha⟩ := ihb hx
      exact ⟨a, (Env.bind_of_ne hne).symm.trans ha⟩
  | fn _ _ ihb =>
    obtain ⟨hne, hx⟩ := Finset.mem_erase.mp hx
    obtain ⟨a, ha⟩ := ihb hx
    exact ⟨a, (Env.bind_of_ne hne).symm.trans ha⟩

theorem Env.ne_of_bind_eq_none (h : env.bind y ty x = none) : x ≠ y := by
  rintro rfl
  rw [bind_self] at h
  cases h

/-- A name that is not in sight at a part of a tree is not in sight around the tree, and what uses
it freely in the part does so in the tree. -/
theorem Node.Enters.freeAt (h : Enters env e branch env₁ e₁) (hx : env₁ x = none)
    (hn : e₁.FreeAt x span) : env x = none ∧ e.FreeAt x span := by
  cases h with
  | inner => exact ⟨hx, .inner hn⟩
  | left => exact ⟨hx, .left hn⟩
  | right _ => exact ⟨hx, .right hn⟩
  | bound => exact ⟨hx, .bound hn⟩
  | body _ =>
    have hne := Env.ne_of_bind_eq_none hx
    exact ⟨(Env.bind_of_ne hne).symm.trans hx, .body hne hn⟩
  | result _ =>
    have hne := Env.ne_of_bind_eq_none hx
    exact ⟨(Env.bind_of_ne hne).symm.trans hx, .result hne hn⟩

theorem Node.Leads.freeAt (h : Leads env e path env₁ n) (hx : env₁ x = none)
    (hn : n.FreeAt x span) : env x = none ∧ e.FreeAt x span := by
  induction h with
  | here => exact ⟨hx, hn⟩
  | step h _ ih =>
    obtain ⟨hx, hn⟩ := ih hx hn
    exact h.freeAt hx hn

theorem Node.typeIn_unbound (h : e.typeIn env = .error (.illTyped (.unbound x n))) :
    env x = none ∧ ∃ span, n = .var x span ∧ e.FreeAt x span := by
  obtain ⟨path, env₁, m, hpath, hm⟩ := exists_faulty h
  cases hm with
  | @unbound _ span hx =>
    obtain ⟨hx, hn⟩ := hpath.freeAt hx .here
    exact ⟨hx, span, rfl, hn⟩

/-- Typing depends on the free names of a tree only. On two scopes that agree on them it ends in the
same way. A tree that has a type has all of them in sight, and a name that is blamed for not being
in sight is one of them, at a free occurrence; so no name is blamed in a tree that has none. -/
theorem infer_depends_on_free :
    (∀ (e : Node) (s s' : Scope Ty), (∀ x ∈ e.free, s.get? x = s'.get? x) →
      ∃ outcome, e.infer s = Check.settle s outcome ∧ e.infer s' = Check.settle s' outcome) ∧
    (∀ (e : Node) (s t : Scope Ty) (ty : Ty), e.infer s = .ok ty t →
      ∀ x ∈ e.free, ∃ a, s.get? x = some a) ∧
    (∀ (e n : Node) (s t : Scope Ty) (x : String),
      e.infer s = .error (.illTyped (.unbound x n)) t →
      x ∈ e.free ∧ s.get? x = none ∧ ∃ span, n = .var x span ∧ e.FreeAt x span) ∧
    ∀ e : Node, e.free = ∅ → ∀ x n, e.check ≠ .error (.illTyped (.unbound x n)) := by
  refine ⟨fun e s s' h ↦ ⟨e.typeIn s.env, e.infer_computes s, ?_⟩, fun e s t ty h x hx ↦ ?_,
    fun e n s t x h ↦ ?_, fun e he x n h ↦ ?_⟩
  · have he : e.typeIn s.env = e.typeIn s'.env := typeIn_congr h
    rw [he]
    exact e.infer_computes s'
  · exact (HasType.of_typeIn (infer_ok_iff.mp h).1).exists_of_mem_free hx
  · obtain ⟨hx, span, hn, hfree⟩ := typeIn_unbound (infer_error_iff.mp h).1
    exact ⟨hfree.mem_free, hx, span, hn, hfree⟩
  · rw [check_eq_typeIn] at h
    obtain ⟨-, span, -, hfree⟩ := typeIn_unbound h
    exact Finset.eq_empty_iff_forall_notMem.mp he x hfree.mem_free

theorem bound_name_irrelevant :
    (Node.letIn "x" (.intLit 1 none) (.binary .sum (.var "x" none) (.var "y" none) none) none).free =
      {"y"} ∧
    ∃ outcome,
      Node.infer (.letIn "x" (.intLit 1 none) (.binary .sum (.var "x" none) (.var "y" none) none)
        none) (Scope.empty.insert "y" .int) =
          Check.settle (Scope.empty.insert "y" .int) outcome ∧
      Node.infer (.letIn "x" (.intLit 1 none) (.binary .sum (.var "x" none) (.var "y" none) none)
        none) ((Scope.empty.insert "y" .int).insert "x" .bool) =
          Check.settle ((Scope.empty.insert "y" .int).insert "x" .bool) outcome := by
  have hfree : (Node.letIn "x" (.intLit 1 none) (.binary .sum (.var "x" none) (.var "y" none) none)
      none).free = {"y"} := by decide
  refine ⟨hfree, infer_depends_on_free.1 _ _ _ fun x hx ↦ ?_⟩
  rw [hfree, Finset.mem_singleton] at hx
  rw [hx]
  rfl

end TypedLet
