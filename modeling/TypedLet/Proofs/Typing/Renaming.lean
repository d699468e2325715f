import TypedLet.Proofs.Typing.Concurrence

namespace TypedLet

/-- The names that the binders around two places in two trees bind, in pairs, the innermost
first. -/
abbrev Renaming := List (String × String)

/-- A use of a name in one tree and one in the other belong to binders that are paired, or to no
binder at all and are the same. -/
inductive Renaming.Pairs : Renaming → String → String → Prop
  | free {x} : Pairs [] x x
  | here {x x' r} : Pairs ((x, x') :: r) x x'
  | outer {x x' y y' r} : x ≠ y → x' ≠ y' → Pairs r x x' → Pairs ((y, y') :: r) x x'

/-- Two trees differ only in the names that their binders bind, and in places: every use of a name
belongs to the same binder in both. -/
inductive Node.Renamed : Renaming → Node → Node → Prop
  | absent {r} : Renamed r .absent .absent
  | intType {r s s'} : Renamed r (.intType s) (.intType s')
  | boolType {r s s'} : Renamed r (.boolType s) (.boolType s')
  | funcType {r a a' b b' s s'} : Renamed r a a' → Renamed r b b' →
      Renamed r (.funcType a b s) (.funcType a' b' s')
  | paren {r a a' s s'} : Renamed r a a' → Renamed r (.paren a s) (.paren a' s')
  | var {r x x' s s'} : r.Pairs x x' → Renamed r (.var x s) (.var x' s')
  | intLit {r n s s'} : Renamed r (.intLit n s) (.intLit n s')
  | boolLit {r b s s'} : Renamed r (.boolLit b s) (.boolLit b s')
  | binary {r op a a' b b' s s'} : Renamed r a a' → Renamed r b b' →
      Renamed r (.binary op a b s) (.binary op a' b' s')
  | letIn {r x x' a a' b b' s s'} : Renamed r a a' → Renamed ((x, x') :: r) b b' →
      Renamed r (.letIn x a b s) (.letIn x' a' b' s')
  | fn {r x x' t t' b b' p p' s s'} : Renamed r t t' → Renamed ((x, x') :: r) b b' →
      Renamed r (.fn x t b p s) (.fn x' t' b' p' s')

/-- What paired names have in two environments: the same type, or none if they are the same name. -/
def Renaming.Relates (r : Renaming) (env env' : Env) : Prop :=
  ∀ ⦃x x'⦄, r.Pairs x x' → env x = env' x' ∧ (env x = none → x = x')

variable {r : Renaming} {env env' : Env} {e e' t t' : Node}

theorem Renaming.relates_nil (env : Env) : Relates [] env env := by
  intro x x' h
  cases h
  exact ⟨rfl, fun _ ↦ rfl⟩

/-- Binders that bind their names to one type keep environments related, whatever they hide. -/
theorem Renaming.Relates.bind (h : r.Relates env env') (x x' : String) (ty : Ty) :
    Relates ((x, x') :: r) (env.bind x ty) (env'.bind x' ty) := by
  intro y y' hy
  cases hy with
  | here =>
    refine ⟨Env.bind_self.trans Env.bind_self.symm, fun hn ↦ ?_⟩
    rw [Env.bind_self] at hn
    cases hn
  | outer hne hne' hy =>
    rw [Env.bind_of_ne hne, Env.bind_of_ne hne']
    exact h hy

theorem Node.Renamed.conform (h : t.Renamed r t') : t.Conform t' := by
  induction h with
  | intType => exact .named rfl rfl
  | boolType => exact .named rfl rfl
  | funcType _ _ iha ihb => exact iha.funcType ihb
  | absent | paren | var | intLit | boolLit | binary | letIn | fn =>
    exact .refused (.here rfl) (.here rfl)

theorem Node.Renamed.concur (h : e.Renamed r e') (henv : r.Relates env env') :
    Concur env env' e e' := by
  -- on the two trees side by side: each pair of binders binds one type, which relates the
  -- environments of the bodies
  induction h generalizing env env' with
  | absent | intType | boolType | funcType => exact .stray rfl rfl
  | intLit => exact .typed .intLit .intLit
  | boolLit => exact .typed .boolLit .boolLit
  | var hx =>
    obtain ⟨he, hn⟩ := henv hx
    exact .var he hn
  | paren _ ih => exact .paren (ih henv)
  | binary _ _ iha ihb => exact .binary (iha henv) fun _ _ ↦ ihb henv
  | letIn _ _ iha ihb =>
    apply Concur.letIn (iha henv)
    intro ty _
    exact ihb (henv.bind _ _ ty)
  | fn ht _ _ ihb =>
    apply Concur.fn ht.conform
    intro ty _
    exact ihb (henv.bind _ _ ty)

theorem Renaming.pairs_self (h : ∀ p ∈ r, p.1 = p.2) (x : String) : r.Pairs x x := by
  induction r with
  | nil => exact .free
  | cons p r ih =>
    obtain ⟨y, y'⟩ := p
    obtain ⟨hy, hr⟩ := List.forall_mem_cons.mp h
    obtain rfl : y = y' := hy
    by_cases hx : x = y
    · subst hx
      exact .here
    · exact .outer hx hx (ih hr)

/-- Typing two trees that differ only in the names they bind ends alike. -/
theorem infer_renamed (s : Scope Ty) {e e' : Node} (h : e.Renamed [] e') : EndAlike s e e' :=
  (h.concur (Renaming.relates_nil s.env)).endAlike

theorem swapped_names_alike :
    let e := Node.letIn "x" (.intLit 1 none) (.fn "y" (.boolType none) (.binary .conj
      (.var "x" none) (.letIn "x" (.var "y" none) (.var "x" none) none) none) none none) none
    let e' := Node.letIn "y" (.intLit 1 none) (.fn "x" (.boolType none) (.binary .conj
      (.var "y" none) (.letIn "y" (.var "x" none) (.var "y" none) none) none) none none) none
    e.Renamed [] e' ∧ EndAlike (Scope.empty.insert "x" .bool) e e' := by
  intro e e'
  have hx : Renaming.Pairs [("y", "x"), ("x", "y")] "x" "y" :=
    .outer (by decide) (by decide) .here
  have h : e.Renamed [] e' :=
    .letIn .intLit (.fn .boolType (.binary (.var hx) (.letIn (.var .here) (.var .here))))
  exact ⟨h, infer_renamed _ h⟩

end TypedLet
