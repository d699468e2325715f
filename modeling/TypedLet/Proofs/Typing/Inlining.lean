import TypedLet.Proofs.Typing.Concurrence

namespace TypedLet

namespace Node

/-- A tree with another one put in for each free use of a name. -/
def subst : Node → String → Node → Node
  | paren e span, x, a => paren (e.subst x a) span
  | var y span, x, a => if y = x then a else var y span
  | binary op e₁ e₂ span, x, a => binary op (e₁.subst x a) (e₂.subst x a) span
  | letIn y e₁ e₂ span, x, a =>
    letIn y (e₁.subst x a) (if y = x then e₂ else e₂.subst x a) span
  | fn y type e paramSpan span, x, a =>
    fn y type (if y = x then e else e.subst x a) paramSpan span
  | e, _, _ => e

/-- No binder around a free use of a name binds one of these other names. -/
def Spares : Node → String → Finset String → Prop
  | paren e _, x, names => e.Spares x names
  | binary _ e₁ e₂ _, x, names => e₁.Spares x names ∧ e₂.Spares x names
  | letIn y e₁ e₂ _, x, names =>
    e₁.Spares x names ∧ (y ≠ x → (x ∈ e₂.free → y ∉ names) ∧ e₂.Spares x names)
  | fn y _ e _ _, x, names => y ≠ x → (x ∈ e.free → y ∉ names) ∧ e.Spares x names
  | _, _, _ => True

/-- The free uses of a name in a part are not free uses of it in the whole node. -/
def shields : Node → String → Field → Bool
  | letIn y _ _ _, x, .body => y = x
  | fn y _ _ _ _, x, .body => y = x
  | fn .., _, .paramType => true
  | funcType .., _, _ => true
  | _, _, _ => false

/-- The free uses of a name in the part at a position are not free uses of it in the whole tree. -/
def hides (e : Node) (x : String) : List Field → Bool
  | [] => false
  | field :: position =>
    e.shields x field || (e.part? field).any fun b ↦ b.hides x position

variable {e a b n : Node} {x : String} {field : Field} {p : List Field}

theorem part?_subst (h : e.part? field = some b) :
    (e.subst x a).part? field = some (if e.shields x field then b else b.subst x a) := by
  cases e with
  | absent | intType | boolType | var | intLit | boolLit => cases field <;> cases h
  | funcType | paren | binary => cases field <;> cases h <;> rfl
  | letIn y e₁ e₂ span =>
    cases field <;> cases h
    · rfl
    · simp only [subst, part?, shields, decide_eq_true_eq]
  | fn y type e paramSpan span =>
    cases field <;> cases h
    · simp only [subst, part?, shields, decide_eq_true_eq]
    · rfl

/-- What stands at a position after the replacement is what stood there, with the replacement made
in it as well if its uses of the name are free in the whole tree. -/
theorem at?_subst (h : e.at? p = some n) :
    (e.subst x a).at? p = some (if e.hides x p then n else n.subst x a) := by
  induction p generalizing e with
  | nil =>
    cases h
    rfl
  | cons field p ih =>
    obtain ⟨b, hb, h⟩ := Option.bind_eq_some_iff.mp h
    rw [at?_cons (part?_subst hb), hides, hb, Option.any_some]
    by_cases hs : e.shields x field
    · rw [if_pos hs, hs, Bool.true_or, if_pos rfl, h]
    · rw [if_neg hs, ih h, Bool.eq_false_of_not_eq_true hs, Bool.false_or]

end Node

open Node

variable {env env' : Env} {e a : Node} {x y : String} {ty ty' : Ty} {names names' : Finset String}

theorem HasType.bind_of_notMem_free (h : HasType env a ty) (hy : y ∉ a.free) :
    HasType (env.bind y ty') a ty := by
  have hagree : ∀ z ∈ a.free, env.bind y ty' z = env z := by
    intro z hz
    exact Env.bind_of_ne fun he ↦ hy (he ▸ hz)
  apply HasType.of_typeIn
  rw [typeIn_congr hagree, h.typeIn_eq]

/-- On some names an environment in which `x` is bound to the type of `a` and one in which it need
not be bound are the same but for `x`. -/
structure Env.Inlines (x : String) (a : Node) (ty : Ty) (names : Finset String) (env env' : Env) :
    Prop where
  value : x ∈ names → env x = some ty ∧ HasType env' a ty
  others : ∀ y ∈ names, y ≠ x → env y = env' y

namespace Env.Inlines

theorem mono (h : Inlines x a ty names env env') (hn : names' ⊆ names) :
    Inlines x a ty names' env env' where
  value hx := h.value (hn hx)
  others y hy := h.others y (hn hy)

theorem bind (h : Inlines x a ty (names.erase y) env env') (hy : y ≠ x)
    (hfree : x ∈ names → y ∉ a.free) :
    Inlines x a ty names (env.bind y ty') (env'.bind y ty') where
  value hx := by
    obtain ⟨henv, ha⟩ := h.value (Finset.mem_erase.mpr ⟨hy.symm, hx⟩)
    exact ⟨(bind_of_ne hy.symm).trans henv, ha.bind_of_notMem_free (hfree hx)⟩
  others z hz hzx := by
    have hcongr : ∀ z ∈ (names.erase x), env.bind y ty' z = env'.bind y ty' z := by
      apply bind_congr
      intro z hz
      obtain ⟨hzy, hz⟩ := Finset.mem_erase.mp hz
      obtain ⟨hzx, hz⟩ := Finset.mem_erase.mp hz
      exact h.others z (Finset.mem_erase.mpr ⟨hzy, hz⟩) hzx
    exact hcongr z (Finset.mem_erase.mpr ⟨hzx, hz⟩)

/-- A binder of `x` itself makes the environments the same. -/
theorem bind_self (h : Inlines x a ty (names.erase x) env env') :
    ∀ z ∈ names, env.bind x ty' z = env'.bind x ty' z :=
  bind_congr fun z hz ↦ h.others z hz (Finset.ne_of_mem_erase hz)

end Env.Inlines

/-- What a binder's body and the body with the replacement made in it have in common is kept by the
binder, whether it binds `x` or another name. -/
theorem Env.Inlines.body (h : Inlines x a ty (e.free.erase y) env env')
    (hs : y ≠ x → (x ∈ e.free → y ∉ a.free) ∧ e.Spares x a.free)
    (ih : ∀ {env env'}, Inlines x a ty e.free env env' → e.Spares x a.free →
      Concur env env' e (e.subst x a)) :
    Concur (env.bind y ty') (env'.bind y ty') e (if y = x then e else e.subst x a) := by
  by_cases hy : y = x
  · subst hy
    rw [if_pos rfl]
    exact .of_free h.bind_self
  · obtain ⟨hfree, he⟩ := hs hy
    rw [if_neg hy]
    exact ih (h.bind hy hfree) he

/-- A tree concurs with what it becomes when a typed tree is put in for a name of its type. -/
theorem Env.Inlines.concur (h : Inlines x a ty e.free env env') (hs : e.Spares x a.free) :
    Concur env env' e (e.subst x a) := by
  induction e generalizing env env' with
  | absent | intType | boolType | funcType => exact .stray rfl rfl
  | intLit => exact .typed .intLit .intLit
  | boolLit => exact .typed .boolLit .boolLit
  | var y span =>
    by_cases hy : y = x
    · obtain ⟨henv, ha⟩ := h.value (by rw [hy]; exact Finset.mem_singleton_self x)
      rw [subst, if_pos hy]
      exact .typed (.var (hy ▸ henv)) ha
    · rw [subst, if_neg hy]
      exact .var (h.others y (Finset.mem_singleton_self y) hy) fun _ ↦ rfl
  | paren e span ih => exact .paren (ih h hs)
  | binary op e₁ e₂ span ih₁ ih₂ =>
    apply Concur.binary
    · exact ih₁ (h.mono Finset.subset_union_left) hs.1
    · intro _ _
      exact ih₂ (h.mono Finset.subset_union_right) hs.2
  | letIn y e₁ e₂ span ih₁ ih₂ =>
    apply Concur.letIn
    · exact ih₁ (h.mono Finset.subset_union_left) hs.1
    · intro _ _
      exact (h.mono Finset.subset_union_right).body hs.2 ih₂
  | fn y type e paramSpan span _ ih =>
    apply Concur.fn (Conform.refl type)
    intro _ _
    exact h.body hs ih

theorem Env.inlines_bind (h : HasType env a ty) (names : Finset String) :
    Inlines x a ty names (env.bind x ty) env where
  value _ := ⟨bind_self, h⟩
  others _ _ hy := bind_of_ne hy

theorem CheckError.Alike.exists_node {err err' : CheckError} (h : err.Alike err') :
    ∃ n, err.node? = some n := by
  cases h <;> exact ⟨_, rfl⟩

/-- Putting the right side of a typed `let` in for its name, where no binder captures a name of it,
leaves the typing as it is: both have one type, or typing fails in both with errors that say the
same. The second then blames what the replacement makes of the node that the first blames. -/
theorem infer_inlined {s t : Scope Ty} {x : String} {e₁ e₂ : Node} {ty : Ty}
    (h₁ : e₁.infer s = .ok ty t) (h₂ : e₂.Spares x e₁.free) (span : Option Span) :
    (∃ ty', Node.infer (.letIn x e₁ e₂ span) s = .ok ty' s ∧
      (e₂.subst x e₁).infer s = .ok ty' s) ∨
    ∃ p n err err', Node.infer (.letIn x e₁ e₂ span) s = .error err s ∧
      (e₂.subst x e₁).infer s = .error err' s ∧ err.Alike err' ∧
      FailsAt s.env (.letIn x e₁ e₂ span) (.body :: p) err ∧
      FailsAt s.env (e₂.subst x e₁) p err' ∧
      e₂.at? p = some n ∧ err.node? = some n ∧
      err'.node? = some (if e₂.hides x p then n else n.subst x e₁) := by
  have hty : HasType s.env e₁ ty := .of_typeIn (infer_ok_iff.mp h₁).1
  have hc : Concur (s.env.bind x ty) s.env e₂ (e₂.subst x e₁) :=
    (Env.inlines_bind hty e₂.free).concur h₂
  cases hc with
  | @typed ty' h h' =>
    have hlet : HasType s.env (.letIn x e₁ e₂ span) ty' := .letIn hty h
    exact .inl ⟨ty', infer_ok_iff.mpr ⟨hlet.typeIn_eq, rfl⟩, infer_ok_iff.mpr ⟨h'.typeIn_eq, rfl⟩⟩
  | @failed p err err' h h' he =>
    have hlet : FailsAt s.env (.letIn x e₁ e₂ span) (.body :: p) err := .step (.body hty) h
    obtain ⟨n, hn⟩ := he.exists_node
    have hat : e₂.at? p = some n := h.at?_eq.trans hn
    exact .inr ⟨p, n, err, err', infer_error_iff.mpr ⟨hlet.typeIn_eq, rfl⟩,
      infer_error_iff.mpr ⟨h'.typeIn_eq, rfl⟩, he, hlet, h', hat, hn,
      h'.at?_eq.symm.trans (at?_subst hat)⟩

theorem unrelated_binder_inlined :
    let s := Scope.empty.insert "y" .int
    let e₁ := Node.binary .sum (.var "y" none) (.intLit 1 none) none
    let e₂ := Node.binary .equal (.letIn "y" (.var "x" none) (.var "y" none) none)
      (.fn "z" (.boolType none) (.var "x" none) none none) none
    e₁.infer s = .ok .int s ∧ e₂.Spares "x" e₁.free ∧
    ∃ p n err err', Node.infer (.letIn "x" e₁ e₂ none) s = .error err s ∧
      (e₂.subst "x" e₁).infer s = .error err' s ∧ err.Alike err' ∧
      FailsAt s.env (.letIn "x" e₁ e₂ none) (.body :: p) err ∧
      FailsAt s.env (e₂.subst "x" e₁) p err' ∧
      e₂.at? p = some n ∧ err.node? = some n ∧
      err'.node? = some (if e₂.hides "x" p then n else n.subst "x" e₁) := by
  intro s e₁ e₂
  have h₁ : e₁.infer s = .ok .int s := rfl
  have h₂ : e₂.Spares "x" e₁.free :=
    ⟨⟨trivial, fun _ ↦ ⟨by decide, trivial⟩⟩, fun _ ↦ ⟨by decide, trivial⟩⟩
  refine ⟨h₁, h₂, (infer_inlined h₁ h₂ none).resolve_left ?_⟩
  rintro ⟨ty, h, -⟩
  cases h

end TypedLet
