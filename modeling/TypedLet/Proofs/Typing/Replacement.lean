import Mathlib.Logic.Relation
import TypedLet.Proofs.Node.Places
import TypedLet.Proofs.Typing.Concurrence

namespace TypedLet

/-- A tree with one expression left out. -/
inductive Context where
  | hole
  | inner (c : Context) (span : Option Span)
  | left (op : Op) (c : Context) (right : Node) (span : Option Span)
  | right (op : Op) (left : Node) (c : Context) (span : Option Span)
  | bound (name : String) (c : Context) (body : Node) (span : Option Span)
  | body (name : String) (right : Node) (c : Context) (span : Option Span)
  | result (param : String) (paramType : Node) (c : Context) (paramSpan span : Option Span)

namespace Context

def fill : Context → Node → Node
  | hole, e => e
  | inner c span, e => .paren (c.fill e) span
  | left op c b span, e => .binary op (c.fill e) b span
  | right op a c span, e => .binary op a (c.fill e) span
  | bound x c b span, e => .letIn x (c.fill e) b span
  | body x a c span, e => .letIn x a (c.fill e) span
  | result x type c paramSpan span, e => .fn x type (c.fill e) paramSpan span

/-- The way from the whole tree to the place that is left out. -/
def path : Context → List Branch
  | hole => []
  | inner c _ => .inner :: c.path
  | left _ c _ _ => .left :: c.path
  | right _ _ c _ => .right :: c.path
  | bound _ c _ _ => .right :: c.path
  | body _ _ c _ => .body :: c.path
  | result _ _ c _ _ => .body :: c.path

end Context

open Node

variable {env env₁ : Env} {e e' e₁ e₂ n : Node} {branch : Branch} {path : List Branch} {ty : Ty}
variable {s : Scope Ty} {c : Context} {span : Option Span}

/-- What may stand at the place that is left out are the expressions of the tree. -/
theorem mem_expressions_iff : n ∈ e.expressions ↔ ∃ c : Context, e = c.fill n := by
  constructor
  · intro h
    induction e with
    | absent | intType | boolType | funcType | var | intLit | boolLit =>
      obtain rfl := List.mem_singleton.mp h
      exact ⟨.hole, rfl⟩
    | paren a span ih =>
      rcases List.mem_cons.mp h with rfl | h
      · exact ⟨.hole, rfl⟩
      · obtain ⟨c, rfl⟩ := ih h
        exact ⟨.inner c span, rfl⟩
    | binary op a b span iha ihb =>
      rcases List.mem_cons.mp h with rfl | h
      · exact ⟨.hole, rfl⟩
      rcases List.mem_append.mp h with h | h
      · obtain ⟨c, rfl⟩ := iha h
        exact ⟨.left op c b span, rfl⟩
      · obtain ⟨c, rfl⟩ := ihb h
        exact ⟨.right op a c span, rfl⟩
    | letIn x a b span iha ihb =>
      rcases List.mem_cons.mp h with rfl | h
      · exact ⟨.hole, rfl⟩
      rcases List.mem_append.mp h with h | h
      · obtain ⟨c, rfl⟩ := iha h
        exact ⟨.bound x c b span, rfl⟩
      · obtain ⟨c, rfl⟩ := ihb h
        exact ⟨.body x a c span, rfl⟩
    | fn x type b paramSpan span _ ih =>
      rcases List.mem_cons.mp h with rfl | h
      · exact ⟨.hole, rfl⟩
      · obtain ⟨c, rfl⟩ := ih h
        exact ⟨.result x type c paramSpan span, rfl⟩
  · rintro ⟨c, rfl⟩
    induction c with
    | hole => cases n <;> exact List.mem_cons_self
    | inner c _ ih | result _ _ c _ _ ih => exact List.mem_cons_of_mem _ ih
    | left _ c _ _ ih | bound _ c _ _ ih =>
      exact List.mem_cons_of_mem _ (List.mem_append_left _ ih)
    | right _ _ c _ ih | body _ _ c _ ih =>
      exact List.mem_cons_of_mem _ (List.mem_append_right _ ih)

/-- Trees that have one type wherever typing comes to the place that is left out make the whole
trees concur. -/
theorem Context.concur (c : Context)
    (h : ∀ env₁, Leads env (c.fill e₁) c.path env₁ e₁ →
      ∃ ty, HasType env₁ e₁ ty ∧ HasType env₁ e₂ ty) :
    Concur env env (c.fill e₁) (c.fill e₂) := by
  induction c generalizing env with
  | hole =>
    obtain ⟨ty, h₁, h₂⟩ := h env .here
    exact .typed h₁ h₂
  | inner c span ih => exact .paren (ih fun env₁ hl ↦ h env₁ (.step .inner hl))
  | left op c b span ih =>
    apply Concur.binary
    · exact ih fun env₁ hl ↦ h env₁ (.step .left hl)
    · exact fun _ _ ↦ .refl env b
  | right op a c span ih =>
    apply Concur.binary (.refl env a)
    intro ty ha
    exact ih fun env₁ hl ↦ h env₁ (.step (.right ha) hl)
  | bound x c b span ih =>
    apply Concur.letIn
    · exact ih fun env₁ hl ↦ h env₁ (.step .bound hl)
    · exact fun ty _ ↦ .refl (env.bind x ty) b
  | body x a c span ih =>
    apply Concur.letIn (.refl env a)
    intro ty ha
    exact ih fun env₁ hl ↦ h env₁ (.step (.body ha) hl)
  | result x type c paramSpan span ih =>
    apply Concur.fn (.refl type)
    intro ty ht
    exact ih fun env₁ hl ↦ h env₁ (.step (.result ht) hl)

theorem Node.Enters.exists_scope (h : Enters s.env e branch env₁ e₁) :
    ∃ t : Scope Ty, t.env = env₁ := by
  generalize hs : s.env = env at h
  subst hs
  cases h with
  | inner | left | right | bound => exact ⟨s, rfl⟩
  | @body x _ _ _ ty _ | @result x _ _ _ _ ty _ => exact ⟨s.insert x ty, s.env_insert x ty⟩

/-- The names in sight at a part of a tree are those of a scope. -/
theorem Node.Leads.exists_scope (h : Leads s.env e path env₁ n) : ∃ t : Scope Ty, t.env = env₁ := by
  generalize hs : s.env = env at h
  induction h generalizing s with
  | here => exact ⟨s, hs⟩
  | step h _ ih =>
    obtain ⟨t, ht⟩ := (hs ▸ h).exists_scope
    exact ih ht

theorem HasType.enters (h : HasType env e ty) (he : Enters env e branch env₁ e₁) :
    ∃ ty₁, HasType env₁ e₁ ty₁ := by
  cases he with
  | inner => cases h with | paren h => exact ⟨_, h⟩
  | left =>
    cases h with
    | conj ha _ | equalInt ha _ | equalBool ha _ | sum ha _ => exact ⟨_, ha⟩
  | right =>
    cases h with
    | conj _ hb | equalInt _ hb | equalBool _ hb | sum _ hb => exact ⟨_, hb⟩
  | bound => cases h with | letIn ha _ => exact ⟨_, ha⟩
  | body ha' =>
    cases h with
    | letIn ha hb =>
      obtain rfl := ha.unique ha'
      exact ⟨_, hb⟩
  | result ht' =>
    cases h with
    | fn ht hb =>
      obtain rfl := Except.ok.inj (ht.symm.trans ht')
      exact ⟨_, hb⟩

/-- Every part of a typed tree that typing comes to has a type. -/
theorem HasType.leads (h : HasType env e ty) (hl : Leads env e path env₁ n) :
    ∃ ty₁, HasType env₁ n ty₁ := by
  induction hl generalizing ty with
  | here => exact ⟨ty, h⟩
  | step he _ ih =>
    obtain ⟨_, h⟩ := h.enters he
    exact ih h

/-- One tree is the other with parentheses put around one expression in it. -/
inductive Encloses : Node → Node → Prop
  | around (c : Context) (e : Node) (span : Option Span) :
      Encloses (c.fill (.paren e span)) (c.fill e)

theorem Concur.hasType (h : Concur env env e e') (he : HasType env e ty) : HasType env e' ty := by
  cases h with
  | typed h h' => exact he.unique h ▸ h'
  | failed h _ _ => exact absurd h.typeIn_eq (not_error he)

theorem Encloses.hasType_iff (h : Encloses e e') : HasType env e ty ↔ HasType env e' ty := by
  cases h with
  | around c e span =>
    constructor
    · intro h
      apply Concur.hasType (c.concur ?_) h
      intro env₁ hl
      obtain ⟨ty₁, h₁⟩ := h.leads hl
      cases h₁ with | paren h₁ => exact ⟨ty₁, .paren h₁, h₁⟩
    · intro h
      apply Concur.hasType (c.concur ?_) h
      intro env₁ hl
      obtain ⟨ty₁, h₁⟩ := h.leads hl
      exact ⟨ty₁, h₁, .paren h₁⟩

theorem infer_iff_of_encloses (h : Relation.EqvGen Encloses e e') :
    e.infer s = .ok ty s ↔ e'.infer s = .ok ty s := by
  simp only [infer_ok_iff, typeIn_eq_ok_iff, and_true]
  induction h with
  | rel _ _ h => exact h.hasType_iff
  | refl _ => exact Iff.rfl
  | symm _ _ _ ih => exact ih.symm
  | trans _ _ _ _ _ ih₁ ih₂ => exact ih₁.trans ih₂

/-- An expression in a tree can be replaced by another one that has the same type where typing comes
to it, if it does: typing the whole ends as before, with the same type, or with an error that says
the same and blames the node at the same position. Every expression of a tree stands where such a
replacement can be made. In particular parentheses, put around expressions of a typed tree or taken
away, any number of times, never change its type. -/
theorem infer_replaced :
    (∀ (s : Scope Ty) (c : Context) (e₁ e₂ : Node),
      (∀ t : Scope Ty, Leads s.env (c.fill e₁) c.path t.env e₁ →
        ∃ ty, e₁.infer t = .ok ty t ∧ e₂.infer t = .ok ty t) →
      EndAlike s (c.fill e₁) (c.fill e₂)) ∧
    (∀ e n : Node, n ∈ e.expressions ↔ ∃ c : Context, e = c.fill n) ∧
    ∀ (s : Scope Ty) (e e' : Node) (ty : Ty), Relation.EqvGen Encloses e e' →
      (e.infer s = .ok ty s ↔ e'.infer s = .ok ty s) := by
  refine ⟨fun s c e₁ e₂ h ↦ Concur.endAlike (c.concur fun env₁ hl ↦ ?_),
    fun _ _ ↦ mem_expressions_iff, fun _ _ _ _ ↦ infer_iff_of_encloses⟩
  obtain ⟨t, rfl⟩ := hl.exists_scope
  obtain ⟨ty, h₁, h₂⟩ := h t hl
  exact ⟨ty, .of_typeIn (infer_ok_iff.mp h₁).1, .of_typeIn (infer_ok_iff.mp h₂).1⟩

theorem operand_replaced :
    let c := Context.result "x" (.boolType none) (.left .conj .hole (.var "z" none) none) none none
    let e₁ := Node.var "x" none
    let e₂ := Node.binary .equal (.var "x" none) (.boolLit true none) none
    (∀ t : Scope Ty, Leads Scope.empty.env (c.fill e₁) c.path t.env e₁ →
      ∃ ty, e₁.infer t = .ok ty t ∧ e₂.infer t = .ok ty t) ∧
    EndAlike .empty (c.fill e₁) (c.fill e₂) ∧
    (e₁.infer (Scope.empty.insert "x" .int) = .ok .int (Scope.empty.insert "x" .int) ↔
      Node.infer (.paren e₁ none) (Scope.empty.insert "x" .int) =
        .ok .int (Scope.empty.insert "x" .int)) := by
  intro c e₁ e₂
  have hreach {env₁ : Env} (hl : Leads Scope.empty.env (c.fill e₁) c.path env₁ e₁) :
      env₁ "x" = some .bool := by
    cases hl with
    | step he hl =>
      cases he with
      | result ht =>
        cases ht
        cases hl with
        | step he hl =>
          cases he
          cases hl
          exact Env.bind_self
  have h (t : Scope Ty) (hl : Leads Scope.empty.env (c.fill e₁) c.path t.env e₁) :
      ∃ ty, e₁.infer t = .ok ty t ∧ e₂.infer t = .ok ty t := by
    have hx : HasType t.env e₁ .bool := .var (hreach hl)
    have hequal : HasType t.env e₂ .bool := .equalBool hx .boolLit
    exact ⟨.bool, infer_ok_iff.mpr ⟨hx.typeIn_eq, rfl⟩, infer_ok_iff.mpr ⟨hequal.typeIn_eq, rfl⟩⟩
  have hp : Encloses (.paren e₁ none) e₁ := .around .hole e₁ none
  exact ⟨h, infer_replaced.1 .empty c e₁ e₂ h,
    infer_replaced.2.2 _ e₁ (.paren e₁ none) .int (.symm _ _ (.rel _ _ hp))⟩

end TypedLet
