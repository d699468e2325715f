import Mathlib.Data.Option.Basic
import TypedLet.Proofs.Node.Parts
import TypedLet.Proofs.Node.Position

namespace TypedLet.Node

/-- Two trees of one form, in which what stands at one position has spans that belong together. -/
inductive Parallel (R : Span → Span → Prop) : Node → Node → Prop
  | absent : Parallel R .absent .absent
  | intType {s s'} : Option.Rel R s s' → Parallel R (.intType s) (.intType s')
  | boolType {s s'} : Option.Rel R s s' → Parallel R (.boolType s) (.boolType s')
  | funcType {a a' b b' s s'} : Parallel R a a' → Parallel R b b' → Option.Rel R s s' →
      Parallel R (.funcType a b s) (.funcType a' b' s')
  | paren {a a' s s'} : Parallel R a a' → Option.Rel R s s' → Parallel R (.paren a s) (.paren a' s')
  | var {x s s'} : Option.Rel R s s' → Parallel R (.var x s) (.var x s')
  | intLit {n s s'} : Option.Rel R s s' → Parallel R (.intLit n s) (.intLit n s')
  | boolLit {b s s'} : Option.Rel R s s' → Parallel R (.boolLit b s) (.boolLit b s')
  | binary {op a a' b b' s s'} : Parallel R a a' → Parallel R b b' → Option.Rel R s s' →
      Parallel R (.binary op a b s) (.binary op a' b' s')
  | letIn {x a a' b b' s s'} : Parallel R a a' → Parallel R b b' → Option.Rel R s s' →
      Parallel R (.letIn x a b s) (.letIn x a' b' s')
  | fn {x t t' b b' p p' s s'} : Parallel R t t' → Parallel R b b' → Option.Rel R p p' →
      Option.Rel R s s' → Parallel R (.fn x t b p s) (.fn x t' b' p' s')

namespace Parallel

variable {R : Span → Span → Prop} {a a' b b' n : Node} {field : Field} {position : List Field}

theorem span (h : Parallel R a a') : Option.Rel R a.span a'.span := by
  cases h with
  | absent => exact .none
  | intType hs | boolType hs | funcType _ _ hs | paren _ hs | var hs | intLit hs | boolLit hs
  | binary _ _ hs | letIn _ _ hs | fn _ _ _ hs => exact hs

theorem spanning (hR : ∀ {s s' t t'}, R s s' → R t t' → R (s.merge t) (s'.merge t'))
    (ha : Parallel R a a') (hb : Parallel R b b') :
    Option.Rel R (a.spanning b) (a'.spanning b') := by
  have ha := ha.span
  have hb := hb.span
  rw [Node.spanning, Node.spanning]
  generalize a.span = s, a'.span = s' at ha
  generalize b.span = t, b'.span = t' at hb
  cases ha with
  | none => exact .none
  | some hs =>
    cases hb with
    | none => exact .none
    | some ht => exact .some (hR hs ht)

theorem same (h : Parallel R a a') : a.same a' := by
  rw [same_iff]
  induction h with
  | absent | intType | boolType | var | intLit | boolLit => rfl
  | paren _ _ ih => simp only [erase, ih]
  | funcType _ _ _ iha ihb | binary _ _ _ iha ihb | letIn _ _ _ iha ihb | fn _ _ _ _ iha ihb =>
    simp only [erase, iha, ihb]

theorem part? (h : Parallel R a a') (hb : a.part? field = some b) :
    ∃ b', a'.part? field = some b' ∧ Parallel R b b' := by
  cases h with
  | absent | intType | boolType | var | intLit | boolLit => cases field <;> cases hb
  | paren h =>
    cases field <;> cases hb
    exact ⟨_, rfl, h⟩
  | funcType ha hb' | binary ha hb' | letIn ha hb' =>
    cases field <;> cases hb
    · exact ⟨_, rfl, ha⟩
    · exact ⟨_, rfl, hb'⟩
  | fn ht hb' =>
    cases field <;> cases hb
    · exact ⟨_, rfl, hb'⟩
    · exact ⟨_, rfl, ht⟩

theorem at? (h : Parallel R a a') (hn : a.at? position = some n) :
    ∃ n', a'.at? position = some n' ∧ Parallel R n n' := by
  induction position generalizing a a' with
  | nil =>
    cases hn
    exact ⟨a', rfl, h⟩
  | cons field position ih =>
    obtain ⟨b, hb, hn⟩ := Option.bind_eq_some_iff.mp hn
    obtain ⟨b', hb', h⟩ := h.part? hb
    obtain ⟨n', hn', h⟩ := ih h hn
    exact ⟨n', by rw [at?_cons hb', hn'], h⟩

end Parallel

variable {a b n : Node} {field : Field} {position : List Field}

theorem mem_parts_self (a : Node) : a ∈ a.parts := by cases a <;> exact List.mem_cons_self

theorem mem_parts_of_part? (h : a.part? field = some b) (hn : n ∈ b.parts) : n ∈ a.parts := by
  cases a <;> cases field <;> cases h <;> simp [parts, hn]

theorem mem_parts_of_at? (h : a.at? position = some n) : n ∈ a.parts := by
  induction position generalizing a with
  | nil =>
    cases h
    exact mem_parts_self _
  | cons field position ih =>
    obtain ⟨b, hb, h⟩ := Option.bind_eq_some_iff.mp h
    exact mem_parts_of_part? hb (ih h)

end TypedLet.Node
