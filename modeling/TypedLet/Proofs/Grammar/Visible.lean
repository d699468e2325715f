import TypedLet.Proofs.Grammar.Placement
import TypedLet.Text.Blank

namespace TypedLet.Grammar

open Text

/-- What begins at a place begins with a character that is no white space. -/
def StartsVisibly (s : List Char) (i : Nat) : Prop :=
  ∃ c, (s.drop i).head? = some c ∧ isBlank c = false

/-- What ends at a place ends with a character that is no white space. -/
def EndsVisibly (s : List Char) (j : Nat) : Prop :=
  ∃ c, (s.take j).getLast? = some c ∧ isBlank c = false

variable {text : String} {limit : Nat} {d : Dialect} {s w word : List Char} {e : Node} {ℓ : Level}
variable {m : TypeLevel} {i j : Nat}

theorem isBlank_of_lt {c : Char} (h : 32 < c.toNat) (h' : c.toNat < 128) : isBlank c = false := by
  simp only [isBlank, blankRanges, List.any_cons, List.any_nil, Bool.or_false, Bool.or_eq_false_iff,
    Bool.and_eq_false_iff, decide_eq_false_iff_not]
  omega

theorem isBlank_of_isNameChar {c : Char} (h : isNameChar c) : isBlank c = false := by
  change (((c.val ≥ 65 ∧ c.val ≤ 90 : Bool) || c.val ≥ 97 && c.val ≤ 122 ||
    c.val ≥ 48 && c.val ≤ 57) || c == '_') = true at h
  simp only [UInt32.le_iff_toNat_le, ge_iff_le, Bool.or_eq_true, Bool.and_eq_true,
    decide_eq_true_eq, beq_iff_eq] at h
  change ((65 ≤ c.toNat ∧ c.toNat ≤ 90 ∨ 97 ≤ c.toNat ∧ c.toNat ≤ 122) ∨
    48 ≤ c.toNat ∧ c.toNat ≤ 57) ∨ c = '_' at h
  rcases h with h | rfl
  · exact isBlank_of_lt (by omega) (by omega)
  · decide

theorem isLayout_eq_false {c : Char} (h : isBlank c = false) : isLayout c = false := by
  by_contra hc
  rcases isLayout_iff.mp (by simpa using hc) with rfl | rfl | rfl | rfl <;> cases h

/-- Words none of whose characters is white space. -/
class Visible (w : List Char) : Prop where
  ne_nil : w ≠ []
  not_isBlank : ∀ c ∈ w, isBlank c = false

theorem Visible.cons {c : Char} (hc : isBlank c = false) (hw : ∀ d ∈ w, isBlank d = false) :
    Visible (c :: w) :=
  ⟨List.cons_ne_nil c w, List.forall_mem_cons.mpr ⟨hc, hw⟩⟩

instance : Visible ['('] := .cons rfl (List.forall_mem_nil _)
instance : Visible [')'] := .cons rfl (List.forall_mem_nil _)
instance : Visible [':'] := .cons rfl (List.forall_mem_nil _)
instance : Visible ['='] := .cons rfl (List.forall_mem_nil _)
instance : Visible ['+'] := .cons rfl (List.forall_mem_nil _)
instance : Visible ['=', '>'] := .cons rfl (List.forall_mem_singleton.mpr rfl)
instance : Visible ['-', '>'] := .cons rfl (List.forall_mem_singleton.mpr rfl)
instance : Visible ['=', '='] := .cons rfl (List.forall_mem_singleton.mpr rfl)
instance : Visible ['&', '&'] := .cons rfl (List.forall_mem_singleton.mpr rfl)

instance [IsKeyword word] : Visible word :=
  ⟨IsKeyword.ne_nil, fun c hc ↦ isBlank_of_isNameChar (IsKeyword.isNameChar c hc)⟩

theorem IsName.visible (h : IsName w) : Visible w :=
  ⟨h.solid.ne_nil, fun c hc ↦ isBlank_of_isNameChar (h.2.1 c hc)⟩

theorem IsNumeral.visible (h : IsNumeral w) : Visible w :=
  ⟨h.1, fun c hc ↦ isBlank_of_isNameChar (isNameChar_of_isDigit (h.2 c hc))⟩

theorem Stands.startsVisibly [hw : Visible w] (h : Stands s w i j) : StartsVisibly s i :=
  ⟨w.head hw.ne_nil, by rw [h.head_eq hw.ne_nil, List.head?_eq_some_head hw.ne_nil],
    hw.not_isBlank _ (List.head_mem hw.ne_nil)⟩

theorem Stands.endsVisibly [hw : Visible w] (h : Stands s w i j) : EndsVisibly s j :=
  ⟨w.getLast hw.ne_nil, by rw [h.getLast_eq hw.ne_nil, List.getLast?_eq_some_getLast hw.ne_nil],
    hw.not_isBlank _ (List.getLast_mem hw.ne_nil)⟩

theorem Token.endsVisibly [Visible w] (h : Token s w i j) : EndsVisibly s j := by
  obtain ⟨q, -, hs⟩ := h
  exact hs.endsVisibly

theorem Keyword.startsVisibly [IsKeyword word] (h : Keyword s word i j) :
    StartsVisibly s (skip s i) :=
  (keyword_iff.mp h).1.startsVisibly

theorem Derives.startsVisibly (h : Derives d s ℓ i j e) : StartsVisibly s (skip s i) := by
  induction h with
  | integer h _ =>
    have := h.2.visible
    exact h.stands.startsVisibly
  | yes h | no h => exact h.startsVisibly
  | reference h =>
    have := h.2.visible
    exact h.stands.startsVisibly
  | paren ho _ _ _ => exact (token_iff.mp ho).startsVisibly
  | single _ ih | operation _ ih => exact ih
  | more _ _ _ ih _ => exact ih
  | letIn hlet _ _ _ _ _ _ _ => exact hlet.startsVisibly
  | function hfn _ _ _ _ _ _ _ _ => exact hfn.startsVisibly

theorem Derives.endsVisibly (h : Derives d s ℓ i j e) : EndsVisibly s j := by
  induction h with
  | integer h _ =>
    have := h.2.visible
    exact h.1.endsVisibly
  | yes h | no h => exact h.token.endsVisibly
  | reference h =>
    have := h.2.visible
    exact h.1.endsVisibly
  | paren _ _ hc _ => exact hc.endsVisibly
  | single _ ih | operation _ ih => exact ih
  | more _ _ _ _ ih => exact ih
  | letIn _ _ _ _ _ _ _ ih => exact ih
  | function _ _ _ _ _ _ _ _ ih => exact ih

end TypedLet.Grammar
