import TypedLet.Proofs.Grammar.Printed
import TypedLet.Proofs.Grammar.Shape

namespace TypedLet

/-- The function on a type that gives its argument back. -/
def Ty.identity (ty : Ty) : Node := .fn "x" ty.node (.var "x" none) none none

variable {source : String} {a b : Node} {ty : Ty}

theorem Node.same_of_toTy (ha : a.toTy = .ok ty) (hb : b.toTy = .ok ty) : a.same b :=
  same_iff.mpr ((toTy_ok_iff.mp ha).trans (toTy_ok_iff.mp hb).symm)

theorem Ty.text_injective : Function.Injective Ty.text := by
  intro a b h
  have ha := Grammar.readTy_text a
  rw [h, Grammar.readTy_text b] at ha
  exact (Except.ok.inj ha).symm

namespace Grammar

theorem identity_shaped (ty : Ty) : ty.identity.Shaped maxDigits .expression :=
  have hx : IsName "x".toList := by decide
  .fn hx ty.isType_node (.operation (.single (.single (.single (.var hx)))))

theorem laidOut_identity (ty : Ty) {s : List Char} {j : Nat}
    (h : Stands s ("fn (x: " ++ ty.text ++ ") => x").toList 0 j) (hj : wordAfter s j = false) :
    LaidOut s ty.identity.words 0 j := by
  simp only [String.toList_append, List.append_assoc] at h
  obtain ⟨k₆, hfront, h⟩ := h.split
  obtain ⟨k₇, htype, hback⟩ := h.split
  obtain ⟨k₁, hfn, h⟩ := Stands.split (u := fnWord) (v := [' ', '(', 'x', ':', ' ']) hfront
  obtain ⟨k₂, hspace₁, h⟩ := Stands.split (u := [' ']) (v := ['(', 'x', ':', ' ']) h
  obtain ⟨k₃, hopen, h⟩ := Stands.split (u := ['(']) (v := ['x', ':', ' ']) h
  obtain ⟨k₄, hx, h⟩ := Stands.split (u := ['x']) (v := [':', ' ']) h
  obtain ⟨k₅, hcolon, hspace₂⟩ := Stands.split (u := [':']) (v := [' ']) h
  obtain ⟨k₈, hclose, h⟩ := Stands.split (u := [')']) (v := [' ', '=', '>', ' ', 'x']) hback
  obtain ⟨k₉, hspace₃, h⟩ := Stands.split (u := [' ']) (v := ['=', '>', ' ', 'x']) h
  obtain ⟨k₁₀, harrow, h⟩ := Stands.split (u := ['=', '>']) (v := [' ', 'x']) h
  obtain ⟨k₁₁, hspace₄, hx'⟩ := Stands.split (u := [' ']) (v := ['x']) h
  have htype := laidOut_text ty (blank_of_space hspace₂) htype (hspace₂.not_wordBefore rfl)
    (hclose.not_wordAfter rfl)
  have hfn : Apart s fnWord 0 k₁ :=
    apart_of_stands (blank_refl s 0) hfn (by simp [wordBefore]) (hspace₁.not_wordAfter rfl)
  have hx : Apart s ['x'] k₃ k₄ :=
    apart_of_stands (blank_refl s k₃) hx (hopen.not_wordBefore rfl) (hcolon.not_wordAfter rfl)
  have hx' : Apart s ['x'] k₁₀ j :=
    apart_of_stands (blank_of_space hspace₄) hx' (hspace₄.not_wordBefore rfl) hj
  refine .cons hfn (.cons (apart_mark (blank_of_space hspace₁) hopen)
    (.cons hx (.cons (apart_mark (blank_refl s k₄) hcolon) ?_)))
  exact LaidOut.append_iff.mpr ⟨k₇, htype, .cons (apart_mark (blank_refl s k₇) hclose)
    (.cons (apart_mark (blank_of_space hspace₃) harrow) (.cons hx' .nil))⟩

theorem readExpression_identity (ty : Ty) :
    ∃ t, readExpression ("fn (x: " ++ ty.text ++ ") => x") = .ok t ∧ t.same ty.identity := by
  have hw := laidOut_identity ty (stands_self _) (wordAfter_length _)
  refine readExpression_of_words (identity_shaped ty) ?_ hw (blank_refl _ _)
  simp only [String.toList_append, List.mem_append, not_or]
  exact ⟨⟨by decide, tab_notMem_text ty⟩, by decide⟩

end Grammar

theorem Ty.hasType_identity (h : a.same ty.identity) : HasType .empty a (.fn ty ty) := by
  have h := Node.same_iff.mp h
  cases a with
  | fn x type body paramSpan span =>
    injection h with hx htype hbody
    obtain rfl := hx
    rw [ty.erase_node] at htype
    cases body with
    | var y span =>
      injection hbody with hy
      obtain rfl := hy
      exact .fn (Node.toTy_ok_iff.mpr htype) (.var (if_pos rfl))
    | _ => cases hbody
  | _ => cases h

theorem checkSource_identity (ty : Ty) :
    checkSource ("fn (x: " ++ ty.text ++ ") => x") = .ok (.fn ty ty) := by
  obtain ⟨t, ht, hsame⟩ := Grammar.readExpression_identity ty
  have hc : t.check = .ok (.fn ty ty) :=
    (check_eq_typeIn t).trans (Ty.hasType_identity hsame).typeIn_eq
  rw [checkSource, ht]
  change t.check.mapError Failure.rejected = .ok (.fn ty ty)
  rw [hc]
  rfl

/-- An annotation that is read names a type, and is read again from the text of that type. -/
theorem readAnnotation_text_toTy (h : Grammar.readAnnotation source = .ok a) :
    ∃ ty, a.toTy = .ok ty ∧ ∃ b, Grammar.readAnnotation ty.text = .ok b ∧ b.same a := by
  obtain ⟨_, hd, -⟩ := Grammar.readAnnotation_ok_iff.mp h
  obtain ⟨ty, hty⟩ := Node.exists_toTy hd.isType
  obtain ⟨b, hb, he⟩ := Grammar.readAnnotation_text ty
  exact ⟨ty, hty, b, hb, Node.same_of_toTy (Node.toTy_ok_iff.mpr he) hty⟩

/-- Writing types and reading annotations undo each other. The text of a type is read as an
annotation of that type, alone and in a program, and an annotation that was read is read again from
the text of its type. No two types have one text, and no two annotations name one type. -/
theorem text_toTy_inverse :
    (∀ ty : Ty, ∃ t, Grammar.readAnnotation ty.text = .ok t ∧ t.toTy = .ok ty) ∧
    (∀ ty : Ty, checkSource ("fn (x: " ++ ty.text ++ ") => x") = .ok (.fn ty ty)) ∧
    (∀ source t, Grammar.readAnnotation source = .ok t →
      ∃ ty, t.toTy = .ok ty ∧ ∃ t', Grammar.readAnnotation ty.text = .ok t' ∧ t'.same t) ∧
    Function.Injective Ty.text ∧
    ∀ (a b : Node) (ty : Ty), a.toTy = .ok ty → b.toTy = .ok ty → a.same b := by
  refine ⟨fun ty ↦ ?_, checkSource_identity, fun _ _ ↦ readAnnotation_text_toTy,
    Ty.text_injective, fun _ _ _ ↦ Node.same_of_toTy⟩
  obtain ⟨t, ht, he⟩ := Grammar.readAnnotation_text ty
  exact ⟨t, ht, Node.toTy_ok_iff.mpr he⟩

theorem arrows_text_toTy :
    ∃ t, Grammar.readAnnotation "Int -> Bool -> Int" = .ok t ∧
      ∃ ty, t.toTy = .ok ty ∧ ∃ t', Grammar.readAnnotation ty.text = .ok t' ∧ t'.same t :=
  ⟨_, rfl, text_toTy_inverse.2.2.1 "Int -> Bool -> Int" _ rfl⟩

end TypedLet
