import TypedLet.Proofs.Grammar.Subtext
import TypedLet.Proofs.Grammar.Words
import TypedLet.Proofs.Typing.Judgment

namespace TypedLet

variable {ty : Ty} {a b : Node}

/-- The annotation that names a type. -/
def Ty.node : Ty → Node
  | int => .intType none
  | bool => .boolType none
  | fn a b => .funcType a.node b.node none

theorem Ty.erase_node (ty : Ty) : ty.node.erase = ty.node := by
  induction ty <;> simp_all only [node, Node.erase]

theorem Ty.isType_node (ty : Ty) : ty.node.isType := by
  induction ty <;> simp_all [node, Node.isType]

theorem Node.toTy_ok_iff : a.toTy = .ok ty ↔ a.erase = ty.node := by
  constructor
  · intro h
    induction a generalizing ty with
    | intType | boolType => cases h; rfl
    | funcType a b _ iha ihb =>
      obtain ⟨domain, ha, h⟩ := bind_ok h
      obtain ⟨codomain, hb, h⟩ := bind_ok h
      cases h
      rw [erase, iha ha, ihb hb, Ty.node]
    | _ => cases h
  · intro h
    induction ty generalizing a with
    | int | bool => cases a <;> cases h; rfl
    | fn b c ihb ihc =>
      cases a with
      | funcType left right span =>
        simp only [erase, Ty.node, funcType.injEq, and_true] at h
        simp only [toTy, ihb h.1, ihc h.2]
        rfl
      | _ => cases h

namespace Grammar

open Text

variable {s : List Char} {i j q : Nat} {source : String}

/-- In the text of a type, wherever it stands apart from other words, the words of its annotation
are laid out. -/
theorem laidOut_text (ty : Ty) (hl : Blank s i q) (h : Stands s ty.text.toList q j)
    (hb : wordBefore s q = false) (ha : wordAfter s j = false) : LaidOut s ty.node.words i j := by
  induction ty generalizing i q j with
  | int | bool => exact LaidOut.singleton_iff.mpr (apart_of_stands hl h hb ha)
  | fn a b iha ihb =>
    simp only [Ty.text, String.toList_append, List.append_assoc] at h
    obtain ⟨k₁, hopen, h⟩ := h.split
    obtain ⟨k₂, hdomain, h⟩ := h.split
    obtain ⟨k₅, harrow, h⟩ := h.split
    obtain ⟨k₆, hcodomain, hclose⟩ := h.split
    obtain ⟨k₃, hspace, harrow⟩ := Stands.split (u := [' ']) (v := ['-', '>', ' ']) harrow
    obtain ⟨k₄, harrow, hspace'⟩ := Stands.split (u := ['-', '>']) (v := [' ']) harrow
    have hdomain := iha (blank_refl s k₁) hdomain (hopen.not_wordBefore rfl)
      (hspace.not_wordAfter rfl)
    have hcodomain := ihb (blank_of_space hspace') hcodomain (hspace'.not_wordBefore rfl)
      (hclose.not_wordAfter rfl)
    simp only [Ty.node, Node.words, LaidOut.cons_iff, LaidOut.append_iff, LaidOut.nil_iff]
    exact ⟨k₁, apart_mark hl hopen, k₂, hdomain, k₄, apart_mark (blank_of_space hspace) harrow, k₆,
      hcodomain, j, apart_mark (blank_refl s k₆) hclose, rfl⟩

theorem tab_notMem_text (ty : Ty) : '\t' ∉ ty.text.toList := by
  induction ty with
  | int | bool => decide
  | fn a b iha ihb => simp [Ty.text, String.toList_append, iha, ihb]

/-- The text of a type is read as its annotation. -/
theorem readAnnotation_text (ty : Ty) :
    ∃ e, readAnnotation ty.text = .ok e ∧ e.erase = ty.node := by
  have hw := laidOut_text ty (blank_refl _ 0) (stands_self _) (wordBefore_zero _)
    (wordAfter_length _)
  have hd : TypeDerives (.sized 0) ty.text.toList .arrow 0 ty.text.toList.length _ :=
    .single (.of_words ty.isType_node hw)
  obtain ⟨e, h, he⟩ := hd.exists_read (blank_refl _ _) (tab_notMem_text ty)
  rw [ty.erase_node, ty.erase_node] at he
  exact ⟨e, h, he⟩

/-- Every type can be written, and what is written is read as that type. -/
theorem readTy_text (ty : Ty) : readTy ty.text = .ok ty := by
  obtain ⟨e, he, hty⟩ := readAnnotation_text ty
  rw [readTy, he]
  change e.toTy.mapError (fun part ↦ Failure.rejected (.unsupported part)) = .ok ty
  rw [Node.toTy_ok_iff.mpr hty]
  rfl

end Grammar

end TypedLet
