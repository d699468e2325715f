import TypedLet.Proofs.Grammar.Place

namespace TypedLet.Grammar

/-- A word, after any layout. -/
def Token (s w : List Char) (i j : Nat) : Prop := ∃ q, Blank s i q ∧ Stands s w q j

/-- A keyword, after any layout, with no character of a word on either side of it. -/
def Keyword (s word : List Char) (i j : Nat) : Prop :=
  ∃ q, Blank s i q ∧ Stands s word q j ∧ wordBefore s q = false ∧ wordAfter s j = false

def IsName (x : List Char) : Prop :=
  x.head?.any isNameStart ∧ (∀ c ∈ x, isNameChar c) ∧ x ∉ reserved

def Name (s : List Char) (x : String) (i j : Nat) : Prop :=
  Token s x.toList i j ∧ IsName x.toList

def IsNumeral (digits : List Char) : Prop := digits ≠ [] ∧ ∀ c ∈ digits, c.isDigit

def Numeral (s digits : List Char) (i j : Nat) : Prop := Token s digits i j ∧ IsNumeral digits

class Solid (w : List Char) : Prop where
  head : w.head?.any fun c ↦ !isLayout c

/-- None of the characters of a mark belongs to a word. -/
class IsMark (mark : List Char) : Prop extends Solid mark where
  apart : mark.any isWordChar = false

class IsKeyword (word : List Char) : Prop where
  mem : word ∈ intWord :: boolWord :: reserved

variable {s w mark word digits : List Char} {x : String} {i j k q : Nat}

instance : Decidable (IsName w) :=
  decidable_of_iff (w.head?.any isNameStart ∧ w.all isNameChar ∧ w ∉ reserved)
    (by simp only [IsName, List.all_eq_true])

theorem isWordChar_of_isNameChar {c : Char} (h : isNameChar c) : isWordChar c := by
  simp [isWordChar, h]

theorem isNameChar_of_isDigit {c : Char} (h : c.isDigit) : isNameChar c := by
  simp [isNameChar, Char.isAlphanum, h]

theorem isNameChar_of_isNameStart {c : Char} (h : isNameStart c) : isNameChar c := by
  simp only [isNameStart, Bool.or_eq_true] at h
  rcases h with h | h
  · change (((c.isUpper || c.isLower) || c.isDigit) || c == '_') = true
    simp [h]
  · simp [isNameChar, h]

theorem not_isDigit_of_isNameStart {c : Char} (h : isNameStart c) : c.isDigit = false := by
  by_contra hd
  have hd := Char.isDigit_iff_toNat.mp (Bool.not_eq_false _ ▸ hd)
  change (c.val ≥ 97 && c.val ≤ 122 || c == '_') = true at h
  simp only [UInt32.le_iff_toNat_le, ge_iff_le, Bool.or_eq_true, Bool.and_eq_true,
    decide_eq_true_eq, beq_iff_eq] at h
  rcases h with h | rfl
  · exact absurd (Nat.le_trans h.1 hd.2) (by decide)
  · exact absurd hd (by decide)

theorem not_isLayout_of_isWordChar {c : Char} (h : isWordChar c) : isLayout c = false := by
  cases hc : isLayout c with
  | false => rfl
  | true => rw [not_isWordChar_of_isLayout hc] at h; cases h

theorem solid_of_isNameChar {c : Char} (h : isNameChar c) : Solid (c :: w) :=
  ⟨by simpa using not_isLayout_of_isWordChar (isWordChar_of_isNameChar h)⟩

theorem IsName.solid (h : IsName w) : Solid w := by
  cases w with
  | nil => cases h.1
  | cons c r => exact solid_of_isNameChar (h.2.1 c List.mem_cons_self)

theorem IsNumeral.solid (h : IsNumeral w) : Solid w := by
  cases w with
  | nil => exact absurd rfl h.1
  | cons c r => exact solid_of_isNameChar (isNameChar_of_isDigit (h.2 c List.mem_cons_self))

instance : IsMark ['('] := { head := by decide, apart := by decide }
instance : IsMark [')'] := { head := by decide, apart := by decide }
instance : IsMark [':'] := { head := by decide, apart := by decide }
instance : IsMark ['='] := { head := by decide, apart := by decide }
instance : IsMark ['+'] := { head := by decide, apart := by decide }
instance : IsMark ['=', '='] := { head := by decide, apart := by decide }
instance : IsMark ['&', '&'] := { head := by decide, apart := by decide }
instance : IsMark ['=', '>'] := { head := by decide, apart := by decide }
instance : IsMark ['-', '>'] := { head := by decide, apart := by decide }

theorem IsMark.not_isWordChar [h : IsMark mark] {c : Char} (hc : c ∈ mark) :
    isWordChar c = false := by
  simpa using List.any_eq_false.mp h.apart c hc

instance : IsKeyword letWord := ⟨by decide⟩
instance : IsKeyword inWord := ⟨by decide⟩
instance : IsKeyword fnWord := ⟨by decide⟩
instance : IsKeyword trueWord := ⟨by decide⟩
instance : IsKeyword falseWord := ⟨by decide⟩
instance : IsKeyword intWord := ⟨by decide⟩
instance : IsKeyword boolWord := ⟨by decide⟩

namespace IsKeyword

theorem of_reserved (h : word ∈ reserved) : IsKeyword word := ⟨by simp [h]⟩

theorem chars [h : IsKeyword word] : word ≠ [] ∧ ∀ c ∈ word, isNameChar c := by
  have hall : (intWord :: boolWord :: reserved).all
      (fun word ↦ word ≠ [] && word.all isNameChar) = true := by decide
  have h := List.all_eq_true.mp hall word h.mem
  rwa [Bool.and_eq_true, List.all_eq_true, decide_eq_true_eq] at h

theorem ne_nil [IsKeyword word] : word ≠ [] := chars.1

theorem isNameChar [IsKeyword word] : ∀ c ∈ word, isNameChar c := chars.2

theorem isAlpha [h : IsKeyword word] : ∀ c ∈ word, c.isAlpha := by
  have hall : (intWord :: boolWord :: reserved).all (·.all Char.isAlpha) = true := by decide
  exact List.all_eq_true.mp (List.all_eq_true.mp hall word h.mem)

instance [IsKeyword word] : Solid word := by
  have hne : word ≠ [] := ne_nil
  have hc : ∀ c ∈ word, Grammar.isNameChar c := isNameChar
  cases word with
  | nil => exact absurd rfl hne
  | cons c w => exact solid_of_isNameChar (hc c List.mem_cons_self)

end IsKeyword

theorem Solid.ne_nil [h : Solid w] : w ≠ [] := by
  rintro rfl
  cases h.head

theorem Stands.skip_eq [hw : Solid w] (h : Stands s w q j) : skip s q = q := by
  apply skip_eq_self
  rw [h.head_eq hw.ne_nil]
  cases w with
  | nil => rfl
  | cons c r => simpa using hw.head

theorem Stands.token (h : Stands s w (skip s i) j) : Token s w i j := ⟨_, blank_skip s i, h⟩

theorem token_iff [Solid w] : Token s w i j ↔ Stands s w (skip s i) j := by
  refine ⟨?_, Stands.token⟩
  intro h
  obtain ⟨q, hb, h⟩ := h
  rwa [hb.skip_eq, h.skip_eq]

namespace Token

variable [Solid w]

theorem of_skip_eq (h : Token s w i k) (he : skip s i = skip s j) : Token s w j k := by
  rw [token_iff] at h ⊢
  rwa [← he]

theorem head_eq (h : Token s w i j) : (s.drop (skip s i)).head? = w.head? :=
  (token_iff.mp h).head_eq Solid.ne_nil

theorem skip_lt (h : Token s w i j) : skip s i < j := (token_iff.mp h).lt Solid.ne_nil

theorem bounds (h : Token s w i j) : i < j ∧ j ≤ s.length :=
  ⟨Nat.lt_of_le_of_lt (le_skip s i) h.skip_lt,
    (token_iff.mp h).le_length_of_ne_nil Solid.ne_nil⟩

end Token

theorem keyword_iff [IsKeyword word] : Keyword s word i j ↔
    Stands s word (skip s i) j ∧ wordBefore s (skip s i) = false ∧ wordAfter s j = false := by
  constructor
  · intro h
    obtain ⟨q, hb, h, hl⟩ := h
    rw [hb.skip_eq, h.skip_eq]
    exact ⟨h, hl⟩
  · exact fun h ↦ ⟨_, blank_skip s i, h⟩

namespace Keyword

theorem token (h : Keyword s word i j) : Token s word i j := by
  obtain ⟨q, hb, h, -⟩ := h
  exact ⟨q, hb, h⟩

variable [IsKeyword word]

theorem of_skip_eq (h : Keyword s word i k) (he : skip s i = skip s j) : Keyword s word j k := by
  rw [keyword_iff] at h ⊢
  rwa [← he]

theorem head_eq (h : Keyword s word i j) : (s.drop (skip s i)).head? = word.head? :=
  h.token.head_eq

theorem skip_lt (h : Keyword s word i j) : skip s i < j := h.token.skip_lt

theorem bounds (h : Keyword s word i j) : i < j ∧ j ≤ s.length := h.token.bounds

end Keyword

namespace Name

theorem stands (h : Name s x i j) : Stands s x.toList (skip s i) j :=
  have := h.2.solid
  token_iff.mp h.1

theorem of_skip_eq (h : Name s x i k) (he : skip s i = skip s j) : Name s x j k :=
  have := h.2.solid
  ⟨h.1.of_skip_eq he, h.2⟩

theorem skip_lt (h : Name s x i j) : skip s i < j :=
  have := h.2.solid
  h.1.skip_lt

theorem bounds (h : Name s x i j) : i < j ∧ j ≤ s.length :=
  have := h.2.solid
  h.1.bounds

end Name

namespace Numeral

theorem stands (h : Numeral s digits i j) : Stands s digits (skip s i) j :=
  have := h.2.solid
  token_iff.mp h.1

theorem of_skip_eq (h : Numeral s digits i k) (he : skip s i = skip s j) :
    Numeral s digits j k :=
  have := h.2.solid
  ⟨h.1.of_skip_eq he, h.2⟩

theorem skip_lt (h : Numeral s digits i j) : skip s i < j :=
  have := h.2.solid
  h.1.skip_lt

theorem bounds (h : Numeral s digits i j) : i < j ∧ j ≤ s.length :=
  have := h.2.solid
  h.1.bounds

end Numeral

end TypedLet.Grammar
