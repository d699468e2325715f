import TypedLet.Proofs.Grammar.Erasure
import TypedLet.Proofs.Grammar.Extent
import TypedLet.Proofs.Node.Kind

namespace TypedLet

/-- The words of a tree in the order in which they are written, with every function type in
parentheses. -/
def Node.words : Node → List (List Char)
  | absent => []
  | intType _ => [Grammar.intWord]
  | boolType _ => [Grammar.boolWord]
  | funcType a b _ => ['('] :: (a.words ++ ['-', '>'] :: (b.words ++ [[')']]))
  | paren a _ => ['('] :: (a.words ++ [[')']])
  | var x _ => [x.toList]
  | intLit n _ => [(Text.decimal n).toList]
  | boolLit b _ => [if b then Grammar.trueWord else Grammar.falseWord]
  | binary op a b _ => a.words ++ op.mark :: b.words
  | letIn x a b _ => Grammar.letWord :: x.toList :: ['='] :: (a.words ++ Grammar.inWord :: b.words)
  | fn x t b _ _ =>
    Grammar.fnWord :: ['('] :: x.toList :: [':'] :: (t.words ++ [')'] :: ['=', '>'] :: b.words)

namespace Grammar

/-- A word, after any layout, that no other word touches. Marks may touch anything. -/
def Apart (s w : List Char) (i j : Nat) : Prop :=
  ∃ q, Blank s i q ∧ Stands s w q j ∧
    (w.all isWordChar → wordBefore s q = false ∧ wordAfter s j = false)

/-- These words and no others stand between two places. -/
inductive LaidOut (s : List Char) : List (List Char) → Nat → Nat → Prop
  | nil {i} : LaidOut s [] i i
  | cons {w ws i k j} : Apart s w i k → LaidOut s ws k j → LaidOut s (w :: ws) i j

variable {d : Dialect} {s w u v : List Char} {ws us vs : List (List Char)} {x : String} {t : Node}
variable {m : TypeLevel} {limit i j k q : Nat}

theorem stands_self (s : List Char) : Stands s s 0 s.length :=
  ⟨List.prefix_rfl, (Nat.zero_add _).symm⟩

theorem wordBefore_zero (s : List Char) : wordBefore s 0 = false := by simp [wordBefore]

theorem wordAfter_length (s : List Char) : wordAfter s s.length = false := by simp [wordAfter]

theorem Stands.split (h : Stands s (u ++ v) i j) : ∃ k, Stands s u i k ∧ Stands s v k j := by
  have hd := h.drop_eq
  obtain ⟨hp, rfl⟩ := h
  refine ⟨i + u.length, ⟨(List.prefix_append u v).trans hp, rfl⟩, ?_, ?_⟩
  · rw [← List.drop_drop, hd, List.append_assoc, List.drop_left]
    exact List.prefix_append v _
  · rw [List.length_append, Nat.add_assoc]

theorem Stands.not_wordBefore (h : Stands s w i j)
    (hw : w.getLast?.any fun c ↦ !isWordChar c) : Grammar.wordBefore s j = false := by
  cases hl : w.getLast? with
  | none => rw [hl] at hw; cases hw
  | some c =>
    have hne : w ≠ [] := by
      rintro rfl
      cases hl
    rw [hl, Option.any_some, Bool.not_eq_true'] at hw
    rw [Grammar.wordBefore, h.getLast_eq hne, hl, Option.any_some, hw]

theorem Stands.not_wordAfter (h : Stands s w i j) (hw : w.head?.any fun c ↦ !isWordChar c) :
    wordAfter s i = false := by
  cases w with
  | nil => cases hw
  | cons c w =>
    rw [List.head?_cons, Option.any_some, Bool.not_eq_true'] at hw
    rw [wordAfter, h.head_eq (List.cons_ne_nil c w), List.head?_cons, Option.any_some, hw]

theorem blank_of_space (h : Stands s [' '] i j) : Blank s i j :=
  ⟨_, h, List.forall_mem_singleton.mpr rfl⟩

theorem Apart.token (h : Apart s w i j) : Token s w i j := by
  obtain ⟨q, hb, h, -⟩ := h
  exact ⟨q, hb, h⟩

theorem Apart.keyword [IsKeyword w] (h : Apart s w i j) : Keyword s w i j := by
  obtain ⟨q, hb, h, hw⟩ := h
  have hall : w.all isWordChar :=
    List.all_eq_true.mpr fun c hc ↦ isWordChar_of_isNameChar (IsKeyword.isNameChar c hc)
  exact ⟨q, hb, h, hw hall⟩

theorem apart_of_stands (hl : Blank s i q) (h : Stands s w q j) (hb : wordBefore s q = false)
    (ha : wordAfter s j = false) : Apart s w i j := ⟨q, hl, h, fun _ ↦ ⟨hb, ha⟩⟩

theorem apart_mark [hw : IsMark w] (hl : Blank s i q) (h : Stands s w q j) : Apart s w i j := by
  refine ⟨q, hl, h, fun hall ↦ ?_⟩
  obtain ⟨c, hc⟩ := List.exists_mem_of_ne_nil w Solid.ne_nil
  have hc' := List.all_eq_true.mp hall c hc
  rw [IsMark.not_isWordChar hc] at hc'
  cases hc'

namespace LaidOut

theorem nil_iff : LaidOut s [] i j ↔ i = j :=
  ⟨fun h ↦ by cases h; rfl, fun h ↦ h ▸ .nil⟩

theorem cons_iff : LaidOut s (w :: ws) i j ↔ ∃ k, Apart s w i k ∧ LaidOut s ws k j := by
  constructor
  · intro h
    cases h with
    | cons hw h => exact ⟨_, hw, h⟩
  · intro h
    obtain ⟨k, hw, h⟩ := h
    exact .cons hw h

theorem append_iff :
    LaidOut s (us ++ vs) i j ↔ ∃ k, LaidOut s us i k ∧ LaidOut s vs k j := by
  induction us generalizing i with
  | nil => simp [nil_iff]
  | cons w us ih =>
    rw [List.cons_append, cons_iff]
    simp only [cons_iff, ih]
    constructor
    · intro h
      obtain ⟨l, hw, k, hus, hvs⟩ := h
      exact ⟨k, ⟨l, hw, hus⟩, hvs⟩
    · intro h
      obtain ⟨k, ⟨l, hw, hus⟩, hvs⟩ := h
      exact ⟨l, hw, k, hus, hvs⟩

theorem singleton_iff : LaidOut s [w] i j ↔ Apart s w i j := by
  simp only [cons_iff, nil_iff, exists_eq_right]

end LaidOut

/-- Numerals of at most `limit` digits, and trees whose parts are not said to stand anywhere. -/
def Dialect.sized (limit : Nat) : Dialect := { Dialect.plain with fits := fun n ↦ n ≤ limit }

theorem TypeDerives.isType (h : TypeDerives d s m i j t) : t.isType := by
  induction h with
  | int | bool => rfl
  | paren _ _ _ ih | single _ ih => exact ih
  | arrow _ _ _ iha ihb => exact Bool.and_eq_true_iff.mpr ⟨iha, ihb⟩

/-- Wherever the words of an annotation are laid out, the annotation can be derived. -/
theorem TypeDerives.of_words (ht : t.isType) (h : LaidOut s t.words i j) :
    TypeDerives (.sized limit) s .atom i j t.erase := by
  induction t generalizing i j with
  | intType => exact .int (LaidOut.singleton_iff.mp h).keyword
  | boolType => exact .bool (LaidOut.singleton_iff.mp h).keyword
  | funcType a b _ iha ihb =>
    obtain ⟨ha, hb⟩ := Bool.and_eq_true_iff.mp ht
    simp only [Node.words, LaidOut.cons_iff, LaidOut.append_iff, LaidOut.nil_iff] at h
    obtain ⟨k₁, hopen, k₂, hleft, k₃, harrow, k₄, hright, _, hclose, rfl⟩ := h
    have hinner := TypeDerives.arrow (iha ha hleft) harrow.token (.single (ihb hb hright))
    rw [Node.spanning_erase] at hinner
    exact .paren hopen.token hinner hclose.token
  | _ => cases ht

end Grammar

end TypedLet
