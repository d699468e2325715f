import TypedLet.Proofs.Grammar.Arrangement
import TypedLet.Proofs.Grammar.Words
import TypedLet.Proofs.Text.Parentheses

namespace TypedLet.Grammar

open Text

/-- Words with a partner for each of the parentheses that have none in them. -/
def enclose (u : Unpaired) (ws : List (List Char)) : List (List Char) :=
  List.replicate u.closing ['('] ++ (ws ++ List.replicate u.opening [')'])

/-- These words write an annotation once the parentheses are put around them that they lack. -/
structure Spells (m : TypeLevel) (u : Unpaired) (ws : List (List Char)) (e : Node) : Prop where
  unpaired_eq : unpaired ws.flatten = u
  derives : ∀ ⦃s i j⦄, LaidOut s (enclose u ws) i j → TypeDerives .plain s m i j e.erase

/-- The words of an annotation stand in a text, but for parentheses at either end. -/
def Covers (s : List Char) (m : TypeLevel) (u : Unpaired) (i j : Nat) (e : Node) : Prop :=
  ∃ ws, Spells m u ws e ∧ LaidOut s ws i j

/-- A node of an annotation that is read from a source, on its own or with a parameter. -/
inductive AnnotationPart (source : String) (n : Node) : Prop
  | alone {t} : readAnnotation source = .ok t → n ∈ t.parts → AnnotationPart source n
  | param {e x t body p span} : readExpression source = .ok e → .fn x t body p span ∈ e.parts →
      n ∈ t.parts → AnnotationPart source n

variable {d : Dialect} {text source : String} {s v w word mark : List Char}
variable {ws ws' : List (List Char)} {m : TypeLevel} {u u' : Unpaired} {e a b n t : Node}
variable {ℓ : Level} {x : String} {span p : Option Span} {i j k l o q limit r : Nat}

theorem LaidOut.le (h : LaidOut s ws i j) : i ≤ j := by
  induction h with
  | nil => exact Nat.le_refl _
  | cons hw _ ih =>
    obtain ⟨q, hb, hs, -⟩ := hw
    exact Nat.le_trans (Nat.le_trans hb.le hs.le) ih

theorem LaidOut.within (h : LaidOut v ws i j) (hs : Stands s v o k) (hj : j ≤ v.length)
    (ho : wordBefore s o = false) (hk : wordAfter s k = false) : LaidOut s ws (o + i) (o + j) := by
  induction h with
  | nil => exact .nil
  | @cons w ws i l j hw h ih =>
    have hl := h.le
    obtain ⟨q, hb, hw, hall⟩ := hw
    have hq := hw.le
    refine .cons ⟨o + q, hb.within hs (by omega), hw.within hs (by omega), fun ha ↦ ?_⟩ (ih hj)
    obtain ⟨hbefore, hafter⟩ := hall ha
    exact ⟨wordBefore_within hbefore hs (by omega) ho, wordAfter_within hafter hs (by omega) hk⟩

theorem LaidOut.window (h : LaidOut s ws i j) (hi : k ≤ i) (hj : j ≤ l) :
    LaidOut (Grammar.window s k l) ws (i - k) (j - k) := by
  induction h with
  | nil => exact .nil
  | @cons w ws i o j hw h ih =>
    have hl := h.le
    obtain ⟨q, hb, hw, hall⟩ := hw
    have hiq := hb.le
    have hq := hw.le
    refine .cons ⟨q - k, hb.window hi (by omega), hw.window (by omega) (by omega), fun ha ↦ ?_⟩
      (ih (by omega) hj)
    obtain ⟨hbefore, hafter⟩ := hall ha
    exact ⟨wordBefore_window (by omega) (by omega) hbefore, wordAfter_window (by omega) hafter⟩

theorem laidOut_replicate {c : Char} [IsMark [c]] (h : Stands s (List.replicate k c) i j) :
    LaidOut s (List.replicate k [c]) i j := by
  induction k generalizing i with
  | zero =>
    obtain rfl := h.2
    exact .nil
  | succ k ih =>
    obtain ⟨l, hc, h⟩ := Stands.split (u := [c]) h
    exact .cons (apart_mark (blank_refl s i) hc) (ih h)

theorem unpaired_layout (h : ∀ c ∈ w, isLayout c) : unpaired w = .none :=
  unpaired_eq_none fun c hc ↦ by
    rcases isLayout_iff.mp (h c hc) with rfl | rfl | rfl | rfl <;> decide

/-- The layout between words has no part in the parentheses that are without a partner. -/
theorem LaidOut.exists_stands (h : LaidOut s ws i j) :
    ∃ w, Stands s w i j ∧ unpaired w = unpaired ws.flatten := by
  induction h with
  | nil => exact ⟨[], ⟨List.nil_prefix, rfl⟩, rfl⟩
  | @cons w ws i l j hw _ ih =>
    obtain ⟨q, ⟨u, hu, hlayout⟩, hw, -⟩ := hw
    obtain ⟨v, hv, heq⟩ := ih
    refine ⟨u ++ (w ++ v), hu.append (hw.append hv), ?_⟩
    rw [List.flatten_cons, unpaired_append, unpaired_append, unpaired_append, heq,
      unpaired_layout hlayout, Unpaired.none_append]

theorem wordBefore_of_stands (h : Stands s w 0 j) (hw : ∀ c ∈ w, isWordChar c = false) :
    wordBefore s j = false := by
  rw [wordBefore, h.take_eq, List.take_zero, List.nil_append]
  cases hc : w.getLast? with
  | none => rfl
  | some c => exact hw c (List.mem_of_getLast? hc)

theorem wordAfter_of_stands (h : Stands s w i s.length) (hw : ∀ c ∈ w, isWordChar c = false) :
    wordAfter s i = false := by
  rw [wordAfter, h.drop_eq, List.drop_length, List.append_nil]
  cases hc : w.head? with
  | none => rfl
  | some c => exact hw c (List.mem_of_head? hc)

theorem LaidOut.enclose (h : LaidOut v ws 0 v.length) (u : Unpaired)
    (hs : s = List.replicate u.closing '(' ++ v ++ List.replicate u.opening ')') :
    LaidOut s (enclose u ws) 0 s.length := by
  have hself := stands_self s
  conv at hself => arg 2; rw [hs]
  obtain ⟨l, hleft, hright⟩ := hself.split
  obtain ⟨k, ho, hv⟩ := hleft.split
  have hbefore : wordBefore s k = false := wordBefore_of_stands ho fun c hc ↦ by
    rw [List.eq_of_mem_replicate hc]
    rfl
  have hafter : wordAfter s l = false := wordAfter_of_stands hright fun c hc ↦ by
    rw [List.eq_of_mem_replicate hc]
    rfl
  have hin := h.within hv (Nat.le_refl _) hbefore hafter
  rw [Nat.add_zero, ← hv.2] at hin
  exact LaidOut.append_iff.mpr ⟨k, laidOut_replicate ho,
    LaidOut.append_iff.mpr ⟨l, hin, laidOut_replicate hright⟩⟩

theorem Keyword.laidOut (h : Keyword s word i j) : LaidOut s [word] i j := by
  obtain ⟨q, hb, hs, hl⟩ := h
  exact LaidOut.singleton_iff.mpr ⟨q, hb, hs, fun _ ↦ hl⟩

theorem Token.laidOut [IsMark mark] (h : Token s mark i j) : LaidOut s [mark] i j := by
  obtain ⟨q, hb, hs⟩ := h
  exact LaidOut.singleton_iff.mpr (apart_mark hb hs)

theorem enclose_none (ws : List (List Char)) : enclose .none ws = ws := by
  simp [enclose, Unpaired.none]

/-- One more pair of parentheses, whichever of the two is among the words. -/
theorem Spells.paren (h : Spells .arrow u ws e) (hu : unpaired ws'.flatten = u')
    (he : enclose u' ws' = ['('] :: (enclose u ws ++ [[')']])) : Spells .atom u' ws' e where
  unpaired_eq := hu
  derives s i j hl := by
    rw [he, LaidOut.cons_iff] at hl
    obtain ⟨k, ho, hl⟩ := hl
    obtain ⟨l, hl, hc⟩ := LaidOut.append_iff.mp hl
    exact .paren ho.token (h.derives hl) (LaidOut.singleton_iff.mp hc).token

namespace Covers

theorem keyword [IsKeyword word] (h : Keyword s word i j)
    (hd : ∀ {s i j}, Keyword s word i j → TypeDerives .plain s .atom i j e.erase) :
    Covers s .atom .none i j e := by
  refine ⟨[word], ⟨?_, fun s i j h ↦ hd ?_⟩, h.laidOut⟩
  · refine unpaired_eq_none fun c hc ↦ ?_
    rw [List.flatten_cons, List.flatten_nil, List.append_nil] at hc
    have hname := IsKeyword.isNameChar c hc
    constructor
    · rintro rfl
      cases hname
    · rintro rfl
      cases hname
  · rw [enclose_none] at h
    exact (LaidOut.singleton_iff.mp h).keyword

theorem single (h : Covers s .atom u i j e) : Covers s .arrow u i j e := by
  obtain ⟨ws, hw, h⟩ := h
  exact ⟨ws, ⟨hw.unpaired_eq, fun _ _ _ h ↦ .single (hw.derives h)⟩, h⟩

theorem paren (ho : Token s ['('] i k) (h : Covers s .arrow .none k l e)
    (hc : Token s [')'] l j) : Covers s .atom .none i j e := by
  obtain ⟨ws, hw, h⟩ := h
  refine ⟨['('] :: (ws ++ [[')']]), hw.paren ?_ ?_,
    LaidOut.append_iff.mpr ⟨k, ho.laidOut, LaidOut.append_iff.mpr ⟨l, h, hc.laidOut⟩⟩⟩
  · rw [List.flatten_cons, List.flatten_append, unpaired_append, unpaired_append, hw.unpaired_eq]
    rfl
  · rw [enclose_none, enclose_none]

theorem arrow (ha : Covers s .atom ⟨q, 0⟩ i k a) (hm : Token s ['-', '>'] k l)
    (hb : Covers s .arrow ⟨0, r⟩ l j b) : Covers s .arrow ⟨q, r⟩ i j (.funcType a b span) := by
  obtain ⟨us, hus, ha⟩ := ha
  obtain ⟨vs, hvs, hb⟩ := hb
  refine ⟨us ++ ['-', '>'] :: vs, ⟨?_, fun s i j h ↦ ?_⟩,
    LaidOut.append_iff.mpr ⟨k, ha, LaidOut.append_iff.mpr ⟨l, hm.laidOut, hb⟩⟩⟩
  · rw [List.flatten_append, List.flatten_cons, unpaired_append, unpaired_append, hus.unpaired_eq,
      hvs.unpaired_eq]
    simp [unpaired, Unpaired.ofChar, Unpaired.append, Unpaired.none]
  · have he : enclose ⟨q, r⟩ (us ++ ['-', '>'] :: vs) =
        enclose ⟨q, 0⟩ us ++ ['-', '>'] :: enclose ⟨0, r⟩ vs := by simp [enclose]
    rw [he, LaidOut.append_iff] at h
    obtain ⟨k, ha, h⟩ := h
    obtain ⟨l, hm, hb⟩ := LaidOut.cons_iff.mp h
    have hd := TypeDerives.arrow (hus.derives ha) hm.token (hvs.derives hb)
    rwa [Node.spanning_erase] at hd

end Covers

theorem Covers.le (h : Covers s m u i j e) : i ≤ j := by
  obtain ⟨ws, -, h⟩ := h
  exact h.le

theorem Derives.exists_paramType (h : Derives d s ℓ i j (.fn x t b p span)) :
    ∃ k l, TypeDerives d s .arrow k l t := by
  generalize he : Node.fn x t b p span = e at h
  induction h with
  | single _ ih | operation _ ih => exact ih he
  | function _ _ _ _ ht =>
    cases he
    exact ⟨_, _, ht⟩
  | _ => cases he

theorem AnnotationPart.derives (h : AnnotationPart source n) :
    ∃ limit m i j, TypeDerives (.placed (expandTabs source) limit) (expandTabs source).toList m i j
      n := by
  cases h with
  | alone h hn =>
    obtain ⟨j, hd, -⟩ := readAnnotation_ok_iff.mp h
    exact ⟨_, hd.parts hn⟩
  | param h hfn hn =>
    obtain ⟨j, hd, -⟩ := readExpression_ok_iff.mp h
    rcases hd.parts hfn with ⟨_, _, _, hd⟩ | ⟨_, _, _, hd⟩
    · obtain ⟨_, _, ht⟩ := hd.exists_paramType
      exact ⟨_, ht.parts hn⟩
    · exact absurd hd.isType Bool.noConfusion

theorem Covers.unpaired_window (h : Covers s m u i j e) (hj : j ≤ s.length) :
    unpaired (Grammar.window s i j) = u := by
  obtain ⟨ws, hw, hl⟩ := h
  obtain ⟨w, hs, hu⟩ := hl.exists_stands
  rw [hs.window_eq hj, hu, hw.unpaired_eq]

theorem Covers.exists_read (h : Covers text.toList .arrow u i j e) (hj : j ≤ text.toList.length)
    (hs : source.toList = Grammar.window text.toList i j) (htab : '\t' ∉ source.toList) :
    ∃ t, readAnnotation (paired source) = .ok t ∧ t.same e := by
  have hu := h.unpaired_window hj
  obtain ⟨ws, hw, hl⟩ := h
  have hl := hl.window (Nat.le_refl i) (Nat.le_refl j)
  rw [Nat.sub_self, ← length_window hj, ← hs] at hl
  rw [← hs] at hu
  have hp : (paired source).toList =
      List.replicate u.closing '(' ++ source.toList ++ List.replicate u.opening ')' := by
    rw [paired, hu, String.toList_ofList]
  have htab' : '\t' ∉ (paired source).toList := by
    rw [hp]
    simp [htab]
  obtain ⟨t, ht, he⟩ := (hw.derives (hl.enclose u hp)).exists_read (blank_refl _ _) htab'
  rw [Node.erase_erase] at he
  exact ⟨t, ht, Node.same_iff.mpr he⟩

end TypedLet.Grammar
