import TypedLet.Proofs.Grammar.Boundary
import TypedLet.Proofs.Grammar.Extent

namespace TypedLet.Grammar

/-- A text begins as another one does, up to a place that no word runs over if none did. -/
structure Agrees (s s' : List Char) (j : Nat) : Prop where
  take_eq : s'.take j = s.take j
  fresh : Fresh s j → Fresh s' j

variable {d : Dialect} {s s' w mark word digits : List Char} {x : String} {e a b : Node} {ℓ : Level}
variable {m : TypeLevel} {i j k : Nat}

theorem take_eq_of_le (h : s'.take j = s.take j) (hk : k ≤ j) : s'.take k = s.take k := by
  rw [← Nat.min_eq_left hk, ← List.take_take, h, List.take_take]

theorem wordBefore_congr (h : s'.take j = s.take j) : wordBefore s' j = wordBefore s j := by
  rw [wordBefore, h, wordBefore]

theorem wordAfter_congr (h : s'.take j = s.take j) (hk : k < j) :
    wordAfter s' k = wordAfter s k := by
  have hc : s'[k]? = s[k]? := by
    rw [← List.getElem?_take_of_lt hk, h, List.getElem?_take_of_lt hk]
  rw [wordAfter, List.head?_drop, hc, ← List.head?_drop, wordAfter]

namespace Agrees

theorem of_fresh (h : s'.take j = s.take j) (hj : Fresh s' j) : Agrees s s' j := ⟨h, fun _ ↦ hj⟩

theorem of_lt (h : s'.take j = s.take j) (hk : k < j) : Agrees s s' k := by
  have ht := take_eq_of_le h (Nat.le_of_lt hk)
  refine ⟨ht, fun hf ↦ ?_⟩
  rwa [Fresh, wordBefore_congr ht, wordAfter_congr h hk]

theorem mono (h : Agrees s s' j) (hk : k ≤ j) : Agrees s s' k := by
  rcases Nat.lt_or_eq_of_le hk with hlt | rfl
  · exact .of_lt h.take_eq hlt
  · exact h

end Agrees

/-! What stands in a text up to a place stands in every text that agrees with it up to there. -/

theorem Stands.congr (h : Stands s w i j) (ht : s'.take j = s.take j) : Stands s' w i j := by
  obtain ⟨hp, rfl⟩ := h
  have hw : (s'.drop i).take w.length = w := by
    have hd (u : List Char) : (u.drop i).take w.length = (u.take (i + w.length)).drop i := by
      rw [List.drop_take, Nat.add_sub_cancel_left]
    rw [hd, ht, ← hd]
    exact (List.prefix_iff_eq_take.mp hp).symm
  exact ⟨List.prefix_iff_eq_take.mpr hw.symm, rfl⟩

theorem Blank.congr (h : Blank s i j) (ht : s'.take j = s.take j) : Blank s' i j := by
  obtain ⟨w, hw, hl⟩ := h
  exact ⟨w, hw.congr ht, hl⟩

theorem Token.congr (h : Token s w i j) (ht : s'.take j = s.take j) : Token s' w i j := by
  obtain ⟨q, hb, h⟩ := h
  exact ⟨q, hb.congr (take_eq_of_le ht h.le), h.congr ht⟩

theorem Keyword.congr [IsKeyword word] (h : Keyword s word i j) (ha : Agrees s s' j) :
    Keyword s' word i j := by
  have hf := ha.fresh h.fresh
  obtain ⟨q, hl, h, hb, -⟩ := h
  have hs := h.congr ha.take_eq
  have hq := take_eq_of_le ha.take_eq h.le
  refine ⟨q, hl.congr hq, hs, ?_, ?_⟩
  · rwa [wordBefore_congr hq]
  · refine hf.resolve_left ?_
    rw [hs.wordBefore IsKeyword.ne_nil IsKeyword.isNameChar]
    exact Bool.noConfusion

theorem Name.congr (h : Name s x i j) (ht : s'.take j = s.take j) : Name s' x i j :=
  ⟨h.1.congr ht, h.2⟩

theorem Numeral.congr (h : Numeral s digits i j) (ht : s'.take j = s.take j) :
    Numeral s' digits i j :=
  ⟨h.1.congr ht, h.2⟩

theorem TypeDerives.congr (h : TypeDerives d s m i j e) (ha : Agrees s s' j) :
    TypeDerives d s' m i j e := by
  induction h with
  | int h => exact .int (h.congr ha)
  | bool h => exact .bool (h.congr ha)
  | paren ho h hc ih =>
    have hk := h.bounds.1
    have hl := hc.bounds.1
    exact .paren (ho.congr (take_eq_of_le ha.take_eq (by omega))) (ih (ha.mono (by omega)))
      (hc.congr ha.take_eq)
  | single _ ih => exact .single (ih ha)
  | arrow _ hm hb iha ihb =>
    have hk := hm.bounds.1
    have hl := hb.bounds.1
    exact .arrow (iha (ha.mono (by omega))) (hm.congr (take_eq_of_le ha.take_eq (by omega)))
      (ihb ha)

theorem Derives.congr (h : Derives d s ℓ i j e) (ha : Agrees s s' j) : Derives d s' ℓ i j e := by
  induction h with
  | integer h hl => exact .integer (h.congr ha.take_eq) hl
  | yes h => exact .yes (h.congr ha)
  | no h => exact .no (h.congr ha)
  | reference h => exact .reference (h.congr ha.take_eq)
  | paren ho h hc ih =>
    have hk := h.bounds.1
    have hl := hc.bounds.1
    exact .paren (ho.congr (take_eq_of_le ha.take_eq (by omega))) (ih (ha.mono (by omega)))
      (hc.congr ha.take_eq)
  | single _ ih => exact .single (ih ha)
  | more _ hm hb iha ihb =>
    have hk := hm.bounds.1
    have hl := hb.bounds.1
    exact .more (iha (ha.mono (by omega))) (hm.congr (take_eq_of_le ha.take_eq (by omega))) (ihb ha)
  | letIn hlet hx heq hr hin hb ihr ihb =>
    have h₁ := hx.bounds.1
    have h₂ := heq.bounds.1
    have h₃ := hr.bounds.1
    have h₄ := hin.bounds.1
    have h₅ := hb.bounds.1
    exact .letIn (hlet.congr (ha.mono (by omega)))
      (hx.congr (take_eq_of_le ha.take_eq (by omega)))
      (heq.congr (take_eq_of_le ha.take_eq (by omega))) (ihr (ha.mono (by omega)))
      (hin.congr (ha.mono (by omega))) (ihb ha)
  | function hfn hopen hx hcolon ht hclose harrow hb ihb =>
    have h₁ := hopen.bounds.1
    have h₂ := hx.bounds.1
    have h₃ := hcolon.bounds.1
    have h₄ := ht.bounds.1
    have h₅ := hclose.bounds.1
    have h₆ := harrow.bounds.1
    have h₇ := hb.bounds.1
    exact .function (hfn.congr (ha.mono (by omega)))
      (hopen.congr (take_eq_of_le ha.take_eq (by omega)))
      (hx.congr (take_eq_of_le ha.take_eq (by omega)))
      (hcolon.congr (take_eq_of_le ha.take_eq (by omega))) (ht.congr (ha.mono (by omega)))
      (hclose.congr (take_eq_of_le ha.take_eq (by omega)))
      (harrow.congr (take_eq_of_le ha.take_eq (by omega))) (ihb ha)
  | operation _ ih => exact .operation (ih ha)

end TypedLet.Grammar
