import TypedLet.Proofs.Grammar.Prospect

namespace TypedLet.Grammar

variable {s word : List Char} {d : Dialect} {a b : Node} {op : Op} {limit i j k l : Nat}

theorem Language.expression_skip {ℓ : Level} ⦃s i j⦄ (h : Language.expression limit ℓ s i j) :
    Language.expression limit ℓ s i (skip s j) := by
  obtain ⟨hi, k, e, h, hb⟩ := h
  exact ⟨hi, k, e, h, hb.trans (blank_skip s j)⟩

theorem Language.type_skip {m : TypeLevel} ⦃s i j⦄ (h : Language.type m s i j) :
    Language.type m s i (skip s j) := by
  obtain ⟨k, e, h, hb⟩ := h
  exact ⟨k, e, h, hb.trans (blank_skip s j)⟩

theorem name_within : Language.name.Within (.expression limit .atom) := by
  intro s i j h
  obtain ⟨hi, x, h⟩ := h
  exact ⟨hi, j, _, .reference h, blank_refl s j⟩

theorem keyword_within [IsKeyword word]
    (hd : ∀ {s i j}, Keyword s word i j → ∃ e, Derives (.sized limit) s .atom i j e) :
    (Language.keyword word).Within (.expression limit .atom) := by
  intro s i j h
  have h : Keyword s word i j := h
  obtain ⟨e, he⟩ := hd h
  exact ⟨h.starts_fresh, j, e, he, blank_refl s j⟩

theorem paren_within :
    ((Language.token ['(']).andThen
      ((Language.expression limit .expression).andThen (.token [')']))).Within
        (.expression limit .atom) := by
  intro s i j h
  obtain ⟨k, ho, l, ⟨-, m, e, he, hb⟩, hc⟩ := h
  have ho : Token s ['('] i k := ho
  have hc : Token s [')'] l j := hc
  exact ⟨ho.starts_fresh, j, _, .paren ho he (hc.of_skip_eq hb.skip_eq.symm), blank_refl s j⟩

theorem level_within {ℓ ℓ' : Level}
    (hd : ∀ {s i j e}, Derives (.sized limit) s ℓ i j e → Derives (.sized limit) s ℓ' i j e) :
    (Language.expression limit ℓ).Within (.expression limit ℓ') := by
  intro s i j h
  obtain ⟨hi, k, e, h, hb⟩ := h
  exact ⟨hi, k, e, hd h, hb⟩

theorem more_within :
    ((Language.expression limit (.chain op)).andThen
      ((Language.token op.mark).andThen (.expression limit op.operand))).Within
        (.expression limit (.chain op)) := by
  intro s i j h
  obtain ⟨k, ⟨hi, k', a, ha, hb⟩, l, hm, -, j', b, hb', hj⟩ := h
  have hm : Token s op.mark k l := hm
  exact ⟨hi, j', _, .more ha (hm.of_skip_eq hb.skip_eq.symm) hb', hj⟩

theorem letIn_within :
    ((Language.keyword letWord).andThen (Language.name.andThen ((Language.token ['=']).andThen
      ((Language.expression limit .expression).andThen ((Language.keyword inWord).andThen
        (.expression limit .expression)))))).Within (.expression limit .expression) := by
  intro s i j h
  obtain ⟨i₁, hlet, i₂, ⟨-, x, hx⟩, i₃, heq, i₄, ⟨-, k, right, hr, hb⟩, i₅, hin, -, l, body, h,
    hl⟩ := h
  have hlet : Keyword s letWord i i₁ := hlet
  have hin : Keyword s inWord i₄ i₅ := hin
  exact ⟨hlet.starts_fresh, l, _, .letIn hlet hx heq hr (hin.of_skip_eq hb.skip_eq.symm) h, hl⟩

theorem function_within :
    ((Language.keyword fnWord).andThen ((Language.token ['(']).andThen (Language.name.andThen
      ((Language.token [':']).andThen ((Language.type .arrow).andThen
        ((Language.token [')']).andThen ((Language.token ['=', '>']).andThen
          (.expression limit .expression)))))))).Within (.expression limit .expression) := by
  intro s i j h
  obtain ⟨i₁, hfn, i₂, hopen, i₃, ⟨-, x, hx⟩, i₄, hcolon, i₅, ⟨k, type, ht, hb⟩, i₆, hclose, i₇,
    harrow, -, l, body, h, hl⟩ := h
  have hfn : Keyword s fnWord i i₁ := hfn
  have hclose : Token s [')'] i₅ i₆ := hclose
  obtain ⟨type', ht, -⟩ := ht.dialect (.sized limit)
  exact ⟨hfn.starts_fresh, l, _,
    .function hfn hopen hx hcolon ht (hclose.of_skip_eq hb.skip_eq.symm) harrow h, hl⟩

theorem baseType_within [IsKeyword word]
    (hd : ∀ {s i j}, Keyword s word i j → ∃ e, TypeDerives .plain s .atom i j e) :
    (Language.keyword word).Within (.type .atom) := by
  intro s i j h
  obtain ⟨e, he⟩ := hd h
  exact ⟨j, e, he, blank_refl s j⟩

theorem parenType_within :
    ((Language.token ['(']).andThen ((Language.type .arrow).andThen (.token [')']))).Within
      (.type .atom) := by
  intro s i j h
  obtain ⟨k, ho, l, ⟨m, e, he, hb⟩, hc⟩ := h
  have hc : Token s [')'] l j := hc
  exact ⟨j, _, .paren ho he (hc.of_skip_eq hb.skip_eq.symm), blank_refl s j⟩

theorem singleType_within : (Language.type .atom).Within (.type .arrow) := by
  intro s i j h
  obtain ⟨k, e, h, hb⟩ := h
  exact ⟨k, e, .single h, hb⟩

/-- Arrows are grouped to the right, but one more can be put behind them. -/
theorem TypeDerives.snoc (h : TypeDerives d s .arrow i j a) (hm : Token s ['-', '>'] j k)
    (hb : TypeDerives d s .atom k l b) : ∃ e, TypeDerives d s .arrow i l e := by
  generalize hlevel : TypeLevel.arrow = level at h
  induction h with
  | int | bool | paren => cases hlevel
  | single ha => exact ⟨_, .arrow ha hm (.single hb)⟩
  | arrow ha hm' _ _ ih =>
    obtain ⟨e, he⟩ := ih hm hlevel
    exact ⟨_, .arrow ha hm' he⟩

theorem arrow_within :
    ((Language.type .arrow).andThen
      ((Language.token ['-', '>']).andThen (.type .atom))).Within (.type .arrow) := by
  intro s i j h
  obtain ⟨k, ⟨k', a, ha, hb⟩, l, hm, j', b, hb', hj⟩ := h
  have hm : Token s ['-', '>'] k l := hm
  obtain ⟨e, he⟩ := ha.snoc (hm.of_skip_eq hb.skip_eq.symm) hb'
  exact ⟨j', e, he, hj⟩

end TypedLet.Grammar
