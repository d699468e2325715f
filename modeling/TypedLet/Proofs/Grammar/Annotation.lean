import TypedLet.Proofs.Grammar.Extent
import TypedLet.Proofs.Grammar.Lexeme

namespace TypedLet.Grammar

open Rule

variable {text : String} {limit : Nat} {s mark mark' word : List Char} {e a : Node} {es : List Node}
variable {m : TypeLevel} {r : Rule Node} {c c' : Cursor} {i j k l : Nat}
variable [IsMark mark] [IsKeyword word]

/-- What a rule reads can be derived, up to the layout where the reading ends. -/
def TypeSound (text : String) (limit : Nat) (m : TypeLevel) (r : Rule Node) : Prop :=
  ∀ ⦃i e c⦄, r (.inText text i) = .parsed e c → ∃ j k,
    TypeDerives (.placed text limit) text.toList m i j e ∧ c = .inText text k ∧
      skip text.toList k = skip text.toList j

theorem baseType_sound {make : Option Span → Node}
    (h : baseType word make (.inText text i) = .parsed e c) :
    ∃ j, Keyword text.toList word i j ∧ e = make (some ⟨text, skip text.toList i, j⟩) ∧
      c = .inText text j := by
  obtain ⟨⟨u, span⟩, c', hl, h⟩ := bind_parsed h
  obtain ⟨hk, rfl⟩ : _ ∧ span = _ := located_parsed hl
  obtain ⟨j, hj, rfl⟩ := keyword_sound hk
  cases h
  rw [Cursor.skipLayout_inText]
  exact ⟨j, hj, rfl, rfl⟩

theorem annotationAtom_sound (h : TypeSound text limit .arrow r) :
    TypeSound text limit .atom (annotationAtom r) := by
  intro i e c ha
  obtain ⟨r', hr', hp⟩ := firstOf_parsed ha
  simp only [List.mem_cons, List.not_mem_nil, or_false] at hr'
  rcases hr' with rfl | rfl | rfl
  · obtain ⟨j, hj, rfl, rfl⟩ := baseType_sound hp
    exact ⟨j, j, .int hj, rfl, rfl⟩
  · obtain ⟨j, hj, rfl, rfl⟩ := baseType_sound hp
    exact ⟨j, j, .bool hj, rfl, rfl⟩
  · obtain ⟨_, c₁, ho, hp⟩ := bind_parsed hp
    obtain ⟨inner, c₂, hi, hp⟩ := bind_parsed hp
    obtain ⟨_, c₃, hc, hp⟩ := bind_parsed hp
    cases hp
    obtain ⟨i₁, ho', rfl⟩ := symbol_sound ho
    obtain ⟨j, k, hd, rfl, hk⟩ := h hi
    obtain ⟨l, hc', rfl⟩ := symbol_sound hc
    exact ⟨l, l, .paren ho' hd (hc'.of_skip_eq hk), rfl, rfl⟩

theorem arrows_sound (hr : TypeSound text limit .atom r)
    (h : Rounds (do symbol ['-', '>']; r) (.inText text k) es c)
    (ha : TypeDerives (.placed text limit) text.toList .atom i j a)
    (hk : skip text.toList k = skip text.toList j) :
    ∃ j' k', TypeDerives (.placed text limit) text.toList .arrow i j' (arrows a es) ∧
      c = .inText text k' ∧ skip text.toList k' = skip text.toList j' := by
  induction es generalizing i j k a with
  | nil =>
    cases h
    exact ⟨j, k, .single ha, rfl, hk⟩
  | cons b bs ih =>
    cases h with
    | cons hb hbs =>
      obtain ⟨_, c₁, hm, hb⟩ := bind_parsed hb
      obtain ⟨l, hm', rfl⟩ := symbol_sound hm
      obtain ⟨j₁, k₁, hd, rfl, hk₁⟩ := hr hb
      obtain ⟨j', k', hd', hc, hk'⟩ := ih hbs hd hk₁
      exact ⟨j', k', .arrow ha (hm'.of_skip_eq hk) hd', hc, hk'⟩

theorem annotationBody_sound (h : TypeSound text limit .arrow r) :
    TypeSound text limit .arrow (annotationBody r) := by
  intro i e c hb
  obtain ⟨head, c₁, hh, hb⟩ := bind_parsed hb
  obtain ⟨tail, c₂, ht, hb⟩ := bind_parsed hb
  cases hb
  obtain ⟨j, k, hd, rfl, hk⟩ := annotationAtom_sound h hh
  obtain ⟨d, hr, rfl⟩ := many_parsed ht
  obtain ⟨j', k', hd', rfl, hk'⟩ := arrows_sound (annotationAtom_sound h) hr hd hk
  split
  · exact ⟨j', _, hd', Cursor.skipLayout_inText text k', by rw [skip_skip, hk']⟩
  · exact ⟨j', k', hd', rfl, hk'⟩

theorem annotationUpTo_sound (n : Nat) : TypeSound text limit .arrow (annotationUpTo n) := by
  induction n with
  | zero =>
    intro i e c h
    cases h
  | succ n ih => exact annotationBody_sound ih

theorem symbol_then_parsed (h : Token text.toList mark i j)
    (hr : r (.inText text j) = .parsed e c) :
    (do symbol mark; r : Rule Node) (.inText text i) = .parsed e c := by
  rw [bind_of_parsed _ (symbol_parsed h), hr]

theorem symbol_then_fails (h : ∀ j, ¬ Token text.toList mark i j) :
    (do symbol mark; r : Rule Node).Fails (.inText text i) :=
  (symbol_fails h).bind _

theorem baseType_parsed {make : Option Span → Node} (h : Keyword text.toList word i j) :
    baseType word make (.inText text i) =
      .parsed (make (some ⟨text, skip text.toList i, j⟩)) (.inText text j) := by
  rw [baseType, bind_of_parsed _ (located_of_parsed (keyword_parsed h)),
    Cursor.skipLayout_inText]
  rfl

theorem baseType_fails {make : Option Span → Node} (h : ∀ j, ¬ Keyword text.toList word i j) :
    (baseType word make).Fails (.inText text i) :=
  (keyword_fails h).located.bind _

/-- How the rules read a tree that can be derived: an atom as it stands, and arrows as an atom
and what follows it piece by piece, which says nothing yet of where the reading stops. -/
def TypeReads (text : String) : TypeLevel → Nat → Nat → Node → Prop
  | .atom, i, j, e => ∀ n, text.toList.length - i ≤ n →
      annotationAtom (annotationUpTo n) (.inText text i) = .parsed e (.inText text j)
  | .arrow, i, j, e => ∀ n, text.toList.length - i ≤ n → ∃ a k es,
      annotationAtom (annotationUpTo n) (.inText text i) = .parsed a (.inText text k) ∧
      Rounds (do symbol ['-', '>']; annotationAtom (annotationUpTo n)) (.inText text k) es
        (.inText text j) ∧
      i < k ∧ k + es.length ≤ j ∧ arrows a es = e

theorem TypeReads.annotationUpTo (h : TypeReads text .arrow i j e) (hj : j ≤ text.toList.length)
    (hf : ∀ k, ¬ Token text.toList ['-', '>'] j k) {n : Nat} (hn : text.toList.length - i < n) :
    ∃ k, annotationUpTo n (.inText text i) = .parsed e (.inText text k) ∧
      skip text.toList k = skip text.toList j := by
  cases n with
  | zero => omega
  | succ n =>
    obtain ⟨a, k, es, ha, hes, -, hl, rfl⟩ := h n (by omega)
    have hrest : es.length ≤ (Cursor.inText text k).rest.length := by
      simp only [Cursor.inText, List.length_drop]
      omega
    have hmany := many_of_rounds hes hrest (symbol_then_fails hf)
    rw [Grammar.annotationUpTo, annotationBody, bind_of_parsed _ ha, bind_of_parsed _ hmany]
    split
    · exact ⟨skip text.toList j, by rw [Cursor.skipLayout_inText]; rfl, skip_skip _ _⟩
    · exact ⟨j, rfl, rfl⟩

theorem TypeDerives.reads (h : TypeDerives (.placed text limit) text.toList m i j e) :
    TypeReads text m i j e := by
  induction h with
  | int h =>
    intro n hn
    exact firstOf_of_head _ (baseType_parsed h)
  | bool h =>
    intro n hn
    refine firstOf_of_tail (baseType_fails fun k hk ↦ ?_)
      (firstOf_of_head _ (baseType_parsed h))
    exact absurd (keyword_unique h hk) (by decide)
  | paren ho hd hc ih =>
    intro n hn
    have hb := ho.bounds
    obtain ⟨k, hk, hs⟩ := ih.annotationUpTo hd.bounds.2
      (fun _ ↦ hc.not_mark (by decide)) (n := n) (by omega)
    refine firstOf_of_tail (baseType_fails fun _ ↦ ho.not_keyword) ?_
    refine firstOf_of_tail (baseType_fails fun _ ↦ ho.not_keyword) ?_
    refine firstOf_of_head _ ?_
    rw [bind_of_parsed _ (symbol_parsed ho), bind_of_parsed _ hk,
      bind_of_parsed _ (symbol_parsed (hc.of_skip_eq hs.symm))]
    rfl
  | single hd ih =>
    intro n hn
    exact ⟨_, _, [], ih n hn, .nil _, hd.bounds.1, Nat.le_refl _, rfl⟩
  | arrow ha hm hd iha ihb =>
    intro n hn
    have hab := ha.bounds
    have hmb := hm.bounds
    obtain ⟨b, k, es, hb, hes, hk, hl, rfl⟩ := ihb n (by omega)
    refine ⟨_, _, b :: es, iha n hn, .cons (symbol_then_parsed hm hb) hes, hab.1, ?_,
      rfl⟩
    rw [List.length_cons]
    omega

end TypedLet.Grammar
