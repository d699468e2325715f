import TypedLet.Proofs.Grammar.Annotation

namespace TypedLet.Grammar

open Rule

variable {text : String} {limit : Nat} {s w mark word : List Char} {e a : Node} {es : List Node}
variable {ℓ : Level} {op : Op} {r : Rule Node} {c c' : Cursor} {i j k l : Nat}

/-- What a rule reads can be derived and ends where it is said to, unless it stops in front of a
character that no rule reads. -/
def Sound (text : String) (limit : Nat) (ℓ : Level) (r : Rule Node) : Prop :=
  ∀ ⦃i e c⦄, r (.inText text i) = .parsed e c → Fresh text.toList i →
    c.Stuck ∨ ∃ j, Derives (.placed text limit) text.toList ℓ i j e ∧
      c = .inText text (reach text.toList ℓ e j)

theorem integer_sound : Sound text limit .atom (integer limit) := by
  intro i e c h _
  obtain ⟨⟨n, span⟩, c', hl, h⟩ := bind_parsed h
  obtain ⟨hn, rfl⟩ : _ ∧ span = _ := located_parsed hl
  obtain ⟨digits, j, hd, hfit, rfl, rfl⟩ := numeral_sound hn
  cases h
  rw [Cursor.skipLayout_inText]
  exact .inr ⟨j, .integer (d := .placed text limit) hd hfit, by rw [reach_atom]⟩

theorem boolean_sound : Sound text limit .atom boolean := by
  intro i e c h _
  obtain ⟨⟨b, span⟩, c', hl, h⟩ := bind_parsed h
  obtain ⟨hb, rfl⟩ : _ ∧ span = _ := located_parsed hl
  obtain ⟨r, hr, hb⟩ := firstOf_parsed hb
  cases h
  rw [Cursor.skipLayout_inText]
  simp only [List.mem_cons, List.not_mem_nil, or_false] at hr
  rcases hr with rfl | rfl
  · obtain ⟨u, c', hk, hb⟩ := bind_parsed hb
    obtain ⟨j, hj, rfl⟩ := keyword_sound hk
    cases hb
    exact .inr ⟨j, .yes (d := .placed text limit) hj, by rw [reach_atom]⟩
  · obtain ⟨u, c', hk, hb⟩ := bind_parsed hb
    obtain ⟨j, hj, rfl⟩ := keyword_sound hk
    cases hb
    exact .inr ⟨j, .no (d := .placed text limit) hj, by rw [reach_atom]⟩

theorem reference_sound : Sound text limit .atom reference := by
  intro i e c h hi
  obtain ⟨⟨x, span⟩, c', hl, h⟩ := bind_parsed h
  obtain ⟨hx, rfl⟩ : _ ∧ span = _ := located_parsed hl
  cases h
  rcases name_sound hx hi with hs | ⟨j, hj, rfl⟩
  · exact .inl hs
  · rw [Cursor.skipLayout_inText]
    exact .inr ⟨j, .reference (d := .placed text limit) hj, by rw [reach_atom]⟩

theorem paren_sound (hr : Sound text limit .expression r) : Sound text limit .atom (paren r) := by
  intro i e c h _
  obtain ⟨⟨inner, span⟩, c₄, hl, h⟩ := bind_parsed h
  obtain ⟨hp, rfl⟩ : _ ∧ span = _ := located_parsed hl
  obtain ⟨_, c₁, ho, hp⟩ := bind_parsed hp
  obtain ⟨_, c₂, hi, hp⟩ := bind_parsed hp
  obtain ⟨_, c₃, hc, hp⟩ := bind_parsed hp
  cases hp
  cases h
  obtain ⟨k, ho', rfl⟩ := symbol_sound ho
  rcases hr hi ho'.fresh with hs | ⟨l, hd, rfl⟩
  · exact absurd hc (symbol_stuck hs)
  · obtain ⟨j, hc', rfl⟩ := symbol_sound hc
    have hc' := hc'.of_skip_eq (skip_reach _ _ _ l)
    rw [Cursor.skipLayout_inText]
    exact .inr ⟨j, .paren (d := .placed text limit) ho' hd hc', by rw [reach_atom]⟩

theorem atom_sound (hr : Sound text limit .expression r) :
    Sound text limit .atom (atom limit r) := by
  intro i e c h hi
  obtain ⟨r', hr', h⟩ := firstOf_parsed h
  simp only [List.mem_cons, List.not_mem_nil, or_false] at hr'
  rcases hr' with rfl | rfl | rfl | rfl
  · exact integer_sound h hi
  · exact boolean_sound h hi
  · exact reference_sound h hi
  · exact paren_sound hr h hi

theorem rounds_stuck {part : Rule Node} (hc : c.Stuck)
    (h : Rounds (do symbol op.mark; part) c es c') : es = [] ∧ c' = c := by
  cases h with
  | nil => exact ⟨rfl, rfl⟩
  | cons ha _ =>
    obtain ⟨_, c₁, hm, -⟩ := bind_parsed ha
    exact absurd hm (symbol_stuck hc)

theorem rounds_sound {part : Rule Node} (hp : Sound text limit op.operand part)
    (h : Rounds (do symbol op.mark; part) (.inText text k) es c)
    (ha : Derives (.placed text limit) text.toList (.chain op) i j a)
    (hk : skip text.toList k = skip text.toList j) (hes : es ≠ []) :
    c.Stuck ∨ ∃ j',
      Derives (.placed text limit) text.toList (.chain op) i j'
        (es.foldl (fun a b ↦ .binary op a b (a.spanning b)) a) ∧
      c = .inText text (reach text.toList (.chain op)
        (es.foldl (fun a b ↦ .binary op a b (a.spanning b)) a) j') := by
  -- on what is still to be joined, with all that has been joined so far as the left operand
  induction es generalizing j k a with
  | nil => exact absurd rfl hes
  | cons b bs ih =>
    cases h with
    | cons hb hbs =>
      obtain ⟨_, c₁, hm, hb⟩ := bind_parsed hb
      obtain ⟨l, hm', rfl⟩ := symbol_sound hm
      have hm' := hm'.of_skip_eq hk
      rcases hp hb hm'.fresh with hs | ⟨j', hd, rfl⟩
      · obtain ⟨-, rfl⟩ := rounds_stuck hs hbs
        exact .inl hs
      · have hab := Derives.more ha hm' hd
        by_cases hbs' : bs = []
        · subst hbs'
          cases hbs
          exact .inr ⟨j', hab, by rw [List.foldl_cons, List.foldl_nil, reach_more]⟩
        · exact ih hbs hab (skip_reach _ _ _ j') hbs'

theorem chain_sound {part : Rule Node} (hp : Sound text limit op.operand part) :
    Sound text limit (.chain op) (chain op op.mark part) := by
  intro i e c h hi
  obtain ⟨head, c₁, hh, h⟩ := bind_parsed h
  obtain ⟨tail, c₂, ht, h⟩ := bind_parsed h
  cases h
  obtain ⟨c₃, hr, rfl⟩ := many_parsed ht
  rcases hp hh hi with hs | ⟨j, hd, rfl⟩
  · obtain ⟨rfl, rfl⟩ := rounds_stuck hs hr
    rw [if_pos rfl, hs.skipLayout_eq]
    exact .inl hs
  · by_cases htail : tail = []
    · subst htail
      cases hr
      refine .inr ⟨j, .single hd, ?_⟩
      rw [if_pos rfl, Cursor.skipLayout_inText, skip_reach, List.foldl_nil, hd.reach_single]
    · rw [if_neg htail]
      exact rounds_sound hp hr (.single hd) (skip_reach _ _ _ j) htail

theorem letIn_sound (hr : Sound text limit .expression r) :
    Sound text limit .expression (letIn r) := by
  intro i e c h hi
  obtain ⟨⟨⟨x, right, body⟩, span⟩, c₇, hl, h⟩ := bind_parsed h
  obtain ⟨hp, rfl⟩ : _ ∧ span = _ := located_parsed hl
  obtain ⟨_, c₁, h₁, hp⟩ := bind_parsed hp
  obtain ⟨_, c₂, h₂, hp⟩ := bind_parsed hp
  obtain ⟨_, c₃, h₃, hp⟩ := bind_parsed hp
  obtain ⟨_, c₄, h₄, hp⟩ := bind_parsed hp
  obtain ⟨_, c₅, h₅, hp⟩ := bind_parsed hp
  obtain ⟨_, c₆, h₆, hp⟩ := bind_parsed hp
  cases hp
  cases h
  obtain ⟨i₁, hlet, rfl⟩ := keyword_sound h₁
  rcases name_sound h₂ hlet.fresh with hs | ⟨i₂, hx, rfl⟩
  · exact absurd h₃ (symbol_stuck hs)
  obtain ⟨i₃, heq, rfl⟩ := symbol_sound h₃
  rcases hr h₄ heq.fresh with hs | ⟨i₄, hright, rfl⟩
  · exact absurd h₅ (keyword_stuck hs)
  obtain ⟨i₅, hin, rfl⟩ := keyword_sound h₅
  have hin := hin.of_skip_eq (skip_reach _ _ _ i₄)
  rcases hr h₆ hin.fresh with hs | ⟨j, hbody, rfl⟩
  · exact .inl hs
  rw [Cursor.skipLayout_inText]
  exact .inr ⟨j, .letIn (d := .placed text limit) hlet hx heq hright hin hbody, rfl⟩

theorem annotation_sound (limit : Nat) (h : annotation (.inText text i) = .parsed e c) :
    ∃ j k, TypeDerives (.placed text limit) text.toList .arrow i j e ∧ c = .inText text k ∧
      skip text.toList k = skip text.toList j :=
  annotationUpTo_sound _ h

theorem function_sound (hr : Sound text limit .expression r) :
    Sound text limit .expression (function r) := by
  intro i e c h hi
  obtain ⟨⟨⟨⟨x, xSpan⟩, type, body⟩, span⟩, c₉, hl, h⟩ := bind_parsed h
  obtain ⟨hp, rfl⟩ : _ ∧ span = _ := located_parsed hl
  obtain ⟨_, c₁, h₁, hp⟩ := bind_parsed hp
  obtain ⟨_, c₂, h₂, hp⟩ := bind_parsed hp
  obtain ⟨_, c₃, h₃, hp⟩ := bind_parsed hp
  obtain ⟨_, c₄, h₄, hp⟩ := bind_parsed hp
  obtain ⟨_, c₅, h₅, hp⟩ := bind_parsed hp
  obtain ⟨_, c₆, h₆, hp⟩ := bind_parsed hp
  obtain ⟨_, c₇, h₇, hp⟩ := bind_parsed hp
  obtain ⟨_, c₈, h₈, hp⟩ := bind_parsed hp
  cases hp
  cases h
  obtain ⟨h₃, rfl⟩ : _ ∧ xSpan = _ := located_parsed h₃
  obtain ⟨i₁, hfn, rfl⟩ := keyword_sound h₁
  obtain ⟨i₂, hopen, rfl⟩ := symbol_sound h₂
  rcases name_sound h₃ hopen.fresh with hs | ⟨i₃, hx, rfl⟩
  · exact absurd h₄ (symbol_stuck hs)
  obtain ⟨i₄, hcolon, rfl⟩ := symbol_sound h₄
  obtain ⟨i₅, k, htype, rfl, hk⟩ := annotation_sound limit h₅
  obtain ⟨i₆, hclose, rfl⟩ := symbol_sound h₆
  obtain ⟨i₇, harrow, rfl⟩ := symbol_sound h₇
  rcases hr h₈ harrow.fresh with hs | ⟨j, hbody, rfl⟩
  · exact .inl hs
  have hclose := hclose.of_skip_eq hk
  rw [Cursor.skipLayout_inText, Cursor.skipLayout_inText]
  exact .inr ⟨j, .function (d := .placed text limit) hfn hopen hx hcolon htype hclose harrow hbody,
    rfl⟩

theorem conjunction_sound (hr : Sound text limit .expression r) :
    Sound text limit (.chain .conj) (conjunction limit r) := by
  have hsum : Sound text limit (.chain .sum) (sum limit r) := chain_sound (atom_sound hr)
  have hequal : Sound text limit (.chain .equal) (equality limit r) := chain_sound hsum
  exact chain_sound hequal

theorem expressionBody_sound (hr : Sound text limit .expression r) :
    Sound text limit .expression (expressionBody limit r) := by
  intro i e c h hi
  obtain ⟨r', hr', h⟩ := firstOf_parsed h
  simp only [List.mem_cons, List.not_mem_nil, or_false] at hr'
  rcases hr' with rfl | rfl | rfl
  · exact letIn_sound hr h hi
  · exact function_sound hr h hi
  · rcases conjunction_sound hr h hi with hs | ⟨j, hd, rfl⟩
    · exact .inl hs
    · exact .inr ⟨j, .operation hd, by rw [hd.reach_operation]⟩

theorem expressionUpTo_sound (n : Nat) :
    Sound text limit .expression (expressionUpTo limit n) := by
  induction n with
  | zero =>
    intro i e c h
    cases h
  | succ n ih => exact expressionBody_sound ih

end TypedLet.Grammar
