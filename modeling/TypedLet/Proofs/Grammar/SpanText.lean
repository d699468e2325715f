import TypedLet.Proofs.Grammar.Respacing

namespace TypedLet

open Grammar

def Node.text? (n : Node) : Option (List Char) := n.span.map fun span ↦ span.text.toList

def Node.paramText? : Node → Option String
  | fn _ _ _ paramSpan _ => paramSpan.map Span.text
  | _ => none

/-- A node is not said to reach the end of its text. -/
def Node.EndsInside (n : Node) : Prop :=
  ∀ span, n.span = some span → span.stop < span.src.toList.length

/-- Two nodes have the same text with one space for every run of layout, except for the space that
a binder can have or not have behind it at the end of a text. Their parameters have the same text. -/
structure Node.SameText (n n' : Node) : Prop where
  stands : n.text?.isSome
  words : n.text?.map (collapse ∘ stripLayout) = n'.text?.map (collapse ∘ stripLayout)
  whole : n.endsTight ∨ n.EndsInside → n.text?.map collapse = n'.text?.map collapse
  param : n.paramText? = n'.paramText?

namespace Grammar

variable {s s' : List Char} {i i' j j' : Nat}

theorem take_append_window (s : List Char) (h : i ≤ j) : s.take i ++ window s i j = s.take j := by
  have hsplit := List.take_append_drop i (s.take j)
  rwa [List.take_take, Nat.min_eq_left h] at hsplit

theorem window_append_drop (h : i ≤ j) (hj : j ≤ s.length) : window s i j ++ s.drop j = s.drop i := by
  have hi : (s.take i).length = i := by rw [List.length_take]; omega
  have hs : s = s.take i ++ (window s i j ++ s.drop j) := by
    rw [← List.append_assoc, take_append_window s h, List.take_append_drop]
  conv_rhs => rw [hs, List.drop_left' hi]

theorem gapAfter_window (g : Bool) (h : i < j) (hj : j ≤ s.length) :
    gapAfter g (window s i j) = gapAfter true (s.take j) := by
  have hne : window s i j ≠ [] := by
    rw [← List.length_pos_iff, length_window hj]
    omega
  rw [← take_append_window s (Nat.le_of_lt h), gapAfter_eq hne g (gapAfter true (s.take i)), gapAfter,
    gapAfter, gapAfter, List.foldl_append]

theorem gapAfter_of_endsVisibly (h : EndsVisibly s j) : gapAfter true (s.take j) = false := by
  obtain ⟨c, hc, hb⟩ := h
  obtain ⟨t, ht⟩ := List.getLast?_eq_some_iff.mp hc
  rw [ht, gapAfter, List.foldl_append]
  exact isLayout_eq_false hb

theorem head_window_of_startsVisibly (h : StartsVisibly s i) :
    (window s i j).head?.any isLayout = false := by
  obtain ⟨c, hc, hb⟩ := h
  have hhead := head_window (p := isLayout) (n := j) (Nat.le_refl i)
    (by rw [hc, Option.any_some, isLayout_eq_false hb])
  rwa [Nat.sub_self, List.drop_zero] at hhead

section

variable (h : glyphs true s = glyphs true s') (hi : ahead s i = ahead s' i')
variable (hj : ahead s j = ahead s' j') (hij : i < j) (hij' : i' < j')
variable (hle : j ≤ s.length) (hle' : j' ≤ s'.length)
variable (hs : StartsVisibly s i) (hs' : StartsVisibly s' i')

include h hi hj hij hij' hle hle' hs hs'

theorem glyphs_window (g : Bool) : glyphs g (window s i j) = glyphs g (window s' i' j') := by
  have hahead := (glyphs_split h hi).2
  rw [← window_append_drop (Nat.le_of_lt hij) hle, ← window_append_drop (Nat.le_of_lt hij') hle',
    glyphs_append, glyphs_append] at hahead
  apply glyphs_congr (head_window_of_startsVisibly hs) (head_window_of_startsVisibly hs')
  apply List.append_inj_left' hahead
  rw [length_glyphs, length_glyphs]
  exact hj

theorem collapse_window (hgap : gapAfter true (s.take j) = gapAfter true (s'.take j')) :
    collapse (window s i j) = collapse (window s' i' j') := by
  rw [collapse_eq_spell, collapse_eq_spell, glyphs_window h hi hj hij hij' hle hle' hs hs',
    gapAfter_window false hij hle, gapAfter_window false hij' hle', hgap]

end

end Grammar

variable {R : Span → Span → Prop} {text text' : String} {n n' : Node} {i i' j j' : Nat}

theorem Node.Parallel.tight_eq (h : Parallel R n n') (ℓ : Level) : ℓ.tight n = ℓ.tight n' := by
  induction h generalizing ℓ with
  | binary _ _ _ _ ih => cases ℓ <;> simp [Level.tight, ih]
  | letIn _ _ _ _ ih => cases ℓ <;> simp [Level.tight, ih]
  | fn _ _ _ _ _ ih => cases ℓ <;> simp [Level.tight, ih]
  | _ => cases ℓ <;> rfl

theorem Node.Parallel.endsTight_eq (h : Parallel R n n') : n.endsTight = n'.endsTight := by
  cases h with
  | letIn _ hb => exact hb.tight_eq _
  | fn _ hb => exact hb.tight_eq _
  | _ => rfl

theorem Node.At.unique (h : n.At text i j) (h' : n.At text i' j') : i = i' ∧ j = j' := by
  have he := h.symm.trans h'
  simp only [Option.some.injEq, Span.mk.injEq] at he
  omega

/-- A binder that does not end with its last token ends where the layout behind it does. -/
theorem Node.Arranged.skip_eq (h : n.Arranged text) (hn : n.At text i j)
    (ht : n.endsTight = false) : skip text.toList j = j := by
  have hskip {k l m} {b : Node} (hspan : n.At text k l) (hb : Level.expression.tight b = false)
      (hl : l = if Level.expression.tight b then m else skip text.toList m) :
      skip text.toList j = j := by
    obtain ⟨-, rfl⟩ := hn.unique hspan
    rw [hl, hb, if_neg Bool.false_ne_true, skip_skip]
  cases n with
  | letIn x a b span =>
    obtain ⟨_, _, _, _, _, _, hspan, -, -, -, -, hj⟩ := h
    exact hskip hspan ht hj
  | fn x t b p span =>
    obtain ⟨_, _, _, _, _, _, _, _, hspan, -, -, -, -, -, -, -, -, hj⟩ := h
    exact hskip hspan ht hj
  | _ => cases ht

theorem Node.Parallel.ahead_eq (h : n.Parallel (respacing text text').Over n')
    (hn : n.At text i j) (hn' : n'.At text' i' j') :
    ahead text.toList i = ahead text'.toList i' ∧ ahead text.toList j = ahead text'.toList j' := by
  have hspan := h.span
  rw [hn, hn'] at hspan
  cases hspan with
  | some hover =>
    obtain ⟨k, k', l, l', hs, hs', hk, hl⟩ := hover
    obtain ⟨rfl, rfl⟩ := hn.unique (hn.trans (congrArg some hs))
    obtain ⟨rfl, rfl⟩ := hn'.unique (hn'.trans (congrArg some hs'))
    exact ⟨hk, hl⟩

theorem Node.Placed.text?_eq (h : n.Placed text i j) : n.text? = some (window text.toList i j) := by
  rw [text?, h.span, Option.map_some, toList_text_eq_window (Nat.le_of_lt h.lt) h.le_length]

theorem Node.Parallel.paramText?_eq (h : Parallel R n n') (ha : n.Arranged text)
    (ha' : n'.Arranged text') : n.paramText? = n'.paramText? := by
  cases h with
  | fn =>
    obtain ⟨_, _, _, _, _, _, _, _, -, -, hp, hx, -⟩ := ha
    obtain ⟨_, _, _, _, _, _, _, _, -, -, hp', hx', -⟩ := ha'
    rw [paramText?, paramText?, hp, hp', Option.map_some, Option.map_some, hx, hx']
  | _ => rfl

theorem Node.Parallel.sameText (hg : glyphs true text.toList = glyphs true text'.toList)
    (h : n.Parallel (respacing text text').Over n') (hn : n.Placed text i j) (ha : n.Arranged text)
    (hn' : n'.Placed text' i' j') (ha' : n'.Arranged text') : n.SameText n' := by
  obtain ⟨hi, hj⟩ := h.ahead_eq hn.span hn'.span
  refine ⟨Option.isSome_iff_exists.mpr ⟨_, hn.text?_eq⟩, ?_, fun hend ↦ ?_, h.paramText?_eq ha ha'⟩
  · have hw := glyphs_window hg hi hj hn.lt hn'.lt hn.le_length hn'.le_length hn.starts hn'.starts true
    rw [hn.text?_eq, hn'.text?_eq, Option.map_some, Option.map_some, Function.comp, Function.comp,
      collapse_stripLayout_eq_iff.mpr hw]
  · have hgap : gapAfter true (text.toList.take j) = gapAfter true (text'.toList.take j') := by
      cases ht : n.endsTight with
      | true =>
        rw [gapAfter_of_endsVisibly (hn.endsVisibly ht),
          gapAfter_of_endsVisibly (hn'.endsVisibly (h.endsTight_eq ▸ ht))]
      | false =>
        have hskip := ha.skip_eq hn.span ht
        have hskip' := ha'.skip_eq hn'.span (h.endsTight_eq ▸ ht)
        have hlt := (hend.resolve_left (by simp [ht])) _ hn.span
        rw [← hskip, ← hskip']
        apply gapAfter_skip_eq hg hj
        rw [hskip, ne_eq, List.drop_eq_nil_iff]
        dsimp only at hlt
        omega
    rw [hn.text?_eq, hn'.text?_eq, Option.map_some, Option.map_some,
      collapse_window hg hi hj hn.lt hn'.lt hn.le_length hn'.le_length hn.starts hn'.starts hgap]

end TypedLet
