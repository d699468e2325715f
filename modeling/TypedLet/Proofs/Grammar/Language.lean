import TypedLet.Proofs.Grammar.Completeness
import TypedLet.Proofs.Grammar.Erasure
import TypedLet.Proofs.Grammar.Numerals
import TypedLet.Proofs.Grammar.Soundness

namespace TypedLet.Grammar

open Rule Text

variable {α : Type} {s : List Char} {text source : String} {e e' : Node} {r : Rule α} {a : α}
variable {limit i j : Nat}

/-- A whole text is an expression, with this tree placed in it. -/
def Written (limit : Nat) (text : String) (e : Node) : Prop :=
  ∃ j, Derives (.placed text limit) text.toList .expression 0 j e ∧
    Blank text.toList j text.toList.length

def WrittenType (text : String) (e : Node) : Prop :=
  ∃ j, TypeDerives (.placed text 0) text.toList .arrow 0 j e ∧
    Blank text.toList j text.toList.length

theorem blank_of_rest_eq_nil (hj : j ≤ text.toList.length)
    (h : (Cursor.inText text j).skipLayout.rest = []) :
    Blank text.toList j text.toList.length := by
  rw [Cursor.skipLayout_inText] at h
  have hl := List.drop_eq_nil_iff.mp h
  have hs := blank_skip text.toList j
  rwa [Nat.le_antisymm (skip_le_length hj) hl] at hs

theorem Blank.rest_eq_nil (h : Blank text.toList j text.toList.length) :
    (Cursor.inText text j).skipLayout.rest = [] := by
  have hh := h.head_eq
  rw [Cursor.skipLayout_inText]
  exact List.head?_eq_none_iff.mp hh

theorem read_ok_iff :
    r.read source = .ok a ↔ ∃ c, r (.start (expandTabs source)) = .parsed a c := by
  rw [Rule.read]
  constructor
  · intro h
    split at h <;> cases h
    next c hc => exact ⟨c, hc⟩
  · intro h
    obtain ⟨c, hc⟩ := h
    rw [hc]

theorem read_unexpected_iff (hr : r.Scans limit) (hs : NumeralsWithin limit source.toList) :
    (∃ err, r.read source = .error (.unexpected err)) ↔ ¬ ∃ a, r.read source = .ok a := by
  rw [Rule.read]
  have hc := hr (.start (expandTabs source))
  cases ho : r (.start (expandTabs source)) with
  | parsed a c => simp
  | failed pos => simp
  | overlong n =>
    rw [ho] at hc
    obtain ⟨hn, run, hi, hd, rfl⟩ := hc
    exact absurd (hs.expandTabs run hi hd) (Nat.not_le.mpr hn)

theorem expression_whole_iff :
    (∃ c, (expression limit).whole (.start text) = .parsed e c) ↔ Written limit text e := by
  rw [Cursor.start_eq]
  constructor
  · intro h
    obtain ⟨c, h⟩ := h
    obtain ⟨d, h, hd⟩ := whole_parsed h
    rcases expressionUpTo_sound _ h (fresh_zero _) with hs | ⟨j, hj, rfl⟩
    · rw [hs.skipLayout_eq] at hd
      rw [Cursor.Stuck, hd] at hs
      cases hs
    · refine ⟨j, hj, blank_of_rest_eq_nil hj.bounds.2 ?_⟩
      rwa [Cursor.skipLayout_inText, skip_reach, ← Cursor.skipLayout_inText] at hd
  · intro h
    obtain ⟨j, h, hb⟩ := h
    have hr : expression limit (.inText text 0) = _ :=
      h.reads.expressionUpTo (by simp [Cursor.inText]) (.finish hb)
    refine ⟨_, whole_of_parsed hr ?_⟩
    rw [Cursor.skipLayout_inText, skip_reach, ← Cursor.skipLayout_inText]
    exact hb.rest_eq_nil

theorem annotation_whole_iff :
    (∃ c, Rule.whole ( annotation) (.start text) = .parsed e c) ↔ WrittenType text e := by
  rw [Cursor.start_eq]
  constructor
  · intro h
    obtain ⟨c, h⟩ := h
    obtain ⟨d, h, hd⟩ := whole_parsed h
    obtain ⟨j, k, hj, rfl, hk⟩ := annotation_sound 0 h
    refine ⟨j, hj, blank_of_rest_eq_nil hj.bounds.2 ?_⟩
    rwa [Cursor.skipLayout_inText, hk, ← Cursor.skipLayout_inText] at hd
  · intro h
    obtain ⟨j, h, hb⟩ := h
    have hf : ∀ k, ¬ Token text.toList ['-', '>'] j k := by
      intro k hm
      have hh := hm.head_eq
      rw [hb.head_eq] at hh
      cases hh
    obtain ⟨k, hr, hk⟩ := h.reads.annotationUpTo h.bounds.2 hf
      (n := (Cursor.inText text 0).rest.length + 1) (by simp [Cursor.inText])
    refine ⟨_, whole_of_parsed (r := annotation) hr ?_⟩
    rw [Cursor.skipLayout_inText, hk, ← Cursor.skipLayout_inText]
    exact hb.rest_eq_nil

theorem readExpression_ok_iff :
    readExpression source = .ok e ↔ Written maxDigits (expandTabs source) e :=
  read_ok_iff.trans expression_whole_iff

theorem readAnnotation_ok_iff :
    readAnnotation source = .ok e ↔ WrittenType (expandTabs source) e :=
  read_ok_iff.trans annotation_whole_iff

theorem Written.unique (h : Written limit text e) (h' : Written limit text e') : e = e' :=
  parsed_unique (expression_whole_iff.mpr h) (expression_whole_iff.mpr h')

theorem WrittenType.unique (h : WrittenType text e) (h' : WrittenType text e') : e = e' :=
  parsed_unique (annotation_whole_iff.mpr h) (annotation_whole_iff.mpr h')

theorem numeralsWithin_length (s : List Char) : NumeralsWithin s.length s :=
  fun _ h _ ↦ h.length_le

theorem NumeralsWithin.length_le {digits : List Char} (hs : NumeralsWithin limit s)
    (h : Numeral s digits i j) : digits.length ≤ limit := by
  have hp := h.stands.1.isInfix
  exact hs digits (hp.trans (List.drop_suffix _ s).isInfix) h.2.2

theorem isExpression_iff (hs : NumeralsWithin limit text.toList) :
    IsExpression text.toList e ↔ ∃ e', Written limit text e' ∧ e'.same e := by
  constructor
  · intro h
    obtain ⟨j, h, hb⟩ := h
    obtain ⟨e', h', he⟩ := h.dialect (.placed text limit) fun _ _ _ h _ ↦ hs.length_le h
    rw [Node.erase_erase] at he
    exact ⟨e', ⟨j, h', hb⟩, Node.same_iff.mpr he⟩
  · intro h
    obtain ⟨e', ⟨j, h, hb⟩, he⟩ := h
    exact ⟨j, Node.same_iff.mp he ▸ h.erase, hb⟩

theorem isAnnotation_iff :
    IsAnnotation text.toList e ↔ ∃ e', WrittenType text e' ∧ e'.same e := by
  constructor
  · intro h
    obtain ⟨j, h, hb⟩ := h
    obtain ⟨e', h', he⟩ := h.dialect (.placed text 0)
    rw [Node.erase_erase] at he
    exact ⟨e', ⟨j, h', hb⟩, Node.same_iff.mpr he⟩
  · intro h
    obtain ⟨e', ⟨j, h, hb⟩, he⟩ := h
    exact ⟨j, Node.same_iff.mp he ▸ h.erase, hb⟩

theorem same_of_placed {IsTree Placed : Node → Prop}
    (hp : ∀ e, IsTree e ↔ ∃ e', Placed e' ∧ e'.same e) (hu : ∀ a b, Placed a → Placed b → a = b)
    (h : IsTree e) (h' : IsTree e') : e.same e' := by
  obtain ⟨a, ha, hae⟩ := (hp e).mp h
  obtain ⟨b, hb, hbe⟩ := (hp e').mp h'
  rw [Node.same_iff] at hae hbe ⊢
  rw [← hae, ← hbe, hu a b ha hb]

theorem IsExpression.unique (h : IsExpression s e) (h' : IsExpression s e') : e.same e' := by
  rw [← String.toList_ofList (l := s)] at h h'
  have hs := numeralsWithin_length (String.ofList s).toList
  exact same_of_placed (fun e ↦ isExpression_iff hs) (fun _ _ ↦ Written.unique) h h'

theorem IsAnnotation.unique (h : IsAnnotation s e) (h' : IsAnnotation s e') : e.same e' := by
  rw [← String.toList_ofList (l := s)] at h h'
  exact same_of_placed (fun e ↦ isAnnotation_iff) (fun _ _ ↦ WrittenType.unique) h h'

/-- A reading returns the trees of a language, whatever their places, and where there is none it
stops at a mistake. -/
structure Recognizes (reading : Except ParseError Node) (IsTree : Node → Prop) : Prop where
  ok_iff (e : Node) : (∃ t, reading = .ok t ∧ t.same e) ↔ IsTree e
  error_iff : (∃ err, reading = .error (.unexpected err)) ↔ ¬ ∃ e, IsTree e

theorem Recognizes.of_read {r : Rule Node} {IsTree : Node → Prop} (hr : r.Scans limit)
    (hs : NumeralsWithin limit source.toList)
    (h : ∀ e, (∃ t, r.read source = .ok t ∧ t.same e) ↔ IsTree e) :
    Recognizes (r.read source) IsTree := by
  refine ⟨h, ?_⟩
  rw [read_unexpected_iff hr hs, not_iff_not]
  constructor
  · intro h
    obtain ⟨t, ht⟩ := h
    exact ⟨t, (h t).mp ⟨t, ht, Node.same_iff.mpr rfl⟩⟩
  · intro h
    obtain ⟨e, he⟩ := h
    obtain ⟨t, ht, -⟩ := (h e).mpr he
    exact ⟨t, ht⟩

/-- What is read is what the grammar derives, and the grammar is unambiguous. -/
theorem read_recognizes_grammar :
    (∀ source, NumeralsWithin maxDigits source.toList →
      Recognizes (readExpression source) (IsExpression (expandTabs source).toList)) ∧
    (∀ source, Recognizes ( readAnnotation source) ( IsAnnotation (expandTabs source).toList)) ∧
    (∀ s e e', IsExpression s e → IsExpression s e' → e.same e') ∧
    ∀ s e e', IsAnnotation s e → IsAnnotation s e' → e.same e' := by
  refine ⟨fun source hs ↦ ?_, fun source ↦ ?_, fun _ _ _ ↦ IsExpression.unique,
    fun _ _ _ ↦ IsAnnotation.unique⟩
  · refine .of_read expression_scans.whole hs fun e ↦ ?_
    rw [isExpression_iff hs.expandTabs]
    exact exists_congr fun t ↦ and_congr_left' readExpression_ok_iff
  · refine .of_read annotation_scans.whole (numeralsWithin_length _) fun e ↦ ?_
    rw [isAnnotation_iff]
    exact exists_congr fun t ↦ and_congr_left' readAnnotation_ok_iff

theorem let_isExpression :
    NumeralsWithin maxDigits "let x = 1 in x + 2".toList ∧
    IsExpression "let x = 1 in x + 2".toList
      (.letIn "x" (.intLit 1 none) (.binary .sum (.var "x" none) (.intLit 2 none) none) none) := by
  have hs : NumeralsWithin maxDigits "let x = 1 in x + 2".toList :=
    fun run h _ ↦ Nat.le_trans h.length_le (by decide)
  exact ⟨hs, ((read_recognizes_grammar.1 _ hs).ok_iff _).mp ⟨_, rfl, rfl⟩⟩

end TypedLet.Grammar
