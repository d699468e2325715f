import TypedLet.Proofs.Grammar.SpanText
import TypedLet.Proofs.Typing.Renaming

namespace TypedLet

open Grammar Text

/-- Reading two sources ends alike: in two trees that differ in places only, whose nodes have the
same texts, in two failures, or at two numerals that are too long by as many digits. -/
inductive ReadAlike : Except ParseError Node → Except ParseError Node → Prop
  | read {t t'} : t.same t' → (∀ position n, t.at? position = some n →
      ∃ n', t'.at? position = some n' ∧ n.SameText n') → ReadAlike (.ok t) (.ok t')
  | unexpected (e e') : ReadAlike (.error (.unexpected e)) (.error (.unexpected e'))
  | overlong (digits) : ReadAlike (.error (.overlong digits)) (.error (.overlong digits))

/-- Two sources fare alike: they have one type, or are refused for the same reason. -/
inductive FareAlike : Except Failure Ty → Except Failure Ty → Prop
  | typed (ty) : FareAlike (.ok ty) (.ok ty)
  | unexpected (e e') :
      FareAlike (.error (.unreadable (.unexpected e))) (.error (.unreadable (.unexpected e')))
  | overlong (digits) :
      FareAlike (.error (.unreadable (.overlong digits))) (.error (.unreadable (.overlong digits)))
  | rejected {err err'} : err.Alike err' →
      FareAlike (.error (.rejected err)) (.error (.rejected err'))

variable {R : Span → Span → Prop} {text text' source source' : String} {r : Rule Node}
variable {t t' n : Node} {names : Renaming} {k : Nat}

/-- Trees that differ in places only differ in no name. -/
theorem Node.Parallel.renamed (h : Parallel R t t') (hn : ∀ p ∈ names, p.1 = p.2) :
    Renamed names t t' := by
  induction h generalizing names with
  | absent => exact .absent
  | intType => exact .intType
  | boolType => exact .boolType
  | intLit => exact .intLit
  | boolLit => exact .boolLit
  | var => exact .var (Renaming.pairs_self hn _)
  | paren _ _ ih => exact .paren (ih hn)
  | funcType _ _ _ iha ihb => exact .funcType (iha hn) (ihb hn)
  | binary _ _ _ iha ihb => exact .binary (iha hn) (ihb hn)
  | letIn _ _ _ iha ihb => exact .letIn (iha hn) (ihb (List.forall_mem_cons.mpr ⟨rfl, hn⟩))
  | fn _ _ _ _ iht ihb => exact .fn (iht hn) (ihb (List.forall_mem_cons.mpr ⟨rfl, hn⟩))

namespace Grammar

theorem readAnnotation_part (h : readAnnotation source = .ok t) (hn : n ∈ t.parts) :
    n.Arranged (expandTabs source) ∧ ∃ i j, n.Placed (expandTabs source) i j := by
  obtain ⟨j, hd, -⟩ := readAnnotation_ok_iff.mp h
  obtain ⟨_, _, _, hd⟩ := hd.parts hn
  obtain ⟨p, q, -, -, hp⟩ := hd.placed
  exact ⟨hd.arranged, p, q, hp⟩

/-- A rule in step with itself ends alike on two sources: with parallel trees, or with the same kind
of failure. -/
theorem Rule.read_respaced (h : Respaced source source')
    (hr : ∀ m, r.InStep (respacing (expandTabs source) (expandTabs source')) m k
      (Node.Parallel (respacing (expandTabs source) (expandTabs source')).Over) r) :
    (∃ t t', r.read source = .ok t ∧ r.read source' = .ok t' ∧
      t.Parallel (respacing (expandTabs source) (expandTabs source')).Over t') ∨
    (∃ e e', r.read source = .error (.unexpected e) ∧ r.read source' = .error (.unexpected e')) ∨
    ∃ digits, r.read source = .error (.overlong digits) ∧
      r.read source' = .error (.overlong digits) := by
  have hstart : (respacing (expandTabs source) (expandTabs source')).Abreast
      (.start (expandTabs source)) (.start (expandTabs source')) := by
    refine ⟨0, 0, Cursor.start_eq _, Cursor.start_eq _, ?_⟩
    rw [ahead, ahead, List.drop_zero, List.drop_zero, ← length_glyphs true, ← length_glyphs true,
      h.glyphs_eq]
  have ho := hr _ hstart (Nat.lt_succ_self _)
  unfold Rule.read
  dsimp only
  generalize r (.start (expandTabs source)) = o, r (.start (expandTabs source')) = o' at ho
  cases ho with
  | parsed hpar => exact .inl ⟨_, _, rfl, rfl, hpar⟩
  | failed => exact .inr (.inl ⟨_, _, rfl, rfl⟩)
  | overlong => exact .inr (.inr ⟨_, rfl, rfl⟩)
  | halted hh => exact hh.elim

theorem Rule.readAlike (h : Respaced source source')
    (hr : ∀ m, r.InStep (respacing (expandTabs source) (expandTabs source')) m k
      (Node.Parallel (respacing (expandTabs source) (expandTabs source')).Over) r)
    (hpart : ∀ {source t n}, r.read source = .ok t → n ∈ t.parts →
      n.Arranged (expandTabs source) ∧ ∃ i j, n.Placed (expandTabs source) i j) :
    ReadAlike (r.read source) (r.read source') := by
  obtain ⟨t, t', ht, ht', hpar⟩ | ⟨e, e', he, he'⟩ | ⟨digits, hd, hd'⟩ := read_respaced h hr
  · rw [ht, ht']
    refine .read hpar.same fun position n hn ↦ ?_
    obtain ⟨n', hn', hnode⟩ := hpar.at? hn
    obtain ⟨ha, i, j, hp⟩ := hpart ht (Node.mem_parts_of_at? hn)
    obtain ⟨ha', i', j', hp'⟩ := hpart ht' (Node.mem_parts_of_at? hn')
    exact ⟨n', hn', hnode.sameText h.glyphs_eq hp ha hp' ha'⟩
  · rw [he, he']
    exact .unexpected e e'
  · rw [hd, hd']
    exact .overlong digits

theorem wholeExpression_inStep (h : Respaced source source') (m : Nat) :
    (expression maxDigits).whole.InStep (respacing (expandTabs source) (expandTabs source')) m 1
      (Node.Parallel (respacing (expandTabs source) (expandTabs source')).Over)
      (expression maxDigits).whole :=
  have hp := respacing_steady h.glyphs_eq maxDigits
  (expression_inStep hp).whole hp

end Grammar

/-- Typing trees that differ in places only ends alike. -/
theorem Node.Parallel.fareAlike (h : Parallel R t t') :
    FareAlike (t.check.mapError .rejected) (t'.check.mapError .rejected) := by
  have hr : Renamed [] t t' := h.renamed (List.forall_mem_nil _)
  have hc := (hr.concur (Renaming.relates_nil _)).endAlike (s := .empty)
  unfold check
  cases hc with
  | typed h h' =>
    rw [h, h']
    exact .typed _
  | failed h h' he =>
    rw [h, h']
    exact .rejected he

theorem checkSource_respaced (h : Respaced source source') :
    FareAlike (checkSource source) (checkSource source') := by
  rw [checkSource, checkSource, readExpression, readExpression]
  obtain ⟨t, t', ht, ht', hpar⟩ | ⟨e, e', he, he'⟩ | ⟨digits, hd, hd'⟩ :=
    Rule.read_respaced h (wholeExpression_inStep h)
  · rw [ht, ht']
    exact hpar.fareAlike
  · rw [he, he']
    exact .unexpected e e'
  · rw [hd, hd']
    exact .overlong digits

/-- Layout makes no difference to what is read and to how it fares, save that a binder can have
layout behind it at the end of a text. -/
theorem source_respaced (source source' : String) (h : Respaced source source') :
    ReadAlike (readExpression source) (readExpression source') ∧
    ReadAlike (Grammar.readAnnotation source) (Grammar.readAnnotation source') ∧
    FareAlike (checkSource source) (checkSource source') := by
  refine ⟨?_, ?_, checkSource_respaced h⟩
  · exact Rule.readAlike h (wholeExpression_inStep h) readExpression_part
  · have hp := respacing_steady h.glyphs_eq maxDigits
    exact Rule.readAlike h (fun _ ↦ (annotation_inStep hp).whole hp) readAnnotation_part

theorem spaced_and_tabbed_alike :
    let source := "let x=1\n in fn(y : Int) => x+y"
    let source' := " let\tx=1 in  fn(y\r\n: Int)\t=> x+y "
    Respaced source source' ∧ ReadAlike (readExpression source) (readExpression source') ∧
    ReadAlike (Grammar.readAnnotation source) (Grammar.readAnnotation source') ∧
    FareAlike (checkSource source) (checkSource source') := by
  intro source source'
  have h : Respaced source source' := by decide +kernel
  exact ⟨h, source_respaced _ _ h⟩

/-- A space at the end of a text is in the text of a binder whose body has no operator. -/
theorem space_behind_binder :
    let source := "let x = 1 in x"
    let source' := "let x = 1 in x "
    let tree (src : String) (stop : Int) := Node.letIn "x" (.intLit 1 (some ⟨src, 8, 9⟩))
      (.var "x" (some ⟨src, 13, 14⟩)) (some ⟨src, 0, stop⟩)
    Respaced source source' ∧ readExpression source = .ok (tree source 14) ∧
    readExpression source' = .ok (tree source' 15) ∧
    (tree source 14).text?.map collapse ≠ (tree source' 15).text?.map collapse := by
  exact ⟨by decide +kernel, rfl, rfl, by decide +kernel⟩

end TypedLet
