import TypedLet.Proofs.Report
import TypedLet.Proofs.Span.Excerpt

namespace TypedLet

open Grammar Text

/-- A stretch of a text that is read as an expression, whatever its places. -/
def ReadsAs (span : Span) (n : Node) : Prop :=
  ∃ n', readExpression span.text = .ok n' ∧ n'.same n

/-- The report on an error has three lines: what is wrong, the text, and marks below the
expression at fault, from `i` up to `j`. -/
structure TypeError.Underlined (e : TypeError) (text : String) (i j : Nat) : Prop where
  span : e.node.span = some ⟨text, i, j⟩
  lt : i < j
  le_length : j ≤ text.toList.length
  report : e.report = unlines [e.kind ++ ": " ++ e.message, "    1: " ++ text,
    String.ofList (List.replicate (7 + i) ' ' ++ List.replicate (j - i) '^')]
  oneLine_message : OneLine (e.kind ++ ": " ++ e.message)
  oneLine_text : OneLine text
  marked : (("    1: " ++ text).toList.drop (7 + i)).take (j - i) = (Span.text ⟨text, i, j⟩).toList
  readsAs : ReadsAs ⟨text, i, j⟩ e.node
  name : ∀ x n, e = .unbound x n → Span.text ⟨text, i, j⟩ = x

variable {source text : String} {t n : Node} {e : TypeError} {i j : Nat}

theorem around_line (h : '\n' ∉ text.toList) (hi : i ≤ text.toList.length) :
    Around text.toList i [] (text.toList.take i) (text.toList.drop i) [] where
  text := by simp
  place := by simp [hi]
  above_lines := by simp
  line := by rwa [List.take_append_drop]
  below_head := .inl rfl

theorem Span.numberedLine_one (h : '\n' ∉ text.toList) :
    numberedLine text.toList 1 = "    1: " ++ text := by
  have hl : lineText text.toList 1 = text.toList := by
    rw [lineText, lines_eq_singleton h]
    rfl
  rw [← String.toList_inj, numberedLine, hl, String.toList_ofList, String.toList_append]
  rfl

/-- In a text of one line the whole of a stretch is underlined. -/
theorem Span.underline_line (h : '\n' ∉ text.toList) (hij : i < j) (hj : j ≤ text.toList.length) :
    (Span.mk text i j).underline "^" =
      String.ofList (List.replicate (7 + i) ' ' ++ List.replicate (j - i) '^') := by
  have hi : (text.toList.take i).length = i := by
    rw [List.length_take]
    omega
  have htext := toList_text_eq_window (Nat.le_of_lt hij) hj
  have hmarks : marks '^' (Span.mk text i j).text.toList = List.replicate (j - i) '^' := by
    have hc : '\n' ∉ Grammar.window text.toList i j := fun hc ↦ h (mem_of_mem_window hc)
    have hall : (Grammar.window text.toList i j).takeWhile (· ≠ '\n') =
        Grammar.window text.toList i j :=
      List.takeWhile_eq_self_iff.mpr fun c hm ↦ decide_eq_true fun he ↦ hc (he ▸ hm)
    rw [htext, marks, if_neg hc, hall, length_window hj, Nat.max_eq_right (by omega),
      List.append_nil]
  have hu := underline_eq (around_line h (by omega)) (Nat.le_of_lt hij) hj '^'
  rwa [hmarks, hi] at hu

theorem drop_take_numbered (hij : i ≤ j) (hj : j ≤ text.toList.length) :
    (("    1: " ++ text).toList.drop (7 + i)).take (j - i) = (Span.text ⟨text, i, j⟩).toList := by
  rw [toList_text_eq_window hij hj, String.toList_append, ← List.drop_drop,
    List.drop_left' (by decide), Grammar.window, List.drop_take]

namespace Grammar

theorem Derives.readsAs {ℓ : Level} {k l : Nat}
    (h : Derives (.placed (expandTabs source) maxDigits) (expandTabs source).toList ℓ k l n) :
    ReadsAs ⟨expandTabs source, skip (expandTabs source).toList k,
      edge (expandTabs source).toList n l⟩ n := by
  have hp := h.placed
  have ht := toList_text_eq_window (Nat.le_of_lt hp.lt) hp.le_length
  have htab := expandTabs_eq_self _ fun hc ↦
    tab_notMem_expandTabs source (mem_of_mem_window (ht ▸ hc))
  have hw := h.written ht
  rw [← htab] at hw
  exact ⟨_, readExpression_ok_iff.mpr hw, Node.same_iff.mpr (Node.erase_mapSpans _ n)⟩

end Grammar

theorem TypeError.Blames.underlined (h : e.Blames t) (ht : readExpression source = .ok t)
    (hs : OneLine source) : ∃ i j, e.Underlined (expandTabs source) i j := by
  obtain ⟨_, hd, -⟩ := readExpression_ok_iff.mp ht
  obtain ⟨_, k, l, hd⟩ := hd.expressions h.node_mem
  have hp := hd.placed
  have hline := newline_notMem_expandTabs hs
  refine ⟨_, _, hp.span, hp.lt, hp.le_length, ?_, ?_, hline, ?_, hd.readsAs, fun x n he ↦ ?_⟩
  · rw [report_eq hp.span hline (Int.natCast_nonneg _), Span.numberedLine_one hline,
      Span.underline_line hline hp.lt hp.le_length]
  · exact oneLine_append.mpr
      ⟨oneLine_append.mpr ⟨e.oneLine_kind, by decide⟩, h.oneLine_message ht⟩
  · exact drop_take_numbered (Nat.le_of_lt hp.lt) hp.le_length
  · cases h with
    | @unbound _ span _ =>
      cases he
      have hspan : span = some _ := hp.span
      have htext : span.map Span.text = some x := hd.arranged
      rw [hspan] at htext
      exact Option.some.inj htext
    | mismatch => cases he

/-- The report on an ill-typed source of one line marks the expression at fault and nothing else. -/
theorem report_underlines (source : String) (e : TypeError) (hs : OneLine source)
    (he : checkSource source = .error (.rejected (.illTyped e))) :
    ∃ i j, e.Underlined (expandTabs source) i j := by
  have h := checkSource_settled source
  rw [he] at h
  cases h with
  | illTyped ht hblame => exact hblame.underlined ht hs

theorem report_underlines_name :
    let e := TypeError.unbound "x" (.var "x" (some ⟨"        (x)", 9, 10⟩))
    OneLine "\t(x)" ∧ checkSource "\t(x)" = .error (.rejected (.illTyped e)) ∧
      ∃ i j, e.Underlined (expandTabs "\t(x)") i j := by
  intro e
  have h : checkSource "\t(x)" = .error (.rejected (.illTyped e)) := by decide +kernel
  exact ⟨by decide, h, report_underlines "\t(x)" e (by decide) h⟩

end TypedLet
