import TypedLet.Proofs.Grammar.Names
import TypedLet.Proofs.Text.Lines
import TypedLet.Proofs.Typing.Verdict
import TypedLet.Report

namespace TypedLet

open Grammar Text

/-- A text without line feeds. -/
def OneLine (s : String) : Prop := '\n' ∉ s.toList

/-- A text of lines, every one of them ended. -/
def unlines (ls : List String) : String := String.join (ls.map (· ++ "\n"))

variable {source : String} {s : List Char} {a b : String} {ls : List String} {t : Node}
variable {e : TypeError} {span : Span}

instance : Decidable (OneLine a) := inferInstanceAs (Decidable ('\n' ∉ a.toList))

theorem oneLine_append : OneLine (a ++ b) ↔ OneLine a ∧ OneLine b := by
  simp only [OneLine, String.toList_append, List.mem_append, not_or]

theorem oneLine_ofList : OneLine (String.ofList s) ↔ '\n' ∉ s := by
  rw [OneLine, String.toList_ofList]

theorem oneLine_text (ty : Ty) : OneLine ty.text := by
  induction ty with
  | int | bool => decide
  | fn a b iha ihb =>
    simp only [Ty.text, oneLine_append]
    exact ⟨⟨⟨⟨by decide, iha⟩, by decide⟩, ihb⟩, by decide⟩

theorem newline_notMem_toDigits (n : Nat) : '\n' ∉ Nat.toDigits 10 n :=
  fun h ↦ absurd (Nat.isDigit_of_mem_toDigits (by decide) (by decide) h) (by decide)

theorem oneLine_decimal (i : Int) : OneLine (decimal i) := by
  cases i with
  | ofNat n => exact oneLine_ofList.mpr (newline_notMem_toDigits n)
  | negSucc n =>
    exact oneLine_ofList.mpr
      (List.not_mem_cons_of_ne_of_not_mem (by decide) (newline_notMem_toDigits (n + 1)))

namespace SyntaxError

theorem oneLine_message (e : SyntaxError) : OneLine e.message := by
  unfold message
  simp only [oneLine_append, oneLine_decimal, and_true]
  decide

theorem report_eq (e : SyntaxError) : e.report = unlines [e.sourceLine, e.pointer, e.message] := by
  unfold report
  simp [unlines, String.append_assoc]

end SyntaxError

theorem oneLine_of_isName {x : String} (h : IsName x.toList) : OneLine x :=
  fun hc ↦ absurd (h.2.1 _ hc) (by decide)

/-- A name that is blamed was written, so it is the name of a variable. -/
theorem TypeError.Blames.oneLine_message (he : e.Blames t) (h : readExpression source = .ok t) :
    OneLine e.message := by
  cases he with
  | unbound hx =>
    obtain ⟨j, hd, -⟩ := readExpression_ok_iff.mp h
    obtain ⟨_, _, _, hd⟩ := hd.expressions hx
    exact oneLine_append.mpr ⟨by decide, oneLine_of_isName (hd.isName_of_name? rfl)⟩
  | @mismatch op _ _ _ a b _ =>
    have ha := oneLine_text a
    have hb := oneLine_text b
    have hop : OneLine op.label ∧ OneLine op.expected := by cases op <;> decide
    have hl : OneLine (", ".intercalate [a.text, b.text]) :=
      oneLine_append.mpr ⟨oneLine_append.mpr ⟨ha, by decide⟩, hb⟩
    unfold TypeError.message
    simp only [oneLine_append]
    exact ⟨⟨⟨⟨⟨hop.1, by decide⟩, hop.2⟩, by decide⟩, hl⟩, by decide⟩

theorem TypeError.oneLine_kind (e : TypeError) : OneLine e.kind := by
  cases e <;> simp only [kind] <;> decide

namespace Span

end Span

/-- The report on an expression in a text of one line: what is wrong, the text, the underline. -/
theorem TypeError.report_eq (hspan : e.node.span = some span) (hsrc : '\n' ∉ span.src.toList)
    (hstart : 0 ≤ span.start) :
    e.report = unlines
      [e.kind ++ ": " ++ e.message, Span.numberedLine span.src.toList 1, span.underline "^"] := by
  rw [report, hspan]
  dsimp only
  rw [Span.excerpt, Span.excerptWith, Span.excerptLines_of_line hsrc hstart]
  simp [unlines, String.append_assoc]

end TypedLet
