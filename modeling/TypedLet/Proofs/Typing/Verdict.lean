import TypedLet.Proofs.Grammar.Arrangement
import TypedLet.Proofs.Grammar.Words
import TypedLet.Proofs.Text.Lines
import TypedLet.Proofs.Typing.Blame
import TypedLet.Proofs.Typing.Judgment

namespace TypedLet

open Grammar Text

variable {source : String} {t n : Node} {e : TypeError} {err : CheckError}

namespace Grammar

variable {α : Type} {d : Dialect} {s : List Char} {ℓ : Level} {r : Rule α}
variable {limit digits i j : Nat}

theorem Derives.isTerm (h : Derives d s ℓ i j t) : t.isTerm := by
  induction h with
  | integer | yes | no | reference => rfl
  | paren _ _ _ ih | single _ ih | operation _ ih => exact ih
  | more _ _ _ iha ihb => exact Bool.and_eq_true_iff.mpr ⟨iha, ihb⟩
  | letIn _ _ _ _ _ _ ihr ihb => exact Bool.and_eq_true_iff.mpr ⟨ihr, ihb⟩
  | function _ _ _ _ ht _ _ _ ihb => exact Bool.and_eq_true_iff.mpr ⟨ht.isType, ihb⟩

/-- Reading gives up only at a numeral in the source that is too long. -/
theorem read_overlong (hr : r.Scans limit) (h : r.read source = .error (.overlong digits)) :
    limit < digits ∧ ∃ run, run <:+: source.toList ∧ (∀ c ∈ run, c.isDigit) ∧
      run.length = digits := by
  rw [Rule.read] at h
  have hc := hr (.start (expandTabs source))
  cases ho : r (.start (expandTabs source)) with
  | parsed a c => rw [ho] at h; cases h
  | failed pos => rw [ho] at h; cases h
  | overlong n =>
    rw [ho] at h hc
    cases h
    obtain ⟨hn, run, hi, hd, hl⟩ := hc
    rw [Cursor.start, expandTabs, String.toList_ofList] at hi
    exact ⟨hn, run, infix_of_infix_expandTabs hd hi, hd, hl⟩

end Grammar

/-- How a source fares: it has a type, it is no expression, an expression in it has no type, which
stands in the text as it was read, or it holds a numeral of too many digits. -/
inductive Settled (source : String) : Except Failure Ty → Prop
  | typed (ty : Ty) : Settled source (.ok ty)
  | misread (e : SyntaxError) : Settled source (.error (.unreadable (.unexpected e)))
  | illTyped {t : Node} {e : TypeError} {i j : Nat} : readExpression source = .ok t → e.Blames t →
      e.node.At (expandTabs source) i j →
      (∀ before, Span.Shows ⟨expandTabs source, i, j⟩ before) →
      Settled source (.error (.rejected (.illTyped e)))
  | overlong {digits : Nat} {run : List Char} : readExpression source = .error (.overlong digits) →
      maxDigits < digits → run <:+: source.toList → (∀ c ∈ run, c.isDigit) →
      run.length = digits → Settled source (.error (.unreadable (.overlong digits)))

theorem check_error (h : readExpression source = .ok t) (he : t.check = .error err) :
    err.Blames t := by
  obtain ⟨j, hd, -⟩ := readExpression_ok_iff.mp h
  rw [check_eq_typeIn] at he
  exact Node.typeIn_error hd.isTerm he

theorem exists_at (h : readExpression source = .ok t) (hn : n ∈ t.expressions) :
    ∃ i j : Nat, n.At (expandTabs source) i j := by
  obtain ⟨j, hd, -⟩ := readExpression_ok_iff.mp h
  obtain ⟨_, _, _, hd⟩ := hd.expressions hn
  exact ⟨_, _, hd.span_eq⟩

theorem checkSource_settled (source : String) : Settled source (checkSource source) := by
  rw [checkSource]
  cases hr : readExpression source with
  | error e =>
    cases e with
    | unexpected e => exact .misread e
    | overlong n =>
      obtain ⟨hn, run, hrun, hd, hl⟩ := read_overlong expression_scans.whole hr
      exact .overlong hr hn hrun hd hl
  | ok t =>
    change Settled source (t.check.mapError .rejected)
    cases hc : t.check with
    | ok ty => exact .typed ty
    | error err =>
      obtain ⟨e, rfl, he⟩ := check_error hr hc
      obtain ⟨i, j, hspan⟩ := exists_at hr he.node_mem
      exact .illTyped hr he hspan (Span.shows_of_nonneg (Int.natCast_nonneg i))

end TypedLet
