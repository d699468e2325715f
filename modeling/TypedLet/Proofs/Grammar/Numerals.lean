import Mathlib.Data.List.TakeWhile
import TypedLet.Grammar.Source

namespace TypedLet.Grammar

open Text

/-- No run of digits in a text is longer than `limit`. -/
def NumeralsWithin (limit : Nat) (s : List Char) : Prop :=
  ∀ run, run <:+: s → (∀ c ∈ run, c.isDigit) → run.length ≤ limit

variable {α β : Type} {limit n : Nat} {r : Rule α} {rs : List (Rule α)} {s run w : List Char}
variable {c d : Cursor} {a : α}

theorem prefix_of_prefix_expandTabs {k : Nat} (hr : ∀ c ∈ run, c.isDigit)
    (h : run <+: expandTabsFrom k s) : run <+: s := by
  induction s generalizing k run with
  | nil => exact h
  | cons c cs ih =>
    rw [expandTabsFrom] at h
    split at h
    · cases run with
      | nil => exact List.nil_prefix
      | cons x xs =>
        have hw : 0 < tabWidth - k % tabWidth := by
          have := Nat.mod_lt k (show 0 < tabWidth by decide)
          omega
        obtain ⟨m, hm⟩ := Nat.exists_eq_succ_of_ne_zero (Nat.ne_of_gt hw)
        simp only [hm, List.replicate_succ, List.cons_append] at h
        obtain ⟨rfl, -⟩ := List.cons_prefix_cons.mp h
        exact absurd (hr ' ' (by simp)) (by decide)
    · rcases List.prefix_cons_iff.mp h with rfl | ⟨t, rfl, ht⟩
      · exact List.nil_prefix
      · exact List.cons_prefix_cons.mpr ⟨rfl, ih (fun x hx ↦ hr x (by simp [hx])) ht⟩

theorem infix_of_infix_append (hr : ∀ c ∈ run, c.isDigit) (hw : ∀ c ∈ w, c.isDigit = false)
    (h : run <:+: w ++ s) : run <:+: s := by
  induction w with
  | nil => exact h
  | cons x w ih =>
    rcases List.infix_cons_iff.mp h with h | h
    · rcases List.prefix_cons_iff.mp h with rfl | ⟨t, rfl, -⟩
      · exact List.nil_infix
      · have hx := hr x (by simp)
        rw [hw x (by simp)] at hx
        cases hx
    · exact ih (fun c hc ↦ hw c (by simp [hc])) h

theorem infix_of_infix_expandTabs {k : Nat} (hr : ∀ c ∈ run, c.isDigit)
    (h : run <:+: expandTabsFrom k s) : run <:+: s := by
  induction s generalizing k with
  | nil => exact h
  | cons c cs ih =>
    have hp := prefix_of_prefix_expandTabs (k := k) (s := c :: cs) hr
    rw [expandTabsFrom] at h hp
    split at h
    · have hb : ∀ x ∈ List.replicate (tabWidth - k % tabWidth) ' ', x.isDigit = false := by
        intro x hx
        rw [List.eq_of_mem_replicate hx]
        rfl
      exact List.infix_cons (ih (infix_of_infix_append hr hb h))
    · rename_i hc
      rw [if_neg hc] at hp
      rcases List.infix_cons_iff.mp h with h | h
      · exact (hp h).isInfix
      · exact List.infix_cons (ih h)

theorem NumeralsWithin.expandTabs {source : String}
    (h : NumeralsWithin limit source.toList) :
    NumeralsWithin limit (expandTabs source).toList := by
  intro run hi hr
  rw [Text.expandTabs, String.toList_ofList] at hi
  exact h run (infix_of_infix_expandTabs hr hi) hr

/-- The reading only moves on through what lies ahead, and gives up only at a numeral in it of
more than `limit` digits. -/
def Outcome.Scanned (limit : Nat) (rest : List Char) : Outcome α → Prop
  | parsed _ d => d.rest <:+ rest
  | failed _ => True
  | overlong n => limit < n ∧ ∃ run, run <:+: rest ∧ (∀ x ∈ run, x.isDigit) ∧ run.length = n

def Rule.Scans (limit : Nat) (r : Rule α) : Prop := ∀ c, (r c).Scanned limit c.rest

theorem Outcome.Scanned.mono {o : Outcome α} (h : o.Scanned limit s) (hs : s <:+ w) :
    o.Scanned limit w := by
  cases o with
  | parsed a d => exact h.trans hs
  | failed pos => trivial
  | overlong n =>
    obtain ⟨hn, run, hi, hr⟩ := h
    exact ⟨hn, run, hi.trans hs.isInfix, hr⟩

theorem rest_advance_suffix (c : Cursor) (n : Nat) : (c.advance n).rest <:+ c.rest :=
  List.drop_suffix n c.rest

theorem rest_skipLayout_suffix (c : Cursor) : c.skipLayout.rest <:+ c.rest :=
  rest_advance_suffix c _

namespace Rule

theorem scans_return (a : α) : Scans limit (pure a : Rule α) := fun _ ↦ List.suffix_rfl

theorem Scans.lt_of_overlong (h : r.Scans limit) (hr : r c = .overlong n) : limit < n := by
  have hc := h c
  rw [hr] at hc
  exact hc.1

theorem Scans.bind {f : α → Rule β} (h : r.Scans limit) (hf : ∀ a, (f a).Scans limit) :
    (r >>= f).Scans limit := by
  intro c
  have hc := h c
  rw [bind_apply]
  cases hr : r c with
  | parsed a d =>
    rw [hr] at hc
    exact (hf a d).mono hc
  | failed pos => trivial
  | overlong n =>
    rw [hr] at hc
    exact hc

theorem Scans.firstOf (h : ∀ r ∈ rs, r.Scans limit) : (firstOf rs).Scans limit := by
  intro c
  induction rs with
  | nil => trivial
  | cons r rs ih =>
    have hc := h r List.mem_cons_self c
    rw [Rule.firstOf]
    split
    · have hrs := ih fun r' hr' ↦ h r' (List.mem_cons_of_mem r hr')
      cases hf : Rule.firstOf rs c with
      | failed pos => trivial
      | parsed a d | overlong n =>
        rw [hf] at hrs
        exact hrs
    · exact hc

theorem Scans.upTo (h : r.Scans limit) (n : Nat) : (r.upTo n).Scans limit := by
  induction n with
  | zero => exact scans_return []
  | succ n ih =>
    intro c
    have hc := h c
    rw [Rule.upTo]
    split
    next a d hr =>
      rw [hr] at hc
      have hd := (ih d).mono hc
      split
      next hu =>
        rw [hu] at hd
        exact hd
      · exact hd
    · exact List.suffix_rfl
    next hr =>
      rw [hr] at hc
      exact hc

theorem Scans.many (h : r.Scans limit) : r.many.Scans limit := by
  intro c
  have hc := h.upTo c.rest.length c
  rw [Rule.many]
  split
  next d hu =>
    rw [hu] at hc
    exact (rest_skipLayout_suffix d).trans hc
  · exact hc

theorem Scans.located (h : r.Scans limit) : (located r).Scans limit := by
  intro c
  have hc := h c
  rw [Rule.located]
  cases hr : r c <;> rw [hr] at hc <;> exact hc

theorem Scans.whole (h : r.Scans limit) : r.whole.Scans limit := by
  intro c
  have hc := h c
  rw [Rule.whole]
  split
  next a d hr =>
    rw [hr] at hc
    dsimp only
    split
    · exact (rest_skipLayout_suffix d).trans hc
    · trivial
  · exact hc

end Rule

open Rule

theorem symbol_scans (limit : Nat) (mark : List Char) : (symbol mark).Scans limit := by
  intro c
  rw [symbol]
  split
  · exact (rest_advance_suffix _ _).trans (rest_skipLayout_suffix c)
  · trivial

theorem keyword_scans (limit : Nat) (word : List Char) : (keyword word).Scans limit := by
  intro c
  rw [keyword]
  split
  · split
    · trivial
    · split
      · trivial
      · exact (rest_advance_suffix _ _).trans (rest_skipLayout_suffix c)
  · trivial

theorem name_scans : name.Scans limit := by
  intro c
  rw [name]
  split
  · trivial
  · dsimp only
    split
    · exact (rest_advance_suffix _ _).trans (rest_skipLayout_suffix c)
    · trivial

theorem numeral_scans : (numeral limit).Scans limit := by
  intro c
  rw [numeral]
  split
  · trivial
  · split
    next hl =>
      refine ⟨hl, _, ?_, fun x hx ↦ List.mem_takeWhile_imp hx, rfl⟩
      exact (List.takeWhile_prefix _).isInfix.trans (rest_skipLayout_suffix c).isInfix
    · exact (rest_advance_suffix _ _).trans (rest_skipLayout_suffix c)

theorem baseType_scans (word : List Char) (make : Option Span → Node) :
    (baseType word make).Scans limit :=
  (keyword_scans limit word).located.bind fun _ ↦ scans_return _

theorem annotationAtom_scans {r : Rule Node} (h : r.Scans limit) :
    (annotationAtom r).Scans limit := by
  refine Scans.firstOf fun r' hr' ↦ ?_
  simp only [List.mem_cons, List.not_mem_nil, or_false] at hr'
  rcases hr' with rfl | rfl | rfl
  · exact baseType_scans _ _
  · exact baseType_scans _ _
  · exact (symbol_scans limit _).bind fun _ ↦ h.bind fun _ ↦ (symbol_scans limit _).bind fun _ ↦ scans_return _

theorem annotationUpTo_scans (n : Nat) : (annotationUpTo n).Scans limit := by
  induction n with
  | zero => exact fun _ ↦ trivial
  | succ n ih =>
    have ha := annotationAtom_scans ih
    have hm := ((symbol_scans limit ['-', '>']).bind fun _ ↦ ha).many
    exact ha.bind fun _ ↦ hm.bind fun _ ↦ scans_return _

theorem annotation_scans : annotation.Scans limit := fun c ↦ annotationUpTo_scans _ c

theorem chain_scans {op : Op} {mark : List Char} {part : Rule Node} (h : part.Scans limit) :
    (chain op mark part).Scans limit := by
  have hm := ((symbol_scans limit mark).bind fun _ ↦ h).many
  exact h.bind fun _ ↦ hm.bind fun _ ↦ scans_return _

theorem boolean_scans : boolean.Scans limit := by
  refine (Scans.firstOf fun r hr ↦ ?_).located.bind fun _ ↦ scans_return _
  simp only [List.mem_cons, List.not_mem_nil, or_false] at hr
  rcases hr with rfl | rfl <;> exact (keyword_scans limit _).bind fun _ ↦ scans_return _

theorem atom_scans {r : Rule Node} (h : r.Scans limit) : (atom limit r).Scans limit := by
  refine Scans.firstOf fun r' hr' ↦ ?_
  simp only [List.mem_cons, List.not_mem_nil, or_false] at hr'
  rcases hr' with rfl | rfl | rfl | rfl
  · exact numeral_scans.located.bind fun _ ↦ scans_return _
  · exact boolean_scans
  · exact name_scans.located.bind fun _ ↦ scans_return _
  · have hp := (symbol_scans limit ['(']).bind fun _ ↦ h.bind fun inner ↦
      (symbol_scans limit [')']).bind fun _ ↦ scans_return inner
    exact hp.located.bind fun _ ↦ scans_return _

theorem letIn_scans {r : Rule Node} (h : r.Scans limit) : (letIn r).Scans limit := by
  have hp := (keyword_scans limit letWord).bind fun _ ↦ name_scans.bind fun x ↦
    (symbol_scans limit ['=']).bind fun _ ↦ h.bind fun right ↦ (keyword_scans limit inWord).bind fun _ ↦
    h.bind fun body ↦ scans_return (x, right, body)
  exact hp.located.bind fun _ ↦ scans_return _

theorem function_scans {r : Rule Node} (h : r.Scans limit) : (function r).Scans limit := by
  have hp := (keyword_scans limit fnWord).bind fun _ ↦ (symbol_scans limit ['(']).bind fun _ ↦
    name_scans.located.bind fun x ↦ (symbol_scans limit [':']).bind fun _ ↦
    annotation_scans.bind fun type ↦ (symbol_scans limit [')']).bind fun _ ↦
    (symbol_scans limit ['=', '>']).bind fun _ ↦ h.bind fun body ↦ scans_return (x, type, body)
  exact hp.located.bind fun _ ↦ scans_return _

theorem expressionUpTo_scans (n : Nat) : (expressionUpTo limit n).Scans limit := by
  induction n with
  | zero => exact fun _ ↦ trivial
  | succ n ih =>
    refine Scans.firstOf fun r hr ↦ ?_
    simp only [List.mem_cons, List.not_mem_nil, or_false] at hr
    rcases hr with rfl | rfl | rfl
    · exact letIn_scans ih
    · exact function_scans ih
    · exact chain_scans (chain_scans (chain_scans (atom_scans ih)))

theorem expression_scans : (expression limit).Scans limit := fun c ↦ expressionUpTo_scans _ c

end TypedLet.Grammar
