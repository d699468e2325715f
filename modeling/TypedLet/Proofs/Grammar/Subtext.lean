import TypedLet.Proofs.Grammar.Language
import TypedLet.Proofs.Grammar.Placement
import TypedLet.Proofs.Grammar.Window

namespace TypedLet.Grammar

open Text

variable {text text' : String} {limit : Nat} {s : List Char} {e a b : Node} {ℓ : Level}
variable {v : TypeLevel} {d : Dialect} {i j m n : Nat}

theorem Level.tight_mapSpans (f : Span → Span) (ℓ : Level) (e : Node) :
    ℓ.tight (e.mapSpans f) = ℓ.tight e := by
  induction e generalizing ℓ with
  | binary op a b span _ ih => cases ℓ <;> simp [Node.mapSpans, Level.tight, ih]
  | letIn x a b span _ ih => cases ℓ <;> simp [Node.mapSpans, Level.tight, ih]
  | fn x t b p span _ ih => cases ℓ <;> simp [Node.mapSpans, Level.tight, ih]
  | _ => cases ℓ <;> rfl

theorem reach_window (f : Span → Span) (hj : m ≤ j) (hn : reach s ℓ e j ≤ n) :
    reach (window s m n) ℓ (e.mapSpans f) (j - m) = reach s ℓ e j - m := by
  unfold reach at hn ⊢
  rw [Level.tight_mapSpans]
  split
  · rfl
  next ht =>
    rw [if_neg ht] at hn
    exact skip_window hj hn

theorem spanning_moved (src : String) (offset : Int) (a b : Node) :
    (a.spanning b).map (Span.moved src offset) =
      (a.mapSpans (Span.moved src offset)).spanning (b.mapSpans (Span.moved src offset)) :=
  Node.spanning_mapSpans (Span.moved_merge src offset) a b

section

variable (ht : text'.toList = window text.toList m n)

include ht

theorem place_window (hi : m ≤ i) (hj : skip text.toList i < j) (hn : j ≤ n) :
    ((Dialect.placed text limit).place i j).map (Span.moved text' m) =
      (Dialect.placed text' limit).place (i - m) (j - m) := by
  have hs := le_skip text.toList i
  simp only [Dialect.placed, ht, skip_window hi (show skip text.toList i ≤ n by omega),
    Option.map_some, Span.moved, Option.some.injEq, Span.mk.injEq, true_and]
  omega

theorem binderPlace_window (hi : m ≤ i) (hj : skip text.toList i < j)
    (hn : reach text.toList .expression e j ≤ n) :
    ((Dialect.placed text limit).binderPlace e i j).map (Span.moved text' m) =
      (Dialect.placed text' limit).binderPlace (e.mapSpans (Span.moved text' m)) (i - m)
        (j - m) := by
  have hs := le_skip text.toList i
  have hr := le_reach text.toList .expression e j
  simp only [Dialect.placed, ht, skip_window hi (show skip text.toList i ≤ n by omega),
    reach_window (Span.moved text' m) (show m ≤ j by omega) hn, Option.map_some, Span.moved,
    Option.some.injEq, Span.mk.injEq, true_and]
  omega

theorem TypeDerives.window (h : TypeDerives (.placed text limit) text.toList v i j e)
    (hi : m ≤ i) (hj : j ≤ n) :
    TypeDerives (.placed text' limit) text'.toList v (i - m) (j - m)
      (e.mapSpans (Span.moved text' m)) := by
  induction h with
  | int h =>
    rw [Node.mapSpans, place_window ht hi h.skip_lt hj, ht]
    exact .int (h.window hi hj)
  | bool h =>
    rw [Node.mapSpans, place_window ht hi h.skip_lt hj, ht]
    exact .bool (h.window hi hj)
  | paren ho h hc ih =>
    have hob := ho.bounds
    have hb := h.bounds
    have hcb := hc.bounds
    have hin := ih (by omega) (by omega)
    rw [ht] at hin ⊢
    exact .paren (ho.window hi (by omega)) hin (hc.window (by omega) hj)
  | single _ ih => exact .single (ih hi hj)
  | arrow ha hm hb iha ihb =>
    have hab := ha.bounds
    have hmb := hm.bounds
    have hbb := hb.bounds
    have hina := iha hi (by omega)
    have hinb := ihb (by omega) hj
    rw [Node.mapSpans, spanning_moved]
    rw [ht] at hina hinb ⊢
    exact .arrow hina (hm.window (by omega) (by omega)) hinb

/-- A part can be derived, in the same way, from the stretch of the text where it is said to
stand, or from any that covers it. -/
theorem Derives.window (h : Derives (.placed text limit) text.toList ℓ i j e)
    (hi : m ≤ i) (hj : edge text.toList e j ≤ n) :
    Derives (.placed text' limit) text'.toList ℓ (i - m) (j - m)
      (e.mapSpans (Span.moved text' m)) := by
  induction h with
  | integer h hl =>
    rw [Node.mapSpans, place_window ht hi h.skip_lt hj, ht]
    exact .integer (h.window hi hj) hl
  | yes h =>
    rw [Node.mapSpans, place_window ht hi h.skip_lt hj, ht]
    exact .yes (h.window hi hj)
  | no h =>
    rw [Node.mapSpans, place_window ht hi h.skip_lt hj, ht]
    exact .no (h.window hi hj)
  | reference h =>
    rw [Node.mapSpans, place_window ht hi h.skip_lt hj, ht]
    exact .reference (h.window hi hj)
  | @paren i k l j e ho h hc ih =>
    change j ≤ n at hj
    have hob := ho.bounds
    have hb := h.bounds
    have hcs := hc.skip_lt
    -- the bracket that follows holds what the inner part passes over inside the stretch
    have he := edge_le_skip text.toList e l
    have hs := (Derives.paren (d := .placed text limit) ho h hc).skip_lt
    have hin := ih (by omega) (by omega)
    have hle := le_edge text.toList e l
    rw [Node.mapSpans, place_window ht hi hs hj, ht]
    rw [ht] at hin
    exact .paren (ho.window hi (by omega)) hin (hc.window (by omega) hj)
  | single _ ih => exact .single (ih hi hj)
  | operation _ ih => exact .operation (ih hi hj)
  | @more op i k l j a b ha hm hb iha ihb =>
    change j ≤ n at hj
    have hab := ha.bounds
    have hms := hm.skip_lt
    have hmb := hm.bounds
    have hbb := hb.bounds
    have he := edge_le_skip text.toList a k
    have hina := iha hi (by omega)
    have hinb := ihb (by omega) (by rwa [hb.edge_eq])
    rw [Node.mapSpans, spanning_moved]
    rw [ht] at hina hinb ⊢
    exact .more hina (hm.window (by omega) (by omega)) hinb
  | @letIn i i₁ i₂ i₃ i₄ i₅ j x right body hlet hx heq hr hin hb ihr ihb =>
    change reach text.toList .expression body j ≤ n at hj
    have h₁ := hlet.bounds
    have h₂ := hx.bounds
    have h₃ := heq.bounds
    have h₄ := hr.bounds
    have h₅ := hin.bounds
    have h₆ := hb.bounds
    have hins := hin.skip_lt
    -- as `in` does for the right side, while the body ends where the whole does
    have her := edge_le_skip text.toList right i₄
    have heb := edge_le_reach text.toList body j
    have hle := le_reach text.toList .expression body j
    have hs := hlet.skip_lt
    have hright := ihr (by omega) (by omega)
    have hbody := ihb (by omega) (by omega)
    rw [Node.mapSpans, binderPlace_window ht hi (by omega) hj]
    rw [ht] at hright hbody ⊢
    exact .letIn (hlet.window hi (by omega)) (hx.window (by omega) (by omega))
      (heq.window (by omega) (by omega)) hright (hin.window (by omega) (by omega)) hbody
  | @function i i₁ i₂ i₃ i₄ i₅ i₆ i₇ j x type body hfn hopen hx hcolon htype hclose harrow hb ih =>
    change reach text.toList .expression body j ≤ n at hj
    have h₁ := hfn.bounds
    have h₂ := hopen.bounds
    have h₃ := hx.bounds
    have h₄ := hcolon.bounds
    have h₅ := htype.bounds
    have h₆ := hclose.bounds
    have h₇ := harrow.bounds
    have h₈ := hb.bounds
    have heb := edge_le_reach text.toList body j
    have hle := le_reach text.toList .expression body j
    have hs := hfn.skip_lt
    have htypeIn := htype.window ht (by omega) (by omega)
    have hbody := ih (by omega) (by omega)
    rw [Node.mapSpans, binderPlace_window ht hi (by omega) hj,
      place_window ht (by omega) hx.skip_lt (by omega)]
    rw [ht] at htypeIn hbody ⊢
    exact .function (hfn.window hi (by omega)) (hopen.window (by omega) (by omega))
      (hx.window (by omega) (by omega)) (hcolon.window (by omega) (by omega)) htypeIn
      (hclose.window (by omega) (by omega)) (harrow.window (by omega) (by omega)) hbody

end

theorem Derives.toExpression (h : Derives d s ℓ i j e) : Derives d s .expression i j e := by
  rcases ℓ with _ | (_ | _ | _) | _
  · exact .operation (.single (.single (.single h)))
  · exact .operation h
  · exact .operation (.single h)
  · exact .operation (.single (.single h))
  · exact h

theorem Derives.expressions (h : Derives d s ℓ i j e) (ha : a ∈ e.expressions) :
    ∃ ℓ' i' j', Derives d s ℓ' i' j' a := by
  induction h with
  | integer h hl =>
    obtain rfl := List.mem_singleton.mp ha
    exact ⟨_, _, _, .integer h hl⟩
  | yes h =>
    obtain rfl := List.mem_singleton.mp ha
    exact ⟨_, _, _, .yes h⟩
  | no h =>
    obtain rfl := List.mem_singleton.mp ha
    exact ⟨_, _, _, .no h⟩
  | reference h =>
    obtain rfl := List.mem_singleton.mp ha
    exact ⟨_, _, _, .reference h⟩
  | paren ho h hc ih =>
    rcases List.mem_cons.mp ha with rfl | ha
    · exact ⟨_, _, _, .paren ho h hc⟩
    · exact ih ha
  | single _ ih | operation _ ih => exact ih ha
  | more h hm h' ih ih' =>
    rcases List.mem_cons.mp ha with rfl | ha
    · exact ⟨_, _, _, .more h hm h'⟩
    · exact (List.mem_append.mp ha).elim ih ih'
  | letIn hlet hx heq h hin h' ih ih' =>
    rcases List.mem_cons.mp ha with rfl | ha
    · exact ⟨_, _, _, .letIn hlet hx heq h hin h'⟩
    · exact (List.mem_append.mp ha).elim ih ih'
  | function hfn hopen hx hcolon htype hclose harrow h ih =>
    rcases List.mem_cons.mp ha with rfl | ha
    · exact ⟨_, _, _, .function hfn hopen hx hcolon htype hclose harrow h⟩
    · exact ih ha

theorem Derives.written (h : Derives (.placed text limit) text.toList ℓ i j e)
    (ht : text'.toList = Grammar.window text.toList (skip text.toList i) (edge text.toList e j)) :
    Written limit text' (e.mapSpans (Span.moved text' (skip text.toList i))) := by
  have hd := (h.trim.window ht (Nat.le_refl _) (Nat.le_refl _)).toExpression
  rw [Nat.sub_self] at hd
  refine ⟨_, hd, ?_⟩
  have hlen : edge text.toList e j ≤ text.toList.length :=
    Nat.le_trans (edge_le_skip _ e j) (skip_le_length h.bounds.2)
  have hlt := h.skip_lt
  rw [ht, length_window hlen]
  exact (blank_edge text.toList e j).window (by omega) (Nat.le_refl _)

theorem tab_notMem_expandTabs (source : String) : '\t' ∉ (expandTabs source).toList := by
  rw [expandTabs, String.toList_ofList]
  exact tab_notMem_expandTabsFrom 0 source.toList

theorem expandTabs_eq_self (source : String) (h : '\t' ∉ source.toList) :
    expandTabs source = source := by
  rw [expandTabs, expandTabsFrom_eq_self h, String.ofList_toList]

/-- A text without tabs is read as the tree that is derived from the whole of it. -/
theorem Derives.exists_read {source : String} (h : Derives d source.toList .expression 0 j e)
    (hd : ∀ n, d.fits n → n ≤ maxDigits) (hb : Blank source.toList j source.toList.length)
    (htab : '\t' ∉ source.toList) : ∃ t, readExpression source = .ok t ∧ t.erase = e.erase := by
  obtain ⟨t, ht, he⟩ := h.dialect (.placed source maxDigits) fun _ _ _ _ hn ↦ hd _ hn
  refine ⟨t, readExpression_ok_iff.mpr ?_, he⟩
  rw [expandTabs_eq_self source htab]
  exact ⟨j, ht, hb⟩

theorem TypeDerives.exists_read {source : String} (h : TypeDerives d source.toList .arrow 0 j e)
    (hb : Blank source.toList j source.toList.length) (htab : '\t' ∉ source.toList) :
    ∃ t, readAnnotation source = .ok t ∧ t.erase = e.erase := by
  obtain ⟨t, ht, he⟩ := h.dialect (.placed source 0)
  refine ⟨t, readAnnotation_ok_iff.mpr ?_, he⟩
  rw [expandTabs_eq_self source htab]
  exact ⟨j, ht, hb⟩

theorem toList_text_eq_window (hm : m ≤ n) (hn : n ≤ text.toList.length) :
    (Span.text ⟨text, m, n⟩).toList = window text.toList m n := by
  rw [Span.text, String.toList_ofList, slice_natCast (by omega) hn]
  rfl

theorem mem_of_mem_window {c : Char} (h : c ∈ window s m n) : c ∈ s :=
  List.mem_of_mem_take (List.mem_of_mem_drop h)

/-- The text of an expression in a tree that is read is read as that expression, with every place
moved to the left by as much as the expression begins to the right. -/
theorem readExpression_span_text {source : String} {t e : Node}
    (h : readExpression source = .ok t) (he : e ∈ t.expressions) :
    ∃ span, e.span = some span ∧ ∃ e', readExpression span.text = .ok e' ∧ e'.same e ∧
      e' = e.mapSpans (Span.moved span.text span.start) := by
  obtain ⟨_, hd, -⟩ := readExpression_ok_iff.mp h
  obtain ⟨ℓ, i, j, hd⟩ := hd.expressions he
  have hstart : skip (expandTabs source).toList i ≤ edge (expandTabs source).toList e j :=
    Nat.le_trans (Nat.le_of_lt hd.skip_lt) (le_edge _ e j)
  have hstop : edge (expandTabs source).toList e j ≤ (expandTabs source).toList.length :=
    Nat.le_trans (edge_le_skip _ e j) (skip_le_length hd.bounds.2)
  have ht := toList_text_eq_window hstart hstop
  have htab := expandTabs_eq_self _ fun hc ↦
    tab_notMem_expandTabs source (mem_of_mem_window (ht ▸ hc))
  refine ⟨_, hd.span_eq, _, readExpression_ok_iff.mpr ?_,
    Node.same_iff.mpr (Node.erase_mapSpans _ e), rfl⟩
  rw [htab]
  exact hd.written ht

theorem literal_span_text :
    readExpression " (1)" =
      .ok (.paren (.intLit 1 (some ⟨" (1)", 2, 3⟩)) (some ⟨" (1)", 1, 4⟩)) ∧
    ∃ span, (Node.intLit 1 (some ⟨" (1)", 2, 3⟩)).span = some span ∧
      ∃ e', readExpression span.text = .ok e' ∧ e'.same (.intLit 1 (some ⟨" (1)", 2, 3⟩)) ∧
        e' = (Node.intLit 1 (some ⟨" (1)", 2, 3⟩)).mapSpans
          (Span.moved span.text span.start) := by
  have h : readExpression " (1)" =
      .ok (.paren (.intLit 1 (some ⟨" (1)", 2, 3⟩)) (some ⟨" (1)", 1, 4⟩)) := rfl
  exact ⟨h, readExpression_span_text h (List.mem_cons_of_mem _ List.mem_cons_self)⟩

end TypedLet.Grammar
