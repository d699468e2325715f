import Mathlib.Data.List.DropRight
import TypedLet.Proofs.Grammar.Subtext
import TypedLet.Proofs.Grammar.Visible
import TypedLet.Proofs.Node.Parts

namespace TypedLet

open Grammar Text

/-- Whether a node ends with its last token. A binder does so if its body is a chain with an
operator on every level, and else takes in the layout that follows. -/
def Node.endsTight : Node → Bool
  | letIn _ _ b _ | fn _ _ b _ _ => Level.expression.tight b
  | _ => true

/-- A node stands in a text, from a visible character to another one, at its end or with only
layout behind it. -/
structure Node.Placed (text : String) (n : Node) (i j : Nat) : Prop where
  span : n.At text i j
  lt : i < j
  le_length : j ≤ text.toList.length
  starts : StartsVisibly text.toList i
  ends : ∃ q, EndsVisibly text.toList q ∧ Blank text.toList q j ∧ (n.endsTight → q = j)

/-- How a node lies around its parts, one behind the other, and over its own words. -/
def Node.Arranged (text : String) : Node → Prop
  | absent => False
  | intType span => span.map Span.text = some "Int"
  | boolType span => span.map Span.text = some "Bool"
  | var x span => span.map Span.text = some x
  | boolLit b span => span.map Span.text = some (if b then "true" else "false")
  | intLit n span => ∃ digits, IsNumeral digits ∧ n = numeralValue digits ∧
      span.map Span.text = some (String.ofList digits)
  | funcType a b span | binary _ a b span => ∃ i k l j : Nat, span = some ⟨text, i, j⟩ ∧
      a.At text i k ∧ k < l ∧ b.At text l j
  | paren a span => ∃ i k l j : Nat, span = some ⟨text, i, j⟩ ∧ i < k ∧ a.At text k l ∧ l < j ∧
      ∃ inner, Span.text ⟨text, i, j⟩ = "(" ++ inner ++ ")"
  | letIn _ a b span => ∃ i k l m n j : Nat, span = some ⟨text, i, j⟩ ∧ i < k ∧ a.At text k l ∧
      l < m ∧ b.At text m n ∧ j = if Level.expression.tight b then n else skip text.toList n
  | fn x t b paramSpan span => ∃ i k l m n o p j : Nat, span = some ⟨text, i, j⟩ ∧ i < k ∧
      paramSpan = some ⟨text, k, l⟩ ∧ Span.text ⟨text, k, l⟩ = x ∧ k < l ∧ l < m ∧ t.At text m n ∧
      n < o ∧ b.At text o p ∧ j = if Level.expression.tight b then p else skip text.toList p

theorem Node.Placed.endsVisibly {text : String} {n : Node} {i j : Nat} (h : n.Placed text i j)
    (ht : n.endsTight) : EndsVisibly text.toList j := by
  obtain ⟨q, hq, -, heq⟩ := h.ends
  exact heq ht ▸ hq

namespace Grammar

variable {text source : String} {limit : Nat} {d : Dialect} {s w : List Char} {x : String}
variable {word : List Char} {e n a b : Node} {ℓ : Level} {m : TypeLevel} {i j k l : Nat}

theorem Stands.text_eq (h : Stands text.toList w i j) (hw : w ≠ []) :
    Span.text ⟨text, i, j⟩ = String.ofList w := by
  have hlt := h.lt hw
  have hle := h.le_length_of_ne_nil hw
  rw [← String.toList_inj, toList_text_eq_window (by omega) hle, h.window_eq hle,
    String.toList_ofList]

/-- Two marks and what stands between them. -/
theorem text_eq_enclosed {v : List Char} (hw : Stands text.toList w i k) (hk : k ≤ l)
    (hv : Stands text.toList v l j) (hj : j ≤ text.toList.length) :
    ∃ inner, Span.text ⟨text, i, j⟩ = String.ofList w ++ inner ++ String.ofList v := by
  have hik := hw.le
  have hlj := hv.le
  refine ⟨String.ofList (Grammar.window text.toList k l), ?_⟩
  have hi : (text.toList.take i).length = i := by rw [List.length_take]; omega
  have hl : text.toList.take l = text.toList.take i ++ (w ++ Grammar.window text.toList k l) := by
    rw [← List.append_assoc, ← hw.take_eq, Grammar.window]
    conv_lhs => rw [← List.take_append_drop k (text.toList.take l)]
    rw [List.take_take, Nat.min_eq_left hk]
  rw [← String.toList_inj, toList_text_eq_window (by omega) hj, Grammar.window, hv.take_eq, hl,
    List.append_assoc, List.drop_left' hi]
  simp

theorem spanning_at (ha : a.At text i k) (hb : b.At text l j) (hi : i ≤ l) (hk : k ≤ j) :
    a.spanning b = some ⟨text, i, j⟩ := by
  rw [Node.spanning, ha, hb, Option.bind_some, Option.map_some,
    Span.merge_eq_of_le (Int.ofNat_le.mpr hi) (Int.ofNat_le.mpr hk)]

theorem TypeDerives.parts (h : TypeDerives d s m i j e) (hn : n ∈ e.parts) :
    ∃ m i j, TypeDerives d s m i j n := by
  induction h with
  | int h =>
    obtain rfl := List.mem_singleton.mp hn
    exact ⟨_, _, _, .int h⟩
  | bool h =>
    obtain rfl := List.mem_singleton.mp hn
    exact ⟨_, _, _, .bool h⟩
  | paren _ _ _ ih | single _ ih => exact ih hn
  | arrow ha hm hb iha ihb =>
    rcases List.mem_cons.mp hn with rfl | hn
    · exact ⟨_, _, _, .arrow ha hm hb⟩
    · exact (List.mem_append.mp hn).elim iha ihb

theorem Derives.parts (h : Derives d s ℓ i j e) (hn : n ∈ e.parts) :
    (∃ ℓ i j, Derives d s ℓ i j n) ∨ ∃ m i j, TypeDerives d s m i j n := by
  induction h with
  | integer h hl =>
    obtain rfl := List.mem_singleton.mp hn
    exact .inl ⟨_, _, _, .integer h hl⟩
  | yes h =>
    obtain rfl := List.mem_singleton.mp hn
    exact .inl ⟨_, _, _, .yes h⟩
  | no h =>
    obtain rfl := List.mem_singleton.mp hn
    exact .inl ⟨_, _, _, .no h⟩
  | reference h =>
    obtain rfl := List.mem_singleton.mp hn
    exact .inl ⟨_, _, _, .reference h⟩
  | paren ho h hc ih =>
    rcases List.mem_cons.mp hn with rfl | hn
    · exact .inl ⟨_, _, _, .paren ho h hc⟩
    · exact ih hn
  | single _ ih | operation _ ih => exact ih hn
  | more ha hm hb iha ihb =>
    rcases List.mem_cons.mp hn with rfl | hn
    · exact .inl ⟨_, _, _, .more ha hm hb⟩
    · exact (List.mem_append.mp hn).elim iha ihb
  | letIn hlet hx heq hr hin hb ihr ihb =>
    rcases List.mem_cons.mp hn with rfl | hn
    · exact .inl ⟨_, _, _, .letIn hlet hx heq hr hin hb⟩
    · exact (List.mem_append.mp hn).elim ihr ihb
  | function hfn hopen hx hcolon ht hclose harrow hb ih =>
    rcases List.mem_cons.mp hn with rfl | hn
    · exact .inl ⟨_, _, _, .function hfn hopen hx hcolon ht hclose harrow hb⟩
    · exact (List.mem_append.mp hn).elim (fun hn ↦ .inr (ht.parts hn)) ih

theorem baseType_placed [IsKeyword word] {make : Option Span → Node}
    (h : Keyword text.toList word i j) (hspan : ∀ span, (make span).span = span) :
    (make (some ⟨text, skip text.toList i, j⟩)).Placed text (skip text.toList i) j :=
  ⟨hspan _, h.skip_lt, h.bounds.2, h.startsVisibly, _, h.token.endsVisibly, blank_refl _ j,
    fun _ ↦ rfl⟩

theorem TypeDerives.endsTight (h : TypeDerives d s m i j e) : e.endsTight := by
  induction h with
  | int | bool | arrow => rfl
  | paren _ _ _ ih | single _ ih => exact ih

/-- An annotation is said to stand within what it is derived from, which parentheses may widen. -/
theorem TypeDerives.placed (h : TypeDerives (.placed text limit) text.toList m i j e) :
    ∃ p q, skip text.toList i ≤ p ∧ q ≤ j ∧ e.Placed text p q := by
  induction h with
  | int h =>
    exact ⟨_, _, Nat.le_refl _, Nat.le_refl _, baseType_placed h fun _ ↦ rfl⟩
  | bool h =>
    exact ⟨_, _, Nat.le_refl _, Nat.le_refl _, baseType_placed h fun _ ↦ rfl⟩
  | @paren i k l j e ho _ hc ih =>
    obtain ⟨p, q, hp, hq, he⟩ := ih
    have hk := ho.skip_lt
    have hk' := le_skip text.toList k
    have hl := hc.bounds.1
    exact ⟨p, q, by omega, by omega, he⟩
  | single _ ih => exact ih
  | @arrow i k l j a b _ hm hd iha ihb =>
    have htight := hd.endsTight
    obtain ⟨p, q, hp, hq, ha⟩ := iha
    obtain ⟨p', q', hp', hq', hb⟩ := ihb
    have hpq := ha.lt
    have hpq' := hb.lt
    have hkl := hm.bounds.1
    have hl := le_skip text.toList l
    have hspan := spanning_at ha.span hb.span (by omega) (by omega)
    obtain ⟨r, hr, hblank, hend⟩ := hb.ends
    exact ⟨p, q', hp, hq', hspan, by omega, hb.le_length, ha.starts, r, hr, hblank,
      fun _ ↦ hend htight⟩

theorem TypeDerives.arranged (h : TypeDerives (.placed text limit) text.toList m i j e) :
    e.Arranged text := by
  induction h with
  | int h => exact congrArg some ((keyword_iff.mp h).1.text_eq IsKeyword.ne_nil)
  | bool h => exact congrArg some ((keyword_iff.mp h).1.text_eq IsKeyword.ne_nil)
  | paren _ _ _ ih | single _ ih => exact ih
  | @arrow i k l j a b ha hm hb _ _ =>
    obtain ⟨p, q, hp, hq, ha⟩ := ha.placed
    obtain ⟨p', q', hp', hq', hb⟩ := hb.placed
    have hpq := ha.lt
    have hpq' := hb.lt
    have hkl := hm.bounds.1
    have hl := le_skip text.toList l
    exact ⟨p, q, p', q', spanning_at ha.span hb.span (by omega) (by omega), ha.span, by omega,
      hb.span⟩

theorem edge_eq_of_endsTight (h : e.endsTight) (s : List Char) (j : Nat) : edge s e j = j := by
  cases e with
  | letIn | fn => exact if_pos h
  | _ => rfl

theorem Derives.placed (h : Derives (.placed text limit) text.toList ℓ i j e) :
    e.Placed text (skip text.toList i) (edge text.toList e j) where
  span := h.span_eq
  lt := Nat.lt_of_lt_of_le h.skip_lt (le_edge _ e j)
  le_length := Nat.le_trans (edge_le_skip _ e j) (skip_le_length h.bounds.2)
  starts := h.startsVisibly
  ends := ⟨j, h.endsVisibly, blank_edge _ e j, fun ht ↦ (edge_eq_of_endsTight ht _ j).symm⟩

theorem reach_edge (s : List Char) (e : Node) (j : Nat) :
    reach s .expression e (edge s e j) = reach s .expression e j := by
  have hr (b : Node) : reach s .expression b (reach s .expression b j) =
      reach s .expression b j := by
    unfold reach
    split
    · rfl
    · exact skip_skip s j
  cases e with
  | letIn x a b span => exact hr b
  | fn x t b p span => exact hr b
  | _ => rfl

theorem Derives.arranged (h : Derives (.placed text limit) text.toList ℓ i j e) :
    e.Arranged text := by
  induction h with
  | integer h _ => exact ⟨_, h.2, rfl, congrArg some (h.stands.text_eq h.2.1)⟩
  | yes h | no h => exact congrArg some ((keyword_iff.mp h).1.text_eq IsKeyword.ne_nil)
  | reference h =>
    have ht := h.stands.text_eq h.2.solid.ne_nil
    rw [String.ofList_toList] at ht
    exact congrArg some ht
  | @paren i k l j e ho h hc _ =>
    have hi := ho.skip_lt
    have hk := le_skip text.toList k
    have he := h.skip_lt
    have hl := le_skip text.toList l
    have hj := hc.skip_lt
    have hedge := edge_le_skip text.toList e l
    exact ⟨_, _, _, _, rfl, by omega, h.placed.span, by omega,
      text_eq_enclosed (token_iff.mp ho) (by omega) (token_iff.mp hc) hc.bounds.2⟩
  | single _ ih | operation _ ih => exact ih
  | @more op i k l j a b ha hm hb _ _ =>
    have hi := ha.skip_lt
    have hk := edge_le_skip text.toList a k
    have hk' := le_skip text.toList k
    have hl := hm.skip_lt
    have hl' := le_skip text.toList l
    have hj := hb.skip_lt
    have hb := hb.edge_eq ▸ hb.placed.span
    exact ⟨_, _, _, _, spanning_at ha.placed.span hb (by omega) (by omega), ha.placed.span,
      by omega, hb⟩
  | @letIn i i₁ i₂ i₃ i₄ i₅ j x right body hlet hx heq hr hin hb _ _ =>
    have h₁ := hlet.skip_lt
    have h₂ := hx.bounds.1
    have h₃ := heq.bounds.1
    have h₃' := le_skip text.toList i₃
    have h₄ := edge_le_skip text.toList right i₄
    have h₅ := hin.skip_lt
    have h₅' := le_skip text.toList i₅
    exact ⟨_, _, _, _, _, _, rfl, by omega, hr.placed.span, by omega, hb.placed.span,
      (reach_edge _ body j).symm⟩
  | @function i i₁ i₂ i₃ i₄ i₅ i₆ i₇ j x type body hfn hopen hx hcolon ht hclose harrow hb _ =>
    obtain ⟨p, q, hp, hq, ht⟩ := ht.placed
    have h₁ := hfn.skip_lt
    have h₂ := hopen.bounds.1
    have h₂' := le_skip text.toList i₂
    have h₃ := hx.skip_lt
    have h₄ := hcolon.bounds.1
    have h₄' := le_skip text.toList i₄
    have h₆ := hclose.bounds.1
    have h₇ := harrow.bounds.1
    have h₇' := le_skip text.toList i₇
    have htext := hx.stands.text_eq hx.2.solid.ne_nil
    rw [String.ofList_toList] at htext
    exact ⟨_, _, _, _, _, _, _, _, rfl, by omega, rfl, htext, h₃, by omega, ht.span, by omega,
      hb.placed.span, (reach_edge _ body j).symm⟩

/-- A text without the layout at its ends. -/
def stripLayout (s : List Char) : List Char := (s.dropWhile isLayout).rdropWhile isLayout

theorem stripLayout_eq (hi : Blank s 0 i) (hj : Blank s j s.length) (hij : i < j)
    (hs : StartsVisibly s i) (he : EndsVisibly s j) : stripLayout s = window s i j := by
  obtain ⟨c, hc, hcb⟩ := hs
  obtain ⟨c', hc', hcb'⟩ := he
  obtain ⟨tail, ht, hlayout⟩ := hj
  have hjl : j ≤ s.length := ht.le
  have hfront : s.dropWhile isLayout = s.drop i := by
    have hskip := hi.eq_skip (by rw [hc, Option.any_some]; exact isLayout_eq_false hcb)
    rw [hskip, skip, Nat.zero_add, List.drop_zero, drop_length_takeWhile]
  have htail : s.drop j = tail := by rw [ht.drop_eq, List.drop_length, List.append_nil]
  have hsplit : s.drop i = window s i j ++ tail := by
    conv_lhs => rw [← List.take_append_drop j s, htail]
    rw [List.drop_append_of_le_length (by rw [List.length_take]; omega), window]
  have hlast : (window s i j).rdropWhile isLayout = window s i j := by
    rw [List.rdropWhile_eq_self_iff]
    intro hne
    have hg : (window s i j).getLast? = some c' := by
      rw [window, List.getLast?_drop, if_neg (by rw [List.length_take]; omega), hc']
    rw [List.getLast?_eq_some_getLast hne, Option.some.injEq] at hg
    rw [hg, isLayout_eq_false hcb']
    exact Bool.false_ne_true
  rw [stripLayout, hfront, hsplit, List.rdropWhile, List.reverse_append,
    List.dropWhile_append_of_pos fun x hx ↦ hlayout x (List.mem_reverse.mp hx)]
  exact hlast

theorem readExpression_root {t : Node} (h : readExpression source = .ok t) :
    let text := expandTabs source
    ∃ i j, t.At text i j ∧ Blank text.toList 0 i ∧ Blank text.toList j text.toList.length ∧
      (t.endsTight →
        Span.text ⟨text, i, j⟩ = String.ofList (stripLayout text.toList)) := by
  intro text
  obtain ⟨j, hd, hj⟩ := readExpression_ok_iff.mp h
  have hp := hd.placed
  have hi := blank_skip text.toList 0
  have hend := blank_skip text.toList (edge text.toList t j)
  rw [← (blank_edge text.toList t j).skip_eq, hj.skip_eq, skip_eq_self (by simp)] at hend
  refine ⟨_, _, hp.span, hi, hend, fun ht ↦ ?_⟩
  rw [← String.toList_inj, toList_text_eq_window (Nat.le_of_lt hp.lt) hp.le_length,
    String.toList_ofList, stripLayout_eq hi hend hp.lt hp.starts (hp.endsVisibly ht)]

theorem readExpression_part {t : Node} (h : readExpression source = .ok t) (hn : n ∈ t.parts) :
    n.Arranged (expandTabs source) ∧ ∃ i j, n.Placed (expandTabs source) i j := by
  obtain ⟨j, hd, -⟩ := readExpression_ok_iff.mp h
  rcases hd.parts hn with ⟨_, _, _, hd⟩ | ⟨_, _, _, hd⟩
  · exact ⟨hd.arranged, _, _, hd.placed⟩
  · obtain ⟨p, q, -, -, hp⟩ := hd.placed
    exact ⟨hd.arranged, p, q, hp⟩

/-- The nodes of a tree that is read lie in the text, one inside the other and one behind the
other, and the whole tree between the layout at the ends of the text. -/
theorem read_arranges (source : String) :
    let text := expandTabs source
    (∀ t, readExpression source = .ok t →
      (∀ n ∈ t.parts, n.Arranged text ∧ ∃ i j, n.Placed text i j) ∧
      ∃ i j, t.At text i j ∧ Blank text.toList 0 i ∧ Blank text.toList j text.toList.length ∧
        (t.endsTight → Span.text ⟨text, i, j⟩ = String.ofList (stripLayout text.toList))) ∧
    ∀ t, readAnnotation source = .ok t → ∀ n ∈ t.parts,
      n.Arranged text ∧ ∃ i j, n.Placed text i j := by
  refine ⟨fun t h ↦ ⟨fun n ↦ readExpression_part h, readExpression_root h⟩, fun t h n hn ↦ ?_⟩
  obtain ⟨j, hd, -⟩ := readAnnotation_ok_iff.mp h
  obtain ⟨_, _, _, hd⟩ := hd.parts hn
  obtain ⟨p, q, -, -, hp⟩ := hd.placed
  exact ⟨hd.arranged, p, q, hp⟩

theorem tight_binder_arranged :
    let source := " let x = 1 in x && x == x + x "
    let name (i : Int) := Node.var "x" (some ⟨source, i, i + 1⟩)
    let equal := Node.binary .equal (name 19)
      (.binary .sum (name 24) (name 28) (some ⟨source, 24, 29⟩)) (some ⟨source, 19, 29⟩)
    let root := Node.letIn "x" (.intLit 1 (some ⟨source, 9, 10⟩))
      (.binary .conj (name 14) equal (some ⟨source, 14, 29⟩)) (some ⟨source, 1, 29⟩)
    let arrow := Node.funcType (.intType (some ⟨"(Int) -> Bool", 1, 4⟩))
      (.boolType (some ⟨"(Int) -> Bool", 9, 13⟩)) (some ⟨"(Int) -> Bool", 1, 13⟩)
    readExpression source = .ok root ∧ equal.Arranged source ∧ root.Arranged source ∧
    (∃ i j : Nat, root.At source i j ∧
      Span.text ⟨source, i, j⟩ = String.ofList (stripLayout source.toList)) ∧
    readAnnotation "(Int) -> Bool" = .ok arrow ∧ arrow.Arranged "(Int) -> Bool" := by
  intro source name equal root arrow
  have he : readExpression source = .ok root := by decide +kernel
  have ht : readAnnotation "(Int) -> Bool" = .ok arrow := rfl
  have hmem : equal ∈ root.parts := by simp [root, equal, Node.parts]
  have hx : expandTabs source = source := expandTabs_eq_self source (by decide +kernel)
  have h := (read_arranges source).1 root he
  rw [hx] at h
  obtain ⟨hparts, i, j, hroot, -, -, hstrip⟩ := h
  exact ⟨he, (hparts equal hmem).1, (hparts root List.mem_cons_self).1,
    ⟨i, j, hroot, hstrip rfl⟩, ht, ((read_arranges _).2 _ ht arrow List.mem_cons_self).1⟩

/-- The layout behind a body without operators goes to the binder, at the end of the text and
within it. -/
theorem binder_ends_behind_body :
    let outer := "let x = 1 in x  "
    let nested := "let x = let y = 1 in y in x"
    readExpression outer = .ok (.letIn "x" (.intLit 1 (some ⟨outer, 8, 9⟩))
      (.var "x" (some ⟨outer, 13, 14⟩)) (some ⟨outer, 0, 16⟩)) ∧
    stripLayout outer.toList = "let x = 1 in x".toList ∧
    readExpression nested = .ok (.letIn "x" (.letIn "y" (.intLit 1 (some ⟨nested, 16, 17⟩))
      (.var "y" (some ⟨nested, 21, 22⟩)) (some ⟨nested, 8, 23⟩))
      (.var "x" (some ⟨nested, 26, 27⟩)) (some ⟨nested, 0, 27⟩)) ∧
    Span.text ⟨nested, 8, 23⟩ = "let y = 1 in y " :=
  ⟨rfl, rfl, rfl, rfl⟩

end Grammar

end TypedLet
