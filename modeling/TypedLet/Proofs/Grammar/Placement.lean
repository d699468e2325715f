import TypedLet.Proofs.Grammar.Extent

namespace TypedLet.Grammar

/-- Where a part is said to end whose last token ends at `j`: a binder takes in the layout that
the reading of its body passes over. -/
def edge (s : List Char) : Node → Nat → Nat
  | .letIn _ _ body _, j => reach s .expression body j
  | .fn _ _ body _ _, j => reach s .expression body j
  | _, j => j

variable {text : String} {limit : Nat} {s : List Char} {e : Node} {ℓ : Level} {op : Op}
variable {d : Dialect} {i j k : Nat}

theorem le_edge (s : List Char) (e : Node) (j : Nat) : j ≤ edge s e j := by
  cases e with
  | letIn | fn => exact le_reach s _ _ j
  | _ => exact Nat.le_refl j

theorem edge_le_reach (s : List Char) (e : Node) (j : Nat) :
    edge s e j ≤ reach s .expression e j := by
  cases e with
  | letIn | fn => exact Nat.le_refl _
  | _ => exact le_reach s _ _ j

theorem edge_le_skip (s : List Char) (e : Node) (j : Nat) : edge s e j ≤ skip s j :=
  Nat.le_trans (edge_le_reach s e j) (reach_le s _ e j)

theorem blank_edge (s : List Char) (e : Node) (j : Nat) : Blank s j (edge s e j) := by
  cases e with
  | letIn | fn => exact blank_reach s _ _ j
  | _ => exact blank_refl s j

theorem Derives.edge_eq (h : Derives d s op.operand i j e) : edge s e k = k := by
  have hl := h.rank_level_le
  cases e with
  | letIn | fn => cases op <;> simp [Node.level, Level.rank, Op.operand] at hl
  | _ => rfl

theorem place_skip (text : String) (limit i j : Nat) :
    (Dialect.placed text limit).place (skip text.toList i) j =
      (Dialect.placed text limit).place i j := by
  simp only [Dialect.placed, skip_skip]

theorem binderPlace_skip (text : String) (limit : Nat) (body : Node) (i j : Nat) :
    (Dialect.placed text limit).binderPlace body (skip text.toList i) j =
      (Dialect.placed text limit).binderPlace body i j := by
  simp only [Dialect.placed, skip_skip]

theorem Derives.trim (h : Derives (.placed text limit) text.toList ℓ i j e) :
    Derives (.placed text limit) text.toList ℓ (skip text.toList i) j e := by
  induction h with
  | integer h hl =>
    rw [← place_skip]
    exact .integer (h.of_skip_eq (skip_skip _ _).symm) hl
  | yes h =>
    rw [← place_skip]
    exact .yes (h.of_skip_eq (skip_skip _ _).symm)
  | no h =>
    rw [← place_skip]
    exact .no (h.of_skip_eq (skip_skip _ _).symm)
  | reference h =>
    rw [← place_skip]
    exact .reference (h.of_skip_eq (skip_skip _ _).symm)
  | paren ho h hc =>
    rw [← place_skip]
    exact .paren (ho.of_skip_eq (skip_skip _ _).symm) h hc
  | single _ ih => exact .single ih
  | more _ hm hb iha => exact .more iha hm hb
  | letIn hlet hx heq hr hin hb =>
    rw [← binderPlace_skip]
    exact .letIn (hlet.of_skip_eq (skip_skip _ _).symm) hx heq hr hin hb
  | function hfn hopen hx hcolon ht hclose harrow hb =>
    rw [← binderPlace_skip]
    exact .function (hfn.of_skip_eq (skip_skip _ _).symm) hopen hx hcolon ht hclose harrow hb
  | operation _ ih => exact .operation ih

theorem Derives.skip_lt (h : Derives (.placed text limit) text.toList ℓ i j e) :
    skip text.toList i < j :=
  h.trim.bounds.1

/-- A part is said to stand from its first token to its edge. -/
theorem Derives.span_eq (h : Derives (.placed text limit) text.toList ℓ i j e) :
    e.span = some ⟨text, skip text.toList i, edge text.toList e j⟩ := by
  induction h with
  | integer | yes | no | reference | paren | letIn | function => rfl
  | single _ ih | operation _ ih => exact ih
  | @more op i k l j a b ha hm hb iha ihb =>
    have hi := ha.skip_lt
    have hk := hm.skip_lt
    have hl := hb.skip_lt
    have hka := edge_le_skip text.toList a k
    have hlk := le_skip text.toList l
    have hkk := le_skip text.toList k
    have hmerge := Span.merge_eq_of_le (a := ⟨text, skip text.toList i, edge text.toList a k⟩)
      (b := ⟨text, skip text.toList l, j⟩) (Int.ofNat_le.mpr (by omega)) (Int.ofNat_le.mpr (by omega))
    rw [Node.span, Node.spanning, iha, ihb, hb.edge_eq, Option.bind_some, Option.map_some, hmerge]
    rfl

end TypedLet.Grammar
