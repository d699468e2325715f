import TypedLet.Grammar.Source
import TypedLet.Proofs.Grammar.Derivation

namespace TypedLet.Grammar

/-- What the grammar is made of: its words and marks, and what is put together from them. -/
inductive Element where
  | name
  | numeral
  | keyword (word : List Char) [IsKeyword word]
  | symbol (mark : List Char) [IsMark mark]
  | integer
  | boolean
  | reference
  | paren
  | atom
  | chain (op : Op)
  | letIn
  | function
  | expression
  | annotationAtom
  | annotation

/-- Whether what is read may have parts of its own kind. -/
def Element.nests : Element → Bool
  | expression | annotation => true
  | _ => false

/-- One of the elements is tried at a place. -/
structure Attempt where
  element : Element
  pos : Nat

/-- A rule that takes down every attempt, the latest first, and can break off before it comes to an
end. -/
def Stepwise (α : Type) : Type := Cursor → List Attempt → Option (Outcome α × List Attempt)

namespace Stepwise

variable {α β : Type}

def breakOff : Stepwise α := fun _ _ ↦ none

def andThen (r : Stepwise α) (f : α → Stepwise β) : Stepwise β := fun c made ↦
  match r c made with
  | some (.parsed a d, made) => f a d made
  | some (.failed pos, made) => some (.failed pos, made)
  | some (.overlong n, made) => some (.overlong n, made)
  | none => none

instance : Monad Stepwise where
  pure a := fun c made ↦ some (.parsed a c, made)
  bind := andThen

def firstOf : List (Stepwise α) → Stepwise α
  | [], _, made => some (.failed 0, made)
  | r :: rs, c, made =>
    match r c made with
    | some (.failed pos, made) => (firstOf rs c made).map fun p ↦ (p.1.afterFailure pos, p.2)
    | other => other

def located (r : Stepwise α) : Stepwise (α × Span) := fun c made ↦
  (r c made).map fun p ↦ (Rule.located (fun _ ↦ p.1) c, p.2)

def whole (r : Stepwise α) : Stepwise α := fun c made ↦
  (r c made).map fun p ↦ (Rule.whole (fun _ ↦ p.1) c, p.2)

def read (r : Stepwise α) (source : String) : Option (Except ParseError α) :=
  (r (.start (Text.expandTabs source)) []).map fun p ↦ Rule.read (fun _ ↦ p.1) source

/-- A rule until it fails. It breaks off where that takes more than `n` rounds, the last one
included. -/
def upTo (r : Stepwise α) : Nat → Stepwise (List α)
  | 0, _, _ => none
  | n + 1, c, made =>
    match r c made with
    | some (.parsed a d, made) =>
      match upTo r n d made with
      | some (.parsed as e, made) => some (.parsed (a :: as) e, made)
      | other => other
    | some (.failed _, made) => some (.parsed [] c, made)
    | some (.overlong k, made) => some (.overlong k, made)
    | none => none

/-! The grammar again, with no more than `bound` attempts in all. Nothing else ends its loops and its
recursion. -/

variable (bound limit : Nat)

def attempt (e : Element) (r : Stepwise α) : Stepwise α := fun c made ↦
  if made.length < bound then r c (⟨e, c.pos⟩ :: made) else none

def terminal (e : Element) (r : Rule α) : Stepwise α :=
  attempt bound e fun c made ↦ some (r c, made)

def many (r : Stepwise α) : Stepwise (List α) := fun c made ↦
  match r.upTo bound c made with
  | some (.parsed [] d, made) => some (.parsed [] d.skipLayout, made)
  | other => other

def keyword (word : List Char) [IsKeyword word] : Stepwise Unit :=
  terminal bound (.keyword word) (Grammar.keyword word)

def symbol (mark : List Char) [IsMark mark] : Stepwise Unit :=
  terminal bound (.symbol mark) (Grammar.symbol mark)

def name : Stepwise String := terminal bound .name Grammar.name

def numeral : Stepwise Nat := terminal bound .numeral (Grammar.numeral limit)

def baseType (word : List Char) [IsKeyword word] (make : Option Span → Node) : Stepwise Node := do
  let (_, span) ← located (keyword bound word)
  return make span

def annotationAtom (self : Stepwise Node) : Stepwise Node :=
  attempt bound .annotationAtom <| firstOf [
    baseType bound intWord .intType, baseType bound boolWord .boolType, do
      symbol bound ['(']
      let inner ← self
      symbol bound [')']
      return inner]

def annotationBody (self : Stepwise Node) : Stepwise Node := do
  let head ← annotationAtom bound self
  let tail ← many bound do
    symbol bound ['-', '>']
    annotationAtom bound self
  return arrows head tail

def annotationUpTo : Nat → Stepwise Node
  | 0 => breakOff
  | n + 1 => attempt bound Element.annotation (annotationBody bound (annotationUpTo n))

def annotation : Stepwise Node := annotationUpTo bound bound

def chain (op : Op) (mark : List Char) [IsMark mark] (part : Stepwise Node) : Stepwise Node :=
  attempt bound (.chain op) do
    let head ← part
    let tail ← many bound do
      symbol bound mark
      part
    return tail.foldl (fun a b ↦ .binary op a b (a.spanning b)) head

def integer : Stepwise Node := attempt bound .integer do
  let (value, span) ← located (numeral bound limit)
  return .intLit value span

def boolean : Stepwise Node := attempt bound .boolean do
  let (value, span) ← located <| firstOf [
    do keyword bound trueWord; return true,
    do keyword bound falseWord; return false]
  return .boolLit value span

def reference : Stepwise Node := attempt bound .reference do
  let (x, span) ← located (name bound)
  return .var x span

def paren (self : Stepwise Node) : Stepwise Node := attempt bound .paren do
  let (inner, span) ← located do
    symbol bound ['(']
    let inner ← self
    symbol bound [')']
    return inner
  return .paren inner span

def atom (self : Stepwise Node) : Stepwise Node :=
  attempt bound .atom <|
    firstOf [integer bound limit, boolean bound, reference bound, paren bound self]

def conjunction (self : Stepwise Node) : Stepwise Node :=
  chain bound .conj ['&', '&'] (chain bound .equal ['=', '=']
    (chain bound .sum ['+'] (atom bound limit self)))

def letIn (self : Stepwise Node) : Stepwise Node := attempt bound .letIn do
  let ((x, right, body), span) ← located do
    keyword bound letWord
    let x ← name bound
    symbol bound ['=']
    let right ← self
    keyword bound inWord
    let body ← self
    return (x, right, body)
  return .letIn x right body span

def function (self : Stepwise Node) : Stepwise Node := attempt bound .function do
  let (((x, xSpan), type, body), span) ← located do
    keyword bound fnWord
    symbol bound ['(']
    let x ← located (name bound)
    symbol bound [':']
    let type ← annotation bound
    symbol bound [')']
    symbol bound ['=', '>']
    let body ← self
    return (x, type, body)
  return .fn x type body xSpan span

def expressionBody (self : Stepwise Node) : Stepwise Node :=
  firstOf [letIn bound self, function bound self, conjunction bound limit self]

def expressionUpTo : Nat → Stepwise Node
  | 0 => breakOff
  | n + 1 => attempt bound .expression (expressionBody bound limit (expressionUpTo n))

def expression : Stepwise Node := expressionUpTo bound limit bound

def readExpression (source : String) : Option (Except ParseError Node) :=
  (expression bound maxDigits).whole.read source

def readAnnotation (source : String) : Option (Except ParseError Node) :=
  annotation bound |>.whole.read source

/-! How the rules run. -/

/-- From `c` the rule comes to `o` with the attempts `made`, within any bound on the attempts and on
the depth that leaves room for as many. -/
def Makes (r : Nat → Nat → Stepwise α) (c : Cursor) (o : Outcome α) (made : List Attempt) : Prop :=
  ∀ ⦃bound depth before⦄, made.length + before.length ≤ bound → made.length ≤ depth →
    r bound depth c before = some (o, made ++ before)

/-- The same of a rule that is repeated, within as many rounds. -/
def Loops (r : Nat → Nat → Stepwise α) (c : Cursor) (o : Outcome (List α)) (made : List Attempt) :
    Prop :=
  ∀ ⦃bound depth rounds before⦄, made.length + before.length ≤ bound → made.length ≤ depth →
    made.length ≤ rounds → (r bound depth).upTo rounds c before = some (o, made ++ before)

variable {r r' : Nat → Nat → Stepwise α} {rs : Nat → Nat → List (Stepwise α)}
variable {f : α → Nat → Nat → Stepwise β} {c d : Cursor} {a : α} {o : Outcome α} {u : Outcome β}
variable {os : Outcome (List α)} {made made' : List Attempt} {e : Element} {i : Nat}

namespace Makes

theorem pure : Makes (fun _ _ ↦ Pure.pure a) c (.parsed a c) [] := fun _ _ _ _ _ ↦ rfl

theorem attempt_eq {b n : Nat} {before : List Attempt} (h : Makes r c o made)
    (hb : made.length + before.length < b) (hn : made.length ≤ n) :
    attempt b e (r b n) c before = some (o, made ++ [⟨e, c.pos⟩] ++ before) := by
  have hlt : before.length < b := by omega
  have hmade := @h b n (⟨e, c.pos⟩ :: before) (by rw [List.length_cons]; omega) hn
  rw [attempt, if_pos hlt, hmade, List.append_assoc]
  rfl

theorem attempt (h : Makes r c o made) :
    Makes (fun b n ↦ attempt b e (r b n)) c o (made ++ [⟨e, c.pos⟩]) := by
  intro b n before hb hn
  rw [List.length_append, List.length_singleton] at hb hn
  exact h.attempt_eq (by omega) (by omega)

/-- One level further down. -/
theorem descend (h : Makes r c o made) (hr : ∀ b n, r' b (n + 1) = Stepwise.attempt b e (r b n)) :
    Makes r' c o (made ++ [⟨e, c.pos⟩]) := by
  intro b n before hb hn
  rw [List.length_append, List.length_singleton] at hb hn
  obtain ⟨n, rfl⟩ : ∃ k, n = k + 1 := ⟨n - 1, by omega⟩
  rw [hr]
  exact h.attempt_eq (by omega) (by omega)

theorem terminal (e : Element) (r : Rule α) (c : Cursor) :
    Makes (fun b _ ↦ terminal b e r) c (r c) [⟨e, c.pos⟩] := by
  have h : Makes (fun _ _ c made ↦ some (r c, made)) c (r c) [] := fun _ _ _ _ _ ↦ rfl
  exact h.attempt

theorem top (h : Makes r c o made) : Makes (fun b _ ↦ r b b) c o made :=
  fun _ _ _ hb _ ↦ h hb (by omega)

theorem bind (h : Makes r c (.parsed a d) made) (hf : Makes (f a) d u made') :
    Makes (fun b n ↦ r b n >>= fun a ↦ f a b n) c u (made' ++ made) := by
  intro b n before hb hn
  rw [List.length_append] at hb hn
  change andThen (r b n) _ c before = _
  rw [andThen, h (by omega) (by omega)]
  dsimp only
  rw [hf (by rw [List.length_append]; omega) (by omega), List.append_assoc]

theorem bind_failed (h : Makes r c (.failed i) made) :
    Makes (fun b n ↦ r b n >>= fun a ↦ f a b n) c (.failed i) made := by
  intro b n before hb hn
  change andThen (r b n) _ c before = _
  rw [andThen, h hb hn]

theorem bind_overlong (h : Makes r c (.overlong i) made) :
    Makes (fun b n ↦ r b n >>= fun a ↦ f a b n) c (.overlong i) made := by
  intro b n before hb hn
  change andThen (r b n) _ c before = _
  rw [andThen, h hb hn]

theorem located (h : Makes r c o made) :
    Makes (fun b n ↦ located (r b n)) c (Rule.located (fun _ ↦ o) c) made := by
  intro b n before hb hn
  dsimp only [Stepwise.located]
  rw [h hb hn]
  rfl

theorem firstOf_nil : Makes (fun _ _ ↦ firstOf []) c (.failed 0 : Outcome α) [] :=
  fun _ _ _ _ _ ↦ rfl

theorem firstOf_of_failed (h : Makes r c (.failed i) made)
    (hrs : Makes (fun b n ↦ firstOf (rs b n)) c o made') :
    Makes (fun b n ↦ firstOf (r b n :: rs b n)) c (o.afterFailure i) (made' ++ made) := by
  intro b n before hb hn
  rw [List.length_append] at hb hn
  have hrest := @hrs b n (made ++ before) (by rw [List.length_append]; omega) (by omega)
  dsimp only [firstOf] at hrest ⊢
  rw [h (by omega) (by omega), List.append_assoc]
  exact congrArg (·.map fun p ↦ (p.1.afterFailure i, p.2)) hrest

theorem firstOf_of_ne (h : Makes r c o made) (ho : ∀ i, o ≠ .failed i) :
    Makes (fun b n ↦ firstOf (r b n :: rs b n)) c o made := by
  intro b n before hb hn
  dsimp only [firstOf]
  rw [h hb hn]
  cases o with
  | failed i => exact absurd rfl (ho i)
  | _ => rfl

end Makes

namespace Loops

theorem stop (h : Makes r c (.failed i) made) (hne : 0 < made.length) :
    Loops r c (.parsed [] c) made := by
  intro b n k before hb hn hk
  obtain ⟨k, rfl⟩ : ∃ l, k = l + 1 := ⟨k - 1, by omega⟩
  rw [upTo, h hb hn]

theorem overlong (h : Makes r c (.overlong i) made) (hne : 0 < made.length) :
    Loops r c (.overlong i) made := by
  intro b n k before hb hn hk
  obtain ⟨k, rfl⟩ : ∃ l, k = l + 1 := ⟨k - 1, by omega⟩
  rw [upTo, h hb hn]

theorem round (h : Makes r c (.parsed a d) made) (hne : 0 < made.length) :
    Loops r d os made' → Loops r c (match os with
      | .parsed as e => .parsed (a :: as) e
      | other => other) (made' ++ made) := by
  intro hl b n k before hb hn hk
  rw [List.length_append] at hb hn hk
  obtain ⟨k, rfl⟩ : ∃ l, k = l + 1 := ⟨k - 1, by omega⟩
  rw [upTo, h (by omega) (by omega)]
  dsimp only
  rw [hl (by rw [List.length_append]; omega) (by omega) (by omega), List.append_assoc]
  cases os <;> rfl

theorem many : Loops r c os made → Makes (fun b n ↦ many b (r b n)) c (match os with
    | .parsed [] d => .parsed [] d.skipLayout
    | other => other) made := by
  intro h b n before hb hn
  dsimp only [Stepwise.many]
  rw [h hb hn (by omega)]
  cases os with
  | parsed as d => cases as <;> rfl
  | _ => rfl

end Loops

end Stepwise

end TypedLet.Grammar
