import TypedLet.Proofs.Grammar.Commitment
import TypedLet.Proofs.Grammar.Variation

namespace TypedLet

open Grammar Rule

namespace Grammar

namespace Committed

/-! The grammar again, with every part required that stands behind the mark of a chain. -/

def annotationAtom (self : Committed Node) : Committed Node :=
  firstOf [of (baseType intWord .intType), of (baseType boolWord .boolType), do
    symbol ['(']
    let inner ← self
    symbol [')']
    return inner]

def annotationBody (self : Committed Node) : Committed Node := do
  let head ← annotationAtom self
  let tail ← parts ['-', '>'] (annotationAtom self)
  return arrows head tail

def annotationUpTo : Nat → Committed Node
  | 0 => fun c ↦ .ok (.failed c.pos)
  | n + 1 => annotationBody (annotationUpTo n)

def annotation : Committed Node := fun c ↦ annotationUpTo (c.rest.length + 1) c

def chain (op : Op) (mark : List Char) (part : Committed Node) : Committed Node := do
  let head ← part
  let tail ← parts mark part
  return tail.foldl (fun a b ↦ .binary op a b (a.spanning b)) head

def paren (self : Committed Node) : Committed Node := do
  let (inner, span) ← located do
    symbol ['(']
    let inner ← self
    symbol [')']
    return inner
  return .paren inner span

def atom (limit : Nat) (self : Committed Node) : Committed Node :=
  firstOf [of (integer limit), of boolean, of reference, paren self]

def conjunction (limit : Nat) (self : Committed Node) : Committed Node :=
  chain .conj ['&', '&'] (chain .equal ['=', '='] (chain .sum ['+'] (atom limit self)))

def letIn (self : Committed Node) : Committed Node := do
  let ((x, right, body), span) ← located do
    keyword letWord
    let x ← name
    symbol ['=']
    let right ← self
    keyword inWord
    let body ← self
    return (x, right, body)
  return .letIn x right body span

def function (self : Committed Node) : Committed Node := do
  let (((x, xSpan), type, body), span) ← located do
    keyword fnWord
    symbol ['(']
    let x ← Rule.located name
    symbol [':']
    let type ← annotation
    symbol [')']
    symbol ['=', '>']
    let body ← self
    return (x, type, body)
  return .fn x type body xSpan span

def expressionBody (limit : Nat) (self : Committed Node) : Committed Node :=
  firstOf [letIn self, function self, conjunction limit self]

def expressionUpTo (limit : Nat) : Nat → Committed Node
  | 0 => fun c ↦ .ok (.failed c.pos)
  | n + 1 => expressionBody limit (expressionUpTo limit n)

def expression (limit : Nat) : Committed Node := fun c ↦
  expressionUpTo limit (c.rest.length + 1) c

def readExpression (source : String) : Except ParseError Node :=
  (expression maxDigits).whole.read source

def readAnnotation (source : String) : Except ParseError Node := annotation.whole.read source

end Committed

variable {self : Rule Node} {self' : Committed Node} {marks : List (List Char)} {limit : Nat}

/-- The marks in front of which an expression may end that drops an operand. -/
def operatorMarks : List (List Char) := [['&', '&'], ['=', '='], ['+']]

def arrowMarks : List (List Char) := [['-', '>']]

theorem enclosed_commits (h : self.Commits marks self') (hm : ∀ m ∈ marks, Diverge m [')']) :
    (do symbol ['(']; let inner ← self; symbol [')']; return inner : Rule Node).Commits []
      (do symbol ['(']; let inner ← self'; symbol [')']; return inner) :=
  (symbol_commits ['(']).andThen fun _ ↦ h.bind (fun _ ↦ (symbol_shuns hm).bind _) fun _ ↦
    ((symbol_commits [')']).returns fun _ _ ↦ ⟨_, rfl, rfl⟩).behind

theorem baseType_commits (word : List Char) [IsKeyword word] (make : Option Span → Node) :
    (baseType word make).Commits [] (.of (baseType word make)) :=
  (keyword_commits word).located.of_returns fun _ _ ↦ ⟨_, rfl⟩

theorem annotationAtom_commits (h : self.Commits arrowMarks self') :
    (annotationAtom self).Commits [] (.annotationAtom self') := by
  refine .firstOf ?_ (annotationAtom_exclusive self)
  exact .cons (baseType_commits _ _) (.cons (baseType_commits _ _)
    (.cons (enclosed_commits h (by decide)) .nil))

theorem annotationUpTo_commits (n : Nat) :
    (annotationUpTo n).Commits arrowMarks (.annotationUpTo n) := by
  induction n with
  | zero => exact fun c ↦ .failed (Nat.le_succ _)
  | succ n ih =>
    exact (annotationAtom_commits ih).chain (by decide) (by decide) fun _ _ _ ↦ ⟨_, rfl, rfl⟩

theorem annotation_commits : Commits arrowMarks annotation Committed.annotation :=
  fun c ↦ annotationUpTo_commits _ c

theorem boolean_commits : boolean.Commits [] (.of boolean) := by
  have hword (word : List Char) [IsKeyword word] (b : Bool) :
      (do keyword word; return b : Rule Bool).Commits [] (.of do keyword word; return b) :=
    (keyword_commits word).of_returns fun _ _ ↦ ⟨_, rfl⟩
  have hwords := Commits.firstOf (.cons (hword trueWord true) (.cons (hword falseWord false) .nil))
    boolean_exclusive
  change Commits [] _ (.firstOf (List.map .of [_, _])) at hwords
  rw [← Committed.of_firstOf] at hwords
  exact hwords.located.of_returns fun _ _ ↦ ⟨_, rfl⟩

theorem chain_commits (op : Op) {mark : List Char} {part : Rule Node} {part' : Committed Node}
    (h : part.Commits marks part') (hm : ∀ m ∈ marks, Diverge m mark) (hne : mark ≠ []) :
    (chain op mark part).Commits (mark :: marks) (.chain op mark part') :=
  h.chain hm hne fun _ _ _ ↦ ⟨_, rfl, rfl⟩

section

variable (h : self.Commits operatorMarks self')

include h

theorem atom_commits : (atom limit self).Commits [] (.atom limit self') := by
  refine .firstOf ?_ (atom_exclusive limit self)
  have hinteger : (integer limit).Commits [] (.of (integer limit)) :=
    (numeral_commits limit).located.of_returns fun _ _ ↦ ⟨_, rfl⟩
  have hreference : reference.Commits [] (.of reference) :=
    name_commits.located.of_returns fun _ _ ↦ ⟨_, rfl⟩
  have hparen : (paren self).Commits [] (.paren self') :=
    (enclosed_commits h (by decide)).located.returns fun _ _ ↦ ⟨_, rfl, rfl⟩
  exact .cons hinteger (.cons boolean_commits (.cons hreference (.cons hparen .nil)))

theorem conjunction_commits :
    (conjunction limit self).Commits operatorMarks (.conjunction limit self') := by
  have hatom : (atom limit self).Commits [] (.atom limit self') := atom_commits h
  have hsum := chain_commits .sum hatom (List.forall_mem_nil _) (List.cons_ne_nil '+' [])
  have hequality := chain_commits .equal hsum (by decide) (List.cons_ne_nil '=' ['='])
  exact chain_commits .conj hequality (by decide) (by decide)

theorem letIn_commits : (letIn self).Commits operatorMarks (.letIn self') := by
  refine Commits.returns (Commits.located ?_) fun _ _ ↦ ⟨_, rfl, rfl⟩
  refine (keyword_commits letWord).andThen fun _ ↦ (name_commits.andThen fun _ ↦ ?_).behind
  refine ((symbol_commits ['=']).andThen fun _ ↦ ?_).behind
  refine h.bind (fun _ ↦ (keyword_shuns (by decide)).bind _) fun _ ↦ ?_
  exact ((keyword_commits inWord).andThen fun _ ↦ (h.returns fun _ _ ↦ ⟨_, rfl, rfl⟩).behind).behind

theorem function_commits : (function self).Commits operatorMarks (.function self') := by
  refine Commits.returns (Commits.located ?_) fun _ _ ↦ ⟨_, rfl, rfl⟩
  refine (keyword_commits fnWord).andThen fun _ ↦ ((symbol_commits ['(']).andThen fun _ ↦ ?_).behind
  refine (name_commits.located.andThen fun _ ↦ ?_).behind
  refine ((symbol_commits [':']).andThen fun _ ↦ ?_).behind
  refine annotation_commits.bind (fun _ ↦ (symbol_shuns (by decide)).bind _) fun _ ↦ ?_
  refine ((symbol_commits [')']).andThen fun _ ↦ ?_).behind
  refine ((symbol_commits ['=', '>']).andThen fun _ ↦ ?_).behind
  exact (h.returns fun _ _ ↦ ⟨_, rfl, rfl⟩).behind

end

theorem expressionUpTo_commits (limit n : Nat) :
    (expressionUpTo limit n).Commits operatorMarks (.expressionUpTo limit n) := by
  induction n with
  | zero => exact fun c ↦ .failed (Nat.le_succ _)
  | succ n ih =>
    refine .firstOf ?_ (expressionBody_exclusive limit _)
    exact .cons (letIn_commits ih) (.cons (function_commits ih) (.cons (conjunction_commits ih) .nil))

theorem expression_commits (limit : Nat) :
    (expression limit).Commits operatorMarks (.expression limit) :=
  fun c ↦ expressionUpTo_commits limit _ c

end Grammar

/-- Both readings return the same tree, or meet the same numeral that is too long, or both stop at a
mistake, the second at the same place or further on. -/
inductive StopsNoEarlier : Except ParseError Node → Except ParseError Node → Prop
  | ok {t} : StopsNoEarlier (.ok t) (.ok t)
  | unexpected {text i j} : i ≤ j →
      StopsNoEarlier (.error (.unexpected ⟨text, i⟩)) (.error (.unexpected ⟨text, j⟩))
  | overlong {n} : StopsNoEarlier (.error (.overlong n)) (.error (.overlong n))

namespace Grammar

theorem Rule.Commits.read {r : Rule Node} {r' : Committed Node} {marks : List (List Char)}
    (h : r.Commits marks r') (hne : [] ∉ marks) (source : String) :
    StopsNoEarlier (r.whole.read source) (r'.whole.read source) := by
  have ho := h.whole hne (.start (Text.expandTabs source))
  rw [Rule.read, Committed.read]
  generalize r.whole _ = o, r'.whole _ = o' at ho
  cases ho with
  | parsed => exact .ok
  | failed => exact .unexpected (Nat.le_refl _)
  | overlong => exact .overlong
  | dropped _ hface =>
    obtain ⟨m, hm, -⟩ := hface
    cases hm
  | final _ hj => exact .unexpected hj

/-- In whatever order alternatives are tried, every text is read with the same outcome. Where reading
ends as soon as a part behind the mark of a chain cannot be read, the same trees are read, and a
mistake is found no earlier. -/
theorem alternatives_immaterial (o : Order) (source : String) :
    (o.readExpression source = readExpression source ∧
      o.readAnnotation source = readAnnotation source) ∧
    StopsNoEarlier (readExpression source) (Committed.readExpression source) ∧
    StopsNoEarlier ( readAnnotation source) (Committed.readAnnotation source) := by
  refine ⟨⟨?_, ?_⟩, (expression_commits maxDigits).read (by decide) source,
    annotation_commits.read (by decide) source⟩
  · rw [Order.readExpression, Order.expression_eq, readExpression]
  · rw [Order.readAnnotation, Order.annotation_eq, readAnnotation]

example : readExpression "1 + " = .error (.unexpected ⟨"1 + ", 2⟩) ∧
    Committed.readExpression "1 + " = .error (.unexpected ⟨"1 + ", 4⟩) := by
  decide +kernel

end Grammar

end TypedLet
