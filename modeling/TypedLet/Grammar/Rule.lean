import TypedLet.Grammar.Cursor

namespace TypedLet.Grammar

variable {α β : Type}

/-- How reading ends: with a value and the place after it, with the place that could not be
read, or at a numeral that is too long to be a number. -/
inductive Outcome (α : Type) where
  | parsed (value : α) (next : Cursor)
  | failed (pos : Nat)
  | overlong (digits : Nat)

def Outcome.isParsed : Outcome α → Bool
  | parsed .. => true
  | _ => false

/-- A later attempt after one that failed at `pos`: the failure further on is the one to
report. -/
def Outcome.afterFailure (pos : Nat) : Outcome α → Outcome α
  | failed q => failed (max pos q)
  | other => other

def Rule (α : Type) : Type := Cursor → Outcome α

namespace Rule

def succeed (a : α) : Rule α := fun c ↦ .parsed a c

def andThen (r : Rule α) (f : α → Rule β) : Rule β := fun c ↦
  match r c with
  | .parsed a d => f a d
  | .failed pos => .failed pos
  | .overlong n => .overlong n

instance : Monad Rule where
  pure := succeed
  bind := andThen

/-- The first of the rules that can read on. A numeral that is too long ends the search. -/
def firstOf : List (Rule α) → Rule α
  | [], _ => .failed 0
  | r :: rs, c =>
    match r c with
    | .failed pos => (firstOf rs c).afterFailure pos
    | other => other

/-- A rule again and again, at most `n` times, until it fails. That last failure is forgotten. -/
def upTo (r : Rule α) : Nat → Rule (List α)
  | 0, c => .parsed [] c
  | n + 1, c =>
    match r c with
    | .parsed a d =>
      match upTo r n d with
      | .parsed as e => .parsed (a :: as) e
      | other => other
    | .failed _ => .parsed [] c
    | .overlong k => .overlong k

/-- A rule as often as it can read on; each time takes at least one character. Where it cannot
read on even once, the layout ahead is passed over all the same. -/
def many (r : Rule α) : Rule (List α) := fun c ↦
  match r.upTo c.rest.length c with
  | .parsed [] d => .parsed [] d.skipLayout
  | other => other

/-- A value with the stretch it was read from, without the layout before it. -/
def located (r : Rule α) : Rule (α × Span) := fun c ↦
  match r c with
  | .parsed a d => .parsed (a, c.skipLayout.spanTo d) d
  | .failed pos => .failed pos
  | .overlong n => .overlong n

/-- A rule that leaves nothing but layout. -/
def whole (r : Rule α) : Rule α := fun c ↦
  match r c with
  | .parsed a d =>
    let e := d.skipLayout
    if e.rest.isEmpty then .parsed a e else .failed e.pos
  | other => other

theorem pure_apply (a : α) (c : Cursor) : (pure a : Rule α) c = .parsed a c := rfl

theorem bind_apply (r : Rule α) (f : α → Rule β) (c : Cursor) :
    (r >>= f) c = match r c with
      | .parsed a d => f a d
      | .failed pos => .failed pos
      | .overlong n => .overlong n := rfl

theorem pure_andThen (a : α) (f : α → Rule β) : (succeed a).andThen f = f a := rfl

theorem andThen_pure (r : Rule α) : r.andThen succeed = r := by
  funext c
  cases h : r c <;> simp [andThen, succeed, h]

end Rule

end TypedLet.Grammar
