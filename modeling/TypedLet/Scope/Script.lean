import TypedLet.Scope.Basic

namespace TypedLet.Scope

variable {α : Type}

inductive Action (α : Type) where
  | insert (name : String) (value : α)
  | get (name : String)
  | unwind (n : Int)
  | enter
  | leave (raised : Bool)

/-- A scope and the depths at which the scopes still open in it were entered, the innermost
first. -/
structure Moment (α : Type) where
  scope : Scope α
  opened : List Nat

inductive Reply (α : Type) where
  | done
  | value (found : Option α)
  | entered
  | left (raised : Bool)
  | fault (cause : Fault)

def Moment.start : Moment α := ⟨.empty, []⟩

/-- Takes changes back and says `reply`, unless that fails. -/
def Moment.unwound (m : Moment α) (n : Int) (reply : Reply α) : Reply α × Moment α :=
  match Scope.unwind n m.scope with
  | .ok _ s => (reply, { m with scope := s })
  | .error cause s => (.fault cause, { m with scope := s })

/-- One action. A scope is left in the same way whether or not an error leaves with it. -/
def Action.perform (m : Moment α) : Action α → Reply α × Moment α
  | insert name value => (.done, { m with scope := m.scope.insert name value })
  | get name => (.value (m.scope.get? name), m)
  | unwind n => m.unwound n .done
  | enter => (.entered, { m with opened := m.scope.depth :: m.opened })
  | leave raised =>
    match m.opened with
    | [] => (.fault .emptyJournal, m)
    | n :: outer => Moment.unwound { m with opened := outer } n (.left raised)

/-- What every action of a script says, and the scope after it. A fault stops nothing. -/
def transcript (m : Moment α) : List (Action α) → List (Reply α × Scope α)
  | [] => []
  | action :: rest =>
    let (reply, next) := action.perform m
    (reply, next.scope) :: transcript next rest

end TypedLet.Scope
