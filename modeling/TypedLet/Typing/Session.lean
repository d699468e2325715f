import TypedLet.Typing.Program

namespace TypedLet.Session

/-- What is to be typed: a text still to be read, or a tree. -/
inductive Subject where
  | source (text : String)
  | tree (node : Node)

def Subject.node : Subject → Except ParseError Node
  | source text => Grammar.readExpression text
  | tree node => .ok node

/-- A step on one scope. A failing step that propagates ends the steps around it as well. -/
inductive Step where
  | lookup (name : String)
  | check (subject : Subject) (propagate : Bool)
  | within (name type : String) (body : List Step) (propagate : Bool)

mutual

structure Answer where
  reply : Reply
  scope : Scope Ty

inductive Reply where
  | found (ty : Option Ty)
  | typed (ty : Ty)
  | failed (failure : Failure)
  | scoped (body : List Answer) (result : Except Failure (Option Ty))

end

/-- The failure that a step raises on, if any. -/
def Step.raised : Step → Reply → Option Failure
  | check _ true, .failed failure => some failure
  | within _ _ _ true, .scoped _ (.error failure) => some failure
  | _, _ => none

def runCheck (subject : Subject) (s : Scope Ty) : Answer :=
  match subject.node with
  | .error e => ⟨.failed (.unreadable e), s⟩
  | .ok node =>
    match node.infer s with
    | .ok ty t => ⟨.typed ty, t⟩
    | .error e t => ⟨.failed (.rejected e), t⟩

/-- Runs `body` with `name` bound to a type and looks the name up at the end. The answers given
until then are kept when a failure ends the body. -/
def runWithin (name : String) (ty : Ty)
    (body : Scope Ty → List Answer × Option Failure × Scope Ty) (s : Scope Ty) : Answer :=
  let act : EStateM (List Answer × Failure) (Scope Ty) (List Answer × Option Ty) := fun t ↦
    match body t with
    | (answers, none, u) => .ok (answers, u.get? name) u
    | (answers, some failure, u) => .error (answers, failure) u
  match Scope.within (fun cause ↦ ([], .rejected (.rollback cause))) name ty act s with
  | .ok (answers, found) t => ⟨.scoped answers (.ok found), t⟩
  | .error (answers, failure) t => ⟨.scoped answers (.error failure), t⟩

mutual

def Step.run : Step → Scope Ty → Answer
  | .lookup name, s => ⟨.found (s.get? name), s⟩
  | .check subject _, s => runCheck subject s
  | .within name type body _, s =>
    match readTy type with
    | .error failure => ⟨.scoped [] (.error failure), s⟩
    | .ok ty => runWithin name ty (runAll body) s

/-- The answers of the steps, up to the first that raises a failure on. -/
def runAll : List Step → Scope Ty → List Answer × Option Failure × Scope Ty
  | [], s => ([], none, s)
  | step :: rest, s =>
    let answer := step.run s
    match step.raised answer.reply with
    | some failure => ([answer], some failure, answer.scope)
    | none =>
      let (answers, failure, t) := runAll rest answer.scope
      (answer :: answers, failure, t)

end

/-- The answers of a session, and the failure that ended it before its last step, if one did. -/
def run (steps : List Step) : List Answer × Option Failure :=
  let (answers, failure, _) := runAll steps .empty
  (answers, failure)

end TypedLet.Session
