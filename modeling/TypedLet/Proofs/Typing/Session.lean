import TypedLet.Proofs.Grammar.Printed
import TypedLet.Proofs.Scope.Stack
import TypedLet.Proofs.Typing.Environment
import TypedLet.Typing.Session

namespace TypedLet

/-- An environment with bindings made in it one by one, the newest first. -/
def Env.push (env : Env) : List (String × Ty) → Env
  | [] => env
  | (x, ty) :: older => (env.push older).bind x ty

theorem Scope.env_push (s : Scope Ty) (bs : List (String × Ty)) :
    (s.push bs).env = s.env.push bs := by
  induction bs with
  | nil => rfl
  | cons b bs ih => rw [push, env_insert, ih, Env.push]

namespace Session

variable {s : Scope Ty} {opened : List (String × Ty)} {name : String} {ty : Ty}

def Subject.replyIn (subject : Subject) (env : Env) : Reply :=
  match subject.node with
  | .error e => .failed (.unreadable e)
  | .ok node =>
    match node.typeIn env with
    | .ok ty => .typed ty
    | .error e => .failed (.rejected e)

/-- What comes of a `within` step: the type of its name at the end, or the failure that left it. -/
def ending (ty : Ty) : Option Failure → Except Failure (Option Ty)
  | none => .ok (some ty)
  | some failure => .error failure

mutual

/-- What a step says where these bindings are open on a scope, the innermost first. Nothing is
changed or restored: the bindings are handed down. -/
def Step.answerIn (s : Scope Ty) (opened : List (String × Ty)) : Step → Answer
  | .lookup name => ⟨.found (s.env.push opened name), s.push opened⟩
  | .check subject _ => ⟨subject.replyIn (s.env.push opened), s.push opened⟩
  | .within name type body _ =>
    match readTy type with
    | .error failure => ⟨.scoped [] (.error failure), s.push opened⟩
    | .ok ty =>
      let (answers, failure) := answersIn s ((name, ty) :: opened) body
      ⟨.scoped answers (ending ty failure), s.push opened⟩

def answersIn (s : Scope Ty) (opened : List (String × Ty)) :
    List Step → List Answer × Option Failure
  | [] => ([], none)
  | step :: rest =>
    let answer := step.answerIn s opened
    match step.raised answer.reply with
    | some failure => ([answer], some failure)
    | none =>
      let (answers, failure) := answersIn s opened rest
      (answer :: answers, failure)

end

section

-- the annotation is not to be read while the equations are checked
attribute [local irreducible] readTy

theorem Step.run_within (name type : String) (body : List Step) (propagate : Bool)
    (s : Scope Ty) : (Step.within name type body propagate).run s = match readTy type with
      | .error failure => ⟨.scoped [] (.error failure), s⟩
      | .ok ty => runWithin name ty (runAll body) s := rfl

theorem Step.answerIn_within (name type : String) (body : List Step) (propagate : Bool)
    (s : Scope Ty) (opened : List (String × Ty)) :
    (Step.within name type body propagate).answerIn s opened = match readTy type with
      | .error failure => ⟨.scoped [] (.error failure), s.push opened⟩
      | .ok ty => ⟨.scoped (answersIn s ((name, ty) :: opened) body).1
          (ending ty (answersIn s ((name, ty) :: opened) body).2), s.push opened⟩ := rfl

end

theorem Step.scope_answerIn (s : Scope Ty) (opened : List (String × Ty)) (step : Step) :
    (step.answerIn s opened).scope = s.push opened := by
  cases step with
  | lookup | check => rfl
  | within name type body propagate =>
    rw [answerIn_within]
    cases readTy type <;> rfl

theorem runCheck_eq (subject : Subject) (s : Scope Ty) :
    runCheck subject s = ⟨subject.replyIn s.env, s⟩ := by
  unfold runCheck Subject.replyIn
  cases subject.node with
  | error e => rfl
  | ok node =>
    dsimp only
    rw [node.infer_computes s]
    cases node.typeIn s.env <;> rfl

theorem runWithin_eq {body : Scope Ty → List Answer × Option Failure × Scope Ty}
    {answers : List Answer} {failure : Option Failure}
    (h : body (s.insert name ty) = (answers, failure, s.insert name ty)) :
    runWithin name ty body s = ⟨.scoped answers (ending ty failure), s⟩ := by
  have hf : (s.insert name ty).get? name = some ty := by rw [s.get?_insert, if_pos rfl]
  cases failure <;>
    simp only [runWithin, Scope.within, h, hf, Scope.leave, Scope.unwind_insert, ending]

mutual

theorem Step.run_push (s : Scope Ty) (opened : List (String × Ty)) (step : Step) :
    step.run (s.push opened) = step.answerIn s opened := by
  cases step with
  | lookup name =>
    have h := congrFun (s.env_push opened) name
    exact congrArg (fun ty ↦ (⟨.found ty, s.push opened⟩ : Answer)) h
  | check subject propagate =>
    have h := runCheck_eq subject (s.push opened)
    rwa [s.env_push opened] at h
  | within name type body propagate =>
    rw [Step.run_within, Step.answerIn_within]
    cases readTy type with
    | error failure => rfl
    | ok ty => exact runWithin_eq (runAll_push s ((name, ty) :: opened) body)

/-- Steps over the one scope that is changed and restored, and steps under bindings that are
handed down, say the same and leave the scope as it was. -/
theorem runAll_push (s : Scope Ty) (opened : List (String × Ty)) (steps : List Step) :
    runAll steps (s.push opened) =
      ((answersIn s opened steps).1, (answersIn s opened steps).2, s.push opened) := by
  cases steps with
  | nil => rfl
  | cons step rest =>
    have hrest := runAll_push s opened rest
    rw [runAll, answersIn, Step.run_push s opened step, Step.scope_answerIn]
    dsimp only
    cases step.raised (step.answerIn s opened).reply with
    | some failure => rfl
    | none => rw [hrest]

end

/-- A session over one scope runs as if every binding that is open were handed down. After each
step, whatever succeeded or failed before it and however failures leave the steps around it, the
scope is the one it began on with exactly the open bindings made in it: the names have the types
of the innermost bindings and the depth counts them. A tree is typed as in that environment, the
name of a `within` step keeps its type through the whole body, and nothing is left in the end. -/
theorem session_keeps_bindings :
    (∀ (s : Scope Ty) (opened : List (String × Ty)) (step : Step),
      step.run (s.push opened) = step.answerIn s opened) ∧
    (∀ (s : Scope Ty) (opened : List (String × Ty)) (steps : List Step),
      runAll steps (s.push opened) =
        ((answersIn s opened steps).1, (answersIn s opened steps).2, s.push opened)) ∧
    (∀ (s : Scope Ty) (opened : List (String × Ty)),
      (s.push opened).env = s.env.push opened ∧
      (s.push opened).depth = s.depth + opened.length) ∧
    (∀ (s : Scope Ty) (opened : List (String × Ty)) (name : String) (ty : Ty) (steps : List Step),
      (runAll steps (s.push ((name, ty) :: opened))).2.2.get? name = some ty) ∧
    (∀ (s : Scope Ty) (step : Step), (step.run s).scope = s) ∧
    (∀ steps : List Step, run steps = answersIn .empty [] steps) ∧
    ∀ ty : Ty, readTy ty.text = .ok ty := by
  refine ⟨Step.run_push, runAll_push, fun s opened ↦ ⟨s.env_push opened, s.depth_push opened⟩,
    fun s opened name ty steps ↦ ?_, fun s step ↦ ?_, fun steps ↦ ?_, Grammar.readTy_text⟩
  · rw [runAll_push, Scope.push]
    exact (s.push opened).get?_insert name name ty |>.trans (if_pos rfl)
  · have h := Step.run_push s [] step
    rw [Scope.push] at h
    rw [h, Step.scope_answerIn, Scope.push]
  · have h := runAll_push .empty [] steps
    rw [Scope.push] at h
    rw [run, h]

end Session

end TypedLet
