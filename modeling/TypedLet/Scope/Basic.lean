import TypedLet.Scope.Table
import TypedLet.Text.Quoted

namespace TypedLet

/-- A name that was bound anew, with the value it had before, if it had one. -/
structure Change (α : Type) where
  name : String
  old : Option α
deriving DecidableEq

inductive Fault where
  | emptyJournal
  | missingName (name : String)
deriving DecidableEq

def Fault.message : Fault → String
  | emptyJournal => "pop from empty list"
  | missingName x => Text.quote x

/-- One table for all names in sight, with a journal of its changes, the newest first. -/
structure Scope (α : Type) where
  table : Table α
  journal : List (Change α)
deriving DecidableEq

variable {α β ε : Type}

/-- Takes a change back. A name that had no value must be there to be erased. -/
def Table.revert (t : Table α) (change : Change α) : Except Fault (Table α) :=
  match change.old with
  | some v => .ok (t.set change.name v)
  | none =>
    if (t.get? change.name).isSome then .ok (t.erase change.name)
    else .error (.missingName change.name)

namespace Scope

def empty : Scope α := ⟨.empty, []⟩

def get? (s : Scope α) (name : String) : Option α := s.table.get? name

def depth (s : Scope α) : Nat := s.journal.length

def insert (s : Scope α) (name : String) (value : α) : Scope α :=
  ⟨s.table.set name value, ⟨name, s.get? name⟩ :: s.journal⟩

/-- Takes changes back, the newest first, until no more than `n` are left. Below zero there is
no such point: all are taken back, and then one more is missing. -/
def revertTo (n : Int) (table : Table α) :
    List (Change α) → EStateM.Result Fault (Scope α) Unit
  | [] => if n < 0 then .error .emptyJournal ⟨table, []⟩ else .ok () ⟨table, []⟩
  | change :: older =>
    if n < (change :: older).length then
      match table.revert change with
      | .ok t => revertTo n t older
      | .error fault => .error fault ⟨table, older⟩
    else .ok () ⟨table, change :: older⟩

def unwind (n : Int) : EStateM Fault (Scope α) Unit := fun s ↦ revertTo n s.table s.journal

/-- Leaves a scope that was entered at depth `n`, with the result of what was done in it. -/
def leave (onFault : Fault → ε) (n : Nat) (result : EStateM.Result ε (Scope α) β) :
    EStateM.Result ε (Scope α) β :=
  match result with
  | .ok b s =>
    match unwind n s with
    | .ok _ t => .ok b t
    | .error fault t => .error (onFault fault) t
  | .error e s =>
    match unwind n s with
    | .ok _ t => .error e t
    | .error fault t => .error (onFault fault) t

/-- Runs `body` with a name bound, and takes all changes back, however `body` ends. -/
def within (onFault : Fault → ε) (name : String) (value : α) (body : EStateM ε (Scope α) β) :
    EStateM ε (Scope α) β := fun s ↦
  leave onFault s.depth (body (s.insert name value))

theorem get?_insert (s : Scope α) (name other : String) (value : α) :
    (s.insert name value).get? other = if other = name then some value else s.get? other :=
  s.table.get?_set name other value

theorem depth_insert (s : Scope α) (name : String) (value : α) :
    (s.insert name value).depth = s.depth + 1 := rfl

theorem unwind_of_depth_le {s : Scope α} {n : Nat} (h : s.depth ≤ n) : unwind n s = .ok () s := by
  obtain ⟨t, _ | ⟨c, cs⟩⟩ := s
  · simp [unwind, revertTo]
  · have hn : ¬ (n : Int) < (c :: cs).length := by
      have : (c :: cs).length ≤ n := h
      omega
    simp only [unwind, revertTo, if_neg hn]

theorem revert_insert (s : Scope α) (name : String) (value : α) :
    (s.insert name value).table.revert ⟨name, s.get? name⟩ = .ok s.table := by
  cases h : s.get? name with
  | some old => simp [Table.revert, insert, Table.set_set_of_get? value h]
  | none => simp [Table.revert, insert, Table.get?_set, Table.erase_set_of_get? value h]

theorem unwind_insert (s : Scope α) (name : String) (value : α) :
    unwind s.depth (s.insert name value) = .ok () s := by
  have hn : (s.depth : Int) < (Change.mk name (s.get? name) :: s.journal).length := by
    simp only [depth, List.length_cons]
    omega
  have hr := revert_insert s name value
  simp only [insert] at hr
  simp only [unwind, insert, revertTo, if_pos hn, hr]
  exact unwind_of_depth_le (Nat.le_refl _)

end Scope

end TypedLet
