namespace TypedLet

/-- A table of names. A name keeps its place when it gets a new value. -/
structure Table (α : Type) where
  entries : List (String × α)
deriving DecidableEq

namespace Table

variable {α : Type}

def empty : Table α := ⟨[]⟩

def findEntry (name : String) : List (String × α) → Option α
  | [] => none
  | (x, v) :: es => if x = name then some v else findEntry name es

def setEntry (name : String) (value : α) : List (String × α) → List (String × α)
  | [] => [(name, value)]
  | (x, v) :: es => if x = name then (x, value) :: es else (x, v) :: setEntry name value es

def eraseEntry (name : String) : List (String × α) → List (String × α)
  | [] => []
  | (x, v) :: es => if x = name then es else (x, v) :: eraseEntry name es

def get? (t : Table α) (name : String) : Option α := findEntry name t.entries

def set (t : Table α) (name : String) (value : α) : Table α := ⟨setEntry name value t.entries⟩

def erase (t : Table α) (name : String) : Table α := ⟨eraseEntry name t.entries⟩

theorem findEntry_setEntry (name other : String) (value : α) (es : List (String × α)) :
    findEntry other (setEntry name value es) =
      if other = name then some value else findEntry other es := by
  induction es with
  | nil => simp [setEntry, findEntry, eq_comm]
  | cons e es ih =>
    obtain ⟨x, v⟩ := e
    by_cases hx : x = name
    · subst hx
      by_cases h : other = x
      · simp [setEntry, findEntry, h]
      · simp [setEntry, findEntry, h, Ne.symm h]
    · by_cases h : x = other
      · subst h
        simp [setEntry, findEntry, hx]
      · simp [setEntry, findEntry, hx, h, ih]

theorem setEntry_setEntry {name : String} {old : α} (value : α) {es : List (String × α)}
    (h : findEntry name es = some old) : setEntry name old (setEntry name value es) = es := by
  induction es with
  | nil => simp [findEntry] at h
  | cons e es ih =>
    obtain ⟨x, v⟩ := e
    by_cases hx : x = name
    · simp only [findEntry, if_pos hx, Option.some.injEq] at h
      simp [setEntry, hx, h]
    · simp only [findEntry, if_neg hx] at h
      simp [setEntry, hx, ih h]

theorem eraseEntry_setEntry {name : String} (value : α) {es : List (String × α)}
    (h : findEntry name es = none) : eraseEntry name (setEntry name value es) = es := by
  induction es with
  | nil => simp [setEntry, eraseEntry]
  | cons e es ih =>
    by_cases hx : e.1 = name
    · simp [findEntry, hx] at h
    · simp only [findEntry, if_neg hx] at h
      simp [setEntry, eraseEntry, hx, ih h]

theorem get?_empty (name : String) : (empty : Table α).get? name = none := rfl

theorem get?_set (t : Table α) (name other : String) (value : α) :
    (t.set name value).get? other = if other = name then some value else t.get? other :=
  findEntry_setEntry name other value t.entries

theorem set_set_of_get? {t : Table α} {name : String} {old : α} (value : α)
    (h : t.get? name = some old) : (t.set name value).set name old = t := by
  cases t
  exact congrArg _ (setEntry_setEntry value h)

theorem erase_set_of_get? {t : Table α} {name : String} (value : α)
    (h : t.get? name = none) : (t.set name value).erase name = t := by
  cases t
  exact congrArg _ (eraseEntry_setEntry value h)

end Table

end TypedLet
