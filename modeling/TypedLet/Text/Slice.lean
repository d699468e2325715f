namespace TypedLet.Text

variable {α : Type}

/-- The place that an index names among `length` items: a negative index counts from the end,
and an index beyond an end stands at that end. -/
def place (length : Nat) (i : Int) : Nat :=
  min length (if i < 0 then i + length else i).toNat

/-- The items from `start` up to `stop`, both read as places. -/
def slice (xs : List α) (start stop : Int) : List α :=
  (xs.take (place xs.length stop)).drop (place xs.length start)

/-- The item at an index that may count from the end. -/
def item? (xs : List α) (i : Int) : Option α :=
  if 0 ≤ i then xs[i.toNat]?
  else if 0 ≤ i + xs.length then xs[(i + xs.length).toNat]?
  else none

theorem place_le (length : Nat) (i : Int) : place length i ≤ length := Nat.min_le_left _ _

theorem place_natCast {length n : Nat} (h : n ≤ length) : place length n = n := by
  unfold place
  split <;> omega

theorem slice_natCast {xs : List α} {m n : Nat} (hm : m ≤ xs.length) (hn : n ≤ xs.length) :
    slice xs m n = (xs.take n).drop m := by
  rw [slice, place_natCast hm, place_natCast hn]

theorem item?_natCast (xs : List α) (n : Nat) : item? xs n = xs[n]? := by simp [item?]

end TypedLet.Text
