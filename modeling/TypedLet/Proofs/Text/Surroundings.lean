import Mathlib.Data.List.TakeWhile
import TypedLet.Proofs.Text.Lines

namespace TypedLet.Text

/-- A text around a place: the lines above it, what its own line has before it and behind it, and
what comes after that line. -/
structure Around (s : List Char) (i : Nat) (above : List (List Char))
    (left right below : List Char) : Prop where
  text : s = above.flatMap (· ++ ['\n']) ++ (left ++ (right ++ below))
  place : i = (above.flatMap (· ++ ['\n'])).length + left.length
  above_lines : ∀ l ∈ above, '\n' ∉ l
  line : '\n' ∉ left ++ right
  below_head : below = [] ∨ below.head? = some '\n'

variable {s l t left right below : List Char} {ls above : List (List Char)} {i n : Nat}

theorem lines_append_newline (h : '\n' ∉ l) (t : List Char) :
    lines (l ++ '\n' :: t) = l :: lines t := by
  induction l with
  | nil => rfl
  | cons c l ih =>
    obtain ⟨hc, hl⟩ := not_or.mp (h ∘ List.mem_cons.mpr)
    rw [List.cons_append, lines, if_neg (Ne.symm hc), ih hl]
    rfl

theorem lines_flatMap_append (h : ∀ l ∈ ls, '\n' ∉ l) (t : List Char) :
    lines (ls.flatMap (· ++ ['\n']) ++ t) = ls ++ lines t := by
  induction ls with
  | nil => rfl
  | cons l ls ih =>
    obtain ⟨hl, hls⟩ := List.forall_mem_cons.mp h
    rw [List.flatMap_cons, List.append_assoc, List.append_assoc]
    exact (lines_append_newline hl _).trans (congrArg (l :: ·) (ih hls))

theorem lineStartsFrom_append (h : '\n' ∉ l) (i : Nat) (t : List Char) :
    lineStartsFrom i (l ++ t) = lineStartsFrom (i + l.length) t := by
  induction l generalizing i with
  | nil => rfl
  | cons c l ih =>
    obtain ⟨hc, hl⟩ := not_or.mp (h ∘ List.mem_cons.mpr)
    rw [List.cons_append, lineStartsFrom, if_neg (Ne.symm hc), ih hl, List.length_cons,
      Nat.add_assoc, Nat.add_comm 1]

theorem getElem?_lineStartsFrom (h : ∀ l ∈ ls, '\n' ∉ l) (i : Nat) (t : List Char) :
    (i :: lineStartsFrom i (ls.flatMap (· ++ ['\n']) ++ t))[ls.length]? =
      some (i + (ls.flatMap (· ++ ['\n'])).length) := by
  induction ls generalizing i with
  | nil => rfl
  | cons l ls ih =>
    obtain ⟨hl, hls⟩ := List.forall_mem_cons.mp h
    have hstart : lineStartsFrom i ((l :: ls).flatMap (· ++ ['\n']) ++ t) = (i + l.length + 1) ::
        lineStartsFrom (i + l.length + 1) (ls.flatMap (· ++ ['\n']) ++ t) := by
      rw [List.flatMap_cons, List.append_assoc, List.append_assoc, lineStartsFrom_append hl]
      rfl
    rw [hstart, List.length_cons, List.getElem?_cons_succ, ih hls, List.flatMap_cons]
    simp only [List.length_append, List.length_singleton, Nat.add_assoc]

theorem countP_lineStartsFrom (i k : Nat) (s : List Char) :
    (lineStartsFrom k s).countP (fun (start : Nat) ↦ (start : Int) ≤ (i : Int)) =
      (s.take (i - k)).count '\n' := by
  induction s generalizing k with
  | nil => simp [lineStartsFrom]
  | cons c s ih =>
    rw [lineStartsFrom]
    rcases Nat.lt_or_ge k i with hk | hk
    · obtain ⟨m, hm⟩ := Nat.exists_eq_add_of_lt hk
      have hi : i - k = (i - (k + 1)) + 1 := by omega
      rw [hi, List.take_succ_cons, List.count_cons, ← ih]
      split
      next hc =>
        rw [List.countP_cons_of_pos (by simp; omega), hc]
        simp
      next hc => simp [hc]
    · have h0 : i - k = 0 := by omega
      have h1 : i - (k + 1) = 0 := by omega
      have hs := ih (k + 1)
      rw [h1, List.take_zero, List.count_nil] at hs
      rw [h0, List.take_zero, List.count_nil]
      split
      · rw [List.countP_cons_of_neg (by simp; omega), hs]
      · exact hs

/-- The number of a line is that of the line feeds above it, counted from one. -/
theorem lineAt_natCast (s : List Char) (i : Nat) : lineAt s i = (s.take i).count '\n' + 1 := by
  rw [lineAt, lineStarts, List.countP_cons_of_pos (by simp), countP_lineStartsFrom, Nat.sub_zero]

theorem count_flatMap_lines (h : ∀ l ∈ ls, '\n' ∉ l) :
    (ls.flatMap (· ++ ['\n'])).count '\n' = ls.length := by
  have hl := length_lines (ls.flatMap (· ++ ['\n']) ++ [])
  rw [lines_flatMap_append h, List.append_nil] at hl
  simpa [lines] using hl.symm

namespace Around

theorem take_eq (h : Around s i above left right below) :
    s.take i = above.flatMap (· ++ ['\n']) ++ left := by
  rw [h.text, ← List.append_assoc, List.take_left' (by rw [List.length_append, h.place])]

theorem drop_eq (h : Around s i above left right below) : s.drop i = right ++ below := by
  rw [h.text, ← List.append_assoc, List.drop_left' (by rw [List.length_append, h.place])]

theorem lineAt_eq (h : Around s i above left right below) : lineAt s i = above.length + 1 := by
  have hl : '\n' ∉ left := fun hc ↦ h.line (List.mem_append_left _ hc)
  rw [lineAt_natCast, h.take_eq, List.count_append, count_flatMap_lines h.above_lines,
    List.count_eq_zero.mpr hl]

theorem lineStart_eq (h : Around s i above left right below) :
    lineStart s (above.length + 1) = (above.flatMap (· ++ ['\n'])).length := by
  have hi : ((above.length + 1 : Nat) : Int) - 1 = (above.length : Nat) := by omega
  have hs := getElem?_lineStartsFrom h.above_lines 0 (left ++ (right ++ below))
  rw [← h.text] at hs
  rw [lineStart, hi, item?_natCast, lineStarts, hs, Option.getD_some, Nat.zero_add]

theorem lines_eq (h : Around s i above left right below) :
    ∃ rest, lines s = above ++ (left ++ right) :: rest := by
  rw [h.text, lines_flatMap_append h.above_lines, ← List.append_assoc]
  rcases h.below_head with rfl | hb
  · rw [List.append_nil, lines_eq_singleton h.line]
    exact ⟨[], rfl⟩
  · obtain ⟨t, rfl⟩ := List.head?_eq_some_iff.mp hb
    rw [lines_append_newline h.line]
    exact ⟨_, rfl⟩

theorem lineText_eq (h : Around s i above left right below) (hn : n ≤ above.length) :
    lineText s (n + 1) = ((above ++ [left ++ right])[n]?).getD [] := by
  obtain ⟨rest, hs⟩ := h.lines_eq
  have hi : ((n + 1 : Nat) : Int) - 1 = (n : Nat) := by omega
  rw [lineText, hi, item?_natCast, hs, List.append_cons]
  rw [List.getElem?_append_left (by rw [List.length_append, List.length_singleton]; omega)]

end Around

end TypedLet.Text
