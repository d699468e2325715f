import TypedLet.Proofs.Text.Surroundings

namespace TypedLet.Span

open Text

/-- What stands in front of a line with a number. -/
def label (n : Nat) : List Char := (decimal n).toList.leftpad numberWidth ' ' ++ [':', ' ']

/-- The marks below a stretch: as many as it has characters before its first line feed, one at
least, and a sign at the end if it has a line feed. -/
def marks (marker : Char) (text : List Char) : List Char :=
  List.replicate (max 1 (text.takeWhile (· ≠ '\n')).length) marker ++
    if '\n' ∈ text then ['↵'] else []

variable {a : Span} {src : String} {above : List (List Char)} {left right below : List Char}
variable {start stop before n w : Nat} {marker : Char}

theorem marks_take (hr : '\n' ∉ right) (hb : below = [] ∨ below.head? = some '\n')
    (hw : w ≤ (right ++ below).length) (marker : Char) :
    marks marker ((right ++ below).take w) =
      List.replicate (max 1 (min w right.length)) marker ++
        if right.length < w then ['↵'] else [] := by
  have hne : ∀ c ∈ right, decide (c ≠ '\n') = true :=
    fun c hc ↦ decide_eq_true fun h ↦ hr (h ▸ hc)
  rw [marks]
  rcases Nat.lt_or_ge right.length w with hlt | hle
  · obtain ⟨t, rfl⟩ : ∃ t, below = '\n' :: t := by
      rcases hb with rfl | hb
      · rw [List.append_nil] at hw
        omega
      · exact List.head?_eq_some_iff.mp hb
    obtain ⟨m, rfl⟩ := Nat.exists_eq_add_of_lt hlt
    have ht : (right ++ '\n' :: t).take (right.length + m + 1) = right ++ '\n' :: t.take m := by
      rw [Nat.add_assoc, List.take_length_add_append]
      rfl
    rw [ht, List.takeWhile_append_of_pos hne, List.takeWhile_cons_of_neg (by simp), List.append_nil,
      if_pos (by simp), if_pos hlt, Nat.min_eq_right (by omega)]
  · rw [List.take_append_of_le_length hle, if_neg (fun h ↦ hr (List.mem_of_mem_take h)),
      if_neg (by omega), List.takeWhile_eq_self_iff.mpr fun c hc ↦ hne c (List.mem_of_mem_take hc),
      List.length_take]

theorem toList_text (h : Around src.toList start above left right below) (hstart : start ≤ stop)
    (hstop : stop ≤ src.toList.length) :
    (Span.mk src start stop).text.toList = (right ++ below).take (stop - start) := by
  rw [text, String.toList_ofList, slice_natCast (by omega) hstop, List.drop_take, h.drop_eq]

theorem toList_join_replicate (n : Nat) (marker : Char) :
    (String.join (List.replicate n (String.singleton marker))).toList =
      List.replicate n marker := by
  rw [String.toList_join]
  induction n with
  | zero => rfl
  | succ n ih =>
    rw [List.replicate_succ, List.flatMap_cons, ih, List.replicate_succ, String.toList_singleton]
    rfl

theorem underline_eq (h : Around src.toList start above left right below) (hstart : start ≤ stop)
    (hstop : stop ≤ src.toList.length) (marker : Char) :
    (Span.mk src start stop).underline (String.singleton marker) = String.ofList
      (List.replicate (numberWidth + 2 + left.length) ' ' ++
        marks marker (Span.mk src start stop).text.toList) := by
  have hline : lineText src.toList (above.length + 1) = left ++ right := by
    rw [h.lineText_eq (Nat.le_refl _)]
    simp
  have hcolumn : (start : Int) - lineStart src.toList (above.length + 1) = left.length := by
    rw [h.lineStart_eq, h.place]
    omega
  have hroom : ((left ++ right).length : Int) - left.length = right.length := by
    rw [List.length_append]
    omega
  have hwidth : (stop : Int) - start = (stop - start : Nat) := by omega
  have hinside : stop - start ≤ (right ++ below).length := by
    rw [← h.drop_eq, List.length_drop]
    omega
  have hright : '\n' ∉ right := fun hc ↦ h.line (List.mem_append_right _ hc)
  apply String.toList_inj.mp
  rw [toList_text h hstart hstop, marks_take hright h.below_head hinside, underline]
  simp only [h.lineAt_eq, hline, hcolumn, hroom, hwidth, String.toList_append, String.toList_ofList,
    toList_join_replicate, List.append_assoc, gt_iff_lt, Int.ofNat_lt, apply_ite String.toList]
  congr 2
  congr 1
  omega

example : (Span.mk "ab\ncde\nf" 4 8).excerptWith "^" 3 = "    1: ab\n    2: cde\n        ^^↵" := by
  decide

end TypedLet.Span
