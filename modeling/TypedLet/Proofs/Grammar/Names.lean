import TypedLet.Proofs.Grammar.Spacing

namespace TypedLet

open Grammar Text

/-- The name that a node writes down, of a variable or of what a binder binds. -/
def Node.name? : Node → Option String
  | var x _ | letIn x _ _ _ | fn x _ _ _ _ => some x
  | _ => none

namespace Grammar

variable {d : Dialect} {s w word : List Char} {text source : String} {x : String} {n t : Node}
variable {ℓ : Level} {m : TypeLevel} {i j : Nat}

theorem TypeDerives.name?_eq_none (h : TypeDerives d s m i j n) : n.name? = none := by
  induction h with
  | int | bool | arrow => rfl
  | paren _ _ _ ih | single _ ih => exact ih

theorem Derives.isName_of_name? (h : Derives d s ℓ i j n) (hx : n.name? = some x) :
    IsName x.toList := by
  induction h with
  | reference h | letIn _ h | function _ _ h =>
    cases hx
    exact h.2
  | single _ ih | operation _ ih => exact ih hx
  | _ => cases hx

theorem isName_of_mem_parts (h : readExpression source = .ok t) (hn : n ∈ t.parts)
    (hx : n.name? = some x) : IsName x.toList := by
  obtain ⟨j, hd, -⟩ := readExpression_ok_iff.mp h
  rcases hd.parts hn with ⟨_, _, _, hd⟩ | ⟨_, _, _, hd⟩
  · exact hd.isName_of_name? hx
  · rw [hd.name?_eq_none] at hx
    cases hx

theorem readName_whole (h : readName source true = .ok x) : IsName x.toList := by
  rw [readName, if_pos rfl] at h
  obtain ⟨c, h⟩ := read_ok_iff.mp h
  obtain ⟨d, h, hd⟩ := Rule.whole_parsed h
  rw [Cursor.start_eq] at h
  rcases name_sound h (fresh_zero _) with hs | ⟨j, hj, -⟩
  · rw [hs.skipLayout_eq] at hd
    rw [Cursor.Stuck, hd] at hs
    cases hs
  · exact hj.2

theorem isNameStart_of_mem_reserved (hw : word ∈ reserved) : word.head?.any isNameStart := by
  have h : reserved.all (fun word ↦ word.head?.any isNameStart) = true := by decide
  exact List.all_eq_true.mp h word hw

/-- Where the character `$` follows a reserved word, the word is no keyword, nor is any other. -/
theorem keyword_not_parsed {word' : List Char} (hw : word ∈ reserved) (hw' : word' ∈ reserved)
    (h : Stands text.toList word (skip text.toList i) j)
    (hj : (text.toList.drop j).head? = some '$') :
    (keyword word' (.inText text i)).isParsed = false := by
  have := IsKeyword.of_reserved hw
  have := IsKeyword.of_reserved hw'
  have hfails : (keyword word').Fails (.inText text i) := by
    refine keyword_fails fun k hk ↦ ?_
    obtain ⟨hs, -, ha⟩ := keyword_iff.mp hk
    have hend : NameEnds text.toList j := by
      rw [NameEnds, hj]
      decide
    obtain rfl := stands_unique h hs IsKeyword.isNameChar IsKeyword.isNameChar hend
      (nameEnds_of_wordAfter ha)
    rw [hs.2, ← h.2, wordAfter, hj] at ha
    cases ha
  obtain ⟨pos, hp⟩ := hfails
  rw [hp]
  rfl

/-- A reserved word is read as a name exactly in front of the character `$`. -/
theorem name_reserved_iff (hw : word ∈ reserved) (hi : Fresh text.toList i) :
    (∃ c, name (.inText text i) = .parsed (String.ofList word) c) ↔
      word ++ ['$'] <+: text.toList.drop (skip text.toList i) := by
  have hkey := IsKeyword.of_reserved hw
  constructor
  · intro h
    obtain ⟨c, h⟩ := h
    obtain ⟨-, -, j, hs, -, -, rfl⟩ := name_run h
    rw [String.toList_ofList] at hs
    rcases name_sound h hi with hstuck | ⟨k, hk, -⟩
    · obtain ⟨r, hr⟩ := List.head?_eq_some_iff.mp hstuck
      rw [hs.drop_eq, List.prefix_append_right_inj]
      exact ⟨r, hr.symm⟩
    · rw [Name, String.toList_ofList] at hk
      exact absurd hw hk.2.2.2
  · intro h
    have hs : Stands text.toList word (skip text.toList i) _ :=
      ⟨(List.prefix_append word _).trans h, rfl⟩
    rw [hs.drop_eq, List.prefix_append_right_inj] at h
    obtain ⟨r, hr⟩ := h
    have hj : (text.toList.drop (skip text.toList i + word.length)).head? = some '$' := by
      rw [← hr]
      rfl
    have hfail : (reserved.any fun word ↦ (keyword word (.inText text i)).isParsed) = false :=
      List.any_eq_false.mpr fun word' hw' ↦ by simp [keyword_not_parsed hw hw' hs hj]
    have hstart : (text.toList.drop (skip text.toList i)).head?.any isNameStart := by
      rw [hs.head_eq IsKeyword.ne_nil]
      exact isNameStart_of_mem_reserved hw
    rw [name_inText, hfail, hstart, hs.takeWhile_eq IsKeyword.isNameChar (by rw [hj]; decide)]
    exact ⟨_, rfl⟩

/-- Behind the layout that a text begins with, a word stands there with tabs or without. -/
theorem prefix_expandTabs_iff (hw : ∀ c ∈ w, isVisible c) (source : String) :
    w <+: (expandTabs source).toList.dropWhile isLayout ↔
      w <+: source.toList.dropWhile isLayout := by
  have he : glyphs true ((expandTabs source).toList.dropWhile isLayout) =
      glyphs true (source.toList.dropWhile isLayout) := by
    rw [glyphs_dropWhile, glyphs_dropWhile, expandTabs, String.toList_ofList, glyphs_expandTabsFrom]
  have hh (s : List Char) : (s.dropWhile isLayout).head?.any isLayout = false := by
    have h := head_skip s 0
    rwa [skip, Nat.zero_add, List.drop_zero, drop_length_takeWhile] at h
  rw [← prefix_headWord_iff hw, headWord_congr (hh _) (hh _) he, prefix_headWord_iff hw]

theorem readName_reserved_iff (hw : word ∈ reserved) :
    readName source false = .ok (String.ofList word) ↔
      word ++ ['$'] <+: source.toList.dropWhile isLayout := by
  have hkey := IsKeyword.of_reserved hw
  have hvisible : ∀ c ∈ word ++ ['$'], isVisible c := by
    intro c hc
    rcases List.mem_append.mp hc with hc | hc
    · have hword := isWordChar_of_isNameChar (IsKeyword.isNameChar c hc)
      rw [isVisible, not_isLayout_of_isWordChar hword, Bool.not_false]
    · obtain rfl := List.mem_singleton.mp hc
      decide
  rw [← prefix_expandTabs_iff hvisible, readName, if_neg Bool.false_ne_true, read_ok_iff,
    Cursor.start_eq, name_reserved_iff hw (fresh_zero _), skip, Nat.zero_add, List.drop_zero,
    drop_length_takeWhile]

/-- No reserved word is a name in a tree that is read, nor is one the only thing in a text that is a
name; at the beginning of a text, one passes for a name in front of the character `$` alone. -/
theorem names_not_reserved :
    (∀ source t, readExpression source = .ok t →
      ∀ n ∈ t.parts, ∀ x, n.name? = some x → IsName x.toList) ∧
    (∀ source x, readName source true = .ok x → IsName x.toList) ∧
    ∀ source, ∀ word ∈ reserved, readName source false = .ok (String.ofList word) ↔
      word ++ ['$'] <+: source.toList.dropWhile isLayout :=
  ⟨fun _ _ h _ hn _ ↦ isName_of_mem_parts h hn, fun _ _ ↦ readName_whole,
    fun _ _ ↦ readName_reserved_iff⟩

theorem dollar_behind_let :
    let source := "fn (b : Int) => b"
    let t := Node.fn "b" (.intType (some ⟨source, 8, 11⟩)) (.var "b" (some ⟨source, 16, 17⟩))
      (some ⟨source, 4, 5⟩) (some ⟨source, 0, 17⟩)
    readExpression source = .ok t ∧ IsName "b".toList ∧
    readName " let1 " true = .ok "let1" ∧ IsName "let1".toList ∧
    letWord ∈ reserved ∧ readName "\tlet$" false = .ok "let" := by
  intro source t
  have h : readExpression source = .ok t := by decide +kernel
  have hx : readName " let1 " true = .ok "let1" := rfl
  have hw : letWord ∈ reserved := by decide
  have hb := names_not_reserved.1 source t h t List.mem_cons_self "b" rfl
  exact ⟨h, hb, hx, names_not_reserved.2.1 _ _ hx, hw,
    (names_not_reserved.2.2 "\tlet$" letWord hw).mpr (by decide)⟩

end Grammar

end TypedLet
