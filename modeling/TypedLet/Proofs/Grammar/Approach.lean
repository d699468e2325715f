import TypedLet.Proofs.Grammar.Literals
import TypedLet.Proofs.Grammar.Lockstep
import TypedLet.Proofs.Grammar.Prefix

namespace TypedLet.Grammar

/-- Two texts are the same up to a place where a numeral begins in both. -/
structure Parting (s s' : List Char) (p : Nat) : Prop where
  take_eq : s'.take p = s.take p
  begins : BeginsNumeral s p
  begins' : BeginsNumeral s' p

/-- Two readings up to a place, of which the first ends at the numeral there, for its `n` digits. -/
def approach (text text' : String) (p n : Nat) : Pace where
  Abreast c c' := ∃ i ≤ p, c = .inText text i ∧ c' = .inText text' i
  ahead c := p + 1 - c.pos
  Fault _ _ := True
  Over _ _ := True
  Halts digits := digits = n

variable {text text' : String} {s s' w mark word : List Char} {f : Char → Bool} {α : Type} {a : α}
variable {limit i j k m n p q : Nat}

theorem BeginsNumeral.lt_length (h : BeginsNumeral s p) : p < s.length := by
  by_contra hle
  have hd := h.1
  rw [List.drop_eq_nil_of_le (Nat.not_lt.mp hle)] at hd
  cases hd

theorem BeginsNumeral.head_isNameStart (h : BeginsNumeral s p) :
    (s.drop p).head?.any isNameStart = false := by
  have hd := h.1
  cases hc : (s.drop p).head? with
  | none => rfl
  | some c =>
    rw [hc] at hd
    by_contra hstart
    have hc := not_isDigit_of_isNameStart (c := c) (by simpa using hstart)
    rw [Option.any_some, hc] at hd
    cases hd

theorem BeginsNumeral.isEmpty_drop (h : BeginsNumeral s p) (hk : k ≤ p) :
    (s.drop k).isEmpty = false := by
  have hlt := h.lt_length
  rw [List.isEmpty_eq_false_iff, ne_eq, List.drop_eq_nil_iff]
  omega

/-- A word without digits ends in front of a numeral that begins behind its beginning. -/
theorem BeginsNumeral.le_of_stands (h : BeginsNumeral s p) (hs : Stands s w i j)
    (hw : ∀ c ∈ w, c.isDigit = false) (hi : i ≤ p) : j ≤ p := by
  by_contra hj
  obtain ⟨u, v, rfl, -, hv⟩ := hs.cut hi (by omega)
  have hne : v ≠ [] := by
    rintro rfl
    exact hj (Nat.le_of_eq hv.2)
  have hd := h.1
  rw [hv.head_eq hne, List.head?_eq_some_head hne, Option.any_some,
    hw _ (List.mem_append_right u (List.head_mem hne))] at hd
  cases hd

namespace Parting

theorem symm (h : Parting s s' p) : Parting s' s p := ⟨h.take_eq.symm, h.begins', h.begins⟩

variable (h : Parting s s' p)

include h

theorem prefix_iff (hw : ∀ c ∈ w, c.isDigit = false) (hq : q ≤ p) :
    w <+: s.drop q ↔ w <+: s'.drop q := by
  have hp {s s' : List Char} (h : Parting s s' p) (hp : w <+: s.drop q) : w <+: s'.drop q := by
    have hs : Stands s w q (q + w.length) := ⟨hp, rfl⟩
    exact (hs.congr (take_eq_of_le h.take_eq (h.begins.le_of_stands hs hw hq))).1
  exact ⟨hp h, hp h.symm⟩

theorem wordAfter_eq (hk : k ≤ p) : wordAfter s' k = wordAfter s k := by
  rcases Nat.lt_or_eq_of_le hk with hlt | rfl
  · exact wordAfter_congr h.take_eq hlt
  · rw [h.begins.wordAfter, h.begins'.wordAfter]

theorem head_eq (hk : k < p) : (s'.drop k).head? = (s.drop k).head? := by
  rw [List.head?_drop, List.head?_drop, ← List.getElem?_take_of_lt hk, h.take_eq,
    List.getElem?_take_of_lt hk]

/-- A run of characters ends in front of the numeral if no digit goes on with it. -/
theorem takeWhile_eq_of_digit (hq : q ≤ p) (hf : ∀ c : Char, c.isDigit → f c = false) :
    (s'.drop q).takeWhile f = (s.drop q).takeWhile f ∧
      q + ((s.drop q).takeWhile f).length ≤ p := by
  have hs := stands_takeWhile s f q
  have hle : q + ((s.drop q).takeWhile f).length ≤ p := by
    refine h.begins.le_of_stands hs (fun c hc ↦ ?_) hq
    by_contra hd
    have hc := List.mem_takeWhile_imp hc
    rw [hf c (by simpa using hd)] at hc
    cases hc
  refine ⟨(hs.congr (take_eq_of_le h.take_eq hle)).takeWhile_eq
    (fun c hc ↦ List.mem_takeWhile_imp hc) ?_, hle⟩
  rcases Nat.lt_or_eq_of_le hle with hlt | he
  · rw [h.head_eq hlt]
    exact head_drop_takeWhile s f q
  · rw [he]
    have hd := h.begins'.1
    cases hc : (s'.drop p).head? with
    | none => rfl
    | some c =>
      rw [hc] at hd
      exact hf c hd

/-- A run of characters of a word ends in front of the numeral if it begins in front of it. -/
theorem takeWhile_eq_of_lt (hq : q < p) (hf : ∀ c, f c → isNameChar c) :
    (s'.drop q).takeWhile f = (s.drop q).takeWhile f ∧
      q + ((s.drop q).takeWhile f).length < p := by
  have hs := stands_takeWhile s f q
  have hlt : q + ((s.drop q).takeWhile f).length < p := by
    by_contra hle
    exact hs.not_beginsNumeral_inside (fun c hc ↦ hf c (List.mem_takeWhile_imp hc)) hq
      (Nat.not_lt.mp hle) h.begins
  refine ⟨(hs.congr (take_eq_of_le h.take_eq (Nat.le_of_lt hlt))).takeWhile_eq
    (fun c hc ↦ List.mem_takeWhile_imp hc) ?_, hlt⟩
  rw [h.head_eq hlt]
  exact head_drop_takeWhile s f q

theorem skip_eq (hi : i ≤ p) : skip s' i = skip s i ∧ skip s i ≤ p := by
  have hdigit (c : Char) (hc : c.isDigit) : isLayout c = false :=
    not_isLayout_of_isWordChar (isWordChar_of_isNameChar (isNameChar_of_isDigit hc))
  obtain ⟨he, hle⟩ := h.takeWhile_eq_of_digit hi hdigit
  exact ⟨by rw [skip, skip, he], hle⟩

end Parting

/-! The terminals read alike in front of the numeral. -/

theorem approach_parsed (hi : skip text.toList i < k) (hk : k ≤ p) :
    Outcome.InStep (approach text text' p n) 1 (p + 1 - i) Eq (.parsed a (.inText text k))
      (.parsed a (.inText text' k)) := by
  have hs := le_skip text.toList i
  refine .parsed rfl ⟨k, hk, rfl, rfl⟩ ?_
  change p + 1 - k + 1 ≤ p + 1 - i
  omega

theorem isDigit_eq_false_of_mem_mark [IsMark mark] {c : Char} (hc : c ∈ mark) :
    c.isDigit = false := by
  by_contra hd
  have hword := IsMark.not_isWordChar hc
  rw [isWordChar_of_isNameChar (isNameChar_of_isDigit (by simpa using hd))] at hword
  cases hword

theorem isDigit_eq_false_of_mem_keyword [hk : IsKeyword word] {c : Char} (hc : c ∈ word) :
    c.isDigit = false := by
  have hall : (intWord :: boolWord :: reserved).all
      (fun word ↦ word.all fun c ↦ !c.isDigit) = true := by decide
  simpa using List.all_eq_true.mp (List.all_eq_true.mp hall word hk.mem) c hc

section

variable (h : Parting text.toList text'.toList p)

include h

theorem symbol_approach (mark : List Char) (m : Nat) [IsMark mark] :
    (symbol mark).InStep (approach text text' p n) m 1 Eq (symbol mark) := by
  rintro _ _ ⟨i, hi, rfl, rfl⟩ -
  have hw : ∀ c ∈ mark, c.isDigit = false := fun _ ↦ isDigit_eq_false_of_mem_mark
  obtain ⟨hskip, hq⟩ := h.skip_eq hi
  rw [symbol_inText, symbol_inText, hskip]
  split
  next hp =>
    have hs : Stands text.toList mark _ _ := ⟨hp, rfl⟩
    rw [if_pos ((h.prefix_iff hw hq).mp hp)]
    exact approach_parsed (hs.lt Solid.ne_nil) (h.begins.le_of_stands hs hw hq)
  next hp =>
    rw [if_neg (mt (h.prefix_iff hw hq).mpr hp)]
    exact .failed trivial

theorem keyword_meets (word : List Char) [IsKeyword word] (hi : i ≤ p) :
    (∃ pos, keyword word (.inText text i) = .failed pos ∧
      keyword word (.inText text' i) = .failed pos) ∨
    ∃ k, skip text.toList i < k ∧ k ≤ p ∧ keyword word (.inText text i) = .parsed () (.inText text k) ∧
      keyword word (.inText text' i) = .parsed () (.inText text' k) := by
  have hw : ∀ c ∈ word, c.isDigit = false := fun _ ↦ isDigit_eq_false_of_mem_keyword
  obtain ⟨hskip, hq⟩ := h.skip_eq hi
  rw [keyword_inText, keyword_inText, hskip]
  split
  next hp =>
    have hs : Stands text.toList word _ _ := ⟨hp, rfl⟩
    have hle := h.begins.le_of_stands hs hw hq
    rw [if_pos ((h.prefix_iff hw hq).mp hp), wordBefore_congr (take_eq_of_le h.take_eq hq),
      h.wordAfter_eq hle]
    split
    · exact .inl ⟨_, rfl, rfl⟩
    · split
      · exact .inl ⟨_, rfl, rfl⟩
      · exact .inr ⟨_, hs.lt IsKeyword.ne_nil, hle, rfl, rfl⟩
  next hp =>
    rw [if_neg (mt (h.prefix_iff hw hq).mpr hp)]
    exact .inl ⟨_, rfl, rfl⟩

theorem keyword_approach (word : List Char) (m : Nat) [IsKeyword word] :
    (keyword word).InStep (approach text text' p n) m 1 Eq (keyword word) := by
  rintro _ _ ⟨i, hi, rfl, rfl⟩ -
  obtain ⟨pos, hf, hf'⟩ | ⟨k, hlt, hle, hk, hk'⟩ := keyword_meets h word hi
  · rw [hf, hf']
    exact .failed trivial
  · rw [hk, hk']
    exact approach_parsed hlt hle

theorem name_approach : name.InStep (approach text text' p n) m 1 Eq name := by
  rintro _ _ ⟨i, hi, rfl, rfl⟩ -
  have hreserved : (reserved.any fun word ↦ (keyword word (.inText text i)).isParsed) =
      reserved.any fun word ↦ (keyword word (.inText text' i)).isParsed := by
    rw [Bool.eq_iff_iff, List.any_eq_true, List.any_eq_true]
    refine exists_congr fun word ↦ and_congr_right fun hw ↦ ?_
    have := IsKeyword.of_reserved hw
    obtain ⟨pos, hf, hf'⟩ | ⟨k, -, -, hk, hk'⟩ := keyword_meets h word hi
    · rw [hf, hf']
    · rw [hk, hk']
      rfl
  obtain ⟨hskip, hq⟩ := h.skip_eq hi
  rw [name_inText, name_inText, hreserved, hskip]
  split
  · exact .failed trivial
  rcases Nat.lt_or_eq_of_le hq with hlt | he
  · obtain ⟨hrun, hle⟩ := h.takeWhile_eq_of_lt hlt fun _ ↦ id
    rw [h.head_eq hlt, hrun]
    split
    next hs =>
      have hne := takeWhile_ne_nil (head_any_mono (fun _ ↦ isNameChar_of_isNameStart) hs)
      exact approach_parsed (Nat.lt_add_of_pos_right (List.length_pos_iff.mpr hne))
        (Nat.le_of_lt hle)
    · exact .failed trivial
  · rw [he, h.begins.head_isNameStart, h.begins'.head_isNameStart]
    exact .failed trivial

theorem numeral_approach (hn : ((text.toList.drop p).takeWhile Char.isDigit).length = n)
    (hl : limit < n) : (numeral limit).InStep (approach text text' p n) m 1 Eq (numeral limit) := by
  rintro _ _ ⟨i, hi, rfl, rfl⟩ -
  obtain ⟨hskip, hq⟩ := h.skip_eq hi
  rw [numeral_inText, numeral_inText, hskip]
  have hpos : 0 < p + 1 - i := by omega
  rcases Nat.lt_or_eq_of_le hq with hlt | he
  · obtain ⟨hrun, hle⟩ := h.takeWhile_eq_of_lt hlt fun _ ↦ isNameChar_of_isDigit
    rw [hrun]
    dsimp only
    split
    · exact .failed trivial
    next hne =>
      split
      · exact .overlong hpos
      · rw [List.isEmpty_iff] at hne
        exact approach_parsed (Nat.lt_add_of_pos_right (List.length_pos_iff.mpr hne))
          (Nat.le_of_lt hle)
  · have hne := takeWhile_ne_nil h.begins.1
    rw [he]
    dsimp only
    rw [if_neg (mt List.isEmpty_iff.mp hne), if_pos (hn ▸ hl)]
    exact .halted hn hpos

theorem approach_steady (hn : ((text.toList.drop p).takeWhile Char.isDigit).length = n)
    (hl : limit < n) : (approach text text' p n).Steady limit where
  skip := by
    rintro _ _ ⟨i, hi, rfl, rfl⟩
    obtain ⟨hskip, hle⟩ := h.skip_eq hi
    rw [Cursor.skipLayout_inText, Cursor.skipLayout_inText, hskip]
    exact ⟨_, hle, rfl, rfl⟩
  ahead_skip := by
    rintro _ _ ⟨i, hi, rfl, rfl⟩
    rw [Cursor.skipLayout_inText]
    exact Nat.sub_le_sub_left (le_skip _ i) (p + 1)
  ahead_le := by
    rintro _ _ ⟨i, hi, rfl, rfl⟩
    have hlt := h.begins.lt_length
    have hlt' := h.begins'.lt_length
    simp only [approach, Cursor.inText, List.length_drop]
    omega
  isEmpty := by
    rintro _ _ ⟨i, hi, rfl, rfl⟩
    obtain ⟨hskip, hle⟩ := h.skip_eq hi
    rw [Cursor.skipLayout_inText, Cursor.skipLayout_inText, hskip]
    exact (h.begins.isEmpty_drop hle).trans (h.begins'.isEmpty_drop hle).symm
  fault _ := trivial
  fault_zero := trivial
  fault_max _ _ := trivial
  spanTo _ _ := trivial
  merge _ _ := trivial
  symbol mark m _ _ := symbol_approach h mark m
  keyword word m _ := keyword_approach h word m
  name _ := name_approach h
  numeral _ := numeral_approach h hn hl

end

/-- Where one text has a numeral that is read, another one has too many digits to be read. -/
theorem Parting.overlong {e : Node} {c : Cursor} (h : Parting text.toList text'.toList p)
    (hl : limit < ((text.toList.drop p).takeWhile Char.isDigit).length)
    (hr : (expression limit).whole (.start text') = .parsed e c) :
    (expression limit).whole (.start text) =
      .overlong ((text.toList.drop p).takeWhile Char.isDigit).length := by
  have hp := approach_steady h rfl hl
  obtain ⟨d, hr, hd⟩ := Rule.whole_parsed hr
  rw [Cursor.start_eq] at hr ⊢
  have ho := expression_inStep hp (m := p + 2) ⟨0, Nat.zero_le p, rfl, rfl⟩ (Nat.lt_succ_self _)
  rw [hr] at ho
  rw [Rule.whole]
  generalize expression limit (.inText text 0) = o at ho
  cases ho with
  | halted hh => exact congrArg Outcome.overlong hh
  | parsed _ hc =>
    -- a reading that has not got beyond the numeral does not end with the text
    obtain ⟨i, hi, -, he⟩ := hp.skip hc
    rw [he] at hd
    exact absurd ((h.begins'.isEmpty_drop hi).symm.trans (List.isEmpty_iff.mpr hd)) Bool.noConfusion

end TypedLet.Grammar
