import TypedLet.Proofs.Grammar.Approach
import TypedLet.Proofs.Grammar.Mistake

namespace TypedLet.Grammar

open Text

/-- Behind such a text a digit can be read as a literal. -/
def AwaitsLiteral (u : List Char) : Prop :=
  ∃ w t, readExpression (String.ofList (u ++ '0' :: w)) = .ok t ∧
    ∃ n span, .intLit n (some span) ∈ t.parts ∧ span.start = (u.length : Int)

/-- A text is cut before and behind a run of digits that is too long for the literal that is
awaited there. -/
structure Overrun (s u d v : List Char) : Prop where
  text_eq : s = u ++ (d ++ v)
  isDigit : ∀ c ∈ d, c.isDigit
  long : maxDigits < d.length
  before : u.getLast?.any Char.isDigit = false
  behind : v.head?.any Char.isDigit = false
  awaits : AwaitsLiteral u

variable {s u d v u' d' v' : List Char} {text source : String} {n : Nat}

theorem expandTabsFrom_append (hu : '\t' ∉ u) (k : Nat) (w : List Char) :
    ∃ l, expandTabsFrom k (u ++ w) = u ++ expandTabsFrom l w := by
  induction u generalizing k with
  | nil => exact ⟨k, rfl⟩
  | cons c u ih =>
    obtain ⟨hc, hu⟩ := not_or.mp (mt List.mem_cons.mpr hu)
    obtain ⟨l, hl⟩ := ih hu (if c = '\n' ∨ c = '\r' then 0 else k + 1)
    refine ⟨l, ?_⟩
    rw [List.cons_append, expandTabsFrom, if_neg (Ne.symm hc), hl, List.cons_append]

theorem toList_expandTabs_append (hu : '\t' ∉ u) (w : List Char) :
    ∃ w', (expandTabs (String.ofList (u ++ '0' :: w))).toList = u ++ '0' :: w' := by
  have htab : '\t' ∉ u ++ ['0'] := by
    rw [List.mem_append, not_or]
    exact ⟨hu, by decide⟩
  obtain ⟨l, hl⟩ := expandTabsFrom_append htab 0 w
  refine ⟨expandTabsFrom l w, ?_⟩
  rw [expandTabs, String.toList_ofList, String.toList_ofList, List.append_cons, hl,
    List.append_assoc, List.singleton_append]

theorem takeWhile_isDigit_append (hd : ∀ c ∈ d, c.isDigit)
    (hv : v.head?.any Char.isDigit = false) : (d ++ v).takeWhile Char.isDigit = d := by
  rw [List.takeWhile_append_of_pos hd]
  cases v with
  | nil => exact List.append_nil d
  | cons c v =>
    rw [List.head?_cons, Option.any_some] at hv
    rw [List.takeWhile_cons_of_neg (by simp [hv]), List.append_nil]

theorem AwaitsLiteral.exists_written (h : AwaitsLiteral u) (hu : '\t' ∉ u) :
    ∃ text e w, Written maxDigits text e ∧ text.toList = u ++ '0' :: w ∧
      BeginsNumeral text.toList u.length := by
  obtain ⟨w, t, ht, hlit⟩ := h
  have hw := readExpression_ok_iff.mp ht
  obtain ⟨w', hw'⟩ := toList_expandTabs_append hu w
  exact ⟨_, t, w', hw, hw', ((hw.literals.begins_iff _).mp hlit).2.2⟩

/-- Where a literal is awaited, a run of digits that is too long ends the reading. -/
theorem AwaitsLiteral.overlong (h : AwaitsLiteral u) (hu : '\t' ∉ u)
    (ht : text.toList = u ++ (d ++ v)) (hd : ∀ c ∈ d, c.isDigit) (hl : maxDigits < d.length)
    (hv : v.head?.any Char.isDigit = false) :
    (expression maxDigits).whole (.start text) = .overlong d.length := by
  obtain ⟨text', e, w, hw, ht', hb⟩ := h.exists_written hu
  obtain ⟨c, hr⟩ := expression_whole_iff.mpr hw
  have hrun : (text.toList.drop u.length).takeWhile Char.isDigit = d := by
    rw [ht, List.drop_left, takeWhile_isDigit_append hd hv]
  have htake : text'.toList.take u.length = text.toList.take u.length := by
    rw [ht, ht', List.take_left, List.take_left]
  have hdigit : (text.toList.drop u.length).head?.any Char.isDigit := by
    have hne : d ≠ [] := List.ne_nil_of_length_pos (Nat.zero_lt_of_lt hl)
    rw [ht, List.drop_left, List.head?_append_of_ne_nil _ hne, List.head?_eq_some_head hne]
    exact hd _ (List.head_mem hne)
  have hp : Parting text.toList text'.toList u.length :=
    ⟨htake, ⟨hdigit, (wordBefore_congr htake).symm.trans hb.2⟩, hb⟩
  rw [hp.overlong (by rwa [hrun]) hr, hrun]

theorem read_overlong_iff {r : Rule Node} :
    r.read source = .error (.overlong n) ↔ r (.start (expandTabs source)) = .overlong n := by
  rw [Rule.read]
  cases r (.start (expandTabs source)) <;> simp

theorem excess_of_overlong (h : readExpression source = .error (.overlong n)) :
    maxDigits < n ∧ Excess (fun v ↦ ∃ t, readExpression (String.ofList v) = .ok t)
      (expandTabs source).toList n := by
  have hw := read_overlong_iff.mp h
  have hr : expression maxDigits (.start (expandTabs source)) = .overlong n := by
    rw [Rule.whole] at hw
    cases ho : expression maxDigits (.start (expandTabs source)) with
    | parsed a c =>
      rw [ho] at hw
      dsimp only at hw
      split at hw <;> cases hw
    | failed pos =>
      rw [ho] at hw
      cases hw
    | overlong digits =>
      rw [ho] at hw
      exact hw
  have hstart : Awaits (fun v ↦ ∃ t, readExpression (String.ofList v) = .ok t)
      (.expression maxDigits .expression) (expandTabs source).toList 0 :=
    awaits_start exists_readExpression (tab_notMem_expandTabs source)
  have hends := expression_tracks maxDigits_pos (fresh_zero _) hstart
  rw [← Cursor.start_eq, hr] at hends
  exact ⟨expression_scans.whole.lt_of_overlong hw, hends.excess⟩

theorem Excess.exists_overrun
    (h : Excess (fun v ↦ ∃ t, readExpression (String.ofList v) = .ok t) s n)
    (hl : maxDigits < n) (hs : '\t' ∉ s) : ∃ u d v, Overrun s u d v ∧ d.length = n := by
  obtain ⟨q, hbefore, hn, w, t, ht⟩ := h
  have hq : q < s.length := by
    by_contra hle
    rw [List.drop_eq_nil_of_le (Nat.not_lt.mp hle), List.takeWhile_nil, List.length_nil] at hn
    omega
  have hlen := List.length_take_of_le (Nat.le_of_lt hq)
  have hbehind := head_drop_takeWhile s Char.isDigit q
  rw [← List.drop_drop, drop_length_takeWhile] at hbehind
  obtain ⟨w', hw'⟩ :=
    toList_expandTabs_append (u := s.take q) (fun hc ↦ hs (List.mem_of_mem_take hc)) w
  have hlit := (readExpression_ok_iff.mp ht).literals.begins_iff q
  rw [hw'] at hlit
  have hbegins : BeginsNumeral (s.take q ++ '0' :: w') q := by
    refine ⟨?_, ?_⟩
    · rw [List.drop_left' hlen]
      rfl
    · rw [wordBefore, List.take_left' hlen]
      exact hbefore
  refine ⟨s.take q, (s.drop q).takeWhile Char.isDigit, (s.drop q).dropWhile Char.isDigit,
    ⟨?_, fun c hc ↦ List.mem_takeWhile_imp hc, by rwa [hn], ?_, hbehind, w, t, ht, ?_⟩, hn⟩
  · rw [List.takeWhile_append_dropWhile, List.take_append_drop]
  · exact any_eq_false_of_imp (fun _ hc ↦ isWordChar_of_isNameChar (isNameChar_of_isDigit hc)) hbefore
  · rw [hlen]
    refine hlit.mpr ⟨Nat.zero_le q, ?_, hbegins⟩
    rw [List.length_append, hlen, List.length_cons]
    omega

/-- A text with a run of digits that is too long is not read any further. -/
theorem AwaitsLiteral.not_behind_run (h : AwaitsLiteral u) (h' : AwaitsLiteral (u ++ (d ++ v)))
    (hs : '\t' ∉ u ++ (d ++ v)) (hd : ∀ c ∈ d, c.isDigit) (hl : maxDigits < d.length) (hne : v ≠ [])
    (hv : v.head?.any Char.isDigit = false) : False := by
  obtain ⟨text, e, w, hw, ht, -⟩ := h'.exists_written hs
  obtain ⟨c, hr⟩ := expression_whole_iff.mpr hw
  have hu : '\t' ∉ u := fun hc ↦ hs (List.mem_append_left _ hc)
  rw [List.append_assoc, List.append_assoc] at ht
  have ho := h.overlong hu ht hd hl (by rwa [List.head?_append_of_ne_nil _ hne])
  cases hr.symm.trans ho

/-- The run of one cut does not stand in front of another one. -/
theorem Overrun.length_le (h : Overrun s u d v) (h' : Overrun s u' d' v') (hs : '\t' ∉ s) :
    u'.length ≤ u.length := by
  by_contra hlt
  obtain ⟨y, rfl, hy⟩ | ⟨y, rfl, -⟩ :=
    List.append_eq_append_iff.mp (h.text_eq.symm.trans h'.text_eq)
  · have hne : y ≠ [] := by
      rintro rfl
      rw [List.append_nil] at hlt
      exact hlt (Nat.le_refl _)
    have hlast : y.getLast hne ∉ d := by
      intro hc
      have hb := h'.before
      rw [List.getLast?_append_of_ne_nil _ hne, List.getLast?_eq_some_getLast hne, Option.any_some,
        h.isDigit _ hc] at hb
      cases hb
    have hu : '\t' ∉ u ++ y := fun hc ↦ hs (h'.text_eq ▸ List.mem_append_left _ hc)
    obtain ⟨z, rfl, rfl⟩ | ⟨z, rfl, -⟩ := List.append_eq_append_iff.mp hy
    · have hz : z ≠ [] := by
        rintro rfl
        exact hlast (by simp)
      have hv := h.behind
      rw [List.head?_append_of_ne_nil _ hz] at hv
      exact h.awaits.not_behind_run h'.awaits hu h.isDigit h.long hz hv
    · exact hlast (List.mem_append_left z (List.getLast_mem hne))
  · rw [List.length_append] at hlt
    exact hlt (Nat.le_add_right _ _)

theorem Overrun.unique (h : Overrun s u d v) (h' : Overrun s u' d' v') (hs : '\t' ∉ s) :
    u = u' ∧ d = d' ∧ v = v' := by
  have hlen := Nat.le_antisymm (h'.length_le h hs) (h.length_le h' hs)
  obtain ⟨rfl, htail⟩ := List.append_inj (h.text_eq.symm.trans h'.text_eq) hlen
  have hrun := takeWhile_isDigit_append h.isDigit h.behind
  rw [htail, takeWhile_isDigit_append h'.isDigit h'.behind] at hrun
  obtain rfl := hrun
  exact ⟨rfl, rfl, List.append_cancel_left htail⟩

/-- A numeral that is too long ends the reading exactly where it stands in place of a literal, of
which there is one place at most. -/
theorem overlong_iff_overrun (source : String) :
    (∀ n, readExpression source = .error (.overlong n) ↔
      ∃ u d v, Overrun (expandTabs source).toList u d v ∧ d.length = n) ∧
    ∀ u d v u' d' v', Overrun (expandTabs source).toList u d v →
      Overrun (expandTabs source).toList u' d' v' → u = u' ∧ d = d' ∧ v = v' := by
  have htab := tab_notMem_expandTabs source
  refine ⟨fun n ↦ ⟨fun h ↦ ?_, fun h ↦ ?_⟩, fun _ _ _ _ _ _ h h' ↦ h.unique h' htab⟩
  · obtain ⟨hl, hx⟩ := excess_of_overlong h
    exact hx.exists_overrun hl htab
  · obtain ⟨u, d, v, h, rfl⟩ := h
    have hu : '\t' ∉ u := fun hc ↦ htab (h.text_eq ▸ List.mem_append_left _ hc)
    exact read_overlong_iff.mpr (h.awaits.overlong hu h.text_eq h.isDigit h.long h.behind)

theorem overlong_operand_overrun :
    let sevens := List.replicate 4301 '7'
    let source := String.ofList ("(x2 + ".toList ++ (sevens ++ " = ".toList))
    readExpression source = .error (.overlong 4301) ∧
    Overrun (expandTabs source).toList "(x2 + ".toList sevens " = ".toList ∧
    ∀ u d v, Overrun (expandTabs source).toList u d v →
      u = "(x2 + ".toList ∧ d = sevens ∧ v = " = ".toList := by
  intro sevens source
  have hsevens : ∀ c ∈ sevens, c = '7' := fun c ↦ List.eq_of_mem_replicate
  have htab : '\t' ∉ source.toList := by
    rw [String.toList_ofList, List.mem_append, List.mem_append, not_or, not_or]
    exact ⟨by decide, fun hc ↦ absurd (hsevens _ hc) (by decide), by decide⟩
  have hread : readExpression "(x2 + 0)" =
      .ok (.paren (.binary .sum (.var "x2" (some ⟨"(x2 + 0)", 1, 3⟩))
        (.intLit 0 (some ⟨"(x2 + 0)", 6, 7⟩)) (some ⟨"(x2 + 0)", 1, 7⟩))
        (some ⟨"(x2 + 0)", 0, 8⟩)) := by decide +kernel
  have hawaits : AwaitsLiteral "(x2 + ".toList :=
    ⟨[')'], _, hread, 0, ⟨"(x2 + 0)", 6, 7⟩, by simp [Node.parts], rfl⟩
  have h : Overrun (expandTabs source).toList "(x2 + ".toList sevens " = ".toList := by
    refine ⟨?_, fun c hc ↦ ?_, ?_, by decide, by decide, hawaits⟩
    · rw [expandTabs_eq_self _ htab, String.toList_ofList]
    · rw [hsevens c hc]
      rfl
    · rw [List.length_replicate]
      decide
  obtain ⟨hread, hunique⟩ := overlong_iff_overrun source
  refine ⟨(hread 4301).mpr ⟨_, _, _, h, List.length_replicate⟩, h, fun u d v h' ↦ ?_⟩
  exact hunique _ _ _ _ _ _ h' h

end TypedLet.Grammar
