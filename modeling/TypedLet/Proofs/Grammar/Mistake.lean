import TypedLet.Proofs.Grammar.Production
import TypedLet.Proofs.Grammar.Subtext
import TypedLet.Proofs.Grammar.Track

namespace TypedLet

open Grammar

/-- What is read of a text up to a mistake in it can be completed. -/
def SyntaxError.Completable (reading : String → Except ParseError Node) (e : SyntaxError) : Prop :=
  e.pos ≤ e.text.toList.length ∧
    ∃ source t, reading source = .ok t ∧ e.text.toList.take e.pos <+: source.toList

namespace Grammar

open Rule Text

variable {α : Type} {Goal : List Char → Prop} {text source : String} {s mark word : List Char}
variable {L M : Language} {op : Op} {r part : Rule Node} {err : SyntaxError} {limit i j pos : Nat}

theorem maxDigits_pos : 0 < maxDigits := Nat.succ_pos _

theorem symbol_tracks [IsMark mark] [Visible mark] :
    (symbol mark).Tracks Goal text (.token mark) := by
  intro i _ hw
  rw [symbol_inText]
  split
  next hp => exact .read (token_iff.mpr ⟨hp, rfl⟩)
  · exact .failed hw.viable_skip

theorem keyword_tracks [IsKeyword word] : (keyword word).Tracks Goal text (.keyword word) := by
  intro i _ hw
  rw [keyword_inText]
  split
  next hp =>
    split
    · exact .failed (hw.viable_skip.mono (Nat.sub_le _ _))
    next hb =>
      have hb : wordBefore text.toList (skip text.toList i) = false := by simpa using hb
      split
      · exact .failed (hw.viable_keyword ⟨hp, rfl⟩ hb)
      next ha => exact .read (keyword_iff.mpr ⟨⟨hp, rfl⟩, hb, by simpa using ha⟩)
  · exact .failed hw.viable_skip

theorem name_tracks : name.Tracks Goal text .name := by
  intro i hi hw
  cases hn : name (.inText text i) with
  | parsed x c =>
    rcases name_sound hn hi with hs | ⟨j, hj, rfl⟩
    · obtain ⟨-, hh, j, hx, hc, hj, rfl⟩ := name_run hn
      exact .stuck hs (hw.viable_name hi hx (hx.head_isNameStart hh hj) hc)
    · exact .read ⟨hi, x, hj⟩
  | failed pos =>
    refine .failed (hw.viable_skip.mono ?_)
    rw [name_inText] at hn
    split at hn
    · cases hn
      exact le_skip _ i
    · split at hn <;> cases hn
      exact Nat.le_refl _
  | overlong =>
    rw [name_inText] at hn
    split at hn
    · cases hn
    · split at hn <;> cases hn

/-- Where digits stand and an operand is awaited, a single digit could stand as well. -/
theorem Awaits.excess (hlimit : 0 < limit) (hw : Awaits Goal (.expression limit .atom) s i)
    (hi : Fresh s i) (hd : (s.drop (skip s i)).takeWhile Char.isDigit ≠ []) :
    Excess Goal s ((s.drop (skip s i)).takeWhile Char.isDigit).length := by
  have hle := skip_le_length hw.le_length
  have hlen := List.length_take_of_le hle
  have hafter : wordAfter s (skip s i) := by
    obtain ⟨c, cs, hc⟩ := List.exists_cons_of_ne_nil hd
    have hdigit : c.isDigit := List.mem_takeWhile_imp (hc ▸ List.mem_cons_self)
    rw [wordAfter, (stands_takeWhile s Char.isDigit (skip s i)).head_eq hd, hc]
    exact isWordChar_of_isNameChar (isNameChar_of_isDigit hdigit)
  have hbefore := wordBefore_of_fresh hi hafter
  have ht : (s.take (skip s i) ++ ['0']).take (skip s i) = s.take (skip s i) := List.take_left' hlen
  have hfresh : Fresh (s.take (skip s i) ++ ['0']) i := by
    rcases Nat.lt_or_eq_of_le (le_skip s i) with hlt | he
    · exact (Agrees.of_lt ht hlt).fresh hi
    · rw [← he] at ht hbefore ⊢
      exact .inl ((wordBefore_congr ht).trans hbefore)
  have hzero : Stands (s.take (skip s i) ++ ['0']) ['0'] (skip s i) (skip s i + 1) := by
    refine ⟨⟨[], ?_⟩, rfl⟩
    rw [List.drop_left' hlen, List.append_nil]
  have hnumeral : Numeral (s.take (skip s i) ++ ['0']) ['0'] i (skip s i + 1) :=
    ⟨⟨_, (blank_skip s i).congr ht, hzero⟩, by decide, List.forall_mem_singleton.mpr rfl⟩
  have htab : '\t' ∉ s.take (skip s i) ++ ['0'] := by
    rw [List.mem_append, not_or]
    exact ⟨fun hc ↦ hw.tab_notMem (List.mem_of_mem_take hc), by decide⟩
  obtain ⟨v, hv, w, rfl⟩ := hw.completes htab (take_eq_of_le ht (le_skip s i))
    ⟨hfresh, _, _, .integer hnumeral hlimit, blank_refl _ _⟩
  rw [List.take_of_length_le (by rw [List.length_append, hlen]; rfl), List.append_assoc] at hv
  exact ⟨_, hbefore, rfl, w, hv⟩

theorem numeral_tracks (hlimit : 0 < limit) :
    (numeral limit).Tracks Goal text (.expression limit .atom) := by
  intro i hi hw
  cases hn : numeral limit (.inText text i) with
  | parsed n c =>
    obtain ⟨digits, j, hd, hl, -, rfl⟩ := numeral_sound hn
    exact .read ⟨hi, j, _, .integer hd hl, blank_refl _ j⟩
  | failed pos =>
    rw [numeral_inText] at hn
    dsimp only at hn
    split at hn
    · cases hn
      exact .failed hw.viable_skip
    · split at hn <;> cases hn
  | overlong =>
    rw [numeral_inText] at hn
    dsimp only at hn
    split at hn
    · cases hn
    next hne =>
      split at hn <;> cases hn
      exact .overlong (hw.excess hlimit hi (mt List.isEmpty_iff.mpr hne))

/-- No layout is ahead of a character that no rule reads, nor in the middle of a word. -/
theorem skip_eq_of_guard (hj : (Cursor.inText text j).Stuck ∨ ¬ Fresh text.toList j) :
    skip text.toList j = j := by
  rcases hj with hs | hf
  · have hskip := hs.skipLayout_eq
    rw [Cursor.skipLayout_inText] at hskip
    exact congrArg Cursor.pos hskip
  · refine (Nat.lt_or_eq_of_le (le_skip text.toList j)).elim (fun hlt ↦ ?_) Eq.symm
    exact absurd (.inr (wordAfter_of_lt_skip hlt)) hf

theorem symbol_guarded [IsMark mark] : (symbol mark).Guarded := by
  intro text j hj
  have hmark (k : Nat) : ¬ Token text.toList mark j k := fun hk ↦
    hj.elim (fun hs ↦ symbol_stuck hs (symbol_parsed hk)) fun hf ↦ hf hk.starts_fresh
  rw [symbol_inText, if_neg fun hp ↦ hmark _ (token_iff.mpr ⟨hp, rfl⟩), skip_eq_of_guard hj]
  exact ⟨j, Nat.le_refl j, rfl⟩

theorem keyword_guarded [IsKeyword word] : (keyword word).Guarded := by
  intro text j hj
  rw [keyword_inText, skip_eq_of_guard hj]
  split
  next hp =>
    rcases hj with hs | hf
    · have hd : '$' ∉ word := fun hd ↦ absurd (IsKeyword.isNameChar '$' hd) (by decide)
      exact absurd hp (hs.not_prefix IsKeyword.ne_nil hd)
    · have hb : wordBefore text.toList j = true := by simpa using mt Or.inl hf
      rw [if_pos hb]
      exact ⟨_, Nat.sub_le j 1, rfl⟩
  · exact ⟨j, Nat.le_refl j, rfl⟩

section

variable {f : Unit → Rule α} [Readable M]

theorem symbol_then_tracks [IsMark mark] [Visible mark] (h : ∀ u, (f u).Tracks Goal text M) :
    (symbol mark >>= f).Tracks Goal text ((Language.token mark).andThen M) := by
  refine symbol_tracks.bind_of_sound (fun i a c hs ↦ ?_) h
  obtain ⟨j, hj, rfl⟩ := symbol_sound hs
  exact ⟨j, hj, hj.fresh, rfl⟩

theorem keyword_then_tracks [IsKeyword word] (h : ∀ u, (f u).Tracks Goal text M) :
    (keyword word >>= f).Tracks Goal text ((Language.keyword word).andThen M) := by
  refine keyword_tracks.bind_of_sound (fun i a c hs ↦ ?_) h
  obtain ⟨j, hj, rfl⟩ := keyword_sound hs
  exact ⟨j, hj, hj.fresh, rfl⟩

end

theorem baseType_tracks [IsKeyword word] {make : Option Span → Node} :
    (baseType word make).Tracks Goal text (.keyword word) :=
  keyword_tracks.located.returns fun _ _ ↦ ⟨_, rfl⟩

theorem annotationAtom_tracks (h : r.Tracks Goal text (.type .arrow)) :
    (annotationAtom r).Tracks Goal text (.type .atom) := by
  refine .firstOf ?_
  simp only [List.forall_mem_cons]
  refine ⟨baseType_tracks.mono (baseType_within fun h ↦ ⟨_, .int h⟩),
    baseType_tracks.mono (baseType_within fun h ↦ ⟨_, .bool h⟩), ?_, by simp⟩
  refine (symbol_then_tracks fun _ ↦ h.bind (fun _ ↦ ?_) fun _ ↦ symbol_guarded.bind _).mono
    parenType_within
  exact symbol_tracks.returns fun _ _ ↦ ⟨_, rfl⟩

theorem annotationBody_tracks (h : r.Tracks Goal text (.type .arrow)) :
    (annotationBody r).Tracks Goal text (.type .arrow) :=
  .loop (annotationAtom_tracks h) singleType_within
    (symbol_then_tracks fun _ ↦ annotationAtom_tracks h) (symbol_guarded.bind _) arrow_within
    Language.type_skip fun _ _ _ ↦ ⟨_, rfl⟩

theorem annotationUpTo_tracks (n : Nat) :
    (annotationUpTo n).Tracks Goal text (.type .arrow) := by
  induction n with
  | zero => exact fun _ _ hw ↦ .failed (hw.viable_skip.mono (le_skip _ _))
  | succ n ih => exact annotationBody_tracks ih

theorem annotation_tracks : annotation.Tracks Goal text (.type .arrow) :=
  fun _ hi hw ↦ annotationUpTo_tracks _ hi hw

theorem boolean_tracks : boolean.Tracks Goal text (.expression limit .atom) := by
  refine (Tracks.located (.firstOf ?_)).returns fun _ _ ↦ ⟨_, rfl⟩
  simp only [List.forall_mem_cons]
  exact ⟨(keyword_tracks.mono (keyword_within fun h ↦ ⟨_, .yes h⟩)).returns fun _ _ ↦ ⟨_, rfl⟩,
    (keyword_tracks.mono (keyword_within fun h ↦ ⟨_, .no h⟩)).returns fun _ _ ↦ ⟨_, rfl⟩, by simp⟩

section

variable (h : r.Tracks Goal text (.expression limit .expression))

include h

theorem paren_tracks : (paren r).Tracks Goal text (.expression limit .atom) := by
  refine Tracks.mono (Tracks.returns (Tracks.located ?_) fun _ _ ↦ ⟨_, rfl⟩) paren_within
  refine symbol_then_tracks fun _ ↦ h.bind (fun _ ↦ ?_) fun _ ↦ symbol_guarded.bind _
  exact symbol_tracks.returns fun _ _ ↦ ⟨_, rfl⟩

theorem atom_tracks (hlimit : 0 < limit) :
    (atom limit r).Tracks Goal text (.expression limit .atom) := by
  refine .firstOf ?_
  simp only [List.forall_mem_cons]
  exact ⟨(numeral_tracks hlimit).located.returns fun _ _ ↦ ⟨_, rfl⟩, boolean_tracks,
    (name_tracks.mono name_within).located.returns fun _ _ ↦ ⟨_, rfl⟩, paren_tracks h, by simp⟩

omit h in
theorem chain_tracks (h : part.Tracks Goal text (.expression limit op.operand)) :
    (chain op op.mark part).Tracks Goal text (.expression limit (.chain op)) :=
  .loop h (level_within .single) (symbol_then_tracks fun _ ↦ h) (symbol_guarded.bind _) more_within
    Language.expression_skip fun _ _ _ ↦ ⟨_, rfl⟩

theorem conjunction_tracks (hlimit : 0 < limit) :
    (conjunction limit r).Tracks Goal text (.expression limit (.chain .conj)) := by
  have hsum : (sum limit r).Tracks Goal text (.expression limit (.chain .sum)) :=
    chain_tracks (atom_tracks h hlimit)
  have hequal : (equality limit r).Tracks Goal text (.expression limit (.chain .equal)) :=
    chain_tracks hsum
  exact chain_tracks hequal

theorem letIn_tracks : (letIn r).Tracks Goal text (.expression limit .expression) := by
  refine Tracks.mono (Tracks.returns (Tracks.located ?_) fun _ _ ↦ ⟨_, rfl⟩) letIn_within
  refine keyword_then_tracks fun _ ↦ name_tracks.bind (fun _ ↦ ?_) fun _ ↦ symbol_guarded.bind _
  refine symbol_then_tracks fun _ ↦ h.bind (fun _ ↦ ?_) fun _ ↦ keyword_guarded.bind _
  exact keyword_then_tracks fun _ ↦ h.returns fun _ _ ↦ ⟨_, rfl⟩

theorem function_tracks : (function r).Tracks Goal text (.expression limit .expression) := by
  refine Tracks.mono (Tracks.returns (Tracks.located ?_) fun _ _ ↦ ⟨_, rfl⟩) function_within
  refine keyword_then_tracks fun _ ↦ symbol_then_tracks fun _ ↦ ?_
  refine name_tracks.located.bind (fun _ ↦ ?_) fun _ ↦ symbol_guarded.bind _
  refine symbol_then_tracks fun _ ↦
    annotation_tracks.bind (fun _ ↦ ?_) fun _ ↦ symbol_guarded.bind _
  refine symbol_then_tracks fun _ ↦ symbol_then_tracks fun _ ↦ ?_
  exact h.returns fun _ _ ↦ ⟨_, rfl⟩

theorem expressionBody_tracks (hlimit : 0 < limit) :
    (expressionBody limit r).Tracks Goal text (.expression limit .expression) := by
  refine .firstOf ?_
  simp only [List.forall_mem_cons]
  exact ⟨letIn_tracks h, function_tracks h,
    (conjunction_tracks h hlimit).mono (level_within .operation), by simp⟩

end

theorem expressionUpTo_tracks (hlimit : 0 < limit) (n : Nat) :
    (expressionUpTo limit n).Tracks Goal text (.expression limit .expression) := by
  induction n with
  | zero => exact fun _ _ hw ↦ .failed (hw.viable_skip.mono (le_skip _ _))
  | succ n ih => exact expressionBody_tracks ih hlimit

theorem expression_tracks (hlimit : 0 < limit) :
    (expression limit).Tracks Goal text (.expression limit .expression) :=
  fun _ hi hw ↦ expressionUpTo_tracks hlimit _ hi hw

theorem whole_failed [Readable L] (h : r.Tracks Goal text L)
    (hskip : ∀ ⦃s i j⦄, L s i j → L s i (skip s j)) (hw : Awaits Goal L text.toList 0)
    (hf : r.whole (.start text) = .failed pos) : Viable Goal text.toList pos := by
  have ho := h (fresh_zero _) hw
  rw [Cursor.start_eq, whole] at hf
  cases hr : r (.inText text 0) with
  | parsed a c =>
    rw [hr] at hf ho
    dsimp only at hf
    split at hf <;> cases hf
    exact (ho.skipLayout hskip).viable_pos hw
  | failed pos =>
    rw [hr] at hf ho
    cases hf
    exact ho.viable
  | overlong =>
    rw [hr] at hf
    cases hf

theorem read_unexpected (h : r.read source = .error (.unexpected err)) :
    err.text = expandTabs source ∧ r (.start (expandTabs source)) = .failed err.pos := by
  rw [Rule.read] at h
  split at h <;> cases h
  next hr => exact ⟨rfl, hr⟩

/-- A text is awaited at its beginning if a text of the language is read. -/
theorem awaits_start [Readable L] {reading : String → Except ParseError Node}
    (h : ∀ v : String, '\t' ∉ v.toList → L v.toList 0 v.toList.length → ∃ t, reading v = .ok t)
    (hs : '\t' ∉ s) : Awaits (fun v ↦ ∃ t, reading (String.ofList v) = .ok t) L s 0 where
  le_length := Nat.zero_le _
  tab_notMem := hs
  completes u j hu _ hj := by
    refine ⟨u.take j, h _ ?_ ?_, List.prefix_rfl⟩
    · rw [String.toList_ofList]
      exact fun hc ↦ hu (List.mem_of_mem_take hc)
    · rw [String.toList_ofList]
      exact Readable.cut hj

theorem unexpected_completable [Readable L] (hr : ∀ Goal text, r.Tracks Goal text L)
    (hskip : ∀ ⦃s i j⦄, L s i j → L s i (skip s j))
    (hread : ∀ v : String, '\t' ∉ v.toList → L v.toList 0 v.toList.length →
      ∃ t, r.whole.read v = .ok t)
    (h : r.whole.read source = .error (.unexpected err)) :
    err.text = expandTabs source ∧ err.Completable r.whole.read := by
  obtain ⟨ht, hf⟩ := read_unexpected h
  obtain ⟨hle, v, ⟨t, hv⟩, hp⟩ := whole_failed (hr _ _) hskip
    (awaits_start hread (tab_notMem_expandTabs source)) hf
  rw [SyntaxError.Completable, ht]
  refine ⟨rfl, hle, _, t, hv, ?_⟩
  rwa [String.toList_ofList]

theorem exists_readExpression (text : String) (htab : '\t' ∉ text.toList)
    (h : Language.expression maxDigits .expression text.toList 0 text.toList.length) :
    ∃ t, readExpression text = .ok t := by
  obtain ⟨-, k, e, hd, hb⟩ := h
  obtain ⟨t, ht, -⟩ := hd.exists_read (fun _ hn ↦ hn) hb htab
  exact ⟨t, ht⟩

theorem exists_readAnnotation (text : String) (htab : '\t' ∉ text.toList)
    (h : Language.type .arrow text.toList 0 text.toList.length) :
    ∃ t, readAnnotation text = .ok t := by
  obtain ⟨k, e, hd, hb⟩ := h
  obtain ⟨t, ht, -⟩ := hd.exists_read hb htab
  exact ⟨t, ht⟩

/-- A mistake is reported no further on than the text could still have become one that is read. -/
theorem mistake_completable :
    (∀ source e, readExpression source = .error (.unexpected e) →
      e.text = expandTabs source ∧ e.Completable readExpression) ∧
    ∀ source e, readAnnotation source = .error (.unexpected e) →
      e.text = expandTabs source ∧ e.Completable readAnnotation :=
  ⟨fun _ _ h ↦ unexpected_completable (r := expression maxDigits)
      (fun _ _ ↦ expression_tracks maxDigits_pos) Language.expression_skip exists_readExpression h,
    fun _ _ h ↦ unexpected_completable (r := annotation) (fun _ _ ↦ annotation_tracks)
      Language.type_skip exists_readAnnotation h⟩

theorem mistake_completable_reserved :
    (readExpression "let x = let$" = .error (.unexpected ⟨"let x = let$", 11⟩) ∧
      (SyntaxError.mk "let x = let$" 11).Completable readExpression) ∧
    ( readAnnotation "\t(Bool -> 1" = .error (.unexpected ⟨"        (Bool -> 1", 14⟩) ∧
      (SyntaxError.mk "        (Bool -> 1" 14).Completable readAnnotation) := by
  have h : readExpression "let x = let$" = .error (.unexpected ⟨"let x = let$", 11⟩) := by
    decide +kernel
  have h' : readAnnotation "\t(Bool -> 1" = .error (.unexpected ⟨"        (Bool -> 1", 14⟩) := by
    decide +kernel
  exact ⟨⟨h, (mistake_completable.1 _ _ h).2⟩, h', (mistake_completable.2 _ _ h').2⟩

end Grammar

end TypedLet
