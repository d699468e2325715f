import TypedLet.Grammar.Rule

namespace TypedLet.Grammar.Rule

variable {α β : Type} {r : Rule α} {rs : List (Rule α)} {c d e : Cursor} {a : α} {as : List α}

/-- The rule neither succeeds at a place nor meets a numeral there that is too long. -/
def Fails (r : Rule α) (c : Cursor) : Prop := ∃ pos, r c = .failed pos

theorem bind_parsed {f : α → Rule β} {b : β} (h : (r >>= f) c = .parsed b e) :
    ∃ a d, r c = .parsed a d ∧ f a d = .parsed b e := by
  rw [bind_apply] at h
  split at h
  next a d hr => exact ⟨a, d, hr, h⟩
  · cases h
  · cases h

theorem bind_of_parsed (f : α → Rule β) (h : r c = .parsed a d) : (r >>= f) c = f a d := by
  rw [bind_apply, h]

theorem Fails.bind (f : α → Rule β) (h : r.Fails c) : (r >>= f).Fails c := by
  obtain ⟨pos, hr⟩ := h
  exact ⟨pos, by rw [bind_apply, hr]⟩

theorem located_parsed {p : α × Span} (h : located r c = .parsed p d) :
    r c = .parsed p.1 d ∧ p.2 = c.skipLayout.spanTo d := by
  rw [located] at h
  split at h <;> cases h
  next hr => exact ⟨hr, rfl⟩

theorem located_of_parsed (h : r c = .parsed a d) :
    located r c = .parsed (a, c.skipLayout.spanTo d) d := by
  rw [located, h]

theorem Fails.located (h : r.Fails c) : (located r).Fails c := by
  obtain ⟨pos, hr⟩ := h
  exact ⟨pos, by rw [Rule.located, hr]⟩

theorem firstOf_parsed (h : firstOf rs c = .parsed a d) : ∃ r ∈ rs, r c = .parsed a d := by
  induction rs with
  | nil => cases h
  | cons r rs ih =>
    rw [firstOf] at h
    split at h
    next pos hr =>
      have hrs : firstOf rs c = .parsed a d := by
        cases hf : firstOf rs c <;> rw [hf] at h <;> cases h
        rfl
      obtain ⟨r', hr', hp⟩ := ih hrs
      exact ⟨r', List.mem_cons_of_mem r hr', hp⟩
    · exact ⟨r, List.mem_cons_self, h⟩

theorem firstOf_of_head (rs : List (Rule α)) (h : r c = .parsed a d) :
    firstOf (r :: rs) c = .parsed a d := by
  rw [firstOf, h]

theorem firstOf_of_tail (h : r.Fails c) (hrs : firstOf rs c = .parsed a d) :
    firstOf (r :: rs) c = .parsed a d := by
  obtain ⟨pos, hr⟩ := h
  rw [firstOf, hr, hrs]
  rfl

theorem firstOf_fails (h : ∀ r ∈ rs, r.Fails c) : (firstOf rs).Fails c := by
  induction rs with
  | nil => exact ⟨0, rfl⟩
  | cons r rs ih =>
    obtain ⟨pos, hr⟩ := h r List.mem_cons_self
    obtain ⟨pos', hrs⟩ := ih fun r' hr' ↦ h r' (List.mem_cons_of_mem r hr')
    exact ⟨max pos pos', by rw [firstOf, hr, hrs]; rfl⟩

theorem Fails.upTo (h : r.Fails c) (n : Nat) : r.upTo n c = .parsed [] c := by
  obtain ⟨pos, h⟩ := h
  cases n with
  | zero => rfl
  | succ n => rw [Rule.upTo, h]

/-- Successes of a rule, each from where the one before it ends. -/
inductive Rounds (r : Rule α) : Cursor → List α → Cursor → Prop
  | nil (c : Cursor) : Rounds r c [] c
  | cons {c d e : Cursor} {a : α} {as : List α} :
      r c = .parsed a d → Rounds r d as e → Rounds r c (a :: as) e

theorem Rounds.snoc (h : Rounds r c as d) (ha : r d = .parsed a e) : Rounds r c (as ++ [a]) e := by
  induction h with
  | nil c => exact .cons ha (.nil e)
  | cons hr _ ih => exact .cons hr (ih ha)

theorem upTo_parsed {n : Nat} (h : r.upTo n c = .parsed as d) : Rounds r c as d := by
  induction n generalizing c as with
  | zero => cases h; exact .nil _
  | succ n ih =>
    rw [upTo] at h
    split at h
    next a e hr =>
      split at h
      next hn => cases h; exact .cons hr (ih hn)
      next hn => exact absurd h (hn as d)
    · cases h; exact .nil _
    · cases h

theorem upTo_of_rounds {n : Nat} (h : Rounds r c as d) (hn : as.length ≤ n) (hd : r.Fails d) :
    r.upTo n c = .parsed as d := by
  induction h generalizing n with
  | nil c =>
    obtain ⟨pos, hc⟩ := hd
    cases n with
    | zero => rfl
    | succ n => rw [upTo, hc]
  | @cons c d e a as hr _ ih =>
    cases n with
    | zero => simp at hn
    | succ n =>
      have hrest : r.upTo n d = .parsed as e := ih (by simpa using hn) hd
      simp only [upTo, hr, hrest]

theorem many_parsed (h : r.many c = .parsed as e) :
    ∃ d, Rounds r c as d ∧ e = if as = [] then d.skipLayout else d := by
  rw [many] at h
  split at h
  next d hn => cases h; exact ⟨d, upTo_parsed hn, rfl⟩
  next o ho =>
    refine ⟨e, upTo_parsed h, ?_⟩
    rw [if_neg]
    rintro rfl
    exact ho e h

theorem many_of_rounds (h : Rounds r c as d) (hn : as.length ≤ c.rest.length) (hd : r.Fails d) :
    r.many c = .parsed as (if as = [] then d.skipLayout else d) := by
  rw [many, upTo_of_rounds h hn hd]
  cases as with
  | nil => rfl
  | cons a as => rfl

theorem whole_parsed (h : r.whole c = .parsed a e) :
    ∃ d, r c = .parsed a d ∧ d.skipLayout.rest = [] := by
  rw [whole] at h
  split at h
  next a' d hr =>
    dsimp only at h
    split at h <;> cases h
    next he => exact ⟨d, hr, List.isEmpty_iff.mp he⟩
  next hn => exact absurd h (hn a e)

theorem whole_of_parsed (h : r c = .parsed a e) (he : e.skipLayout.rest = []) :
    r.whole c = .parsed a e.skipLayout := by
  rw [whole, h]
  simp [he]

theorem parsed_unique {b : α} (h : ∃ d, r c = .parsed a d) (h' : ∃ d, r c = .parsed b d) :
    a = b := by
  obtain ⟨d, h⟩ := h
  obtain ⟨d', h'⟩ := h'
  cases h.symm.trans h'
  rfl

end TypedLet.Grammar.Rule
