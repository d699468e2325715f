import TypedLet.Grammar.Source
import TypedLet.Proofs.Grammar.Boundary
import TypedLet.Proofs.Grammar.Exclusion

namespace TypedLet.Grammar

/-- A rule that can also end the whole reading, at a mistake behind which nothing else is tried. -/
def Committed (α : Type) : Type := Cursor → Except Nat (Outcome α)

namespace Committed

variable {α β : Type}

def of (r : Rule α) : Committed α := fun c ↦ .ok (r c)

def andThen (r : Committed α) (f : α → Committed β) : Committed β := fun c ↦
  match r c with
  | .ok (.parsed a d) => f a d
  | .ok (.failed pos) => .ok (.failed pos)
  | .ok (.overlong n) => .ok (.overlong n)
  | .error pos => .error pos

instance : Monad Committed where
  pure a := of (pure a)
  bind := andThen

instance : MonadLift Rule Committed := ⟨of⟩

def firstOf : List (Committed α) → Committed α
  | [], _ => .ok (.failed 0)
  | r :: rs, c =>
    match r c with
    | .ok (.failed pos) => (firstOf rs c).map (·.afterFailure pos)
    | other => other

def located (r : Committed α) : Committed (α × Span) := fun c ↦
  (r c).map fun o ↦ Rule.located (fun _ ↦ o) c

def whole (r : Committed α) : Committed α := fun c ↦ (r c).map fun o ↦ Rule.whole (fun _ ↦ o) c

/-- Where the rule fails, the whole reading ends. -/
def required (r : Committed α) : Committed α := fun c ↦
  match r c with
  | .ok (.failed pos) => .error pos
  | other => other

/-- A mark and a part as often as the mark can be read, at most `n` times. Behind the mark the part
has to be read. -/
def partsUpTo (mark : List Char) (part : Committed α) : Nat → Committed (List α)
  | 0, c => .ok (.parsed [] c)
  | n + 1, c =>
    match symbol mark c with
    | .parsed _ d => (do
      let a ← part.required
      let as ← partsUpTo mark part n
      return a :: as : Committed (List α)) d
    | _ => .ok (.parsed [] c)

def parts (mark : List Char) (part : Committed α) : Committed (List α) := fun c ↦
  match partsUpTo mark part c.rest.length c with
  | .ok (.parsed [] d) => .ok (.parsed [] d.skipLayout)
  | other => other

def read (r : Committed α) (source : String) : Except ParseError α :=
  match r (Cursor.start (Text.expandTabs source)) with
  | .ok o => Rule.read (fun _ ↦ o) source
  | .error pos => .error (.unexpected ⟨Text.expandTabs source, pos⟩)

theorem bind_apply (r : Committed α) (f : α → Committed β) (c : Cursor) :
    (r >>= f) c = match r c with
      | .ok (.parsed a d) => f a d
      | .ok (.failed pos) => .ok (.failed pos)
      | .ok (.overlong n) => .ok (.overlong n)
      | .error pos => .error pos := rfl

theorem of_firstOf (rs : List (Rule α)) : of (Rule.firstOf rs) = firstOf (rs.map of) := by
  funext c
  induction rs with
  | nil => rfl
  | cons r rs ih =>
    rw [List.map_cons, firstOf, ← ih, of, of, of, Rule.firstOf]
    cases r c <;> rfl

end Committed

open Rule

/-- One of the marks is ahead, behind the layout. -/
def Cursor.Faces (c : Cursor) (marks : List (List Char)) : Prop :=
  ∃ mark ∈ marks, mark <+: c.skipLayout.rest

variable {α β : Type} {marks marks' : List (List Char)} {mark word : List Char}
variable {c d : Cursor} {p p' q q' : Nat}

/-- How two readings from one place end of which only the second commits itself behind a mark. Where
they part, the first has gone back in front of one of `marks`, or has failed behind it, and the second
ends at a mistake there or further on. The first gets to `p` if it reads on, and to `q` if it fails
and they part. -/
inductive Outcome.Commits (marks : List (List Char)) (c : Cursor) (p q : Nat) :
    Outcome α → Except Nat (Outcome α) → Prop
  | parsed {a d} : p ≤ d.pos → Commits marks c p q (.parsed a d) (.ok (.parsed a d))
  | failed {i} : c.pos ≤ i + 1 → Commits marks c p q (.failed i) (.ok (.failed i))
  | overlong {n} : Commits marks c p q (.overlong n) (.ok (.overlong n))
  | dropped {a d j} : p ≤ d.pos → d.Faces marks → d.skipLayout.pos ≤ j →
      Commits marks c p q (.parsed a d) (.error j)
  | final {i j} : q ≤ i → i ≤ j → Commits marks c p q (.failed i) (.error j)

/-- The two rules part behind the first word or mark at the earliest. -/
def Rule.Commits (marks : List (List Char)) (r : Rule α) (r' : Committed α) : Prop :=
  ∀ c, (r c).Commits marks c (max (c.skipLayout.pos + 1) c.lettersEnd) (c.lettersEnd + 1) (r' c)

/-- The two rules part behind the first character at the earliest. -/
def Rule.CommitsBehind (marks : List (List Char)) (r : Rule α) (r' : Committed α) : Prop :=
  ∀ c, (r c).Commits marks c c.pos (c.skipLayout.pos + 1) (r' c)

theorem Cursor.skipLayout_skipLayout (c : Cursor) : c.skipLayout.skipLayout = c.skipLayout := by
  have h : c.skipLayout.rest.takeWhile isLayout = [] := by
    rw [rest_skipLayout, List.takeWhile_eq_nil_iff]
    intro hl
    simpa using List.dropWhile_get_zero_not isLayout c.rest hl
  rw [skipLayout, h]
  exact c.skipLayout.advance_zero

theorem Cursor.Faces.skipLayout (h : c.Faces marks) : c.skipLayout.Faces marks := by
  rwa [Faces, c.skipLayout_skipLayout]

theorem Cursor.Faces.cons (h : c.Faces marks) : c.Faces (mark :: marks) := by
  obtain ⟨m, hm, hp⟩ := h
  exact ⟨m, List.mem_cons_of_mem mark hm, hp⟩

theorem Outcome.Commits.mono {o : Outcome α} {o' : Except Nat (Outcome α)}
    (h : o.Commits marks d p q o') (hc : c.pos ≤ d.pos) (hp : p' ≤ p) (hq : q' ≤ q) :
    o.Commits marks c p' q' o' := by
  cases h with
  | parsed h => exact .parsed (Nat.le_trans hp h)
  | failed h => exact .failed (Nat.le_trans hc h)
  | overlong => exact .overlong
  | dropped h hm hj => exact .dropped (Nat.le_trans hp h) hm hj
  | final h hj => exact .final (Nat.le_trans hq h) hj

theorem Outcome.Commits.returns {r : Rule α} {r' : Committed α} {f : α → Rule β}
    {f' : α → Committed β} (h : (r c).Commits marks c p q (r' c))
    (hf : ∀ a c, ∃ b, f a c = .parsed b c ∧ f' a c = .ok (.parsed b c)) :
    ((r >>= f) c).Commits marks c p q ((r' >>= f') c) := by
  rw [bind_apply, Committed.bind_apply]
  generalize r c = o, r' c = o' at h
  cases h with
  | @parsed a d hd =>
    obtain ⟨b, hb, hb'⟩ := hf a d
    dsimp only
    rw [hb, hb']
    exact .parsed hd
  | failed hi => exact .failed hi
  | overlong => exact .overlong
  | @dropped a d j hd hm hj =>
    obtain ⟨b, hb, -⟩ := hf a d
    dsimp only
    rw [hb]
    exact .dropped hd hm hj
  | final hi hj => exact .final hi hj

theorem Rule.firstOf_cons (r : Rule α) (rs : List (Rule α)) (c : Cursor) :
    firstOf (r :: rs) c = match r c with
      | .failed pos => (firstOf rs c).afterFailure pos
      | other => other := rfl

/-- Neither of two words begins as the other one does. -/
def Diverge (w w' : List Char) : Prop := ¬ w <+: w' ∧ ¬ w' <+: w

instance (w w' : List Char) : Decidable (Diverge w w') := inferInstanceAs (Decidable (_ ∧ _))

theorem Cursor.Faces.not_prefix (h : c.Faces marks) (hm : ∀ m ∈ marks, Diverge m word) :
    ¬ word <+: c.skipLayout.rest := by
  intro hw
  obtain ⟨m, hmem, hp⟩ := h
  exact (List.prefix_or_prefix_of_prefix hp hw).elim (hm m hmem).1 (hm m hmem).2

namespace Rule

/-- The rule fails in front of each of the marks. -/
def Shuns (r : Rule α) (marks : List (List Char)) : Prop :=
  ∀ c : Cursor, c.Faces marks → r c = .failed c.skipLayout.pos

theorem Shuns.bind {r : Rule α} (h : r.Shuns marks) (f : α → Rule β) : (r >>= f).Shuns marks := by
  intro c hc
  rw [bind_apply, h c hc]

theorem symbol_shuns (h : ∀ m ∈ marks, Diverge m mark) : (symbol mark).Shuns marks :=
  fun _ hc ↦ symbol_eq_failed (hc.not_prefix h)

theorem keyword_shuns (h : ∀ m ∈ marks, Diverge m word) : (keyword word).Shuns marks :=
  fun _ hc ↦ keyword_eq_failed (hc.not_prefix h)

theorem round_fails {part : Rule α} (hm : ∀ m ∈ marks, Diverge m mark) (hc : c.Faces marks) :
    (do symbol mark; part : Rule α).Fails c :=
  ⟨_, (symbol_shuns hm).bind _ c hc⟩

namespace Commits

variable {r : Rule α} {r' : Committed α} {rs : List (Rule α)} {rs' : List (Committed α)}
variable {f : α → Rule β} {f' : α → Committed β}

theorem behind (h : r.Commits marks r') : r.CommitsBehind marks r' := by
  intro c
  have hc := c.pos_le_skipLayout
  have hl := c.pos_le_lettersEnd
  exact (h c).mono (Nat.le_refl _) (by omega) (by omega)

/-- What follows must not be able to go on where the first rule may have dropped a part. -/
theorem bind (h : r.Commits marks r') (hg : ∀ a, (f a).Shuns marks)
    (hf : ∀ a, (f a).CommitsBehind marks' (f' a)) : (r >>= f).CommitsBehind marks' (r' >>= f') := by
  intro c
  have ho := h c
  have hc := c.pos_le_skipLayout
  rw [bind_apply, Committed.bind_apply]
  generalize r c = o, r' c = o' at ho
  cases ho with
  | @parsed a d hd =>
    have hs := d.pos_le_skipLayout
    exact (hf a d).mono (by omega) (by omega) (by omega)
  | failed hi => exact .failed hi
  | overlong => exact .overlong
  | @dropped a d j hd hm hj =>
    have hs := d.pos_le_skipLayout
    dsimp only
    rw [hg a d hm]
    exact .final (by omega) hj
  | final hi hj =>
    have hl := c.pos_le_lettersEnd
    exact .final (by omega) hj

theorem andThen (h : r.Commits [] r') (hf : ∀ a, (f a).CommitsBehind marks (f' a)) :
    (r >>= f).Commits marks (r' >>= f') := by
  intro c
  have ho := h c
  have hc := c.pos_le_skipLayout
  rw [bind_apply, Committed.bind_apply]
  generalize r c = o, r' c = o' at ho
  cases ho with
  | @parsed a d hd =>
    have hs := d.pos_le_skipLayout
    exact (hf a d).mono (by omega) (by omega) (by omega)
  | failed hi => exact .failed hi
  | overlong => exact .overlong
  | dropped _ hm _ =>
    obtain ⟨m, hm, -⟩ := hm
    exact absurd hm List.not_mem_nil
  | final hi hj => exact .final hi hj

theorem returns (h : r.Commits marks r')
    (hf : ∀ a c, ∃ b, f a c = .parsed b c ∧ f' a c = .ok (.parsed b c)) :
    (r >>= f).Commits marks (r' >>= f') :=
  fun c ↦ (h c).returns hf

theorem located (h : r.Commits marks r') : (located r).Commits marks (.located r') := by
  intro c
  have ho := h c
  rw [Rule.located, Committed.located]
  generalize r c = o, r' c = o' at ho
  cases ho with
  | parsed hd => exact .parsed hd
  | failed hi => exact .failed hi
  | overlong => exact .overlong
  | dropped hd hm hj => exact .dropped hd hm hj
  | final hi hj => exact .final hi hj

theorem of_returns (h : r.Commits [] (.of r)) (hf : ∀ a c, ∃ b, f a c = .parsed b c) :
    (r >>= f).Commits [] (.of (r >>= f)) := by
  intro c
  have ho := h c
  rw [Committed.of] at ho ⊢
  rw [bind_apply]
  generalize r c = o at ho
  cases ho with
  | @parsed a d hd =>
    obtain ⟨b, hb⟩ := hf a d
    dsimp only
    rw [hb]
    exact .parsed hd
  | failed hi => exact .failed hi
  | overlong => exact .overlong

/-- Where one alternative drops a part and fails, none of the others reads on. -/
theorem firstOf (h : List.Forall₂ (Rule.Commits marks) (r :: rs) (r' :: rs'))
    (hx : (r :: rs).Pairwise Excludes) :
    (firstOf (r :: rs)).Commits marks (.firstOf (r' :: rs')) := by
  induction rs generalizing r r' rs' with
  | nil =>
    obtain ⟨hr, hrs⟩ := List.forall₂_cons.mp h
    cases hrs
    intro c
    have ho := hr c
    rw [firstOf_cons, Committed.firstOf]
    generalize r c = o, r' c = o' at ho
    cases ho with
    | parsed hd => exact .parsed hd
    | failed hi => exact .failed (by omega)
    | overlong => exact .overlong
    | dropped hd hm hj => exact .dropped hd hm hj
    | final hi hj => exact .final (by omega) (by omega)
  | cons s rs ih =>
    obtain ⟨hr, hrs⟩ := List.forall₂_cons.mp h
    cases hrs with
    | @cons _ s' _ rs' hs hrs =>
    intro c
    have hothers : r.FailsEarly c ∨ (Rule.firstOf (s :: rs)).FailsEarly c := by
      by_cases hn : r.FailsEarly c
      · exact .inl hn
      · exact .inr (.firstOf fun q hq ↦ (List.rel_of_pairwise_cons hx hq c).resolve_left hn)
    have ho := hr c
    have hrest := ih (.cons hs hrs) hx.of_cons c
    rw [firstOf_cons r, Committed.firstOf]
    generalize hrc : r c = o, r' c = o' at ho
    generalize hsc : Rule.firstOf (s :: rs) c = u, Committed.firstOf (s' :: rs') c = u' at hrest
    cases ho with
    | parsed hd => exact .parsed hd
    | overlong => exact .overlong
    | dropped hd hm hj => exact .dropped hd hm hj
    | @final i j hi hj =>
      have hr : ¬ r.FailsEarly c := fun h ↦ absurd (h.le hrc) (by omega)
      obtain ⟨k, hk, hs⟩ := hothers.resolve_left hr
      cases hsc.symm.trans hs
      exact .final (Nat.le_trans hi (Nat.le_max_left i k)) (Nat.max_le.mpr ⟨hj, by omega⟩)
    | @failed i hi =>
      cases hrest with
      | parsed hd => exact .parsed hd
      | failed hi' => exact .failed (by omega)
      | overlong => exact .overlong
      | dropped hd hm hj => exact .dropped hd hm hj
      | @final i' j hi' hj =>
        have hs : ¬ (Rule.firstOf (s :: rs)).FailsEarly c := fun h ↦ absurd (h.le hsc) (by omega)
        have hle := (hothers.resolve_right hs).le hrc
        exact .final (Nat.le_trans hi' (Nat.le_max_right i i')) (Nat.max_le.mpr ⟨by omega, hj⟩)

section

variable {part : Rule α} {part' : Committed α} (h : part.Commits marks part')
variable (hm : ∀ m ∈ marks, Diverge m mark) (hne : mark ≠ [])

include h hm hne

theorem partsUpTo (n : Nat) (c : Cursor) :
    ((do symbol mark; part : Rule α).upTo n c).Commits (mark :: marks) c c.pos
      (c.skipLayout.pos + 1) (Committed.partsUpTo mark part' n c) := by
  induction n generalizing c with
  | zero => exact .parsed (Nat.le_refl _)
  | succ n ih =>
    rw [Rule.upTo, Committed.partsUpTo, bind_apply]
    by_cases hp : mark <+: c.skipLayout.rest
    · have hface : c.Faces (mark :: marks) := ⟨mark, List.mem_cons_self, hp⟩
      have hpos := c.pos_le_skipLayout
      rw [symbol_eq_parsed hp]
      dsimp only
      generalize hd : c.skipLayout.advance mark.length = d
      have hdpos : d.pos = c.skipLayout.pos + mark.length := by rw [← hd]; rfl
      have hlen := List.length_pos_iff.mpr hne
      have hds := d.pos_le_skipLayout
      have ho := h d
      rw [Committed.bind_apply, Committed.required]
      generalize part d = o, part' d = o' at ho
      cases ho with
      | overlong => exact .overlong
      -- the part is dropped, and the mark in front of it is left over
      | failed hi => exact .dropped (Nat.le_refl _) hface (by omega)
      | final hi hj => exact .dropped (Nat.le_refl _) hface (by have := d.pos_le_lettersEnd; omega)
      | @dropped a e j he hm' hj =>
        have hes := e.pos_le_skipLayout
        dsimp only
        rw [(round_fails hm hm').upTo]
        exact .dropped (by omega) hm'.cons hj
      | @parsed a e he =>
        have hes := e.pos_le_skipLayout
        have hrest := ih e
        dsimp only
        rw [Committed.bind_apply]
        generalize (do symbol mark; part : Rule α).upTo n e = u, Committed.partsUpTo mark part' n e = u'
          at hrest
        cases hrest with
        | parsed hf => exact .parsed (by omega)
        | failed hi => exact .failed (by omega)
        | overlong => exact .overlong
        | dropped hf hm' hj => exact .dropped (by omega) hm' hj
        | final hi hj => exact .final (by omega) hj
    · rw [symbol_eq_failed hp]
      exact .parsed (Nat.le_refl _)

theorem parts :
    (many (do symbol mark; part : Rule α)).CommitsBehind (mark :: marks) (.parts mark part') := by
  intro c
  have ho := h.partsUpTo hm hne c.rest.length c
  rw [Rule.many, Committed.parts]
  generalize Rule.upTo _ _ c = o, Committed.partsUpTo mark part' c.rest.length c = o' at ho
  cases ho with
  | failed hi => exact .failed hi
  | overlong => exact .overlong
  | final hi hj => exact .final hi hj
  | @parsed as d hd =>
    have hs := d.pos_le_skipLayout
    cases as with
    | nil => exact .parsed (by omega)
    | cons => exact .parsed hd
  | @dropped as d j hd hm' hj =>
    have hs := d.pos_le_skipLayout
    cases as with
    | nil =>
      refine .dropped (by omega) hm'.skipLayout ?_
      rwa [d.skipLayout_skipLayout]
    | cons => exact .dropped hd hm' hj

/-- Where the head of a chain drops a part of its own, the chain ends behind it. -/
theorem chain {f : α → List α → Rule β} {f' : α → List α → Committed β}
    (hf : ∀ a as c, ∃ b, f a as c = .parsed b c ∧ f' a as c = .ok (.parsed b c)) :
    (do let head ← part; let tail ← many (do symbol mark; part); f head tail : Rule β).Commits
      (mark :: marks)
      (do let head ← part'; let tail ← Committed.parts mark part'; f' head tail) := by
  intro c
  have ho := h c
  have hc := c.pos_le_skipLayout
  rw [bind_apply, Committed.bind_apply]
  generalize part c = o, part' c = o' at ho
  cases ho with
  | failed hi => exact .failed hi
  | overlong => exact .overlong
  | final hi hj => exact .final hi hj
  | @parsed a d hd =>
    have hs := d.pos_le_skipLayout
    exact ((h.parts hm hne d).returns (hf a)).mono (by omega) (by omega) (by omega)
  | @dropped a d j hd hface hj =>
    have hs := d.pos_le_skipLayout
    obtain ⟨b, hb, -⟩ := hf a [] d.skipLayout
    dsimp only
    rw [bind_apply, Rule.many, (round_fails hm hface).upTo]
    dsimp only
    rw [hb]
    refine .dropped (by omega) hface.skipLayout.cons ?_
    rwa [d.skipLayout_skipLayout]

end

theorem whole (h : r.Commits marks r') (hne : [] ∉ marks) :
    r.whole.CommitsBehind [] (.whole r') := by
  intro c
  have ho := h c
  have hc := c.pos_le_skipLayout
  have hl := c.pos_le_lettersEnd
  rw [Rule.whole, Committed.whole]
  generalize r c = o, r' c = o' at ho
  cases ho with
  | failed hi => exact .failed hi
  | overlong => exact .overlong
  | final hi hj => exact .final (by omega) hj
  | @parsed a d hd =>
    have hs := d.pos_le_skipLayout
    simp only [Except.map, Rule.whole]
    split
    · exact .parsed (by omega)
    · exact .failed (by omega)
  | @dropped a d j hd hface hj =>
    have hs := d.pos_le_skipLayout
    have hrest : d.skipLayout.rest.isEmpty = false := by
      obtain ⟨m, hmem, hp⟩ := hface
      rw [List.isEmpty_eq_false_iff]
      intro hnil
      rw [hnil, List.prefix_nil] at hp
      exact hne (hp ▸ hmem)
    dsimp only
    rw [hrest]
    exact .final (by omega) hj

end Commits

end Rule

/-! A word or a mark ends behind the letters that it begins with. -/

theorem length_takeWhile_le {p : Char → Bool} {s : List Char} {n : Nat}
    (h : (s.drop n).head?.any p = false) : (s.takeWhile p).length ≤ n := by
  induction n generalizing s with
  | zero =>
    cases s with
    | nil => exact Nat.le_refl _
    | cons c s => rw [List.takeWhile_cons_of_neg (by simpa using h)]; exact Nat.le_refl _
  | succ n ih =>
    cases s with
    | nil => exact Nat.zero_le _
    | cons c s =>
      rw [List.takeWhile_cons]
      split
      · exact Nat.succ_le_succ (ih h)
      · exact Nat.zero_le _

theorem head_dropWhile (p : Char → Bool) (s : List Char) :
    (s.dropWhile p).head?.any p = false := by
  have h := List.head?_dropWhile_not p s
  cases hs : (s.dropWhile p).head? with
  | none => rfl
  | some c => rwa [hs] at h

theorem isNameChar_of_isAlpha {c : Char} (h : c.isAlpha) : isNameChar c := by
  simp [isNameChar, Char.isAlphanum, h]

theorem isWordChar_of_isAlpha {c : Char} (h : c.isAlpha) : isWordChar c :=
  isWordChar_of_isNameChar (isNameChar_of_isAlpha h)

theorem not_isAlpha_of_isDigit {c : Char} (h : c.isDigit) : c.isAlpha = false := by
  have hd := (Char.isDigit_iff_toNat.mp h).2
  by_contra ha
  have ha : (c.isUpper || c.isLower) = true := Bool.not_eq_false _ ▸ ha
  rcases Bool.or_eq_true_iff.mp ha with ha | ha
  · have hle := UInt32.le_iff_toNat_le.mp (of_decide_eq_true ha).1
    exact absurd (Nat.le_trans hle hd) (by decide)
  · have hle := UInt32.le_iff_toNat_le.mp (of_decide_eq_true (Bool.and_eq_true_iff.mp ha).1)
    exact absurd (Nat.le_trans hle hd) (by decide)

theorem Cursor.lettersEnd_le {n : Nat}
    (h : (c.skipLayout.rest.drop n).head?.any Char.isAlpha = false) :
    c.lettersEnd ≤ c.skipLayout.pos + n :=
  Nat.add_le_add_left (length_takeWhile_le h) _

theorem commits_of {r : Rule α} (h : ∀ c, (∃ i, c.pos ≤ i + 1 ∧ r c = .failed i) ∨
    (∃ n, r c = .overlong n) ∨ ∃ a n, 0 < n ∧ c.lettersEnd ≤ c.skipLayout.pos + n ∧
      r c = .parsed a (c.skipLayout.advance n)) : r.Commits [] (.of r) := by
  intro c
  rw [Committed.of]
  obtain ⟨i, hi, hr⟩ | ⟨n, hr⟩ | ⟨a, n, hn, hl, hr⟩ := h c
  · rw [hr]
    exact .failed hi
  · rw [hr]
    exact .overlong
  · rw [hr]
    exact .parsed (Nat.max_le.mpr ⟨Nat.add_le_add_left hn _, hl⟩)

theorem symbol_commits (mark : List Char) [IsMark mark] :
    (symbol mark).Commits [] (.of (symbol mark)) := by
  refine commits_of fun c ↦ ?_
  have hc := c.pos_le_skipLayout
  by_cases hp : mark <+: c.skipLayout.rest
  · refine .inr (.inr ⟨(), mark.length, List.length_pos_iff.mpr Solid.ne_nil, ?_,
      symbol_eq_parsed hp⟩)
    have hletters : c.lettersEnd ≤ c.skipLayout.pos + 0 := by
      obtain ⟨t, ht⟩ := hp
      refine c.lettersEnd_le (any_eq_false_of_imp (fun _ ↦ isWordChar_of_isAlpha) ?_)
      rw [List.drop_zero, ← ht, List.head?_append_of_ne_nil _ Solid.ne_nil]
      cases hm : mark.head? with
      | none => rfl
      | some x => exact IsMark.not_isWordChar (List.mem_of_head? hm)
    omega
  · exact .inl ⟨_, by omega, symbol_eq_failed hp⟩

theorem keyword_commits (word : List Char) [IsKeyword word] :
    (keyword word).Commits [] (.of (keyword word)) := by
  refine commits_of fun c ↦ ?_
  have hc := c.pos_le_skipLayout
  rw [keyword]
  split
  · split
    · exact .inl ⟨_, by omega, rfl⟩
    · split
      · exact .inl ⟨_, by omega, rfl⟩
      next h =>
        refine .inr (.inr ⟨(), word.length, List.length_pos_iff.mpr IsKeyword.ne_nil, ?_, rfl⟩)
        exact c.lettersEnd_le (any_eq_false_of_imp
          (fun _ ↦ isWordChar_of_isAlpha) (by simpa using h))
  · exact .inl ⟨_, by omega, rfl⟩

theorem name_commits : name.Commits [] (.of name) := by
  refine commits_of fun c ↦ ?_
  have hc := c.pos_le_skipLayout
  rw [name]
  split
  · exact .inl ⟨_, by omega, rfl⟩
  · dsimp only
    split
    next h =>
      refine .inr (.inr ⟨_, _, List.length_pos_iff.mpr (takeWhile_ne_nil (p := isNameChar)
        (head_any_mono (fun _ ↦ isNameChar_of_isNameStart) h)), c.lettersEnd_le ?_, rfl⟩)
      rw [drop_length_takeWhile]
      exact any_eq_false_of_imp (fun _ ↦ isNameChar_of_isAlpha) (head_dropWhile _ _)
    · exact .inl ⟨_, by omega, rfl⟩

theorem numeral_commits (limit : Nat) : (numeral limit).Commits [] (.of (numeral limit)) := by
  refine commits_of fun c ↦ ?_
  have hc := c.pos_le_skipLayout
  rw [numeral]
  split
  · exact .inl ⟨_, by omega, rfl⟩
  next h =>
    split
    · exact .inr (.inl ⟨_, rfl⟩)
    · have hrun := List.isEmpty_eq_false_iff.mp (Bool.not_eq_true _ ▸ h)
      refine .inr (.inr ⟨_, _, List.length_pos_iff.mpr hrun, ?_, rfl⟩)
      have hletters : c.lettersEnd ≤ c.skipLayout.pos + 0 := by
        refine c.lettersEnd_le ?_
        rw [List.drop_zero]
        cases hs : c.skipLayout.rest with
        | nil => rfl
        | cons x s =>
          rw [hs] at hrun
          cases hx : x.isDigit with
          | true => exact not_isAlpha_of_isDigit hx
          | false => simp [hx] at hrun
      omega

end TypedLet.Grammar
