import TypedLet.Proofs.Grammar.Advance
import TypedLet.Proofs.Grammar.Commitment
import TypedLet.Proofs.Grammar.Stepwise

namespace TypedLet.Grammar

open Rule Stepwise

variable {α β : Type}

/-- What it comes to when a rule is tried. Where it fails outright, it has made no more than `few`
attempts. Where it reads on, what it reads pays for its attempts and leaves `gain` of them over. It may
have gone back in front of one of `marks` then, with all that lay behind it read in vain. Where it is
`late`, it may also fail with much of the text read in vain. -/
structure Price where
  marks : List (List Char)
  few : Nat
  gain : Nat
  late : Cursor → Prop

/-- How a reading ends that began at `i` with `credit` attempts to spend and has made `steps` of them.
Forty are kept for each character that is still ahead. Where a part has been dropped or a rule has
failed late, only few attempts can follow, so that nothing is kept for what has been read in vain. -/
inductive Outcome.Paid (text : String) (p : Price) (i credit steps : Nat) : Outcome α → Prop
  | parsed {a j} : i < j → j ≤ text.toList.length →
      steps + p.gain + 40 * (text.toList.length - j) ≤ credit →
      Paid text p i credit steps (.parsed a (.inText text j))
  | failed {pos} : steps ≤ p.few → Paid text p i credit steps (.failed pos)
  | overlong {n} : steps + p.gain ≤ credit → Paid text p i credit steps (.overlong n)
  | dropped {a j} : i < j → j ≤ text.toList.length → (Cursor.inText text j).Faces p.marks →
      steps + p.gain ≤ credit → Paid text p i credit steps (.parsed a (.inText text j))
  | late {pos} : p.late (.inText text i) → steps + p.gain ≤ credit →
      Paid text p i credit steps (.failed pos)

/-- Reading ends in the same way, and at the same place if it succeeds. -/
inductive Outcome.Alike : Outcome α → Outcome β → Prop
  | parsed {a b d} : Alike (.parsed a d) (.parsed b d)
  | failed {i j} : Alike (.failed i) (.failed j)
  | overlong {m n} : Alike (.overlong m) (.overlong n)

/-- The attempt is made at `i` or behind, and no further back than `k` if it is at what nests. -/
def Attempt.Lies (text : String) (i k : Nat) (a : Attempt) : Prop :=
  i ≤ a.pos ∧ a.pos ≤ text.toList.length ∧ (a.element.nests → k ≤ a.pos)

/-- From every place with less than `m` characters ahead, the stepwise rule ends as the rule does and
pays the price. What nests is tried `s` characters further on at the earliest. -/
def Rule.Costs (text : String) (m s : Nat) (p : Price) (r : Rule α) (r' : Nat → Nat → Stepwise α) :
    Prop :=
  ∀ ⦃i⦄, i ≤ text.toList.length → text.toList.length - i < m →
    ∃ made, 0 < made.length ∧ (∀ a ∈ made, a.Lies text i (i + s)) ∧
      (r (.inText text i)).Paid text p i (40 * (text.toList.length - i)) made.length ∧
      Makes r' (.inText text i) (r (.inText text i)) made

/-- In front of the marks the rule fails, and does so at once. -/
def Rule.Balks (r : Rule α) (late : Cursor → Prop) (marks : List (List Char)) : Prop :=
  ∀ c : Cursor, c.Faces marks → r.Fails c ∧ ¬ late c

variable {text : String} {p q : Price} {i j k l m n s s' few few' gain gain' credit steps : Nat}
variable {marks marks' : List (List Char)} {mark word : List Char} {late late' : Cursor → Prop}
variable {o : Outcome α} {e : Element}

theorem Attempt.Lies.mono {a : Attempt} (h : a.Lies text j l) (hi : i ≤ j) (hk : k ≤ l) :
    a.Lies text i k :=
  ⟨Nat.le_trans hi h.1, h.2.1, fun hn ↦ Nat.le_trans hk (h.2.2 hn)⟩

/-- What is read first leaves what follows a place further on. -/
theorem Attempt.lies_append {made made' : List Attempt} (h : ∀ a ∈ made, a.Lies text i (i + s))
    (h' : ∀ a ∈ made', a.Lies text j (j + s')) (hij : i < j) (hs : s ≤ 1) :
    ∀ a ∈ made' ++ made, a.Lies text i (i + s) := by
  intro a ha
  rcases List.mem_append.mp ha with ha | ha
  · exact (h' a ha).mono (by omega) (by omega)
  · exact h a ha

namespace Outcome.Paid

theorem alike {u : Outcome β} (h : o.Paid text p i credit steps) (hu : o.Alike u) :
    u.Paid text p i credit steps := by
  cases hu with
  | parsed =>
    cases h with
    | parsed hij hj hpay => exact .parsed hij hj hpay
    | dropped hij hj hface hpay => exact .dropped hij hj hface hpay
  | failed =>
    cases h with
    | failed hsteps => exact .failed hsteps
    | late hl hpay => exact .late hl hpay
  | overlong =>
    cases h with
    | overlong hpay => exact .overlong hpay

/-- More attempts, out of what was saved. -/
theorem add (h : o.Paid text p i credit steps) (hfew : p.few + n ≤ few)
    (hgain : gain + n ≤ p.gain) (hl : ∀ c, p.late c → late c) :
    o.Paid text ⟨p.marks, few, gain, late⟩ i credit (steps + n) := by
  cases h with
  | parsed hij hj hpay => exact .parsed hij hj (by dsimp only; omega)
  | failed hsteps => exact .failed (by dsimp only; omega)
  | overlong hpay => exact .overlong (by dsimp only; omega)
  | dropped hij hj hface hpay => exact .dropped hij hj hface (by dsimp only; omega)
  | late hlate hpay => exact .late (hl _ hlate) (by dsimp only; omega)

theorem skipLayout {a : α} {d : Cursor} (h : (Outcome.parsed a d).Paid text p i credit steps) :
    (Outcome.parsed a d.skipLayout).Paid text p i credit steps := by
  cases h with
  | @parsed _ j hij hj hpay =>
    rw [Cursor.skipLayout_inText]
    have hle := le_skip text.toList j
    exact .parsed (by omega) (skip_le_length hj) (by omega)
  | @dropped _ j hij hj hface hpay =>
    have hface := hface.skipLayout
    rw [Cursor.skipLayout_inText] at hface ⊢
    exact .dropped (Nat.lt_of_lt_of_le hij (le_skip text.toList j)) (skip_le_length hj) hface hpay

/-- What has been read up to `j` in `n` attempts pays for the failure of what is read there. -/
theorem after (h : o.Paid text q j (40 * (text.toList.length - j)) steps) (hij : i < j)
    (hpay : n + p.gain + 40 * (text.toList.length - j) ≤ credit) (hgain : gain + q.few ≤ p.gain)
    (hl : late (.inText text i)) :
    o.Paid text ⟨q.marks, few, gain, late⟩ i credit (steps + n) := by
  cases h with
  | parsed hjk hk hpay' => exact .parsed (by omega) hk (by dsimp only; omega)
  | failed hsteps => exact .late hl (by dsimp only; omega)
  | overlong hpay' => exact .overlong (by dsimp only; omega)
  | dropped hjk hk hface hpay' => exact .dropped (by omega) hk hface (by dsimp only; omega)
  | late _ hpay' => exact .late hl (by dsimp only; omega)

end Outcome.Paid

theorem Rule.Shuns.balks {r : Rule α} (h : r.Shuns marks) (f : α → Rule β) :
    (r >>= f).Balks (fun c ↦ False ∨ (r c).isParsed) marks := by
  intro c hc
  refine ⟨⟨_, h.bind f c hc⟩, ?_⟩
  rintro (hl | hl)
  · exact hl
  · rw [h c hc] at hl
    cases hl

theorem Rule.Shuns.balks_outright {r : Rule α} (h : r.Shuns marks) (f : α → Rule β) :
    (r >>= f).Balks (fun _ ↦ False) marks :=
  fun c hc ↦ ⟨⟨_, h.bind f c hc⟩, fun hl ↦ hl⟩

theorem Rule.balks_nil (r : Rule α) (late : Cursor → Prop) : r.Balks late [] := by
  rintro c ⟨w, hw, -⟩
  cases hw

namespace Rule.Costs

variable {r : Rule α} {r' : Nat → Nat → Stepwise α} {f : α → Rule β}
variable {f' : α → Nat → Nat → Stepwise β} {rs : List (Rule α)}
variable {rs' : Nat → Nat → List (Stepwise α)}

/-- A terminal is one attempt. -/
theorem terminal (h : r.InStep (onward text) m 1 Eq r) (he : e.nests = false) (s : Nat) :
    r.Costs text m s ⟨[], 1, 39, fun _ ↦ False⟩ fun b _ ↦ Stepwise.terminal b e r := by
  intro i hi hm
  rw [← length_rest_inText] at hm
  have ho := h (onward_abreast hi) hm
  refine ⟨[⟨e, i⟩], Nat.one_pos, ?_, ?_, .terminal e r _⟩
  · intro a ha
    cases List.mem_singleton.mp ha
    exact ⟨Nat.le_refl _, hi, fun hn ↦ by rw [he] at hn; cases hn⟩
  · change (r (.inText text i)).InStep _ 1 (Cursor.inText text i).rest.length _ _ at ho
    rw [length_rest_inText] at ho
    generalize r (.inText text i) = o at ho
    cases o with
    | parsed a d =>
      obtain ⟨j, hij, hj, rfl⟩ := ho.advances
      exact .parsed hij hj (by rw [List.length_singleton]; dsimp only; omega)
    | failed pos => exact .failed (Nat.le_refl _)
    | overlong digits =>
      cases ho with
      | overlong hpos => exact .overlong (by rw [List.length_singleton]; dsimp only; omega)
      | halted hh => exact hh.elim

/-- Where the rule balks, it makes few attempts. -/
theorem few_of_balks (h : r.Costs text m s p r') (hb : r.Balks p.late marks)
    (hi : i ≤ text.toList.length) (hm : text.toList.length - i < m)
    (hface : (Cursor.inText text i).Faces marks) :
    ∃ made pos, 0 < made.length ∧ made.length ≤ p.few ∧ (∀ a ∈ made, a.Lies text i (i + s)) ∧
      r (.inText text i) = .failed pos ∧ Makes r' (.inText text i) (.failed pos) made := by
  obtain ⟨made, hne, hmade, hpaid, hmakes⟩ := h hi hm
  obtain ⟨⟨pos, hr⟩, hl⟩ := hb _ hface
  rw [hr] at hpaid hmakes
  refine ⟨made, pos, hne, ?_, hmade, hr, hmakes⟩
  cases hpaid with
  | failed hfew => exact hfew
  | late hlate => exact absurd hlate hl

theorem mono (h : r.Costs text m s p r') (hl : ∀ c, p.late c → late c) :
    r.Costs text m s ⟨p.marks, p.few, p.gain, late⟩ r' := by
  intro i hi hm
  obtain ⟨made, hne, hmade, hpaid, hmakes⟩ := h hi hm
  exact ⟨made, hne, hmade, hpaid.add (n := 0) (Nat.le_refl _) (Nat.le_refl _) hl, hmakes⟩

theorem located (h : r.Costs text m s p r') :
    (located r).Costs text m s p fun b n ↦ Stepwise.located (r' b n) := by
  intro i hi hm
  obtain ⟨made, hne, hmade, hpaid, hmakes⟩ := h hi hm
  refine ⟨made, hne, hmade, hpaid.alike ?_, hmakes.located⟩
  rw [Rule.located]
  cases r (.inText text i) <;> constructor

/-- One attempt more, at the place where the reading begins. -/
theorem record {r₀ : Rule α} {r₀' : Nat → Nat → Stepwise α}
    (h : r.Costs text m s ⟨marks, few, gain + 1, late⟩ r')
    (hr : ∀ i ≤ text.toList.length, r₀ (.inText text i) = r (.inText text i))
    (hs : s' ≤ s) (he : e.nests → s' = 0)
    (hr' : ∀ {c o made}, Makes r' c o made → Makes r₀' c o (made ++ [⟨e, c.pos⟩])) :
    r₀.Costs text m s' ⟨marks, few + 1, gain, late⟩ r₀' := by
  intro i hi hm
  obtain ⟨made, hne, hmade, hpaid, hmakes⟩ := h hi hm
  rw [hr i hi]
  refine ⟨made ++ [⟨e, i⟩], ?_, ?_, ?_, hr' hmakes⟩
  · rw [List.length_append]
    omega
  · intro a ha
    rcases List.mem_append.mp ha with ha | ha
    · exact (hmade a ha).mono (Nat.le_refl _) (by omega)
    · cases List.mem_singleton.mp ha
      refine ⟨Nat.le_refl _, hi, fun hn ↦ ?_⟩
      rw [he hn]
      exact Nat.le_refl _
  · rw [List.length_append, List.length_singleton]
    exact hpaid.add (Nat.le_refl _) (Nat.le_refl _) fun _ hl ↦ hl

theorem attempt (h : r.Costs text m s ⟨marks, few, gain + 1, late⟩ r') (he : e.nests = false) :
    r.Costs text m s ⟨marks, few + 1, gain, late⟩ fun b n ↦ Stepwise.attempt b e (r' b n) :=
  h.record (fun _ _ ↦ rfl) (Nat.le_refl s) (fun hn ↦ by rw [he] at hn; cases hn) .attempt

/-- What is read first must pay for the failure of what is read behind it. -/
theorem bind (h : r.Costs text m s ⟨marks, few, gain, late⟩ r') (hmn : m ≤ n + 1)
    (hf : ∀ a, (f a).Costs text n s' ⟨marks', few', gain', late'⟩ (f' a))
    (hb : ∀ a, (f a).Balks late' marks) (hs : s ≤ 1) (hgain : few' ≤ gain) :
    (r >>= f).Costs text m s ⟨marks', few, gain - few', fun c ↦ late c ∨ (r c).isParsed⟩
      fun b n ↦ r' b n >>= fun a ↦ f' a b n := by
  intro i hi hm
  obtain ⟨made, hne, hmade, hpaid, hmakes⟩ := h hi hm
  rw [bind_apply]
  generalize hr : r (.inText text i) = o at hpaid hmakes
  cases hpaid with
  | failed hfew => exact ⟨made, hne, hmade, .failed hfew, hmakes.bind_failed⟩
  | overlong hpay =>
    exact ⟨made, hne, hmade, .overlong (by dsimp only at hpay ⊢; omega), hmakes.bind_overlong⟩
  | late hl hpay =>
    exact ⟨made, hne, hmade, .late (.inl hl) (by dsimp only at hpay ⊢; omega), hmakes.bind_failed⟩
  | @parsed a j hij hj hpay =>
    obtain ⟨made', hne', hmade', hpaid', hmakes'⟩ := hf a hj (by omega)
    refine ⟨made' ++ made, ?_, Attempt.lies_append hmade hmade' hij hs, ?_, hmakes.bind hmakes'⟩
    · rw [List.length_append]
      omega
    · rw [List.length_append]
      exact hpaid'.after hij hpay (by dsimp only; omega) (.inr (by rw [hr]; rfl))
  | @dropped a j hij hj hface hpay =>
    obtain ⟨made', pos, hne', hfew, hmade', hfails, hmakes'⟩ :=
      (hf a).few_of_balks (hb a) hj (by omega) hface
    dsimp only
    rw [hfails]
    refine ⟨made' ++ made, ?_, Attempt.lies_append hmade hmade' hij hs, ?_, hmakes.bind hmakes'⟩
    · rw [List.length_append]
      omega
    · rw [List.length_append]
      exact .late (.inr (by rw [hr]; rfl)) (by dsimp only at hpay hfew ⊢; omega)

theorem andThen (h : r.Costs text m s ⟨[], few, gain, late⟩ r') (hmn : m ≤ n + 1)
    (hf : ∀ a, (f a).Costs text n s' ⟨marks', few', gain', late'⟩ (f' a)) (hs : s ≤ 1)
    (hgain : few' ≤ gain) :
    (r >>= f).Costs text m s ⟨marks', few, gain - few', fun c ↦ late c ∨ (r c).isParsed⟩
      fun b n ↦ r' b n >>= fun a ↦ f' a b n :=
  h.bind hmn hf (fun _ ↦ balks_nil _ _) hs hgain

theorem returns_at (f : α → Rule β) (f' : α → Nat → Nat → Stepwise β) {c : Cursor}
    {made : List Attempt}
    (hf : ∀ a c, ∃ b, f a c = .parsed b c ∧ Makes (f' a) c (.parsed b c) [])
    (hpaid : (r c).Paid text p i credit steps) (hmakes : Makes r' c (r c) made) :
    ((r >>= f) c).Paid text p i credit steps ∧
      Makes (fun b n ↦ r' b n >>= fun a ↦ f' a b n) c ((r >>= f) c) made := by
  rw [bind_apply]
  generalize r c = o at hpaid hmakes
  cases o with
  | failed => exact ⟨hpaid.alike .failed, hmakes.bind_failed⟩
  | overlong => exact ⟨hpaid.alike .overlong, hmakes.bind_overlong⟩
  | parsed a d =>
    obtain ⟨b, hb, hmakes'⟩ := hf a d
    dsimp only
    rw [hb]
    exact ⟨hpaid.alike .parsed, hmakes.bind hmakes'⟩

theorem returns (h : r.Costs text m s p r')
    (hf : ∀ a c, ∃ b, f a c = .parsed b c ∧ Makes (f' a) c (.parsed b c) []) :
    (r >>= f).Costs text m s p fun b n ↦ r' b n >>= fun a ↦ f' a b n := by
  intro i hi hm
  obtain ⟨made, hne, hmade, hpaid, hmakes⟩ := h hi hm
  exact ⟨made, hne, hmade, returns_at f f' hf hpaid hmakes⟩

theorem firstOf_singleton (h : r.Costs text m s p r') :
    (firstOf [r]).Costs text m s p fun b n ↦ Stepwise.firstOf [r' b n] := by
  intro i hi hm
  obtain ⟨made, hne, hmade, hpaid, hmakes⟩ := h hi hm
  refine ⟨made, hne, hmade, ?_⟩
  rw [firstOf_cons]
  generalize r (.inText text i) = o at hpaid hmakes
  cases o with
  | failed pos => exact ⟨hpaid.alike .failed, hmakes.firstOf_of_failed .firstOf_nil⟩
  | _ => exact ⟨hpaid, hmakes.firstOf_of_ne fun _ ho ↦ by cases ho⟩

/-- Where one alternative fails late, none of the others gets further than a few attempts. -/
theorem firstOf_cons (h : r.Costs text m s ⟨marks, few, gain, late⟩ r')
    (hrs : (firstOf rs).Costs text m s ⟨marks, few', gain', late'⟩
      fun b n ↦ Stepwise.firstOf (rs' b n))
    (hx : ∀ c, late c → (firstOf rs).Fails c ∧ ¬ late' c)
    (hk : k + few' ≤ gain) (hk' : k + few ≤ gain') :
    (firstOf (r :: rs)).Costs text m s ⟨marks, few + few', k, fun c ↦ late c ∨ late' c⟩
      fun b n ↦ Stepwise.firstOf (r' b n :: rs' b n) := by
  intro i hi hm
  obtain ⟨made, hne, hmade, hpaid, hmakes⟩ := h hi hm
  obtain ⟨made', hne', hmade', hpaid', hmakes'⟩ := hrs hi hm
  rw [Rule.firstOf_cons]
  generalize r (.inText text i) = o at hpaid hmakes
  cases o with
  | failed pos =>
    refine ⟨made' ++ made, ?_, ?_, ?_, hmakes.firstOf_of_failed hmakes'⟩
    · rw [List.length_append]
      omega
    · exact fun a ha ↦ (List.mem_append.mp ha).elim (hmade' a) (hmade a)
    · rw [List.length_append]
      cases hpaid with
      | failed hfew =>
        have hfew : made.length ≤ few := hfew
        refine (hpaid'.add (by dsimp only; omega) (by dsimp only; omega) fun _ ↦ .inr).alike ?_
        cases firstOf rs (.inText text i) <;> constructor
      | late hl hpay =>
        have hpay : made.length + gain ≤ _ := hpay
        obtain ⟨⟨pos', hfails⟩, hl'⟩ := hx _ hl
        rw [hfails] at hpaid' ⊢
        cases hpaid' with
        | late hlate => exact absurd hlate hl'
        | failed hfew =>
          have hfew : made'.length ≤ few' := hfew
          exact .late (.inl hl) (by dsimp only; omega)
  | _ =>
    refine ⟨made, hne, hmade, ?_, hmakes.firstOf_of_ne fun _ ho ↦ by cases ho⟩
    exact hpaid.add (n := 0) (by dsimp only; omega) (by dsimp only; omega) fun _ ↦ .inl

variable {part : Rule α} {part' : Nat → Nat → Stepwise α}

theorem round (mark : List Char) [IsMark mark] (h : part.Costs text m s p part') (hs : s ≤ 1)
    (hfew : p.few ≤ 39) : (do symbol mark; part : Rule α).Costs text m s
    ⟨p.marks, 1, 39 - p.few, fun c ↦ False ∨ (symbol mark c).isParsed⟩
    fun b n ↦ (do Stepwise.symbol b mark; part' b n) :=
  (terminal (symbol_onward mark m) rfl s).andThen (Nat.le_succ m) (fun _ ↦ h) hs (by omega)

section

variable [IsMark mark] (h : part.Costs text m s p part') (hs : s ≤ 1) (hfew : p.few ≤ 39)
variable (hm : ∀ w ∈ p.marks, Diverge w mark)

include h hs hfew hm

/-- Where the part goes back in front of a mark of its own, no round can follow. -/
theorem stops (hj : j ≤ text.toList.length) (hjm : text.toList.length - j < m)
    (hface : (Cursor.inText text j).Faces p.marks) :
    ∃ made, 0 < made.length ∧ made.length ≤ 1 ∧ (∀ a ∈ made, a.Lies text j (j + s)) ∧
      Loops (fun b n ↦ (do Stepwise.symbol b mark; part' b n)) (.inText text j)
        (.parsed [] (.inText text j)) made := by
  obtain ⟨made, pos, hne, hone, hmade, -, hmakes⟩ := (h.round mark hs hfew).few_of_balks
    ((symbol_shuns hm).balks fun _ ↦ part) hj hjm hface
  exact ⟨made, hne, hone, hmade, .stop hmakes hne⟩

variable (hq : q.marks = mark :: p.marks)

include hq

/-- What is saved in front of the rounds pays for the last of them, which fails. -/
theorem upTo (hij : i < j) (hj : j ≤ text.toList.length) (hjm : text.toList.length - j < m)
    (hk : text.toList.length - j ≤ k)
    (hpay : n + q.gain + 1 + 40 * (text.toList.length - j) ≤ credit) :
    ∃ made, 0 < made.length ∧ (∀ a ∈ made, a.Lies text j (j + s)) ∧
      ((do symbol mark; part : Rule α).upTo k (.inText text j)).Paid text q i credit
        (made.length + n) ∧
      Loops (fun b n ↦ (do Stepwise.symbol b mark; part' b n)) (.inText text j)
        ((do symbol mark; part : Rule α).upTo k (.inText text j)) made := by
  have hround := h.round mark hs hfew
  -- on the rounds that are left; with none left nothing lies ahead, so that the round fails
  induction k using Nat.strong_induction_on generalizing j n with
  | _ k ih =>
  obtain ⟨made, hne, hmade, hpaid, hmakes⟩ := hround hj hjm
  generalize hr : (do symbol mark; part : Rule α) (.inText text j) = o at hpaid hmakes
  cases hpaid with
  | failed hsteps =>
    rw [Fails.upTo ⟨_, hr⟩]
    exact ⟨made, hne, hmade, .parsed hij hj (by dsimp only at hsteps; omega), .stop hmakes hne⟩
  | late hl hsteps =>
    rw [Fails.upTo ⟨_, hr⟩]
    refine ⟨made, hne, hmade, .dropped hij hj ?_ (by dsimp only at hsteps; omega),
      .stop hmakes hne⟩
    refine ⟨mark, hq ▸ List.mem_cons_self, ?_⟩
    have hl : False ∨ (symbol mark (.inText text j)).isParsed := hl
    by_contra hp
    rw [symbol_eq_failed hp] at hl
    rcases hl with hl | hl <;> cases hl
  | overlong hsteps =>
    obtain ⟨k, rfl⟩ : ∃ l, k = l + 1 := ⟨k - 1, by omega⟩
    rw [Rule.upTo, hr]
    exact ⟨made, hne, hmade, .overlong (by dsimp only at hsteps; omega), .overlong hmakes hne⟩
  | @parsed a l hjl hl hsteps =>
    obtain ⟨k, rfl⟩ : ∃ l, k = l + 1 := ⟨k - 1, by omega⟩
    obtain ⟨made', hne', hmade', hpaid', hloops⟩ := ih k (Nat.lt_succ_self k) (n := made.length + n)
      (hij.trans hjl) hl (by omega) (by omega) (by dsimp only at hsteps; omega)
    rw [Rule.upTo, hr]
    refine ⟨made' ++ made, ?_, Attempt.lies_append hmade hmade' hjl hs, ?_, .round hmakes hne hloops⟩
    · rw [List.length_append]
      omega
    · rw [List.length_append, Nat.add_assoc]
      refine hpaid'.alike ?_
      dsimp only
      cases (do symbol mark; part : Rule α).upTo k (.inText text l) <;> constructor
  | @dropped a l hjl hl hface hsteps =>
    obtain ⟨k, rfl⟩ : ∃ l, k = l + 1 := ⟨k - 1, by omega⟩
    obtain ⟨made', hne', hone, hmade', hloops⟩ := h.stops hs hfew hm hl (by omega) hface
    rw [Rule.upTo, hr]
    dsimp only
    rw [(round_fails hm hface).upTo]
    refine ⟨made' ++ made, ?_, Attempt.lies_append hmade hmade' hjl hs, ?_, .round hmakes hne hloops⟩
    · rw [List.length_append]
      omega
    · rw [List.length_append]
      exact .dropped (hij.trans hjl) hl (hq ▸ hface.cons) (by dsimp only at hsteps; omega)

/-- The rounds behind a head. Where it has dropped a part of its own, there is none. -/
theorem many {a : α} {d : Cursor} {p' : Price} (hi : i ≤ text.toList.length)
    (him : text.toList.length - i < m) (hmarks : p'.marks = p.marks) (hgain : q.gain + 1 ≤ p'.gain)
    (hhead : (Outcome.parsed a d).Paid text p' i credit n) :
    ∃ made j, i < j ∧ (∀ a ∈ made, a.Lies text j (j + s)) ∧
      (many (do symbol mark; part) d).Paid text q i credit (made.length + n) ∧
      Makes (fun b n ↦ Stepwise.many b (do Stepwise.symbol b mark; part' b n)) d
        (many (do symbol mark; part) d) made := by
  cases hhead with
  | @parsed _ j hij hj hpay =>
    have hk := Nat.le_of_eq (length_rest_inText text j).symm
    have hpay : n + q.gain + 1 + 40 * (text.toList.length - j) ≤ credit := by omega
    obtain ⟨made, -, hmade, hpaid, hloops⟩ := h.upTo hs hfew hm hq hij hj (by omega) hk hpay
    refine ⟨made, j, hij, hmade, ?_, hloops.many⟩
    rw [Rule.many]
    generalize Rule.upTo _ _ _ = o at hpaid
    cases o with
    | parsed as e =>
      cases as with
      | nil => exact hpaid.skipLayout
      | cons => exact hpaid
    | _ => exact hpaid
  | @dropped _ j hij hj hface hpay =>
    rw [hmarks] at hface
    obtain ⟨made, -, hone, hmade, hloops⟩ := h.stops hs hfew hm hj (by omega) hface
    refine ⟨made, j, hij, hmade, ?_, ?_⟩
    · rw [Rule.many, (round_fails hm hface).upTo]
      exact Outcome.Paid.skipLayout (.dropped hij hj (hq ▸ hface.cons) (by omega))
    · rw [Rule.many, (round_fails hm hface).upTo]
      exact hloops.many

end

/-- A chain saves one attempt less than its parts, and may drop a part behind its own mark. -/
theorem chain [IsMark mark] (h : part.Costs text m s ⟨marks, few, gain + 1, late⟩ part') (hs : s ≤ 1)
    (hfew : few ≤ 39) (hm : ∀ w ∈ marks, Diverge w mark) (g : α → List α → β) :
    (do let head ← part; let tail ← Rule.many (do symbol mark; part); return g head tail : Rule β).Costs
      text m s ⟨mark :: marks, few, gain, late⟩ fun b n ↦ (do
        let head ← part' b n
        let tail ← Stepwise.many b (do Stepwise.symbol b mark; part' b n)
        return g head tail) := by
  intro i hi him
  obtain ⟨made, hne, hmade, hpaid, hmakes⟩ := h hi him
  rw [bind_apply]
  generalize part (.inText text i) = o at hpaid hmakes
  cases o with
  | failed pos =>
    refine ⟨made, hne, hmade, ?_, hmakes.bind_failed⟩
    cases hpaid with
    | failed hsteps => exact .failed hsteps
    | late hl hpay => exact .late hl (by dsimp only at hpay ⊢; omega)
  | overlong digits =>
    refine ⟨made, hne, hmade, ?_, hmakes.bind_overlong⟩
    cases hpaid with
    | overlong hpay => exact .overlong (by dsimp only at hpay ⊢; omega)
  | parsed a d =>
    obtain ⟨made', j, hij, hmade', hpaid', hmakes'⟩ := h.many hs hfew hm rfl hi him rfl
      (Nat.le_refl _) hpaid (q := ⟨mark :: marks, few, gain, late⟩)
    obtain ⟨hpaid', hmakes'⟩ := returns_at (fun tail ↦ pure (g a tail))
      (fun tail _ _ ↦ pure (g a tail)) (fun _ _ ↦ ⟨_, rfl, .pure⟩) hpaid' hmakes'
    refine ⟨made' ++ made, ?_, Attempt.lies_append hmade hmade' hij hs, ?_, hmakes.bind hmakes'⟩
    · rw [List.length_append]
      omega
    · rw [List.length_append]
      exact hpaid'

end Rule.Costs

end TypedLet.Grammar
