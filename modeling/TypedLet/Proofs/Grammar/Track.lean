import TypedLet.Proofs.Grammar.Lexeme
import TypedLet.Proofs.Grammar.Prospect

namespace TypedLet.Grammar

/-- So many digits stand in a text where a shorter numeral could be completed. -/
def Excess (Goal : List Char → Prop) (s : List Char) (digits : Nat) : Prop :=
  ∃ q, wordBefore s q = false ∧ ((s.drop q).takeWhile Char.isDigit).length = digits ∧
    ∃ w, Goal (s.take q ++ '0' :: w)

/-- How the reading of a language ends that is awaited at a place: behind something of it, or in
front of a character that no rule reads, or with a failure. The text up to the failure, or up to
that character, can be completed, and so can the text up to a numeral that is too long. -/
inductive Outcome.Ends {α : Type} (Goal : List Char → Prop) (text : String) (L : Language)
    (i : Nat) : Outcome α → Prop
  | read {a j} : L text.toList i j → Ends Goal text L i (.parsed a (.inText text j))
  | stuck {a j} : (Cursor.inText text j).Stuck → Viable Goal text.toList j →
      Ends Goal text L i (.parsed a (.inText text j))
  | failed {pos} : Viable Goal text.toList pos → Ends Goal text L i (.failed pos)
  | overlong {digits} : Excess Goal text.toList digits → Ends Goal text L i (.overlong digits)

variable {α β : Type} {Goal : List Char → Prop} {text : String} {L M B C : Language}
variable {r : Rule α} {rs : List (Rule α)} {o : Outcome α} {a : α} {c : Cursor}
variable {i j pos : Nat}

namespace Outcome.Ends

theorem imp (h : o.Ends Goal text L i) (hLM : ∀ k, L text.toList i k → M text.toList j k) :
    o.Ends Goal text M j := by
  cases h with
  | read h => exact .read (hLM _ h)
  | stuck hs hv => exact .stuck hs hv
  | failed hv => exact .failed hv
  | overlong hx => exact .overlong hx

theorem mono (h : o.Ends Goal text L i) (hLM : L.Within M) : o.Ends Goal text M i :=
  h.imp fun _ hk ↦ hLM hk

theorem after (h : o.Ends Goal text M j) (hj : L text.toList i j) :
    o.Ends Goal text (L.andThen M) i :=
  h.imp fun _ hk ↦ ⟨j, hj, hk⟩

/-- Where the reading ends does not depend on what has been read. -/
theorem with_value (h : (Outcome.parsed a c).Ends Goal text L i) (b : β) :
    (Outcome.parsed b c).Ends Goal text L i := by
  cases h with
  | read h => exact .read h
  | stuck hs hv => exact .stuck hs hv

theorem skipLayout (h : (Outcome.parsed a c).Ends Goal text L i)
    (hskip : ∀ ⦃s i j⦄, L s i j → L s i (skip s j)) :
    (Outcome.parsed a c.skipLayout).Ends Goal text L i := by
  cases h with
  | read h =>
    rw [Cursor.skipLayout_inText]
    exact .read (hskip h)
  | stuck hs hv =>
    rw [hs.skipLayout_eq]
    exact .stuck hs hv

theorem viable (h : (Outcome.failed pos : Outcome α).Ends Goal text L i) :
    Viable Goal text.toList pos := by
  cases h with
  | failed hv => exact hv

theorem excess {digits : Nat} (h : (Outcome.overlong digits : Outcome α).Ends Goal text L i) :
    Excess Goal text.toList digits := by
  cases h with
  | overlong hx => exact hx

theorem viable_pos [Readable L] (h : (Outcome.parsed a c).Ends Goal text L i)
    (hw : Awaits Goal L text.toList i) : Viable Goal text.toList c.pos := by
  cases h with
  | read h => exact hw.viable h
  | stuck _ hv => exact hv

end Outcome.Ends

namespace Rule

/-- A rule reads a language, wherever that is awaited, and fails only where the text so far can be
completed. -/
def Tracks (Goal : List Char → Prop) (text : String) (L : Language) (r : Rule α) : Prop :=
  ∀ ⦃i⦄, Fresh text.toList i → Awaits Goal L text.toList i →
    (r (.inText text i)).Ends Goal text L i

/-- A rule that does not go on inside a word, nor in front of a character that no rule reads. -/
def Guarded (r : Rule α) : Prop :=
  ∀ ⦃text j⦄, (Cursor.inText text j).Stuck ∨ ¬ Fresh text.toList j →
    ∃ pos ≤ j, r (.inText text j) = .failed pos

theorem Guarded.bind (h : r.Guarded) (f : α → Rule β) : (r >>= f).Guarded := by
  intro text j hj
  obtain ⟨pos, hle, ho⟩ := h hj
  exact ⟨pos, hle, by rw [bind_apply, ho]⟩

namespace Tracks

theorem mono (h : r.Tracks Goal text L) (hLM : L.Within M) : r.Tracks Goal text M :=
  fun _ hi hw ↦ (h hi (hw.mono hLM)).mono hLM

theorem bind_ends {f : α → Rule β} (h : (r c).Ends Goal text L i)
    (hf : ∀ a d, r c = .parsed a d → (Outcome.parsed a d).Ends Goal text L i →
      (f a d).Ends Goal text M j) : ((r >>= f) c).Ends Goal text M j := by
  rw [bind_apply]
  cases hr : r c with
  | parsed a d =>
    rw [hr] at h
    exact hf a d hr h
  | failed pos =>
    rw [hr] at h
    exact .failed h.viable
  | overlong =>
    rw [hr] at h
    exact .overlong h.excess

theorem returns {f : α → Rule β} (h : r.Tracks Goal text L)
    (hf : ∀ a c, ∃ b, f a c = .parsed b c) : (r >>= f).Tracks Goal text L := by
  intro i hi hw
  refine bind_ends (h hi hw) fun a c _ ho ↦ ?_
  obtain ⟨b, hb⟩ := hf a c
  rw [hb]
  exact ho.with_value b

theorem located (h : r.Tracks Goal text L) : (located r).Tracks Goal text L := by
  intro i hi hw
  have ho := h hi hw
  rw [Rule.located]
  cases hr : r (.inText text i) with
  | parsed a c =>
    rw [hr] at ho
    exact ho.with_value _
  | failed pos =>
    rw [hr] at ho
    exact .failed ho.viable
  | overlong =>
    rw [hr] at ho
    exact .overlong ho.excess

/-- The failure that is furthest on is one of the failures. -/
theorem firstOf [Readable L] (h : ∀ r ∈ rs, r.Tracks Goal text L) :
    (firstOf rs).Tracks Goal text L := by
  intro i hi hw
  induction rs with
  | nil => exact .failed (hw.viable_skip.mono (Nat.zero_le _))
  | cons r rs ih =>
    obtain ⟨hr, hrs⟩ := List.forall_mem_cons.mp h
    have ho := hr hi hw
    have hrest := ih hrs
    rw [Rule.firstOf]
    generalize r (.inText text i) = o at ho
    cases ho with
    | read h => exact .read h
    | stuck hs hv => exact .stuck hs hv
    | overlong hx => exact .overlong hx
    | @failed pos hv =>
      generalize Rule.firstOf rs (.inText text i) = o at hrest
      cases hrest with
      | read h => exact .read h
      | stuck hs hv => exact .stuck hs hv
      | overlong hx => exact .overlong hx
      | @failed pos' hv' =>
        change (Outcome.failed (max pos pos')).Ends Goal text L i
        rcases Nat.le_total pos pos' with hle | hle
        · rw [Nat.max_eq_right hle]
          exact .failed hv'
        · rw [Nat.max_eq_left hle]
          exact .failed hv

section

variable [Readable L] [Readable M] {f : α → Rule β}

/-- A guarded rule may follow any other one. -/
theorem bind (h : r.Tracks Goal text L) (hf : ∀ a, (f a).Tracks Goal text M)
    (hg : ∀ a, (f a).Guarded) : (r >>= f).Tracks Goal text (L.andThen M) := by
  intro i hi hw
  refine bind_ends (h hi hw.head) fun a c _ ho ↦ ?_
  have hv := ho.viable_pos hw.head
  cases ho with
  | @read _ j hj =>
    by_cases hfresh : Fresh text.toList j
    · exact (hf a hfresh (hw.tail hj)).after hj
    · obtain ⟨pos, hle, ho⟩ := hg a (.inr hfresh)
      rw [ho]
      exact .failed (hv.mono hle)
  | stuck hs _ =>
    obtain ⟨pos, hle, ho⟩ := hg a (.inl hs)
    rw [ho]
    exact .failed (hv.mono hle)

/-- Any rule may follow one that ends where no word is under way. -/
theorem bind_of_sound (h : r.Tracks Goal text L)
    (hs : ∀ ⦃i a c⦄, r (.inText text i) = .parsed a c →
      ∃ j, L text.toList i j ∧ Fresh text.toList j ∧ c = .inText text j)
    (hf : ∀ a, (f a).Tracks Goal text M) : (r >>= f).Tracks Goal text (L.andThen M) := by
  intro i hi hw
  refine bind_ends (h hi hw.head) fun a c hr _ ↦ ?_
  obtain ⟨j, hj, hfresh, rfl⟩ := hs hr
  exact (hf a hfresh (hw.tail hj)).after hj

end

section

variable [Readable B] [Readable C] (h : r.Tracks Goal text B) (hg : r.Guarded)
variable (hstep : (C.andThen B).Within C) (hw : Awaits Goal C text.toList i)
variable (ho : (Outcome.parsed a c).Ends Goal text C i)

include h hg hstep hw ho

/-- One more round of a loop goes on with what has been read so far, unless it fails. -/
theorem round (hr : ∀ pos, r c ≠ .failed pos) : (r c).Ends Goal text C i := by
  cases ho with
  | stuck hs _ =>
    obtain ⟨pos, -, hf⟩ := hg (.inl hs)
    exact absurd hf (hr pos)
  | @read _ j hj =>
    have hfresh : Fresh text.toList j := by
      by_contra hn
      obtain ⟨pos, -, hf⟩ := hg (.inr hn)
      exact hr pos hf
    exact ((h hfresh ((hw.mono hstep).tail hj)).after hj).mono hstep

theorem upTo (n : Nat) : (r.upTo n c).Ends Goal text C i := by
  induction n generalizing a c with
  | zero => exact ho.with_value []
  | succ n ih =>
    have hround := round h hg hstep hw ho
    rw [Rule.upTo]
    cases hr : r c with
    | parsed b d =>
      rw [hr] at hround
      have hrest := ih (hround fun _ ↦ by simp)
      dsimp only
      generalize r.upTo n d = o at hrest
      cases hrest with
      | read h => exact .read h
      | stuck hs hv => exact .stuck hs hv
      | failed hv => exact .failed hv
      | overlong hx => exact .overlong hx
    -- where a round fails, the loop ends, and its failure is not reported
    | failed _ => exact ho.with_value []
    | overlong digits =>
      rw [hr] at hround
      exact .overlong (hround fun _ ↦ by simp).excess

theorem many (hskip : ∀ ⦃s i j⦄, C s i j → C s i (skip s j)) :
    (r.many c).Ends Goal text C i := by
  have hrounds := upTo h hg hstep hw ho c.rest.length
  rw [Rule.many]
  cases hr : r.upTo c.rest.length c with
  | parsed as d =>
    rw [hr] at hrounds
    cases as with
    | nil => exact hrounds.skipLayout hskip
    | cons => exact hrounds
  | failed pos =>
    rw [hr] at hrounds
    exact hrounds
  | overlong =>
    rw [hr] at hrounds
    exact hrounds

end

/-- Parts of one language with a loop behind the first of them make up another one. -/
theorem loop {part : Rule α} {f : α → List α → Rule β} [Readable B] [Readable C]
    (hpart : part.Tracks Goal text L) (hLC : L.Within C) (h : r.Tracks Goal text B)
    (hg : r.Guarded) (hstep : (C.andThen B).Within C)
    (hskip : ∀ ⦃s i j⦄, C s i j → C s i (skip s j))
    (hf : ∀ a as c, ∃ b, f a as c = .parsed b c) :
    (do let head ← part; let tail ← r.many; f head tail : Rule β).Tracks Goal text C := by
  intro i hi hw
  refine bind_ends (hpart.mono hLC hi hw) fun a c _ ho ↦ ?_
  refine bind_ends (many h hg hstep hw ho hskip) fun as d _ hd ↦ ?_
  obtain ⟨b, hb⟩ := hf a as d
  rw [hb]
  exact hd.with_value b

end Tracks

end Rule

end TypedLet.Grammar
