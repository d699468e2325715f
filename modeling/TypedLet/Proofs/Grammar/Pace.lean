import Mathlib.Data.List.Forall2
import TypedLet.Proofs.Grammar.Rule
import TypedLet.Proofs.Grammar.Visible

namespace TypedLet.Grammar

/-- How two readings that go on side by side are compared: which places of one belong to which of
the other, how much lies ahead of a place in the first, which failures and which stretches are
taken for the same, and at numerals of how many digits the first may end alone. -/
structure Pace where
  Abreast : Cursor → Cursor → Prop
  ahead : Cursor → Nat
  Fault : Nat → Nat → Prop
  Over : Span → Span → Prop
  Halts : Nat → Prop

section

variable {α : Type}

/-- Two readings end alike: with values that belong together and at places abreast, at least `k`
nearer to the end than the `l` where they began, or with the same kind of failure. At a numeral that
halts the first, the second ends in any way. -/
inductive Outcome.InStep (p : Pace) (k l : Nat) (V : α → α → Prop) : Outcome α → Outcome α → Prop
  | parsed {a a' d d'} : V a a' → p.Abreast d d' → p.ahead d + k ≤ l →
      InStep p k l V (.parsed a d) (.parsed a' d')
  | failed {i j} : p.Fault i j → InStep p k l V (.failed i) (.failed j)
  | overlong {digits} : 0 < l → InStep p k l V (.overlong digits) (.overlong digits)
  | halted {digits o'} : p.Halts digits → 0 < l → InStep p k l V (.overlong digits) o'

/-- Two rules read alike from places abreast with less than `m` ahead, and get nearer to the end by
at least `k`. -/
def Rule.InStep (p : Pace) (m k : Nat) (V : α → α → Prop) (r r' : Rule α) : Prop :=
  ∀ ⦃c c'⦄, p.Abreast c c' → p.ahead c < m → (r c).InStep p k (p.ahead c) V (r' c')

end

/-- What a pace has to keep: the terminals read alike, places abreast stay so behind the layout that
follows, and there is room for as many rounds as something lies ahead. -/
structure Pace.Steady (p : Pace) (limit : Nat) : Prop where
  skip {c c'} : p.Abreast c c' → p.Abreast c.skipLayout c'.skipLayout
  ahead_skip {c c'} : p.Abreast c c' → p.ahead c.skipLayout ≤ p.ahead c
  ahead_le {c c'} : p.Abreast c c' → p.ahead c ≤ c.rest.length ∧ p.ahead c ≤ c'.rest.length
  isEmpty {c c'} : p.Abreast c c' → c.skipLayout.rest.isEmpty = c'.skipLayout.rest.isEmpty
  fault {c c'} : p.Abreast c c' → p.Fault c.pos c'.pos
  fault_zero : p.Fault 0 0
  fault_max {i i' j j'} : p.Fault i i' → p.Fault j j' → p.Fault (max i j) (max i' j')
  spanTo {c c' d d'} : p.Abreast c c' → p.Abreast d d' →
    p.Over (c.skipLayout.spanTo d) (c'.skipLayout.spanTo d')
  merge {a a' b b'} : p.Over a a' → p.Over b b' → p.Over (a.merge b) (a'.merge b')
  symbol (mark m) [IsMark mark] [Visible mark] : (symbol mark).InStep p m 1 Eq (symbol mark)
  keyword (word m) [IsKeyword word] : (keyword word).InStep p m 1 Eq (keyword word)
  name (m) : name.InStep p m 1 Eq name
  numeral (m) : (numeral limit).InStep p m 1 Eq (numeral limit)

variable {α β : Type} {p : Pace} {V : α → α → Prop} {W : β → β → Prop} {l m n k limit : Nat}
variable {r r' : Rule α} {rs rs' : List (Rule α)} {c c' : Cursor}

theorem Outcome.InStep.mono {o o' : Outcome α} {k' l' : Nat} (h : o.InStep p k l V o')
    (hl : l + k' ≤ l' + k) (hll : l ≤ l') : o.InStep p k' l' V o' := by
  cases h with
  | parsed hv hd hk => exact .parsed hv hd (by omega)
  | failed hf => exact .failed hf
  | overlong hpos => exact .overlong (by omega)
  | halted hh hpos => exact .halted hh (by omega)

theorem Outcome.InStep.isParsed_eq {o o' : Outcome α} (h : o.InStep p k l V o')
    (hh : ∀ digits, ¬ p.Halts digits) : o.isParsed = o'.isParsed := by
  cases h with
  | halted h => exact absurd h (hh _)
  | _ => rfl

namespace Rule

theorem inStep_return (a a' : α) (h : V a a') : (pure a : Rule α).InStep p m 0 V (pure a') := by
  intro c c' hc _
  exact .parsed h hc (Nat.le_refl _)

theorem InStep.mono (h : r.InStep p m k V r') (hn : n ≤ m) (hl : l ≤ k) : r.InStep p n l V r' := by
  intro c c' hc hm
  exact (h hc (by omega)).mono (by omega) (Nat.le_refl _)

/-- The second rule starts where the first has got nearer to the end. -/
theorem InStep.bind {f f' : α → Rule β} (h : r.InStep p m k V r')
    (hf : ∀ a a', V a a' → (f a).InStep p (m - k) l W (f' a')) :
    (r >>= f).InStep p m (k + l) W (r' >>= f') := by
  intro c c' hc hm
  have ho := h hc hm
  rw [bind_apply, bind_apply]
  generalize r c = o, r' c' = o' at ho
  cases ho with
  | parsed hv hd hk =>
    apply (hf _ _ hv hd (by omega)).mono
    · omega
    · omega
  | failed hf => exact .failed hf
  | overlong hpos => exact .overlong hpos
  | halted hh hpos => exact .halted hh hpos

/-- Where nothing lies ahead, rules that get nearer to the end can only fail. -/
theorem InStep.fails (h : r.InStep p m (k + 1) V r') (hc : p.Abreast c c') (hm : 0 < m)
    (h0 : p.ahead c = 0) : r.Fails c ∧ r'.Fails c' := by
  have ho := h hc (by omega)
  unfold Fails
  generalize r c = o, r' c' = o' at ho
  cases ho with
  | parsed _ _ hk => omega
  | failed => exact ⟨⟨_, rfl⟩, _, rfl⟩
  | overlong hpos | halted _ hpos => omega

theorem InStep.upTo (h : r.InStep p m (k + 1) V r') {i j : Nat} (hc : p.Abreast c c')
    (hm : p.ahead c < m) (hi : p.ahead c ≤ i) (hj : p.ahead c ≤ j) :
    (r.upTo i c).InStep p 0 (p.ahead c) (List.Forall₂ V) (r'.upTo j c') := by
  -- on one of the bounds, which are the same as far as they are used
  induction i generalizing j c c' with
  | zero =>
    obtain ⟨hr, hr'⟩ := h.fails hc (by omega) (by omega)
    rw [hr.upTo, hr'.upTo]
    exact .parsed .nil hc (Nat.le_refl _)
  | succ i ih =>
    cases j with
    | zero =>
      obtain ⟨hr, hr'⟩ := h.fails hc (by omega) (by omega)
      rw [hr.upTo, hr'.upTo]
      exact .parsed .nil hc (Nat.le_refl _)
    | succ j =>
      have ho := h hc hm
      rw [Rule.upTo, Rule.upTo]
      generalize r c = o, r' c' = o' at ho
      cases ho with
      | failed hf => exact .parsed .nil hc (Nat.le_refl _)
      | overlong hpos => exact .overlong hpos
      | halted hh hpos => exact .halted hh hpos
      | @parsed a a' d d' hv hd hk =>
        have ht := @ih d d' j hd (by omega) (by omega) (by omega)
        dsimp only
        generalize r.upTo i d = o, r'.upTo j d' = o' at ht
        cases ht with
        | failed hf => exact .failed hf
        | overlong hpos => exact .overlong (by omega)
        | halted hh hpos => exact .halted hh (by omega)
        | parsed hvs he hk' => exact .parsed (.cons hv hvs) he (by omega)

section

variable (hp : p.Steady limit)

include hp

theorem InStep.firstOf (h : List.Forall₂ (Rule.InStep p m k V) rs rs') :
    (firstOf rs).InStep p m k V (firstOf rs') := by
  intro c c' hc hm
  induction h with
  | nil => exact .failed hp.fault_zero
  | @cons r r' rs rs' h _ ih =>
    have ho := h hc hm
    rw [Rule.firstOf, Rule.firstOf]
    generalize r c = o, r' c' = o' at ho
    cases ho with
    | parsed hv hd hk => exact .parsed hv hd hk
    | overlong hpos => exact .overlong hpos
    | halted hh hpos => exact .halted hh hpos
    | failed hf =>
      dsimp only
      generalize Rule.firstOf rs c = o, Rule.firstOf rs' c' = o' at ih
      cases ih with
      | parsed hv hd hk => exact .parsed hv hd hk
      | overlong hpos => exact .overlong hpos
      | halted hh hpos => exact .halted hh hpos
      | failed hf' => exact .failed (hp.fault_max hf hf')

theorem InStep.many (h : r.InStep p m (k + 1) V r') :
    r.many.InStep p m 0 (List.Forall₂ V) r'.many := by
  intro c c' hc hm
  obtain ⟨hl, hl'⟩ := hp.ahead_le hc
  have ho := h.upTo hc hm hl hl'
  rw [Rule.many, Rule.many]
  generalize r.upTo _ c = o, r'.upTo _ c' = o' at ho
  cases ho with
  | failed hf => exact .failed hf
  | overlong hpos => exact .overlong hpos
  | halted hh hpos => exact .halted hh hpos
  | parsed hvs hd hk =>
    cases hvs with
    | cons hv hvs => exact .parsed (.cons hv hvs) hd hk
    | nil =>
      have hs := hp.ahead_skip hd
      exact .parsed .nil (hp.skip hd) (by omega)

theorem InStep.located (h : r.InStep p m k V r') :
    (located r).InStep p m k (fun v v' ↦ V v.1 v'.1 ∧ p.Over v.2 v'.2) (located r') := by
  intro c c' hc hm
  have ho := h hc hm
  rw [Rule.located, Rule.located]
  generalize r c = o, r' c' = o' at ho
  cases ho with
  | parsed hv hd hk => exact .parsed ⟨hv, hp.spanTo hc hd⟩ hd hk
  | failed hf => exact .failed hf
  | overlong hpos => exact .overlong hpos
  | halted hh hpos => exact .halted hh hpos

theorem InStep.whole (h : r.InStep p m k V r') : r.whole.InStep p m k V r'.whole := by
  intro c c' hc hm
  have ho := h hc hm
  rw [Rule.whole, Rule.whole]
  generalize r c = o, r' c' = o' at ho
  cases ho with
  | failed hf => exact .failed hf
  | overlong hpos => exact .overlong hpos
  | halted hh hpos => exact .halted hh hpos
  | parsed hv hd hk =>
    have hs := hp.ahead_skip hd
    dsimp only
    rw [hp.isEmpty hd]
    split
    · exact .parsed hv (hp.skip hd) (by omega)
    · exact .failed (hp.fault (hp.skip hd))

end

end Rule

end TypedLet.Grammar
