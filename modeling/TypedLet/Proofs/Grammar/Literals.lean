import TypedLet.Proofs.Grammar.Arrangement
import TypedLet.Proofs.Grammar.Words

namespace TypedLet.Grammar

/-- A digit stands at a place, and no word runs up to it. -/
def BeginsNumeral (s : List Char) (p : Nat) : Prop :=
  (s.drop p).head?.any Char.isDigit ∧ wordBefore s p = false

/-- The literals among some nodes begin where numerals begin between two places, and nowhere else. -/
structure Literals (s : List Char) (i j : Nat) (ns : List Node) : Prop where
  le : i ≤ j
  begins_iff (p : Nat) : (∃ n span, .intLit n (some span) ∈ ns ∧ span.start = (p : Int)) ↔
    i ≤ p ∧ p < j ∧ BeginsNumeral s p

variable {text : String} {s w word mark digits : List Char} {x : String} {ns ns' : List Node}
variable {d : Dialect} {e : Node} {ℓ : Level} {m : TypeLevel} {n : Int} {limit i j k p : Nat}

theorem BeginsNumeral.wordAfter (h : BeginsNumeral s p) : Grammar.wordAfter s p :=
  head_any_mono (fun _ hc ↦ isWordChar_of_isNameChar (isNameChar_of_isDigit hc)) h.1

theorem Stands.cut (h : Stands s w i j) (hi : i ≤ p) (hj : p ≤ j) :
    ∃ u v, w = u ++ v ∧ Stands s u i p ∧ Stands s v p j := by
  have hw := List.take_append_drop (p - i) w
  have hlen := h.2
  rw [← hw] at h
  obtain ⟨k, hu, hv⟩ := h.split
  obtain rfl : k = p := by
    rw [hu.2, List.length_take]
    omega
  exact ⟨_, _, hw.symm, hu, hv⟩

/-! Among layout and marks no numeral begins, and none does within a word. -/

theorem Stands.not_beginsNumeral (h : Stands s w i j) (hw : ∀ c ∈ w, isWordChar c = false)
    (hi : i ≤ p) (hj : p < j) : ¬ BeginsNumeral s p := by
  intro hp
  obtain ⟨u, v, rfl, -, hv⟩ := h.cut hi (Nat.le_of_lt hj)
  have hafter := hp.wordAfter
  have hne : v ≠ [] := by
    rintro rfl
    exact Nat.ne_of_lt hj hv.2.symm
  rw [wordAfter, hv.head_eq hne, List.head?_eq_some_head hne, Option.any_some,
    hw _ (List.mem_append_right u (List.head_mem hne))] at hafter
  cases hafter

theorem Stands.not_beginsNumeral_inside (h : Stands s w i j) (hw : ∀ c ∈ w, isNameChar c)
    (hi : i < p) (hj : p ≤ j) : ¬ BeginsNumeral s p := by
  intro hp
  obtain ⟨u, v, rfl, hu, -⟩ := h.cut (Nat.le_of_lt hi) hj
  have hne : u ≠ [] := by
    rintro rfl
    exact Nat.ne_of_gt hi hu.2
  have hbefore := hp.2
  rw [hu.wordBefore hne fun c hc ↦ hw c (List.mem_append_left v hc)] at hbefore
  cases hbefore

theorem Blank.not_beginsNumeral (h : Blank s i j) (hi : i ≤ p) (hj : p < j) :
    ¬ BeginsNumeral s p := by
  obtain ⟨w, hs, hw⟩ := h
  exact hs.not_beginsNumeral (fun c hc ↦ not_isWordChar_of_isLayout (hw c hc)) hi hj

namespace Literals

theorem nil (hij : i ≤ j) (h : ∀ p, i ≤ p → p < j → ¬ BeginsNumeral s p) : Literals s i j [] where
  le := hij
  begins_iff p := by
    constructor
    · intro hn
      obtain ⟨n, span, hn, -⟩ := hn
      cases hn
    · intro hp
      exact absurd hp.2.2 (h p hp.1 hp.2.1)

theorem append (h : Literals s i k ns) (h' : Literals s k j ns') : Literals s i j (ns ++ ns') where
  le := Nat.le_trans h.le h'.le
  begins_iff p := by
    have hik := h.le
    have hkj := h'.le
    simp only [List.mem_append, or_and_right, exists_or, h.begins_iff p, h'.begins_iff p]
    constructor
    · rintro (⟨hp, hk, hb⟩ | ⟨hk, hp, hb⟩)
      · exact ⟨hp, by omega, hb⟩
      · exact ⟨by omega, hp, hb⟩
    · rintro ⟨hp, hp', hb⟩
      rcases Nat.lt_or_ge p k with hk | hk
      · exact .inl ⟨hp, hk, hb⟩
      · exact .inr ⟨hk, hp', hb⟩

theorem append_nil (h : Literals s i k ns) (h' : Literals s k j []) : Literals s i j ns := by
  have ha := h.append h'
  rwa [List.append_nil] at ha

theorem cons (h : Literals s i j ns) (he : ∀ n span, e ≠ .intLit n span) :
    Literals s i j (e :: ns) where
  le := h.le
  begins_iff p := by
    rw [← h.begins_iff p]
    refine exists_congr fun n ↦ exists_congr fun span ↦ and_congr_left fun _ ↦ ?_
    rw [List.mem_cons, or_iff_right (he n _).symm]

end Literals

theorem Blank.literals (h : Blank s i j) : Literals s i j [] :=
  .nil h.le fun _ ↦ h.not_beginsNumeral

theorem Token.literals [IsMark mark] (h : Token s mark i j) : Literals s i j [] := by
  obtain ⟨q, hb, hs⟩ := h
  exact hb.literals.append
    (.nil hs.le fun _ ↦ hs.not_beginsNumeral fun _ ↦ IsMark.not_isWordChar)

/-- A word with a letter at its beginning is no numeral. -/
theorem literals_of_word (hb : Blank s i k) (hs : Stands s w k j) (hw : ∀ c ∈ w, isNameChar c)
    (hh : w.head?.any Char.isDigit = false) : Literals s i j [] := by
  refine hb.literals.append (.nil hs.le fun p hk hj hp ↦ ?_)
  rcases Nat.lt_or_eq_of_le hk with hlt | rfl
  · exact hs.not_beginsNumeral_inside hw hlt (Nat.le_of_lt hj) hp
  · have hne : w ≠ [] := by
      rintro rfl
      exact Nat.ne_of_lt hj hs.2.symm
    rw [BeginsNumeral, hs.head_eq hne, hh] at hp
    cases hp.1

theorem Keyword.literals [hk : IsKeyword word] (h : Keyword s word i j) : Literals s i j [] := by
  obtain ⟨q, hb, hs, -⟩ := h
  refine literals_of_word hb hs IsKeyword.isNameChar ?_
  have hhead : (intWord :: boolWord :: reserved).all
      (fun word ↦ !word.head?.any Char.isDigit) = true := by decide
  simpa using List.all_eq_true.mp hhead word hk.mem

theorem Name.literals (h : Name s x i j) : Literals s i j [] := by
  obtain ⟨⟨q, hb, hs⟩, hx⟩ := h
  refine literals_of_word hb hs hx.2.1 ?_
  cases hc : x.toList with
  | nil => rfl
  | cons c cs =>
    have hstart := hx.1
    rw [hc] at hstart
    exact not_isDigit_of_isNameStart hstart

theorem Numeral.literals (h : Numeral s digits i j) (hi : Fresh s i) :
    Literals s i j [.intLit n (some ⟨text, skip s i, j⟩)] := by
  have hs := h.stands
  have hc : ∀ c ∈ digits, isNameChar c := fun c hc ↦ isNameChar_of_isDigit (h.2.2 c hc)
  have hdigit : (s.drop (skip s i)).head?.any Char.isDigit := by
    rw [hs.head_eq h.2.1, List.head?_eq_some_head h.2.1]
    exact h.2.2 _ (List.head_mem h.2.1)
  have hbegins : BeginsNumeral s (skip s i) :=
    ⟨hdigit, wordBefore_of_fresh hi
      (head_any_mono (fun _ h ↦ isWordChar_of_isNameChar (isNameChar_of_isDigit h)) hdigit)⟩
  refine ⟨Nat.le_of_lt h.bounds.1, fun p ↦ ?_⟩
  constructor
  · rintro ⟨n, span, hn, hp⟩
    cases List.mem_singleton.mp hn
    obtain rfl : skip s i = p := Int.ofNat_inj.mp hp
    exact ⟨le_skip s i, h.skip_lt, hbegins⟩
  · rintro ⟨hip, hpj, hp⟩
    refine ⟨n, _, List.mem_singleton.mpr rfl, congrArg Int.ofNat ?_⟩
    rcases Nat.lt_trichotomy p (skip s i) with hlt | rfl | hlt
    · exact absurd hp ((blank_skip s i).not_beginsNumeral hip hlt)
    · rfl
    · exact absurd hp (hs.not_beginsNumeral_inside hc hlt (Nat.le_of_lt hpj))

theorem TypeDerives.literals (h : TypeDerives d s m i j e) : Literals s i j e.parts := by
  induction h with
  | int h | bool h => exact h.literals.cons nofun
  | paren ho _ hc ih => exact (ho.literals.append ih).append_nil hc.literals
  | single _ ih => exact ih
  | arrow _ hm _ iha ihb => exact (iha.append (hm.literals.append ihb)).cons nofun

/-- The literals of a tree begin where its text has a numeral begin. -/
theorem Derives.literals (h : Derives (.placed text limit) text.toList ℓ i j e)
    (hi : Fresh text.toList i) : Literals text.toList i j e.parts := by
  induction h with
  | integer h => exact h.literals hi
  | yes h | no h => exact h.literals.cons nofun
  | reference h => exact h.literals.cons nofun
  | paren ho _ hc ih => exact ((ho.literals.append (ih ho.fresh)).append_nil hc.literals).cons nofun
  | single _ ih | operation _ ih => exact ih hi
  | more _ hm _ iha ihb => exact ((iha hi).append (hm.literals.append (ihb hm.fresh))).cons nofun
  | letIn hlet hx heq _ hin _ ihr ihb =>
    exact ((hlet.literals.append (hx.literals.append (heq.literals.append (ihr heq.fresh)))).append
      (hin.literals.append (ihb hin.fresh))).cons nofun
  | function hfn hopen hx hcolon ht hclose harrow _ ihb =>
    have hhead := hfn.literals.append (hopen.literals.append (hx.literals.append hcolon.literals))
    exact ((hhead.append ht.literals).append
      (hclose.literals.append (harrow.literals.append (ihb harrow.fresh)))).cons nofun

theorem Written.literals (h : Written limit text e) :
    Literals text.toList 0 text.toList.length e.parts := by
  obtain ⟨j, hd, hb⟩ := h
  exact (hd.literals (fresh_zero _)).append_nil hb.literals

end TypedLet.Grammar
