import TypedLet.Proofs.Grammar.Prefix
import TypedLet.Proofs.Grammar.Visible
import TypedLet.Proofs.Grammar.Words

namespace TypedLet.Grammar

/-- What may stand in a text from one place to another. -/
def Language : Type := List Char → Nat → Nat → Prop

namespace Language

def andThen (L M : Language) : Language := fun s i j ↦ ∃ k, L s i k ∧ M s k j

def token (w : List Char) : Language := fun s ↦ Token s w

def keyword (word : List Char) : Language := fun s ↦ Keyword s word

def name : Language := fun s i j ↦ Fresh s i ∧ ∃ x, Name s x i j

/-- An annotation and some of the layout behind it. -/
def type (m : TypeLevel) : Language := fun s i j ↦
  ∃ k e, TypeDerives .plain s m i k e ∧ Blank s k j

/-- An expression, no numeral of which has more than `limit` digits, and some of the layout behind
it. -/
def expression (limit : Nat) (ℓ : Level) : Language := fun s i j ↦
  Fresh s i ∧ ∃ k e, Derives (.sized limit) s ℓ i k e ∧ Blank s k j

def Within (L M : Language) : Prop := ∀ ⦃s i j⦄, L s i j → M s i j

end Language

/-- What begins where no word is under way is told from the text up to its end, and something of
the kind can be written behind every text. -/
class Readable (L : Language) : Prop where
  fresh {s i j} : L s i j → Fresh s i
  bounds {s i j} : L s i j → i < j ∧ j ≤ s.length
  congr {s s' i j} : L s i j → Agrees s s' j → L s' i j
  filled : ∃ w, '\t' ∉ w ∧
    ∀ {s i}, Blank s i s.length → L (s ++ ' ' :: w) i (s ++ ' ' :: w).length

/-- The text up to a place can be completed. -/
def Viable (Goal : List Char → Prop) (s : List Char) (n : Nat) : Prop :=
  n ≤ s.length ∧ ∃ v, Goal v ∧ s.take n <+: v

/-- Whatever of a language is put behind the text up to a place, the text with it can be
completed. -/
structure Awaits (Goal : List Char → Prop) (L : Language) (s : List Char) (i : Nat) : Prop where
  le_length : i ≤ s.length
  tab_notMem : '\t' ∉ s
  completes : ∀ ⦃u j⦄, '\t' ∉ u → u.take i = s.take i → L u i j → ∃ v, Goal v ∧ u.take j <+: v

variable {Goal : List Char → Prop} {L M : Language} {s s' u w mark word x : List Char} {e : Node}
variable {d : Dialect} {ℓ : Level} {t : TypeLevel} {limit i j k m n : Nat}

theorem tab_notMem_of_visible [hw : Visible w] : '\t' ∉ w :=
  fun hc ↦ absurd (hw.not_isBlank _ hc) (by decide)

/-! A space keeps what is written behind it apart. -/

theorem take_append_space (hj : j ≤ s.length) (w : List Char) :
    (s.take j ++ ' ' :: w).take j = s.take j :=
  List.take_left' (List.length_take_of_le hj)

theorem wordAfter_append_space (s w : List Char) : wordAfter (s ++ ' ' :: w) s.length = false := by
  rw [wordAfter, List.drop_left]
  rfl

theorem Agrees.append_space (s w : List Char) : Agrees s (s ++ ' ' :: w) s.length :=
  .of_fresh (by rw [List.take_left, List.take_length]) (.inr (wordAfter_append_space s w))

theorem Agrees.take_space (hj : j ≤ s.length) (w : List Char) :
    Agrees s (s.take j ++ ' ' :: w) j := by
  have ha := wordAfter_append_space (s.take j) w
  rw [List.length_take_of_le hj] at ha
  exact .of_fresh (take_append_space hj w) (.inr ha)

theorem tab_notMem_take_space (hs : '\t' ∉ s) (hw : '\t' ∉ w) (j : Nat) :
    '\t' ∉ s.take j ++ ' ' :: w := by
  rw [List.mem_append, List.mem_cons, not_or, not_or]
  exact ⟨fun hc ↦ hs (List.mem_of_mem_take hc), by decide, hw⟩

theorem Blank.append_space (h : Blank s i s.length) (w : List Char) :
    Blank (s ++ ' ' :: w) i (s.length + 1) := by
  refine (h.congr (Agrees.append_space s w).take_eq).trans (blank_of_space ⟨?_, rfl⟩)
  rw [List.drop_left]
  exact List.cons_prefix_cons.mpr ⟨rfl, List.nil_prefix⟩

theorem stands_append_space (s w : List Char) :
    Stands (s ++ ' ' :: w) w (s.length + 1) (s ++ ' ' :: w).length := by
  have hd : (s ++ ' ' :: w).drop (s.length + 1) = w := by
    rw [← List.drop_drop, List.drop_left]
    rfl
  refine ⟨⟨[], by rw [hd, List.append_nil]⟩, ?_⟩
  rw [List.length_append, List.length_cons]
  omega

theorem Blank.token_append (h : Blank s i s.length) (w : List Char) :
    Token (s ++ ' ' :: w) w i (s ++ ' ' :: w).length :=
  ⟨_, h.append_space w, stands_append_space s w⟩

theorem Blank.keyword_append (h : Blank s i s.length) (w : List Char) :
    Keyword (s ++ ' ' :: w) w i (s ++ ' ' :: w).length := by
  refine ⟨_, h.append_space w, stands_append_space s w, ?_, wordAfter_length _⟩
  rw [wordBefore, List.take_length_add_append, List.getLast?_append]
  rfl

theorem Blank.fresh (h : Blank s i j) (hij : i < j) : Fresh s i :=
  .inr (wordAfter_of_lt_skip (Nat.lt_of_lt_of_le hij h.le_skip))

theorem Blank.fresh_append (h : Blank s i s.length) (w : List Char) : Fresh (s ++ ' ' :: w) i :=
  (h.append_space w).fresh (Nat.lt_succ_of_le h.le)

/-! Marks, keywords and annotations begin where no word is under way. -/

theorem Token.starts_fresh [hm : IsMark mark] (h : Token s mark i j) : Fresh s i := by
  rcases Nat.lt_or_eq_of_le (le_skip s i) with hlt | he
  · exact .inr (wordAfter_of_lt_skip hlt)
  · have hs := token_iff.mp h
    rw [← he] at hs
    refine .inr (hs.not_wordAfter ?_)
    obtain ⟨c, hc⟩ := Option.ne_none_iff_exists'.mp (mt List.head?_eq_none_iff.mp hm.ne_nil)
    rw [hc, Option.any_some, IsMark.not_isWordChar (List.mem_of_head? hc)]
    rfl

theorem Keyword.starts_fresh [IsKeyword word] (h : Keyword s word i j) : Fresh s i := by
  rcases Nat.lt_or_eq_of_le (le_skip s i) with hlt | he
  · exact .inr (wordAfter_of_lt_skip hlt)
  · obtain ⟨-, hb, -⟩ := keyword_iff.mp h
    rw [← he] at hb
    exact .inl hb

theorem TypeDerives.starts_fresh (h : TypeDerives d s t i j e) : Fresh s i := by
  induction h with
  | int h | bool h => exact h.starts_fresh
  | paren ho _ _ _ => exact ho.starts_fresh
  | single _ ih => exact ih
  | arrow _ _ _ ih _ => exact ih

theorem Derives.of_atom (h : Derives d s .atom i j e) (ℓ : Level) : Derives d s ℓ i j e := by
  rcases ℓ with _ | (_ | _ | _) | _
  · exact h
  · exact .single (.single (.single h))
  · exact .single (.single h)
  · exact .single h
  · exact .operation (.single (.single (.single h)))

instance (op : Op) : Visible op.mark := by
  cases op with
  | conj => exact inferInstanceAs (Visible ['&', '&'])
  | equal => exact inferInstanceAs (Visible ['=', '='])
  | sum => exact inferInstanceAs (Visible ['+'])

instance [IsMark mark] [Visible mark] : Readable (.token mark) where
  fresh := Token.starts_fresh
  bounds := Token.bounds
  congr h ha := Token.congr h ha.take_eq
  filled := ⟨mark, tab_notMem_of_visible, fun h ↦ h.token_append mark⟩

instance [IsKeyword word] : Readable (.keyword word) where
  fresh := Keyword.starts_fresh
  bounds := Keyword.bounds
  congr h ha := Keyword.congr h ha
  filled := ⟨word, tab_notMem_of_visible, fun h ↦ h.keyword_append word⟩

instance : Readable .name where
  fresh h := h.1
  bounds h := by
    obtain ⟨-, x, h⟩ := h
    exact h.bounds
  congr h ha := by
    obtain ⟨hi, x, h⟩ := h
    exact ⟨(ha.mono (Nat.le_of_lt h.bounds.1)).fresh hi, x, h.congr ha.take_eq⟩
  filled := ⟨['x'], by decide, fun h ↦
    ⟨h.fresh_append _, "x", h.token_append _, by decide⟩⟩

instance (t : TypeLevel) : Readable (.type t) where
  fresh h := by
    obtain ⟨k, e, h, -⟩ := h
    exact h.starts_fresh
  bounds h := by
    obtain ⟨k, e, h, hb⟩ := h
    obtain ⟨w, hw, -⟩ := hb
    exact ⟨Nat.lt_of_lt_of_le h.bounds.1 hw.le, hw.le_length h.bounds.2⟩
  congr h ha := by
    obtain ⟨k, e, h, hb⟩ := h
    exact ⟨k, e, h.congr (ha.mono hb.le), hb.congr ha.take_eq⟩
  filled := by
    refine ⟨intWord, tab_notMem_of_visible, fun {s i} h ↦ ?_⟩
    have hint := TypeDerives.int (d := .plain) (h.keyword_append intWord)
    cases t with
    | atom => exact ⟨_, _, hint, blank_refl _ _⟩
    | arrow => exact ⟨_, _, .single hint, blank_refl _ _⟩

instance (limit : Nat) (ℓ : Level) : Readable (.expression limit ℓ) where
  fresh h := h.1
  bounds h := by
    obtain ⟨-, k, e, h, hb⟩ := h
    obtain ⟨w, hw, -⟩ := hb
    exact ⟨Nat.lt_of_lt_of_le h.bounds.1 hw.le, hw.le_length h.bounds.2⟩
  congr h ha := by
    obtain ⟨hi, k, e, h, hb⟩ := h
    have hij := Nat.le_trans (Nat.le_of_lt h.bounds.1) hb.le
    exact ⟨(ha.mono hij).fresh hi, k, e, h.congr (ha.mono hb.le), hb.congr ha.take_eq⟩
  filled := by
    refine ⟨['x'], by decide, fun {s i} h ↦ ?_⟩
    have hx : Name (s ++ [' ', 'x']) "x" i (s ++ [' ', 'x']).length :=
      ⟨h.token_append ['x'], by decide⟩
    have hd := (Derives.reference (d := .sized limit) hx).of_atom ℓ
    exact ⟨h.fresh_append _, _, _, hd, blank_refl _ _⟩

instance [hL : Readable L] [hM : Readable M] : Readable (L.andThen M) where
  fresh h := by
    obtain ⟨k, h, -⟩ := h
    exact hL.fresh h
  bounds h := by
    obtain ⟨k, h, h'⟩ := h
    exact ⟨Nat.lt_trans (hL.bounds h).1 (hM.bounds h').1, (hM.bounds h').2⟩
  congr h ha := by
    obtain ⟨k, h, h'⟩ := h
    exact ⟨k, hL.congr h (ha.mono (Nat.le_of_lt (hM.bounds h').1)), hM.congr h' ha⟩
  filled := by
    obtain ⟨w, hw, hfw⟩ := hL.filled
    obtain ⟨v, hv, hfv⟩ := hM.filled
    refine ⟨w ++ ' ' :: v, ?_, fun {s i} h ↦ ?_⟩
    · rw [List.mem_append, List.mem_cons, not_or, not_or]
      exact ⟨hw, by decide, hv⟩
    · rw [← List.cons_append, ← List.append_assoc]
      exact ⟨_, hL.congr (hfw h) (.append_space _ v), hfv (blank_refl _ _)⟩

theorem Readable.cut [hL : Readable L] (h : L s i j) : L (s.take j) i (s.take j).length := by
  have hlen := List.length_take_of_le (hL.bounds h).2
  have hend := wordAfter_length (s.take j)
  rw [hlen] at hend ⊢
  exact hL.congr h (.of_fresh (by rw [List.take_take, Nat.min_self]) (.inr hend))

theorem Viable.mono (h : Viable Goal s n) (hm : m ≤ n) : Viable Goal s m := by
  obtain ⟨hn, v, hv, hp⟩ := h
  exact ⟨Nat.le_trans hm hn, v, hv, (List.take_prefix_take_left hm).trans hp⟩

namespace Awaits

theorem mono (h : Awaits Goal M s i) (hLM : L.Within M) : Awaits Goal L s i where
  le_length := h.le_length
  tab_notMem := h.tab_notMem
  completes _ _ hu ht hL := h.completes hu ht (hLM hL)

theorem viable [hL : Readable L] (h : Awaits Goal L s i) (hj : L s i j) : Viable Goal s j :=
  ⟨(hL.bounds hj).2, h.completes h.tab_notMem rfl hj⟩

/-- Something can be written where it is awaited, behind any layout that is there. -/
theorem viable_skip [hL : Readable L] (h : Awaits Goal L s i) : Viable Goal s (skip s i) := by
  obtain ⟨w, hw, hf⟩ := hL.filled
  have hle := skip_le_length h.le_length
  have hlen := List.length_take_of_le hle
  have ht := take_append_space hle w
  have hb : Blank (s.take (skip s i)) i (s.take (skip s i)).length := by
    rw [hlen]
    exact (blank_skip s i).congr (by rw [List.take_take, Nat.min_self])
  obtain ⟨v, hv, hp⟩ := h.completes (tab_notMem_take_space h.tab_notMem hw _)
    (take_eq_of_le ht (le_skip s i)) (hf hb)
  rw [List.take_length] at hp
  exact ⟨hle, v, hv, (List.prefix_append _ _).trans hp⟩

theorem head [hL : Readable L] [hM : Readable M] (h : Awaits Goal (L.andThen M) s i) :
    Awaits Goal L s i where
  le_length := h.le_length
  tab_notMem := h.tab_notMem
  completes u j hu ht hj := by
    obtain ⟨w, hw, hf⟩ := hM.filled
    obtain ⟨hij, hle⟩ := hL.bounds hj
    have hb : Blank (u.take j) j (u.take j).length := by
      rw [List.length_take_of_le hle]
      exact blank_refl _ _
    have hi := take_eq_of_le (take_append_space hle w) (Nat.le_of_lt hij)
    obtain ⟨v, hv, hp⟩ := h.completes (tab_notMem_take_space hu hw j) (hi.trans ht)
      ⟨j, hL.congr hj (.take_space hle w), hf hb⟩
    rw [List.take_length] at hp
    exact ⟨v, hv, (List.prefix_append _ _).trans hp⟩

theorem tail [hL : Readable L] [hM : Readable M] (h : Awaits Goal (L.andThen M) s i)
    (hj : L s i j) : Awaits Goal M s j where
  le_length := (hL.bounds hj).2
  tab_notMem := h.tab_notMem
  completes _ _ hu ht hM' :=
    h.completes hu (take_eq_of_le ht (Nat.le_of_lt (hL.bounds hj).1))
      ⟨j, hL.congr hj (.of_fresh ht (hM.fresh hM')), hM'⟩

/-- A keyword that something runs into is where it should be. -/
theorem viable_keyword [IsKeyword word] (h : Awaits Goal (.keyword word) s i)
    (hs : Stands s word (skip s i) j) (hb : wordBefore s (skip s i) = false) : Viable Goal s j := by
  have hle := hs.le_length_of_ne_nil IsKeyword.ne_nil
  have ha := wordAfter_append_space (s.take j) []
  rw [List.length_take_of_le hle] at ha
  have ht := take_append_space hle []
  have hk := take_eq_of_le ht hs.le
  have hword : Keyword (s.take j ++ [' ']) word i j := by
    refine ⟨_, (blank_skip s i).congr hk, hs.congr ht, ?_, ha⟩
    rwa [wordBefore_congr hk]
  obtain ⟨v, hv, hp⟩ := h.completes (tab_notMem_take_space h.tab_notMem List.not_mem_nil j)
    (take_eq_of_le hk (le_skip s i)) hword
  rw [ht] at hp
  exact ⟨hle, v, hv, hp⟩

/-- What a name begins with can be made into one, whether it is reserved or not. -/
theorem viable_name (h : Awaits Goal .name s i) (hi : Fresh s i) (hs : Stands s x (skip s i) j)
    (hx : x.head?.any isNameStart) (hc : ∀ c ∈ x, isNameChar c) : Viable Goal s j := by
  have hne : x ≠ [] := by
    rintro rfl
    cases hx
  have hle := hs.le_length_of_ne_nil hne
  have ht : (s.take j ++ ['x']).take j = s.take j :=
    List.take_left' (List.length_take_of_le hle)
  have hk := take_eq_of_le ht hs.le
  have hend : Stands (s.take j ++ ['x']) ['x'] j (j + 1) := by
    refine ⟨⟨[], ?_⟩, rfl⟩
    rw [List.drop_left' (List.length_take_of_le hle), List.append_nil]
  have hname : IsName (x ++ ['x']) := by
    refine ⟨?_, ?_, fun hr ↦ ?_⟩
    · obtain ⟨c, r, rfl⟩ := List.exists_cons_of_ne_nil hne
      exact hx
    · exact List.forall_mem_append.mpr ⟨hc, List.forall_mem_singleton.mpr rfl⟩
    · have hlast : ∀ word ∈ reserved, word.getLast? ≠ some 'x' := by decide
      exact hlast _ hr List.getLast?_concat
  have hread : Name (s.take j ++ ['x']) (String.ofList (x ++ ['x'])) i (j + 1) := by
    rw [Name, String.toList_ofList]
    exact ⟨⟨_, (blank_skip s i).congr hk, (hs.congr ht).append hend⟩, hname⟩
  have hlt := Nat.lt_of_le_of_lt (le_skip s i) (hs.lt hne)
  have htab : '\t' ∉ s.take j ++ ['x'] := by
    rw [List.mem_append, not_or]
    exact ⟨fun hc ↦ h.tab_notMem (List.mem_of_mem_take hc), by decide⟩
  obtain ⟨v, hv, hp⟩ := h.completes htab (take_eq_of_le hk (le_skip s i))
    ⟨(Agrees.of_lt ht hlt).fresh hi, _, hread⟩
  refine ⟨hle, v, hv, ?_⟩
  rw [← ht]
  exact (List.take_prefix_take_left (Nat.le_succ j)).trans hp

end Awaits

end TypedLet.Grammar
