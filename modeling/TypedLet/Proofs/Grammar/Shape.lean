import TypedLet.Proofs.Grammar.Subtext
import TypedLet.Proofs.Grammar.Words
import TypedLet.Proofs.Text.Decimal

namespace TypedLet

open Grammar

/-- The trees that can be written at a level without further parentheses, with numerals of at most
`limit` digits. -/
inductive Node.Shaped (limit : Nat) : Level → Node → Prop
  | intLit {n : Nat} {span} : (Nat.toDigits 10 n).length ≤ limit →
      Shaped limit .atom (.intLit n span)
  | boolLit {b span} : Shaped limit .atom (.boolLit b span)
  | var {x span} : IsName x.toList → Shaped limit .atom (.var x span)
  | paren {e span} : Shaped limit .expression e → Shaped limit .atom (.paren e span)
  | single {op e} : Shaped limit op.operand e → Shaped limit (.chain op) e
  | more {op a b span} : Shaped limit (.chain op) a → Shaped limit op.operand b →
      Shaped limit (.chain op) (.binary op a b span)
  | letIn {x right body span} : IsName x.toList → Shaped limit .expression right →
      Shaped limit .expression body → Shaped limit .expression (.letIn x right body span)
  | fn {x type body paramSpan span} : IsName x.toList → type.isType →
      Shaped limit .expression body → Shaped limit .expression (.fn x type body paramSpan span)
  | operation {e} : Shaped limit (.chain .conj) e → Shaped limit .expression e

/-- A tree as a text: its words with one space between them. -/
def Node.rendered (e : Node) : String := String.ofList ([' '].intercalate e.words)

variable {d : Dialect} {s w : List Char} {ws : List (List Char)} {a b e : Node} {ℓ : Level}
variable {limit i j q : Nat} {source : String}

namespace Node

/-- The shape of a tree does not depend on its places. -/
theorem Shaped.of_same (h : a.Shaped limit ℓ) (he : a.erase = b.erase) : b.Shaped limit ℓ := by
  induction h generalizing b with
  | intLit hn => cases b <;> cases he; exact .intLit hn
  | boolLit => cases b <;> cases he; exact .boolLit
  | var hx => cases b <;> cases he; exact .var hx
  | single _ ih => exact .single (ih he)
  | operation _ ih => exact .operation (ih he)
  | paren _ ih =>
    cases b with
    | paren inner span =>
      injection he with he
      exact .paren (ih he)
    | _ => cases he
  | more _ _ iha ihb =>
    cases b with
    | binary op left right span =>
      injection he with hop hl hr
      obtain rfl := hop
      exact .more (iha hl) (ihb hr)
    | _ => cases he
  | letIn hx _ _ ihr ihb =>
    cases b with
    | letIn x right body span =>
      injection he with hname hr hb
      obtain rfl := hname
      exact .letIn hx (ihr hr) (ihb hb)
    | _ => cases he
  | fn hx ht _ ihb =>
    cases b with
    | fn x type body paramSpan span =>
      injection he with hname htype hb
      obtain rfl := hname
      rw [← isType_erase, htype, isType_erase] at ht
      exact .fn hx ht (ihb hb)
    | _ => cases he

theorem Shaped.words_ne_nil (h : e.Shaped limit ℓ) : e.words ≠ [] := by
  induction h with
  | single _ ih | operation _ ih => exact ih
  | _ => simp [words]

theorem tab_notMem_type_words (h : e.isType) : ∀ w ∈ e.words, '\t' ∉ w := by
  induction e with
  | intType | boolType => exact List.forall_mem_singleton.mpr (by decide)
  | funcType a b _ iha ihb =>
    obtain ⟨ha, hb⟩ := Bool.and_eq_true_iff.mp h
    simp only [words, List.forall_mem_cons, List.forall_mem_append]
    exact ⟨by decide, iha ha, by decide, ihb hb, by decide, by simp⟩
  | _ => cases h

theorem tab_notMem_of_isName (h : IsName w) : '\t' ∉ w :=
  fun hc ↦ absurd (h.2.1 _ hc) (by decide)

theorem Shaped.tab_notMem_words (h : e.Shaped limit ℓ) : ∀ w ∈ e.words, '\t' ∉ w := by
  induction h with
  | @intLit n =>
    refine List.forall_mem_singleton.mpr fun hc ↦ ?_
    change '\t' ∈ (String.ofList (Nat.toDigits 10 n)).toList at hc
    rw [String.toList_ofList] at hc
    exact absurd (Nat.isDigit_of_mem_toDigits (by decide) (by decide) hc) (by decide)
  | @boolLit b => cases b <;> exact List.forall_mem_singleton.mpr (by decide)
  | var hx => exact List.forall_mem_singleton.mpr (tab_notMem_of_isName hx)
  | single _ ih | operation _ ih => exact ih
  | paren _ ih =>
    simp only [words, List.forall_mem_cons, List.forall_mem_append]
    exact ⟨by decide, ih, by decide, by simp⟩
  | @more op _ _ _ _ _ iha ihb =>
    simp only [words, List.forall_mem_cons, List.forall_mem_append]
    exact ⟨iha, by cases op <;> decide, ihb⟩
  | letIn hx _ _ ihr ihb =>
    simp only [words, List.forall_mem_cons, List.forall_mem_append]
    exact ⟨by decide, tab_notMem_of_isName hx, by decide, ihr, by decide, ihb⟩
  | fn hx ht _ ihb =>
    simp only [words, List.forall_mem_cons, List.forall_mem_append]
    exact ⟨by decide, by decide, tab_notMem_of_isName hx, by decide, tab_notMem_type_words ht,
      by decide, by decide, ihb⟩

end Node

namespace Grammar

open Text

/-- A tree that is derived has the shape of its level. -/
theorem Derives.shaped (h : Derives d s ℓ i j e) (hd : ∀ n, d.fits n → n ≤ limit) :
    e.Shaped limit ℓ := by
  induction h with
  | integer h hl =>
    exact .intLit (Nat.le_trans (length_toDigits_numeralValue_le h.2.1 h.2.2) (hd _ hl))
  | yes | no => exact .boolLit
  | reference h => exact .var h.2
  | paren _ _ _ ih => exact .paren ih
  | single _ ih => exact .single ih
  | more _ _ _ iha ihb => exact .more iha ihb
  | letIn _ hx _ _ _ _ ihr ihb => exact .letIn hx.2 ihr ihb
  | function _ _ hx _ ht _ _ _ ihb => exact .fn hx.2 ht.isType ihb
  | operation _ ih => exact .operation ih

/-- Wherever the words of a tree are laid out, the tree can be derived at the level whose shape it
has. -/
theorem Derives.of_words (h : e.Shaped limit ℓ) (hw : LaidOut s e.words i j) :
    Derives (.sized limit) s ℓ i j e.erase := by
  induction h generalizing i j with
  | @intLit n span hn =>
    have hw : Apart s (String.ofList (Nat.toDigits 10 n)).toList i j := LaidOut.singleton_iff.mp hw
    rw [String.toList_ofList] at hw
    have hd : IsNumeral (Nat.toDigits 10 n) :=
      ⟨Nat.toDigits_ne_nil, fun c hc ↦ Nat.isDigit_of_mem_toDigits (by decide) (by decide) hc⟩
    have h := Derives.integer (d := .sized limit) ⟨hw.token, hd⟩ hn
    rwa [numeralValue_toDigits] at h
  | @boolLit b span =>
    have hw := LaidOut.singleton_iff.mp hw
    cases b with
    | false => exact .no (Apart.keyword (w := falseWord) hw)
    | true => exact .yes (Apart.keyword (w := trueWord) hw)
  | var hx => exact .reference ⟨(LaidOut.singleton_iff.mp hw).token, hx⟩
  | single _ ih => exact .single (ih hw)
  | operation _ ih => exact .operation (ih hw)
  | paren _ ih =>
    simp only [Node.words, LaidOut.cons_iff, LaidOut.append_iff, LaidOut.nil_iff] at hw
    obtain ⟨_, hopen, _, hinner, _, hclose, rfl⟩ := hw
    exact .paren hopen.token (ih hinner) hclose.token
  | more _ _ iha ihb =>
    simp only [Node.words, LaidOut.cons_iff, LaidOut.append_iff] at hw
    obtain ⟨_, hleft, _, hmark, hright⟩ := hw
    have h := Derives.more (iha hleft) hmark.token (ihb hright)
    rwa [Node.spanning_erase] at h
  | letIn hx _ _ ihr ihb =>
    simp only [Node.words, LaidOut.cons_iff, LaidOut.append_iff] at hw
    obtain ⟨_, hlet, _, hname, _, hequal, _, hright, _, hin, hbody⟩ := hw
    exact .letIn hlet.keyword ⟨hname.token, hx⟩ hequal.token (ihr hright) hin.keyword (ihb hbody)
  | fn hx ht _ ihb =>
    simp only [Node.words, LaidOut.cons_iff, LaidOut.append_iff] at hw
    obtain ⟨_, hfn, _, hopen, _, hname, _, hcolon, _, htype, _, hclose, _, harrow, hbody⟩ := hw
    exact .function hfn.keyword hopen.token ⟨hname.token, hx⟩ hcolon.token
      (.single (.of_words ht htype)) hclose.token harrow.token (ihb hbody)

/-- A text in which the words of a well-shaped tree are laid out, and nothing else, is read as that
tree. -/
theorem readExpression_of_words (h : e.Shaped maxDigits .expression) (htab : '\t' ∉ source.toList)
    (hw : LaidOut source.toList e.words 0 j) (hb : Blank source.toList j source.toList.length) :
    ∃ t, readExpression source = .ok t ∧ t.same e := by
  obtain ⟨t, ht, he⟩ := (Derives.of_words h hw).exists_read (fun _ hn ↦ hn) hb htab
  exact ⟨t, ht, Node.same_iff.mpr (he.trans e.erase_erase)⟩

/-- Words that single spaces separate are laid out. -/
theorem laidOut_intercalate (hne : ws ≠ []) (hl : Blank s i q)
    (h : Stands s ([' '].intercalate ws) q j) (hb : wordBefore s q = false)
    (ha : wordAfter s j = false) : LaidOut s ws i j := by
  induction ws generalizing i q with
  | nil => exact absurd rfl hne
  | cons w ws ih =>
    cases ws with
    | nil =>
      rw [List.intercalate_singleton] at h
      exact LaidOut.singleton_iff.mpr (apart_of_stands hl h hb ha)
    | cons v ws =>
      rw [List.intercalate_cons_cons, List.append_assoc] at h
      obtain ⟨k, hw, h⟩ := h.split
      obtain ⟨k', hspace, h⟩ := h.split
      exact .cons (apart_of_stands hl hw hb (hspace.not_wordAfter rfl))
        (ih (List.cons_ne_nil v ws) (blank_of_space hspace) h (hspace.not_wordBefore rfl))

theorem notMem_intercalate {c : Char} (hw : ∀ w ∈ ws, c ∉ w) (hs : c ∉ s) :
    c ∉ s.intercalate ws := by
  induction ws with
  | nil => simp
  | cons w ws ih =>
    obtain ⟨h, hw⟩ := List.forall_mem_cons.mp hw
    cases ws with
    | nil => simpa using h
    | cons v ws => simp [List.intercalate_cons_cons, h, hs, ih hw]

/-- A well-shaped tree is read back from its own text. -/
theorem readExpression_rendered (h : e.Shaped maxDigits .expression) :
    ∃ t, readExpression e.rendered = .ok t ∧ t.same e := by
  have hs : Stands e.rendered.toList ([' '].intercalate e.words) 0 e.rendered.toList.length := by
    rw [Node.rendered, String.toList_ofList]
    exact stands_self _
  have hw := laidOut_intercalate h.words_ne_nil (blank_refl _ 0) hs (wordBefore_zero _)
    (wordAfter_length _)
  refine readExpression_of_words h ?_ hw (blank_refl _ _)
  rw [Node.rendered, String.toList_ofList]
  exact notMem_intercalate h.tab_notMem_words (by decide)

theorem shaped_of_readExpression {t : Node} (h : readExpression source = .ok t) :
    t.Shaped maxDigits .expression := by
  obtain ⟨_, hd, -⟩ := readExpression_ok_iff.mp h
  exact hd.shaped fun _ hn ↦ hn

/-- The trees that are read are the trees of one shape: every tree that is read has it, and every
tree of that shape is read from its words with single spaces between them. So what is read can be
written and read again. -/
theorem readExpression_image :
    (∀ source t, readExpression source = .ok t → t.Shaped maxDigits .expression) ∧
    (∀ e, e.Shaped maxDigits .expression →
      ∃ t, readExpression e.rendered = .ok t ∧ t.same e) ∧
    (∀ e, e.Shaped maxDigits .expression ↔
      ∃ source t, readExpression source = .ok t ∧ t.same e) ∧
    ∀ source t, readExpression source = .ok t →
      ∃ t', readExpression t.rendered = .ok t' ∧ t'.same t := by
  refine ⟨fun _ _ ↦ shaped_of_readExpression, fun _ ↦ readExpression_rendered,
    fun e ↦ ⟨fun h ↦ ⟨_, readExpression_rendered h⟩, fun h ↦ ?_⟩,
    fun _ _ h ↦ readExpression_rendered (shaped_of_readExpression h)⟩
  obtain ⟨source, t, ht, hsame⟩ := h
  exact (shaped_of_readExpression ht).of_same (Node.same_iff.mp hsame)

theorem binders_rendered :
    ∃ e : Node, e.Shaped maxDigits .expression ∧
      e.rendered = "let f = fn ( x : ( Int -> Bool ) ) => x in 1 + 2 == ( f )" ∧
      ∃ t, readExpression e.rendered = .ok t ∧ t.same e := by
  have hf : IsName "f".toList := by decide
  have hx : IsName "x".toList := by decide
  have hright : (Node.fn "x" (.funcType (.intType none) (.boolType none) none) (.var "x" none) none
      none).Shaped maxDigits .expression :=
    .fn hx rfl (.operation (.single (.single (.single (.var hx)))))
  have hsum : (Node.binary .sum (.intLit 1 none) (.intLit 2 none) none).Shaped maxDigits
      (.chain .sum) := .more (.single (.intLit (n := 1) (by decide))) (.intLit (n := 2) (by decide))
  have hparen : (Node.paren (.var "f" none) none).Shaped maxDigits .atom :=
    .paren (.operation (.single (.single (.single (.var hf)))))
  have hequal : (Node.binary .equal (.binary .sum (.intLit 1 none) (.intLit 2 none) none)
      (.paren (.var "f" none) none) none).Shaped maxDigits (.chain .equal) :=
    .more (.single hsum) (.single hparen)
  have h : (Node.letIn "f" (.fn "x" (.funcType (.intType none) (.boolType none) none)
      (.var "x" none) none none) (.binary .equal (.binary .sum (.intLit 1 none) (.intLit 2 none)
      none) (.paren (.var "f" none) none) none) none).Shaped maxDigits .expression :=
    .letIn hf hright (.operation (.single hequal))
  exact ⟨_, h, rfl, readExpression_image.2.1 _ h⟩

end Grammar

end TypedLet
