import TypedLet.Proofs.Grammar.Annotation
import TypedLet.Proofs.Grammar.Follow

namespace TypedLet.Grammar

open Rule

variable {text : String} {limit : Nat} {s mark word : List Char} {x : String} {e a : Node}
variable {es : List Node} {ℓ ℓ' : Level} {op op' : Op} {r : Rule Node} {c c' : Cursor}
variable {i j k l n : Nat}

theorem located_inText {α : Type} {r : Rule α} {v : α}
    (h : r (.inText text i) = .parsed v (.inText text j)) : located r (.inText text i) =
      .parsed (v, ⟨text, skip text.toList i, j⟩) (.inText text j) := by
  rw [located_of_parsed h, Cursor.skipLayout_inText]
  rfl

theorem numeral_fails_of_head {c : Char}
    (h : (text.toList.drop (skip text.toList i)).head? = some c) (hc : c.isDigit = false) :
    (integer limit).Fails (.inText text i) := by
  have hn : (numeral limit).Fails (.inText text i) := numeral_fails (by rw [h, Option.any_some, hc])
  exact hn.located.bind _

theorem boolean_fails (ht : ∀ j, ¬ Keyword text.toList trueWord i j)
    (hf : ∀ j, ¬ Keyword text.toList falseWord i j) : boolean.Fails (.inText text i) := by
  refine (Fails.located (firstOf_fails fun r hr ↦ ?_)).bind _
  simp only [List.mem_cons, List.not_mem_nil, or_false] at hr
  rcases hr with rfl | rfl
  · exact (keyword_fails ht).bind _
  · exact (keyword_fails hf).bind _

theorem conjunction_fails (h : Keyword text.toList word i j) (hw : word = letWord ∨ word = fnWord) :
    (conjunction limit r).Fails (.inText text i) := by
  have hmem : word ∈ reserved := by rcases hw with rfl | rfl <;> decide
  have := IsKeyword.of_reserved hmem
  have hhead := h.head_eq
  have hatom : (atom limit r).Fails (.inText text i) := by
    refine firstOf_fails fun r' hr ↦ ?_
    simp only [List.mem_cons, List.not_mem_nil, or_false] at hr
    rcases hr with rfl | rfl | rfl | rfl
    · rcases hw with rfl | rfl <;> exact numeral_fails_of_head hhead (by decide)
    · refine boolean_fails (fun k hk ↦ ?_) (fun k hk ↦ ?_)
      · have he := keyword_unique h hk
        rcases hw with rfl | rfl <;> cases he
      · have he := keyword_unique h hk
        rcases hw with rfl | rfl <;> cases he
    · exact (name_fails_of_keyword hmem h).located.bind _
    · refine (Fails.located ((symbol_fails fun k hk ↦ ?_).bind _)).bind _
      have he := hk.head_eq.symm.trans hhead
      rcases hw with rfl | rfl <;> cases he
  exact ((hatom.bind _).bind _).bind _

def Level.rule (limit : Nat) (self : Rule Node) : Level → Rule Node
  | atom => Grammar.atom limit self
  | chain .sum => Grammar.sum limit self
  | chain .equal => equality limit self
  | chain .conj => conjunction limit self
  | expression => expressionBody limit self

theorem rule_chain (limit : Nat) (self : Rule Node) (op : Op) :
    (Level.chain op).rule limit self = chain op op.mark (op.operand.rule limit self) := by
  cases op <;> rfl

def further (limit n : Nat) (op : Op) : Rule Node := do
  symbol op.mark
  op.operand.rule limit (expressionUpTo limit n)

/-- How the rules read a tree that can be derived: a chain as a part and what is joined to it
piece by piece, which says nothing yet of where the reading stops, and all else as it stands. -/
def Reads (text : String) (limit : Nat) : Level → Nat → Nat → Node → Prop
  | .chain op, i, j, e => ∀ n, text.toList.length - i ≤ n → Follows text.toList op.operand j →
      ∃ a k l es, op.operand.rule limit (expressionUpTo limit n) (.inText text i) =
          .parsed a (.inText text k) ∧
        Rounds (further limit n op) (.inText text k) es (.inText text l) ∧
        es.foldl (fun a b ↦ .binary op a b (a.spanning b)) a = e ∧
        k + es.length ≤ l ∧ l ≤ text.toList.length ∧ skip text.toList l = skip text.toList j ∧
        reach text.toList (.chain op) e j = if es = [] then skip text.toList l else l
  | ℓ, i, j, e => ∀ n, text.toList.length - i ≤ n → Follows text.toList ℓ j →
      ℓ.rule limit (expressionUpTo limit n) (.inText text i) =
        .parsed e (.inText text (reach text.toList ℓ e j))

theorem Reads.rule (h : Reads text limit ℓ i j e) (hn : text.toList.length - i ≤ n)
    (hf : Follows text.toList ℓ j) : ℓ.rule limit (expressionUpTo limit n) (.inText text i) =
      .parsed e (.inText text (reach text.toList ℓ e j)) := by
  cases ℓ with
  | atom | expression => exact h n hn hf
  | chain op =>
    obtain ⟨a, k, l, es, ha, hes, rfl, hk, hl, hs, hr⟩ :=
      h n hn (hf.mono (Nat.le_of_lt (Op.rank_operand_lt op)))
    have hrest : es.length ≤ (Cursor.inText text k).rest.length := by
      simp only [Cursor.inText, List.length_drop]
      omega
    -- what may follow the chain is not its operator, so the repetition ends with its last part
    have hstop : (further limit n op).Fails (.inText text l) :=
      (symbol_fails fun _ hm ↦ hf.not_token (hm.of_skip_eq hs)).bind _
    have hmany := many_of_rounds hes hrest hstop
    rw [rule_chain, chain, bind_of_parsed _ ha, hr]
    change ((further limit n op).many >>= _) _ = _
    rw [bind_of_parsed _ hmany]
    split
    · rw [Cursor.skipLayout_inText]
      rfl
    · rfl

theorem Reads.expressionUpTo (h : Reads text limit .expression i j e)
    (hn : text.toList.length - i < n) (hf : Follows text.toList .expression j) :
    expressionUpTo limit n (.inText text i) =
      .parsed e (.inText text (reach text.toList .expression e j)) := by
  cases n with
  | zero => omega
  | succ n => exact h n (by omega) hf

theorem integer_reads {digits : List Char} (h : Numeral text.toList digits i j)
    (hl : digits.length ≤ limit) (hf : Follows text.toList .atom j) :
    atom limit r (.inText text i) = .parsed
      (.intLit (Text.numeralValue digits) (some ⟨text, skip text.toList i, j⟩))
      (.inText text j) := by
  have hn := numeral_parsed h (hf.nameEnds h.wordBefore) hl
  refine firstOf_of_head _ ?_
  rw [integer, bind_of_parsed _ (located_inText hn)]
  rfl

theorem boolean_reads {b : Bool} (h : Keyword text.toList (if b then trueWord else falseWord) i j) :
    atom limit r (.inText text i) = .parsed
      (.boolLit b (some ⟨text, skip text.toList i, j⟩)) (.inText text j) := by
  have hv : (firstOf [do keyword trueWord; return true, do keyword falseWord; return false]
      : Rule Bool) (.inText text i) = .parsed b (.inText text j) := by
    cases b with
    | true =>
      have h : Keyword text.toList trueWord i j := h
      refine firstOf_of_head _ ?_
      rw [bind_of_parsed _ (keyword_parsed h)]
      rfl
    | false =>
      have h : Keyword text.toList falseWord i j := h
      refine firstOf_of_tail (Fails.bind _ (keyword_fails fun k hk ↦ ?_)) (firstOf_of_head _ ?_)
      · exact absurd (keyword_unique h hk) (by decide)
      · rw [bind_of_parsed _ (keyword_parsed h)]
        rfl
  have hw : IsKeyword (if b then trueWord else falseWord) := by
    cases b with
    | true => exact inferInstanceAs (IsKeyword trueWord)
    | false => exact inferInstanceAs (IsKeyword falseWord)
  have hd : (integer limit).Fails (.inText text i) := by
    cases b <;> exact numeral_fails_of_head h.head_eq (by decide)
  refine firstOf_of_tail hd (firstOf_of_head _ ?_)
  rw [boolean, bind_of_parsed _ (located_inText hv)]
  rfl

theorem reference_reads (h : Name text.toList x i j) (hf : Follows text.toList .atom j) :
    atom limit r (.inText text i) = .parsed
      (.var x (some ⟨text, skip text.toList i, j⟩)) (.inText text j) := by
  have hend := hf.nameEnds h.wordBefore
  have hne : x.toList ≠ [] := h.2.solid.ne_nil
  have hd : (integer limit).Fails (.inText text i) := by
    have hhead := h.stands.head_eq hne
    cases hw : x.toList with
    | nil => exact absurd hw hne
    | cons c w =>
      rw [hw] at hhead
      have hc := h.2.1
      rw [hw, List.head?_cons, Option.any_some] at hc
      exact numeral_fails_of_head hhead (not_isDigit_of_isNameStart hc)
  have hb : boolean.Fails (.inText text i) := boolean_fails
    (fun _ ↦ h.not_keyword hend (by decide)) (fun _ ↦ h.not_keyword hend (by decide))
  refine firstOf_of_tail hd (firstOf_of_tail hb (firstOf_of_head _ ?_))
  rw [reference, bind_of_parsed _ (located_inText (name_parsed h hend))]
  rfl

theorem paren_reads (ho : Token text.toList ['('] i k)
    (h : r (.inText text k) = .parsed e (.inText text l)) (hc : Token text.toList [')'] l j) :
    atom limit r (.inText text i) = .parsed
      (.paren e (some ⟨text, skip text.toList i, j⟩)) (.inText text j) := by
  have hp : (do symbol ['(']; let inner ← r; symbol [')']; return inner : Rule Node)
      (.inText text i) = .parsed e (.inText text j) := by
    rw [bind_of_parsed _ (symbol_parsed ho), bind_of_parsed _ h, bind_of_parsed _ (symbol_parsed hc)]
    rfl
  have hd : (integer limit).Fails (.inText text i) := numeral_fails_of_head ho.head_eq (by decide)
  have hb : boolean.Fails (.inText text i) :=
    boolean_fails (fun _ ↦ ho.not_keyword) (fun _ ↦ ho.not_keyword)
  have hx : name.Fails (.inText text i) := name_fails (by rw [ho.head_eq]; decide)
  refine firstOf_of_tail hd (firstOf_of_tail hb (firstOf_of_tail (hx.located.bind _)
    (firstOf_of_head _ ?_)))
  rw [paren, bind_of_parsed _ (located_inText hp)]
  rfl

theorem letIn_reads {right body : Node} {i₁ i₂ i₃ i₄ i₅ : Nat}
    (hlet : Keyword text.toList letWord i i₁) (hx : Name text.toList x i₁ i₂)
    (heq : Token text.toList ['='] i₂ i₃)
    (hright : r (.inText text i₃) = .parsed right (.inText text i₄))
    (hin : Keyword text.toList inWord i₄ i₅)
    (hbody : r (.inText text i₅) = .parsed body (.inText text j)) :
    letIn r (.inText text i) = .parsed
      (.letIn x right body (some ⟨text, skip text.toList i, j⟩)) (.inText text j) := by
  have hp : (do
      keyword letWord
      let x ← name
      symbol ['=']
      let right ← r
      keyword inWord
      let body ← r
      return (x, right, body) : Rule (String × Node × Node)) (.inText text i) =
        .parsed (x, right, body) (.inText text j) := by
    rw [bind_of_parsed _ (keyword_parsed hlet), bind_of_parsed _ (name_parsed hx heq.nameEnds),
      bind_of_parsed _ (symbol_parsed heq), bind_of_parsed _ hright,
      bind_of_parsed _ (keyword_parsed hin), bind_of_parsed _ hbody]
    rfl
  rw [letIn, bind_of_parsed _ (located_inText hp)]
  rfl

theorem function_reads {type body : Node} {i₁ i₂ i₃ i₄ i₅ i₆ i₇ : Nat}
    (hfn : Keyword text.toList fnWord i i₁) (hopen : Token text.toList ['('] i₁ i₂)
    (hx : Name text.toList x i₂ i₃) (hcolon : Token text.toList [':'] i₃ i₄)
    (htype : annotation (.inText text i₄) = .parsed type (.inText text i₅))
    (hclose : Token text.toList [')'] i₅ i₆) (harrow : Token text.toList ['=', '>'] i₆ i₇)
    (hbody : r (.inText text i₇) = .parsed body (.inText text j)) :
    function r (.inText text i) = .parsed
      (.fn x type body (some ⟨text, skip text.toList i₂, i₃⟩)
        (some ⟨text, skip text.toList i, j⟩)) (.inText text j) := by
  have hp : (do
      keyword fnWord
      symbol ['(']
      let x ← located name
      symbol [':']
      let type ← annotation
      symbol [')']
      symbol ['=', '>']
      let body ← r
      return (x, type, body) : Rule ((String × Span) × Node × Node)) (.inText text i) =
        .parsed ((x, ⟨text, skip text.toList i₂, i₃⟩), type, body) (.inText text j) := by
    rw [bind_of_parsed _ (keyword_parsed hfn), bind_of_parsed _ (symbol_parsed hopen),
      bind_of_parsed _ (located_inText (name_parsed hx hcolon.nameEnds)),
      bind_of_parsed _ (symbol_parsed hcolon), bind_of_parsed _ htype,
      bind_of_parsed _ (symbol_parsed hclose), bind_of_parsed _ (symbol_parsed harrow),
      bind_of_parsed _ hbody]
    rfl
  rw [function, bind_of_parsed _ (located_inText hp)]
  rfl

theorem letIn_fails (h : ∀ j, ¬ Keyword text.toList letWord i j) :
    (letIn r).Fails (.inText text i) :=
  ((keyword_fails h).bind _).located.bind _

theorem function_fails (h : ∀ j, ¬ Keyword text.toList fnWord i j) :
    (function r).Fails (.inText text i) :=
  ((keyword_fails h).bind _).located.bind _

theorem conjunction_reads (h : conjunction limit r (.inText text i) = .parsed e c) :
    expressionBody limit r (.inText text i) = .parsed e c := by
  have hk (word : List Char) (hw : word = letWord ∨ word = fnWord) (j : Nat) :
      ¬ Keyword text.toList word i j := by
    intro hk
    have hf : (conjunction limit r).Fails (.inText text i) := conjunction_fails hk hw
    obtain ⟨pos, hf⟩ := hf
    rw [hf] at h
    cases h
  exact firstOf_of_tail (letIn_fails (hk letWord (.inl rfl)))
    (firstOf_of_tail (function_fails (hk fnWord (.inr rfl))) (firstOf_of_head _ h))

theorem annotation_reads
    (h : TypeDerives (.placed text limit) text.toList .arrow i j e)
    (hc : Token text.toList [')'] j k) : ∃ l, annotation (.inText text i) =
      .parsed e (.inText text l) ∧ Token text.toList [')'] l k := by
  obtain ⟨l, hl, hs⟩ := h.reads.annotationUpTo h.bounds.2 (fun _ ↦ hc.not_mark (by decide))
    (n := (Cursor.inText text i).rest.length + 1) (by simp [Cursor.inText])
  exact ⟨l, hl, hc.of_skip_eq hs.symm⟩

/-- What the grammar derives is read, with its places. -/
theorem Derives.reads (h : Derives (.placed text limit) text.toList ℓ i j e) :
    Reads text limit ℓ i j e := by
  induction h with
  | integer h hl =>
    intro n hn hf
    rw [reach_atom]
    exact integer_reads h hl hf
  | yes h =>
    intro n hn hf
    rw [reach_atom]
    exact boolean_reads (b := true) h
  | no h =>
    intro n hn hf
    rw [reach_atom]
    exact boolean_reads (b := false) h
  | reference h =>
    intro n hn hf
    rw [reach_atom]
    exact reference_reads h hf
  | paren ho hd hc ih =>
    intro n hn hf
    have := ho.bounds
    have hi := ih.expressionUpTo (n := n) (by have := hd.bounds; omega) (.close hc)
    rw [reach_atom]
    exact paren_reads ho hi (hc.of_skip_eq (skip_reach _ _ _ _).symm)
  | @single op i j e hd ih =>
    intro n hn hf
    refine ⟨e, _, _, [], ih.rule hn hf, .nil _, rfl, Nat.le_refl _, ?_, skip_reach _ _ _ j, ?_⟩
    · exact Nat.le_trans (reach_le _ _ _ _) (skip_le_length hd.bounds.2)
    · rw [if_pos rfl, skip_reach, hd.reach_single]
  | @more op i k l j a b ha hm hb iha ihb =>
    intro n hn hf
    have := ha.bounds
    have := hb.bounds
    have := hm.bounds
    obtain ⟨a', k', l', es, ha', hes, rfl, hk, hl, hs, -⟩ :=
      iha n hn (.joined (Op.rank_operand_lt op) hm)
    have hm' := hm.of_skip_eq hs.symm
    have hmb := hm'.bounds
    have hb' := ihb.rule (n := n) (by omega) hf
    have hround : further limit n op (.inText text l') =
        .parsed b (.inText text (reach text.toList op.operand b j)) := by
      rw [further, bind_of_parsed _ (symbol_parsed hm'), hb']
    have hj := le_reach text.toList op.operand b j
    refine ⟨a', k', _, es ++ [b], ha', hes.snoc hround, ?_, ?_, ?_, skip_reach _ _ _ j, ?_⟩
    · rw [List.foldl_append]
      rfl
    · rw [List.length_append, List.length_singleton]
      omega
    · exact Nat.le_trans (reach_le _ _ _ _) (skip_le_length hb.bounds.2)
    · rw [if_neg (by simp), reach_more]
  | @letIn i i₁ i₂ i₃ i₄ i₅ j x right body hlet hx heq hright hin hbody ihr ihb =>
    intro n hn hf
    have := hlet.bounds
    have := hx.bounds
    have := heq.bounds
    have := hright.bounds
    have := hin.bounds
    have hr := ihr.expressionUpTo (n := n) (by omega) (.inside hin)
    have hb := ihb.expressionUpTo (n := n) (by omega) hf
    exact firstOf_of_head _
      (letIn_reads hlet hx heq hr (hin.of_skip_eq (skip_reach _ _ _ _).symm) hb)
  | @function i i₁ i₂ i₃ i₄ i₅ i₆ i₇ j x type body hfn hopen hx hcolon htype hclose harrow hbody ih =>
    intro n hn hf
    have := hfn.bounds
    have := hopen.bounds
    have := hx.bounds
    have := hcolon.bounds
    have := htype.bounds
    have := hclose.bounds
    have := harrow.bounds
    obtain ⟨l, ht, hc⟩ := annotation_reads htype hclose
    have hb := ih.expressionUpTo (n := n) (by omega) hf
    refine firstOf_of_tail (letIn_fails fun k hk ↦ ?_)
      (firstOf_of_head _ (function_reads hfn hopen hx hcolon ht hc harrow hb))
    exact absurd (keyword_unique hfn hk) (by decide)
  | @operation i j e hd ih =>
    intro n hn hf
    have hc := ih.rule hn (hf.mono (Level.rank_le _))
    rw [hd.reach_operation]
    exact conjunction_reads hc

end TypedLet.Grammar
