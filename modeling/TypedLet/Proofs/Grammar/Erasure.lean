import TypedLet.Proofs.Grammar.Derivation

namespace TypedLet

theorem Node.spanning_erase (a b : Node) : a.erase.spanning b.erase = none := by
  rw [spanning, span_erase]
  rfl

namespace Grammar

variable {d d' : Dialect} {s : List Char} {e : Node} {ℓ : Level} {m : TypeLevel} {i j : Nat}

theorem TypeDerives.erase (h : TypeDerives d s m i j e) :
    TypeDerives .plain s m i j e.erase := by
  induction h with
  | int h => exact .int h
  | bool h => exact .bool h
  | paren ho _ hc ih => exact .paren ho ih hc
  | single _ ih => exact .single ih
  | @arrow _ _ _ _ a b _ hm _ iha ihb =>
    have h := TypeDerives.arrow iha hm ihb
    rwa [Node.spanning_erase] at h

theorem Derives.erase (h : Derives d s ℓ i j e) : Derives .plain s ℓ i j e.erase := by
  induction h with
  | integer h _ => exact .integer h trivial
  | yes h => exact .yes h
  | no h => exact .no h
  | reference h => exact .reference h
  | paren ho _ hc ih => exact .paren ho ih hc
  | single _ ih => exact .single ih
  | @more _ _ _ _ _ a b _ hm _ iha ihb =>
    have h := Derives.more iha hm ihb
    rwa [Node.spanning_erase] at h
  | letIn hlet hx heq _ hin _ ihr ihb => exact .letIn hlet hx heq ihr hin ihb
  | function hfn hopen hx hcolon ht hclose harrow _ ihb =>
    exact .function hfn hopen hx hcolon ht.erase hclose harrow ihb
  | operation _ ih => exact .operation ih

/-- The places in a tree have no part in its derivation. -/
theorem TypeDerives.dialect (h : TypeDerives d s m i j e) (d' : Dialect) :
    ∃ e', TypeDerives d' s m i j e' ∧ e'.erase = e.erase := by
  induction h with
  | int h => exact ⟨_, .int h, rfl⟩
  | bool h => exact ⟨_, .bool h, rfl⟩
  | paren ho _ hc ih =>
    obtain ⟨e', h, he⟩ := ih
    exact ⟨e', .paren ho h hc, he⟩
  | single _ ih =>
    obtain ⟨e', h, he⟩ := ih
    exact ⟨e', .single h, he⟩
  | arrow _ hm _ iha ihb =>
    obtain ⟨a', ha, hea⟩ := iha
    obtain ⟨b', hb, heb⟩ := ihb
    exact ⟨_, .arrow ha hm hb, by rw [Node.erase, Node.erase, hea, heb]⟩

theorem Derives.dialect (h : Derives d s ℓ i j e) (d' : Dialect)
    (hd : ∀ digits i j, Numeral s digits i j → d.fits digits.length → d'.fits digits.length) :
    ∃ e', Derives d' s ℓ i j e' ∧ e'.erase = e.erase := by
  induction h with
  | integer h hl => exact ⟨_, .integer h (hd _ _ _ h hl), rfl⟩
  | yes h => exact ⟨_, .yes h, rfl⟩
  | no h => exact ⟨_, .no h, rfl⟩
  | reference h => exact ⟨_, .reference h, rfl⟩
  | paren ho _ hc ih =>
    obtain ⟨e', h, he⟩ := ih
    exact ⟨_, .paren ho h hc, by rw [Node.erase, Node.erase, he]⟩
  | single _ ih =>
    obtain ⟨e', h, he⟩ := ih
    exact ⟨e', .single h, he⟩
  | more _ hm _ iha ihb =>
    obtain ⟨a', ha, hea⟩ := iha
    obtain ⟨b', hb, heb⟩ := ihb
    exact ⟨_, .more ha hm hb, by rw [Node.erase, Node.erase, hea, heb]⟩
  | letIn hlet hx heq _ hin _ ihr ihb =>
    obtain ⟨right', hr, her⟩ := ihr
    obtain ⟨body', hb, heb⟩ := ihb
    exact ⟨_, .letIn hlet hx heq hr hin hb, by rw [Node.erase, Node.erase, her, heb]⟩
  | function hfn hopen hx hcolon ht hclose harrow _ ihb =>
    obtain ⟨type', ht, het⟩ := ht.dialect d'
    obtain ⟨body', hb, heb⟩ := ihb
    exact ⟨_, .function hfn hopen hx hcolon ht hclose harrow hb,
      by rw [Node.erase, Node.erase, het, heb]⟩
  | operation _ ih =>
    obtain ⟨e', h, he⟩ := ih
    exact ⟨e', .operation h, he⟩

end Grammar

end TypedLet
