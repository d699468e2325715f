import TypedLet.Proofs.Scope.Rollback

namespace TypedLet.Scope

variable {α : Type} {script : List (Action α)} {bs bs' : List (String × α)}
variable {newer older : List (Change α)} {c : Change α} {m : Moment α} {x y : String} {v w : α} {k : Nat}

/-- The entry of the journal that has `k` older ones was written when `x` was bound to `v`: the depth
was `k` before and has not come down to it since. -/
def Writes (script : List (Action α)) (k : Nat) (x : String) (v : α) : Prop :=
  ∃ before after, script = before ++ .insert x v :: after ∧ (reached before).scope.depth = k ∧
    ∀ d ∈ after.inits, k < (reached (before ++ .insert x v :: d)).scope.depth

/-- The journal of a scope has entries for the names in the table and for no others. Each of them was
written by one binding. The oldest one of a name says that it was not bound, a later one has the value
that the one before it was written for, and the table has the value of the newest one. -/
structure Accounts (script : List (Action α)) (s : Scope α) : Prop where
  bound_iff : ∀ x, (s.get? x).isSome ↔ ∃ c ∈ s.journal, c.name = x
  written : ∀ newer c older, s.journal = newer ++ c :: older →
    ∃ v, ∀ x w, Writes script older.length x w ↔ x = c.name ∧ w = v
  oldest : ∀ newer c older, s.journal = newer ++ c :: older →
    (∀ e ∈ older, e.name ≠ c.name) → c.old = none
  later : ∀ newer c between e older, s.journal = newer ++ c :: (between ++ e :: older) →
    e.name = c.name → (∀ e ∈ between, e.name ≠ c.name) →
    ∃ v, c.old = some v ∧ Writes script older.length c.name v
  newest : ∀ newer c older, s.journal = newer ++ c :: older → (∀ e ∈ newer, e.name ≠ c.name) →
    ∃ v, s.get? c.name = some v ∧ Writes script older.length c.name v
  empty_of_journal : s.journal = [] → s.table = .empty

/-! What a scope holds in which bindings have been made. -/

theorem get?_push (bs : List (String × α)) (x : String) :
    (empty.push bs).get? x = bs.lookup x := by
  induction bs with
  | nil => exact Table.get?_empty x
  | cons b bs ih =>
    rw [push, get?_insert, ih, List.lookup_cons]
    split
    next hx => simp [hx]
    next hx => rw [beq_eq_false_iff_ne.mpr hx]

theorem journal_push_cons (bs : List (String × α)) (x : String) (v : α) :
    (empty.push ((x, v) :: bs)).journal = ⟨x, bs.lookup x⟩ :: (empty.push bs).journal := by
  rw [← get?_push]
  rfl

theorem names_journal_push (bs : List (String × α)) :
    (empty.push bs).journal.map Change.name = bs.map Prod.fst := by
  induction bs with
  | nil => rfl
  | cons b bs ih => rw [journal_push_cons, List.map_cons, ih, List.map_cons]

/-- An entry of the journal belongs to the binding that has as many older ones. -/
theorem journal_push_split (h : (empty.push bs).journal = newer ++ c :: older) :
    ∃ bs₁ v bs₂, bs = bs₁ ++ (c.name, v) :: bs₂ ∧ bs₁.map Prod.fst = newer.map Change.name ∧
      (empty.push bs₂).journal = older ∧ c.old = bs₂.lookup c.name := by
  induction bs generalizing newer with
  | nil => simp [push, empty] at h
  | cons b bs ih =>
    rw [journal_push_cons] at h
    cases newer with
    | nil =>
      obtain ⟨rfl, rfl⟩ := List.cons.inj h
      exact ⟨[], b.2, bs, rfl, rfl, rfl, rfl⟩
    | cons e newer =>
      rw [List.cons_append] at h
      obtain ⟨rfl, hj⟩ := List.cons.inj h
      obtain ⟨bs₁, v, bs₂, rfl, hn, ho, hc⟩ := ih hj
      exact ⟨b :: bs₁, v, bs₂, rfl, by simp [hn], ho, hc⟩

theorem lookup_append_of_notMem (h : x ∉ bs.map Prod.fst) :
    (bs ++ (x, v) :: bs').lookup x = some v := by
  rw [List.lookup_eq_some_iff]
  refine ⟨bs, bs', rfl, fun p hp ↦ ?_⟩
  have hx : x ≠ p.1 := fun he ↦ h (he ▸ List.mem_map_of_mem hp)
  simpa using hx

theorem isSome_lookup_iff : (bs.lookup x).isSome ↔ x ∈ bs.map Prod.fst := by
  rw [List.lookup_isSome_iff, List.mem_map]
  refine exists_congr fun p ↦ and_congr_right fun _ ↦ ?_
  rw [beq_iff_eq, eq_comm]

/-! Which binding wrote an entry. -/

theorem Writes.snoc {action : Action α} (h : Writes script k x v)
    (hd : k < (reached (script ++ [action])).scope.depth) : Writes (script ++ [action]) k x v := by
  obtain ⟨before, after, rfl, hk, ha⟩ := h
  refine ⟨before, after ++ [action], by simp, hk, fun d h ↦ ?_⟩
  rw [List.mem_inits, List.prefix_concat_iff] at h
  rcases h with rfl | h
  · rwa [List.append_assoc, List.cons_append] at hd
  · exact ha d ((List.mem_inits _ _).mpr h)

/-- Of two places in a list the later one lies behind something of what follows the other. -/
theorem exists_inits_of_length_lt {α : Type} {a b : α} {as as' bs bs' : List α}
    (h : as ++ a :: bs = as' ++ b :: bs') (hlt : as.length < as'.length) :
    ∃ d ∈ bs.inits, as ++ a :: d = as' := by
  have hl : (as ++ [a]).length ≤ as'.length := by
    rw [List.length_append]
    exact hlt
  have hp : as ++ [a] <+: as' ++ b :: bs' := by
    rw [← h, List.append_cons as a bs]
    exact List.prefix_append _ _
  obtain ⟨d, rfl⟩ := List.prefix_of_prefix_length_le hp (List.prefix_append _ _) hl
  rw [List.append_cons as a bs, List.append_assoc (as ++ [a])] at h
  have hd : bs = d ++ b :: bs' := List.append_cancel_left h
  exact ⟨d, (List.mem_inits _ _).mpr ⟨_, hd.symm⟩, List.append_cons as a d⟩

/-- No two bindings of a run write the same entry. -/
theorem Writes.unique (h : Writes script k x v) (h' : Writes script k y w) : x = y ∧ v = w := by
  obtain ⟨b, a, hs, hk, ha⟩ := h
  obtain ⟨b', a', hs', hk', ha'⟩ := h'
  have he := hs.symm.trans hs'
  -- the later one of two would be made where the depth has come down to `k` again
  rcases Nat.lt_trichotomy b.length b'.length with hlt | hl | hlt
  · obtain ⟨d, hd, rfl⟩ := exists_inits_of_length_lt he hlt
    exact absurd hk' (Nat.ne_of_gt (ha d hd))
  · obtain ⟨-, ht⟩ := List.append_inj he hl
    cases ht
    exact ⟨rfl, rfl⟩
  · obtain ⟨d, hd, rfl⟩ := exists_inits_of_length_lt he.symm hlt
    exact absurd hk (Nat.ne_of_gt (ha' d hd))

/-- Each of the bindings was made in the script, and the depth has been greater ever since. -/
def Traced (script : List (Action α)) (bs : List (String × α)) : Prop :=
  ∀ ⦃newer x v older⦄, bs = newer ++ (x, v) :: older → Writes script older.length x v

theorem Traced.insert (h : Traced script bs) (hs : (reached script).scope = empty.push bs)
    (x : String) (v : α) : Traced (script ++ [.insert x v]) ((x, v) :: bs) := by
  have hd : (reached (script ++ [.insert x v])).scope.depth = bs.length + 1 := by
    rw [reached_snoc, Action.perform, hs, depth_insert, depth_push_empty]
  intro newer y w older he
  cases newer with
  | nil =>
    cases he
    refine ⟨script, [], rfl, by rw [hs, depth_push_empty], fun d h ↦ ?_⟩
    rw [List.inits, List.mem_singleton] at h
    rw [h, hd]
    exact Nat.lt_succ_self _
  | cons b newer =>
    rw [List.cons_append] at he
    obtain ⟨-, rfl⟩ := List.cons.inj he
    refine (h rfl).snoc ?_
    rw [hd, List.length_append, List.length_cons]
    omega

theorem Traced.rtake {action : Action α} (h : Traced script bs)
    (hs : (reached (script ++ [action])).scope = empty.push (bs.rtake k)) :
    Traced (script ++ [action]) (bs.rtake k) := by
  intro newer x v older he
  have hsplit : bs = bs.take (bs.length - k) ++ newer ++ (x, v) :: older := by
    rw [List.append_assoc, ← he, List.rtake, List.take_append_drop]
  refine (h hsplit).snoc ?_
  rw [hs, depth_push_empty, he, List.length_append, List.length_cons]
  omega

theorem reached_traced (script : List (Action α)) :
    ∃ bs, (reached script).scope = empty.push bs ∧ Traced script bs := by
  induction script using List.reverseRecOn with
  | nil => exact ⟨[], rfl, fun newer x v older he ↦ by simp at he⟩
  | append_singleton script action ih =>
    obtain ⟨bs, hs, ht⟩ := ih
    obtain ⟨x, v, rfl, hk⟩ | ⟨k, hk⟩ := perform_push_cases action hs
    · rw [← reached_snoc] at hk
      exact ⟨_, hk, ht.insert hs x v⟩
    · rw [← reached_snoc] at hk
      exact ⟨_, hk, ht.rtake hk⟩

/-- The newest entry of a name was written for the value that the name has. -/
theorem Traced.lookup (h : Traced script bs) (hs : bs' <:+ bs)
    (hj : (empty.push bs').journal = newer ++ c :: older) (hn : ∀ e ∈ newer, e.name ≠ c.name) :
    ∃ v, bs'.lookup c.name = some v ∧ Writes script older.length c.name v := by
  obtain ⟨bs₁, v, bs₂, rfl, hnames, rfl, -⟩ := journal_push_split hj
  obtain ⟨bs₀, rfl⟩ := hs
  have hnot : c.name ∉ bs₁.map Prod.fst := by
    rw [hnames]
    simpa using hn
  have hw := h (List.append_assoc bs₀ bs₁ _).symm
  rw [← depth_push_empty bs₂] at hw
  exact ⟨v, lookup_append_of_notMem hnot, hw⟩

theorem Traced.accounts (h : Traced script bs) : Accounts script (empty.push bs) where
  bound_iff x := by
    rw [get?_push, isSome_lookup_iff, ← names_journal_push, List.mem_map]
  written newer c older hj := by
    obtain ⟨bs₁, v, bs₂, rfl, -, rfl, -⟩ := journal_push_split hj
    have hw := h rfl
    rw [← depth_push_empty bs₂] at hw
    refine ⟨v, fun x w ↦ ⟨fun hx ↦ hx.unique hw, ?_⟩⟩
    rintro ⟨rfl, rfl⟩
    exact hw
  oldest newer c older hj ho := by
    obtain ⟨bs₁, v, bs₂, rfl, -, rfl, hc⟩ := journal_push_split hj
    rw [hc, ← Option.not_isSome_iff_eq_none, isSome_lookup_iff, ← names_journal_push]
    simpa using ho
  later newer c between e older hj he hb := by
    obtain ⟨bs₁, v, bs₂, rfl, -, ho, hc⟩ := journal_push_split hj
    have hs : bs₂ <:+ bs₁ ++ (c.name, v) :: bs₂ :=
      (List.suffix_cons _ bs₂).trans (List.suffix_append bs₁ _)
    rw [hc, ← he]
    exact h.lookup hs ho (he ▸ hb)
  newest newer c older hj hn := by
    rw [get?_push]
    exact h.lookup List.suffix_rfl hj hn
  empty_of_journal hj := by
    cases bs with
    | nil => rfl
    | cons b bs =>
      rw [journal_push_cons] at hj
      cases hj

theorem unwound_ne_missing (h : m.scope = empty.push bs) (n : Int) {reply : Reply α}
    (hr : ∀ x, reply ≠ .fault (.missingName x)) (x : String) :
    (m.unwound n reply).1 ≠ .fault (.missingName x) := by
  rcases Int.lt_or_le n 0 with hn | hn
  · rw [unwound_push_of_neg h hn]
    simp
  · obtain ⟨k, rfl⟩ := Int.eq_ofNat_of_zero_le hn
    rw [unwound_push h]
    exact hr x

theorem perform_ne_missing (action : Action α) (h : m.scope = empty.push bs) (x : String) :
    (action.perform m).1 ≠ .fault (.missingName x) := by
  cases action with
  | unwind n => exact unwound_ne_missing h n (by simp) x
  | leave raised =>
    rw [Action.perform]
    cases m.opened with
    | nil => simp
    | cons k outer => exact unwound_ne_missing (m := { m with opened := outer }) h k (by simp) x
  | _ => simp [Action.perform]

/-- Wherever a script leads, the journal accounts for the table, and no name is missing there that
is to be erased. -/
theorem journal_accounts (script : List (Action α)) :
    Accounts script (reached script).scope ∧
    ∀ (action : Action α) (x : String),
      (action.perform (reached script)).1 ≠ .fault (.missingName x) := by
  obtain ⟨bs, hs, ht⟩ := reached_traced script
  refine ⟨?_, fun action x ↦ perform_ne_missing action hs x⟩
  rw [hs]
  exact ht.accounts

/-- Below zero all is taken back; then one name is bound three times, once to nothing. -/
theorem rebound_accounted :
    let before : List (Action (Option Nat)) := [.insert "x" (some 1), .enter, .insert "y" none]
    let script := before ++ [.unwind (-1), .insert "x" (some 1), .insert "x" none, .leave true,
      .insert "x" none, .enter, .insert "x" (some 1)]
    (reached script).scope.journal = [⟨"x", some none⟩, ⟨"x", some (some 1)⟩, ⟨"x", none⟩] ∧
    (∃ v, some none = some v ∧ Writes script 1 "x" v) ∧
    (∃ v, (reached script).scope.get? "x" = some v ∧ Writes script 2 "x" v) ∧
    ((Action.unwind (-1)).perform (reached script)).1 ≠ .fault (.missingName "x") := by
  intro before script
  obtain ⟨h, hm⟩ := journal_accounts script
  exact ⟨rfl, h.later [] _ [] _ _ rfl rfl (List.forall_mem_nil _),
    h.newest [] _ _ rfl (List.forall_mem_nil _), hm _ _⟩

end TypedLet.Scope
