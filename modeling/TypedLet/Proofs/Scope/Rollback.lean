import Mathlib.Data.List.Induction
import Mathlib.Data.List.Infix
import TypedLet.Proofs.Scope.Stack
import TypedLet.Scope.Script

namespace TypedLet.Scope

variable {α : Type} {m : Moment α} {bs bs' base : List (String × α)} {scopes : List (Scope α)}

/-- The moment that a script leads to. -/
def reached (script : List (Action α)) : Moment α :=
  script.foldl (fun m action ↦ (action.perform m).2) .start

/-- The scopes of all moments of a script, the newest first. -/
def past (script : List (Action α)) : List (Scope α) :=
  (empty :: (transcript .start script).map Prod.snd).reverse

/-- The scope at the most recent moment of a script that had a depth of at most `n`. -/
def latest (script : List (Action α)) (n : Nat) : Option (Scope α) :=
  (past script).find? fun s ↦ s.depth ≤ n

theorem reached_snoc (script : List (Action α)) (action : Action α) :
    reached (script ++ [action]) = (action.perform (reached script)).2 := by
  rw [reached, List.foldl_append]
  rfl

theorem transcript_snoc (m : Moment α) (script : List (Action α)) (action : Action α) :
    transcript m (script ++ [action]) = transcript m script ++
      transcript (script.foldl (fun m action ↦ (action.perform m).2) m) [action] := by
  induction script generalizing m with
  | nil => rfl
  | cons first rest ih => simp only [List.cons_append, transcript, ih, List.foldl_cons]

theorem past_snoc (script : List (Action α)) (action : Action α) :
    past (script ++ [action]) = (reached (script ++ [action])).scope :: past script := by
  rw [past, transcript_snoc, List.map_append, ← List.cons_append, List.reverse_append,
    reached_snoc]
  rfl

/-- What one action can do to the bindings of a scope: make one more, or keep only the oldest. -/
inductive Stride (bs : List (String × α)) : List (String × α) → Prop
  | made (b : String × α) : Stride bs (b :: bs)
  | kept (k : Nat) : Stride bs (bs.rtake k)

theorem unwound_push (h : m.scope = empty.push bs) (k : Nat) (reply : Reply α) :
    m.unwound k reply = (reply, { m with scope := empty.push (bs.rtake k) }) := by
  rw [Moment.unwound, h, unwind_push]

theorem unwound_push_of_neg (h : m.scope = empty.push bs) {n : Int} (hn : n < 0)
    (reply : Reply α) : m.unwound n reply = (.fault .emptyJournal, { m with scope := empty }) := by
  rw [Moment.unwound, h, unwind_push_of_neg bs hn]

/-- An action binds a name, or leaves only the oldest of the bindings. -/
theorem perform_push_cases (action : Action α) (h : m.scope = empty.push bs) :
    (∃ x v, action = .insert x v ∧ (action.perform m).2.scope = empty.push ((x, v) :: bs)) ∨
    ∃ k, (action.perform m).2.scope = empty.push (bs.rtake k) := by
  have hrefl : bs.rtake bs.length = bs := rtake_of_length_le (Nat.le_refl _)
  cases action with
  | insert x v => exact .inl ⟨x, v, rfl, congrArg (·.insert x v) h⟩
  | get x => exact .inr ⟨bs.length, by rw [hrefl]; exact h⟩
  | enter => exact .inr ⟨bs.length, by rw [hrefl]; exact h⟩
  | unwind n =>
    rw [Action.perform]
    rcases Int.lt_or_le n 0 with hn | hn
    · rw [unwound_push_of_neg h hn]
      exact .inr ⟨0, by rw [List.rtake_zero, push]⟩
    · obtain ⟨k, rfl⟩ := Int.eq_ofNat_of_zero_le hn
      rw [unwound_push h]
      exact .inr ⟨k, rfl⟩
  | leave raised =>
    rw [Action.perform]
    cases m.opened with
    | nil => exact .inr ⟨bs.length, by rw [hrefl]; exact h⟩
    | cons k outer =>
      dsimp only
      rw [unwound_push (by exact h)]
      exact .inr ⟨k, rfl⟩

theorem perform_push (action : Action α) (h : m.scope = empty.push bs) :
    ∃ bs', (action.perform m).2.scope = empty.push bs' ∧ Stride bs bs' := by
  obtain ⟨x, v, -, hs⟩ | ⟨k, hs⟩ := perform_push_cases action h
  · exact ⟨_, hs, .made (x, v)⟩
  · exact ⟨_, hs, .kept k⟩

/-- Past scopes hold, for every depth, what going back to that depth from these bindings gives. -/
def Recalls (scopes : List (Scope α)) (bs : List (String × α)) : Prop :=
  ∀ n : Nat, scopes.find? (fun s ↦ s.depth ≤ n) = some (empty.push (bs.rtake n))

theorem find?_cons_push (bs : List (String × α)) (scopes : List (Scope α)) (n : Nat) :
    (empty.push bs :: scopes).find? (fun s ↦ s.depth ≤ n) =
      if bs.length ≤ n then some (empty.push bs) else scopes.find? fun s ↦ s.depth ≤ n := by
  by_cases h : bs.length ≤ n <;> simp [depth_push_empty, h]

theorem Recalls.stride (h : Recalls scopes bs) (hs : Stride bs bs') :
    Recalls (empty.push bs' :: scopes) bs' := by
  intro n
  rw [find?_cons_push]
  split
  next hn => rw [rtake_of_length_le hn]
  next hn =>
    rw [h n]
    cases hs with
    | made b => rw [rtake_cons_of_le (Nat.le_of_lt_succ (Nat.not_le.mp hn))]
    | kept k =>
      rw [length_rtake] at hn
      rw [rtake_rtake bs (by omega)]

/-- Wherever a script leads, its past says what going back to any depth gives. -/
theorem reached_recalls (script : List (Action α)) :
    ∃ bs, (reached script).scope = empty.push bs ∧ Recalls (past script) bs := by
  induction script using List.reverseRecOn with
  | nil => exact ⟨[], rfl, fun n ↦ by simp [past, transcript, push, empty, depth]⟩
  | append_singleton script action ih =>
    obtain ⟨bs, hb, hr⟩ := ih
    obtain ⟨bs', hb', hs⟩ := perform_push action hb
    rw [← reached_snoc] at hb'
    refine ⟨bs', hb', ?_⟩
    rw [past_snoc, hb']
    exact hr.stride hs

theorem Stride.suffix (hs : Stride bs bs') (h : base <:+ bs) (hl : base.length ≤ bs'.length) :
    base <:+ bs' := by
  cases hs with
  | made b => exact h.trans (List.suffix_cons b bs)
  | kept k => exact List.suffix_of_suffix_length_le h (List.drop_suffix _ bs) hl

/-- The bindings at a moment are still there as long as the depth does not fall below theirs. -/
theorem reached_suffix {before : List (Action α)} (during : List (Action α))
    (hb : (reached before).scope = empty.push base)
    (hd : ∀ d ∈ during.inits, base.length ≤ (reached (before ++ d)).scope.depth) :
    ∃ bs, (reached (before ++ during)).scope = empty.push bs ∧ base <:+ bs := by
  induction during using List.reverseRecOn with
  | nil => exact ⟨base, by rwa [List.append_nil], List.suffix_rfl⟩
  | append_singleton during action ih =>
    have hd' := hd _ ((List.mem_inits _ _).mpr List.prefix_rfl)
    obtain ⟨bs, hbs, hsuf⟩ := ih fun d h ↦ hd d <| by
      rw [List.mem_inits] at h ⊢
      exact h.trans (List.prefix_append _ _)
    obtain ⟨bs', hbs', hs⟩ := perform_push action hbs
    rw [← reached_snoc, List.append_assoc] at hbs'
    rw [hbs', depth_push_empty] at hd'
    exact ⟨bs', hbs', hs.suffix hsuf hd'⟩

theorem leave_push {n : Nat} {outer : List Nat} (hs : m.scope = empty.push bs)
    (ho : m.opened = n :: outer) (raised : Bool) :
    (Action.leave raised).perform m = (.left raised, ⟨empty.push (bs.rtake n), outer⟩) := by
  rw [Action.perform, ho]
  exact unwound_push (m := { m with opened := outer }) hs n _

theorem latest_restored (script : List (Action α)) (n : Nat) : ∃ t, latest script n = some t ∧
    (Action.unwind n).perform (reached script) = (.done, { reached script with scope := t }) ∧
    ∀ raised outer, (reached script).opened = n :: outer →
      (Action.leave raised).perform (reached script) = (.left raised, ⟨t, outer⟩) := by
  obtain ⟨bs, hs, hr⟩ := reached_recalls script
  exact ⟨_, hr n, unwound_push hs n _, fun raised outer ho ↦ leave_push hs ho raised⟩

theorem entered_restored (before during : List (Action α)) (raised : Bool) (outer : List Nat)
    (hd : ∀ d ∈ during.inits,
      (reached before).scope.depth ≤ (reached (before ++ .enter :: d)).scope.depth)
    (ho : (reached (before ++ .enter :: during)).opened = (reached before).scope.depth :: outer) :
    (Action.leave raised).perform (reached (before ++ .enter :: during)) =
      (.left raised, ⟨(reached before).scope, outer⟩) := by
  obtain ⟨base, hb, -⟩ := reached_recalls before
  have he : (reached (before ++ [.enter])).scope = empty.push base := by
    rw [reached_snoc, Action.perform, hb]
  rw [hb, depth_push_empty] at hd ho
  obtain ⟨bs, hs, hsuf⟩ := reached_suffix during he fun d h ↦ by
    have h := hd d h
    rwa [List.append_cons] at h
  rw [← List.append_cons] at hs
  rw [leave_push hs ho, rtake_of_suffix hsuf, hb]

theorem leave_of_depth_le (script : List (Action α)) (n : Nat) (raised : Bool) (outer : List Nat)
    (ho : (reached script).opened = n :: outer) (hn : (reached script).scope.depth ≤ n) :
    (Action.leave raised).perform (reached script) =
      (.left raised, ⟨(reached script).scope, outer⟩) := by
  obtain ⟨bs, hs, -⟩ := reached_recalls script
  rw [hs, depth_push_empty] at hn
  rw [leave_push hs ho, rtake_of_length_le hn, hs]

theorem rebound_restored (before : List (Action α)) (x : String) (v : α) (raised : Bool) :
    ((Action.leave raised).perform (reached (before ++ [.enter, .insert x v]))).2 =
      reached before := by
  have hm : reached (before ++ [.enter, .insert x v]) = ⟨(reached before).scope.insert x v,
      (reached before).scope.depth :: (reached before).opened⟩ := by
    rw [reached, List.foldl_append]
    rfl
  obtain ⟨bs, hs, -⟩ := reached_recalls before
  have hp : (reached (before ++ [.enter, .insert x v])).scope = empty.push ((x, v) :: bs) := by
    rw [hm, hs, push]
  have ho : (reached (before ++ [.enter, .insert x v])).opened =
      bs.length :: (reached before).opened := by
    rw [hm, hs, depth_push_empty]
  rw [leave_push hp ho, rtake_cons_of_le (Nat.le_refl _), rtake_of_length_le (Nat.le_refl _), ← hs]

theorem unwind_below_zero (script : List (Action α)) {n : Int} (hn : n < 0) :
    (Action.unwind n).perform (reached script) =
      (.fault .emptyJournal, { reached script with scope := empty }) := by
  obtain ⟨bs, hs, -⟩ := reached_recalls script
  exact unwound_push_of_neg hs hn _

/-- Going back to a depth, on its own or on leaving a scope that was entered there and by either
way out, restores the scope of the most recent moment that was no deeper. So a scope that is left
gives back exactly what was there when it was entered, unless something was taken back below that
in between, and nothing changes where the depth is not above that any more; a name bound to
nothing is told from a name that is not bound. Below zero nothing is left. -/
theorem unwind_restores_latest :
    (∀ (script : List (Action α)) (n : Nat), ∃ t, latest script n = some t ∧
      (Action.unwind n).perform (reached script) = (.done, { reached script with scope := t }) ∧
      ∀ raised outer, (reached script).opened = n :: outer →
        (Action.leave raised).perform (reached script) = (.left raised, ⟨t, outer⟩)) ∧
    (∀ (before during : List (Action α)) (raised : Bool) (outer : List Nat),
      (∀ d ∈ during.inits,
        (reached before).scope.depth ≤ (reached (before ++ .enter :: d)).scope.depth) →
      (reached (before ++ .enter :: during)).opened = (reached before).scope.depth :: outer →
        (Action.leave raised).perform (reached (before ++ .enter :: during)) =
          (.left raised, ⟨(reached before).scope, outer⟩)) ∧
    (∀ (script : List (Action α)) (n : Nat) (raised : Bool) (outer : List Nat),
      (reached script).opened = n :: outer → (reached script).scope.depth ≤ n →
        (Action.leave raised).perform (reached script) =
          (.left raised, ⟨(reached script).scope, outer⟩)) ∧
    (∀ (before : List (Action (Option α))) (x : String) (v : Option α) (raised : Bool),
      let left := ((Action.leave raised).perform (reached (before ++ [.enter, .insert x v]))).2
      (left.scope.get? x = some none ↔ (reached before).scope.get? x = some none) ∧
      (left.scope.get? x = none ↔ (reached before).scope.get? x = none)) ∧
    ∀ (script : List (Action α)) (n : Int), n < 0 →
      (Action.unwind n).perform (reached script) =
        (.fault .emptyJournal, { reached script with scope := empty }) := by
  refine ⟨latest_restored, entered_restored, leave_of_depth_le, ?_,
    fun script n ↦ unwind_below_zero script⟩
  intro before x v raised
  dsimp only
  rw [rebound_restored]
  exact ⟨Iff.rfl, Iff.rfl⟩

/-- The direct `unwind` cuts below the inner scope, which then gives back what is newer than its
own entry. -/
theorem shadowed_restored :
    let before : List (Action (Option Nat)) := [.insert "x" none, .insert "y" (some 1)]
    let inner : List (Action (Option Nat)) :=
      [.insert "x" (some 2), .enter, .unwind 2, .insert "z" none, .insert "x" (some 3)]
    let script := before ++ .enter :: inner
    (reached script).opened = [3, 2] ∧
    (Action.leave true).perform (reached script) =
      (.left true, ⟨(reached (before ++ .enter :: inner.take 4)).scope, [2]⟩) ∧
    (Action.leave false).perform (reached (before ++ .enter :: inner.take 1)) =
      (.left false, ⟨(reached before).scope, []⟩) ∧
    (Action.unwind (-1)).perform (reached script) = (.fault .emptyJournal, ⟨empty, [3, 2]⟩) := by
  intro before inner script
  obtain ⟨latest, entered, -, -, below⟩ := unwind_restores_latest (α := Option Nat)
  obtain ⟨t, ht, -, hleave⟩ := latest script 3
  have he : t = (reached (before ++ .enter :: inner.take 4)).scope :=
    Option.some.inj (ht.symm.trans rfl)
  refine ⟨rfl, ?_, ?_, below script (-1) (by decide)⟩
  · rw [← he]
    exact hleave true [2] rfl
  · exact entered before (inner.take 1) false [] (by decide) rfl

end TypedLet.Scope
