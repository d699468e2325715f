import TypedLet.Proofs.Grammar.Arrangement

namespace TypedLet.Grammar

open Text

def isVisible (c : Char) : Bool := !isLayout c

/-- A text with one space for every run of layout. -/
def collapse : List Char → List Char
  | [] => []
  | c :: cs =>
    if isLayout c then
      if cs.head?.any isLayout then collapse cs else ' ' :: collapse cs
    else c :: collapse cs

/-- The visible characters of a text, each with whether layout stands right in front of it; `gap`
says whether any stands in front of the text. -/
def glyphs (gap : Bool) : List Char → List (Bool × Char)
  | [] => []
  | c :: cs => if isLayout c then glyphs true cs else (gap, c) :: glyphs false cs

/-- Whether layout stands right in front of what follows a text. -/
def gapAfter (gap : Bool) (s : List Char) : Bool := s.foldl (fun _ c ↦ isLayout c) gap

/-- The visible characters up to the first layout. -/
def headWord (s : List Char) : List Char := s.takeWhile isVisible

/-- How many visible characters lie ahead of a place. -/
def ahead (s : List Char) (i : Nat) : Nat := (s.drop i).countP isVisible

/-- Two sources differ in layout only: in how much of it separates two words, and in how much of it
stands at either end. -/
def Respaced (source source' : String) : Prop :=
  collapse (stripLayout source.toList) = collapse (stripLayout source'.toList)

instance (source source' : String) : Decidable (Respaced source source') :=
  inferInstanceAs (Decidable (_ = _))

variable {s s' w w' : List Char} {source source' : String} {g g' : Bool} {p : Char → Bool}

theorem glyphs_append (g : Bool) (s t : List Char) :
    glyphs g (s ++ t) = glyphs g s ++ glyphs (gapAfter g s) t := by
  induction s generalizing g with
  | nil => rfl
  | cons c cs ih =>
    rw [List.cons_append, glyphs, glyphs, ih, ih]
    cases hc : isLayout c <;> simp [gapAfter, hc]

theorem length_glyphs (g : Bool) (s : List Char) : (glyphs g s).length = s.countP isVisible := by
  induction s generalizing g with
  | nil => rfl
  | cons c cs ih => cases hc : isLayout c <;> simp [glyphs, isVisible, hc, ih]

theorem glyphs_layout (h : ∀ c ∈ w, isLayout c) (g : Bool) : glyphs g w = [] := by
  rw [← List.length_eq_zero_iff, length_glyphs, List.countP_eq_zero]
  simpa [isVisible] using h

theorem glyphs_layout_append (h : ∀ c ∈ w, isLayout c) (hg : w = [] → g = true) (s : List Char) :
    glyphs g (w ++ s) = glyphs true s := by
  induction w generalizing g with
  | nil => rw [hg rfl, List.nil_append]
  | cons c w ih =>
    obtain ⟨hc, hw⟩ := List.forall_mem_cons.mp h
    rw [List.cons_append, glyphs, if_pos hc]
    exact ih hw fun _ ↦ rfl

theorem glyphs_expandTabsFrom (k : Nat) (g : Bool) (s : List Char) :
    glyphs g (expandTabsFrom k s) = glyphs g s := by
  induction s generalizing k g with
  | nil => rfl
  | cons c cs ih =>
    rw [expandTabsFrom]
    split
    next hc =>
      subst hc
      have hw : tabWidth - k % tabWidth ≠ 0 := by
        have := Nat.mod_lt k (show 0 < tabWidth by decide)
        omega
      rw [glyphs_layout_append, ih]
      · rfl
      · intro d hd
        rw [List.eq_of_mem_replicate hd]
        rfl
      · intro he
        simp [hw] at he
    · rw [glyphs, glyphs, ih, ih]

theorem glyphs_eq_of_head (h : s.head?.any isLayout) (g g' : Bool) : glyphs g s = glyphs g' s := by
  cases s with
  | nil => rfl
  | cons c cs =>
    rw [List.head?_cons, Option.any_some] at h
    rw [glyphs, glyphs, if_pos h, if_pos h]

theorem glyphs_collapse (g : Bool) (s : List Char) : glyphs g (collapse s) = glyphs g s := by
  induction s generalizing g with
  | nil => rfl
  | cons c cs ih =>
    rw [collapse, glyphs]
    split
    · split
      next hl => rw [ih, glyphs_eq_of_head hl]
      · rw [glyphs, ih]
        rfl
    next hc => rw [glyphs, if_neg hc, ih]

theorem glyphs_rdropWhile (g : Bool) (s : List Char) :
    glyphs g (s.rdropWhile isLayout) = glyphs g s := by
  induction s using List.reverseRecOn with
  | nil => rfl
  | append_singleton s c ih =>
    rw [List.rdropWhile_concat]
    split
    next hc => rw [ih, glyphs_append, glyphs_layout (List.forall_mem_singleton.mpr hc), List.append_nil]
    · rfl

theorem glyphs_dropWhile (s : List Char) : glyphs true (s.dropWhile isLayout) = glyphs true s := by
  conv_rhs => rw [← List.takeWhile_append_dropWhile (p := isLayout) (l := s)]
  rw [glyphs_layout_append (fun c hc ↦ List.mem_takeWhile_imp hc) fun _ ↦ rfl]

theorem glyphs_stripLayout (s : List Char) : glyphs true (stripLayout s) = glyphs true s := by
  rw [stripLayout, glyphs_rdropWhile, glyphs_dropWhile]

/-- The text of glyphs, with a space wherever there is a gap. -/
def spell (gs : List (Bool × Char)) : List Char :=
  gs.flatMap fun m ↦ if m.1 then [' ', m.2] else [m.2]

/-- One space is left of the layout that a text ends in. -/
theorem collapse_eq_spell (s : List Char) :
    collapse s = spell (glyphs false s) ++ if gapAfter false s then [' '] else [] := by
  induction s with
  | nil => rfl
  | cons c cs ih =>
    rw [collapse, glyphs, ih]
    cases cs with
    | nil => cases hc : isLayout c <;> simp [spell, glyphs, gapAfter, hc]
    | cons d ds =>
      have hgap : gapAfter false (c :: d :: ds) = gapAfter false (d :: ds) := rfl
      rw [hgap]
      split
      · split
        next hd => rw [glyphs_eq_of_head hd true false]
        next hd =>
          rw [List.head?_cons, Option.any_some] at hd
          rw [glyphs, glyphs, if_neg hd, if_neg hd]
          rfl
      · rfl

theorem takeWhile_glyphs (s : List Char) : (glyphs true s).takeWhile (fun m ↦ !m.1) = [] := by
  induction s with
  | nil => rfl
  | cons c cs ih =>
    rw [glyphs]
    split
    · exact ih
    · rfl

theorem headWord_eq (s : List Char) :
    headWord s = ((glyphs false s).takeWhile fun m ↦ !m.1).map Prod.snd := by
  induction s with
  | nil => rfl
  | cons c cs ih =>
    rw [headWord, glyphs, List.takeWhile_cons]
    cases hc : isLayout c with
    | true => simp [isVisible, hc, takeWhile_glyphs]
    | false => simp [isVisible, hc, ← ih, headWord]

theorem headWord_append (hw : ∀ c ∈ w, isVisible c) (s : List Char) :
    headWord (w ++ s) = w ++ headWord s :=
  List.takeWhile_append_of_pos hw

theorem prefix_headWord_iff (hw : ∀ c ∈ w, isVisible c) : w <+: headWord s ↔ w <+: s := by
  constructor
  · exact fun h ↦ h.trans (List.takeWhile_prefix _)
  · rintro ⟨t, rfl⟩
    rw [headWord_append hw]
    exact List.prefix_append _ _

theorem takeWhile_headWord (hp : ∀ c, p c → isVisible c) (s : List Char) :
    (headWord s).takeWhile p = s.takeWhile p := by
  rw [headWord, List.takeWhile_takeWhile]
  congr 1
  funext c
  cases hc : p c with
  | true => simp [hp c hc]
  | false => simp

theorem head_headWord (hp : ∀ c, p c → isVisible c) (s : List Char) :
    (headWord s).head?.any p = s.head?.any p := by
  cases s with
  | nil => rfl
  | cons c cs =>
    cases hc : isVisible c with
    | true => simp [headWord, hc]
    | false =>
      have hpc : p c = false := by
        by_contra h
        rw [hp c (by simpa using h)] at hc
        cases hc
      simp [headWord, hc, hpc]

theorem headWord_eq_nil_iff (h : s.head?.any isLayout = false) : headWord s = [] ↔ s = [] := by
  cases s with
  | nil => simp [headWord]
  | cons c cs =>
    rw [List.head?_cons, Option.any_some] at h
    simp [headWord, isVisible, h]

theorem glyphs_cons {c : Char} (h : isLayout c = false) (g : Bool) (cs : List Char) :
    glyphs g (c :: cs) = (g, c) :: glyphs false cs := by
  rw [glyphs, if_neg (by simp [h])]

theorem gap_congr (hs : s.head?.any isLayout = false) (hs' : s'.head?.any isLayout = false)
    (hne : s ≠ []) (h : glyphs g s = glyphs g' s') : g = g' := by
  cases s with
  | nil => exact absurd rfl hne
  | cons c cs =>
    rw [glyphs_cons hs] at h
    cases s' with
    | nil => cases h
    | cons c' cs' =>
      rw [glyphs_cons hs'] at h
      exact (Prod.mk.inj (List.cons.inj h).1).1

theorem glyphs_congr (hs : s.head?.any isLayout = false) (hs' : s'.head?.any isLayout = false)
    (h : glyphs g s = glyphs g' s') (b : Bool) : glyphs b s = glyphs b s' := by
  cases s with
  | nil =>
    cases s' with
    | nil => rfl
    | cons c' cs' =>
      rw [glyphs_cons hs'] at h
      cases h
  | cons c cs =>
    rw [glyphs_cons hs] at h
    cases s' with
    | nil => cases h
    | cons c' cs' =>
      rw [glyphs_cons hs'] at h
      obtain ⟨hc, hcs⟩ := List.cons.inj h
      rw [glyphs_cons hs, glyphs_cons hs', hcs, (Prod.mk.inj hc).2]

theorem headWord_congr (hs : s.head?.any isLayout = false) (hs' : s'.head?.any isLayout = false)
    (h : glyphs g s = glyphs g' s') : headWord s = headWord s' := by
  rw [headWord_eq, headWord_eq, glyphs_congr hs hs' h false]

theorem gapAfter_eq (h : s ≠ []) (g g' : Bool) : gapAfter g s = gapAfter g' s := by
  cases s with
  | nil => exact absurd rfl h
  | cons c cs => rfl

theorem gapAfter_eq_false (h : s.getLast?.any isLayout = false) : gapAfter false s = false := by
  rcases List.eq_nil_or_concat s with rfl | ⟨t, c, rfl⟩
  · rfl
  · rw [List.concat_eq_append, List.getLast?_concat, Option.any_some] at h
    rw [List.concat_eq_append, gapAfter, List.foldl_append]
    exact h

theorem head_stripLayout (s : List Char) : (stripLayout s).head?.any isLayout = false := by
  have hprefix := List.rdropWhile_prefix isLayout (s.dropWhile isLayout)
  have hhead := List.head?_dropWhile_not isLayout s
  rw [stripLayout]
  generalize (s.dropWhile isLayout).rdropWhile isLayout = t at hprefix
  cases t with
  | nil => rfl
  | cons c t =>
    obtain ⟨u, hu⟩ := hprefix
    rw [← hu] at hhead
    simpa using hhead

theorem getLast_stripLayout (s : List Char) : (stripLayout s).getLast?.any isLayout = false := by
  cases h : (stripLayout s).getLast? with
  | none => rfl
  | some c =>
    have hne : stripLayout s ≠ [] := by
      intro he
      rw [he] at h
      cases h
    rw [List.getLast?_eq_some_getLast hne] at h
    cases h
    exact (Bool.not_eq_true _).mp (List.rdropWhile_last_not isLayout _ hne)

/-- Texts differ in layout only where they have the same glyphs. -/
theorem collapse_stripLayout_eq_iff :
    collapse (stripLayout s) = collapse (stripLayout s') ↔ glyphs true s = glyphs true s' := by
  constructor
  · intro h
    rw [← glyphs_stripLayout, ← glyphs_collapse, h, glyphs_collapse, glyphs_stripLayout]
  · intro h
    rw [← glyphs_stripLayout s, ← glyphs_stripLayout s'] at h
    rw [collapse_eq_spell, collapse_eq_spell,
      glyphs_congr (head_stripLayout s) (head_stripLayout s') h false,
      gapAfter_eq_false (getLast_stripLayout s), gapAfter_eq_false (getLast_stripLayout s')]

/-- A source is respaced where one run of layout stands in the place of another; it can be empty at
either end only. -/
theorem respaced_of_run {a b : List Char} (hw : ∀ c ∈ w, isLayout c) (hw' : ∀ c ∈ w', isLayout c)
    (hend : w = [] ∨ w' = [] → a = [] ∨ b = []) :
    Respaced (String.ofList (a ++ (w ++ b))) (String.ofList (a ++ (w' ++ b))) := by
  rw [Respaced, String.toList_ofList, String.toList_ofList, collapse_stripLayout_eq_iff,
    glyphs_append true a, glyphs_append true a]
  by_cases hb : b = []
  · rw [hb, List.append_nil, List.append_nil, glyphs_layout hw, glyphs_layout hw']
  · have hgap : w = [] ∨ w' = [] → gapAfter true a = true := by
      intro h
      obtain rfl := (hend h).resolve_right hb
      rfl
    rw [glyphs_layout_append hw fun h ↦ hgap (.inl h), glyphs_layout_append hw' fun h ↦ hgap (.inr h)]

theorem Respaced.glyphs_eq (h : Respaced source source') :
    glyphs true (expandTabs source).toList = glyphs true (expandTabs source').toList := by
  rw [expandTabs, expandTabs, String.toList_ofList, String.toList_ofList, glyphs_expandTabsFrom,
    glyphs_expandTabsFrom]
  exact collapse_stripLayout_eq_iff.mp h

end TypedLet.Grammar
