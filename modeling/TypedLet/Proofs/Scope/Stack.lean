import Mathlib.Data.List.DropRight
import TypedLet.Scope.Basic

namespace TypedLet

variable {α : Type} {bs bs' : List α} {b : α} {k l : Nat}

theorem rtake_of_length_le (h : bs.length ≤ k) : bs.rtake k = bs := by
  rw [List.rtake, Nat.sub_eq_zero_of_le h, List.drop_zero]

theorem rtake_cons_of_le (h : k ≤ bs.length) : (b :: bs).rtake k = bs.rtake k := by
  rw [List.rtake, List.length_cons, Nat.succ_sub h, List.drop_succ_cons, List.rtake]

theorem length_rtake (bs : List α) (k : Nat) : (bs.rtake k).length = min k bs.length := by
  rw [List.rtake, List.length_drop]
  omega

theorem rtake_rtake (bs : List α) (h : l ≤ k) : (bs.rtake k).rtake l = bs.rtake l := by
  have hl := length_rtake bs k
  unfold List.rtake at hl ⊢
  rw [hl, List.drop_drop]
  congr 1
  omega

theorem rtake_of_suffix (h : bs' <:+ bs) : bs.rtake bs'.length = bs' :=
  (List.suffix_iff_eq_drop.mp h).symm

namespace Scope

variable {α : Type} {s : Scope α} {n : Int} {k : Nat}

/-- A scope with bindings made in it one by one, the newest first. -/
def push (s : Scope α) : List (String × α) → Scope α
  | [] => s
  | (x, v) :: older => (s.push older).insert x v

theorem depth_push (s : Scope α) (bs : List (String × α)) :
    (s.push bs).depth = s.depth + bs.length := by
  induction bs with
  | nil => rfl
  | cons b bs ih => rw [push, depth_insert, ih, List.length_cons, Nat.add_assoc]

theorem depth_push_empty (bs : List (String × α)) : (empty.push bs).depth = bs.length :=
  (depth_push empty bs).trans (Nat.zero_add _)

theorem unwind_insert_of_le (x : String) (v : α) (h : n ≤ s.depth) :
    unwind n (s.insert x v) = unwind n s := by
  have hn : n < (Change.mk x (s.get? x) :: s.journal).length := by
    rw [List.length_cons]
    change n ≤ (s.journal.length : Int) at h
    omega
  have hr := revert_insert s x v
  simp only [insert] at hr
  simp only [unwind, insert, revertTo, if_pos hn, hr]

/-- Taking changes back leaves the oldest of the bindings that were made. -/
theorem unwind_push (bs : List (String × α)) (k : Nat) :
    unwind k (empty.push bs) = .ok () (empty.push (bs.rtake k)) := by
  induction bs with
  | nil =>
    rw [List.rtake_nil, push]
    exact unwind_of_depth_le (Nat.zero_le k)
  | cons b bs ih =>
    by_cases hk : (b :: bs).length ≤ k
    · rw [rtake_of_length_le hk]
      exact unwind_of_depth_le (by rwa [depth_push_empty])
    · have hle : k ≤ bs.length := Nat.le_of_lt_succ (Nat.not_le.mp hk)
      have hd : (k : Int) ≤ (empty.push bs).depth := by
        rw [depth_push_empty]
        exact Int.ofNat_le.mpr hle
      rw [push, unwind_insert_of_le _ _ hd, ih, rtake_cons_of_le hle]

theorem unwind_push_of_neg (bs : List (String × α)) (h : n < 0) :
    unwind n (empty.push bs) = .error .emptyJournal empty := by
  induction bs with
  | nil => simp [push, unwind, empty, revertTo, h]
  | cons b bs ih => rw [push, unwind_insert_of_le _ _ (by omega), ih]

end Scope

end TypedLet
