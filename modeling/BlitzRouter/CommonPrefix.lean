import Mathlib.Data.List.Infix

namespace BlitzRouter.CommonPrefix

variable {α : Type*} [DecidableEq α]

def commonLen : List α → List α → Nat
  | x::xs,y::ys => if x = y then commonLen xs ys + 1 else 0
  | _,_ => 0

@[simp] theorem commonLen_nil_left (ys : List α) : commonLen [] ys = 0 := rfl

@[simp] theorem commonLen_nil_right (xs : List α) : commonLen xs [] = 0 := by
  cases xs <;> rfl

theorem commonLen_le_left (xs ys : List α) : commonLen xs ys ≤ xs.length := by
  induction xs generalizing ys with
  | nil => simp
  | cons x xs ih =>
    cases ys with
    | nil => simp
    | cons y ys =>
      have bound := ih ys
      simp only [commonLen,List.length_cons]
      split <;> omega

theorem commonLen_le_right (xs ys : List α) : commonLen xs ys ≤ ys.length := by
  induction xs generalizing ys with
  | nil => simp
  | cons x xs ih =>
    cases ys with
    | nil => simp
    | cons y ys =>
      have bound := ih ys
      simp only [commonLen,List.length_cons]
      split <;> omega

theorem take_commonLen (xs ys : List α) : xs.take (commonLen xs ys) = ys.take (commonLen xs ys) := by
  induction xs generalizing ys with
  | nil => simp
  | cons x xs ih =>
    cases ys with
    | nil => simp
    | cons y ys =>
      simp only [commonLen]
      split
      · rename_i same
        simp only [List.take_succ_cons,same,ih ys]
      · simp

-- The scan stops at the first position where the two lists disagree or one ends.
theorem commonLen_maximal {xs ys : List α} {n : Nat} (left : n ≤ xs.length) (right : n ≤ ys.length)
    (agree : xs.take n = ys.take n) : n ≤ commonLen xs ys := by
  induction n generalizing xs ys with
  | zero => exact Nat.zero_le _
  | succ n ih =>
    cases xs with
    | nil => simp at left
    | cons x xs =>
      cases ys with
      | nil => simp at right
      | cons y ys =>
        simp only [List.take_succ_cons,List.cons.injEq] at agree
        simp only [List.length_cons,Nat.succ_le_succ_iff] at left right
        have rest := ih left right agree.2
        simp only [commonLen,agree.1,if_true]
        omega

theorem commonLen_eq_zero {xs ys : List α} (left : xs ≠ []) (right : ys ≠ []) :
    commonLen xs ys = 0 ↔ xs.head? ≠ ys.head? := by
  cases xs with
  | nil => exact absurd rfl left
  | cons x xs =>
    cases ys with
    | nil => exact absurd rfl right
    | cons y ys => by_cases same : x = y <;> simp [commonLen,same]

theorem commonLen_append {xs ys : List α} (suffix : List α) :
    commonLen (xs++suffix) (xs++ys) = xs.length + commonLen suffix ys := by
  induction xs with
  | nil => simp
  | cons x xs ih => simp [commonLen,ih]; omega

theorem commonLen_append_short {xs ys : List α} (stops : commonLen xs ys < xs.length) (suffix : List α) :
    commonLen (xs++suffix) ys = commonLen xs ys := by
  induction xs generalizing ys with
  | nil => cases stops
  | cons x xs ih =>
    cases ys with
    | nil => rfl
    | cons y ys =>
      simp only [commonLen,List.length_cons,List.cons_append] at stops ⊢
      split
      · rename_i same
        rw [if_pos same] at stops
        rw [ih (by omega)]
      · rfl

theorem prefix_of_commonLen {xs ys : List α} (whole : commonLen xs ys = xs.length) : ys = xs++ys.drop xs.length := by
  have agree := take_commonLen xs ys
  rw [whole,List.take_length] at agree
  calc ys = ys.take xs.length++ys.drop xs.length := (List.take_append_drop _ _).symm
    _ = xs++ys.drop xs.length := by rw [← agree]

end BlitzRouter.CommonPrefix
