import Mathlib.Order.Lattice

namespace Extremes
variable {α : Type} {keep : α → α → α} {values : List α} {x y : α}

-- `Iterator::reduce` of the standard library.
def reduce (keep : α → α → α) : List α → Option α
  | [] => none
  | x::xs => some (xs.foldl keep x)

-- `min_by` keeps the first of equal values and `max_by` the last.
def minBy (compare : α → α → Ordering) : List α → Option α :=
  reduce fun x y => if compare x y = .gt then y else x

def maxBy (compare : α → α → Ordering) : List α → Option α :=
  reduce fun x y => if compare x y = .gt then x else y

theorem reduce_isSome (keep : α → α → α) (filled : values ≠ []) : ∃ x, reduce keep values = some x := by
  cases values with
  | nil => exact absurd rfl filled
  | cons x xs => exact ⟨_,rfl⟩

section
variable {R : α → α → Prop}

-- What is kept stands in a preorder to everything before it, the rest of the
-- list included, where each choice does to both of its values.
theorem foldl_extreme (refl : ∀ x, R x x) (trans : ∀ {x y z}, R x y → R y z → R x z) (left : ∀ x y, R (keep x y) x)
    (right : ∀ x y, R (keep x y) y) (xs : List α) (x : α) :
    R (xs.foldl keep x) x ∧ ∀ y ∈ xs, R (xs.foldl keep x) y := by
  induction xs generalizing x with
  | nil => exact ⟨refl x,by simp⟩
  | cons z zs ih =>
    obtain ⟨first,others⟩ := ih (keep x z)
    refine ⟨trans first (left x z),fun y member => ?_⟩
    rcases List.mem_cons.mp member with rfl | later
    · exact trans first (right x y)
    · exact others y later

theorem reduce_extreme (refl : ∀ x, R x x) (trans : ∀ {x y z}, R x y → R y z → R x z) (left : ∀ x y, R (keep x y) x)
    (right : ∀ x y, R (keep x y) y) (kept : reduce keep values = some x) : ∀ y ∈ values, R x y := by
  cases values with
  | nil => cases kept
  | cons z zs =>
    cases kept
    obtain ⟨first,others⟩ := foldl_extreme refl trans left right zs z
    intro y member
    rcases List.mem_cons.mp member with rfl | later
    · exact first
    · exact others y later

end

theorem foldl_mem (picks : ∀ x y, keep x y = x ∨ keep x y = y) (xs : List α) (x : α) : xs.foldl keep x ∈ x::xs := by
  induction xs generalizing x with
  | nil => exact List.mem_cons_self
  | cons z zs ih =>
    rcases List.mem_cons.mp (ih (keep x z)) with same | later
    · rw [List.foldl_cons,same]
      rcases picks x z with first | second
      · rw [first]; exact List.mem_cons_self
      · rw [second]; exact List.mem_cons_of_mem _ List.mem_cons_self
    · exact List.mem_cons_of_mem _ (List.mem_cons_of_mem _ later)

theorem reduce_mem (picks : ∀ x y, keep x y = x ∨ keep x y = y) (kept : reduce keep values = some x) : x ∈ values := by
  cases values with
  | nil => cases kept
  | cons z zs =>
    cases kept
    exact foldl_mem picks zs z

section
variable {compare : α → α → Ordering}

theorem minBy_mem (kept : minBy compare values = some x) : x ∈ values :=
  reduce_mem (fun x y => by by_cases greater : compare x y = .gt <;> simp [greater]) kept

theorem maxBy_mem (kept : maxBy compare values = some x) : x ∈ values :=
  reduce_mem (fun x y => by by_cases greater : compare x y = .gt <;> simp [greater]) kept

end

section
variable {σ : Type} [LinearOrder σ] {score : α → σ}

theorem minBy_least (kept : minBy (fun a b => compare (score a) (score b)) values = some x) : ∀ y ∈ values, score x ≤ score y := by
  refine reduce_extreme (R := fun a b => score a ≤ score b) (fun _ => le_refl _) (fun one two => one.trans two) ?_ ?_ kept
  · intro a b
    split
    · rename_i greater
      exact (compare_gt_iff_gt.mp greater).le
    · exact le_refl _
  · intro a b
    split
    · exact le_refl _
    · rename_i other
      exact not_lt.mp fun greater => other (compare_gt_iff_gt.mpr greater)

-- What comes before the least value that is kept is greater.
theorem foldl_first (xs : List α) (x : α) :
    (xs.foldl (fun a b => if compare (score a) (score b) = .gt then b else a) x = x ∧ ∀ y ∈ xs, score x ≤ score y) ∨
      ∃ before kept after, xs = before++kept::after ∧ xs.foldl (fun a b => if compare (score a) (score b) = .gt then b else a) x = kept ∧
        score kept < score x ∧ ∀ y ∈ before, score kept < score y := by
  induction xs generalizing x with
  | nil => exact .inl ⟨rfl,by simp⟩
  | cons z zs ih =>
    rw [List.foldl_cons]
    by_cases greater : compare (score x) (score z) = .gt
    · have less : score z < score x := compare_gt_iff_gt.mp greater
      rw [if_pos greater]
      rcases ih z with ⟨same,_⟩ | ⟨before,kept,after,rfl,same,lower,first⟩
      · exact .inr ⟨[],z,zs,rfl,same,less,by simp⟩
      · refine .inr ⟨z::before,kept,after,rfl,same,lower.trans less,fun y member => ?_⟩
        rcases List.mem_cons.mp member with rfl | later
        · exact lower
        · exact first y later
    · have most : score x ≤ score z := not_lt.mp fun less => greater (compare_gt_iff_gt.mpr less)
      rw [if_neg greater]
      rcases ih x with ⟨same,rest⟩ | ⟨before,kept,after,rfl,same,lower,first⟩
      · refine .inl ⟨same,fun y member => ?_⟩
        rcases List.mem_cons.mp member with rfl | later
        · exact most
        · exact rest y later
      · refine .inr ⟨z::before,kept,after,rfl,same,lower,fun y member => ?_⟩
        rcases List.mem_cons.mp member with rfl | later
        · exact lower.trans_le most
        · exact first y later

theorem minBy_first (kept : minBy (fun a b => compare (score a) (score b)) values = some x) :
    ∃ before after, values = before++x::after ∧ ∀ y ∈ before, score x < score y := by
  cases values with
  | nil => cases kept
  | cons z zs =>
    simp only [minBy,reduce,Option.some.injEq] at kept
    rcases @foldl_first _ _ _ score zs z with ⟨same,_⟩ | ⟨before,first,after,rfl,same,lower,least⟩
    · exact ⟨[],zs,by rw [← kept,same]; rfl,by simp⟩
    · obtain rfl : first = x := same.symm.trans kept
      refine ⟨z::before,after,rfl,fun y member => ?_⟩
      rcases List.mem_cons.mp member with rfl | later
      · exact lower
      · exact least y later

-- What comes after the greatest value that is kept is less.
theorem foldl_last (xs : List α) (x : α) :
    (xs.foldl (fun a b => if compare (score a) (score b) = .gt then a else b) x = x ∧ ∀ y ∈ xs, score y < score x) ∨
      ∃ before kept after, xs = before++kept::after ∧ xs.foldl (fun a b => if compare (score a) (score b) = .gt then a else b) x = kept ∧
        ∀ y ∈ after, score y < score kept := by
  induction xs generalizing x with
  | nil => exact .inl ⟨rfl,by simp⟩
  | cons z zs ih =>
    rw [List.foldl_cons]
    by_cases greater : compare (score x) (score z) = .gt
    · rw [if_pos greater]
      rcases ih x with ⟨same,less⟩ | ⟨before,kept,after,rfl,same,last⟩
      · exact .inl ⟨same,List.forall_mem_cons.mpr ⟨compare_gt_iff_gt.mp greater,less⟩⟩
      · exact .inr ⟨z::before,kept,after,rfl,same,last⟩
    · rw [if_neg greater]
      rcases ih z with ⟨same,less⟩ | ⟨before,kept,after,rfl,same,last⟩
      · exact .inr ⟨[],z,zs,rfl,same,less⟩
      · exact .inr ⟨z::before,kept,after,rfl,same,last⟩

theorem maxBy_last (kept : maxBy (fun a b => compare (score a) (score b)) values = some x) :
    ∃ before after, values = before++x::after ∧ ∀ y ∈ after, score y < score x := by
  cases values with
  | nil => cases kept
  | cons z zs =>
    simp only [maxBy,reduce,Option.some.injEq] at kept
    rcases @foldl_last _ _ _ score zs z with ⟨same,less⟩ | ⟨before,last,after,rfl,same,less⟩
    · obtain rfl : z = x := same.symm.trans kept
      exact ⟨[],zs,rfl,less⟩
    · obtain rfl : last = x := same.symm.trans kept
      exact ⟨z::before,after,rfl,less⟩

theorem maxBy_greatest (kept : maxBy (fun a b => compare (score a) (score b)) values = some x) : ∀ y ∈ values, score y ≤ score x := by
  refine reduce_extreme (R := fun a b => score b ≤ score a) (fun _ => le_refl _) (fun one two => two.trans one) ?_ ?_ kept
  · intro a b
    split
    · exact le_refl _
    · rename_i other
      exact not_lt.mp fun greater => other (compare_gt_iff_gt.mpr greater)
  · intro a b
    split
    · rename_i greater
      exact (compare_gt_iff_gt.mp greater).le
    · exact le_refl _

end

end Extremes
