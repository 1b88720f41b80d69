import BlitzRouter.PolicyDsl
import Mathlib.Algebra.Order.Field.Basic
import Mathlib.Algebra.Order.BigOperators.Group.List
import Mathlib.Order.Interval.Set.Basic
import Mathlib.Tactic.Linarith
import Mathlib.Tactic.NormNum
import Mathlib.Tactic.Positivity
import Mathlib.Algebra.Order.Ring.Rat
import Mathlib.Algebra.Field.Rat

namespace BlitzRouter.Policy
variable {K : Type} [Field K] [LinearOrder K] [IsStrictOrderedRing K] {weights : List (Nat × K)} {r u w : K} {idx k : Nat}

def positivePart (pair : Nat × K) : K := max pair.2 0

-- The sum of the positive weights in front of a position.
def cumulative (weights : List (Nat × K)) (k : Nat) : K := ((weights.take k).map positivePart).sum

def total (weights : List (Nat × K)) : K := cumulative weights weights.length

-- An interval, with or without its ends.
def Interval (draws : Set K) (length : K) : Prop :=
  ∃ a b, a ≤ b ∧ b-a = length ∧ Set.Ioo a b ⊆ draws ∧ draws ⊆ Set.Icc a b

omit [IsStrictOrderedRing K] in
theorem positivePart_nonneg (pair : Nat × K) : 0 ≤ positivePart pair := le_max_right _ _

omit [IsStrictOrderedRing K] in
@[simp] theorem cumulative_zero (weights : List (Nat × K)) : cumulative weights 0 = 0 := rfl

omit [IsStrictOrderedRing K] in
@[simp] theorem cumulative_cons (pair : Nat × K) (weights : List (Nat × K)) (k : Nat) :
    cumulative (pair::weights) (k+1) = positivePart pair+cumulative weights k := by
  simp [cumulative]

omit [IsStrictOrderedRing K] in
theorem cumulative_succ (at_ : weights[k]? = some (idx,w)) : cumulative weights (k+1) = cumulative weights k+positivePart (idx,w) := by
  simp [cumulative,List.take_add_one,at_]

theorem cumulative_nonneg (weights : List (Nat × K)) (k : Nat) : 0 ≤ cumulative weights k := by
  refine List.sum_nonneg fun part member => ?_
  obtain ⟨pair,_,rfl⟩ := List.mem_map.mp member
  exact positivePart_nonneg pair

theorem cumulative_le_total (weights : List (Nat × K)) (k : Nat) : cumulative weights k ≤ total weights := by
  induction weights generalizing k with
  | nil => simp [cumulative,total]
  | cons pair weights ih =>
    cases k with
    | zero => exact cumulative_nonneg _ _
    | succ k =>
      have rest := ih k
      unfold total at rest ⊢
      rw [List.length_cons,cumulative_cons,cumulative_cons]
      linarith

-- The walk with its subtractions, read on the cumulative sums: it stops at the
-- first position whose sum reaches the draw.
theorem pickFrom_position (picked : pickFrom weights r = some idx) :
    ∃ k w, weights[k]? = some (idx,w) ∧ r ≤ cumulative weights (k+1) ∧ (k = 0 ∨ cumulative weights k < r) := by
  induction weights generalizing r with
  | nil => cases picked
  | cons pair weights ih =>
    obtain ⟨i,w⟩ := pair
    simp only [pickFrom] at picked
    split at picked
    · rename_i reaches
      cases picked
      exact ⟨0,w,rfl,by simpa [positivePart] using reaches,.inl rfl⟩
    · rename_i beyond
      obtain ⟨k,w',at_,reaches,lower⟩ := ih picked
      refine ⟨k+1,w',at_,?_,.inr ?_⟩
      · rw [cumulative_cons,positivePart]
        linarith
      · rw [cumulative_cons,positivePart]
        rcases lower with rfl | lower
        · simpa using beyond
        · linarith

theorem pickFrom_range (at_ : weights[k]? = some (idx,w)) (lower : cumulative weights k < r) (upper : r ≤ cumulative weights (k+1)) :
    pickFrom weights r = some idx := by
  induction weights generalizing k r with
  | nil => cases at_
  | cons pair weights ih =>
    obtain ⟨i,v⟩ := pair
    simp only [pickFrom]
    cases k with
    | zero =>
      cases at_
      rw [cumulative_cons,cumulative_zero,add_zero] at upper
      exact if_pos upper
    | succ k =>
      rw [cumulative_cons] at lower upper
      have rest := cumulative_nonneg weights k
      have beyond : ¬r ≤ max v 0 := by
        intro reaches
        have part : max v 0+cumulative weights k < r := lower
        linarith
      rw [if_neg beyond]
      refine ih at_ ?_ ?_
      · have part : max v 0+cumulative weights k < r := lower
        linarith
      · have part : r ≤ max v 0+cumulative weights (k+1) := upper
        linarith

theorem pickFrom_isSome (filled : weights ≠ []) (below : r ≤ total weights) : ∃ idx, pickFrom weights r = some idx := by
  induction weights generalizing r with
  | nil => exact absurd rfl filled
  | cons pair weights ih =>
    obtain ⟨i,v⟩ := pair
    simp only [pickFrom]
    split
    · exact ⟨i,rfl⟩
    · rename_i beyond
      have sum : r ≤ max v 0+total weights := by simpa [total,positivePart] using below
      refine ih ?_ (by linarith)
      rintro rfl
      exact beyond (by simpa [total] using sum)

theorem total_positive (positive : ∃ pair ∈ weights, 0 < pair.2) : 0 < total weights := by
  obtain ⟨⟨i,w⟩,member,above⟩ := positive
  obtain ⟨k,at_⟩ := List.mem_iff_getElem?.mp member
  have part : 0 < positivePart (i,w) := lt_max_of_lt_left above
  have before := cumulative_nonneg weights k
  have through := cumulative_le_total weights (k+1)
  rw [cumulative_succ at_] at through
  linarith

-- While some weight is positive and the draw below 1, the walk finds its index:
-- neither the first nor the last one is a fallback.
theorem weightedPick_eq (positive : ∃ pair ∈ weights, 0 < pair.2) (below : u < 1) :
    weightedPick weights u = .ok idx ↔ pickFrom weights (u*total weights) = some idx := by
  have sum := total_positive positive
  have filled : weights ≠ [] := by
    obtain ⟨pair,member,_⟩ := positive
    exact List.ne_nil_of_mem member
  have folded : (weights.map fun pair => max pair.2 0).foldl (·+·) 0 = total weights := by
    rw [← List.sum_eq_foldl,total,cumulative,List.take_length]
    rfl
  obtain ⟨found,picked⟩ := pickFrom_isSome (r := u*total weights) filled (by nlinarith)
  unfold weightedPick
  rw [List.head?_eq_some_head filled,List.getLast?_eq_some_getLast filled]
  simp only [folded,not_le.mpr sum,if_false,picked,Option.getD_some,Except.ok.injEq,Option.some.injEq]

omit [Field K] [LinearOrder K] [IsStrictOrderedRing K] in
theorem position_unique (distinct : (weights.map Prod.fst).Nodup) {k' : Nat} {w' : K} (one : weights[k]? = some (idx,w))
    (two : weights[k']? = some (idx,w')) : k' = k := by
  have inRange : k' < (weights.map Prod.fst).length := by
    rw [List.length_map]
    exact (List.getElem?_eq_some_iff.mp two).1
  refine (List.getElem?_inj inRange distinct).mp ?_
  rw [List.getElem?_map,List.getElem?_map,one,two]
  rfl

-- The draws of the k-th index lie between its two cumulative sums.
theorem draws_interval (distinct : (weights.map Prod.fst).Nodup) (positive : ∃ pair ∈ weights, 0 < pair.2)
    (at_ : weights[k]? = some (idx,w)) :
    Interval {u | 0 ≤ u ∧ u < 1 ∧ weightedPick weights u = .ok idx} (max w 0/total weights) := by
  have sum := total_positive positive
  have above := cumulative_nonneg weights k
  have through := cumulative_le_total weights (k+1)
  have next := cumulative_succ at_
  have part := positivePart_nonneg (idx,w)
  refine ⟨cumulative weights k/total weights,cumulative weights (k+1)/total weights,?_,?_,?_,?_⟩
  · exact (div_le_div_iff_of_pos_right sum).mpr (by linarith)
  · rw [← sub_div,next,add_sub_cancel_left]
    rfl
  · intro u ⟨lower,upper⟩
    rw [div_lt_iff₀ sum] at lower
    rw [lt_div_iff₀ sum] at upper
    have below : u < 1 := by nlinarith
    exact ⟨by nlinarith,below,(weightedPick_eq positive below).mpr (pickFrom_range at_ lower upper.le)⟩
  · intro u ⟨lower,below,picked⟩
    obtain ⟨k',w',at',reaches,before⟩ := pickFrom_position ((weightedPick_eq positive below).mp picked)
    obtain rfl := position_unique distinct at_ at'
    refine ⟨?_,(le_div_iff₀ sum).mpr reaches⟩
    rw [div_le_iff₀ sum]
    rcases before with rfl | before
    · rw [cumulative_zero]
      positivity
    · exact before.le

-- The pick of one draw has a positive weight.
def PicksPositive (weights : List (Nat × K)) (u : K) : Prop :=
  ∃ idx w, weightedPick weights u = .ok idx ∧ (idx,w) ∈ weights ∧ 0 < w

def FirstPositive (weights : List (Nat × K)) : Prop := ∃ pair ∈ weights.head?, 0 < pair.2

theorem picks_drawn (positive : ∃ pair ∈ weights, 0 < pair.2) (above : 0 < u) (below : u < 1) : PicksPositive weights u := by
  have sum := total_positive positive
  obtain ⟨pair,member,_⟩ := id positive
  obtain ⟨idx,picked⟩ := pickFrom_isSome (r := u*total weights) (List.ne_nil_of_mem member) (by nlinarith)
  obtain ⟨k,w,at_,reaches,before⟩ := pickFrom_position picked
  refine ⟨idx,w,(weightedPick_eq positive below).mpr picked,List.mem_of_getElem? at_,?_⟩
  have drawn : 0 < u*total weights := mul_pos above sum
  have part : 0 < positivePart (idx,w) := by
    rw [cumulative_succ at_] at reaches
    rcases before with rfl | before
    · rw [cumulative_zero] at reaches
      linarith
    · linarith
  exact (lt_max_iff.mp part).resolve_right (lt_irrefl 0)

-- A draw of 0 takes the first index, whatever its weight.
theorem picks_zero (distinct : (weights.map Prod.fst).Nodup) (positive : ∃ pair ∈ weights, 0 < pair.2) :
    PicksPositive weights 0 ↔ FirstPositive weights := by
  cases weights with
  | nil => simp [PicksPositive,FirstPositive]
  | cons first weights =>
    obtain ⟨i,w⟩ := first
    have picked : weightedPick ((i,w)::weights) 0 = .ok i := by
      rw [weightedPick_eq positive one_pos,zero_mul,pickFrom]
      exact if_pos (le_max_right _ _)
    constructor
    · rintro ⟨idx,w',result,member,above⟩
      rw [picked] at result
      cases result
      obtain ⟨k,at_⟩ := List.mem_iff_getElem?.mp member
      have head : ((i,w)::weights)[0]? = some (i,w) := rfl
      obtain rfl := position_unique distinct head at_
      cases at_
      exact ⟨(i,w),rfl,above⟩
    · rintro ⟨pair,same,above⟩
      cases same
      exact ⟨i,w,picked,List.mem_cons_self,above⟩

-- Every draw lands on a positive weight, and the draws that land on a row are an
-- interval as long as its share of the positive weights.
structure Proportional (weights : List (Nat × K)) : Prop where
  picks : ∀ u, 0 ≤ u → u < 1 → PicksPositive weights u
  intervals : ∀ (k idx : Nat) (w : K), weights[k]? = some (idx,w) →
    Interval {u | 0 ≤ u ∧ u < 1 ∧ weightedPick weights u = .ok idx} (max w 0/total weights)

theorem weightedPick_proportional_iff (weights : List (Nat × K)) (distinct : (weights.map Prod.fst).Nodup)
    (positive : ∃ pair ∈ weights, 0 < pair.2) :
    (Proportional weights ↔ FirstPositive weights) ∧
    (∀ u, 0 ≤ u → u < 1 → (PicksPositive weights u ↔ 0 < u ∨ FirstPositive weights)) ∧
    ∀ (k idx : Nat) (w : K), weights[k]? = some (idx,w) →
      Interval {u | 0 ≤ u ∧ u < 1 ∧ weightedPick weights u = .ok idx} (max w 0/total weights) := by
  have draws : ∀ u, 0 ≤ u → u < 1 → (PicksPositive weights u ↔ 0 < u ∨ FirstPositive weights) := by
    intro u above below
    rcases above.eq_or_lt with rfl | drawn
    · simpa using picks_zero distinct positive
    · exact iff_of_true (picks_drawn positive drawn below) (.inl drawn)
  refine ⟨⟨fun proportional => ?_,fun first => ⟨fun u above below => ?_,fun k idx w at_ => ?_⟩⟩,draws,fun k idx w at_ => ?_⟩
  · exact (picks_zero distinct positive).mp (proportional.picks 0 le_rfl one_pos)
  · exact (draws u above below).mpr (.inr first)
  · exact draws_interval distinct positive at_
  · exact draws_interval distinct positive at_

-- A hopeless replica beside a good one.
def zeroFirst : List (Nat × ℚ) := [(0,0),(1,1)]

theorem weightedPick_zero_first : (zeroFirst.map Prod.fst).Nodup ∧ (∃ pair ∈ zeroFirst, 0 < pair.2) ∧
    weightedPick zeroFirst 0 = .ok 0 ∧ ¬PicksPositive zeroFirst 0 := by
  have picked : weightedPick zeroFirst 0 = .ok 0 := by decide +kernel
  refine ⟨by decide,⟨(1,1),by decide,by norm_num⟩,picked,?_⟩
  rintro ⟨idx,w,result,member,above⟩
  rw [picked] at result
  cases result
  have weight : w = 0 := by simpa [zeroFirst] using member
  exact absurd above (weight ▸ lt_irrefl _)

theorem weightedPick_proportional_iff_quarters :
    (Proportional [(3,(1 : ℚ)),(5,-2),(4,3)] ↔ FirstPositive [(3,(1 : ℚ)),(5,-2),(4,3)]) ∧
    PicksPositive [(3,(1 : ℚ)),(5,-2),(4,3)] (1/4) ∧
    Interval {u | 0 ≤ u ∧ u < 1 ∧ weightedPick [(3,(1 : ℚ)),(5,-2),(4,3)] u = .ok 4} (max 3 0/total [(3,(1 : ℚ)),(5,-2),(4,3)]) := by
  obtain ⟨all,draws,intervals⟩ := weightedPick_proportional_iff [(3,(1 : ℚ)),(5,-2),(4,3)] (by decide) ⟨(3,1),by decide,by norm_num⟩
  exact ⟨all,(draws (1/4) (by norm_num) (by norm_num)).mpr (.inl (by norm_num)),intervals 2 4 3 rfl⟩

end BlitzRouter.Policy
