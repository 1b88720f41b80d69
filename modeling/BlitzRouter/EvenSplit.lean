import Mathlib.Data.List.Basic
import Mathlib.Order.Monotone.Defs
import Mathlib.Algebra.Order.Group.Nat
import Mathlib.Algebra.BigOperators.Group.List.Basic
import Mathlib.Algebra.GroupWithZero.Nat

namespace EvenSplit

-- What the i-th of `parts` gets of `total`: the leading ones take the remainder.
def share (total parts i : Nat) : Nat := if i < total%parts then total/parts+1 else total/parts

theorem sum_leading (total parts n : Nat) : ((List.range n).map (share total parts)).sum = n*(total/parts)+min n (total%parts) := by
  induction n with
  | zero => rw [Nat.zero_mul,Nat.zero_min,Nat.add_zero,List.range_zero,List.map_nil,List.sum_nil]
  | succ n ih =>
    rw [List.range_succ,List.map_append,List.sum_append,ih,List.map_singleton,List.sum_singleton,share,Nat.succ_mul]
    split
    · rename_i leading
      rw [Nat.min_eq_left (Nat.le_of_lt leading),Nat.min_eq_left leading]
      omega
    · rename_i trailing
      rw [Nat.min_eq_right (Nat.not_lt.mp trailing),Nat.min_eq_right (Nat.le_succ_of_le (Nat.not_lt.mp trailing))]
      omega

theorem sum_shares (total : Nat) {parts : Nat} (some : 0 < parts) : ((List.range parts).map (share total parts)).sum = total := by
  rw [sum_leading,Nat.min_eq_right (Nat.le_of_lt (Nat.mod_lt total some))]
  exact Nat.div_add_mod total parts

-- One more goes to the part after the last that got one.
theorem share_succ (total : Nat) {parts i : Nat} (inside : i < parts) :
    share (total+1) parts i = share total parts i+if i = total%parts then 1 else 0 := by
  have some : 0 < parts := Nat.zero_lt_of_lt inside
  have last := Nat.mod_lt total some
  have whole := Nat.div_add_mod total parts
  by_cases wraps : total%parts+1 = parts
  · obtain ⟨quotient,rest⟩ : (total+1)/parts = total/parts+1 ∧ (total+1)%parts = 0 :=
      (Nat.div_mod_unique some).mpr ⟨by rw [Nat.mul_succ]; omega,some⟩
    unfold share
    rw [quotient,rest]
    split <;> split <;> split <;> omega
  · obtain ⟨quotient,rest⟩ : (total+1)/parts = total/parts ∧ (total+1)%parts = total%parts+1 :=
      (Nat.div_mod_unique some).mpr ⟨by omega,by omega⟩
    unfold share
    rw [quotient,rest]
    split <;> split <;> split <;> omega

theorem count_turns (total : Nat) {parts i : Nat} (inside : i < parts) : ((List.range total).map (·%parts)).count i = share total parts i := by
  induction total with
  | zero => simp [share]
  | succ total ih =>
    rw [List.range_succ,List.map_append,List.count_append,ih,List.map_singleton,List.count_singleton,share_succ total inside]
    simp only [beq_iff_eq,eq_comm (a := i)]

theorem share_close (total parts i j : Nat) : share total parts i ≤ share total parts j+1 := by
  unfold share
  split <;> split <;> omega

-- Where more is less desired, the first part that is least off is the next in turn.
theorem share_turn {σ : Type} [LinearOrder σ] {g : Nat → σ} (rises : StrictMono g) {total parts k : Nat} (inside : k < parts)
    (least : ∀ i, i < parts → g (share total parts k) ≤ g (share total parts i))
    (first : ∀ i, i < k → g (share total parts k) < g (share total parts i)) : k = total%parts := by
  have turn : total%parts < parts := Nat.mod_lt _ (Nat.zero_lt_of_lt inside)
  rcases Nat.lt_trichotomy k (total%parts) with early | same | late
  · have lower := rises.le_iff_le.mp (least _ turn)
    simp [share,early] at lower
  · exact same
  · have higher := rises.lt_iff_lt.mp (first _ late)
    simp [share,Nat.not_lt.mpr (Nat.le_of_lt late)] at higher

end EvenSplit
