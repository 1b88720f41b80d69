import Mathlib.Algebra.Order.BigOperators.Group.Finset
import Mathlib.Algebra.Order.Ring.Nat
import Mathlib.Logic.Function.Basic

namespace Balancing
variable {ι : Type*} {slack weight : ℕ}

-- The load of every machine, and what the choice under way has seen of it.
structure Machines (ι : Type*) where
  load : ι → ℕ
  seen : ι → Option ℕ

-- Machines are looked at one after another, while the loads of all of them may go
-- down. A job goes to one whose seen load is within the slack of every other.
inductive Step [DecidableEq ι] (slack weight : ℕ) : Machines ι → Machines ι → Prop where
  | ease {s : Machines ι} {load : ι → ℕ} (less : ∀ i, load i ≤ s.load i) : Step slack weight s {s with load := load}
  | look {s : Machines ι} (i : ι) : Step slack weight s {s with seen := Function.update s.seen i (some (s.load i))}
  | forget {s : Machines ι} : Step slack weight s {s with seen := fun _ => none}
  | place {s : Machines ι} {i : ι} {least : ℕ} {load : ι → ℕ} (chosen : s.seen i = some least)
      (near : ∀ j, ∃ v, s.seen j = some v ∧ least ≤ v+slack) (grown : load i ≤ s.load i+weight)
      (others : ∀ j, j ≠ i → load j ≤ s.load j) : Step slack weight s ⟨load,fun _ => none⟩

variable [Fintype ι]

def Machines.total (s : Machines ι) : ℕ := ∑ i, s.load i

-- `base` is what the loads were when the last job had been placed.
structure Fair (capacity bound : ℕ) (s : Machines ι) : Prop where
  since : ∃ base : ι → ℕ, ∑ i, base i ≤ capacity ∧ (∀ i, s.load i ≤ base i) ∧ ∀ i v, s.seen i = some v → s.load i ≤ v ∧ v ≤ base i
  bounded : ∀ i, Fintype.card ι*s.load i ≤ bound

variable {capacity bound : ℕ} {s t : Machines ι}

theorem fair_start (fits : s.total ≤ capacity) (fresh : ∀ i, s.seen i = none) (bounded : ∀ i, Fintype.card ι*s.load i ≤ bound) :
    Fair capacity bound s := by
  refine ⟨⟨s.load,fits,fun i => le_refl _,fun i v seen => ?_⟩,bounded⟩
  rw [fresh i] at seen
  cases seen

-- A seen load that is within the slack of all is at most that over their average.
theorem near_average {seen : ι → ℕ} {least : ℕ} (near : ∀ j, least ≤ seen j+slack) :
    Fintype.card ι*least ≤ ∑ j, seen j+Fintype.card ι*slack := by
  have each := Finset.card_nsmul_le_sum Finset.univ (fun j => seen j+slack) least fun j _ => near j
  rw [Finset.sum_add_distrib,Finset.sum_const] at each
  simpa using each

-- While the machines together never carry more than the capacity, none of them gets
-- more than slack and weight above the average of that.
theorem Step.fair [DecidableEq ι] (step : Step slack weight s t) (fair : Fair capacity bound s) (fits : t.total ≤ capacity)
    (room : capacity+Fintype.card ι*(slack+weight) ≤ bound) : Fair capacity bound t := by
  obtain ⟨⟨base,whole,below,between⟩,bounded⟩ := fair
  cases step with
  | ease less =>
    refine ⟨⟨base,whole,fun i => (less i).trans (below i),fun i v seen => ?_⟩,fun i => (Nat.mul_le_mul_left _ (less i)).trans (bounded i)⟩
    exact ⟨(less i).trans (between i v seen).1,(between i v seen).2⟩
  | look k =>
    refine ⟨⟨base,whole,below,fun i v seen => ?_⟩,bounded⟩
    by_cases same : i = k
    · subst same
      simp only [Function.update_self,Option.some.injEq] at seen
      exact ⟨seen.le,seen ▸ below i⟩
    · simp only [Function.update_of_ne same] at seen
      exact between i v seen
  | forget =>
    exact ⟨⟨base,whole,below,fun i v seen => by cases seen⟩,bounded⟩
  | @place k least load chosen near grown others =>
    refine fair_start fits (fun _ => rfl) fun i => ?_
    by_cases same : i = k
    · subst same
      choose value seen close using near
      have average := near_average close
      have before : ∑ j, value j ≤ capacity := (Finset.sum_le_sum fun j _ => (between j (value j) (seen j)).2).trans whole
      have placed : load i ≤ least+weight := grown.trans (Nat.add_le_add_right (between i least chosen).1 weight)
      calc Fintype.card ι*load i ≤ Fintype.card ι*(least+weight) := Nat.mul_le_mul_left _ placed
        _ = Fintype.card ι*least+Fintype.card ι*weight := Nat.mul_add _ _ _
        _ ≤ ∑ j, value j+Fintype.card ι*slack+Fintype.card ι*weight := Nat.add_le_add_right average _
        _ ≤ capacity+Fintype.card ι*(slack+weight) := by rw [Nat.mul_add]; omega
        _ ≤ bound := room
    · exact (Nat.mul_le_mul_left _ (others i same)).trans (bounded i)

end Balancing
