import Mathlib.Algebra.Order.Field.Basic
import Mathlib.Tactic.Linarith
import Mathlib.Tactic.LinearCombination
import Mathlib.Tactic.Ring

namespace BlitzRouter.LeastMeanSquares

-- Fitting y = w.1*x+w.2 one sample at a time, each step along the gradient of
-- the squared misfit of its sample.
section Steps
variable {τ : Type} [CommRing τ]

def misfit (w : τ × τ) (x y : τ) : τ := y-(w.1*x+w.2)

def descend (rate : τ) (w : τ × τ) (x y : τ) : τ × τ := (w.1+rate*misfit w x y*x,w.2+rate*misfit w x y)

def apart (w v : τ × τ) : τ := (w.1-v.1)^2+(w.2-v.2)^2

-- What a step leaves of the misfit of its own sample.
def contraction (rate x : τ) : τ := 1-rate*(x^2+1)

theorem misfit_descend (rate : τ) (w : τ × τ) (x y : τ) :
    misfit (descend rate w x y) x y = contraction rate x*misfit w x y := by
  simp only [misfit,descend,contraction]
  ring

theorem apart_descend (rate : τ) (w v : τ × τ) (x : τ) :
    apart (descend rate w x (v.1*x+v.2)) v =
      apart w v-rate*misfit w x (v.1*x+v.2)^2*(1+contraction rate x) := by
  simp only [apart,misfit,descend,contraction]
  ring

end Steps

section Bounds
variable {τ : Type} [Field τ] [LinearOrder τ] [IsStrictOrderedRing τ] {rate x y : τ} {w v : τ × τ}

-- With a small rate, a step towards a law pays for the misfit it has seen.
theorem apart_descend_le (law : y = v.1*x+v.2) (positive : 0 ≤ rate) (small : 0 ≤ contraction rate x) :
    rate*misfit w x y^2+apart (descend rate w x y) v ≤ apart w v := by
  subst law
  rw [apart_descend]
  have paid : 0 ≤ rate*misfit w x (v.1*x+v.2)^2*contraction rate x := mul_nonneg (mul_nonneg positive (sq_nonneg _)) small
  linarith

theorem contraction_mul_le {e threshold : τ} (shrinks : |contraction rate x| ≤ 1) (close : |e| ≤ threshold) :
    |contraction rate x*e| ≤ threshold := by
  rw [abs_mul]
  exact (mul_le_of_le_one_left (abs_nonneg e) shrinks).trans close

end Bounds
end BlitzRouter.LeastMeanSquares
