import BlitzRouter.PolicyBalance
import Mathlib.Data.Rat.Sqrt
import Mathlib.Tactic.Linarith
import Mathlib.Tactic.Positivity

namespace BlitzRouter.Policy
open Radix
variable {ε F : Type}

-- A filter that some candidate passes goes on with those that do.
theorem Path.of_pass {pred : Observation ε → Bool} {onPass onFail : List (Observation ε) → Expr ε F} {target reached : List (Observation ε)}
    {preds : List (Observation ε → Bool)} {selection : Selection ε F} (path : Path (.filterThen pred onPass onFail) target preds selection reached)
    (passes : ∃ o ∈ target, pred o = true) :
    ∃ others, Path (onPass (target.filter pred)) (target.filter pred) others selection reached := by
  cases path with
  | pass some rest => exact ⟨_,rest⟩
  | fail none rest =>
    obtain ⟨o,member,passed⟩ := passes
    rw [none o member] at passed
    cases passed

theorem Path.of_fail {pred : Observation ε → Bool} {onPass onFail : List (Observation ε) → Expr ε F} {target reached : List (Observation ε)}
    {preds : List (Observation ε → Bool)} {selection : Selection ε F} (path : Path (.filterThen pred onPass onFail) target preds selection reached)
    (fails : ∀ o ∈ target, pred o = false) : Path (onFail target) target preds selection reached := by
  cases path with
  | pass some rest =>
    obtain ⟨o,member,passed⟩ := some
    rw [fails o member] at passed
    cases passed
  | fail none rest => exact rest

section Reducers
variable {observations : List (Observation ε)} (proj : Observation ε → Nat)

theorem minOfUsize_le {o : Observation ε} (member : o ∈ observations) : minOfUsize observations proj ≤ proj o := by
  unfold minOfUsize
  cases least : (observations.map proj).min? with
  | none => exact Nat.zero_le _
  | some value => exact (List.min?_eq_some_iff.mp least).2 _ (List.mem_map_of_mem member)

theorem minOfUsize_attained (filled : observations ≠ []) : ∃ o ∈ observations, proj o = minOfUsize observations proj := by
  unfold minOfUsize
  cases least : (observations.map proj).min? with
  | none => exact absurd (List.map_eq_nil_iff.mp (List.min?_eq_none_iff.mp least)) filled
  | some value => exact List.mem_map.mp (List.min?_eq_some_iff.mp least).1

theorem le_maxOfUsize {o : Observation ε} (member : o ∈ observations) : proj o ≤ maxOfUsize observations proj := by
  unfold maxOfUsize
  cases most : (observations.map proj).max? with
  | none => exact absurd (List.map_eq_nil_iff.mp (List.max?_eq_none_iff.mp most)) (List.ne_nil_of_mem member)
  | some value => exact (List.max?_eq_some_iff.mp most).2 _ (List.mem_map_of_mem member)

-- A mean is not below the least of its values.
theorem minOfUsize_le_mean (filled : observations ≠ []) : (minOfUsize observations proj : ℚ) ≤ meanOfUsize observations proj := by
  have positive : (0 : ℚ) < observations.length := by exact_mod_cast List.length_pos_iff.mpr filled
  rw [meanOfUsize,if_neg (by simpa using filled),le_div_iff₀ positive]
  have each := List.card_nsmul_le_sum (observations.map fun o => (proj o : ℚ)) (minOfUsize observations proj : ℚ) fun value member => by
    obtain ⟨o,inside,rfl⟩ := List.mem_map.mp member
    exact_mod_cast minOfUsize_le proj inside
  rw [List.length_map,nsmul_eq_mul,mul_comm] at each
  exact each

-- The replicas that the outer filter leaves: the least busy ones where the gap is
-- large, and all of them where it is not.
def aibrixCandidates (observations : List (Observation ε)) : List (Observation ε) :=
  if aibrixImbalanceAbsCount < maxOfUsize observations (fun o => o.bs)-minOfUsize observations (fun o => o.bs) then
    observations.filter fun o => o.bs = minOfUsize observations fun o => o.bs
  else observations

theorem aibrixCandidates_least (filled : observations ≠ []) :
    ∃ o ∈ aibrixCandidates observations, o.bs = minOfUsize observations fun o => o.bs := by
  obtain ⟨o,member,least⟩ := minOfUsize_attained (fun o => o.bs) filled
  refine ⟨o,?_,least⟩
  unfold aibrixCandidates
  split
  · exact List.mem_filter.mpr ⟨member,by simpa using least⟩
  · exact member

theorem aibrixCandidates_near {o other : Observation ε} (member : o ∈ aibrixCandidates observations)
    (seen : other ∈ observations) : o.bs ≤ other.bs+aibrixImbalanceAbsCount := by
  have low := minOfUsize_le (fun o => o.bs) seen
  unfold aibrixCandidates at member
  split at member
  · have least : o.bs = minOfUsize observations fun o => o.bs := by simpa using (List.mem_filter.mp member).2
    omega
  · rename_i close
    have high := le_maxOfUsize (fun o => o.bs) member
    omega

end Reducers

section Aibrix
variable [Zero F] [Add F] [Sub F] [Mul F] [Max F] [LE F] [DecidableLE F] {observations : List (Observation ε)} {sqrt : ℚ → ℚ} (rooted : ∀ x, 0 ≤ x → 0 ≤ sqrt x)
include rooted

theorem stdOfUsize_nonneg (proj : Observation ε → Nat) : 0 ≤ stdOfUsize sqrt observations proj := by
  unfold stdOfUsize
  split
  · exact le_refl _
  · refine rooted _ (div_nonneg (List.sum_nonneg fun value member => ?_) (Nat.cast_nonneg _))
    obtain ⟨o,_,rfl⟩ := List.mem_map.mp member
    exact mul_self_nonneg _

theorem min_le_aibrixTau (filled : observations ≠ []) : (minOfUsize observations (fun o => o.bs) : ℚ) ≤ aibrixTau ε sqrt observations := by
  have spread : (0 : ℚ) ≤ stdOfUsize sqrt observations fun o => o.bs := stdOfUsize_nonneg rooted fun o => o.bs
  have mean := minOfUsize_le_mean (fun o => o.bs) filled
  rw [aibrixTau,aibrixStddevFactor,one_mul]
  linarith

-- The inner filter always passes some candidate, since no mean is below all of its
-- values: the selection of a maximum is never evaluated.
theorem aibrixQ_chosen (draw : F) (gctx : Unit) (entry : Entry) {idx : Nat} {o : Observation ε}
    (indexed : ∀ i (o : Observation ε), observations[i]? = some o → o.idx = i)
    (chose : ((aibrixQ ε F sqrt).body gctx entry observations).eval draw (rootTarget observations) = .ok (some idx))
    (at_ : observations[idx]? = some o) :
    o ∈ aibrixCandidates observations ∧ (o.bs : ℚ) ≤ aibrixTau ε sqrt observations ∧
      ∀ other ∈ aibrixCandidates observations, (other.bs : ℚ) ≤ aibrixTau ε sqrt observations →
        toLex (-hitPct entry.request o,o.bs) ≤ toLex (-hitPct entry.request other,other.bs) := by
  have filled : observations ≠ [] := List.ne_nil_of_mem (List.mem_of_getElem? at_)
  obtain ⟨i,chosen,preds,selection,reached,result,there,path,_,best⟩ := eval_chooses ((aibrixQ ε F sqrt).body gctx entry observations) draw filled indexed
  obtain rfl : i = idx := by simpa [result] using chose
  cases at_.symm.trans there
  have inner : ∃ others, Path (aibrixInner ε F sqrt entry observations) (aibrixCandidates observations) others selection reached := by
    obtain ⟨least,member,low⟩ := minOfUsize_attained (fun o => o.bs) filled
    unfold aibrixCandidates
    split
    · rename_i far
      obtain ⟨others,rest⟩ := path.of_pass ⟨least,member,by simp [low,far]⟩
      have same : (observations.filter fun o => decide (o.bs = minOfUsize observations fun o => o.bs) &&
          decide (aibrixImbalanceAbsCount < maxOfUsize observations (fun o => o.bs)-minOfUsize observations fun o => o.bs)) =
          observations.filter fun o => o.bs = minOfUsize observations fun o => o.bs :=
        List.filter_congr fun o _ => by simp [far]
      exact ⟨others,same ▸ rest⟩
    · rename_i close
      exact ⟨preds,path.of_fail fun o _ => by simp [close]⟩
  obtain ⟨others,inside⟩ := inner
  obtain ⟨least,member,low⟩ := aibrixCandidates_least filled
  have tau := min_le_aibrixTau rooted filled
  obtain ⟨rest,last⟩ := inside.of_pass ⟨least,member,by rw [low]; simpa using tau⟩
  cases last
  obtain ⟨passed,first⟩ := best
  obtain ⟨candidate,below⟩ := List.mem_filter.mp passed
  refine ⟨candidate,by simpa using below,fun other inCandidates fits => first other (List.mem_filter.mpr ⟨inCandidates,by simpa using fits⟩)⟩

theorem aibrixQ_near : StaysNear (aibrixQ ε F sqrt) ⟨1,0⟩ aibrixImbalanceAbsCount := by
  intro gctx entry observations draw idx o indexed chose at_ other member
  have near := aibrixCandidates_near (aibrixQ_chosen rooted draw gctx entry indexed chose at_).1 member
  simpa [Weights.observed,Weights.load] using near

-- A rooted deviation is all that is needed of the square root. The replica it
-- takes is within eight requests of every other.
theorem aibrix_bounded : Bounded ε (aibrixQ ε F sqrt) ⟨1,0⟩ aibrixImbalanceAbsCount ∧
    ∀ (draw : F) gctx entry (observations : List (Observation ε)) idx o, (∀ i (o : Observation ε), observations[i]? = some o → o.idx = i) →
      ((aibrixQ ε F sqrt).body gctx entry observations).eval draw (rootTarget observations) = .ok (some idx) → observations[idx]? = some o →
      o ∈ aibrixCandidates observations ∧ (o.bs : ℚ) ≤ aibrixTau ε sqrt observations ∧
        ∀ other ∈ aibrixCandidates observations, (other.bs : ℚ) ≤ aibrixTau ε sqrt observations →
          toLex (-hitPct entry.request o,o.bs) ≤ toLex (-hitPct entry.request other,other.bs) :=
  ⟨bounded_of_near (aibrixQ_near rooted),fun draw gctx entry _ _ _ indexed chose at_ => aibrixQ_chosen rooted draw gctx entry indexed chose at_⟩

end Aibrix

-- Ten requests on one replica, none on the next, five on the last: the deviation is
-- five, the gap is large, and the idle replica is taken.
def lopsided : List (Observation Unit) := [⟨⟨0,0⟩,0,10,0,0,0,16,()⟩,⟨⟨0,0⟩,1,0,0,0,0,16,()⟩,⟨⟨0,0⟩,2,5,0,0,0,16,()⟩]

theorem aibrix_bounded_lopsided : Bounded Unit (aibrixQ Unit ℚ Rat.sqrt) ⟨1,0⟩ aibrixImbalanceAbsCount ∧
    ((aibrixQ Unit ℚ Rat.sqrt).body () promptEntry lopsided).eval 0 (rootTarget lopsided) = .ok (some 1) ∧
      (⟨⟨0,0⟩,1,0,0,0,0,16,()⟩ : Observation Unit) ∈ aibrixCandidates lopsided := by
  have rooted : ∀ x : ℚ, 0 ≤ x → 0 ≤ Rat.sqrt x := fun x _ => Rat.sqrt_nonneg x
  have chose : ((aibrixQ Unit ℚ Rat.sqrt).body () promptEntry lopsided).eval 0 (rootTarget lopsided) = .ok (some 1) := by decide +kernel
  refine ⟨(aibrix_bounded (F := ℚ) rooted).1,chose,((aibrix_bounded rooted).2 0 () promptEntry lopsided 1 _ (fun i o at_ => ?_) chose rfl).1⟩
  rcases i with _ | _ | _ | i
  · cases at_; rfl
  · cases at_; rfl
  · cases at_; rfl
  · cases at_

end BlitzRouter.Policy
