import BlitzRouter.Extremes
import BlitzRouter.PolicyPrediction
import Mathlib.Algebra.Group.Defs

namespace BlitzRouter.Policy
open Radix

-- What the body of a policy sees of one replica. `features` stands for the fields
-- that some builds add; the rest of `apply_default_after` is in the parent.
structure Observation (ε : Type) extends BlitzRouter.Observation where
  idx : Nat
  bs : Nat
  waiting : Nat
  queuedTokens : Int
  allTokens : Nat
  blockSize : Nat
  features : ε
deriving DecidableEq,Repr

inductive SchedulePanic where
  | noWeights
  | observationIndex (idx : Nat)
  | replicaIndex (idx : Nat)
  | inner (panic : Panic)
deriving DecidableEq,Repr

class PartialOrd (σ : Type) where
  partialCmp : σ → σ → Option Ordering

instance {σ : Type} [LinearOrder σ] : PartialOrd σ := ⟨fun a b => some (compare a b)⟩

-- Scores that do not compare count as equal.
def scoreCmp {ε σ : Type} [PartialOrd σ] (score : Observation ε → σ) (a b : Observation ε) : Ordering :=
  (PartialOrd.partialCmp (score a) (score b)).getD .eq

section Pick
variable {F : Type} [Zero F] [Add F] [Sub F] [Mul F] [Max F] [LE F] [DecidableLE F]

-- The loop of `weighted_pick`. It can run through its weights.
def pickFrom : List (Nat × F) → F → Option Nat
  | [],_ => none
  | (idx,w)::weights,r =>
    let w := max w 0
    if r ≤ w then some idx else pickFrom weights (r-w)

-- `draw` is what the random number generator gives.
def weightedPick (weights : List (Nat × F)) (draw : F) : Except SchedulePanic Nat :=
  match weights.head?,weights.getLast? with
  | some first,some last =>
    let total := (weights.map fun pair => max pair.2 0).foldl (·+·) 0
    if total ≤ 0 then .ok first.1 else .ok ((pickFrom weights (draw*total)).getD last.1)
  | _,_ => .error .noWeights

end Pick

section Combinators
variable {ε σ F : Type}

def filterThen (target : List (Observation ε)) (pred : Observation ε → Bool)
    (onPass onFail : List (Observation ε) → Except SchedulePanic (Option Nat)) : Except SchedulePanic (Option Nat) :=
  match target.partition pred with
  | (passing,rejected) => if passing.isEmpty then onFail rejected else onPass passing

def selectMinBy [PartialOrd σ] (target : List (Observation ε)) (score : Observation ε → σ) : Option Nat :=
  (Extremes.minBy (scoreCmp score) target).map Observation.idx

def selectMaxBy [PartialOrd σ] (target : List (Observation ε)) (score : Observation ε → σ) : Option Nat :=
  (Extremes.maxBy (scoreCmp score) target).map Observation.idx

def selectRandBy [Zero F] [Add F] [Sub F] [Mul F] [Max F] [LE F] [DecidableLE F] (draw : F) (target : List (Observation ε))
    (score : Observation ε → F) : Except SchedulePanic (Option Nat) :=
  if target.isEmpty then .ok none else (weightedPick (target.map fun o => (o.idx,score o)) draw).map some

def rootTarget (observations : List (Observation ε)) : List (Observation ε) := observations

end Combinators

-- The expressions of a policy. A branch of a filter is a closure over its
-- candidates, which its own predicates and scores may use.
inductive Selection (ε F : Type) : Type 1 where
  | minBy {σ : Type} [LinearOrder σ] (score : Observation ε → σ)
  | maxBy {σ : Type} [LinearOrder σ] (score : Observation ε → σ)
  | randBy (score : Observation ε → F)

inductive Expr (ε F : Type) : Type 1 where
  | filterThen (pred : Observation ε → Bool) (onPass onFail : List (Observation ε) → Expr ε F)
  | select (selection : Selection ε F)

section Eval
variable {ε F : Type} [Zero F] [Add F] [Sub F] [Mul F] [Max F] [LE F] [DecidableLE F]

-- An evaluation ends in one selection, so that it draws at most once.
def Selection.eval (draw : F) : Selection ε F → List (Observation ε) → Except SchedulePanic (Option Nat)
  | @minBy _ _ _ _ score,target => .ok (selectMinBy target score)
  | @maxBy _ _ _ _ score,target => .ok (selectMaxBy target score)
  | .randBy score,target => selectRandBy draw target score

def Expr.eval (draw : F) : Expr ε F → List (Observation ε) → Except SchedulePanic (Option Nat)
  | .filterThen pred onPass onFail,target =>
    Policy.filterThen target pred (fun t => (onPass t).eval draw t) (fun t => (onFail t).eval draw t)
  | .select selection,target => selection.eval draw target

end Eval

-- The schema's reading of an expression: the way that candidates take through it,
-- with the predicates they had to pass, the selection at its end and what is left.
inductive Path {ε F : Type} : Expr ε F → List (Observation ε) → List (Observation ε → Bool) → Selection ε F → List (Observation ε) → Prop where
  | pass {pred onPass onFail target preds selection reached} (some : ∃ o ∈ target, pred o = true)
      (rest : Path (onPass (target.filter pred)) (target.filter pred) preds selection reached) :
      Path (.filterThen pred onPass onFail) target (pred::preds) selection reached
  | fail {pred onPass onFail target preds selection reached} (none : ∀ o ∈ target, pred o = false)
      (rest : Path (onFail target) target preds selection reached) :
      Path (.filterThen pred onPass onFail) target preds selection reached
  | select {selection target} : Path (.select selection) target [] selection target

-- What a selection may return of the candidates that it gets.
def Selection.Best {ε F : Type} (target : List (Observation ε)) (o : Observation ε) (selection : Selection ε F) : Prop :=
  o ∈ target ∧ match selection with
    | @minBy _ _ _ _ score => ∀ c ∈ target, score o ≤ score c
    | @maxBy _ _ _ _ score => ∀ c ∈ target, score c ≤ score o
    | .randBy _ => True

section Lossless
variable {ε F : Type} {e : Expr ε F} {selection : Selection ε F} {target reached : List (Observation ε)}
  {preds : List (Observation ε → Bool)} {o : Observation ε}

-- The candidates that reach a selection are those that pass every filter on the way.
theorem Path.reached_eq (path : Path e target preds selection reached) : reached = target.filter fun o => preds.all fun pred => pred o := by
  induction path with
  | @pass pred _ _ target preds _ reached _ _ ih =>
    rw [ih,List.filter_filter]
    refine List.filter_congr fun o _ => ?_
    rw [List.all_cons,Bool.and_comm]
  | fail none rest ih => exact ih
  | select => simp

theorem Path.unique {preds' : List (Observation ε → Bool)} {selection' : Selection ε F} {reached' : List (Observation ε)}
    (path : Path e target preds selection reached) (other : Path e target preds' selection' reached') :
    preds' = preds ∧ selection' = selection ∧ reached' = reached := by
  induction path generalizing preds' with
  | pass some rest ih =>
    cases other with
    | pass _ rest' =>
      obtain ⟨rfl,same⟩ := ih rest'
      exact ⟨rfl,same⟩
    | fail none _ =>
      obtain ⟨o,member,passes⟩ := some
      rw [none o member] at passes
      cases passes
  | fail none rest ih =>
    cases other with
    | pass some _ =>
      obtain ⟨o,member,passes⟩ := some
      rw [none o member] at passes
      cases passes
    | fail _ rest' => exact ih rest'
  | select =>
    cases other
    exact ⟨rfl,rfl,rfl⟩

-- One combinator: the branch of the path is taken, and still has candidates.
theorem filterThen_pass {pred : Observation ε → Bool} (onPass onFail : List (Observation ε) → Except SchedulePanic (Option Nat))
    (passes : ∃ o ∈ target, pred o = true) : filterThen target pred onPass onFail = onPass (target.filter pred) ∧ target.filter pred ≠ [] := by
  obtain ⟨o,member,passed⟩ := passes
  have filled : target.filter pred ≠ [] := List.ne_nil_of_mem (List.mem_filter.mpr ⟨member,passed⟩)
  refine ⟨?_,filled⟩
  simp only [filterThen,List.partition_eq_filter_filter,List.isEmpty_eq_false_iff.mpr filled,Bool.false_eq_true,if_false]

theorem filterThen_fail {pred : Observation ε → Bool} {onPass onFail : List (Observation ε) → Except SchedulePanic (Option Nat)}
    (fails : ∀ o ∈ target, pred o = false) : filterThen target pred onPass onFail = onFail target := by
  have empty : target.filter pred = [] := List.filter_eq_nil_iff.mpr fun o member => by simp [fails o member]
  have whole : target.filter (not ∘ pred) = target := List.filter_eq_self.mpr fun o member => by simp [fails o member]
  simp only [filterThen,List.partition_eq_filter_filter,empty,whole,List.isEmpty_nil,if_true]

variable [Zero F] [Sub F] [Max F] [LE F] [DecidableLE F]

theorem pickFrom_mem {weights : List (Nat × F)} {r : F} {idx : Nat} (picked : pickFrom weights r = some idx) : idx ∈ weights.map Prod.fst := by
  induction weights generalizing r with
  | nil => cases picked
  | cons pair weights ih =>
    obtain ⟨i,w⟩ := pair
    simp only [pickFrom] at picked
    split at picked
    · cases picked
      exact List.mem_cons_self
    · exact List.mem_cons_of_mem _ (ih picked)

variable [Add F] [Mul F]

-- Whatever the arithmetic does, a pick is one of the indices.
theorem weightedPick_mem {weights : List (Nat × F)} (filled : weights ≠ []) (draw : F) :
    ∃ idx, weightedPick weights draw = .ok idx ∧ idx ∈ weights.map Prod.fst := by
  unfold weightedPick
  rw [List.head?_eq_some_head filled,List.getLast?_eq_some_getLast filled]
  simp only
  split
  · exact ⟨_,rfl,List.mem_map_of_mem (List.head_mem filled)⟩
  · cases picked : pickFrom weights (draw*(weights.map fun pair => max pair.2 0).foldl (·+·) 0) with
    | none => exact ⟨_,rfl,List.mem_map_of_mem (List.getLast_mem filled)⟩
    | some idx => exact ⟨idx,rfl,pickFrom_mem picked⟩

theorem Selection.eval_best (selection : Selection ε F) (draw : F) (filled : target ≠ []) :
    ∃ o, selection.eval draw target = .ok (some o.idx) ∧ selection.Best target o := by
  cases selection with
  | minBy score =>
    obtain ⟨o,kept⟩ := Extremes.reduce_isSome _ filled
    have least : Extremes.minBy (scoreCmp score) target = some o := kept
    exact ⟨o,by simp only [Selection.eval,selectMinBy,least,Option.map_some],Extremes.minBy_mem least,Extremes.minBy_least least⟩
  | maxBy score =>
    obtain ⟨o,kept⟩ := Extremes.reduce_isSome _ filled
    have greatest : Extremes.maxBy (scoreCmp score) target = some o := kept
    exact ⟨o,by simp only [Selection.eval,selectMaxBy,greatest,Option.map_some],Extremes.maxBy_mem greatest,Extremes.maxBy_greatest greatest⟩
  | randBy score =>
    have weighted : (target.map fun o => (o.idx,score o)) ≠ [] := by simpa using filled
    obtain ⟨idx,picked,member⟩ := weightedPick_mem weighted draw
    obtain ⟨o,inside,rfl⟩ : ∃ o ∈ target, o.idx = idx := by simpa using member
    refine ⟨o,?_,inside,trivial⟩
    simp only [Selection.eval,selectRandBy,picked,List.isEmpty_eq_false_iff.mpr filled]
    rfl

theorem eval_path (e : Expr ε F) (draw : F) (filled : target ≠ []) : ∃ preds selection reached o,
    Path e target preds selection reached ∧ e.eval draw target = .ok (some o.idx) ∧ selection.Best reached o := by
  induction e generalizing target with
  | filterThen pred onPass onFail pass fail =>
    by_cases passes : ∃ o ∈ target, pred o = true
    · obtain ⟨taken,filled⟩ := filterThen_pass (fun t => (onPass t).eval draw t) (fun t => (onFail t).eval draw t) passes
      obtain ⟨preds,selection,reached,o,path,result,best⟩ := pass (target.filter pred) filled
      exact ⟨pred::preds,selection,reached,o,.pass passes path,taken.trans result,best⟩
    · have fails : ∀ o ∈ target, pred o = false := by simpa using passes
      obtain ⟨preds,selection,reached,o,path,result,best⟩ := fail target filled
      exact ⟨preds,selection,reached,o,.fail fails path,(filterThen_fail fails).trans result,best⟩
  | select selection =>
    obtain ⟨o,result,best⟩ := selection.eval_best draw filled
    exact ⟨[],selection,target,o,.select,result,best⟩

end Lossless

end BlitzRouter.Policy
