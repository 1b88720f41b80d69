import BlitzRouter.Balancing
import BlitzRouter.HashTable
import BlitzRouter.PolicyCatalogue
import BlitzRouter.PolicyClusterRuns
import Mathlib.Algebra.BigOperators.Fin

namespace BlitzRouter.Policy
open Radix Balancing

-- What a policy makes of the requests of a replica and of those that wait there.
structure Weights where
  bs : Nat
  waiting : Nat
deriving DecidableEq,Repr

namespace Weights

def load (w : Weights) (bs waiting : Nat) : Nat := w.bs*bs+w.waiting*waiting

def observed {ε : Type} (w : Weights) (o : Observation ε) : Nat := w.load o.bs o.waiting

def carried {β : Type} (w : Weights) (context : ScheduleContext β) : Nat := w.load context.lmetric.bs context.lmetric.waitingReqs

theorem load_mono (w : Weights) {bs bs' waiting waiting' : Nat} (less : bs ≤ bs') (fewer : waiting ≤ waiting') :
    w.load bs waiting ≤ w.load bs' waiting' := Nat.add_le_add (Nat.mul_le_mul_left _ less) (Nat.mul_le_mul_left _ fewer)

end Weights

-- Whatever it sees, a policy chooses a replica whose load is within the slack of
-- the load of every other.
def StaysNear {ε F γ : Type} [Zero F] [Add F] [Sub F] [Mul F] [Max F] [LE F] [DecidableLE F] (policy : PolicyInput ε F γ) (w : Weights)
    (slack : Nat) : Prop :=
  ∀ gctx entry (observations : List (Observation ε)) draw idx o, (∀ i (o : Observation ε), observations[i]? = some o → o.idx = i) →
    (policy.body gctx entry observations).eval draw (rootTarget observations) = .ok (some idx) → observations[idx]? = some o →
    ∀ other ∈ observations, w.observed o ≤ w.observed other+slack

namespace PolicyCluster
variable {β ε F γ : Type} [BlockHash β] [Zero F] [Add F] [Sub F] [Mul F] [Max F] [LE F] [DecidableLE F]
  {flavour : Flavour β ε} {policy : PolicyInput ε F γ} {c c' : PolicyCluster β ε γ} {move : ClusterMove F} {w : Weights} {slack n : Nat}

def total (w : Weights) (c : PolicyCluster β ε γ) : Nat := (c.contexts.map w.carried).sum

def seen (w : Weights) (c : PolicyCluster β ε γ) (idx : Nat) : Option Nat :=
  match c.call with
  | .capturing _ slots => slots[idx]?.join.map w.observed
  | _ => none

-- The replicas as machines that a job is placed on.
def machines (w : Weights) (n : Nat) (c : PolicyCluster β ε γ) : Machines (Fin n) where
  load := fun i => ((c.contexts[i.val]?).map w.carried).getD 0
  seen := fun i => c.seen w i

omit [BlockHash β] in
theorem machines_total (count : c.contexts.length = n) : (c.machines w n).total = c.total w := by
  subst count
  have loads : List.ofFn (c.machines w c.contexts.length).load = c.contexts.map w.carried := by
    refine List.ext_getElem (by simp) fun i _ _ => ?_
    simp [machines]
  rw [Machines.total,← List.sum_ofFn,loads,total]

theorem stepContext_carried {effect : StepEffect} {now : Nat} {context next : ScheduleContext β}
    (result : stepContext flavour effect now context = some next) : w.carried next ≤ w.carried context := by
  obtain ⟨removed,inserted,_,_,rfl⟩ := stepContext_eq result
  exact w.load_mono (Nat.sub_le _ _) (Nat.sub_le _ _)

theorem applied_carried {entry next : Entry} {context applied : ScheduleContext β} {cached : BlitzRouter.Observation}
    (result : applyDefaultAfter entry context cached = .ok (next,applied)) : w.carried applied = w.carried context+(w.bs+w.waiting) := by
  obtain ⟨hits,_,_,counted⟩ := applied_lmetric result
  simp only [Weights.carried,Weights.load,counted,LMetric.addAssign,Nat.mul_add,Nat.mul_one]
  omega

def loadAt (w : Weights) (contexts : List (ScheduleContext β)) (idx : Nat) : Nat := ((contexts[idx]?).map w.carried).getD 0

omit [BlockHash β] in
theorem loadAt_set {contexts : List (ScheduleContext β)} {k : Nat} {context next : ScheduleContext β} (present : contexts[k]? = some context) (idx : Nat) :
    loadAt w (contexts.set k next) idx = if idx = k then w.carried next else loadAt w contexts idx := by
  unfold loadAt
  by_cases here : idx = k
  · subst here
    rw [List.getElem?_set_self (List.getElem?_eq_some_iff.mp present).1,if_pos rfl]
    rfl
  · rw [List.getElem?_set_ne (Ne.symm here),if_neg here]

omit [BlockHash β] in
theorem loadAt_present {contexts : List (ScheduleContext β)} {k : Nat} {context : ScheduleContext β} (present : contexts[k]? = some context) :
    loadAt w contexts k = w.carried context := by
  rw [loadAt,present]
  rfl

-- A context that changes nothing but its matcher.
omit [BlockHash β] in
theorem loadAt_matcher {contexts : List (ScheduleContext β)} {k : Nat} {context : ScheduleContext β} (present : contexts[k]? = some context)
    (blockHash : β) : loadAt w (contexts.set k {context with blockHash := blockHash}) = loadAt w contexts := by
  funext idx
  rw [loadAt_set present]
  split
  · rename_i here
    subst here
    exact (loadAt_present present).symm
  · rfl

-- A move that changes no load and ends what was seen.
omit [BlockHash β] in
theorem machines_forget {weight : Nat} (loads : loadAt w c'.contexts = loadAt w c.contexts) (blind : ∀ idx, c'.seen w idx = none) :
    Balancing.Step slack weight (c.machines w n) (c'.machines w n) := by
  have same : c'.machines w n = {c.machines w n with seen := fun _ => none} :=
    congrArg₂ Machines.mk (funext fun i => congrFun loads i.val) (funext fun i => blind i.val)
  rw [same]
  exact .forget

omit [BlockHash β] in
theorem machines_look {weight k : Nat} (inside : k < n) (loads : loadAt w c'.contexts = loadAt w c.contexts)
    (looks : c'.seen w k = some (loadAt w c.contexts k)) (others : ∀ idx, idx ≠ k → c'.seen w idx = c.seen w idx) :
    Balancing.Step slack weight (c.machines w n) (c'.machines w n) := by
  have same : c'.machines w n =
      {c.machines w n with seen := Function.update (c.machines w n).seen ⟨k,inside⟩ (some ((c.machines w n).load ⟨k,inside⟩))} := by
    refine congrArg₂ Machines.mk (funext fun i => congrFun loads i.val) (funext fun i => ?_)
    by_cases here : i = ⟨k,inside⟩
    · subst here
      rw [Function.update_self]
      exact looks
    · rw [Function.update_of_ne here]
      exact others i.val fun equal => here (Fin.ext equal)
  rw [same]
  exact .look _

-- Each move is one of the machines: a capture looks, a commit places, and a step
-- of a replica only takes requests away.
theorem Moves.machines (moves : Moves flavour policy c move c') (near : StaysNear policy w slack) (watched : Watched (Observed flavour) c)
    (count : c.contexts.length = n) : Balancing.Step slack (w.bs+w.waiting) (c.machines w n) (c'.machines w n) := by
  cases moves with
  | schedule idle =>
    refine machines_forget rfl fun idx => ?_
    simp only [seen,List.getElem?_map]
    cases c.contexts[idx]? <;> rfl
  | @capture entry slots k now context o call present free seen' =>
    have inside : k < n := count ▸ (List.getElem?_eq_some_iff.mp present).1
    have looked : w.observed o = loadAt w c.contexts k := by
      obtain ⟨hits,_,rfl⟩ := observe_eq seen'
      exact (loadAt_present present).symm
    refine machines_look inside (loadAt_matcher present _) ?_ fun idx other => ?_
    · simp only [seen,List.getElem?_set_self (List.getElem?_eq_some_iff.mp free).1]
      exact congrArg some looked
    · simp only [seen,call,List.getElem?_set_ne (Ne.symm other)]
  | decline call => exact machines_forget rfl fun _ => rfl
  | @commit entry next observations draw k cached context applied call chose at_ present result =>
    have inside : k < n := count ▸ (List.getElem?_eq_some_iff.mp present).1
    obtain ⟨same,_⟩ := watched.observations call
    have shown (i : Fin n) (o : Observation ε) (there : observations[i.val]? = some o) : (c.machines w n).seen i = some (w.observed o) := by
      simp [PolicyCluster.machines,seen,call,there]
    have closest := near c.gctx entry observations draw k cached (watched.indexed call) chose at_
    refine .place (i := ⟨k,inside⟩) (shown ⟨k,inside⟩ cached at_) (fun j => ?_) ?_ fun j other => ?_
    · have present_ : j.val < observations.length := by rw [same,count]; exact j.isLt
      refine ⟨_,shown j _ (List.getElem?_eq_getElem present_),closest _ (List.getElem_mem present_)⟩
    · have after : loadAt w (c.contexts.set k applied) k = w.carried applied := by rw [loadAt_set present,if_pos rfl]
      have before : loadAt w c.contexts k = w.carried context := loadAt_present present
      change loadAt w (c.contexts.set k applied) k ≤ loadAt w c.contexts k+(w.bs+w.waiting)
      rw [after,before,applied_carried result]
    · have elsewhere : j.val ≠ k := fun equal => other (Fin.ext equal)
      change loadAt w (c.contexts.set k applied) j ≤ loadAt w c.contexts j
      rw [loadAt_set present,if_neg elsewhere]
  | afterExtra call at_ present extended => exact machines_forget (loadAt_matcher present _) fun _ => rfl
  | @step k now effect context next present result =>
    refine .ease fun i => ?_
    change loadAt w (c.contexts.set k next) i ≤ loadAt w c.contexts i
    rw [loadAt_set present]
    split
    · rename_i here
      rw [here,loadAt_present present]
      exact stepContext_carried result
    · exact le_refl _

theorem observed_start (contexts : List (ScheduleContext β)) (gctx : γ) : Watched (Observed flavour) (start contexts gctx) :=
  watched_free fun _ _ call => by cases call

end PolicyCluster

section Bounds
variable {F γ : Type} [Zero F] [Add F] [Sub F] [Mul F] [Max F] [LE F] [DecidableLE F]

-- From empty counters, and while the replicas together never carry more than the
-- capacity, no replica gets above the average of that by more than the slack and
-- what one request weighs. Steps of the replicas fall anywhere, also between the
-- critical sections of a call.
def Bounded (ε : Type) (policy : PolicyInput ε F γ) (w : Weights) (slack : Nat) : Prop :=
  ∀ (β : Type) [BlockHash β] (flavour : Flavour β ε) (contexts : List (ScheduleContext β)) (gctx : γ) (capacity : Nat) history c,
    (∀ context ∈ contexts, context.lmetric = LMetric.empty) →
    Run (fun s move t => PolicyCluster.Step flavour policy s move t ∧ t.total w ≤ capacity) (.start contexts gctx) history c →
    ∀ context ∈ c.contexts, contexts.length*w.carried context ≤ capacity+contexts.length*(slack+(w.bs+w.waiting))

theorem bounded_of_near {ε : Type} {policy : PolicyInput ε F γ} {w : Weights} {slack : Nat} (near : StaysNear policy w slack) :
    Bounded ε policy w slack := by
  intro β _ flavour contexts gctx capacity history c empty run
  have zero : ∀ idx, PolicyCluster.loadAt w contexts idx = 0 := by
    intro idx
    unfold PolicyCluster.loadAt
    cases present : contexts[idx]? with
    | none => rfl
    | some context =>
      change w.load context.lmetric.bs context.lmetric.waitingReqs = 0
      rw [empty context (List.mem_of_getElem? present)]
      rfl
  have fresh : Fair capacity (capacity+contexts.length*(slack+(w.bs+w.waiting)))
      ((PolicyCluster.start contexts gctx : PolicyCluster β ε γ).machines w contexts.length) := by
    refine fair_start ?_ (fun _ => rfl) fun i => ?_
    · have none_ : ((PolicyCluster.start contexts gctx : PolicyCluster β ε γ).machines w contexts.length).total = 0 :=
        Finset.sum_eq_zero fun i _ => zero i
      rw [none_]
      exact Nat.zero_le _
    · rw [show ((PolicyCluster.start contexts gctx : PolicyCluster β ε γ).machines w contexts.length).load i = 0 from zero i]
      exact Nat.zero_le _
  have kept : PolicyCluster.Watched (PolicyCluster.Observed flavour) c ∧ c.contexts.length = contexts.length ∧
      Fair capacity (capacity+contexts.length*(slack+(w.bs+w.waiting))) (c.machines w contexts.length) := by
    refine run.invariant (I := fun _ c => PolicyCluster.Watched (PolicyCluster.Observed flavour) c ∧ c.contexts.length = contexts.length ∧
      Fair capacity (capacity+contexts.length*(slack+(w.bs+w.waiting))) (c.machines w contexts.length))
      ⟨PolicyCluster.observed_start contexts gctx,rfl,fresh⟩ ?_
    intro _ s move t held taken
    obtain ⟨watched,count,fair⟩ := held
    have moves := PolicyCluster.step_moves taken.1
    have counted : t.contexts.length = contexts.length := moves.contexts_length.trans count
    refine ⟨moves.observed watched,counted,(moves.machines near watched count).fair fair ?_ ?_⟩
    · rw [PolicyCluster.machines_total counted]
      exact taken.2
    · rw [Fintype.card_fin]
  obtain ⟨_,count,fair⟩ := kept
  intro context member
  obtain ⟨i,inside,rfl⟩ := List.getElem_of_mem member
  have bounded := fair.bounded ⟨i,count ▸ inside⟩
  rw [Fintype.card_fin] at bounded
  have load : (c.machines w contexts.length).load ⟨i,count ▸ inside⟩ = w.carried c.contexts[i] :=
    PolicyCluster.loadAt_present (List.getElem?_eq_getElem inside)
  rwa [load] at bounded

theorem minBy_chosen {ε σ : Type} [LinearOrder σ] {score : Observation ε → σ} {observations : List (Observation ε)} {draw : F} {idx : Nat}
    {o : Observation ε} (indexed : ∀ i (o : Observation ε), observations[i]? = some o → o.idx = i)
    (chose : (Expr.select (.minBy score) : Expr ε F).eval draw (rootTarget observations) = .ok (some idx)) (at_ : observations[idx]? = some o) :
    ∀ other ∈ observations, score o ≤ score other := by
  obtain ⟨i,best,_,_,_,result,there,path,_,chosen⟩ := eval_chooses (Expr.select (.minBy score)) draw
    (List.ne_nil_of_mem (List.mem_of_getElem? at_)) indexed
  cases path
  obtain rfl : i = idx := by simpa [result] using chose
  cases at_.symm.trans there
  exact chosen.2

variable (ε : Type) (F)

theorem leastBsQ_near : StaysNear (leastBsQ ε F) ⟨1,0⟩ 0 := by
  intro gctx entry observations draw idx o indexed chose at_ other member
  have least := minBy_chosen indexed chose at_ other member
  simpa [Weights.observed,Weights.load] using least

theorem leastWaitingQ_near : StaysNear (leastWaitingQ ε F) ⟨0,1⟩ 0 := by
  intro gctx entry observations draw idx o indexed chose at_ other member
  have least := minBy_chosen indexed chose at_ other member
  simpa [Weights.observed,Weights.load] using least

theorem jShortestWeightQ_near : StaysNear (jShortestWeightQ ε F) ⟨1,4⟩ 0 := by
  intro gctx entry observations draw idx o indexed chose at_ other member
  have least := minBy_chosen indexed chose at_ other member
  simp only [Weights.observed,Weights.load]
  omega

-- The three policies that take the least loaded replica, each for its own load.
theorem least_loaded_bounded : Bounded ε (leastBsQ ε F) ⟨1,0⟩ 0 ∧ Bounded ε (leastWaitingQ ε F) ⟨0,1⟩ 0 ∧
    Bounded ε (jShortestWeightQ ε F) ⟨1,4⟩ 0 :=
  ⟨bounded_of_near (leastBsQ_near F ε),bounded_of_near (leastWaitingQ_near F ε),bounded_of_near (jShortestWeightQ_near F ε)⟩

end Bounds

def twoReplicas : List (ScheduleContext HashTableBlockHash) := List.replicate 2 ⟨LMetric.empty,HashTableBlockHash.new 4⟩

-- Three calls over two replicas; the first replica finishes its request meanwhile.
def threeCalls : List (ClusterMove ℚ) :=
  let call := [.schedule promptEntry,.capture 1 0,.capture 0 0,.apply 0,.afterExtra 0]
  call++[.step 0 ⟨[],[],⟨1,1,3,-3⟩⟩ 0]++call++call

theorem least_loaded_bounded_three : ∃ c : PolicyCluster HashTableBlockHash Unit Unit,
    Run (fun s move t => PolicyCluster.Step (.plain _) (leastBsQ Unit ℚ) s move t ∧ t.total ⟨1,0⟩ ≤ 2) (.start twoReplicas ()) threeCalls c ∧
    c.commits = [0,0,1] ∧ ∀ context ∈ c.contexts, 2*Weights.carried ⟨1,0⟩ context ≤ 2+2*(0+1) := by
  have executed : (PolicyCluster.executeKeeping (.plain HashTableBlockHash) (leastBsQ Unit ℚ) (fun t => t.total ⟨1,0⟩ ≤ 2) (.start twoReplicas ())
      threeCalls).map (·.commits) = some [0,0,1] := by decide +kernel
  obtain ⟨c,result,commits⟩ := Option.map_eq_some_iff.mp executed
  have run := PolicyCluster.executeKeeping_run result
  exact ⟨c,run,commits,(least_loaded_bounded ℚ Unit).1 _ (.plain HashTableBlockHash) twoReplicas () 2 threeCalls c (by decide) run⟩

end BlitzRouter.Policy
