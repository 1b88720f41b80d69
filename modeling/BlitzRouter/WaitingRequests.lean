import BlitzRouter.Audit

namespace BlitzRouter
open Radix CompletionLoop

namespace Replica
variable {β : Type} {r r' : Replica β}

theorem linear_waiting : Linear fun d => (d.waitingReqsDec : Int) := by
  intro a o d
  unfold Account.charge LMetricDec.new
  split <;> simp

-- PREFILL outputs for requests the loop knows.
def prefills (s : CompletionLoop) (m : EngineStepOutput) : List RequestStepOutput :=
  m.outputs.filter fun o => o.state = .prefill && (s.find o.requestId).isSome

theorem sum_waiting (s : CompletionLoop) (m : EngineStepOutput) :
    (m.outputs.map (driftOf (fun _ => 0) (fun d => (d.waitingReqsDec : Int)) s)).sum = (prefills s m).length := by
  unfold prefills
  induction m.outputs with
  | nil => rfl
  | cons o rest ih =>
    rw [List.map_cons,List.sum_cons,ih,List.filter_cons]
    cases found : s.find o.requestId with
    | none => simp [driftOf,found]
    | some entry =>
      cases ends : o.isFinished <;> cases state : o.state <;>
        simp [driftOf,found,ends,drift,Account.charge,state,LMetricDec.new,add_comm]

-- What the code subtracts from the waiting count in an action.
def waitingSubtracted (ext : External) (r : Replica β) : Action → Nat
  | .meter =>
    match r.stage with
    | .received m =>
      match r.loop.fastPath ext m with
      | .ok (_,d) => d.waitingReqsDec
      | .error _ => 0
    | _ => 0
  | _ => 0

end Replica

namespace Audit
open Replica
variable {β : Type} {ext : External} {blockSize : Nat} {x x' : Audit β} {a : Action} {history : List Action}

-- Outputs that are the first their request gets.
def firsts (x : Audit β) (m : EngineStepOutput) : List RequestStepOutput :=
  m.outputs.filter fun o => x.waiting.contains o.requestId

-- In this step as many requests get a PREFILL output as get their first output.
def OnePrefillEach (x : Audit β) (a : Action) : Prop :=
  a = .meter → ∀ m, x.replica.stage = .received m → (prefills x.replica.loop m).length = (x.firsts m).length

-- The count is the number of requests without an output, reached without underflow.
structure CountsWaiting (ext : External) (x : Audit β) (a : Action) (x' : Audit β) : Prop where
  room : waitingSubtracted ext x.replica a ≤ x.replica.context.lmetric.waitingReqs
  count : x'.replica.context.lmetric.waitingReqs = x'.waiting.length

-- Removing the named requests from the waiting ones, each named at most once.
theorem length_waiting {waiting : List RequestId} {outputs : List RequestStepOutput} (once : waiting.Nodup)
    (distinct : (outputs.map RequestStepOutput.requestId).Nodup) :
    (waiting.filter fun id => !(outputs.map RequestStepOutput.requestId).contains id).length+
      (outputs.filter fun o => waiting.contains o.requestId).length = waiting.length := by
  have named : (outputs.filter fun o => waiting.contains o.requestId).length =
      (waiting.filter fun id => (outputs.map RequestStepOutput.requestId).contains id).length := by
    have perm : ((outputs.map RequestStepOutput.requestId).filter fun id => waiting.contains id).Perm
        (waiting.filter fun id => (outputs.map RequestStepOutput.requestId).contains id) := by
      apply (List.perm_ext_iff_of_nodup (distinct.filter _) (once.filter _)).mpr
      intro id
      simp only [List.mem_filter,List.contains_iff_mem]
      exact and_comm
    rw [← perm.length_eq,List.filter_map,List.length_map]
    rfl
  rw [named]
  have split := List.length_eq_length_filter_add (l := waiting) fun id => (outputs.map RequestStepOutput.requestId).contains id
  omega

structure Watched (x : Audit β) : Prop where
  placed : Placed x.committed x.replica
  once : x.waiting.Nodup
  inside : ∀ id ∈ x.waiting, id ∈ x.committed

theorem watched_start (context : ScheduleContext β) : Watched (start context) :=
  ⟨placed_start _,List.nodup_nil,fun _ member => by cases member⟩

variable [BlockHash β]

theorem Watched.step (watched : x.Watched) (step : Step ext blockSize x a x') : x'.Watched := by
  refine ⟨placed_step watched.placed step,?_,?_⟩
  · rw [step.history]
    unfold after waitingAfter
    split
    · rename_i request reads cached
      refine List.Nodup.append watched.once (List.nodup_singleton _) ?_
      have fresh : request.requestId ∉ x.committed := step.orderly
      simpa using fun member => fresh (watched.inside _ member)
    · split
      · exact watched.once.filter _
      · exact watched.once
    · exact watched.once
  · rw [step.history]
    intro id member
    unfold after waitingAfter at member
    split at member
    · rcases List.mem_append.mp member with old | new
      · exact List.mem_append_left _ (watched.inside id old)
      · exact List.mem_append_right _ new
    · split at member
      · exact List.mem_append_left _ (watched.inside id (List.mem_filter.mp member).1)
      · exact List.mem_append_left _ (watched.inside id member)
    · exact List.mem_append_left _ (watched.inside id member)

-- Between the fast paths the count follows the commits.
theorem Watched.counts_quiet (watched : x.Watched) (step : Step ext blockSize x a x') (quiet : a ≠ .meter)
    (exact_ : x.replica.context.lmetric.waitingReqs = x.waiting.length) : CountsWaiting ext x a x' := by
  obtain ⟨⟨enabled,result⟩,orderly,history⟩ := step
  rw [history]
  rw [history] at result
  generalize x'.replica = r' at result
  simp only [after] at result
  cases a with
  | commit request reads cached =>
    obtain ⟨_,hits,entry,_,_,done⟩ := commit_cases result
    refine ⟨Nat.zero_le _,?_⟩
    rw [after,done.result]
    simp only [waitingAfter,LMetric.addAssign,List.length_append,List.length_singleton,exact_]
  | addRequest => cases result; exact ⟨Nat.zero_le _,exact_⟩
  | send => cases result; exact ⟨Nat.zero_le _,exact_⟩
  | notify id => cases result; exact ⟨Nat.zero_le _,exact_⟩
  | recvStep m => cases result; exact ⟨Nat.zero_le _,exact_⟩
  | meter => exact absurd rfl quiet
  | deliver =>
    obtain ⟨m,stage⟩ := enabled
    obtain ⟨left,_,leave⟩ := watched.placed.left stage result
    refine ⟨Nat.zero_le _,?_⟩
    have same : r'.context.lmetric.waitingReqs = x.replica.context.lmetric.waitingReqs := by
      rw [leave.lmetric,LeaveDec.apply]
      split <;> rfl
    exact same.trans exact_

-- The fast path subtracts the PREFILL outputs, while the first outputs leave the
-- waiting requests; the two agree exactly when the counter stays exact.
theorem Watched.counts (watched : x.Watched) (step : Step ext blockSize x a x')
    (exact_ : x.replica.context.lmetric.waitingReqs = x.waiting.length) : OnePrefillEach x a ↔ CountsWaiting ext x a x' := by
  by_cases quiet : a ≠ .meter
  · exact ⟨fun _ => watched.counts_quiet step quiet exact_,fun _ same => absurd same quiet⟩
  · obtain rfl := not_not.mp quiet
    obtain ⟨⟨⟨m,stage⟩,result⟩,orderly,history⟩ := step
    obtain ⟨s₁,d,fast,charge⟩ := watched.placed.charged stage result
    have counted := charge.books (fun _ => 0) (fun d => (d.waitingReqsDec : Int)) linear_waiting
    have start : ((startDelta m).waitingReqsDec : Int) = 0 := rfl
    rw [sum_waiting,books_zero,books_zero,start] at counted
    have dec : waitingSubtracted ext x.replica .meter = d.waitingReqsDec := by simp only [waitingSubtracted,stage,fast]
    have metric : x'.replica.context.lmetric.waitingReqs = x.replica.context.lmetric.waitingReqs-d.waitingReqsDec := by
      rw [charge.lmetric]; rfl
    have left := length_waiting watched.once (watched.placed.orderly m (by rw [stage]; rfl))
    have remaining : x'.waiting =
        x.waiting.filter fun id => !(m.outputs.map RequestStepOutput.requestId).contains id := by
      rw [history]; simp only [after,waitingAfter,stage]
    rw [← remaining] at left
    have same : (x.firsts m).length = (m.outputs.filter fun o => x.waiting.contains o.requestId).length := rfl
    constructor
    · intro even
      have agree := even rfl m stage
      refine ⟨?_,?_⟩
      · rw [dec]; omega
      · rw [metric]; omega
    · intro counts _ m' stage'
      rw [stage] at stage'
      cases stage'
      have room := counts.room
      have count := counts.count
      rw [dec] at room
      rw [metric] at count
      omega

theorem watched_run {context : ScheduleContext β} (run : Run (Step ext blockSize) (start context) history x) : Watched x :=
  run.invariant (I := fun _ x => Watched x) (watched_start context) fun _ _ _ _ watched step => watched.step step

-- In every run the count stays exact in each step if and only if each step has as
-- many PREFILL outputs as requests that get their first output in it.
theorem waiting_exact_iff (blockHash : β) (history : List Action) (x : Audit β) :
    Run (fun x a x' => Step ext blockSize x a x' ∧ OnePrefillEach x a) (start ⟨.empty,blockHash⟩) history x ↔
      Run (fun x a x' => Step ext blockSize x a x' ∧ CountsWaiting ext x a x') (start ⟨.empty,blockHash⟩) history x := by
  have base : (start ⟨.empty,blockHash⟩).replica.context.lmetric.waitingReqs = (start (⟨.empty,blockHash⟩ : ScheduleContext β)).waiting.length := rfl
  constructor
  · intro run
    suffices both : Run (fun x a x' => Step ext blockSize x a x' ∧ CountsWaiting ext x a x') (start ⟨.empty,blockHash⟩) history x ∧
        x.replica.context.lmetric.waitingReqs = x.waiting.length from both.1
    induction run with
    | start => exact ⟨.start,base⟩
    | next _ taken ih =>
      have watched := watched_run (ih.1.weaken fun _ _ _ step => step.1)
      have counts := (watched.counts taken.1 ih.2).mp taken.2
      exact ⟨.next ih.1 ⟨taken.1,counts⟩,counts.count⟩
  · intro run
    suffices both : Run (fun x a x' => Step ext blockSize x a x' ∧ OnePrefillEach x a) (start ⟨.empty,blockHash⟩) history x ∧
        x.replica.context.lmetric.waitingReqs = x.waiting.length from both.1
    induction run with
    | start => exact ⟨.start,base⟩
    | next _ taken ih =>
      have watched := watched_run (ih.1.weaken fun _ _ _ step => step.1)
      exact ⟨.next ih.1 ⟨taken.1,(watched.counts taken.1 ih.2).mpr taken.2⟩,taken.2.count⟩

-- Request 1 gets two PREFILL outputs while request 2 has none: the second one is
-- taken off as if request 2 had started.
def twoPrefills : List Action :=
  [.commit (shortRequest 1) none ⟨0,0⟩,.commit (shortRequest 2) none ⟨0,0⟩,.addRequest,.send,.addRequest,.send,
    .recvStep (plainStep 1 [plainOutput 1 .prefill false [5]] []),.meter,.deliver,
    .recvStep (plainStep 1 [plainOutput 1 .prefill false [6]] []),.meter,.deliver]

-- Nobody aborts, nothing fails.
def Undisturbed : Action → Prop
  | .commit _ reads _ => reads = none
  | .notify _ => False
  | .recvStep m => m.abortedRequests = []
  | _ => True

theorem repeated_prefill_miscounts :
    ¬∀ (history : List Action) (x : Audit RadixTreeBlockHash),
      Run (Step plainExternal 16) (start ⟨.empty,RadixTreeBlockHash.new 4⟩) history x → (∀ a ∈ history, Undisturbed a) →
      x.replica.stage = .idle → x.replica.context.lmetric.waitingReqs = x.waiting.length := by
  intro claimed
  obtain ⟨x,executed⟩ : ∃ x, (start ⟨.empty,RadixTreeBlockHash.new 4⟩).exec plainExternal 16 twoPrefills = some x :=
    Option.isSome_iff_exists.mp (by decide)
  have outcome : ((start ⟨.empty,RadixTreeBlockHash.new 4⟩).exec plainExternal 16 twoPrefills).map
      (fun x => (x.replica.stage,x.waiting.length,x.replica.context.lmetric.waitingReqs)) = some (.idle,1,0) := by decide
  rw [executed] at outcome
  simp only [Option.map_some,Option.some.injEq,Prod.mk.injEq] at outcome
  obtain ⟨stage,waiting,count⟩ := outcome
  have equal := claimed twoPrefills x (run_exec .start executed) (by simp [twoPrefills,Undisturbed,plainStep]) stage
  omega

end Audit
end BlitzRouter
