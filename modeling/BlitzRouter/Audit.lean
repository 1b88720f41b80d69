import BlitzRouter.ReplicaBooks

namespace BlitzRouter
open Radix CompletionLoop

namespace Replica
variable {β : Type}

-- The requests an action takes off the batch size: finished ones the loop knows
-- in the fast path, and those that leave the exception context later.
def finishing (s : CompletionLoop) (m : EngineStepOutput) : List RequestId :=
  (m.outputs.filter fun o => o.isFinished && (s.find o.requestId).isSome).map RequestStepOutput.requestId

def charges (ext : External) (r : Replica β) : Action → List RequestId
  | .meter =>
    match r.stage with
    | .received m => finishing r.loop m
    | _ => []
  | .deliver =>
    match r.stage with
    | .metered m =>
      match r.loop.passGenerations ext m r.errorRx with
      | .ok (_,left) => left.map fun entry => entry.request.requestId
      | .error _ => []
    | _ => []
  | _ => []

-- Committed requests that no output has named yet.
def waitingAfter (r : Replica β) (waiting : List RequestId) : Action → List RequestId
  | .commit request _ _ => waiting++[request.requestId]
  | .meter =>
    match r.stage with
    | .received m => waiting.filter fun id => !(m.outputs.map RequestStepOutput.requestId).contains id
    | _ => waiting
  | _ => waiting

-- Prompt tokens of a PREFILL output that the engine's cache did not hold.
def uncached (s : CompletionLoop) (o : RequestStepOutput) : Int :=
  match o.state,s.find o.requestId with
  | .prefill,some entry => entry.request.inputLength-o.hitTokenCnt
  | _,_ => 0

-- Prefill tokens a step reports beyond those of its PREFILL outputs.
def unexplained (r : Replica β) : Action → Int
  | .meter =>
    match r.stage with
    | .received m => m.prefillTokens-(m.outputs.map (uncached r.loop)).sum
    | _ => 0
  | _ => 0

instance [BlockHash β] (r : Replica β) (a : Action) : Decidable (r.Enabled a) :=
  match a with
  | .commit .. => .isTrue trivial
  | .addRequest => inferInstanceAs (Decidable (r.admitting = none ∧ r.queued ≠ [] ∧ r.channel.length < channelCapacity))
  | .send => inferInstanceAs (Decidable (r.admitting ≠ none))
  | .notify _ => .isTrue trivial
  | .recvStep _ => inferInstanceAs (Decidable (r.stage = .idle ∧ r.admitting = none))
  | .meter =>
    match stage : r.stage with
    | .received m => .isTrue ⟨m,stage⟩
    | .idle => .isFalse fun ⟨_,other⟩ => by rw [stage] at other; cases other
    | .metered _ => .isFalse fun ⟨_,other⟩ => by rw [stage] at other; cases other
  | .deliver =>
    match stage : r.stage with
    | .metered m => .isTrue ⟨m,stage⟩
    | .idle => .isFalse fun ⟨_,other⟩ => by rw [stage] at other; cases other
    | .received _ => .isFalse fun ⟨_,other⟩ => by rw [stage] at other; cases other

instance (committed : List RequestId) (a : Action) : Decidable (Orderly committed a) :=
  match a with
  | .commit request _ _ => inferInstanceAs (Decidable (request.requestId ∉ committed))
  | .recvStep m => inferInstanceAs (Decidable (m.outputs.map RequestStepOutput.requestId).Nodup)
  | .addRequest | .send | .notify _ | .meter | .deliver => .isTrue trivial

end Replica

-- A replica with its history: who was committed, who was taken off the batch
-- size, in order and with repetitions, who has had no output yet, and by how much
-- the reported prefill tokens exceed the outputs' so far.
structure Audit (β : Type) where
  replica : Replica β
  committed : List RequestId
  charged : List RequestId
  waiting : List RequestId
  unexplained : Int

namespace Audit
open Replica
variable {β : Type} [BlockHash β] {ext : External} {blockSize : Nat}

def start (context : ScheduleContext β) : Audit β := ⟨.start context,[],[],[],0⟩

def after (ext : External) (x : Audit β) (a : Action) (r : Replica β) : Audit β where
  replica := r
  committed := x.committed++committedBy a
  charged := x.charged++charges ext x.replica a
  waiting := waitingAfter x.replica x.waiting a
  unexplained := x.unexplained+Replica.unexplained x.replica a

structure Step (ext : External) (blockSize : Nat) (x : Audit β) (a : Action) (x' : Audit β) : Prop where
  taken : x.replica.Step ext blockSize a x'.replica
  orderly : Orderly x.committed a
  history : x' = x.after ext a x'.replica

def exec (ext : External) (blockSize : Nat) : Audit β → List Action → Option (Audit β)
  | x,[] => some x
  | x,a::rest =>
    if x.replica.Enabled a ∧ Orderly x.committed a then
      match x.replica.perform ext blockSize a with
      | .ok r => exec ext blockSize (x.after ext a r) rest
      | .error _ => none
    else none

theorem run_exec {x x' : Audit β} {past actions : List Action} {from_ : Audit β} (run : Run (Step ext blockSize) from_ past x)
    (executed : x.exec ext blockSize actions = some x') : Run (Step ext blockSize) from_ (past++actions) x' := by
  refine run.executed (fun _ => rfl) (fun x a rest t result => ?_) executed
  unfold exec at result
  split at result
  · rename_i allowed
    split at result
    · rename_i r done
      exact ⟨x.after ext a r,⟨⟨allowed.1,done⟩,allowed.2,rfl⟩,result⟩
    · cases result
  · cases result

theorem placed_step {x x' : Audit β} {a : Action} (placed : Placed x.committed x.replica) (step : Step ext blockSize x a x') :
    Placed x'.committed x'.replica := by
  obtain ⟨⟨enabled,result⟩,orderly,history⟩ := step
  rw [history]
  rw [history] at result
  generalize x'.replica = r' at result
  simp only [after] at result ⊢
  cases a with
  | commit request reads cached =>
    obtain ⟨_,hits,entry,_,_,done⟩ := commit_cases result
    exact done.placed placed orderly
  | addRequest =>
    cases result
    simpa only [committedBy,List.append_nil] using (handed_addRequest enabled.1).placed placed
  | send =>
    cases result
    simpa only [committedBy,List.append_nil] using handed_send.placed placed
  | notify id =>
    cases result
    simpa only [committedBy,List.append_nil] using (handed_notify id).placed placed
  | recvStep m =>
    cases result
    simpa only [committedBy,List.append_nil] using placed.recvStep enabled.1 orderly
  | meter =>
    obtain ⟨m,stage⟩ := enabled
    obtain ⟨_,d,_,charge⟩ := placed.charged stage result
    simpa only [committedBy,List.append_nil] using charge.placed placed
  | deliver =>
    obtain ⟨m,stage⟩ := enabled
    obtain ⟨left,_,leave⟩ := placed.left stage result
    simpa only [committedBy,List.append_nil] using leave.placed placed

-- Small inputs: a hash, a request of one token without a full block, and steps
-- that report nothing but their outputs.
def plainExternal : External := ⟨fun block seed => block.foldl (fun hash t => hash*31+t) seed,none⟩

def shortRequest (id : RequestId) : ValidGenerateRequest := ⟨id,1,[7]⟩

def plainOutput (id : RequestId) (state : SseState) (isFinished : Bool) (tokens : List TokenId) : RequestStepOutput :=
  ⟨id,tokens,state,isFinished,0,0⟩

def plainStep (prefillTokens : Nat) (outputs : List RequestStepOutput) (aborted : List RequestId) : EngineStepOutput :=
  ⟨prefillTokens,0,outputs,[],[],[],[],[],aborted,0⟩

end Audit
end BlitzRouter
