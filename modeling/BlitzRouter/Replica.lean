import BlitzRouter.CompletionExcept
import BlitzRouter.Runs

namespace BlitzRouter
open Radix CompletionLoop

-- What the policy saw when it scored the replica.
structure Observation where
  epoch : Nat
  hitBlocks : Nat
deriving DecidableEq,Repr

def Entry.new (ext : External) (blockSize : Nat) (request : ValidGenerateRequest) (reads : Option Nat) : Option Entry := do
  let state ← BlockHashState.new ext request.inputTokens blockSize
  return ⟨request,state,⟨[],reads⟩,0⟩

-- The hits of the observation are used while the matcher has not moved since.
def observedHits {β : Type} [BlockHash β] (blockHash : β) (hashes : List Hash) (cached : Observation) : Option Nat :=
  if cached.epoch = BlockHash.epoch blockHash then some cached.hitBlocks else BlockHash.get blockHash hashes

def applyDefaultAfter {β : Type} [BlockHash β] (entry : Entry) (context : ScheduleContext β) (cached : Observation) :
    Except Panic (Entry × ScheduleContext β) :=
  let currentEpoch := BlockHash.epoch context.blockHash
  match observedHits context.blockHash entry.blockHashState.blockHashes cached with
  | none => .error .blockHash
  | some hitNblks =>
    match entry.blockHashState.setPredBlockHits hitNblks with
    | none => .error (.predHitsSet entry.request.requestId)
    | some state =>
      let newNtkns := entry.request.inputTokens.length-hitNblks*state.blockSize
      .ok ({entry with blockHashState := {state with decisionEpoch := currentEpoch}},
        {context with lmetric := context.lmetric.addAssign ⟨1,1,newNtkns,entry.request.inputTokens.length⟩})

-- Where the completion loop stands: between two steps, after it drained the
-- channel for a step, or after it released the schedule context for it.
inductive Stage where
  | idle
  | received (m : EngineStepOutput)
  | metered (m : EngineStepOutput)
deriving DecidableEq,Repr

-- One replica: committed entries wait for the work loop, which holds the mutex
-- while `admitting`, and go through the channel to the completion loop.
structure Replica (β : Type) where
  context : ScheduleContext β
  queued : List Entry
  admitting : Option Entry
  channel : List Entry
  errorRx : List RequestId
  loop : CompletionLoop
  stage : Stage

inductive Action where
  | commit (request : ValidGenerateRequest) (reads : Option Nat) (cached : Observation)
  | addRequest
  | send
  | notify (id : RequestId)
  | recvStep (m : EngineStepOutput)
  | meter
  | deliver
deriving DecidableEq

namespace Replica
variable {β : Type} [BlockHash β]

def start (context : ScheduleContext β) : Replica β := ⟨context,[],none,[],[],.new,.idle⟩

def channelCapacity : Nat := 64

-- Draining waits for the mutex that an admission holds until it has sent.
def Enabled (r : Replica β) : Action → Prop
  | .commit .. => True
  | .addRequest => r.admitting = none ∧ r.queued ≠ [] ∧ r.channel.length < channelCapacity
  | .send => r.admitting ≠ none
  | .notify _ => True
  | .recvStep _ => r.stage = .idle ∧ r.admitting = none
  | .meter => ∃ m, r.stage = .received m
  | .deliver => ∃ m, r.stage = .metered m

def commit (ext : External) (blockSize : Nat) (r : Replica β) (request : ValidGenerateRequest) (reads : Option Nat)
    (cached : Observation) : Except Panic (Replica β) :=
  match Entry.new ext blockSize request reads with
  | none => .error .blockSizeZero
  | some entry => do
    let (entry,context) ← applyDefaultAfter entry r.context cached
    .ok {r with context := context,queued := r.queued++[entry]}

def perform (ext : External) (blockSize : Nat) (r : Replica β) : Action → Except Panic (Replica β)
  | .commit request reads cached => r.commit ext blockSize request reads cached
  | .addRequest => .ok {r with queued := r.queued.tail,admitting := r.queued.head?}
  | .send => .ok {r with admitting := none,channel := r.channel++r.admitting.toList}
  | .notify id => .ok {r with errorRx := r.errorRx++[id]}
  | .recvStep m => .ok {r with loop := r.loop.drain r.channel,channel := [],stage := .received m}
  | .meter =>
    match r.stage with
    | .received m => do
      let (loop,context) ← r.loop.meter ext r.context m
      .ok {r with loop := loop,context := context,stage := .metered m}
    | _ => .ok r
  | .deliver =>
    match r.stage with
    | .metered m => do
      let (loop,context) ← r.loop.deliver ext r.context m r.errorRx
      .ok {r with loop := loop,context := context,errorRx := [],stage := .idle}
    | _ => .ok r

def Step (ext : External) (blockSize : Nat) (r : Replica β) (a : Action) (r' : Replica β) : Prop :=
  r.Enabled a ∧ r.perform ext blockSize a = .ok r'

variable {ext : External} {blockSize : Nat} {r r' : Replica β} {m : EngineStepOutput}

-- The two halves of an iteration, once they have returned.
theorem perform_meter (stage : r.stage = .received m) (result : r.perform ext blockSize .meter = .ok r') : ∃ loop context,
    r.loop.meter ext r.context m = .ok (loop,context) ∧ r' = {r with loop := loop,context := context,stage := .metered m} := by
  simp only [perform,stage] at result
  cases metered : r.loop.meter ext r.context m with
  | error panic => rw [metered] at result; cases result
  | ok pair =>
    rw [metered] at result
    cases result
    exact ⟨pair.1,pair.2,rfl,rfl⟩

theorem perform_deliver (stage : r.stage = .metered m) (result : r.perform ext blockSize .deliver = .ok r') : ∃ loop context,
    r.loop.deliver ext r.context m r.errorRx = .ok (loop,context) ∧
      r' = {r with loop := loop,context := context,errorRx := [],stage := .idle} := by
  simp only [perform,stage] at result
  cases delivered : r.loop.deliver ext r.context m r.errorRx with
  | error panic => rw [delivered] at result; cases result
  | ok pair =>
    rw [delivered] at result
    cases result
    exact ⟨pair.1,pair.2,rfl,rfl⟩

end Replica
end BlitzRouter
