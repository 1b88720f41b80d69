import BlitzRouter.IncrementalMirror
import BlitzRouter.Rollout

namespace BlitzRouter
open Radix

-- The regressor with its corrector: `ρ` is what calibration changes, and a
-- prediction depends on it and on the batch.
structure TrainedPredictor (ρ τ : Type) where
  predict : ρ → BatchForPredictor → τ
  calibrate : ρ → BatchForPredictor → τ → ρ
  ofMillis : Nat → τ

structure EphemeralRollout (τ : Type) where
  candidateId : Option RequestId
  buffer : RolloutBuffer τ
  sseAnchorStepId : Nat
  tailSched : SchedSnapshot
  savepoint : Option (Nat × SchedSnapshot)

structure PCtx (ρ τ : Type) where
  regressor : ρ
  mirror : IncrementalMirror
  ephemeral : Option (EphemeralRollout τ)
  sched : SchedSnapshot
  lastSseStepId : Nat
  limits : StepLimits

-- How slot 0 of a cached rollout stands to the step: the last two are the
-- states a debug build asserts against.
inductive HeadCheck where
  | known (drift : Bool)
  | unrecorded
  | noSlots
deriving DecidableEq,Repr

def HeadCheck.drift : HeadCheck → Bool
  | .known drift => drift
  | _ => true

def stepHasPrefill (m : EngineStepOutput) : Bool :=
  m.prefillTokens > 0 || m.outputs.any fun o => o.state = .prefill

def sameIds (xs ys : List RequestId) : Bool := xs.all ys.contains && ys.all xs.contains

def ridSetsMatch {τ : Type} (slot : RolloutSlot τ) (m : EngineStepOutput) : Bool :=
  sameIds slot.prefillRids ((m.outputs.filter fun o => o.state = .prefill).map fun o => o.requestId) &&
    sameIds slot.decodeRids ((m.outputs.filter fun o => o.decodes).map fun o => o.requestId)

namespace EphemeralRollout
variable {τ : Type}

-- What of a cached rollout the next query starts from.
def recover (e : EphemeralRollout τ) : Option (RolloutBuffer τ × Nat × SchedSnapshot) :=
  match e.candidateId with
  | none => some (e.buffer,e.sseAnchorStepId,e.tailSched)
  | some _ =>
    match e.savepoint with
    | some (idx,savedTail) =>
      if idx > 0 then some (⟨none,e.buffer.slots.take idx,none,none,none⟩,e.sseAnchorStepId,savedTail) else none
    | none => none

def headCheck (e : EphemeralRollout τ) (m : EngineStepOutput) : HeadCheck :=
  match e.buffer.slots with
  | [] => .noSlots
  | s0::_ => if s0.compositionKnown then .known (!ridSetsMatch s0 m) else .unrecorded

def popHead (e : EphemeralRollout τ) (stepId : Nat) : EphemeralRollout τ :=
  let savepoint := e.savepoint.map fun (idx,tail) => (idx-1,tail)
  {e with
    buffer := {e.buffer with
      slots := e.buffer.slots.tail
      prefillBeginStep := e.buffer.prefillBeginStep.map (·-1)
      prefillEndStep := e.buffer.prefillEndStep.map (·-1)
      inDecodeStep := e.buffer.inDecodeStep.map (·-1)}
    sseAnchorStepId := stepId
    savepoint := match savepoint with
      | some (0,_) => none
      | kept => kept}

-- The promote-or-drop branch; the last arm is a protocol violation in a debug build.
def admitted (e : EphemeralRollout τ) (requestId : RequestId) : Option (EphemeralRollout τ) :=
  if e.candidateId = some requestId then
    some {e with candidateId := none,buffer := {e.buffer with candidateId := none},savepoint := none}
  else none

-- The four branches of a step over the cached rollout.
def maintained (e : EphemeralRollout τ) (m : EngineStepOutput) : Option (EphemeralRollout τ) :=
  if stepHasPrefill m then if (e.headCheck m).drift then none else some (e.popHead m.stepId) else none

end EphemeralRollout

namespace PCtx
variable {ρ τ : Type} [Zero τ] [Add τ] (trained : TrainedPredictor ρ τ)

def new (regressor : ρ) (blockSize tokenBudget : Nat) : PCtx ρ τ :=
  ⟨regressor,IncrementalMirror.new,none,SchedSnapshot.new,0,StepLimits.new blockSize tokenBudget⟩

def observeStep (p : PCtx ρ τ) (batch : BatchForPredictor) (actualMs : τ) : PCtx ρ τ × τ × τ :=
  ({p with regressor := trained.calibrate p.regressor batch actualMs},trained.predict p.regressor batch,actualMs)

def query (p : PCtx ρ τ) (candidateId : RequestId) (inputLength : Nat) (candidateHashes : List Hash) (sctxPrefixHits : Nat) :
    PCtx ρ τ × RolloutGist τ :=
  let compositeHits := max sctxPrefixHits (p.mirror.prefixMatch candidateHashes)
  let baseline := p.ephemeral.bind EphemeralRollout.recover
  let anchor := p.lastSseStepId
  let (buffer,tailSched,savepoint) :=
    match baseline with
    | some (b,_,baselineTail) =>
      extendWithCandidate (trained.predict p.regressor) p.limits b baselineTail candidateId inputLength compositeHits
    | none =>
      let (b,tail) := runScheduleLoopFromScratch (trained.predict p.regressor) p.limits p.sched candidateId inputLength compositeHits
      (b,tail,none)
  ({p with ephemeral := some ⟨some candidateId,buffer,anchor,tailSched,savepoint⟩},buffer.gist)

def onAdmit (p : PCtx ρ τ) (requestId : RequestId) (inputLength : Nat) (hashes : List Hash) : PCtx ρ τ :=
  {p with
    sched := p.sched.admitReq (ReqProgress.new requestId inputLength)
    mirror := p.mirror.insertRequest requestId hashes
    ephemeral := p.ephemeral.bind fun e => e.admitted requestId}

def absorb (p : PCtx ρ τ) (m : EngineStepOutput) : PCtx ρ τ :=
  {p with sched := p.sched.sync m,mirror := p.mirror.applySse m (p.sched.sync m)}

def onSse (p : PCtx ρ τ) (batch : BatchForPredictor) (m : EngineStepOutput) : PCtx ρ τ × τ × τ :=
  let (p,predicted,actual) := p.observeStep trained batch (trained.ofMillis m.latency)
  let p := p.absorb m
  ({p with lastSseStepId := m.stepId,ephemeral := p.ephemeral.bind fun e => e.maintained m},predicted,actual)

end PCtx
end BlitzRouter
