import BlitzRouter.PolicyDispatch
import BlitzRouter.RolloutThreads

namespace BlitzRouter
open Radix

-- What `schedule` of this policy does under the lock of the chosen replica: it
-- looks the hits up again and keeps no observation.
def recordDecision {β : Type} [BlockHash β] (entry : Entry) (context : ScheduleContext β) : Except Panic (Entry × ScheduleContext β) :=
  match BlockHash.get context.blockHash entry.blockHashState.blockHashes with
  | none => .error .blockHash
  | some hitNblks =>
    match entry.blockHashState.setPredBlockHits hitNblks with
    | none => .error (.predHitsSet entry.request.requestId)
    | some state =>
      let newNtkns := entry.request.inputTokens.length-hitNblks*state.blockSize
      .ok ({entry with blockHashState := {state with decisionEpoch := BlockHash.epoch context.blockHash}},
        {context with lmetric := context.lmetric.addAssign ⟨1,1,newNtkns,entry.request.inputTokens.length⟩})

-- Strictly less wins, so the first of equal replicas does.
def better {τ : Type} [LT τ] [DecidableLT τ] (best : Option (Nat × τ)) (idx : Nat) (ttft : Option τ) : Option (Nat × τ) :=
  match ttft,best with
  | none,_ => best
  | some t,none => some (idx,t)
  | some t,some (_,prev) => if t < prev then some (idx,t) else best

def chosenReplica {τ : Type} (best : Option (Nat × τ)) : Nat := (best.map Prod.fst).getD 0

def Entry.candidate (entry : Entry) (sctxHits : Nat) : Candidate :=
  ⟨entry.request.requestId,entry.request.inputLength,entry.blockHashState.blockHashes,sctxHits⟩

-- Where the queue task stands between two critical sections. `origin` is the
-- replica whose NextRequest is handled, or none for an Append; `front` is the
-- entry being scheduled.
inductive Worker (τ : Type) where
  | recv
  | scan (origin : Option Nat) (front : Queued) (idx : Nat) (best : Option (Nat × τ))
  | probed (origin : Option Nat) (front : Queued) (idx : Nat) (best : Option (Nat × τ)) (sctxHits : Nat)
  | query (origin : Option Nat) (front : Queued) (idx : Nat) (best : Option (Nat × τ)) (asker : Asker τ)
  | decided (origin : Option Nat) (front : Queued) (chosen : Nat)
  | admitting (origin : Option Nat) (front : Queued) (chosen : Nat) (asker : Asker τ)

-- `probe` and `decide` lock a schedule context; the contexts belong to other
-- tasks too, so that the lock finds any of them.
inductive WorkerAct (β : Type) where
  | recv (command : PolicyCommand)
  | probe (context : ScheduleContext β)
  | startQuery
  | decide (context : ScheduleContext β)
  | startAdmit
  | section_ (act : AskerAct)

-- Steps of any number of `on_sse` calls on any replicas run in between.
inductive ClusterAct (β : Type) where
  | worker (act : WorkerAct β)
  | sse (replica call : Nat) (act : StepperAct)

-- The queue task of the policy with one context of the simulator per replica.
-- The two lists note what `schedule` returned and which admissions were called.
structure Cluster (ρ τ : Type) where
  task : QueueTask Unit
  pctxs : Nat → PCtx ρ τ
  steppers : Nat → Nat → Stepper
  worker : Worker τ
  scheduled : List (RequestId × Nat)
  admissions : List (RequestId × Nat)

-- The arms of the match of `on_admit` over the cached rollout.
inductive AdmitArm where
  | promote | rebuild | violation | empty
deriving DecidableEq,Repr

def admitArm {τ : Type} (slot : Option (EphemeralRollout τ)) (requestId : RequestId) : AdmitArm :=
  match slot with
  | some e => if e.candidateId = some requestId then .promote else if e.candidateId = none then .rebuild else .violation
  | none => .empty

namespace Cluster
variable {β ρ τ : Type}

def start (numReplicas : Nat) (regressor : ρ) (blockSize tokenBudget : Nat) : Cluster ρ τ :=
  ⟨.start numReplicas (),fun _ => .new regressor blockSize tokenBudget,fun _ _ => .idle,.recv,[],[]⟩

def numReplicas (c : Cluster ρ τ) : Nat := c.task.allCommitReqBuffers.length

def update (pctxs : Nat → PCtx ρ τ) (idx : Nat) (p : PCtx ρ τ) : Nat → PCtx ρ τ := Function.update pctxs idx p

-- A command ends with an answer when it asked for a request.
def finish (c : Cluster ρ τ) : Option Nat → Option (Cluster ρ τ)
  | none => some {c with worker := .recv}
  | some replicaIdx =>
    match c.task.answer replicaIdx with
    | .ok task => some {c with task := task,worker := .recv}
    | .error _ => none

-- Without replicas the policy returns at once and has none.
def schedule (c : Cluster ρ τ) (origin : Option Nat) : Option (Cluster ρ τ) :=
  match c.task.uncommitBuffer with
  | [] => c.finish origin
  | front::_ => if c.numReplicas = 0 then c.finish origin else some {c with worker := .scan origin front 0 none}

-- The test of the `'ineligible` loop; an Append schedules once.
def resume (c : Cluster ρ τ) : Option Nat → Option (Cluster ρ τ)
  | none => c.finish none
  | some replicaIdx =>
    match c.task.allCommitReqBuffers[replicaIdx]? with
    | none => none
    | some [] => c.schedule (some replicaIdx)
    | some (_::_) => c.finish (some replicaIdx)

def commit (c : Cluster ρ τ) (front : Queued) (chosen : Nat) : Option (Cluster ρ τ) :=
  match c.task.commit front c.task.uncommitBuffer.tail chosen with
  | .ok task => some {c with task := task}
  | .error _ => none

section
variable [BlockHash β] [Zero τ] [Add τ] [LT τ] [DecidableLT τ] (trained : TrainedPredictor ρ τ)

def ttft : Asker τ → Option τ
  | .rolling loop => loop.buffer.gist.ttftMs
  | _ => none

def querySection (c : Cluster ρ τ) (origin : Option Nat) (front : Queued) (idx : Nat) (best : Option (Nat × τ)) (asker : Asker τ)
    (act : AskerAct) : Option (Cluster ρ τ) :=
  (askerStep trained (c.pctxs idx) asker act).map fun (p,next) =>
    {c with
      pctxs := update c.pctxs idx p
      worker := match next with
        | .idle => .scan origin front (idx+1) (better best idx (ttft asker))
        | next => .query origin front idx best next}

def admitSection (c : Cluster ρ τ) (origin : Option Nat) (front : Queued) (chosen : Nat) (asker : Asker τ) (act : AskerAct) :
    Option (Cluster ρ τ) :=
  (askerStep trained (c.pctxs chosen) asker act).bind fun (p,next) =>
    let c := {c with pctxs := update c.pctxs chosen p}
    match next with
    | .idle => (c.commit front chosen).bind fun c => c.resume origin
    | next => some {c with worker := .admitting origin front chosen next}

def workerStep (c : Cluster ρ τ) (act : WorkerAct β) : Option (Cluster ρ τ) :=
  match c.worker,act with
  | .recv,.recv (.append entry) => schedule {c with task := c.task.pushBack entry} none
  | .recv,.recv (.nextRequest replicaIdx) => c.resume (some replicaIdx)
  | .scan origin front idx best,.probe context =>
    if idx < c.numReplicas then
      (BlockHash.get context.blockHash front.entry.blockHashState.blockHashes).map fun hits =>
        {c with worker := .probed origin front idx best hits}
    else none
  | .probed origin front idx best sctxHits,.startQuery =>
    c.querySection trained origin front idx best .idle (.prefixMatch (front.entry.candidate sctxHits))
  | .query origin front idx best asker,.section_ act => c.querySection trained origin front idx best asker act
  | .scan origin front idx best,.decide context =>
    if idx = c.numReplicas then
      match recordDecision front.entry context with
      | .ok (entry,_) =>
        some {c with
          worker := .decided origin {front with entry := entry} (chosenReplica best)
          scheduled := c.scheduled++[(entry.request.requestId,chosenReplica best)]}
      | .error _ => none
    else none
  | .decided origin front chosen,.startAdmit =>
    admitSection trained {c with admissions := c.admissions++[(front.entry.request.requestId,chosen)]} origin front chosen .idle
      (.admitReq front.entry.request.requestId front.entry.request.inputLength front.entry.blockHashState.blockHashes)
  | .admitting origin front chosen asker,.section_ act => c.admitSection trained origin front chosen asker act
  | _,_ => none

def sseStep (c : Cluster ρ τ) (replica call : Nat) (act : StepperAct) : Option (Cluster ρ τ) :=
  (stepperStep trained (c.pctxs replica) (c.steppers replica call) act).map fun (p,next) =>
    {c with
      pctxs := update c.pctxs replica p
      steppers := Function.update c.steppers replica (Function.update (c.steppers replica) call next)}

def step (c : Cluster ρ τ) : ClusterAct β → Option (Cluster ρ τ)
  | .worker act => c.workerStep trained act
  | .sse replica call act => c.sseStep trained replica call act

def Interleaving (numReplicas : Nat) (regressor : ρ) (blockSize tokenBudget : Nat) (acts : List (ClusterAct β)) (c : Cluster ρ τ) : Prop :=
  Run (fun c act c' => c.step trained act = some c') (start numReplicas regressor blockSize tokenBudget) acts c

end
end Cluster
end BlitzRouter
