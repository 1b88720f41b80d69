import BlitzRouter.Dispatch
import BlitzRouter.Replica

namespace BlitzRouter
open Radix

-- A policy sees the entry behind a shared reference. Only these two words of it
-- are atomic and can be stored to.
structure Atomics where
  predHitNblks : Nat
  decisionEpoch : Nat
deriving DecidableEq,Repr

def Entry.atomics (entry : Entry) : Atomics := ⟨entry.blockHashState.predHitNblks,entry.blockHashState.decisionEpoch⟩

def Entry.store (entry : Entry) (atomics : Atomics) : Entry :=
  {entry with blockHashState :=
    {entry.blockHashState with predHitNblks := atomics.predHitNblks,decisionEpoch := atomics.decisionEpoch}}

@[simp] theorem store_atomics (entry : Entry) : entry.store entry.atomics = entry := rfl

@[simp] theorem store_store (entry : Entry) (one two : Atomics) : (entry.store one).store two = entry.store two := rfl

@[simp] theorem store_request (entry : Entry) (atomics : Atomics) : (entry.store atomics).request = entry.request := rfl

-- `schedule` of a policy: `ω` is what the call finds in the schedule contexts,
-- which other tasks change between two calls, and `γ` its global context.
abbrev Schedule (ω γ : Type) := ω → γ → Entry → Except Panic (Option Nat × Atomics × γ)

inductive QueuePanic where
  | schedule (panic : Panic)
  | replicaIndex (index : Nat)
deriving DecidableEq,Repr

inductive PolicyCommand where
  | append (entry : Entry)
  | nextRequest (replicaIdx : Nat)
deriving DecidableEq,Repr

-- An entry in the queue task. The code does not number them: `arrival` counts the
-- Append commands before its own and tells equal entries apart.
structure Queued where
  arrival : Nat
  entry : Entry
deriving DecidableEq,Repr

-- What happened so far, which the code does not keep either: the appended
-- entries, which arrival was committed to which replica, and the answers.
structure QueueLog where
  appends : List Entry
  commits : List (Nat × Nat)
  answers : List (Nat × Option (RequestId × Queued))
deriving DecidableEq,Repr

structure QueueTask (γ : Type) where
  gctx : γ
  uncommitBuffer : List Queued
  allCommitReqBuffers : List (List (RequestId × Queued))
  log : QueueLog
deriving DecidableEq,Repr

namespace QueueTask
variable {ω γ : Type}

def start (numReplicas : Nat) (gctx : γ) : QueueTask γ := ⟨gctx,[],List.replicate numReplicas [],⟨[],[],[]⟩⟩

def pushBack (q : QueueTask γ) (entry : Entry) : QueueTask γ :=
  {q with uncommitBuffer := q.uncommitBuffer++[⟨q.log.appends.length,entry⟩]
          log := {q.log with appends := q.log.appends++[entry]}}

def commit (q : QueueTask γ) (front : Queued) (rest : List Queued) (replicaIdx : Nat) : Except QueuePanic (QueueTask γ) :=
  match q.allCommitReqBuffers[replicaIdx]? with
  | none => .error (.replicaIndex replicaIdx)
  | some buffer =>
    .ok {q with
      uncommitBuffer := rest
      allCommitReqBuffers := q.allCommitReqBuffers.set replicaIdx (buffer++[(front.entry.request.requestId,front)])
      log := {q.log with commits := q.log.commits++[(replicaIdx,front.arrival)]}}

-- Both commands schedule the front of the uncommitted buffer. The flag tells
-- whether it was committed: not when there is none, or the policy has no replica.
def scheduleFront (schedule : Schedule ω γ) (view : ω) (q : QueueTask γ) : Except QueuePanic (QueueTask γ × Bool) :=
  match q.uncommitBuffer with
  | [] => .ok (q,false)
  | front::rest =>
    match schedule view q.gctx front.entry with
    | .error panic => .error (.schedule panic)
    | .ok (none,atomics,gctx) =>
      .ok ({q with gctx := gctx,uncommitBuffer := {front with entry := front.entry.store atomics}::rest},false)
    | .ok (some replicaIdx,atomics,gctx) => do
      let q ← commit {q with gctx := gctx} {front with entry := front.entry.store atomics} rest replicaIdx
      .ok (q,true)

-- The `'ineligible` loop, whose n-th round calls `schedule` with `views n`.
-- `none` is a loop that has not ended after so many rounds.
def ineligible (schedule : Schedule ω γ) (replicaIdx : Nat) : Nat → (Nat → ω) → QueueTask γ → Option (Except QueuePanic (QueueTask γ))
  | rounds,views,q =>
    match q.allCommitReqBuffers[replicaIdx]? with
    | none => some (.error (.replicaIndex replicaIdx))
    | some (_::_) => some (.ok q)
    | some [] =>
      match rounds with
      | 0 => none
      | rounds+1 =>
        match q.scheduleFront schedule (views 0) with
        | .error panic => some (.error panic)
        | .ok (q,false) => some (.ok q)
        | .ok (q,true) => ineligible schedule replicaIdx rounds (fun n => views (n+1)) q

-- The caller waits for the answer, so that sending it succeeds.
def answer (q : QueueTask γ) (replicaIdx : Nat) : Except QueuePanic (QueueTask γ) :=
  match q.allCommitReqBuffers[replicaIdx]? with
  | none => .error (.replicaIndex replicaIdx)
  | some [] => .ok {q with log := {q.log with answers := q.log.answers++[(replicaIdx,none)]}}
  | some (first::rest) =>
    .ok {q with
      allCommitReqBuffers := q.allCommitReqBuffers.set replicaIdx rest
      log := {q.log with answers := q.log.answers++[(replicaIdx,some first)]}}

def handle (schedule : Schedule ω γ) (rounds : Nat) (views : Nat → ω) (q : QueueTask γ) :
    PolicyCommand → Option (Except QueuePanic (QueueTask γ))
  | .append entry => some ((scheduleFront schedule (views 0) (q.pushBack entry)).map Prod.fst)
  | .nextRequest replicaIdx =>
    (ineligible schedule replicaIdx rounds views q).map fun result => result.bind (·.answer replicaIdx)

-- One command, with what the calls to `schedule` find while it is handled.
def Step (schedule : Schedule ω γ) (q : QueueTask γ) (a : PolicyCommand × (Nat → ω)) (q' : QueueTask γ) : Prop :=
  ∃ rounds, q.handle schedule rounds a.2 a.1 = some (.ok q')

def deliveries (q : QueueTask γ) : List (Nat × Queued) := q.log.answers.filterMap fun a => a.2.map fun sent => (a.1,sent.2)

end QueueTask

-- What `policy!` expands to: the body looks at its observations and chooses, and
-- `apply_default_after` follows under the lock of the chosen replica.
def loweredSchedule {β γ ω : Type} [BlockHash β] (choose : ω → γ → Entry → Option (Nat × Observation) × γ) (contexts : ω → Nat → ScheduleContext β) :
    Schedule ω γ := fun view gctx entry =>
  match choose view gctx entry with
  | (none,gctx) => .ok (none,entry.atomics,gctx)
  | (some (chosen,cached),gctx) => do
    let (entry,_) ← applyDefaultAfter entry (contexts view chosen) cached
    .ok (some chosen,entry.atomics,gctx)

end BlitzRouter
