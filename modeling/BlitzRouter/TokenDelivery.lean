import BlitzRouter.LoopDelivery
import BlitzRouter.BatchSize

namespace BlitzRouter
open Radix CompletionLoop Replica

-- Where the work loop stands: waiting for room in the channel, holding a permit,
-- holding an entry with it, or in add_request with the mutex.
inductive WorkLoop where
  | reserving
  | reserved
  | taken (entry : Entry)
  | adding (entry : Entry)
deriving DecidableEq,Repr

-- Where the completion loop stands. A step that arrived waits for the mutex; once
-- the stream of steps has ended the loop is left for good.
inductive CompletionProgress where
  | receiving
  | arrived (m : EngineStepOutput)
  | drained (m : EngineStepOutput)
  | metered (m : EngineStepOutput)
  | ended
deriving DecidableEq,Repr

namespace CompletionProgress

-- Outputs of the step in progress, and those that the metrics have seen.
def current : CompletionProgress → List RequestStepOutput
  | .arrived m => m.outputs
  | .drained m => m.outputs
  | .metered m => m.outputs
  | _ => []

def counted : CompletionProgress → List RequestStepOutput
  | .metered m => m.outputs
  | _ => []

end CompletionProgress

namespace WorkLoop

def holding : WorkLoop → List Entry
  | .taken entry => [entry]
  | _ => []

def posting : WorkLoop → Option Entry
  | .adding entry => some entry
  | _ => none

end WorkLoop

-- The two loops of one replica, and what passes between them.
structure Session (β : Type) where
  context : ScheduleContext β
  queued : List Entry
  work : WorkLoop
  channel : List Entry
  errorRx : List RequestId
  loop : CompletionLoop
  progress : CompletionProgress

inductive SessionAct where
  | commit (request : ValidGenerateRequest) (reads : Option Nat) (cached : Observation)
  | reserve
  | nextRequest
  | addRequest
  | send
  | notify (id : RequestId)
  | recvStep (m : EngineStepOutput)
  | recvError
  | streamEnded
  | drain
  | meter
  | deliver
deriving DecidableEq

def SessionAct.commits : SessionAct → Bool
  | .commit .. => true
  | _ => false

namespace Session
variable {β : Type} [BlockHash β]

def start (context : ScheduleContext β) : Session β := ⟨context,[],.reserving,[],[],.new,.receiving⟩

-- Reserving after the end of the stream finds the channel closed and panics.
def Enabled (x : Session β) : SessionAct → Prop
  | .commit .. => True
  | .reserve => x.work = .reserving ∧ x.channel.length < channelCapacity ∧ x.progress ≠ .ended
  | .nextRequest => x.work = .reserved
  | .addRequest => x.work.holding ≠ []
  | .send => x.work.posting ≠ none
  | .notify _ => True
  | .recvStep _ => x.progress = .receiving
  | .recvError => x.progress = .receiving
  | .streamEnded => x.progress = .receiving
  | .drain => (∃ m, x.progress = .arrived m) ∧ x.work.posting = none
  | .meter => ∃ m, x.progress = .drained m
  | .deliver => ∃ m, x.progress = .metered m

def commit (ext : External) (blockSize : Nat) (x : Session β) (request : ValidGenerateRequest) (reads : Option Nat)
    (cached : Observation) : Except Panic (Session β) :=
  match Entry.new ext blockSize request reads with
  | none => .error .blockSizeZero
  | some entry => do
    let (entry,context) ← applyDefaultAfter entry x.context cached
    .ok {x with context := context,queued := x.queued++[entry]}

-- An empty queue gives the permit back, and an error on the stream is logged and
-- the next step awaited.
def perform (ext : External) (blockSize : Nat) (x : Session β) : SessionAct → Except Panic (Session β)
  | .commit request reads cached => x.commit ext blockSize request reads cached
  | .reserve => .ok {x with work := .reserved}
  | .nextRequest =>
    match x.queued with
    | [] => .ok {x with work := .reserving}
    | entry::rest => .ok {x with queued := rest,work := .taken entry}
  | .addRequest =>
    match x.work with
    | .taken entry => .ok {x with work := .adding entry}
    | _ => .ok x
  | .send => .ok {x with channel := x.channel++x.work.posting.toList,work := .reserving}
  | .notify id => .ok {x with errorRx := x.errorRx++[id]}
  | .recvStep m => .ok {x with progress := .arrived m}
  | .recvError => .ok x
  | .streamEnded => .ok {x with progress := .ended}
  | .drain =>
    match x.progress with
    | .arrived m => .ok {x with loop := x.loop.drain x.channel,channel := [],progress := .drained m}
    | _ => .ok x
  | .meter =>
    match x.progress with
    | .drained m => do
      let (loop,context) ← x.loop.meter ext x.context m
      .ok {x with loop := loop,context := context,progress := .metered m}
    | _ => .ok x
  | .deliver =>
    match x.progress with
    | .metered m => do
      let (loop,context) ← x.loop.deliver ext x.context m x.errorRx
      .ok {x with loop := loop,context := context,errorRx := [],progress := .receiving}
    | _ => .ok x

instance (x : Session β) (a : SessionAct) : Decidable (x.Enabled a) :=
  match a with
  | .commit .. => .isTrue trivial
  | .reserve => inferInstanceAs (Decidable (_ ∧ _ ∧ _))
  | .nextRequest => inferInstanceAs (Decidable (x.work = .reserved))
  | .addRequest => inferInstanceAs (Decidable (x.work.holding ≠ []))
  | .send => inferInstanceAs (Decidable (x.work.posting ≠ none))
  | .notify _ => .isTrue trivial
  | .recvStep _ => inferInstanceAs (Decidable (x.progress = .receiving))
  | .recvError => inferInstanceAs (Decidable (x.progress = .receiving))
  | .streamEnded => inferInstanceAs (Decidable (x.progress = .receiving))
  | .drain =>
    match progress : x.progress with
    | .arrived m => decidable_of_iff (x.work.posting = none) ⟨fun free => ⟨⟨m,progress⟩,free⟩,fun both => both.2⟩
    | .receiving | .drained _ | .metered _ | .ended => .isFalse fun both => both.1.elim fun m same => by rw [progress] at same; cases same
  | .meter =>
    match progress : x.progress with
    | .drained m => .isTrue ⟨m,progress⟩
    | .receiving | .arrived _ | .metered _ | .ended => .isFalse fun ⟨m,same⟩ => by rw [progress] at same; cases same
  | .deliver =>
    match progress : x.progress with
    | .metered m => .isTrue ⟨m,progress⟩
    | .receiving | .arrived _ | .drained _ | .ended => .isFalse fun ⟨m,same⟩ => by rw [progress] at same; cases same

-- The replica this is a finer view of: an entry the work loop holds still counts
-- as queued, and a step that waits for the mutex as not received.
def stage (x : Session β) : Stage :=
  match x.progress with
  | .drained m => .received m
  | .metered m => .metered m
  | _ => .idle

def replica (x : Session β) : Replica β :=
  ⟨x.context,x.work.holding++x.queued,x.work.posting,x.channel,x.errorRx,x.loop,x.stage⟩

def action (x : Session β) : SessionAct → Option Action
  | .commit request reads cached => some (.commit request reads cached)
  | .addRequest => some .addRequest
  | .send => some .send
  | .notify id => some (.notify id)
  | .drain =>
    match x.progress with
    | .arrived m => some (.recvStep m)
    | _ => none
  | .meter => some .meter
  | .deliver => some .deliver
  | .reserve | .nextRequest | .recvStep _ | .recvError | .streamEnded => none

-- A permit is room in the channel.
def Roomy (x : Session β) : Prop := x.work ≠ .reserving → x.channel.length < channelCapacity

variable {ext : External} {blockSize : Nat} {x x' : Session β} {a : SessionAct}

-- The two halves of an iteration, once they have returned.
theorem perform_meter {m : EngineStepOutput} (progress : x.progress = .drained m) (result : x.perform ext blockSize .meter = .ok x') :
    ∃ loop context, x.loop.meter ext x.context m = .ok (loop,context) ∧
      x' = {x with loop := loop,context := context,progress := .metered m} := by
  simp only [perform,progress] at result
  cases metered : x.loop.meter ext x.context m with
  | error panic => rw [metered] at result; cases result
  | ok pair =>
    rw [metered] at result
    cases result
    exact ⟨pair.1,pair.2,rfl,rfl⟩

theorem perform_deliver {m : EngineStepOutput} (progress : x.progress = .metered m) (result : x.perform ext blockSize .deliver = .ok x') :
    ∃ loop context, x.loop.deliver ext x.context m x.errorRx = .ok (loop,context) ∧
      x' = {x with loop := loop,context := context,errorRx := [],progress := .receiving} := by
  simp only [perform,progress] at result
  cases delivered : x.loop.deliver ext x.context m x.errorRx with
  | error panic => rw [delivered] at result; cases result
  | ok pair =>
    rw [delivered] at result
    cases result
    exact ⟨pair.1,pair.2,rfl,rfl⟩

-- Every step is a step of the replica, or one the replica does not see.
inductive Refines (ext : External) (blockSize : Nat) (x : Session β) (a : SessionAct) (x' : Session β) : Prop where
  | stutter : x.action a = none → x'.replica = x.replica → Refines ext blockSize x a x'
  | step (b : Action) : x.action a = some b → x.replica.Step ext blockSize b x'.replica → Refines ext blockSize x a x'

theorem commit_refines {request : ValidGenerateRequest} {reads : Option Nat} {cached : Observation}
    (result : x.commit ext blockSize request reads cached = .ok x') :
    x.replica.commit ext blockSize request reads cached = .ok x'.replica ∧ x'.work = x.work ∧ x'.channel = x.channel ∧
      x'.progress = x.progress := by
  unfold commit at result
  unfold Replica.commit
  cases made : Entry.new ext blockSize request reads with
  | none => simp only [made] at result; cases result
  | some entry =>
    simp only [made] at result ⊢
    cases applied : applyDefaultAfter entry x.context cached with
    | error panic => rw [applied] at result; cases result
    | ok pair =>
      rw [applied] at result
      cases result
      change (do
        let (entry,context) ← applyDefaultAfter entry x.context cached
        Except.ok {x.replica with context := context,queued := x.replica.queued++[entry]}) = _ ∧ _
      rw [applied]
      refine ⟨?_,rfl,rfl,rfl⟩
      simp only [bind,Except.bind,replica,List.append_assoc]
      rfl

theorem refines (roomy : x.Roomy) (enabled : x.Enabled a) (result : x.perform ext blockSize a = .ok x') : Refines ext blockSize x a x' := by
  cases a with
  | commit request reads cached => exact .step _ rfl ⟨trivial,(commit_refines result).1⟩
  | reserve =>
    cases result
    refine .stutter rfl ?_
    simp only [replica,enabled.1]
    rfl
  | nextRequest =>
    have held : x.work = .reserved := enabled
    refine .stutter rfl ?_
    unfold perform at result
    cases waiting : x.queued with
    | nil =>
      simp only [waiting] at result
      cases result
      simp only [replica,held,waiting]
      rfl
    | cons entry rest =>
      simp only [waiting] at result
      cases result
      simp only [replica,held,waiting]
      rfl
  | addRequest =>
    cases held : x.work with
    | taken entry =>
      simp only [perform,held] at result
      cases result
      refine .step _ rfl ⟨⟨?_,?_,roomy (by simp [held])⟩,?_⟩
      · simp only [replica,held]
        rfl
      · simp [replica,held,WorkLoop.holding]
      · simp only [Replica.perform,replica,held]
        rfl
    | reserving => exact absurd (by rw [held]; rfl) enabled
    | reserved => exact absurd (by rw [held]; rfl) enabled
    | adding entry => exact absurd (by rw [held]; rfl) enabled
  | send =>
    cases held : x.work with
    | adding entry =>
      cases result
      refine .step _ rfl ⟨?_,?_⟩
      · simp [Replica.Enabled,replica,held,WorkLoop.posting]
      · simp only [Replica.perform,replica,held]
        rfl
    | reserving => exact absurd (by rw [held]; rfl) enabled
    | reserved => exact absurd (by rw [held]; rfl) enabled
    | taken entry => exact absurd (by rw [held]; rfl) enabled
  | notify id =>
    cases result
    exact .step _ rfl ⟨trivial,rfl⟩
  | recvStep m =>
    cases result
    refine .stutter rfl ?_
    have idle : x.progress = .receiving := enabled
    simp only [replica,stage,idle]
  | recvError =>
    cases result
    exact .stutter rfl rfl
  | streamEnded =>
    cases result
    refine .stutter rfl ?_
    have idle : x.progress = .receiving := enabled
    simp only [replica,stage,idle]
  | drain =>
    obtain ⟨⟨m,progress⟩,free⟩ := enabled
    simp only [perform,progress] at result
    cases result
    refine .step (.recvStep m) (by simp only [action,progress]) ⟨⟨?_,free⟩,?_⟩
    · simp only [replica,stage,progress]
    · simp only [Replica.perform,replica,stage]
  | meter =>
    obtain ⟨m,progress⟩ := enabled
    have stage : x.replica.stage = .received m := by simp only [replica,Session.stage,progress]
    obtain ⟨loop,context,metered,rfl⟩ := perform_meter progress result
    refine .step _ rfl ⟨⟨m,stage⟩,?_⟩
    simp only [Replica.perform,stage]
    rw [show x.replica.loop.meter ext x.replica.context m = _ from metered]
    rfl
  | deliver =>
    obtain ⟨m,progress⟩ := enabled
    have stage : x.replica.stage = .metered m := by simp only [replica,Session.stage,progress]
    obtain ⟨loop,context,delivered,rfl⟩ := perform_deliver progress result
    refine .step _ rfl ⟨⟨m,stage⟩,?_⟩
    simp only [Replica.perform,stage]
    rw [show x.replica.loop.deliver ext x.replica.context m x.replica.errorRx = _ from delivered]
    rfl

end Session
end BlitzRouter
