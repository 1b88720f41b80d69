import BlitzRouter.Runs
import BlitzRouter.StepReceiver
import BlitzRouter.TokenDelivery

namespace BlitzRouter.Session
open Radix

section Steps
variable {β : Type} [BlockHash β]

structure Step (external : External) (blockSize : Nat) (x : Session β) (a : SessionAct) (x' : Session β) : Prop where
  enabled : x.Enabled a
  result : x.perform external blockSize a = .ok x'

-- How many entries the work loop can still take without another permit.
def mayTake (x : Session β) : Nat := if x.work = .reserved then 1 else 0

-- The entries that left the queue and did not reach the completion loop.
def stranded (x : Session β) : List Entry := x.channel++x.work.posting.toList++x.work.holding

end Steps
end BlitzRouter.Session

namespace BlitzRouter
open Radix

-- The actions left once nobody receives: requests come in, one permit is used
-- up, the engine reports errors.
def SessionAct.orphaned : SessionAct → Bool
  | .commit .. | .nextRequest | .addRequest | .send | .notify _ => true
  | .reserve | .recvStep _ | .recvError | .streamEnded | .drain | .meter | .deliver => false

def commitsIn (history : List SessionAct) : Nat := history.countP SessionAct.commits

namespace Session
variable {β : Type} [BlockHash β] {external : External} {blockSize : Nat} {before x x' : Session β} {a : SessionAct} {history : List SessionAct}

-- A session some steps after the end of its stream.
structure Stalled (before : Session β) (history : List SessionAct) (x : Session β) : Prop where
  ended : x.progress = .ended
  loop : x.loop = before.loop
  orphaned : ∀ a ∈ history, a.orphaned = true
  taken : ∃ taken committed, before.queued++committed = taken++x.queued ∧ x.stranded = before.stranded++taken ∧
    taken.length+x.mayTake ≤ before.mayTake ∧ committed.length = commitsIn history
  bs : x.context.lmetric.bs = before.context.lmetric.bs+commitsIn history
  waitingReqs : x.context.lmetric.waitingReqs = before.context.lmetric.waitingReqs+commitsIn history
  blockHash : x.context.blockHash = before.context.blockHash

theorem commitsIn_concat (history : List SessionAct) (a : SessionAct) :
    commitsIn (history++[a]) = commitsIn history+if a.commits then 1 else 0 := by
  simp [commitsIn,List.countP_append,List.countP_singleton]

omit [BlockHash β] in
theorem Stalled.refl (ended : before.progress = .ended) : Stalled before [] before :=
  ⟨ended,rfl,fun a member => absurd member List.not_mem_nil,⟨[],[],by simp,by simp,by simp,rfl⟩,rfl,rfl,rfl⟩

omit [BlockHash β] in
theorem orphaned_of_enabled (ended : x.progress = .ended) (enabled : x.Enabled a) : a.orphaned = true := by
  have receiving : x.progress ≠ .receiving := by simp [ended]
  cases a with
  | commit request reads cached => rfl
  | nextRequest => rfl
  | addRequest => rfl
  | send => rfl
  | notify id => rfl
  | reserve => exact absurd ended enabled.2.2
  | recvStep m => exact absurd enabled receiving
  | recvError => exact absurd enabled receiving
  | streamEnded => exact absurd enabled receiving
  | drain =>
    obtain ⟨⟨m,progress⟩,_⟩ := enabled
    exact absurd ended (by rw [progress]; exact CompletionProgress.noConfusion)
  | meter =>
    obtain ⟨m,progress⟩ := enabled
    exact absurd ended (by rw [progress]; exact CompletionProgress.noConfusion)
  | deliver =>
    obtain ⟨m,progress⟩ := enabled
    exact absurd ended (by rw [progress]; exact CompletionProgress.noConfusion)

-- A commit puts one entry behind the queue and counts it in.
theorem commit_queued {request : ValidGenerateRequest} {reads : Option Nat} {cached : Observation}
    (result : x.commit external blockSize request reads cached = .ok x') :
    ∃ entry context, x' = {x with context := context,queued := x.queued++[entry]} ∧ context.blockHash = x.context.blockHash ∧
      context.lmetric.bs = x.context.lmetric.bs+1 ∧ context.lmetric.waitingReqs = x.context.lmetric.waitingReqs+1 := by
  unfold commit at result
  cases made : Entry.new external blockSize request reads with
  | none =>
    simp only [made] at result
    cases result
  | some entry =>
    simp only [made] at result
    cases applied : applyDefaultAfter entry x.context cached with
    | error panic =>
      rw [applied] at result
      cases result
    | ok pair =>
      obtain ⟨next,context⟩ := pair
      rw [applied] at result
      cases result
      refine ⟨next,context,rfl,?_⟩
      unfold applyDefaultAfter at applied
      split at applied
      · cases applied
      · split at applied
        · cases applied
        · cases applied
          exact ⟨rfl,rfl,rfl⟩

omit [BlockHash β] in
-- The other actions move at most one entry out of the queue.
theorem Stalled.pass (stalled : Stalled before history x) (orphan : a.orphaned = true) (uncommitted : a.commits = false)
    (context : x'.context = x.context) (loop : x'.loop = x.loop) (progress : x'.progress = x.progress)
    (moved : ∃ more, x.queued = more++x'.queued ∧ x'.stranded = x.stranded++more ∧ more.length+x'.mayTake ≤ x.mayTake) :
    Stalled before (history++[a]) x' := by
  obtain ⟨taken,committed,queue,stranded,few,many⟩ := stalled.taken
  obtain ⟨more,left,further,permit⟩ := moved
  have counted : commitsIn (history++[a]) = commitsIn history := by simp [commitsIn_concat,uncommitted]
  refine ⟨progress.trans stalled.ended,loop.trans stalled.loop,List.forall_mem_append.mpr ⟨stalled.orphaned,by simpa using orphan⟩,
    ⟨taken++more,committed,?_,?_,?_,many.trans counted.symm⟩,?_,?_,context ▸ stalled.blockHash⟩
  · rw [queue,left,List.append_assoc]
  · rw [further,stranded,List.append_assoc]
  · rw [List.length_append]
    omega
  · rw [context,counted,stalled.bs]
  · rw [context,counted,stalled.waitingReqs]

theorem Stalled.commit {request : ValidGenerateRequest} {reads : Option Nat} {cached : Observation} (stalled : Stalled before history x)
    (result : x.commit external blockSize request reads cached = .ok x') : Stalled before (history++[.commit request reads cached]) x' := by
  obtain ⟨taken,committed,queue,stranded,few,many⟩ := stalled.taken
  have counted : commitsIn (history++[.commit request reads cached]) = commitsIn history+1 := commitsIn_concat history _
  obtain ⟨entry,context,rfl,hashed,batch,waiting⟩ := commit_queued result
  refine ⟨stalled.ended,stalled.loop,List.forall_mem_append.mpr ⟨stalled.orphaned,by simp [SessionAct.orphaned]⟩,
    ⟨taken,committed++[entry],?_,stranded,few,?_⟩,?_,?_,hashed.trans stalled.blockHash⟩
  · rw [← List.append_assoc,queue,List.append_assoc]
  · rw [List.length_append,List.length_singleton,counted,many]
  · rw [batch,stalled.bs,counted,Nat.add_assoc]
  · rw [waiting,stalled.waitingReqs,counted,Nat.add_assoc]

theorem Stalled.step (stalled : Stalled before history x) (step : Step external blockSize x a x') : Stalled before (history++[a]) x' := by
  have orphan := orphaned_of_enabled stalled.ended step.enabled
  have result := step.result
  cases a with
  | commit request reads cached => exact stalled.commit result
  | nextRequest =>
    have held : x.work = .reserved := step.enabled
    unfold perform at result
    cases waits : x.queued with
    | nil =>
      simp only [waits] at result
      cases result
      exact stalled.pass orphan rfl rfl rfl rfl ⟨[],waits,by simp [Session.stranded,held,WorkLoop.posting,WorkLoop.holding],Nat.zero_le _⟩
    | cons entry rest =>
      simp only [waits] at result
      cases result
      refine stalled.pass orphan rfl rfl rfl rfl ⟨[entry],waits,?_,?_⟩
      · simp [Session.stranded,held,WorkLoop.posting,WorkLoop.holding]
      · simp [mayTake,held]
  | addRequest =>
    cases held : x.work with
    | taken entry =>
      simp only [perform,held] at result
      cases result
      refine stalled.pass orphan rfl rfl rfl rfl ⟨[],rfl,?_,?_⟩
      · simp [Session.stranded,held,WorkLoop.posting,WorkLoop.holding]
      · simp [mayTake]
    | reserving => exact absurd (by rw [held]; rfl) step.enabled
    | reserved => exact absurd (by rw [held]; rfl) step.enabled
    | adding entry => exact absurd (by rw [held]; rfl) step.enabled
  | send =>
    cases result
    refine stalled.pass orphan rfl rfl rfl rfl ⟨[],rfl,?_,?_⟩
    · have posts := step.enabled
      cases held : x.work with
      | adding entry => simp [Session.stranded,WorkLoop.posting,WorkLoop.holding,held]
      | reserving => exact absurd (by rw [held]; rfl) posts
      | reserved => exact absurd (by rw [held]; rfl) posts
      | taken entry => exact absurd (by rw [held]; rfl) posts
    · simp [mayTake]
  | notify id =>
    cases result
    exact stalled.pass orphan rfl rfl rfl rfl ⟨[],rfl,(List.append_nil _).symm,(Nat.zero_add _).le⟩
  | reserve => cases orphan
  | recvStep m => cases orphan
  | recvError => cases orphan
  | streamEnded => cases orphan
  | drain => cases orphan
  | meter => cases orphan
  | deliver => cases orphan

-- Whatever else happens once the stream of steps has ended: the completion loop
-- stays as it was, at most one entry more leaves the queue and only as far as
-- the channel, and every request ever routed here goes on counting as load.
theorem ended_stalls (ended : before.progress = .ended) (run : Run (Step external blockSize) before history x) : Stalled before history x :=
  run.invariant (I := fun history x => Stalled before history x) (.refl ended) fun _ _ _ _ stalled step => stalled.step step

def exec (external : External) (blockSize : Nat) : Session β → List SessionAct → Option (Session β)
  | x,[] => some x
  | x,a::rest =>
    if x.Enabled a then
      match x.perform external blockSize a with
      | .ok x' => exec external blockSize x' rest
      | .error _ => none
    else none

theorem run_exec {past acts : List SessionAct} (run : Run (Step external blockSize) before past x)
    (executed : x.exec external blockSize acts = some x') : Run (Step external blockSize) before (past++acts) x' := by
  refine run.executed (fun _ => rfl) (fun x a rest t result => ?_) executed
  unfold exec at result
  split at result
  · rename_i allowed
    split at result
    · rename_i next done
      exact ⟨next,⟨allowed,done⟩,result⟩
    · cases result
  · cases result

-- The stream ends while the work loop holds a permit: the request it takes then
-- is lost, and the one after it waits for ever.
def lateRequest : List SessionAct := [.commit (Audit.shortRequest 2) none ⟨0,0⟩,.nextRequest,.addRequest,.send]

theorem ended_stalls_late : ∃ before x : Session RadixTreeBlockHash, before.progress = .ended ∧
    x.queued.map (fun entry => entry.request.requestId) = [2] ∧ x.channel.map (fun entry => entry.request.requestId) = [1] ∧
      Stalled before lateRequest x := by
  obtain ⟨before,ended⟩ : ∃ before, (start ⟨.empty,RadixTreeBlockHash.new 4⟩).exec Audit.plainExternal 16
      [.commit (Audit.shortRequest 1) none ⟨0,0⟩,.reserve,.streamEnded] = some before := Option.isSome_iff_exists.mp (by decide)
  have facts : (((start ⟨.empty,RadixTreeBlockHash.new 4⟩).exec Audit.plainExternal 16
      [.commit (Audit.shortRequest 1) none ⟨0,0⟩,.reserve,.streamEnded]).bind fun before =>
        (before.exec Audit.plainExternal 16 lateRequest).map fun x => (before.progress,x.queued.map fun entry => entry.request.requestId,
          x.channel.map fun entry => entry.request.requestId)) = some (.ended,[2],[1]) := by decide
  rw [ended,Option.bind_some,Option.map_eq_some_iff] at facts
  obtain ⟨x,executed,facts⟩ := facts
  obtain ⟨closed,waits,lost⟩ := Prod.mk.inj facts |>.imp id Prod.mk.inj
  exact ⟨before,x,closed,waits,lost,ended_stalls closed (run_exec .start executed)⟩

end Session
end BlitzRouter
