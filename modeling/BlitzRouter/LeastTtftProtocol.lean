import BlitzRouter.LeastTtft

namespace BlitzRouter
open Radix

variable {β ρ τ : Type} {trained : TrainedPredictor ρ τ} {p p' : PCtx ρ τ}

-- The request a query or an admission under way is about.
def Asker.subject : Asker τ → Option RequestId
  | .idle => none
  | .probed c _ => some c.id
  | .taken c _ _ => some c.id
  | .anchored c _ _ => some c.id
  | .rolling loop => some loop.candidateId
  | .queued requestId _ => some requestId
  | .mirrored requestId => some requestId

-- From the return of `schedule` to the end of the admission the request is not
-- waiting any more, although it still heads the uncommitted buffer.
def Worker.holding : Worker τ → Bool
  | .decided _ _ _ => true
  | .admitting _ _ _ _ => true
  | _ => false

-- The admission that is due.
def Worker.due : Worker τ → List (RequestId × Nat)
  | .decided _ front chosen => [(front.entry.request.requestId,chosen)]
  | _ => []

theorem Rolling.turn_candidate {predict : BatchForPredictor → τ} {limits : StepLimits} {loop next : Rolling τ}
    (turned : loop.turn predict limits = some next) : next.candidateId = loop.candidateId := by
  unfold Rolling.turn at turned
  split at turned
  · cases turned
  · split at turned
    · cases turned
      rfl
    · cases turned
      rfl

-- What a section of a query under way does: it goes on about the same request, or
-- it wrote a rollout of that request back. Before, the cached one can only be taken.
structure QueryMove (p : PCtx ρ τ) (asker : Asker τ) (p' : PCtx ρ τ) (next : Asker τ) : Prop where
  going : next ≠ .idle → next.subject = asker.subject ∧ next.querying = true
  kept : next ≠ .idle → ∀ e, p'.ephemeral = some e → p.ephemeral = some e
  written : next = .idle → ∀ e, p'.ephemeral = some e → e.candidateId = asker.subject

theorem query_move {asker next : Asker τ} {act : AskerAct} (querying : asker.querying = true)
    (moved : askerStep trained p asker act = some (p',next)) : QueryMove p asker p' next := by
  unfold askerStep at moved
  split at moved
  case h_1 => cases querying
  case h_2 =>
    cases moved
    refine ⟨fun _ => ⟨rfl,rfl⟩,fun _ _ held => ?_,nofun⟩
    cases held
  case h_3 | h_4 | h_5 =>
    cases moved
    exact ⟨fun _ => ⟨rfl,rfl⟩,fun _ _ held => held,nofun⟩
  case h_6 =>
    obtain ⟨loop,turned,equal⟩ := Option.map_eq_some_iff.mp moved
    cases equal
    exact ⟨fun _ => ⟨congrArg some (Rolling.turn_candidate turned),rfl⟩,fun _ _ held => held,nofun⟩
  case h_7 =>
    split at moved
    · cases moved
      refine ⟨fun busy => absurd rfl busy,fun busy => absurd rfl busy,fun _ e held => ?_⟩
      cases held
      rfl
    · cases moved
  case h_8 | h_9 | h_10 => cases querying
  case h_11 => cases moved

-- An admission under way changes the cached rollout in its last section only.
theorem admit_move {asker next : Asker τ} {act : AskerAct} (admitting : asker.querying = false) (busy : asker ≠ .idle)
    (moved : askerStep trained p asker act = some (p',next)) :
    next = .idle ∨ next.subject = asker.subject ∧ next.querying = false ∧ next ≠ .idle ∧ p'.ephemeral = p.ephemeral := by
  unfold askerStep at moved
  split at moved
  case h_1 | h_8 => exact absurd rfl busy
  case h_2 | h_3 | h_4 | h_5 | h_6 | h_7 => cases admitting
  case h_9 =>
    cases moved
    exact .inr ⟨rfl,rfl,nofun,rfl⟩
  case h_10 =>
    cases moved
    exact .inl rfl
  case h_11 => cases moved

theorem stepper_candidate {stepper next : Stepper} {act : StepperAct} {e' : EphemeralRollout τ}
    (moved : stepperStep trained p stepper act = some (p',next)) (held : p'.ephemeral = some e') :
    ∃ e, p.ephemeral = some e ∧ e'.candidateId = e.candidateId := by
  unfold stepperStep at moved
  split at moved
  case h_1 | h_2 | h_3 =>
    cases moved
    exact ⟨e',held,rfl⟩
  case h_4 =>
    cases moved
    obtain ⟨e,before,result⟩ := Option.bind_eq_some_iff.mp held
    obtain ⟨_,_,rfl⟩ := EphemeralRollout.maintained_cases result
    exact ⟨e,before,rfl⟩
  case h_5 => cases moved

namespace Cluster
variable {c c' : Cluster ρ τ} {front : Queued} {idx : Nat} {best : Option (Nat × τ)} {rid : RequestId}

-- The first replicas have a rollout of this request cached, or none.
def Bound (c : Cluster ρ τ) (n : Nat) (rid : RequestId) : Prop := ∀ j < n, ∀ e, (c.pctxs j).ephemeral = some e → e.candidateId = some rid

def Heads (c : Cluster ρ τ) (front : Queued) : Prop :=
  ∃ first rest, c.task.uncommitBuffer = first::rest ∧ first.arrival = front.arrival ∧ first.entry.request = front.entry.request

structure Scanning (c : Cluster ρ τ) (front : Queued) (idx : Nat) (best : Option (Nat × τ)) : Prop where
  head : c.Heads front
  bound : c.Bound idx front.entry.request.requestId
  inside : idx ≤ c.numReplicas
  replicas : 0 < c.numReplicas
  best : ∀ b ∈ best, b.1 < c.numReplicas

structure Deciding (c : Cluster ρ τ) (front : Queued) (chosen : Nat) : Prop where
  head : c.Heads front
  bound : c.Bound c.numReplicas front.entry.request.requestId
  inside : chosen < c.numReplicas

-- The rounds of the policy over all replicas: a replica that was asked keeps a
-- rollout of the request until the request is admitted.
def Follows (c : Cluster ρ τ) : Prop :=
  match c.worker with
  | .recv => True
  | .scan _ front idx best => c.Scanning front idx best
  | .probed _ front idx best _ => c.Scanning front idx best ∧ idx < c.numReplicas
  | .query _ front idx best asker =>
    c.Scanning front idx best ∧ idx < c.numReplicas ∧ asker.querying = true ∧ asker.subject = some front.entry.request.requestId
  | .decided _ front chosen => c.Deciding front chosen
  | .admitting _ front chosen asker =>
    c.Deciding front chosen ∧ asker.querying = false ∧ asker ≠ .idle ∧ asker.subject = some front.entry.request.requestId

theorem Bound.update (bound : c.Bound idx rid) {replica : Nat}
    (kept : ∀ e', p'.ephemeral = some e' → ∃ e, (c.pctxs replica).ephemeral = some e ∧ e'.candidateId = e.candidateId) :
    ∀ j < idx, ∀ e, (Cluster.update c.pctxs replica p' j).ephemeral = some e → e.candidateId = some rid := by
  intro j small e held
  by_cases here : j = replica
  · subst here
    rw [Cluster.update,Function.update_self] at held
    obtain ⟨old,before,same⟩ := kept e held
    exact same.trans (bound j small old before)
  · rw [Cluster.update,Function.update_of_ne here] at held
    exact bound j small e held

theorem follows_sse {replica call : Nat} {act : StepperAct} (follows : c.Follows) (moved : c.sseStep trained replica call act = some c') :
    c'.Follows := by
  obtain ⟨⟨p',next⟩,stepped,rfl⟩ := Option.map_eq_some_iff.mp moved
  have bound {n : Nat} {rid : RequestId} (bound : c.Bound n rid) :
      ∀ j < n, ∀ e, (Cluster.update c.pctxs replica p' j).ephemeral = some e → e.candidateId = some rid :=
    bound.update fun _ held => stepper_candidate stepped held
  unfold Follows at follows ⊢
  simp only
  split at follows
  · trivial
  · exact ⟨follows.head,bound follows.bound,follows.inside,follows.replicas,follows.best⟩
  · exact ⟨⟨follows.1.head,bound follows.1.bound,follows.1.inside,follows.1.replicas,follows.1.best⟩,follows.2⟩
  · exact ⟨⟨follows.1.head,bound follows.1.bound,follows.1.inside,follows.1.replicas,follows.1.best⟩,follows.2⟩
  · exact ⟨follows.head,bound follows.bound,follows.inside⟩
  · exact ⟨⟨follows.1.head,bound follows.1.bound,follows.1.inside⟩,follows.2⟩

theorem finish_recv {origin : Option Nat} (ended : c.finish origin = some c') : c'.worker = .recv := by
  unfold finish at ended
  split at ended
  · cases ended
    rfl
  · split at ended
    · cases ended
      rfl
    · cases ended

theorem follows_recv (idle : c.worker = .recv) : c.Follows := by
  unfold Follows
  rw [idle]
  trivial

theorem follows_schedule {origin : Option Nat} (begun : c.schedule origin = some c') : c'.Follows := by
  unfold schedule at begun
  split at begun
  · exact follows_recv (finish_recv begun)
  · rename_i front rest waiting
    split at begun
    · exact follows_recv (finish_recv begun)
    · rename_i replicas
      cases begun
      exact ⟨⟨front,rest,waiting,rfl,rfl⟩,nofun,Nat.zero_le _,Nat.pos_of_ne_zero replicas,nofun⟩

theorem follows_resume {origin : Option Nat} (resumed : c.resume origin = some c') : c'.Follows := by
  unfold resume at resumed
  split at resumed
  · exact follows_recv (finish_recv resumed)
  · split at resumed
    · cases resumed
    · exact follows_schedule resumed
    · exact follows_recv (finish_recv resumed)

theorem better_inside [LT τ] [DecidableLT τ] {n : Nat} {ttft : Option τ} (small : idx < n) (inside : ∀ b ∈ best, b.1 < n) : ∀ b ∈ better best idx ttft, b.1 < n := by
  unfold better
  split
  · exact inside
  · rintro _ ⟨⟩
    exact small
  · split
    · rintro _ ⟨⟩
      exact small
    · exact inside

theorem chosen_inside {n : Nat} (replicas : 0 < n) (inside : ∀ b ∈ best, b.1 < n) : chosenReplica best < n := by
  unfold chosenReplica
  cases best with
  | none => exact replicas
  | some b => exact inside b rfl

theorem follows_admitSection {origin : Option Nat} {chosen : Nat} {asker : Asker τ} {act : AskerAct} (deciding : c.Deciding front chosen)
    (admitting : asker.querying = false) (busy : asker ≠ .idle) (subject : asker.subject = some front.entry.request.requestId)
    (moved : c.admitSection trained origin front chosen asker act = some c') : c'.Follows := by
  obtain ⟨⟨p',next⟩,stepped,rest⟩ := Option.bind_eq_some_iff.mp moved
  rcases admit_move admitting busy stepped with rfl | ⟨same,still,going,kept⟩
  · obtain ⟨committed,_,resumed⟩ := Option.bind_eq_some_iff.mp rest
    exact follows_resume resumed
  · have bound : ∀ j < c.numReplicas, ∀ e, (Cluster.update c.pctxs chosen p' j).ephemeral = some e →
        e.candidateId = some front.entry.request.requestId :=
      deciding.bound.update fun e held => ⟨e,kept ▸ held,rfl⟩
    have goes : Follows ({c with pctxs := Cluster.update c.pctxs chosen p',worker := .admitting origin front chosen next} : Cluster ρ τ) :=
      ⟨⟨deciding.head,bound,deciding.inside⟩,still,going,same.trans subject⟩
    cases next with
    | idle => exact absurd rfl going
    | _ =>
      cases rest
      exact goes

section
variable [Zero τ] [Add τ] [LT τ] [DecidableLT τ]

theorem follows_querySection {origin : Option Nat} {asker : Asker τ} {act : AskerAct} (scanning : c.Scanning front idx best)
    (small : idx < c.numReplicas) (querying : asker.querying = true) (subject : asker.subject = some front.entry.request.requestId)
    (moved : c.querySection trained origin front idx best asker act = some c') : c'.Follows := by
  obtain ⟨⟨p',next⟩,stepped,rfl⟩ := Option.map_eq_some_iff.mp moved
  have move := query_move querying stepped
  have earlier : ∀ j < idx, ∀ e, (Cluster.update c.pctxs idx p' j).ephemeral = some e → e.candidateId = some front.entry.request.requestId := by
    intro j before e held
    rw [Cluster.update,Function.update_of_ne (by omega)] at held
    exact scanning.bound j before e held
  by_cases ended : next = .idle
  · subst ended
    refine ⟨scanning.head,?_,small,scanning.replicas,better_inside small scanning.best⟩
    intro j before e held
    rcases Nat.lt_succ_iff_lt_or_eq.mp before with old | rfl
    · exact earlier j old e held
    · simp only [Cluster.update,Function.update_self] at held
      exact (move.written rfl e held).trans subject
  · obtain ⟨same,still⟩ := move.going ended
    have goes : Follows ({c with pctxs := Cluster.update c.pctxs idx p',worker := .query origin front idx best next} : Cluster ρ τ) :=
      ⟨⟨scanning.head,earlier,scanning.inside,scanning.replicas,scanning.best⟩,small,still,same.trans subject⟩
    cases next with
    | idle => exact absurd rfl ended
    | _ => exact goes

variable [BlockHash β]

theorem recordDecision_request {entry next : Entry} {context context' : ScheduleContext β}
    (recorded : recordDecision entry context = .ok (next,context')) : next.request = entry.request := by
  unfold recordDecision at recorded
  split at recorded
  · cases recorded
  · split at recorded
    · cases recorded
    · cases recorded
      rfl

theorem follows_workerStep {act : WorkerAct β} (follows : c.Follows) (moved : c.workerStep trained act = some c') : c'.Follows := by
  unfold workerStep at moved
  split at moved
  · exact follows_schedule moved
  · exact follows_resume moved
  · rename_i origin front idx best context here
    have scanning : c.Scanning front idx best := by simpa only [Follows,here] using follows
    split at moved
    · rename_i small
      obtain ⟨hits,_,rfl⟩ := Option.map_eq_some_iff.mp moved
      exact ⟨⟨scanning.head,scanning.bound,scanning.inside,scanning.replicas,scanning.best⟩,small⟩
    · cases moved
  · rename_i origin front idx best hits here
    have probed : c.Scanning front idx best ∧ idx < c.numReplicas := by simpa only [Follows,here] using follows
    obtain ⟨scanning,small⟩ := probed
    cases moved
    refine ⟨⟨scanning.head,?_,scanning.inside,scanning.replicas,scanning.best⟩,small,rfl,rfl⟩
    exact scanning.bound.update fun e held => ⟨e,held,rfl⟩
  · rename_i origin front idx best asker act here
    have asked : c.Scanning front idx best ∧ idx < c.numReplicas ∧ asker.querying = true ∧
        asker.subject = some front.entry.request.requestId := by simpa only [Follows,here] using follows
    exact follows_querySection asked.1 asked.2.1 asked.2.2.1 asked.2.2.2 moved
  · rename_i origin front idx best context here
    have scanning : c.Scanning front idx best := by simpa only [Follows,here] using follows
    split at moved
    · rename_i all
      split at moved
      · rename_i entry context' recorded
        cases moved
        have request := recordDecision_request recorded
        obtain ⟨first,rest,waiting,arrival,same⟩ := scanning.head
        refine ⟨⟨first,rest,waiting,arrival,same.trans request.symm⟩,?_,chosen_inside scanning.replicas scanning.best⟩
        have bound := scanning.bound
        rw [all,← request] at bound
        exact bound
      · cases moved
    · cases moved
  · rename_i origin front chosen here
    have deciding : c.Deciding front chosen := by simpa only [Follows,here] using follows
    obtain ⟨⟨p',next⟩,stepped,rest⟩ := Option.bind_eq_some_iff.mp moved
    cases stepped
    cases rest
    refine ⟨⟨deciding.head,?_,deciding.inside⟩,rfl,nofun,rfl⟩
    exact deciding.bound.update fun e held => ⟨e,held,rfl⟩
  · rename_i origin front chosen asker act here
    have admitting : c.Deciding front chosen ∧ asker.querying = false ∧ asker ≠ .idle ∧
        asker.subject = some front.entry.request.requestId := by simpa only [Follows,here] using follows
    exact follows_admitSection admitting.1 admitting.2.1 admitting.2.2.1 admitting.2.2.2 moved
  · cases moved

theorem follows_step {act : ClusterAct β} (follows : c.Follows) (moved : c.step trained act = some c') : c'.Follows := by
  cases act with
  | worker act => exact follows_workerStep follows moved
  | sse replica call act => exact follows_sse follows moved

end

def waiting (c : Cluster ρ τ) : List Queued := if c.worker.holding then c.task.uncommitBuffer.tail else c.task.uncommitBuffer

-- Scheduled and waiting requests are the appended ones in their order, and the
-- admissions follow what `schedule` returned.
structure Booked (c : Cluster ρ τ) : Prop where
  ids : c.scheduled.map Prod.fst++c.waiting.map (fun x => x.entry.request.requestId) =
    c.task.log.appends.map fun entry => entry.request.requestId
  calls : c.scheduled = c.admissions++c.worker.due

-- Between two requests, when none is held.
structure Even (c : Cluster ρ τ) : Prop where
  ids : c.scheduled.map Prod.fst++c.task.uncommitBuffer.map (fun x => x.entry.request.requestId) =
    c.task.log.appends.map fun entry => entry.request.requestId
  calls : c.scheduled = c.admissions

theorem Booked.even (booked : c.Booked) (free : c.worker.holding = false) : c.Even := by
  obtain ⟨ids,calls⟩ := booked
  rw [waiting,free,if_neg Bool.false_ne_true] at ids
  refine ⟨ids,?_⟩
  rw [calls]
  cases worker : c.worker with
  | decided origin front chosen =>
    rw [worker] at free
    cases free
  | _ => exact List.append_nil _

-- What the way from one request to the next leaves as it was.
structure Kept (c c' : Cluster ρ τ) : Prop where
  free : c'.worker.holding = false
  due : c'.worker.due = []
  scheduled : c'.scheduled = c.scheduled
  admissions : c'.admissions = c.admissions
  waiting : c'.task.uncommitBuffer = c.task.uncommitBuffer
  appends : c'.task.log.appends = c.task.log.appends

theorem Kept.booked (kept : Kept c c') (even : c.Even) : c'.Booked := by
  constructor
  · rw [Cluster.waiting,kept.free,if_neg Bool.false_ne_true,kept.scheduled,kept.waiting,kept.appends]
    exact even.ids
  · rw [kept.due,kept.scheduled,kept.admissions,even.calls,List.append_nil]

theorem finish_kept {origin : Option Nat} (ended : c.finish origin = some c') : Kept c c' := by
  unfold finish at ended
  split at ended
  · cases ended
    exact ⟨rfl,rfl,rfl,rfl,rfl,rfl⟩
  · split at ended
    · rename_i task answered
      cases ended
      rcases QueueTask.answer_eq answered with ⟨_,rfl⟩ | ⟨first,rest,_,rfl⟩
      · exact ⟨rfl,rfl,rfl,rfl,rfl,rfl⟩
      · exact ⟨rfl,rfl,rfl,rfl,rfl,rfl⟩
    · cases ended

theorem schedule_kept {origin : Option Nat} (begun : c.schedule origin = some c') : Kept c c' := by
  unfold schedule at begun
  split at begun
  · exact finish_kept begun
  · split at begun
    · exact finish_kept begun
    · cases begun
      exact ⟨rfl,rfl,rfl,rfl,rfl,rfl⟩

theorem resume_kept {origin : Option Nat} (resumed : c.resume origin = some c') : Kept c c' := by
  unfold resume at resumed
  split at resumed
  · exact finish_kept resumed
  · split at resumed
    · cases resumed
    · exact schedule_kept resumed
    · exact finish_kept resumed

theorem Even.pushBack (even : c.Even) (entry : Entry) : Even {c with task := c.task.pushBack entry} := by
  refine ⟨?_,even.calls⟩
  have ids := even.ids
  simp only [QueueTask.pushBack,List.map_append,List.map_cons,List.map_nil,← List.append_assoc,ids]

theorem commit_eq {chosen : Nat} (committed : c.commit front chosen = some c') :
    c'.scheduled = c.scheduled ∧ c'.admissions = c.admissions ∧ c'.task.uncommitBuffer = c.task.uncommitBuffer.tail ∧
      c'.task.log.appends = c.task.log.appends := by
  unfold commit at committed
  split at committed
  · rename_i task placed
    cases committed
    obtain ⟨buffer,_,rfl⟩ := QueueTask.commit_eq placed
    exact ⟨rfl,rfl,rfl,rfl⟩
  · cases committed

theorem admitSection_booked {origin : Option Nat} {chosen : Nat} {asker : Asker τ} {act : AskerAct}
    (ids : c.scheduled.map Prod.fst++c.task.uncommitBuffer.tail.map (fun x => x.entry.request.requestId) =
      c.task.log.appends.map fun entry => entry.request.requestId) (calls : c.scheduled = c.admissions)
    (moved : c.admitSection trained origin front chosen asker act = some c') :
    c'.Booked ∧ c'.task.log.appends = c.task.log.appends := by
  obtain ⟨⟨p',next⟩,stepped,rest⟩ := Option.bind_eq_some_iff.mp moved
  cases next with
  | idle =>
    obtain ⟨committed,placed,resumed⟩ := Option.bind_eq_some_iff.mp rest
    obtain ⟨scheduled,admissions,waiting,appends⟩ := commit_eq placed
    have kept := resume_kept resumed
    refine ⟨kept.booked ⟨?_,?_⟩,kept.appends.trans appends⟩
    · rw [scheduled,waiting,appends]
      exact ids
    · rw [scheduled,admissions]
      exact calls
  | _ =>
    cases rest
    exact ⟨⟨ids,calls.trans (List.append_nil _).symm⟩,rfl⟩

theorem Follows.promotes {origin : Option Nat} {chosen : Nat} (follows : c.Follows) (last : c.worker = .admitting origin front chosen (.mirrored rid)) :
    admitArm (c.pctxs chosen).ephemeral rid = .promote ∨ admitArm (c.pctxs chosen).ephemeral rid = .empty := by
  have admitting : c.Deciding front chosen ∧ (some rid : Option RequestId) = some front.entry.request.requestId := by
    simp only [Follows,last] at follows
    exact ⟨follows.1,follows.2.2.2⟩
  obtain ⟨deciding,same⟩ := admitting
  unfold admitArm
  cases cached : (c.pctxs chosen).ephemeral with
  | none => exact .inr rfl
  | some e =>
    have bound := deciding.bound chosen deciding.inside e cached
    exact .inl (if_pos (bound.trans same.symm))

section
variable [Zero τ] [Add τ] [LT τ] [DecidableLT τ]

theorem querySection_kept {origin : Option Nat} {asker : Asker τ} {act : AskerAct}
    (moved : c.querySection trained origin front idx best asker act = some c') : Kept c c' := by
  obtain ⟨⟨p',next⟩,stepped,rfl⟩ := Option.map_eq_some_iff.mp moved
  cases next <;> exact ⟨rfl,rfl,rfl,rfl,rfl,rfl⟩

variable [BlockHash β]

def WorkerAct.appended : WorkerAct β → List Entry
  | .recv (.append entry) => [entry]
  | _ => []

theorem booked_workerStep {act : WorkerAct β} (follows : c.Follows) (booked : c.Booked) (moved : c.workerStep trained act = some c') :
    c'.Booked ∧ c'.task.log.appends = c.task.log.appends++WorkerAct.appended act := by
  unfold workerStep at moved
  split at moved
  · rename_i entry here
    have kept := schedule_kept moved
    refine ⟨kept.booked ((booked.even (by rw [here]; rfl)).pushBack entry),kept.appends.trans ?_⟩
    rfl
  · rename_i replicaIdx here
    have kept := resume_kept moved
    exact ⟨kept.booked (booked.even (by rw [here]; rfl)),kept.appends.trans (List.append_nil _).symm⟩
  · rename_i origin front idx best context here
    have even := booked.even (by rw [here]; rfl)
    split at moved
    · obtain ⟨hits,_,rfl⟩ := Option.map_eq_some_iff.mp moved
      have kept : Kept c {c with worker := .probed origin front idx best hits} := ⟨rfl,rfl,rfl,rfl,rfl,rfl⟩
      exact ⟨kept.booked even,(List.append_nil _).symm⟩
    · cases moved
  · rename_i origin front idx best hits here
    have kept := querySection_kept moved
    exact ⟨kept.booked (booked.even (by rw [here]; rfl)),kept.appends.trans (List.append_nil _).symm⟩
  · rename_i origin front idx best asker act here
    have kept := querySection_kept moved
    exact ⟨kept.booked (booked.even (by rw [here]; rfl)),kept.appends.trans (List.append_nil _).symm⟩
  · rename_i origin front idx best context here
    have scanning : c.Scanning front idx best := by simpa only [Follows,here] using follows
    have even := booked.even (by rw [here]; rfl)
    split at moved
    · split at moved
      · rename_i entry context' recorded
        cases moved
        obtain ⟨first,rest,heads,_,same⟩ := scanning.head
        refine ⟨⟨?_,?_⟩,(List.append_nil _).symm⟩
        · have ids := even.ids
          rw [heads] at ids
          change (c.scheduled++[(entry.request.requestId,chosenReplica best)]).map Prod.fst++
            c.task.uncommitBuffer.tail.map (fun x => x.entry.request.requestId) = _
          rw [heads,← ids,recordDecision_request recorded,← same]
          simp
        · change c.scheduled++_ = c.admissions++_
          rw [even.calls]
          rfl
      · cases moved
    · cases moved
  · rename_i origin front chosen here
    obtain ⟨ids,calls⟩ := booked
    rw [waiting,here] at ids
    rw [here] at calls
    obtain ⟨next,appends⟩ := admitSection_booked
      (c := {c with admissions := c.admissions++[(front.entry.request.requestId,chosen)]}) ids calls moved
    exact ⟨next,appends.trans (List.append_nil _).symm⟩
  · rename_i origin front chosen asker act here
    obtain ⟨ids,calls⟩ := booked
    rw [waiting,here] at ids
    rw [here] at calls
    obtain ⟨next,appends⟩ := admitSection_booked ids (calls.trans (List.append_nil _)) moved
    exact ⟨next,appends.trans (List.append_nil _).symm⟩
  · cases moved

def ClusterAct.appended : ClusterAct β → List Entry
  | .worker act => WorkerAct.appended act
  | .sse _ _ _ => []

theorem booked_step {act : ClusterAct β} (follows : c.Follows) (booked : c.Booked) (moved : c.step trained act = some c') :
    c'.Booked ∧ c'.task.log.appends = c.task.log.appends++ClusterAct.appended act := by
  cases act with
  | worker act => exact booked_workerStep follows booked moved
  | sse replica call act =>
    obtain ⟨⟨p',next⟩,stepped,rfl⟩ := Option.map_eq_some_iff.mp moved
    exact ⟨⟨booked.ids,booked.calls⟩,(List.append_nil _).symm⟩

-- What holds after a history of actions.
structure Protocol (acts : List (ClusterAct β)) (c : Cluster ρ τ) : Prop where
  follows : c.Follows
  booked : c.Booked
  appends : c.task.log.appends = acts.flatMap ClusterAct.appended

theorem protocol_holds {numReplicas blockSize tokenBudget : Nat} {regressor : ρ} {acts : List (ClusterAct β)}
    (run : Interleaving trained numReplicas regressor blockSize tokenBudget acts c) : Protocol acts c := by
  refine run.invariant ⟨trivial,⟨rfl,rfl⟩,rfl⟩ ?_
  intro past c act c' held moved
  obtain ⟨booked,appends⟩ := booked_step held.follows held.booked moved
  refine ⟨follows_step held.follows moved,booked,?_⟩
  rw [appends,held.appends]
  simp

theorem protocol_never_violated (trained : TrainedPredictor ρ τ) (numReplicas : Nat) (regressor : ρ) (blockSize tokenBudget : Nat)
    (acts : List (ClusterAct β)) (c : Cluster ρ τ) (run : Interleaving trained numReplicas regressor blockSize tokenBudget acts c)
    (distinct : ((acts.flatMap ClusterAct.appended).map fun entry => entry.request.requestId).Nodup) :
    (∀ origin front chosen rid, c.worker = .admitting origin front chosen (.mirrored rid) →
        admitArm (c.pctxs chosen).ephemeral rid ≠ .violation) ∧
      (c.scheduled.map Prod.fst).Nodup ∧ c.scheduled = c.admissions++c.worker.due ∧ (c.worker = .recv → c.admissions = c.scheduled) := by
  obtain ⟨follows,booked,appends⟩ := protocol_holds run
  refine ⟨?_,?_,booked.calls,?_⟩
  · intro origin front chosen rid last
    rcases follows.promotes last with promote | empty
    · rw [promote]
      nofun
    · rw [empty]
      nofun
  · rw [← appends,← booked.ids] at distinct
    exact distinct.of_append_left
  · intro idle
    exact (booked.even (by rw [idle]; rfl)).calls.symm

def execute (trained : TrainedPredictor ρ τ) (c : Cluster ρ τ) (acts : List (ClusterAct β)) : Option (Cluster ρ τ) := acts.foldlM (step trained) c

theorem run_execute {past acts : List (ClusterAct β)} {first : Cluster ρ τ}
    (run : Run (fun c act c' => c.step trained act = some c') first past c) (executed : c.execute trained acts = some c') :
    Run (fun c act c' => c.step trained act = some c') first (past++acts) c' := by
  refine run.executed (fun _ => rfl) (fun c act rest t result => ?_) executed
  simp only [execute,List.foldlM_cons,Option.bind_eq_bind,Option.bind_eq_some_iff] at result
  exact result

end

def emptyContext : ScheduleContext RadixTreeBlockHash := ⟨⟨0,0,0,0⟩,.new 4⟩

def askedReplica : List (WorkerAct RadixTreeBlockHash) :=
  [.probe emptyContext,.startQuery,.section_ .take,.section_ .loadAnchor,.section_ .cloneSched,.section_ .simulateOneSlot,
    .section_ .simulateOneSlot,.section_ .writeBack]

def lonelyEntry (predHitNblks : Nat) : Entry := ⟨⟨7,16,[]⟩,⟨[],[],0,predHitNblks,none,16,defaultBlockHash,[],0⟩,⟨[],none⟩,0⟩

-- One request, asked of two replicas and admitted up to the last section.
def admittedSections : List (WorkerAct RadixTreeBlockHash) :=
  [.recv (.append (lonelyEntry noneSentinel))]++askedReplica++askedReplica++[.decide emptyContext,.startAdmit,.section_ .insertRequest]

def admittedActs : List (ClusterAct RadixTreeBlockHash) := admittedSections.map .worker

theorem protocol_never_violated_admitted : ∃ c : Cluster Unit Nat, Interleaving PCtx.tokenPredictor 2 () 16 1024 admittedActs c ∧
    c.worker = .admitting none ⟨0,lonelyEntry 0⟩ 0 (.mirrored 7) ∧ admitArm (c.pctxs 0).ephemeral 7 ≠ .violation := by
  have ends : ((start 2 () 16 1024 : Cluster Unit Nat).execute PCtx.tokenPredictor admittedActs).map worker =
      some (.admitting none ⟨0,lonelyEntry 0⟩ 0 (.mirrored 7)) := rfl
  obtain ⟨c,executed,last⟩ := Option.map_eq_some_iff.mp ends
  have run := run_execute .start executed
  obtain ⟨never,_⟩ := protocol_never_violated PCtx.tokenPredictor 2 () 16 1024 admittedActs c run (by decide)
  exact ⟨c,run,last,never none _ 0 7 last⟩

end Cluster
end BlitzRouter
