import BlitzRouter.TokenDelivery

namespace BlitzRouter
open Radix CompletionLoop Replica

-- A session with what was said on its channels so far: requests handed to the
-- engine, entries drained, errors notified, steps received, outputs passed on,
-- and requests acknowledged or dropped at the end of an iteration.
structure Delivery (β : Type) where
  session : Session β
  audit : Audit β
  added : List RequestId
  drained : List RequestId
  notified : List RequestId
  received : List EngineStepOutput
  passed : List RequestStepOutput
  acknowledged : List RequestId
  dropped : List RequestId

namespace Delivery
variable {β : Type}

def requestIds (entries : List Entry) : List RequestId := entries.map fun entry => entry.request.requestId

section
variable [BlockHash β]

def start (context : ScheduleContext β) : Delivery β := ⟨.start context,.start context,[],[],[],[],[],[],[]⟩

def auditAfter (ext : External) (x : Delivery β) (a : SessionAct) (s : Session β) : Audit β :=
  match x.session.action a with
  | some b => x.audit.after ext b s.replica
  | none => x.audit

def after (ext : External) (x : Delivery β) (a : SessionAct) (s : Session β) : Delivery β :=
  let x' := {x with session := s,audit := x.auditAfter ext a s}
  match a with
  | .addRequest => {x' with added := x.added++requestIds x.session.work.holding}
  | .notify id => {x' with notified := x.notified++[id]}
  | .recvStep m => {x' with received := x.received++[m]}
  | .drain => {x' with drained := x.drained++requestIds x.session.channel}
  | .deliver =>
    match x.session.progress with
    | .metered m => {x' with passed := x.passed++m.outputs,acknowledged := x.acknowledged++m.abortedRequests,
                             dropped := x.dropped++x.session.loop.dropReady}
    | _ => x'
  | _ => x'

-- What the gateway and the engine promise: a request id is used once; a step
-- names a request at most once, after it was added and not after it finished.
def Lawful (x : Delivery β) : SessionAct → Prop
  | .commit request _ _ => request.requestId ∉ x.audit.committed
  | .recvStep m => (m.outputs.map RequestStepOutput.requestId).Nodup ∧
      ∀ o ∈ m.outputs, o.requestId ∈ x.added ∧ ∀ p ∈ x.passed, p.isFinished = true → p.requestId ≠ o.requestId
  | _ => True

structure Step (ext : External) (blockSize : Nat) (x : Delivery β) (a : SessionAct) (x' : Delivery β) : Prop where
  enabled : x.session.Enabled a
  result : x.session.perform ext blockSize a = .ok x'.session
  lawful : x.Lawful a
  history : x' = x.after ext a x'.session

end

-- Every entry there is: waiting, on its way, served, excepted, leaving or gone.
def everywhere (x : Session β) : List Entry :=
  x.replica.pending++(x.loop.entries.entries.map fun row => row.2)++(x.loop.exceptContext.entries.entries.map fun row => row.2)++
    x.loop.tempLeavingEntries.map Prod.snd++x.loop.released

section Invariant
variable {x x' : Delivery β}

-- The session seen as a replica, with the books of the replica.
structure Rooted (x : Delivery β) : Prop where
  same : x.audit.replica = x.session.replica
  balanced : Balanced x.audit.replica x.audit.committed x.audit.charged
  roomy : x.session.Roomy

theorem Rooted.placed (rooted : x.Rooted) : Placed x.audit.committed x.session.replica := rooted.same ▸ rooted.balanced.placed

-- Every request is with the loop or on its way to it, with its channel as the
-- outputs passed on so far left it.
structure Faithful (ext : External) (x : Delivery β) : Prop where
  rooted : x.Rooted
  roster : (x.drained++requestIds x.session.replica.pending).Perm x.audit.committed
  added : ∀ id ∈ x.added, id ∈ x.drained ∨ id ∈ requestIds (x.session.work.posting.toList++x.session.channel)
  distinct : (x.session.progress.current.map RequestStepOutput.requestId).Nodup
  named : ∀ o ∈ x.session.progress.current, o.requestId ∈ x.added ∧ ¬FinishedIn x.passed o.requestId
  reached : x.session.stage ≠ .idle → ∀ o ∈ x.session.progress.current, o.requestId ∈ x.drained
  past : ∀ o ∈ x.passed, o.requestId ∈ x.drained
  visible : ∀ id ∈ x.drained, (x.session.loop.find id).isSome = true ∨ FinishedIn (x.passed++x.session.progress.counted) id ∨
    id ∈ x.acknowledged ∨ id ∈ x.dropped
  leaving : ∀ o ∈ x.session.progress.counted, (x.session.loop.find o.requestId).isSome = true ∨
    o.requestId ∈ x.session.loop.tempLeavingEntries.map Prod.fst ∨ o.requestId ∈ x.acknowledged ∨ o.requestId ∈ x.dropped
  received : x.received.flatMap EngineStepOutput.outputs = x.passed++x.session.progress.current
  untouched : ∀ entry ∈ x.session.replica.pending, Untouched x.passed entry
  lines : Lines ext x.passed x.notified x.session.loop
  noticed : ∀ id ∈ x.session.errorRx, id ∈ x.notified

theorem Faithful.committed {ext : External} (faithful : Faithful ext x) {id : RequestId} (member : id ∈ x.drained) :
    id ∈ x.audit.committed :=
  faithful.roster.mem_iff.mp (List.mem_append_left _ member)

theorem Faithful.apart {ext : External} (faithful : Faithful ext x) {entry : Entry} (waits : entry ∈ x.session.replica.pending) :
    entry.request.requestId ∉ x.drained := by
  intro member
  have once := faithful.roster.nodup_iff.mpr faithful.rooted.balanced.once
  exact (List.nodup_append.mp once).2.2 _ member _ (List.mem_map_of_mem waits) rfl

-- Between the halves of an iteration entries only move towards the loop, while
-- others are committed and errors are notified.
theorem Faithful.handed {ext : External} (faithful : Faithful ext x) {s : Session β} {audit : Audit β} {added notified : List RequestId}
    (rooted : Rooted {x with session := s,audit := audit,added := added,notified := notified})
    (loop : s.loop = x.session.loop) (progress : s.progress = x.session.progress)
    (roster : (x.drained++requestIds s.replica.pending).Perm audit.committed)
    (untouched : ∀ entry ∈ s.replica.pending, Untouched x.passed entry)
    (posted : ∀ id ∈ added, id ∈ x.drained ∨ id ∈ requestIds (s.work.posting.toList++s.channel))
    (grown : ∀ id ∈ x.added, id ∈ added) (more : ∀ id ∈ x.notified, id ∈ notified) (noticed : ∀ id ∈ s.errorRx, id ∈ notified) :
    Faithful ext {x with session := s,audit := audit,added := added,notified := notified} := by
  have stage : s.stage = x.session.stage := by rw [Session.stage,Session.stage,progress]
  refine ⟨rooted,roster,posted,?_,?_,?_,faithful.past,?_,?_,?_,untouched,?_,noticed⟩
  · simp only [progress]
    exact faithful.distinct
  · simp only [progress]
    exact fun o member => (faithful.named o member).imp_left (grown _)
  · simp only [progress,stage]
    exact faithful.reached
  · simp only [progress,loop]
    exact faithful.visible
  · simp only [progress,loop]
    exact faithful.leaving
  · simp only [progress]
    exact faithful.received
  · simp only [loop]
    exact faithful.lines.mono more

variable {ext : External} {a : SessionAct}

theorem faithful_start (blockHash : β) : Faithful ext (start ⟨.empty,blockHash⟩) := by
  have rooted : Rooted (start ⟨.empty,blockHash⟩) := ⟨rfl,balanced_start blockHash,fun held => absurd rfl held⟩
  exact ⟨rooted,List.Perm.refl [],nofun,List.nodup_nil,nofun,nofun,nofun,nofun,nofun,rfl,nofun,lines_new ext,nofun⟩

@[simp] theorem after_session (s : Session β) : (x.after ext a s).session = s := by
  cases a with
  | deliver => simp only [after]; split <;> rfl
  | _ => rfl

@[simp] theorem after_audit (s : Session β) : (x.after ext a s).audit = x.auditAfter ext a s := by
  cases a with
  | deliver => simp only [after]; split <;> rfl
  | _ => rfl

theorem committed_after (s : Session β) (other : a.commits = false) :
    (x.auditAfter ext a s).committed = x.audit.committed := by
  unfold auditAfter
  cases seen : x.session.action a with
  | none => rfl
  | some b =>
    have none : committedBy b = [] := by
      cases a with
      | drain =>
        simp only [Session.action] at seen
        split at seen <;> cases seen
        rfl
      | commit request reads cached => cases other
      | addRequest => cases seen; rfl
      | send => cases seen; rfl
      | notify id => cases seen; rfl
      | meter => cases seen; rfl
      | deliver => cases seen; rfl
      | reserve => cases seen
      | nextRequest => cases seen
      | recvStep m => cases seen
      | recvError => cases seen
      | streamEnded => cases seen
    simp only [Audit.after,none,List.append_nil]

theorem Faithful.orderly (faithful : Faithful ext x) (lawful : x.Lawful a) {b : Action} (seen : x.session.action a = some b) :
    Orderly x.audit.committed b := by
  cases a with
  | commit request reads cached => cases seen; exact lawful
  | addRequest => cases seen; exact trivial
  | send => cases seen; exact trivial
  | notify id => cases seen; exact trivial
  | drain =>
    have distinct := faithful.distinct
    simp only [Session.action] at seen
    split at seen
    · rename_i m progress
      cases seen
      rw [progress] at distinct
      exact distinct
    · cases seen
  | meter => cases seen; exact trivial
  | deliver => cases seen; exact trivial
  | reserve => cases seen
  | nextRequest => cases seen
  | recvStep m => cases seen
  | recvError => cases seen
  | streamEnded => cases seen

theorem Faithful.moved (faithful : Faithful ext x) {s : Session β} {audit : Audit β} {added notified : List RequestId}
    (rooted : Rooted {x with session := s,audit := audit,added := added,notified := notified})
    (loop : s.loop = x.session.loop) (progress : s.progress = x.session.progress) (committed : audit.committed = x.audit.committed)
    (perm : s.replica.pending.Perm x.session.replica.pending)
    (posted : ∀ id ∈ added, id ∈ x.drained ∨ id ∈ requestIds (s.work.posting.toList++s.channel))
    (grown : ∀ id ∈ x.added, id ∈ added) (more : ∀ id ∈ x.notified, id ∈ notified) (noticed : ∀ id ∈ s.errorRx, id ∈ notified) :
    Faithful ext {x with session := s,audit := audit,added := added,notified := notified} := by
  refine faithful.handed rooted loop progress ?_ (fun entry member => faithful.untouched entry (perm.mem_iff.mp member)) posted grown more noticed
  have ids : (requestIds s.replica.pending).Perm (requestIds x.session.replica.pending) := perm.map _
  rw [committed]
  exact (ids.append_left x.drained).trans faithful.roster

theorem Faithful.addRequest (faithful : Faithful ext x) {entry : Entry} (held : x.session.work = .taken entry)
    (rooted : Rooted (x.after ext .addRequest {x.session with work := .adding entry})) :
    Faithful ext (x.after ext .addRequest {x.session with work := .adding entry}) := by
  have posted := faithful.added
  rw [held] at posted
  refine faithful.moved rooted rfl rfl ?_ ?_ ?_ (fun _ member => List.mem_append_left _ member) (fun _ member => member) faithful.noticed
  · exact committed_after _ rfl
  · simp only [Session.replica,Replica.pending,held,WorkLoop.holding,WorkLoop.posting,Option.toList_none,Option.toList_some,List.append_nil,
      List.nil_append]
    exact (List.perm_append_singleton entry x.session.queued).append_right x.session.channel
  · intro id member
    rw [held] at member
    rcases List.mem_append.mp member with old | new
    · exact (posted id old).imp_right fun there => List.mem_cons_of_mem _ there
    · rw [List.mem_singleton.mp new]
      exact .inr List.mem_cons_self

theorem Faithful.send (faithful : Faithful ext x) {entry : Entry} (held : x.session.work = .adding entry)
    (rooted : Rooted (x.after ext .send {x.session with channel := x.session.channel++[entry],work := .reserving})) :
    Faithful ext (x.after ext .send {x.session with channel := x.session.channel++[entry],work := .reserving}) := by
  have posted := faithful.added
  rw [held] at posted
  refine faithful.moved rooted rfl rfl ?_ ?_ ?_ (fun _ member => member) (fun _ member => member) faithful.noticed
  · exact committed_after _ rfl
  · simp only [Session.replica,Replica.pending,held,WorkLoop.holding,WorkLoop.posting,Option.toList_none,Option.toList_some,List.append_nil,
      List.nil_append,List.append_assoc]
    exact List.perm_append_comm.append_left x.session.queued
  · intro id member
    refine (posted id member).imp_right fun there => ?_
    simp only [requestIds,WorkLoop.posting,Option.toList_some,Option.toList_none,List.nil_append,List.map_append] at there ⊢
    exact (List.mem_append.mp there).elim (List.mem_append_right _) (List.mem_append_left _)

-- Steps of the completion loop.
theorem Faithful.recvStep {m : EngineStepOutput} (faithful : Faithful ext x) (idle : x.session.progress = .receiving)
    (lawful : x.Lawful (.recvStep m)) (rooted : Rooted (x.after ext (.recvStep m) {x.session with progress := .arrived m})) :
    Faithful ext (x.after ext (.recvStep m) {x.session with progress := .arrived m}) := by
  have received := faithful.received
  have visible := faithful.visible
  rw [idle] at received visible
  refine ⟨rooted,faithful.roster,faithful.added,lawful.1,fun o member => ⟨(lawful.2 o member).1,?_⟩,fun stage => absurd rfl stage,
    faithful.past,visible,nofun,?_,faithful.untouched,faithful.lines,faithful.noticed⟩
  · exact fun ⟨p,passed,ends,same⟩ => (lawful.2 o member).2 p passed ends same
  · simp only [after,List.flatMap_append,received]
    simp only [CompletionProgress.current,List.append_nil,List.flatMap_cons,List.flatMap_nil]

theorem Faithful.streamEnded (faithful : Faithful ext x) (idle : x.session.progress = .receiving)
    (rooted : Rooted (x.after ext .streamEnded {x.session with progress := .ended})) :
    Faithful ext (x.after ext .streamEnded {x.session with progress := .ended}) := by
  have received := faithful.received
  have visible := faithful.visible
  rw [idle] at received visible
  exact ⟨rooted,faithful.roster,faithful.added,List.nodup_nil,nofun,nofun,faithful.past,visible,nofun,received,faithful.untouched,
    faithful.lines,faithful.noticed⟩

-- The drain makes every entry of the channel visible.
theorem Faithful.drain {m : EngineStepOutput} (faithful : Faithful ext x) (arrived : x.session.progress = .arrived m)
    (free : x.session.work.posting = none)
    (rooted : Rooted (x.after ext .drain {x.session with loop := x.session.loop.drain x.session.channel,channel := [],progress := .drained m})) :
    Faithful ext (x.after ext .drain {x.session with loop := x.session.loop.drain x.session.channel,channel := [],progress := .drained m}) := by
  have placed := faithful.rooted.placed
  have drained : Drained x.session.loop x.session.channel (x.session.loop.drain x.session.channel) := placed.drained
  have waits : ∀ entry ∈ x.session.channel, entry ∈ x.session.replica.pending := fun entry member => List.mem_append_right _ member
  have posted := faithful.added
  rw [free,Option.toList_none,List.nil_append] at posted
  have distinct := faithful.distinct
  have named := faithful.named
  have received := faithful.received
  have visible := faithful.visible
  rw [arrived] at distinct named received visible
  have ahead : ∀ {entry : Entry}, entry ∈ x.session.work.holding++x.session.queued++x.session.work.posting.toList++[] →
      entry ∈ x.session.replica.pending := fun member => List.mem_append_left _ (by rw [List.append_nil] at member; exact member)
  refine ⟨rooted,?_,?_,distinct,named,?_,?_,?_,nofun,received,fun entry member => faithful.untouched entry (ahead member),
    faithful.lines.drain fun entry member => faithful.untouched entry (waits entry member),faithful.noticed⟩
  · rw [after_audit,committed_after _ rfl]
    refine List.Perm.trans ?_ faithful.roster
    simp only [after,requestIds,Session.replica,Replica.pending,List.map_append,List.append_assoc,List.append_nil]
    refine List.Perm.append_left x.drained (List.perm_append_comm.trans ?_)
    simp only [List.append_assoc]
    exact List.Perm.refl _
  · exact fun id member => .inl (List.mem_append.mpr (posted id member))
  · exact fun _ o member => List.mem_append.mpr (posted _ (named o member).1)
  · exact fun o member => List.mem_append_left _ (faithful.past o member)
  · intro id member
    rcases List.mem_append.mp member with old | new
    · refine (visible id old).imp_left fun there => ?_
      have found := drained.found id (placed.sound.known_of_find there)
      simp only [after,found]
      exact there
    · refine .inl ?_
      obtain ⟨entry,inside,same⟩ := List.mem_map.mp new
      have known := (drained.known id).mpr (.inr new)
      simp only [after,find,Option.isSome_or,Bool.or_eq_true]
      rcases known with there | record
      · exact .inl there
      · rw [drained.except] at record
        exact absurd (.inr (same ▸ record)) (placed.outside entry (waits entry inside))

theorem Faithful.deliver {m : EngineStepOutput} (faithful : Faithful ext x) (metered : x.session.progress = .metered m) {loop : CompletionLoop}
    {context : ScheduleContext β} (delivered : x.session.loop.deliver ext x.session.context m x.session.errorRx = .ok (loop,context))
    (rooted : Rooted (x.after ext .deliver {x.session with loop := loop,context := context,errorRx := [],progress := .receiving})) :
    Faithful ext (x.after ext .deliver {x.session with loop := loop,context := context,errorRx := [],progress := .receiving}) := by
  have placed := faithful.rooted.placed
  have distinct := faithful.distinct
  have named := faithful.named
  have received := faithful.received
  have visible := faithful.visible
  have reached := faithful.reached (by simp [Session.stage,metered])
  rw [metered] at distinct named received visible reached
  simp only [CompletionProgress.counted] at visible
  obtain ⟨left,passed,_⟩ := deliver_cases delivered
  obtain ⟨lines,tracked⟩ := faithful.lines.passGenerations placed.sound placed.cancel (fun o member => (named o member).2) distinct
    faithful.noticed passed
  have history : x.after ext .deliver {x.session with loop := loop,context := context,errorRx := [],progress := .receiving} =
      {x with session := {x.session with loop := loop,context := context,errorRx := [],progress := .receiving},
              audit := x.auditAfter ext .deliver {x.session with loop := loop,context := context,errorRx := [],progress := .receiving},
              passed := x.passed++m.outputs,acknowledged := x.acknowledged++m.abortedRequests,
              dropped := x.dropped++x.session.loop.dropReady} := by
    simp only [after,metered]
  rw [history] at rooted ⊢
  refine ⟨rooted,?_,faithful.added,List.nodup_nil,by simp [CompletionProgress.current],fun stage => absurd rfl stage,fun o member => ?_,
    fun id member => ?_,by simp [CompletionProgress.counted],?_,
    fun entry member => ⟨(faithful.untouched entry member).silent,fun o inside => ?_⟩,lines,by simp⟩
  · rw [committed_after (a := .deliver) _ rfl]
    exact faithful.roster
  · exact (List.mem_append.mp member).elim (faithful.past o) (reached o)
  · simp only [CompletionProgress.counted,List.append_nil,List.mem_append]
    rcases visible id member with there | finished | acked | gone
    · rcases tracked id there with kept | finished | acked | ready
      · exact .inl kept
      · exact .inr (.inl (finishedIn_append.mpr (.inr finished)))
      · exact .inr (.inr (.inl (.inr acked)))
      · exact .inr (.inr (.inr (.inr ready)))
    · exact .inr (.inl finished)
    · exact .inr (.inr (.inl (.inl acked)))
    · exact .inr (.inr (.inr (.inl gone)))
  · simp only [received,CompletionProgress.current,List.append_nil]
  · rcases List.mem_append.mp inside with old | new
    · exact (faithful.untouched entry member).unnamed o old
    · intro same
      exact faithful.apart member (same ▸ reached o new)

variable [BlockHash β] {blockSize : Nat}

theorem roomy_step {s s' : Session β} (roomy : s.Roomy) (enabled : s.Enabled a) (result : s.perform ext blockSize a = .ok s') :
    s'.Roomy := by
  cases a with
  | commit request reads cached =>
    obtain ⟨_,work,channel,_⟩ := Session.commit_refines result
    intro held
    rw [channel]
    exact roomy (work ▸ held)
  | reserve => cases result; exact fun _ => enabled.2.1
  | nextRequest =>
    have held : s.work = .reserved := enabled
    have room := roomy (by simp [held])
    simp only [Session.perform] at result
    split at result <;> cases result
    · exact fun other => absurd rfl other
    · exact fun _ => room
  | addRequest =>
    simp only [Session.perform] at result
    split at result
    · rename_i entry held
      cases result
      exact fun _ => roomy (by simp [held])
    · cases result
      exact roomy
  | send => cases result; exact fun other => absurd rfl other
  | notify id => cases result; exact roomy
  | recvStep m => cases result; exact roomy
  | recvError => cases result; exact roomy
  | streamEnded => cases result; exact roomy
  | drain =>
    simp only [Session.perform] at result
    split at result <;> cases result
    · exact fun _ => Nat.succ_pos _
    · exact roomy
  | meter =>
    obtain ⟨m,progress⟩ := enabled
    obtain ⟨_,_,_,rfl⟩ := Session.perform_meter progress result
    exact roomy
  | deliver =>
    obtain ⟨m,progress⟩ := enabled
    obtain ⟨_,_,_,rfl⟩ := Session.perform_deliver progress result
    exact roomy

theorem Faithful.rooted_step (faithful : Faithful ext x) (step : Step ext blockSize x a x') : x'.Rooted := by
  have rooted := faithful.rooted
  have refined := Session.refines rooted.roomy step.enabled step.result
  have roomy := roomy_step rooted.roomy step.enabled step.result
  have audit : x'.audit = x.auditAfter ext a x'.session := by
    rw [step.history,after_audit,after_session]
  refine ⟨?_,?_,roomy⟩
  · rw [audit,auditAfter]
    cases refined with
    | stutter unseen same => simp only [unseen,rooted.same,same]
    | step b seen _ => simp only [seen,Audit.after]
  · rw [audit,auditAfter]
    cases refined with
    | stutter unseen same =>
      simp only [unseen]
      exact rooted.balanced
    | step b seen taken =>
      simp only [seen]
      have next : x.audit.Step ext blockSize b (x.audit.after ext b x'.session.replica) :=
        ⟨rooted.same ▸ taken,faithful.orderly step.lawful seen,rfl⟩
      exact (Audit.balanced_step rooted.balanced next).1

theorem Faithful.commit {request : ValidGenerateRequest} {reads : Option Nat} {cached : Observation} (faithful : Faithful ext x)
    {s : Session β} (rooted : Rooted (x.after ext (.commit request reads cached) s)) (fresh : request.requestId ∉ x.audit.committed)
    (result : x.session.commit ext blockSize request reads cached = .ok s) : Faithful ext (x.after ext (.commit request reads cached) s) := by
  obtain ⟨committed,work,channel,progress⟩ := Session.commit_refines result
  obtain ⟨_,hits,entry,_,_,done⟩ := commit_cases committed
  have named : entry.request.requestId = request.requestId := congrArg (fun a : Account => a.request.requestId) done.account
  have perm : s.replica.pending.Perm (entry::x.session.replica.pending) := by
    rw [done.result]
    simp only [Replica.pending,List.append_assoc]
    exact List.perm_append_comm_assoc x.session.replica.queued [entry] _
  have loop : s.loop = x.session.loop := congrArg Replica.loop done.result
  have errors : s.errorRx = x.session.errorRx := congrArg Replica.errorRx done.result
  refine faithful.handed rooted loop progress ?_ (fun e member => ?_) ?_ (fun _ member => member) (fun _ member => member) ?_
  · have ids : (requestIds s.replica.pending).Perm (request.requestId::requestIds x.session.replica.pending) := by
      rw [← named]
      exact perm.map _
    refine (ids.append_left x.drained).trans (List.perm_middle.trans ?_)
    exact (faithful.roster.cons request.requestId).trans (List.perm_append_singleton request.requestId x.audit.committed).symm
  · rcases List.mem_cons.mp (perm.mem_iff.mp member) with rfl | waits
    · refine ⟨by rw [done.channel],fun o delivered same => ?_⟩
      exact fresh (named ▸ same ▸ faithful.committed (faithful.past o delivered))
    · exact faithful.untouched e waits
  · rw [work,channel]
    exact faithful.added
  · rw [errors]
    exact faithful.noticed

theorem Faithful.meter {m : EngineStepOutput} (faithful : Faithful ext x) (drained : x.session.progress = .drained m) {loop : CompletionLoop}
    {context : ScheduleContext β} (metered : x.session.loop.meter ext x.session.context m = .ok (loop,context))
    (rooted : Rooted (x.after ext .meter {x.session with loop := loop,context := context,progress := .metered m})) :
    Faithful ext (x.after ext .meter {x.session with loop := loop,context := context,progress := .metered m}) := by
  have placed := faithful.rooted.placed
  have distinct := faithful.distinct
  have named := faithful.named
  have received := faithful.received
  have visible := faithful.visible
  have reached := faithful.reached (by simp [Session.stage,drained])
  rw [drained] at distinct named received visible reached
  simp only [CompletionProgress.counted,List.append_nil] at visible
  have tracked : ∀ id, (x.session.loop.find id).isSome = true → (loop.find id).isSome = true ∨ Leaves m.outputs loop id :=
    fun id inside => placed.sound.meter_tracked metered inside
  refine ⟨rooted,?_,faithful.added,distinct,named,fun _ => reached,faithful.past,fun id member => ?_,fun o member => ?_,
    received,faithful.untouched,faithful.lines.meter placed.sound metered,faithful.noticed⟩
  · rw [after_audit,committed_after _ rfl]
    exact faithful.roster
  · rcases visible id member with there | finished | rest
    · rcases tracked id there with kept | leaves
      · exact .inl kept
      · exact .inr (.inl (finishedIn_append.mpr (.inr leaves.1)))
    · exact .inr (.inl (finishedIn_append.mpr (.inl finished)))
    · exact .inr (.inr rest)
  · rcases visible o.requestId (reached o member) with there | finished | rest
    · exact (tracked _ there).imp_right fun leaves => .inl leaves.2
    · exact absurd finished (named o member).2
    · exact .inr (.inr rest)

-- Every step keeps the invariant, whichever of the two loops takes it.
theorem Faithful.step (faithful : Faithful ext x) (step : Step ext blockSize x a x') : Faithful ext x' := by
  have rooted := faithful.rooted_step step
  obtain ⟨enabled,result,lawful,history⟩ := step
  rw [history] at rooted ⊢
  generalize x'.session = s' at result rooted ⊢
  clear history
  cases a with
  | commit request reads cached => exact faithful.commit rooted lawful result
  | reserve =>
    cases result
    refine faithful.moved rooted rfl rfl rfl ?_ ?_ (fun _ member => member) (fun _ member => member) faithful.noticed
    · simp only [Session.replica,Replica.pending,enabled.1]
      exact List.Perm.refl _
    · have posted := faithful.added
      rwa [enabled.1] at posted
  | nextRequest =>
    have held : x.session.work = .reserved := enabled
    have posted := faithful.added
    rw [held] at posted
    simp only [Session.perform] at result
    split at result <;> cases result
    · rename_i waiting
      refine faithful.moved rooted rfl rfl rfl ?_ posted (fun _ member => member) (fun _ member => member) faithful.noticed
      simp only [Session.replica,Replica.pending,held,waiting]
      exact List.Perm.refl _
    · rename_i entry rest waiting
      refine faithful.moved rooted rfl rfl rfl ?_ posted (fun _ member => member) (fun _ member => member) faithful.noticed
      simp only [Session.replica,Replica.pending,held,waiting]
      exact List.Perm.refl _
  | addRequest =>
    cases held : x.session.work with
    | taken entry =>
      simp only [Session.perform,held] at result
      cases result
      exact faithful.addRequest held rooted
    | reserving => exact absurd (by rw [held]; rfl) enabled
    | reserved => exact absurd (by rw [held]; rfl) enabled
    | adding entry => exact absurd (by rw [held]; rfl) enabled
  | send =>
    cases held : x.session.work with
    | adding entry =>
      simp only [Session.perform,held] at result
      cases result
      exact faithful.send held rooted
    | reserving => exact absurd (by rw [held]; rfl) enabled
    | reserved => exact absurd (by rw [held]; rfl) enabled
    | taken entry => exact absurd (by rw [held]; rfl) enabled
  | notify id =>
    cases result
    refine faithful.moved rooted rfl rfl ?_ (List.Perm.refl _) faithful.added (fun _ member => member)
      (fun _ member => List.mem_append_left _ member) ?_
    · exact committed_after _ rfl
    · intro key member
      exact (List.mem_append.mp member).elim (fun old => List.mem_append_left _ (faithful.noticed key old)) (List.mem_append_right _)
  | recvStep m =>
    cases result
    exact faithful.recvStep enabled lawful rooted
  | recvError =>
    cases result
    exact faithful
  | streamEnded =>
    cases result
    exact faithful.streamEnded enabled rooted
  | drain =>
    obtain ⟨⟨m,arrived⟩,free⟩ := enabled
    simp only [Session.perform,arrived] at result
    cases result
    exact faithful.drain arrived free rooted
  | meter =>
    obtain ⟨m,drained⟩ := enabled
    obtain ⟨loop,context,metered,rfl⟩ := Session.perform_meter drained result
    exact faithful.meter drained metered rooted
  | deliver =>
    obtain ⟨m,metered⟩ := enabled
    obtain ⟨loop,context,delivered,rfl⟩ := Session.perform_deliver metered result
    exact faithful.deliver metered delivered rooted

end Invariant

section Results
variable {x x' : Delivery β} {ext : External} {a : SessionAct}

-- Every output of a step finds its request when its turn comes: first in the maps
-- of the loop; then there, or among the requests that left in the fast path. Out
-- are the requests that were acknowledged or dropped in earlier iterations.
def Visible (ext : External) (x : Delivery β) : Prop :=
  (∀ m before o later, x.session.progress = .drained m → m.outputs = before++o::later → o.requestId ∉ x.acknowledged →
    o.requestId ∉ x.dropped → ∀ s d, x.session.loop.meterOutputs ext (startDelta m) before = .ok (s,d) →
      (s.find o.requestId).isSome = true) ∧
  ∀ m before o later, x.session.progress = .metered m → m.outputs = before++o::later → o.requestId ∉ x.acknowledged →
    o.requestId ∉ x.dropped → ∀ s, x.session.loop.slowPath ext before = .ok s →
      (s.find o.requestId).isSome = true ∨ o.requestId ∈ s.tempLeavingEntries.map Prod.fst

theorem distinct_before {before later : List RequestStepOutput} {o : RequestStepOutput}
    (distinct : ((before++o::later).map RequestStepOutput.requestId).Nodup) :
    (before.map RequestStepOutput.requestId).Nodup ∧ ∀ p ∈ before, p.requestId ≠ o.requestId := by
  rw [List.map_append] at distinct
  obtain ⟨front,_,apart⟩ := List.nodup_append.mp distinct
  exact ⟨front,fun p member => apart _ (List.mem_map_of_mem member) _ List.mem_cons_self⟩

theorem Faithful.everyone_visible (faithful : Faithful ext x) : x.Visible ext := by
  have sound := faithful.rooted.placed.sound
  constructor
  · intro m before o later drained split unacked kept s d result
    have distinct := faithful.distinct
    have named := faithful.named
    have visible := faithful.visible
    have reached := faithful.reached (by simp [Session.stage,drained])
    simp only [drained,CompletionProgress.current,CompletionProgress.counted,List.append_nil,split] at distinct named visible reached
    obtain ⟨front,apart⟩ := distinct_before distinct
    have member : o ∈ before++o::later := List.mem_append_right _ List.mem_cons_self
    rw [(sound.metering front result).others o.requestId apart]
    rcases visible o.requestId (reached o member) with there | finished | acked | gone
    · exact there
    · exact absurd finished (named o member).2
    · exact absurd acked unacked
    · exact absurd gone kept
  · intro m before o later metered split unacked kept s result
    have distinct := faithful.distinct
    have leaving := faithful.leaving
    simp only [metered,CompletionProgress.current,CompletionProgress.counted,split] at distinct leaving
    obtain ⟨front,apart⟩ := distinct_before distinct
    have passing := sound.passing result
    rw [passing.leaving]
    rcases leaving o (List.mem_append_right _ List.mem_cons_self) with there | left | acked | gone
    · refine .inl ?_
      unfold find at there ⊢
      rw [Option.isSome_or,Bool.or_eq_true] at there ⊢
      rw [passing.except]
      refine there.imp_left fun inside => (passing.tracked _).mpr ⟨inside,?_⟩
      rintro ⟨p,member,_,same⟩
      exact apart p member same
    · exact .inr left
    · exact absurd acked unacked
    · exact absurd gone kept

theorem keys_requestIds {t : Table RequestId Entry} (keyed : ∀ id entry, t.lookup id = some entry → entry.request.requestId = id) :
    requestIds (t.entries.map fun row => row.2) = t.keys := by
  rw [requestIds,List.map_map]
  exact List.map_congr_left fun row member => keyed row.1 row.2 (AList.mem_lookup_iff.mpr member)

theorem requestIds_append (one more : List Entry) : requestIds (one++more) = requestIds one++requestIds more := List.map_append

-- No request is lost and none is there twice.
theorem Rooted.everyone (rooted : x.Rooted) : (requestIds (everywhere x.session)).Perm x.audit.committed := by
  have sound : x.session.loop.Sound := rooted.placed.sound
  rw [List.perm_iff_count]
  intro id
  have all := rooted.balanced.all id
  rw [rooted.same] at all
  have leaving : (x.session.loop.tempLeavingEntries.map fun row => owner id row.2.account).sum =
      (requestIds (x.session.loop.tempLeavingEntries.map Prod.snd)).count id := by
    have sums := sum_owner (x.session.loop.tempLeavingEntries.map Prod.snd) id
    rwa [List.map_map] at sums
  have released : (x.session.loop.released.map fun entry => owner id entry.account).sum = (requestIds x.session.loop.released).count id :=
    sum_owner x.session.loop.released id
  have pending : (x.session.replica.pending.map fun entry => owner id entry.account).sum = (requestIds x.session.replica.pending).count id :=
    sum_owner x.session.replica.pending id
  have held := balance_owner sound id
  change (x.session.replica.pending.map fun entry => owner id entry.account).sum+(balance (owner id) [] x.session.loop+
    ((x.session.loop.tempLeavingEntries.map fun row => owner id row.2.account).sum+
      (x.session.loop.released.map fun entry => owner id entry.account).sum)) = _ at all
  rw [pending,held,leaving,released] at all
  simp only [everywhere,requestIds_append,keys_requestIds sound.keyed,keys_requestIds sound.keyedExcept,List.count_append] at all ⊢
  omega

theorem Faithful.everyone_delivered (faithful : Faithful ext x) :
    ∀ entry ∈ everywhere x.session, Delivered ext x.passed x.notified entry := by
  have sound : x.session.loop.Sound := faithful.rooted.placed.sound
  have lines := faithful.lines
  intro entry member
  simp only [everywhere,List.mem_append,List.mem_map] at member
  rcases member with (((waits | ⟨row,inside,rfl⟩) | ⟨row,excepted,rfl⟩) | ⟨row,leaves,rfl⟩) | released
  · exact (faithful.untouched entry waits).streaming.delivered
  · have found := AList.mem_lookup_iff.mpr inside
    have streaming := lines.entries row.1 row.2 found
    rw [← sound.keyed row.1 row.2 found] at streaming
    exact streaming.delivered
  · have found := AList.mem_lookup_iff.mpr excepted
    have withheld := lines.except row.1 row.2 found
    rw [← sound.keyedExcept row.1 row.2 found] at withheld
    exact withheld.resolved.delivered
  · exact (lines.leaving row leaves).delivered
  · exact (lines.released entry released).delivered

variable [BlockHash β] {blockSize : Nat} {history : List SessionAct}

theorem faithful_run (blockHash : β) (run : Run (Step ext blockSize) (start ⟨.empty,blockHash⟩) history x) : Faithful ext x :=
  run.invariant (I := fun _ x => Faithful ext x) (faithful_start blockHash) fun _ _ _ _ before step => before.step step

-- In every order of the steps of the two loops: no output misses its request, the
-- outputs of the steps received are passed on in their order, every committed
-- request is in one place, and its channel holds what its client is promised.
theorem tokens_delivered_exactly_once (blockHash : β) (run : Run (Step ext blockSize) (start ⟨.empty,blockHash⟩) history x) :
    x.Visible ext ∧ x.received.flatMap EngineStepOutput.outputs = x.passed++x.session.progress.current ∧
      (requestIds (everywhere x.session)).Perm x.audit.committed ∧
      ∀ entry ∈ everywhere x.session, Delivered ext x.passed x.notified entry := by
  have faithful := faithful_run blockHash run
  exact ⟨faithful.everyone_visible,faithful.received,faithful.rooted.everyone,faithful.everyone_delivered⟩

instance (x : Delivery β) (a : SessionAct) : Decidable (x.Lawful a) :=
  match a with
  | .commit request _ _ => inferInstanceAs (Decidable (request.requestId ∉ x.audit.committed))
  | .recvStep _ => inferInstanceAs (Decidable (_ ∧ _))
  | .reserve | .nextRequest | .addRequest | .send | .notify _ | .recvError | .streamEnded | .drain | .meter | .deliver => .isTrue trivial

def exec (ext : External) (blockSize : Nat) : Delivery β → List SessionAct → Option (Delivery β)
  | x,[] => some x
  | x,a::rest =>
    if x.session.Enabled a ∧ x.Lawful a then
      match x.session.perform ext blockSize a with
      | .ok s => exec ext blockSize (x.after ext a s) rest
      | .error _ => none
    else none

theorem run_exec {from_ : Delivery β} {past acts : List SessionAct} (run : Run (Step ext blockSize) from_ past x)
    (executed : x.exec ext blockSize acts = some x') : Run (Step ext blockSize) from_ (past++acts) x' := by
  refine run.executed (fun _ => rfl) (fun x a rest t result => ?_) executed
  unfold exec at result
  split at result
  · rename_i allowed
    split at result
    · rename_i s done
      exact ⟨x.after ext a s,⟨allowed.1,by rwa [after_session],allowed.2,by rw [after_session]⟩,result⟩
    · cases result
  · cases result

-- The first step arrives while its request is still being added.
def stepBeforeSend : List SessionAct :=
  [.commit (Audit.shortRequest 1) none ⟨0,0⟩,.reserve,.nextRequest,.addRequest,
    .recvStep (Audit.plainStep 1 [Audit.plainOutput 1 .prefill false [5]] []),.send,.drain,.meter,.deliver,
    .recvStep (Audit.plainStep 0 [Audit.plainOutput 1 .decode true [6]] []),.drain,.meter,.deliver]

theorem tokens_delivered_before_send : ∃ x : Delivery RadixTreeBlockHash,
    x.session.loop.released.map (fun entry => entry.responseTx.sent) =
      [[.ok .prefill,.ok (.intermediate ⟨5,""⟩ []),.ok (.intermediate ⟨6,""⟩ []),Message.ended]] ∧
    x.Visible Audit.plainExternal ∧ x.received.flatMap EngineStepOutput.outputs = x.passed++x.session.progress.current ∧
      (requestIds (everywhere x.session)).Perm x.audit.committed ∧
      ∀ entry ∈ everywhere x.session, Delivered Audit.plainExternal x.passed x.notified entry := by
  obtain ⟨x,executed⟩ : ∃ x, (start ⟨.empty,RadixTreeBlockHash.new 4⟩).exec Audit.plainExternal 16 stepBeforeSend = some x :=
    Option.isSome_iff_exists.mp (by decide)
  have facts : ((start ⟨.empty,RadixTreeBlockHash.new 4⟩).exec Audit.plainExternal 16 stepBeforeSend).map
      (fun x => x.session.loop.released.map fun entry => entry.responseTx.sent) =
        some [[.ok .prefill,.ok (.intermediate ⟨5,""⟩ []),.ok (.intermediate ⟨6,""⟩ []),Message.ended]] := by decide
  rw [executed] at facts
  exact ⟨x,Option.some.inj facts,tokens_delivered_exactly_once (RadixTreeBlockHash.new 4) (run_exec .start executed)⟩

end Results
end Delivery
end BlitzRouter
