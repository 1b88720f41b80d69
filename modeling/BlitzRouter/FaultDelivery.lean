import BlitzRouter.GuardedRuns

namespace BlitzRouter
open Radix CompletionLoop

-- The places that look a request up and expect to find it.
def Panic.Lookup : Panic → Prop
  | .abortNotTracked _ => True
  | .faultNotTracked _ => True
  | .exitNotCaptured _ => True
  | .termNotCaptured _ => True
  | .dropNotCaptured _ => True
  | _ => False

namespace CompletionLoop
variable {ext : External} {s s' : CompletionLoop} {d : LMetricDec} {o : RequestStepOutput} {m : EngineStepOutput} {id : RequestId}
  {panic : Panic} {errors ids : List RequestId}

theorem Sound.finished_known (sound : s.Sound) (known : s.Known id) (owed : Entry → Int) : s.finished d id owed ≠ .error panic := by
  unfold finished
  cases kept : s.entries.lookup id with
  | some entry => exact nofun
  | none =>
    rcases known with inside | inside
    · rw [kept] at inside
      cases inside
    · obtain ⟨st,record⟩ := Option.isSome_iff_exists.mp inside
      simp only [(sound.except.exit_spec record).1,bind,Except.bind]
      cases s.exceptContext.entries.lookup id <;> exact nofun

theorem prefillUpdate_lookup (stopped : s.prefillUpdate ext d o = .error panic) : ¬panic.Lookup := by
  unfold prefillUpdate at stopped
  cases found : s.find o.requestId with
  | none =>
    simp only [found] at stopped
    cases stopped
  | some entry =>
    cases hits : entry.blockHashState.setRealTokenHitsGetDiff o.hitTokenCnt with
    | none =>
      simp only [found,hits] at stopped
      cases stopped
      exact not_false
    | some pair =>
      simp only [found,hits] at stopped
      cases stopped

theorem decodeUpdate_ok : s.decodeUpdate ext d o ≠ .error panic := by
  unfold decodeUpdate
  cases s.find o.requestId <;> exact nofun

theorem Sound.meterOutput_panic (sound : s.Sound) (known : o.isFinished = true → s.Known o.requestId)
    (stopped : s.meterOutput ext d o = .error panic) : ¬panic.Lookup := by
  rcases meterOutput_branch ext s d o with invalid | ⟨ends,_,owed,finishes⟩ | ⟨_,_,prefills⟩ | ⟨_,decodes⟩
  · rw [invalid] at stopped
    cases stopped
    exact not_false
  · exact absurd (finishes.symm.trans stopped) (sound.finished_known (known ends) owed)
  · exact prefillUpdate_lookup (prefills.symm.trans stopped)
  · exact absurd (decodes.symm.trans stopped) decodeUpdate_ok

-- Induction on the outputs: metering one leaves every request known.
theorem Sound.meterOutputs_panic {outputs : List RequestStepOutput} (sound : s.Sound)
    (known : ∀ o ∈ outputs, o.isFinished = true → s.Known o.requestId) (stopped : s.meterOutputs ext d outputs = .error panic) :
    ¬panic.Lookup := by
  induction outputs generalizing s d with
  | nil => cases stopped
  | cons o rest ih =>
    unfold meterOutputs at stopped
    cases one : s.meterOutput ext d o with
    | error other =>
      rw [one] at stopped
      cases stopped
      exact sound.meterOutput_panic (known o List.mem_cons_self) one
    | ok pair =>
      obtain ⟨s₁,d₁⟩ := pair
      rw [one] at stopped
      have step := sound.metered one
      refine ih (step.sound sound) (fun p member ends => ?_) stopped
      exact (step.kept.known p.requestId).mpr (known p (List.mem_cons_of_mem o member) ends)

theorem setCurUsed_lookup {reports : List (RequestId × List BlockId)} (stopped : s.setCurUsed reports = .error panic) : ¬panic.Lookup := by
  induction reports generalizing s with
  | nil => cases stopped
  | cons report rest ih =>
    unfold setCurUsed at stopped
    split at stopped
    · exact ih stopped
    · split at stopped
      · cases stopped
        exact not_false
      · split at stopped
        · cases stopped
          exact not_false
        · exact ih stopped

section Cache
variable {β : Type} [BlockHash β] {blockHash : β}

theorem insertNewBlocks_lookup {reports : List (RequestId × List BlockId)}
    (stopped : s.insertNewBlocks blockHash reports = .error panic) : ¬panic.Lookup := by
  induction reports generalizing s blockHash with
  | nil => cases stopped
  | cons report rest ih =>
    unfold insertNewBlocks at stopped
    split at stopped
    · exact ih stopped
    · split at stopped
      · cases stopped
        exact not_false
      · split at stopped
        · cases stopped
          exact not_false
        · cases stopped
          exact not_false
        · split at stopped
          · cases stopped
            exact not_false
          · exact ih stopped

theorem cacheUpdate_lookup (stopped : s.cacheUpdate blockHash m = .error panic) : ¬panic.Lookup := by
  unfold cacheUpdate at stopped
  split at stopped
  · cases stopped
    exact not_false
  · cases used : s.setCurUsed m.curUsedBlockIds with
    | error other =>
      rw [used] at stopped
      cases stopped
      exact setCurUsed_lookup used
    | ok s₁ =>
      rw [used] at stopped
      exact insertNewBlocks_lookup stopped

theorem Sound.meter_panic {context : ScheduleContext β} (sound : s.Sound)
    (known : ∀ o ∈ m.outputs, o.isFinished = true → s.Known o.requestId) (stopped : s.meter ext context m = .error panic) :
    ¬panic.Lookup := by
  unfold meter at stopped
  cases fast : s.fastPath ext m with
  | error other =>
    rw [fast] at stopped
    cases stopped
    exact sound.meterOutputs_panic known fast
  | ok pair =>
    rw [fast] at stopped
    simp only [bind,Except.bind] at stopped
    cases cache : pair.1.cacheUpdate context.blockHash m with
    | error other =>
      rw [cache] at stopped
      cases stopped
      exact cacheUpdate_lookup cache
    | ok pair =>
      rw [cache] at stopped
      cases stopped

end Cache

theorem passOutput_lookup (stopped : s.passOutput ext o = .error panic) : ¬panic.Lookup := by
  unfold passOutput at stopped
  cases advanced : s.advancePhase o with
  | error other =>
    rw [advanced] at stopped
    cases stopped
    unfold advancePhase at advanced
    split at advanced
    · cases advanced
    · rename_i phase found
      cases moved : phase.transition o.requestId o.state with
      | error other =>
        rw [moved] at advanced
        cases advanced
        cases phase <;> cases state : o.state <;> rw [state] at moved <;> cases moved <;> exact not_false
      | ok next =>
        rw [moved] at advanced
        cases advanced
  | ok s₁ =>
    rw [advanced] at stopped
    simp only [bind,Except.bind] at stopped
    split at stopped
    · split at stopped <;> cases stopped
    · split at stopped <;> cases stopped
    · cases stopped
      exact not_false

theorem slowPath_lookup {outputs : List RequestStepOutput} (stopped : s.slowPath ext outputs = .error panic) : ¬panic.Lookup := by
  induction outputs generalizing s with
  | nil => cases stopped
  | cons o rest ih =>
    unfold slowPath at stopped
    cases one : s.passOutput ext o with
    | error other =>
      rw [one] at stopped
      cases stopped
      exact passOutput_lookup one
    | ok s₁ =>
      rw [one] at stopped
      exact ih stopped

-- Requests caught one after the other: each leaves `entries` for a record.
structure Caught (s : CompletionLoop) (ids : List RequestId) (st : ExtStInner) (s' : CompletionLoop) : Prop where
  entries : ∀ key, s'.entries.lookup key = if key ∈ ids then none else s.entries.lookup key
  states : s'.exceptContext.states = s.exceptContext.states++ids.map fun id => ⟨id,st⟩

theorem Caught.refl (s : CompletionLoop) (st : ExtStInner) : Caught s [] st s :=
  ⟨fun key => by simp,by simp⟩

theorem Caught.cons {s₁ : CompletionLoop} {st : ExtStInner} (one : Caught s [id] st s₁) (more : Caught s₁ ids st s') :
    Caught s (id::ids) st s' := by
  refine ⟨fun key => ?_,?_⟩
  · rw [more.entries,one.entries]
    by_cases same : key = id
    · subst same
      simp
    · simp [same]
  · rw [more.states,one.states,List.append_assoc,List.map_cons,List.map_nil,List.singleton_append,List.map_cons]

theorem Caught.known {st : ExtStInner} (caught : Caught s ids st s') (known : s.Known id) : s'.Known id := by
  by_cases member : id ∈ ids
  · refine .inr (List.dlookup_isSome.mpr ?_)
    rw [caught.states,List.keys,List.map_append]
    exact List.mem_append_right _ (List.mem_map.mpr ⟨⟨id,st⟩,List.mem_map.mpr ⟨id,member,rfl⟩,rfl⟩)
  · unfold Known
    rw [caught.entries,if_neg member,caught.states,List.dlookup_append,Option.isSome_or,Bool.or_eq_true]
    exact known.imp_right .inl

theorem Caught.record {st old : ExtStInner} (caught : Caught s ids st s') (found : s.exceptContext.states.dlookup id = some old) :
    s'.exceptContext.states.dlookup id = some old := by
  rw [caught.states,List.dlookup_append,found]
  rfl

theorem Caught.ready {st held : ExtStInner} (caught : Caught s ids st s') (fresh : st.isDropReady = false)
    (found : s'.exceptContext.states.dlookup id = some held) (ready : held.isDropReady = true) :
    s.exceptContext.states.dlookup id = some held := by
  rw [caught.states,List.dlookup_append] at found
  cases record : s.exceptContext.states.dlookup id with
  | some old => rwa [record] at found
  | none =>
    rw [record,Option.none_or] at found
    obtain ⟨other,_,equal⟩ := List.mem_map.mp (List.of_mem_dlookup found)
    cases equal
    rw [fresh] at ready
    cases ready

theorem abortEntry_spec (inside : (s.entries.lookup id).isSome = true) : ∃ s', s.abortEntry id = .ok s' ∧
    Caught s [id] (.waitingTerm false) s' ∧ s'.skippedFaultEntries = s.skippedFaultEntries++[id] := by
  obtain ⟨entry,found⟩ := Option.isSome_iff_exists.mp inside
  unfold abortEntry
  obtain ⟨phases,marked,_⟩ := markExcepted_eq
    {s with skippedFaultEntries := s.skippedFaultEntries++[id],entries := s.entries.erase id} id
  simp only [found,marked]
  refine ⟨_,rfl,⟨fun key => ?_,rfl⟩,rfl⟩
  by_cases same : key = id
  · subst same
    simp
  · simp [same,AList.lookup_erase_ne]

theorem abortEntries_spec (distinct : ids.Nodup) (inside : ∀ id ∈ ids, (s.entries.lookup id).isSome = true) :
    ∃ s', s.abortEntries ids = .ok s' ∧ Caught s ids (.waitingTerm false) s' ∧
      s'.skippedFaultEntries = s.skippedFaultEntries++ids := by
  induction ids generalizing s with
  | nil => exact ⟨s,rfl,.refl s _,by simp⟩
  | cons id rest ih =>
    obtain ⟨fresh,distinct'⟩ := List.nodup_cons.mp distinct
    obtain ⟨s₁,one,caught,skipped⟩ := abortEntry_spec (inside id List.mem_cons_self)
    obtain ⟨s',more,later,skips⟩ := ih distinct' fun key member => by
      rw [caught.entries,if_neg (by rintro equal; exact fresh (List.mem_singleton.mp equal ▸ member))]
      exact inside key (List.mem_cons_of_mem id member)
    refine ⟨s',?_,caught.cons later,by rw [skips,skipped,List.append_assoc]; rfl⟩
    rw [abortEntries,one]
    exact more

theorem faultEntry_spec (inside : (s.entries.lookup id).isSome = true) (fresh : id ∉ s.skippedFaultEntries) :
    ∃ s', s.faultEntry id = .ok s' ∧ Caught s [id] (.faulted true) s' ∧ s'.skippedFaultEntries = s.skippedFaultEntries := by
  obtain ⟨entry,found⟩ := Option.isSome_iff_exists.mp inside
  unfold faultEntry
  obtain ⟨phases,marked,_⟩ := markExcepted_eq {s with entries := s.entries.erase id} id
  simp only [if_neg fresh,found,marked]
  refine ⟨_,rfl,⟨fun key => ?_,rfl⟩,rfl⟩
  by_cases same : key = id
  · subst same
    simp
  · simp [same,AList.lookup_erase_ne]

-- A notification finds its request, unless the same step has just aborted it.
theorem onBackendFault_spec (distinct : errors.Nodup)
    (inside : ∀ id ∈ errors, id ∉ s.skippedFaultEntries → (s.entries.lookup id).isSome = true) :
    ∃ s' ids, s.onBackendFault errors = .ok s' ∧ Caught s ids (.faulted true) s' := by
  induction errors generalizing s with
  | nil => exact ⟨s,[],rfl,.refl s _⟩
  | cons id rest ih =>
    obtain ⟨fresh,distinct'⟩ := List.nodup_cons.mp distinct
    by_cases skip : id ∈ s.skippedFaultEntries
    · obtain ⟨s',ids,more,caught⟩ := ih distinct' fun key member => inside key (List.mem_cons_of_mem id member)
      refine ⟨s',ids,?_,caught⟩
      rw [onBackendFault,faultEntry,if_pos skip]
      exact more
    · obtain ⟨s₁,one,caught,skipped⟩ := faultEntry_spec (inside id List.mem_cons_self skip) skip
      obtain ⟨s',ids,more,later⟩ := ih distinct' fun key member absent => by
        rw [caught.entries,if_neg (by rintro equal; exact fresh (List.mem_singleton.mp equal ▸ member))]
        exact inside key (List.mem_cons_of_mem id member) (skipped ▸ absent)
      refine ⟨s',id::ids,?_,caught.cons later⟩
      rw [onBackendFault,one]
      exact more

theorem Sound.terms_spec (sound : s.Sound) (distinct : ids.Nodup)
    (records : ∀ id ∈ ids, (s.exceptContext.states.dlookup id).isSome = true) :
    ∃ s' left, s.terms ids = .ok (s',left) ∧ s'.entries = s.entries ∧
      ∀ key, s'.exceptContext.states.dlookup key = if key ∈ ids then none else s.exceptContext.states.dlookup key := by
  induction ids generalizing s with
  | nil => exact ⟨s,[],rfl,rfl,fun key => by simp⟩
  | cons id rest ih =>
    obtain ⟨fresh,distinct'⟩ := List.nodup_cons.mp distinct
    obtain ⟨st,record⟩ := Option.isSome_iff_exists.mp (records id List.mem_cons_self)
    have step := Termed.mk (s := s) st record
    have erased : ∀ key, (s.exceptContext.states.kerase id).dlookup key =
        if key = id then none else s.exceptContext.states.dlookup key := by
      intro key
      split
      · rename_i same
        subst same
        exact List.dlookup_kerase key sound.except.single
      · rename_i differs
        exact List.dlookup_kerase_ne differs
    obtain ⟨s',left,more,entries,rest_⟩ := ih (step.leaving sound).sound distinct' fun key member => by
      rw [erased,if_neg (by rintro rfl; exact fresh member)]
      exact records key (List.mem_cons_of_mem id member)
    refine ⟨s',?_,?_,entries,fun key => ?_⟩
    · exact (s.exceptContext.entries.lookup id).toList++left
    · rw [terms]
      simp only [(sound.except.term_spec record).1]
      cases held : s.exceptContext.entries.lookup id with
      | none =>
        simp only [held,Option.toList_none,List.append_nil] at more
        exact more
      | some entry =>
        simp only [held,Option.toList_some] at more
        simp only [bind,Except.bind,more]
        rfl
    · rw [rest_,erased]
      by_cases same : key = id
      · subst same
        simp
      · simp [same]

-- Faulted requests that nothing mentioned since the last iteration.
def dropReady (s : CompletionLoop) : List RequestId := (s.exceptContext.states.filter fun row => row.2.isDropReady).keys

theorem mem_dropReady {st : ExtStInner} (found : s.exceptContext.states.dlookup id = some st) (ready : st.isDropReady = true) :
    id ∈ s.dropReady :=
  List.mem_map.mpr ⟨⟨id,st⟩,List.mem_filter.mpr ⟨List.of_mem_dlookup found,ready⟩,rfl⟩

-- A record goes at the end of an iteration only when it was ready before.
theorem Sound.dropFaulted_spec (sound : s.Sound) : ∃ s' left, s.dropFaulted = .ok (s',left) ∧
    ∀ id, s.Known id → s'.Known id ∨ ∃ st, s.exceptContext.states.dlookup id = some st ∧ st.isDropReady = true := by
  obtain ⟨s',left,result,leaves,dropped,drops,_⟩ := sound.dropFaulted_leaving
  refine ⟨s',left,result,fun id known => ?_⟩
  rcases known with inside | record
  · exact .inl (.inl (leaves.entries ▸ inside))
  · obtain ⟨st,found⟩ := Option.isSome_iff_exists.mp record
    cases ready : st.isDropReady with
    | true => exact .inr ⟨st,found,ready⟩
    | false =>
      refine .inl (.inr ?_)
      rw [drops.rest,found,Option.bind_some,ready]
      rfl

-- What the second half of an iteration needs, on the state it starts from.
structure Deliverable (s : CompletionLoop) (m : EngineStepOutput) (errors : List RequestId) : Prop where
  sound : s.Sound
  cancel : s.cancelReqIds = []
  skipped : s.skippedFaultEntries = []
  orderly : (m.outputs.map RequestStepOutput.requestId).Nodup
  once : errors.Nodup
  timely : ∀ id ∈ errors, (s.entries.lookup id).isSome = true ∧ ∀ o ∈ m.outputs, o.isFinished = true → o.requestId ≠ id
  acknowledged : m.abortedRequests.Nodup
  recorded : ∀ id ∈ m.abortedRequests, (s.exceptContext.states.dlookup id).isSome = true

theorem Deliverable.spec (ext : External) (due : Deliverable s m errors) :
    (∃ panic, s.passGenerations ext m errors = .error panic ∧ ¬panic.Lookup) ∨
    ∃ s' left, s.passGenerations ext m errors = .ok (s',left) ∧ ∀ id, s.Known id → s'.Known id ∨
      (∃ o ∈ m.outputs, o.isFinished = true ∧ o.requestId = id) ∨ id ∈ m.abortedRequests ∨ id ∈ s.dropReady := by
  unfold passGenerations
  cases slow : s.slowPath ext m.outputs with
  | error panic => exact .inl ⟨panic,rfl,slowPath_lookup slow⟩
  | ok s₁ =>
    have passing := due.sound.passing slow
    have before : s.Cancelling := ⟨due.cancel ▸ List.nodup_nil,fun id member => by rw [due.cancel] at member; cases member⟩
    have cancelling := cancelling_slowPath before due.orderly (fun o _ member => by rw [due.cancel] at member; cases member) slow
    have sound₁ : Sound {s₁ with cancelReqIds := []} := passing.sound.uncancelled
    obtain ⟨s₂,aborted,aborts,skips⟩ := abortEntries_spec (s := {s₁ with cancelReqIds := []}) cancelling.1 cancelling.2
    have sound₂ := (sound₁.abortEntries_moving aborted).sound sound₁
    obtain ⟨s₃,ids,faulted,faults⟩ := onBackendFault_spec (s := s₂) due.once fun id member fresh => by
      obtain ⟨inside,stays⟩ := due.timely id member
      have kept : id ∉ s₁.cancelReqIds := fun called => fresh (skips ▸ List.mem_append_right _ called)
      rw [aborts.entries,if_neg kept]
      exact (passing.tracked id).mpr ⟨inside,fun ⟨o,output,ends,same⟩ => stays o output ends same⟩
    have sound₃ := (sound₂.onBackendFault_moving faulted).sound sound₂
    have records : ∀ id st, s.exceptContext.states.dlookup id = some st → s₃.exceptContext.states.dlookup id = some st :=
      fun id st found => faults.record (aborts.record (by rw [← found]; exact congrArg (fun ctx : ExtContext => ctx.states.dlookup id) passing.except))
    obtain ⟨s₄,terminated,ended,entries,rest⟩ := sound₃.terms_spec due.acknowledged fun id member => by
      obtain ⟨st,found⟩ := Option.isSome_iff_exists.mp (due.recorded id member)
      rw [records id st found]
      rfl
    obtain ⟨s₅,dropped,ends,drops⟩ := (sound₃.terms_leaving ended).sound.dropFaulted_spec
    refine .inr ⟨s₅.renew,terminated++dropped,?_,fun id known => ?_⟩
    · simp only [bind,Except.bind,onFrontendAbort,aborted,faulted,ended,ends]
    · by_cases finishing : ∃ o ∈ m.outputs, o.isFinished = true ∧ o.requestId = id
      · exact .inr (.inl finishing)
      have known₁ : Known {s₁ with cancelReqIds := []} id := by
        rcases known with inside | record
        · exact .inl ((passing.tracked id).mpr ⟨inside,finishing⟩)
        · exact .inr (by rw [passing.except]; exact record)
      have known₃ := faults.known (aborts.known known₁)
      by_cases acked : id ∈ m.abortedRequests
      · exact .inr (.inr (.inl acked))
      have known₄ : s₄.Known id := by
        unfold Known
        rw [entries,rest,if_neg acked]
        exact known₃
      rcases drops id known₄ with stays | ⟨st,found,ready⟩
      · exact .inl stays
      · rw [rest,if_neg acked] at found
        have old := aborts.ready rfl (faults.ready rfl found ready) ready
        rw [show (CompletionLoop.exceptContext {s₁ with cancelReqIds := []}) = s.exceptContext from passing.except] at old
        exact .inr (.inr (.inr (mem_dropReady old ready)))

theorem Deliverable.lookup {β : Type} {context : ScheduleContext β} (due : Deliverable s m errors)
    (stopped : s.deliver ext context m errors = .error panic) : ¬panic.Lookup := by
  unfold deliver at stopped
  rcases due.spec ext with ⟨other,result,found⟩ | ⟨s',left,result,_⟩
  · rw [result] at stopped
    cases stopped
    exact found
  · rw [result] at stopped
    cases stopped

end CompletionLoop

-- A replica with what it, the engine and the HTTP client have told each other:
-- who was added to the engine, whose request failed, who finished, whose abort
-- was acknowledged, and which faulted requests were dropped since.
structure Traffic (β : Type) where
  audit : Audit β
  added : List RequestId
  notified : List RequestId
  ended : List RequestId
  acknowledged : List RequestId
  dropped : List RequestId

namespace Traffic
open Replica
variable {β : Type}

def start (context : ScheduleContext β) : Traffic β := ⟨.start context,[],[],[],[],[]⟩

def replica (x : Traffic β) : Replica β := x.audit.replica

def after (x : Traffic β) (a : Action) (audit : Audit β) : Traffic β :=
  match a with
  | .addRequest => {x with audit := audit,added := x.added++(x.replica.queued.head?.map fun entry => entry.request.requestId).toList}
  | .notify id => {x with audit := audit,notified := x.notified++[id]}
  | .recvStep m =>
    {x with audit := audit,acknowledged := x.acknowledged++m.abortedRequests,
            ended := x.ended++(m.outputs.filter RequestStepOutput.isFinished).map RequestStepOutput.requestId}
  | .deliver => {x with audit := audit,dropped := x.dropped++x.replica.loop.dropReady}
  | _ => {x with audit := audit}

-- What the engine and the HTTP client may do: one error a request, after it was
-- added; outputs of added requests that have not finished, one a step; and one
-- acknowledgement for a request that the front end aborted.
def Lawful (x : Traffic β) : Action → Prop
  | .notify id => id ∈ x.added ∧ id ∉ x.notified
  | .recvStep m => (∀ o ∈ m.outputs, o.requestId ∈ x.added ∧ o.requestId ∉ x.ended ∧ o.requestId ∉ x.acknowledged) ∧
      m.abortedRequests.Nodup ∧ ∀ id ∈ m.abortedRequests, x.replica.loop.exceptContext.states.dlookup id ∈
        [some (.waitingTerm false),some (.waitingTerm true),some (.exited true)]
  | _ => True

-- No error is received before its request was, in the step that finishes it or
-- later, or after an earlier step moved it; and no dropped request finishes.
def Timely (x : Traffic β) (a : Action) : Prop :=
  (∀ m ∈ x.replica.delivering a, ∀ id ∈ x.replica.errorRx, (x.replica.loop.entries.lookup id).isSome = true ∧
    ∀ o ∈ m.outputs, o.isFinished = true → o.requestId ≠ id) ∧
  match a with
  | .recvStep m => ∀ o ∈ m.outputs, o.isFinished = true → o.requestId ∉ x.dropped
  | _ => True

variable {x x' : Traffic β} {a : Action}

-- Entries between the work loop and the completion loop.
def posted (r : Replica β) : List RequestId := (r.admitting.toList++r.channel).map fun entry => entry.request.requestId

-- Every added request is on its way, known, or out for one of three reasons.
structure Accounted (x : Traffic β) : Prop where
  placed : Placed x.audit.committed x.replica
  once : x.replica.errorRx.Nodup
  notified : ∀ id ∈ x.replica.errorRx, id ∈ x.notified
  added : ∀ id ∈ x.added, id ∈ posted x.replica ∨ x.replica.loop.Known id ∨ id ∈ x.ended ∨ id ∈ x.acknowledged ∨ id ∈ x.dropped
  acknowledged : ∀ m, stepOf x.replica.stage = some m → m.abortedRequests.Nodup ∧
    ∀ id ∈ m.abortedRequests, id ∈ x.acknowledged ∧ (x.replica.loop.exceptContext.states.dlookup id).isSome = true
  ended : ∀ m, stepOf x.replica.stage = some m → ∀ o ∈ m.outputs, o.isFinished = true → o.requestId ∈ x.ended
  finishing : ∀ m, x.replica.stage = .received m → ∀ o ∈ m.outputs, o.isFinished = true → x.replica.loop.Known o.requestId

theorem accounted_start (context : ScheduleContext β) : (start context).Accounted :=
  ⟨placed_start context,List.nodup_nil,nofun,nofun,nofun,nofun,nofun⟩

-- Between the halves of an iteration entries only move towards the loop.
theorem Accounted.handed (accounted : x.Accounted) {audit : Audit β} {added notified : List RequestId}
    (placed : Placed audit.committed audit.replica) (loop : audit.replica.loop = x.replica.loop)
    (stage : audit.replica.stage = x.replica.stage) (once : audit.replica.errorRx.Nodup)
    (noticed : ∀ id ∈ audit.replica.errorRx, id ∈ notified)
    (way : ∀ id ∈ added, id ∈ posted audit.replica ∨ id ∈ x.added ∧ id ∉ posted x.replica) :
    Accounted {x with audit := audit,added := added,notified := notified} := by
  refine ⟨placed,once,noticed,fun id member => ?_,fun m due => ?_,fun m due => ?_,fun m due => ?_⟩
  · rcases way id member with there | ⟨old,gone⟩
    · exact .inl there
    · refine .inr ?_
      rcases accounted.added id old with there | rest
      · exact absurd there gone
      · simpa only [replica,loop] using rest
  · simp only [replica,loop,stage] at due ⊢
    exact accounted.acknowledged m due
  · simp only [replica,stage] at due
    exact accounted.ended m due
  · simp only [replica,loop,stage] at due ⊢
    exact accounted.finishing m due

theorem Accounted.recvStep {m : EngineStepOutput} (accounted : x.Accounted) {audit : Audit β}
    (placed : Placed audit.committed audit.replica) (free : x.replica.admitting = none) (lawful : x.Lawful (.recvStep m))
    (timely : x.Timely (.recvStep m))
    (result : audit.replica = {x.replica with loop := x.replica.loop.drain x.replica.channel,channel := [],stage := .received m}) :
    Accounted (x.after (.recvStep m) audit) := by
  obtain ⟨outputs,acks,records⟩ := lawful
  have distinct := accounted.placed.distinct
  rw [pending,List.map_append] at distinct
  have drained := accounted.placed.sound.drain (List.nodup_append.mp distinct).2.1 fun entry member =>
    accounted.placed.outside entry (List.mem_append_right _ member)
  have added : ∀ id ∈ x.added, (x.replica.loop.drain x.replica.channel).Known id ∨ id ∈ x.ended ∨ id ∈ x.acknowledged ∨ id ∈ x.dropped := by
    intro id member
    rcases accounted.added id member with there | known | rest
    · rw [posted,free,Option.toList_none,List.nil_append] at there
      exact .inl ((drained.known id).mpr (.inr there))
    · exact .inl ((drained.known id).mpr (.inl known))
    · exact .inr rest
  have finishing : ∀ o ∈ m.outputs, o.isFinished = true → (x.replica.loop.drain x.replica.channel).Known o.requestId := by
    intro o member ends
    obtain ⟨inside,running,unacked⟩ := outputs o member
    rcases added o.requestId inside with known | finished | acked | gone
    · exact known
    · exact absurd finished running
    · exact absurd acked unacked
    · exact absurd gone (timely.2 o member ends)
  refine ⟨placed,?_,?_,?_,?_,?_,?_⟩
  · simp only [after,replica,result]
    exact accounted.once
  · simp only [after,replica,result]
    exact accounted.notified
  · intro id member
    simp only [after,replica,result,List.mem_append]
    rcases added id member with known | finished | acked | gone
    · exact .inr (.inl known)
    · exact .inr (.inr (.inl (.inl finished)))
    · exact .inr (.inr (.inr (.inl (.inl acked))))
    · exact .inr (.inr (.inr (.inr gone)))
  · intro m' due
    simp only [after,replica,result,stepOf,Option.some.injEq] at due
    subst due
    refine ⟨acks,fun id member => ⟨List.mem_append_right _ member,?_⟩⟩
    have record := records id member
    rw [← drained.except] at record
    simp only [List.mem_cons,List.not_mem_nil,or_false,replica] at record
    simp only [after,replica,result]
    rcases record with found | found | found <;> rw [found] <;> rfl
  · intro m' due o member ends
    simp only [after,replica,result,stepOf,Option.some.injEq] at due
    subst due
    exact List.mem_append_right _ (List.mem_map_of_mem (List.mem_filter.mpr ⟨member,ends⟩))
  · intro m' due o member ends
    simp only [after,replica,result,Stage.received.injEq] at due
    subst due
    simp only [after,replica,result]
    exact finishing o member ends

theorem Accounted.deliverable {m : EngineStepOutput} (accounted : x.Accounted) (stage : x.replica.stage = .metered m)
    (timely : x.Timely .deliver) : Deliverable x.replica.loop m x.replica.errorRx := by
  have same : stepOf x.replica.stage = some m := by rw [stage]; rfl
  obtain ⟨acks,records⟩ := accounted.acknowledged m same
  exact ⟨accounted.placed.sound,accounted.placed.cancel,accounted.placed.skipped,accounted.placed.orderly m same,accounted.once,
    timely.1 m (delivering_deliver stage),acks,fun id member => (records id member).2⟩

theorem Accounted.deliver {ext : External} {m : EngineStepOutput} (accounted : x.Accounted) {audit : Audit β}
    (placed : Placed audit.committed audit.replica) (stage : x.replica.stage = .metered m) (timely : x.Timely .deliver)
    {loop : CompletionLoop} {context : ScheduleContext β}
    (delivered : x.replica.loop.deliver ext x.replica.context m x.replica.errorRx = .ok (loop,context))
    (result : audit.replica = {x.replica with loop := loop,context := context,errorRx := [],stage := .idle}) :
    Accounted (x.after .deliver audit) := by
  have same : stepOf x.replica.stage = some m := by rw [stage]; rfl
  obtain ⟨left,passed,_⟩ := deliver_cases delivered
  rcases (accounted.deliverable stage timely).spec ext with ⟨panic,stopped,_⟩ | ⟨s',left',passed',stays⟩
  · rw [passed] at stopped
    cases stopped
  rw [passed] at passed'
  cases passed'
  refine ⟨placed,?_,?_,?_,?_,?_,?_⟩
  · simp only [after,replica,result]
    exact List.nodup_nil
  · simp only [after,replica,result]
    exact nofun
  · intro id member
    simp only [after,replica,result,List.mem_append]
    rcases accounted.added id member with there | known | finished | acked | gone
    · exact .inl there
    · rcases stays id known with known | ⟨o,output,ends,rfl⟩ | acked | ready
      · exact .inr (.inl known)
      · exact .inr (.inr (.inl (accounted.ended m same o output ends)))
      · exact .inr (.inr (.inr (.inl ((accounted.acknowledged m same).2 id acked).1)))
      · exact .inr (.inr (.inr (.inr (.inr ready))))
    · exact .inr (.inr (.inl finished))
    · exact .inr (.inr (.inr (.inl acked)))
    · exact .inr (.inr (.inr (.inr (.inl gone))))
  · intro m' due
    simp only [after,replica,result,stepOf] at due
    cases due
  · intro m' due
    simp only [after,replica,result,stepOf] at due
    cases due
  · intro m' due
    simp only [after,replica,result] at due
    cases due

@[simp] theorem after_audit (x : Traffic β) (a : Action) (audit : Audit β) : (x.after a audit).audit = audit := by cases a <;> rfl

variable [BlockHash β] {ext : External} {blockSize : Nat}

-- A lawful step that meets a further condition on the state before it.
structure Step (ext : External) (blockSize : Nat) (P : Traffic β → Action → Prop) (x : Traffic β) (a : Action) (x' : Traffic β) : Prop where
  taken : x.audit.Step ext blockSize a x'.audit
  lawful : x.Lawful a
  meets : P x a
  history : x' = x.after a x'.audit

theorem Accounted.meter {m : EngineStepOutput} (accounted : x.Accounted) {audit : Audit β}
    (placed : Placed audit.committed audit.replica) (stage : x.replica.stage = .received m) {loop : CompletionLoop}
    {context : ScheduleContext β} (metered : x.replica.loop.meter ext x.replica.context m = .ok (loop,context))
    (result : audit.replica = {x.replica with loop := loop,context := context,stage := .metered m}) :
    Accounted (x.after .meter audit) := by
  obtain ⟨kept,_⟩ := accounted.placed.sound.meter_keeps metered
  have same : stepOf x.replica.stage = some m := by rw [stage]; rfl
  refine ⟨placed,?_,?_,?_,?_,?_,?_⟩
  · simp only [after,replica,result]
    exact accounted.once
  · simp only [after,replica,result]
    exact accounted.notified
  · intro id member
    simp only [after,replica,result,kept.known]
    exact accounted.added id member
  · intro m' due
    simp only [after,replica,result,stepOf,Option.some.injEq] at due
    subst due
    simp only [after,replica,result,kept.recorded]
    exact accounted.acknowledged m same
  · intro m' due
    simp only [after,replica,result,stepOf,Option.some.injEq] at due
    subst due
    exact accounted.ended m same
  · intro m' due
    simp only [after,replica,result] at due
    cases due

theorem Accounted.step (accounted : x.Accounted) (step : Step ext blockSize Timely x a x') : x'.Accounted := by
  have placed := Audit.placed_step accounted.placed step.taken
  obtain ⟨⟨⟨enabled,result⟩,_,_⟩,lawful,timely,history⟩ := step
  rw [history]
  change x.replica.perform ext blockSize a = _ at result
  generalize x'.audit = audit at result placed
  cases a with
  | commit request reads cached =>
    obtain ⟨_,hits,entry,_,_,done⟩ := commit_cases result
    have same := done.result
    refine accounted.handed placed (by rw [same]) (by rw [same]) (by rw [same]; exact accounted.once) (by rw [same]; exact accounted.notified)
      fun id member => ?_
    by_cases there : id ∈ posted x.replica
    · exact .inl (by rw [same]; exact there)
    · exact .inr ⟨member,there⟩
  | addRequest =>
    have same := (Except.ok.inj result).symm
    have free : x.replica.admitting = none := enabled.1
    refine accounted.handed placed (by rw [same]) (by rw [same]) (by rw [same]; exact accounted.once) (by rw [same]; exact accounted.notified)
      fun id member => ?_
    by_cases there : id ∈ posted audit.replica
    · exact .inl there
    · rw [same,posted,List.map_append,List.mem_append,not_or] at there
      rcases List.mem_append.mp member with old | new
      · refine .inr ⟨old,fun before => ?_⟩
        rw [posted,free,Option.toList_none,List.nil_append] at before
        exact there.2 before
      · refine absurd ?_ there.1
        simpa only [Option.toList_map] using new
  | send =>
    have same := (Except.ok.inj result).symm
    refine accounted.handed placed (by rw [same]) (by rw [same]) (by rw [same]; exact accounted.once) (by rw [same]; exact accounted.notified)
      fun id member => ?_
    by_cases there : id ∈ posted x.replica
    · refine .inl ?_
      rw [same,posted,Option.toList_none,List.nil_append,List.map_append,List.mem_append]
      rw [posted,List.map_append,List.mem_append] at there
      exact there.symm
    · exact .inr ⟨member,there⟩
  | notify id =>
    have same := (Except.ok.inj result).symm
    refine accounted.handed placed (by rw [same]) (by rw [same]) ?_ ?_ fun key member => ?_
    · rw [same]
      exact List.nodup_append.mpr ⟨accounted.once,List.nodup_singleton id,fun key old other new => by
        rw [List.mem_singleton.mp new]
        rintro rfl
        exact lawful.2 (accounted.notified key old)⟩
    · rw [same]
      intro key member
      rcases List.mem_append.mp member with old | new
      · exact List.mem_append_left _ (accounted.notified key old)
      · exact List.mem_append_right _ new
    · by_cases there : key ∈ posted x.replica
      · exact .inl (by rw [same]; exact there)
      · exact .inr ⟨member,there⟩
  | recvStep m => exact accounted.recvStep placed enabled.2 lawful timely (Except.ok.inj result).symm
  | meter =>
    obtain ⟨m,stage⟩ := enabled
    change x.replica.stage = .received m at stage
    obtain ⟨loop,context,metered,same⟩ := perform_meter stage result
    exact accounted.meter placed stage metered same
  | deliver =>
    obtain ⟨m,stage⟩ := enabled
    change x.replica.stage = .metered m at stage
    obtain ⟨loop,context,delivered,same⟩ := perform_deliver stage result
    exact accounted.deliver placed stage timely delivered same

theorem commit_lookup {r : Replica β} {request : ValidGenerateRequest} {reads : Option Nat} {cached : Observation} {panic : Panic}
    (stopped : r.commit ext blockSize request reads cached = .error panic) : ¬panic.Lookup := by
  unfold commit at stopped
  split at stopped
  · cases stopped
    exact not_false
  · rename_i entry made
    cases applied : applyDefaultAfter entry r.context cached with
    | ok pair =>
      rw [applied] at stopped
      cases stopped
    | error other =>
      rw [applied] at stopped
      cases stopped
      unfold applyDefaultAfter at applied
      simp only at applied
      split at applied
      · cases applied
        exact not_false
      · split at applied
        · cases applied
          exact not_false
        · cases applied

theorem Accounted.lookup {panic : Panic} (accounted : x.Accounted) (timely : x.Timely a) (enabled : x.replica.Enabled a)
    (stopped : x.replica.perform ext blockSize a = .error panic) : ¬panic.Lookup := by
  cases a with
  | commit request reads cached => exact commit_lookup stopped
  | addRequest => cases stopped
  | send => cases stopped
  | notify id => cases stopped
  | recvStep m => cases stopped
  | meter =>
    obtain ⟨m,stage⟩ := enabled
    simp only [perform,stage] at stopped
    cases metered : x.replica.loop.meter ext x.replica.context m with
    | error other =>
      rw [metered] at stopped
      cases stopped
      exact accounted.placed.sound.meter_panic (accounted.finishing m stage) metered
    | ok pair =>
      rw [metered] at stopped
      cases stopped
  | deliver =>
    obtain ⟨m,stage⟩ := enabled
    simp only [perform,stage] at stopped
    cases delivered : x.replica.loop.deliver ext x.replica.context m x.replica.errorRx with
    | error other =>
      rw [delivered] at stopped
      cases stopped
      exact (accounted.deliverable stage timely).lookup delivered
    | ok pair =>
      rw [delivered] at stopped
      cases stopped

-- Whatever the order of events, every lookup finds its request if no error and no
-- finish comes too late for its own.
theorem lookups_find (context : ScheduleContext β) {history : List Action} (run : Run (Step ext blockSize Timely) (start context) history x)
    (enabled : x.replica.Enabled a) (timely : x.Timely a) :
    ∀ panic, x.replica.perform ext blockSize a = .error panic → ¬panic.Lookup := by
  have accounted : x.Accounted :=
    run.invariant (I := fun _ x => x.Accounted) (accounted_start context) fun _ _ _ _ before step => before.step step
  exact fun panic stopped => accounted.lookup timely enabled stopped

instance (x : Traffic β) (a : Action) : Decidable (x.Lawful a) :=
  match a with
  | .notify id => inferInstanceAs (Decidable (id ∈ x.added ∧ id ∉ x.notified))
  | .recvStep _ => inferInstanceAs (Decidable (_ ∧ _))
  | .commit .. | .addRequest | .send | .meter | .deliver => .isTrue trivial

instance (x : Traffic β) (a : Action) : Decidable (x.Timely a) :=
  match a with
  | .recvStep _ => inferInstanceAs (Decidable (_ ∧ _))
  | .commit .. | .addRequest | .send | .notify _ | .meter | .deliver => inferInstanceAs (Decidable (_ ∧ True))

def exec (ext : External) (blockSize : Nat) (P : Traffic β → Action → Prop) [∀ x a, Decidable (P x a)] :
    Traffic β → List Action → Option (Traffic β)
  | x,[] => some x
  | x,a::rest =>
    if x.replica.Enabled a ∧ Orderly x.audit.committed a ∧ x.Lawful a ∧ P x a then
      match x.replica.perform ext blockSize a with
      | .ok r => exec ext blockSize P (x.after a (x.audit.after ext a r)) rest
      | .error _ => none
    else none

theorem run_exec {P : Traffic β → Action → Prop} [∀ x a, Decidable (P x a)] {from_ : Traffic β} {past actions : List Action}
    (run : Run (Step ext blockSize P) from_ past x) (executed : x.exec ext blockSize P actions = some x') :
    Run (Step ext blockSize P) from_ (past++actions) x' := by
  refine run.executed (fun _ => rfl) (fun x a rest t result => ?_) executed
  unfold exec at result
  split at result
  · rename_i allowed
    split at result
    · rename_i r done
      obtain ⟨enabled,orderly,lawful,meets⟩ := allowed
      have taken : x.audit.Step ext blockSize a (x.audit.after ext a r) := ⟨⟨enabled,done⟩,orderly,rfl⟩
      exact ⟨x.after a (x.audit.after ext a r),⟨by rwa [after_audit],lawful,meets,by rw [after_audit]⟩,result⟩
    · cases result
  · cases result

-- Request 1 loses its client on its first message; request 2 fails while the same
-- step is delivered.
def faultInTime : List Action :=
  [.commit (Audit.shortRequest 1) (some 1) ⟨0,0⟩,.commit (Audit.shortRequest 2) none ⟨0,0⟩,.addRequest,.send,.addRequest,.send,
    .recvStep (Audit.plainStep 1 [Audit.plainOutput 1 .prefill false [5]] []),.notify 2,.meter]

theorem lookups_find_in_time : ∃ x : Traffic RadixTreeBlockHash, x.replica.errorRx = [2] ∧
    ∀ panic, x.replica.perform Audit.plainExternal 16 .deliver = .error panic → ¬panic.Lookup := by
  obtain ⟨x,executed⟩ : ∃ x, (start ⟨.empty,RadixTreeBlockHash.new 4⟩).exec Audit.plainExternal 16 Timely faultInTime = some x :=
    Option.isSome_iff_exists.mp (by decide)
  have facts : ((start ⟨.empty,RadixTreeBlockHash.new 4⟩).exec Audit.plainExternal 16 Timely faultInTime).map
      (fun x => (decide (x.replica.Enabled .deliver),decide (x.Timely .deliver),x.replica.errorRx)) = some (true,true,[2]) := by decide
  rw [executed] at facts
  simp only [Option.map_some,Option.some.injEq,Prod.mk.injEq,decide_eq_true_eq] at facts
  obtain ⟨enabled,timely,errors⟩ := facts
  exact ⟨x,errors,lookups_find ⟨.empty,RadixTreeBlockHash.new 4⟩ (run_exec .start executed) enabled timely⟩

-- Request 2 is admitted, and fails, after the channel was drained for a step.
def faultAfterDrain : List Action :=
  [.commit (Audit.shortRequest 1) none ⟨0,0⟩,.commit (Audit.shortRequest 2) none ⟨0,0⟩,.addRequest,.send,
    .recvStep (Audit.plainStep 1 [Audit.plainOutput 1 .prefill false [5]] []),.addRequest,.send,.notify 2,.meter]

theorem fault_after_drain_panics : ∃ x : Traffic RadixTreeBlockHash,
    Run (Step Audit.plainExternal 16 fun _ _ => True) (start ⟨.empty,RadixTreeBlockHash.new 4⟩) faultAfterDrain x ∧
      x.replica.Enabled .deliver ∧ x.Lawful .deliver ∧
      x.replica.perform Audit.plainExternal 16 .deliver = .error (.faultNotTracked 2) ∧ Panic.Lookup (.faultNotTracked 2) := by
  obtain ⟨x,executed⟩ : ∃ x, (start ⟨.empty,RadixTreeBlockHash.new 4⟩).exec Audit.plainExternal 16 (fun _ _ => True) faultAfterDrain = some x :=
    Option.isSome_iff_exists.mp (by decide)
  have facts : ((start ⟨.empty,RadixTreeBlockHash.new 4⟩).exec Audit.plainExternal 16 (fun _ _ => True) faultAfterDrain).map
      (fun x => (decide (x.replica.Enabled .deliver),match x.replica.perform Audit.plainExternal 16 .deliver with
        | .error panic => some panic
        | .ok _ => none)) = some (true,some (.faultNotTracked 2)) := by decide
  rw [executed] at facts
  simp only [Option.map_some,Option.some.injEq,Prod.mk.injEq,decide_eq_true_eq] at facts
  obtain ⟨enabled,stopped⟩ := facts
  refine ⟨x,run_exec .start executed,enabled,trivial,?_,trivial⟩
  split at stopped
  · rename_i panic result
    rw [result,Option.some.inj stopped]
  · cases stopped

end Traffic
end BlitzRouter
