import BlitzRouter.PolicyPrediction

namespace BlitzRouter.QueueTask
open Radix
variable {ω γ : Type} {schedule : Schedule ω γ} {q q' : QueueTask γ} {waits served : Entry → Entry → Prop}

-- How an entry in the queue task relates to the appended one while it waits, and
-- from the moment it is committed.
structure Tracks (waits served : Entry → Entry → Prop) (q : QueueTask γ) : Prop where
  waiting : ∀ x ∈ q.uncommitBuffer, ∃ appended, q.log.appends[x.arrival]? = some appended ∧ waits appended x.entry
  buffered : ∀ buffer ∈ q.allCommitReqBuffers, ∀ x ∈ buffer,
    x.1 = x.2.entry.request.requestId ∧ ∃ appended, q.log.appends[x.2.arrival]? = some appended ∧ served appended x.2.entry
  answered : ∀ a ∈ q.log.answers, ∀ x ∈ a.2,
    x.1 = x.2.entry.request.requestId ∧ ∃ appended, q.log.appends[x.2.arrival]? = some appended ∧ served appended x.2.entry

-- What a schedule has to keep for that.
structure Keeps (schedule : Schedule ω γ) (waits served : Entry → Entry → Prop) : Prop where
  fresh : ∀ entry, waits entry entry
  declined : ∀ {view gctx gctx' appended entry atomics}, waits appended entry →
    schedule view gctx entry = .ok (none,atomics,gctx') → waits appended (entry.store atomics)
  committed : ∀ {view gctx gctx' appended entry replicaIdx atomics}, waits appended entry →
    schedule view gctx entry = .ok (some replicaIdx,atomics,gctx') → served appended (entry.store atomics)

theorem tracks_start (numReplicas : Nat) (gctx : γ) : (start numReplicas gctx).Tracks waits served := by
  refine ⟨nofun,?_,nofun⟩
  intro buffer member x inside
  rw [List.eq_of_mem_replicate member] at inside
  cases inside

theorem tracks_pushBack (keeps : Keeps schedule waits served) (tracks : q.Tracks waits served) (entry : Entry) :
    (q.pushBack entry).Tracks waits served := by
  have older {n : Nat} {appended : Entry} (found : q.log.appends[n]? = some appended) :
      (q.log.appends++[entry])[n]? = some appended := by
    rw [List.getElem?_append_left (List.getElem?_eq_some_iff.mp found).1]
    exact found
  constructor
  · intro x member
    rcases List.mem_append.mp member with old | new
    · obtain ⟨appended,found,holds⟩ := tracks.waiting x old
      exact ⟨appended,older found,holds⟩
    · rw [List.mem_singleton.mp new]
      exact ⟨entry,by simp [pushBack],keeps.fresh entry⟩
  · intro buffer member x inside
    obtain ⟨named,appended,found,holds⟩ := tracks.buffered buffer member x inside
    exact ⟨named,appended,older found,holds⟩
  · intro a member x inside
    obtain ⟨named,appended,found,holds⟩ := tracks.answered a member x inside
    exact ⟨named,appended,older found,holds⟩

theorem tracks_scheduled (keeps : Keeps schedule waits served) (tracks : q.Tracks waits served) (move : Scheduled schedule q q') :
    q'.Tracks waits served := by
  cases move with
  | decline waiting called =>
    refine ⟨?_,tracks.buffered,tracks.answered⟩
    intro x member
    rcases List.mem_cons.mp member with rfl | behind
    · obtain ⟨appended,found,holds⟩ := tracks.waiting _ (waiting ▸ List.mem_cons_self)
      exact ⟨appended,found,keeps.declined holds called⟩
    · exact tracks.waiting x (waiting ▸ List.mem_cons_of_mem _ behind)
  | commit waiting called placed =>
    obtain ⟨buffer,found,rfl⟩ := commit_eq placed
    refine ⟨fun x member => tracks.waiting x (waiting ▸ List.mem_cons_of_mem _ member),?_,tracks.answered⟩
    intro held member x inside
    rcases List.mem_or_eq_of_mem_set member with old | rfl
    · exact tracks.buffered held old x inside
    · rcases List.mem_append.mp inside with old | new
      · exact tracks.buffered buffer (List.mem_of_getElem? found) x old
      · rw [List.mem_singleton.mp new]
        obtain ⟨appended,known,holds⟩ := tracks.waiting _ (waiting ▸ List.mem_cons_self)
        exact ⟨rfl,appended,known,keeps.committed holds called⟩

theorem tracks_answer {replicaIdx : Nat} (tracks : q.Tracks waits served) (result : q.answer replicaIdx = .ok q') :
    q'.Tracks waits served := by
  rcases answer_eq result with ⟨_,rfl⟩ | ⟨first,rest,found,rfl⟩
  · refine ⟨tracks.waiting,tracks.buffered,?_⟩
    intro a member x inside
    rcases List.mem_append.mp member with old | new
    · exact tracks.answered a old x inside
    · rw [List.mem_singleton.mp new] at inside
      cases inside
  · have first_buffered := tracks.buffered _ (List.mem_of_getElem? found)
    refine ⟨tracks.waiting,?_,?_⟩
    · intro held member x inside
      rcases List.mem_or_eq_of_mem_set member with old | rfl
      · exact tracks.buffered held old x inside
      · exact first_buffered x (List.mem_cons_of_mem _ inside)
    · intro a member x inside
      rcases List.mem_append.mp member with old | new
      · exact tracks.answered a old x inside
      · rw [List.mem_singleton.mp new] at inside
        cases inside
        exact first_buffered first List.mem_cons_self

theorem tracks_step {a : PolicyCommand × (Nat → ω)} (keeps : Keeps schedule waits served) (tracks : q.Tracks waits served)
    (step : Step schedule q a q') : q'.Tracks waits served := by
  rcases step_cases step with ⟨entry,_,moves⟩ | ⟨replicaIdx,middle,_,moves,answered⟩
  · exact scheduling_invariant moves (tracks_pushBack keeps tracks entry) fun _ _ held move => tracks_scheduled keeps held move
  · exact tracks_answer (scheduling_invariant moves tracks fun _ _ held move => tracks_scheduled keeps held move) answered

-- The schedule stores to the two atomics and to nothing else.
def Intact (appended entry : Entry) : Prop := ∃ atomics, entry = appended.store atomics

theorem keeps_intact : Keeps schedule Intact Intact where
  fresh entry := ⟨entry.atomics,rfl⟩
  declined := by
    rintro _ _ _ _ _ atomics ⟨_,rfl⟩ _
    exact ⟨atomics,rfl⟩
  committed := by
    rintro _ _ _ _ _ _ atomics ⟨_,rfl⟩ _
    exact ⟨atomics,rfl⟩

theorem keeps_predicted {β : Type} [BlockHash β] (applies : AppliesDefaultAfter β schedule) :
    Keeps schedule Eq (Entry.PredictedFrom β) where
  fresh _ := rfl
  declined := by
    rintro _ _ _ _ entry _ rfl called
    rw [applies.skipped called]
    rfl
  committed := by
    rintro _ _ _ _ _ _ _ rfl called
    exact applies.applied called

def appendsOf (history : List (PolicyCommand × (Nat → ω))) : List Entry :=
  history.filterMap fun | (.append entry,_) => some entry | _ => none

def askedBy (history : List (PolicyCommand × (Nat → ω))) : List Nat :=
  history.filterMap fun | (.nextRequest replicaIdx,_) => some replicaIdx | _ => none

-- The log tells what the commands were.
def Logs (history : List (PolicyCommand × (Nat → ω))) (q : QueueTask γ) : Prop :=
  q.log.appends = appendsOf history ∧ q.log.answers.map Prod.fst = askedBy history

theorem scheduling_log (moves : Scheduling schedule q q') :
    q'.log.appends = q.log.appends ∧ q'.log.answers = q.log.answers := by
  refine scheduling_invariant (I := fun s => s.log.appends = q.log.appends ∧ s.log.answers = q.log.answers) moves ⟨rfl,rfl⟩ ?_
  intro s s' same move
  cases move with
  | decline waiting called => exact same
  | commit waiting called placed =>
    obtain ⟨buffer,_,rfl⟩ := commit_eq placed
    exact same

theorem logs_step {past : List (PolicyCommand × (Nat → ω))} {a : PolicyCommand × (Nat → ω)} (logs : q.Logs past)
    (step : Step schedule q a q') : q'.Logs (past++[a]) := by
  obtain ⟨command,views⟩ := a
  rcases step_cases step with ⟨entry,rfl,moves⟩ | ⟨replicaIdx,middle,rfl,moves,answered⟩
  · obtain ⟨appends,answers⟩ := scheduling_log moves
    simp [Logs,appendsOf,askedBy,appends,answers,pushBack,logs.1,logs.2]
  · obtain ⟨appends,answers⟩ := scheduling_log moves
    rcases answer_eq answered with ⟨_,rfl⟩ | ⟨first,rest,_,rfl⟩
    · simp [Logs,appendsOf,askedBy,appends,answers,logs.1,logs.2]
    · simp [Logs,appendsOf,askedBy,appends,answers,logs.1,logs.2]

-- Where a panic of a policy comes from: a call with the front of the buffer, after
-- some calls that did not panic.
theorem scheduleFront_panics {view : ω} {panic : Panic} (stopped : scheduleFront schedule view q = .error (.schedule panic)) :
    ∃ front ∈ q.uncommitBuffer, schedule view q.gctx front.entry = .error panic := by
  unfold scheduleFront at stopped
  cases waiting : q.uncommitBuffer with
  | nil => simp [waiting] at stopped
  | cons front rest =>
    simp only [waiting] at stopped
    cases called : schedule view q.gctx front.entry with
    | error other =>
      simp only [called,Except.error.injEq,QueuePanic.schedule.injEq] at stopped
      exact ⟨front,List.mem_cons_self,stopped ▸ called⟩
    | ok outcome =>
      obtain ⟨choice,atomics,gctx⟩ := outcome
      cases choice with
      | none => simp [called] at stopped
      | some replicaIdx =>
        simp only [called] at stopped
        unfold commit at stopped
        simp only at stopped
        cases found : q.allCommitReqBuffers[replicaIdx]? <;> simp [found,bind,Except.bind] at stopped

theorem ineligible_panics {replicaIdx rounds : Nat} {views : Nat → ω} {panic : Panic}
    (stopped : ineligible schedule replicaIdx rounds views q = some (.error (.schedule panic))) :
    ∃ middle view, Scheduling schedule q middle ∧ ∃ front ∈ middle.uncommitBuffer, schedule view middle.gctx front.entry = .error panic := by
  induction rounds generalizing q views with
  | zero =>
    unfold ineligible at stopped
    split at stopped <;> simp at stopped
  | succ rounds ih =>
    unfold ineligible at stopped
    split at stopped
    · simp at stopped
    · simp at stopped
    · simp only at stopped
      cases round : q.scheduleFront schedule (views 0) with
      | error other =>
        simp only [round,Option.some.injEq,Except.error.injEq] at stopped
        exact ⟨q,views 0,.refl,scheduleFront_panics (stopped ▸ round)⟩
      | ok outcome =>
        obtain ⟨next,flag⟩ := outcome
        cases flag with
        | false => simp [round] at stopped
        | true =>
          simp only [round] at stopped
          obtain ⟨middle,view,moves,front⟩ := ih stopped
          exact ⟨middle,view,(scheduleFront_scheduling round).1.trans moves,front⟩

def received (q : QueueTask γ) : PolicyCommand → QueueTask γ
  | .append entry => q.pushBack entry
  | .nextRequest _ => q

theorem handle_panics {rounds : Nat} {views : Nat → ω} {command : PolicyCommand} {panic : Panic}
    (stopped : q.handle schedule rounds views command = some (.error (.schedule panic))) :
    ∃ middle view, Scheduling schedule (q.received command) middle ∧
      ∃ front ∈ middle.uncommitBuffer, schedule view middle.gctx front.entry = .error panic := by
  cases command with
  | append entry =>
    simp only [handle,Option.some.injEq] at stopped
    cases round : scheduleFront schedule (views 0) (q.pushBack entry) with
    | error other =>
      simp only [round,Except.map,Except.error.injEq] at stopped
      exact ⟨_,views 0,.refl,scheduleFront_panics (stopped ▸ round)⟩
    | ok outcome => simp [round,Except.map] at stopped
  | nextRequest replicaIdx =>
    obtain ⟨result,looped,answered⟩ := Option.map_eq_some_iff.mp stopped
    cases result with
    | error other =>
      simp only [Except.bind,Except.error.injEq] at answered
      exact ineligible_panics (answered ▸ looped)
    | ok middle =>
      simp only [Except.bind,answer] at answered
      split at answered <;> simp at answered

-- With fresh entries, no call of the policy finds the predicted hits set.
theorem unset_of_tracks {β : Type} [BlockHash β] {rounds : Nat} {views : Nat → ω} {command : PolicyCommand} (applies : AppliesDefaultAfter β schedule)
    (tracks : q.Tracks Eq (Entry.PredictedFrom β)) (fresh : ∀ entry ∈ (q.received command).log.appends, entry.Fresh) (id : RequestId) :
    q.handle schedule rounds views command ≠ some (.error (.schedule (.predHitsSet id))) := by
  intro stopped
  obtain ⟨middle,view,moves,front,member,called⟩ := handle_panics stopped
  have begun : (q.received command).Tracks Eq (Entry.PredictedFrom β) := by
    cases command with
    | append entry => exact tracks_pushBack (keeps_predicted applies) tracks entry
    | nextRequest replicaIdx => exact tracks
  have reached := scheduling_invariant moves begun fun _ _ held move => tracks_scheduled (keeps_predicted applies) held move
  obtain ⟨appended,found,rfl⟩ := reached.waiting front member
  obtain ⟨context,cached,failed⟩ := applies.panicked called
  rw [(scheduling_log moves).1] at found
  exact applyDefaultAfter_fresh (fresh _ (List.mem_of_getElem? found)) id failed

-- A policy that answers every call, with a replica that exists or with none.
def Answering (schedule : Schedule ω γ) (numReplicas : Nat) : Prop :=
  ∀ view gctx entry, ∃ choice atomics gctx', schedule view gctx entry = .ok (choice,atomics,gctx') ∧ ∀ r ∈ choice, r < numReplicas

theorem scheduling_length (moves : Scheduling schedule q q') : q'.allCommitReqBuffers.length = q.allCommitReqBuffers.length := by
  refine scheduling_invariant (I := fun s => s.allCommitReqBuffers.length = q.allCommitReqBuffers.length) moves rfl ?_
  intro s s' same move
  cases move with
  | decline waiting called => exact same
  | commit waiting called placed =>
    obtain ⟨buffer,_,rfl⟩ := commit_eq placed
    exact (List.length_set).trans same

theorem step_length {a : PolicyCommand × (Nat → ω)} (step : Step schedule q a q') :
    q'.allCommitReqBuffers.length = q.allCommitReqBuffers.length := by
  rcases step_cases step with ⟨entry,_,moves⟩ | ⟨replicaIdx,middle,_,moves,answered⟩
  · exact (scheduling_length moves).trans rfl
  · rw [← scheduling_length moves]
    rcases answer_eq answered with ⟨_,rfl⟩ | ⟨first,rest,_,rfl⟩
    · rfl
    · exact List.length_set

theorem scheduleFront_total (answering : Answering schedule q.allCommitReqBuffers.length) (view : ω) :
    ∃ q' flag, scheduleFront schedule view q = .ok (q',flag) := by
  unfold scheduleFront
  cases waiting : q.uncommitBuffer with
  | nil => exact ⟨_,_,rfl⟩
  | cons front rest =>
    obtain ⟨choice,atomics,gctx,called,valid⟩ := answering view q.gctx front.entry
    simp only [called]
    cases choice with
    | none => exact ⟨_,_,rfl⟩
    | some replicaIdx =>
      obtain ⟨buffer,found⟩ : ∃ buffer, q.allCommitReqBuffers[replicaIdx]? = some buffer := ⟨_,List.getElem?_eq_getElem (valid _ rfl)⟩
      simp only [commit,found]
      exact ⟨_,_,rfl⟩

theorem ineligible_total {replicaIdx rounds : Nat} (answering : Answering schedule q.allCommitReqBuffers.length)
    (inside : replicaIdx < q.allCommitReqBuffers.length) (enough : q.uncommitBuffer.length < rounds) (views : Nat → ω) :
    ∃ q', ineligible schedule replicaIdx rounds views q = some (.ok q') := by
  induction rounds generalizing q views with
  | zero => omega
  | succ rounds ih =>
    unfold ineligible
    rw [List.getElem?_eq_getElem inside]
    cases q.allCommitReqBuffers[replicaIdx] with
    | cons first rest => exact ⟨_,rfl⟩
    | nil =>
      obtain ⟨next,flag,round⟩ := scheduleFront_total answering (views 0)
      obtain ⟨moves,shorter⟩ := scheduleFront_scheduling round
      simp only [round]
      cases flag with
      | false => exact ⟨_,rfl⟩
      | true =>
        have length := scheduling_length moves
        have fewer := shorter rfl
        exact ih (length ▸ answering) (length ▸ inside) (by omega) _

def Valid (numReplicas : Nat) : PolicyCommand → Prop
  | .append _ => True
  | .nextRequest replicaIdx => replicaIdx < numReplicas

theorem step_total (answering : Answering schedule q.allCommitReqBuffers.length) {a : PolicyCommand × (Nat → ω)}
    (valid : Valid q.allCommitReqBuffers.length a.1) : ∃ q', Step schedule q a q' := by
  obtain ⟨command,views⟩ := a
  cases command with
  | append entry =>
    obtain ⟨next,flag,round⟩ := scheduleFront_total (q := q.pushBack entry) answering (views 0)
    exact ⟨next,0,by simp [handle,round,Except.map]⟩
  | nextRequest replicaIdx =>
    obtain ⟨middle,looped⟩ := ineligible_total answering valid (Nat.lt_add_one q.uncommitBuffer.length) views
    have inside : replicaIdx < middle.allCommitReqBuffers.length := scheduling_length (ineligible_scheduling looped) ▸ valid
    have answered : ∃ q', middle.answer replicaIdx = .ok q' := by
      unfold answer
      rw [List.getElem?_eq_getElem inside]
      cases middle.allCommitReqBuffers[replicaIdx] with
      | nil => exact ⟨_,rfl⟩
      | cons first rest => exact ⟨_,rfl⟩
    obtain ⟨next,answered⟩ := answered
    exact ⟨next,q.uncommitBuffer.length+1,by simp [handle,looped,Except.bind,answered]⟩

-- What a schedule adds that applies `apply_default_after` when it commits.
structure Predicted (β : Type) [BlockHash β] (schedule : Schedule ω γ) (q : QueueTask γ) : Prop where
  tracks : q.Tracks Eq (Entry.PredictedFrom β)
  sentinel : ∀ x ∈ q.deliveries, ∀ hits, x.2.entry.blockHashState.setRealTokenHitsGetDiff hits = none ↔
    x.2.entry.blockHashState.blockSize = 0 ∨ hits%x.2.entry.blockHashState.blockSize ≠ 0
  unset : ∀ command, (∀ entry, command = .append entry → entry.Fresh) → ∀ rounds views id,
    q.handle schedule rounds views command ≠ some (.error (.schedule (.predHitsSet id)))

theorem predicted_of {β : Type} [BlockHash β] (applies : AppliesDefaultAfter β schedule) (tracks : q.Tracks Eq (Entry.PredictedFrom β))
    (fresh : ∀ entry ∈ q.log.appends, entry.Fresh) : q.Predicted β schedule := by
  refine ⟨tracks,?_,?_⟩
  · intro x member hits
    obtain ⟨⟨replicaIdx,reply⟩,logged,sent⟩ := List.mem_filterMap.mp member
    obtain ⟨pair,rfl,rfl⟩ := Option.map_eq_some_iff.mp sent
    obtain ⟨_,appended,_,predicted⟩ := tracks.answered _ logged pair rfl
    exact setRealTokenHits_total (predicted_below predicted) hits
  · intro command new rounds views id
    refine unset_of_tracks applies tracks ?_ id
    cases command with
    | nextRequest replicaIdx => exact fresh
    | append entry =>
      intro e member
      rcases List.mem_append.mp member with old | last
      · exact fresh e old
      · rw [List.mem_singleton.mp last]
        exact new entry rfl

theorem requests_queued_once {β ω γ : Type} [BlockHash β] (schedule : Schedule ω γ) (numReplicas : Nat) (gctx : γ)
    (history : List (PolicyCommand × (Nat → ω))) (q : QueueTask γ) (run : Run (Step schedule) (start numReplicas gctx) history q) :
    q.Logs history ∧ q.Placed ∧ q.Tracks Intact Intact ∧
      (∀ replicaIdx views, ∃ outcome, ineligible schedule replicaIdx (q.uncommitBuffer.length+1) views q = some outcome) ∧
      (Answering schedule numReplicas → ∀ a : PolicyCommand × (Nat → ω), Valid numReplicas a.1 → ∃ q', Step schedule q a q') ∧
      (AppliesDefaultAfter β schedule → (∀ entry ∈ appendsOf history, entry.Fresh) → q.Predicted β schedule) := by
  have logs : q.Logs history := run.invariant ⟨rfl,rfl⟩ fun _ _ _ _ held step => logs_step held step
  have represents : ∃ d, q.Represents d :=
    run.invariant (I := fun _ q => ∃ d, q.Represents d) ⟨_,represents_start numReplicas gctx⟩
      fun _ _ _ _ ⟨_,held⟩ step => represents_step held step
  have replicas : q.allCommitReqBuffers.length = numReplicas :=
    run.invariant (I := fun _ q => q.allCommitReqBuffers.length = numReplicas) List.length_replicate
      fun _ _ _ _ held step => (step_length step).trans held
  obtain ⟨d,represents⟩ := represents
  refine ⟨logs,placed_of represents,?_,?_,?_,?_⟩
  · exact run.invariant (tracks_start numReplicas gctx) fun _ _ _ _ held step => tracks_step keeps_intact held step
  · exact fun replicaIdx views => ineligible_ends replicaIdx _ views (Nat.lt_succ_self _)
  · subst replicas
    exact fun answering a valid => step_total answering valid
  · intro applies fresh
    have tracks : q.Tracks Eq (Entry.PredictedFrom β) :=
      run.invariant (tracks_start numReplicas gctx) fun _ _ _ _ held step => tracks_step (keeps_predicted applies) held step
    exact predicted_of applies tracks (logs.1 ▸ fresh)

-- A policy that has no replica at its first call and takes replica 1 from then on.
def lateSchedule : Schedule Unit Nat :=
  loweredSchedule (fun _ calls _ => (if calls = 0 then none else some (1,⟨0,0⟩),calls+1))
    fun _ _ => (⟨⟨0,0,0,0⟩,RadixTreeBlockHash.new 4⟩ : ScheduleContext RadixTreeBlockHash)

def lateEntry : Entry := ⟨⟨7,1,[7]⟩,⟨[],[],0,noneSentinel,none,16,defaultBlockHash,[7],0⟩,⟨[],none⟩,0⟩

-- Replica 0 asks, which commits to replica 1, and replica 1 asks afterwards.
def lateCommands : List (PolicyCommand × (Nat → Unit)) :=
  [(.append lateEntry,fun _ => ()),(.nextRequest 0,fun _ => ()),(.nextRequest 1,fun _ => ())]

theorem requests_queued_once_late : ∃ q : QueueTask Nat, Run (Step lateSchedule) (start 2 0) lateCommands q ∧
    q.deliveries.map (fun x => (x.1,x.2.arrival)) = [(1,0)] ∧ q.Placed ∧ q.Predicted RadixTreeBlockHash lateSchedule := by
  have run : ∃ q : QueueTask Nat, Run (Step lateSchedule) (start 2 0) lateCommands q ∧
      q.deliveries.map (fun x => (x.1,x.2.arrival)) = [(1,0)] :=
    ⟨_,.next (.next (.next .start ⟨0,rfl⟩) ⟨2,rfl⟩) ⟨1,rfl⟩,rfl⟩
  obtain ⟨q,run,sent⟩ := run
  obtain ⟨_,placed,_,_,_,predicted⟩ := requests_queued_once (β := RadixTreeBlockHash) lateSchedule 2 0 lateCommands q run
  refine ⟨q,run,sent,placed,predicted (loweredSchedule_applies _ _) ?_⟩
  intro entry member
  obtain rfl : entry = lateEntry := by simpa [appendsOf,lateCommands] using member
  have made : Entry.new ⟨fun _ seed => seed,none⟩ 16 ⟨7,1,[7]⟩ none = some lateEntry := rfl
  exact fresh_new made

end BlitzRouter.QueueTask
