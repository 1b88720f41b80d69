import BlitzRouter.ResponseLines

namespace BlitzRouter
open Radix

def ExtStInner.isFaulted : ExtStInner → Bool
  | .faulted _ => true
  | _ => false

namespace CompletionLoop

def faultedIds (s : CompletionLoop) : List RequestId := (s.exceptContext.states.filter fun row => row.2.isFaulted).keys

-- The second half of an iteration up to its end-of-cycle sweep, and the requests
-- whose entries the sweep drops.
def sweptBy (ext : External) (s : CompletionLoop) (m : EngineStepOutput) (errors : List RequestId) : Except Panic (List RequestId) := do
  let s ← s.slowPath ext m.outputs
  let s ← s.onFrontendAbort
  let s ← s.onBackendFault errors
  let (s,_) ← s.terms m.abortedRequests
  let (_,dropped) ← s.exceptContext.filterDrop
  .ok (dropped.map Prod.fst)

-- A record of a fault that the next sweep drops as it stands.
def Due (s : CompletionLoop) (id : RequestId) : Prop := s.exceptContext.states.dlookup id = some (.faulted false)

-- No fault is held back by its live flag.
def Lowered (s : CompletionLoop) : Prop := ∀ id live, s.exceptContext.states.dlookup id = some (.faulted live) → live = false

variable {ext : External} {s s' : CompletionLoop} {d d' : LMetricDec} {o : RequestStepOutput} {outputs : List RequestStepOutput}
  {m : EngineStepOutput} {id : RequestId} {ids errors : List RequestId} {left : List Entry}

theorem Lowered.mem_faultedIds (lowered : s.Lowered) (sound : s.Sound) : id ∈ s.faultedIds ↔ s.Due id := by
  constructor
  · intro member
    obtain ⟨row,inside,rfl⟩ := List.mem_map.mp member
    obtain ⟨recorded,faulted⟩ := List.mem_filter.mp inside
    obtain ⟨id,st⟩ := row
    have found := List.mem_dlookup sound.except.single recorded
    cases st with
    | faulted live =>
      rw [lowered id live found] at found
      exact found
    | waitingTerm live => cases faulted
    | exited waiting => cases faulted
  · intro due
    exact List.mem_map.mpr ⟨⟨id,.faulted false⟩,List.mem_filter.mpr ⟨List.of_mem_dlookup due,rfl⟩,rfl⟩

section Fast

-- An output takes a fault from the sweep when it is the last one of its request,
-- and in no other way.
theorem Metered.faulted (step : Metered s d o s' d') (sound : s.Sound) (live : Bool) :
    s'.exceptContext.states.dlookup id = some (.faulted live) ↔
      s.exceptContext.states.dlookup id = some (.faulted live) ∧ ¬(o.isFinished = true ∧ o.requestId = id) := by
  have lost : s.exceptContext.states.dlookup id = some (.faulted live) → s.find id ≠ none := by
    intro found absent
    obtain ⟨entry,held⟩ := sound.except.entry_of found rfl
    rw [find_except (sound.outside_of_record found),held] at absent
    cases absent
  cases step with
  | unknown absent => exact ⟨fun found => ⟨found,fun both => lost found (both.2 ▸ absent)⟩,And.left⟩
  | update entry new found goes account =>
    rw [store_states]
    exact ⟨fun record => ⟨record,fun both => by rw [goes] at both; cases both.1⟩,And.left⟩
  | finish entry kept ends =>
    refine ⟨fun record => ⟨record,?_⟩,And.left⟩
    intro both
    rw [sound.outside_of_record (both.2 ▸ record)] at kept
    cases kept
  | exit entry st absent held record ends =>
    by_cases same : id = o.requestId
    · subst same
      rw [Ledger.dlookup_kreplace (by rw [record]; rfl)]
      refine iff_of_false ?_ fun both => both.2 ⟨ends,rfl⟩
      intro wrong
      cases st <;> cases wrong
    · simp only [Ledger.dlookup_kreplace_ne same]
      exact ⟨fun found => ⟨found,fun both => same both.2.symm⟩,And.left⟩

theorem Sound.meterOutputs_faulted (sound : s.Sound) (result : s.meterOutputs ext d outputs = .ok (s',d')) (live : Bool) :
    s'.exceptContext.states.dlookup id = some (.faulted live) ↔
      s.exceptContext.states.dlookup id = some (.faulted live) ∧ ¬FinishedIn outputs id := by
  induction outputs generalizing s d with
  | nil =>
    cases result
    simp [FinishedIn]
  | cons o rest ih =>
    cases one : s.meterOutput ext d o with
    | error panic => rw [meterOutputs,one] at result; cases result
    | ok pair =>
      obtain ⟨s₁,d₁⟩ := pair
      have first := sound.metered one
      rw [meterOutputs,one] at result
      rw [ih (first.sound sound) result,first.faulted sound live,and_assoc]
      simp only [FinishedIn,List.mem_cons,exists_eq_or_imp,not_or]

theorem storeBlocks_states {rid : RequestId} {entry : Entry} :
    (s.storeBlocks rid entry).exceptContext.states = s.exceptContext.states := by
  unfold storeBlocks
  split
  · exact store_states
  · rfl

theorem Sound.meter_faulted {β : Type} [BlockHash β] {context context' : ScheduleContext β} (sound : s.Sound)
    (result : s.meter ext context m = .ok (s',context')) (live : Bool) :
    s'.exceptContext.states.dlookup id = some (.faulted live) ↔
      s.exceptContext.states.dlookup id = some (.faulted live) ∧ ¬FinishedIn m.outputs id := by
  obtain ⟨s₁,d₁,fast,cache,_⟩ := meter_phases result
  have same : s'.exceptContext.states = s₁.exceptContext.states :=
    cacheUpdate_induct (P := fun t => t.exceptContext.states = s₁.exceptContext.states) rfl
      (fun _ _ _ _ _ _ before _ _ => storeBlocks_states.trans before) cache
  rw [same]
  exact sound.meterOutputs_faulted fast live

end Fast

section Exceptions

theorem due_concat {st : ExtStInner} {states : ExtStates} (other : st ≠ .faulted false) :
    (states++[(⟨key,st⟩ : Sigma fun _ : RequestId => ExtStInner)]).dlookup id = some (.faulted false) ↔
      states.dlookup id = some (.faulted false) := by
  rw [List.dlookup_append]
  cases states.dlookup id with
  | some held => simp
  | none =>
    rw [Option.none_or]
    refine iff_of_false ?_ (by simp)
    intro found
    have row := List.of_mem_dlookup found
    cases List.mem_singleton.mp row
    exact other rfl

theorem abortEntry_due (result : s.abortEntry id = .ok s') (key : RequestId) : s'.Due key ↔ s.Due key := by
  obtain ⟨entry,phases,_,_,rfl⟩ := abortEntry_cases result
  exact due_concat (by simp)

theorem faultEntry_due (result : s.faultEntry id = .ok s') (key : RequestId) : s'.Due key ↔ s.Due key := by
  rcases faultEntry_cases result with rfl | ⟨entry,phases,_,_,_,_,rfl⟩
  · exact Iff.rfl
  · exact due_concat (by simp)

theorem abortEntries_due (result : s.abortEntries ids = .ok s') (key : RequestId) : s'.Due key ↔ s.Due key :=
  abortEntries_steps (P := fun t => t.Due key ↔ s.Due key) Iff.rfl (fun _ _ _ _ before one => (abortEntry_due one key).trans before) result

theorem onBackendFault_due (result : s.onBackendFault errors = .ok s') (key : RequestId) : s'.Due key ↔ s.Due key :=
  onBackendFault_steps (P := fun t => t.Due key ↔ s.Due key) Iff.rfl (fun _ _ _ _ before one => (faultEntry_due one key).trans before) result

theorem Sound.terms_due (sound : s.Sound) (result : s.terms ids = .ok (s',left)) (key : RequestId) :
    s'.Due key ↔ s.Due key ∧ key ∉ ids := by
  induction ids generalizing s left with
  | nil =>
    cases result
    simp
  | cons id rest ih =>
    obtain ⟨s₁,returned,left₁,step,result₁,_⟩ := sound.term_cases result
    rw [ih (step.leaving sound).sound result₁,List.mem_cons,not_or,← and_assoc]
    refine and_congr_left fun _ => ?_
    cases step with
    | mk st record =>
      unfold Due
      by_cases same : key = id
      · subst same
        rw [List.dlookup_kerase key sound.except.single]
        exact iff_of_false (by simp) fun both => both.2 rfl
      · simp only [List.dlookup_kerase_ne same]
        exact ⟨fun due => ⟨due,same⟩,And.left⟩

theorem Sound.filterDrop_due {ctx : ExtContext} {dropped : List (RequestId × Entry)} (sound : s.Sound)
    (result : s.exceptContext.filterDrop = .ok (ctx,dropped)) :
    (∀ id, id ∈ dropped.map Prod.fst ↔ s.Due id) ∧ ∀ id live, ctx.states.dlookup id = some (.faulted live) → live = false := by
  obtain ⟨ctx',dropped',result',_,drops⟩ := sound.except.filterDrop_spec
  rw [result] at result'
  cases result'
  refine ⟨fun id => ⟨?_,fun due => drops.all id _ due rfl⟩,?_⟩
  · intro member
    obtain ⟨row,inside,rfl⟩ := List.mem_map.mp member
    obtain ⟨_,st,found,ready⟩ := drops.taken row inside
    cases st with
    | faulted live =>
      cases live with
      | false => exact found
      | true => cases ready
    | waitingTerm live => cases ready
    | exited waiting => cases ready
  · intro id live found
    rw [drops.rest id] at found
    cases record : s.exceptContext.states.dlookup id with
    | none => rw [record] at found; cases found
    | some st =>
      rw [record,Option.bind_some] at found
      split at found
      · cases found
      · cases st <;> cases found
        rfl

-- A whole second half: whose entries it drops, and that the flags are down after it.
theorem Sound.passGenerations_swept (sound : s.Sound) (result : s.passGenerations ext m errors = .ok (s',left)) :
    s'.Lowered ∧ ∃ swept, s.sweptBy ext m errors = .ok swept ∧ ∀ id, id ∈ swept ↔ s.Due id ∧ id ∉ m.abortedRequests := by
  obtain ⟨s₁,s₂,s₃,s₄,s₅,terminated,dropped,slow,aborted,faulted,ended,ends,rfl,_⟩ := passGenerations_phases result
  have passing := sound.passing slow
  have sound₂ := (passing.sound.uncancelled.onFrontendAbort_moving aborted).sound passing.sound.uncancelled
  have sound₃ := (sound₂.onBackendFault_moving faulted).sound sound₂
  have sound₄ := (sound₃.terms_leaving ended).sound
  have before : ∀ id, s₁.Due id ↔ s.Due id := fun id => by
    unfold Due
    rw [passing.except]
  have caught : ∀ id, s₃.Due id ↔ s.Due id := fun id =>
    (onBackendFault_due faulted id).trans ((abortEntries_due aborted id).trans (before id))
  unfold dropFaulted at ends
  cases swept : s₄.exceptContext.filterDrop with
  | error panic => rw [swept] at ends; cases ends
  | ok pair =>
    obtain ⟨ctx,rows⟩ := pair
    rw [swept] at ends
    cases ends
    obtain ⟨drops,lowered⟩ := sound₄.filterDrop_due swept
    refine ⟨lowered,rows.map Prod.fst,?_,fun id => ?_⟩
    · simp only [sweptBy,bind,Except.bind,slow,aborted,faulted,ended,swept]
    · rw [drops id,sound₃.terms_due ended id,caught id]

end Exceptions
end CompletionLoop

-- A replica, with the requests that were faulted when the step of the current
-- iteration came in, and those that the last sweep dropped.
structure Cycle (β : Type) where
  replica : Replica β
  faulted : List RequestId
  swept : List RequestId

namespace Cycle
open Replica CompletionLoop
variable {β : Type}

def start (context : ScheduleContext β) : Cycle β := ⟨.start context,[],[]⟩

def sweeps (ext : External) (r : Replica β) (m : EngineStepOutput) : List RequestId :=
  match r.loop.sweptBy ext m r.errorRx with
  | .ok swept => swept
  | .error _ => []

def after (ext : External) (x : Cycle β) (a : Action) (r : Replica β) : Cycle β :=
  match a,x.replica.stage with
  | .recvStep _,_ => {x with replica := r,faulted := x.replica.loop.faultedIds}
  | .deliver,.metered m => {x with replica := r,swept := sweeps ext x.replica m}
  | _,_ => {x with replica := r}

variable [BlockHash β] {ext : External} {blockSize : Nat} {x x' : Cycle β} {a : Action} {m : EngineStepOutput}
  {history : List Action}

def Step (ext : External) (blockSize : Nat) (x : Cycle β) (a : Action) (x' : Cycle β) : Prop :=
  Replica.Step ext blockSize x.replica a x'.replica ∧ x' = x.after ext a x'.replica

-- What `faulted` says of the current records, by how far the iteration got.
structure Tracks (x : Cycle β) : Prop where
  lowered : x.replica.loop.Lowered
  received : ∀ m, x.replica.stage = .received m → ∀ id, x.replica.loop.Due id ↔ id ∈ x.faulted
  metered : ∀ m, x.replica.stage = .metered m → ∀ id, x.replica.loop.Due id ↔ id ∈ x.faulted ∧ ¬FinishedIn m.outputs id

omit [BlockHash β] in
theorem tracks_start (context : ScheduleContext β) : (start context).Tracks := by
  refine ⟨?_,?_,?_⟩
  · intro id live found
    simp [start,Replica.start,CompletionLoop.new,ExtContext.new] at found
  · intro m stage
    cases stage
  · intro m stage
    cases stage

omit [BlockHash β] in
-- An action that leaves the loop and its stage as they are.
theorem Tracks.beside {r : Replica β} (tracks : x.Tracks) (loop : r.loop = x.replica.loop) (stage : r.stage = x.replica.stage) :
    Tracks {x with replica := r} := by
  refine ⟨?_,?_,?_⟩
  · simp only [loop]
    exact tracks.lowered
  · simp only [loop,stage]
    exact tracks.received
  · simp only [loop,stage]
    exact tracks.metered

theorem Tracks.deliver (tracks : x.Tracks) (sound : x.replica.loop.Sound) (stage : x.replica.stage = .metered m)
    (step : Step ext blockSize x .deliver x') : x'.replica.stage = .idle ∧ x'.replica.loop.Lowered ∧
      ∀ id, id ∈ x'.swept ↔ id ∈ x.faulted ∧ ¬FinishedIn m.outputs id ∧ id ∉ m.abortedRequests := by
  obtain ⟨⟨_,result⟩,history⟩ := step
  have swept : x'.swept = sweeps ext x.replica m := by
    rw [history]
    simp only [after,stage]
  obtain ⟨loop,context,delivered,same⟩ := perform_deliver stage result
  obtain ⟨left,passed,_⟩ := deliver_cases delivered
  obtain ⟨lowered,ids,drops,exactly⟩ := sound.passGenerations_swept passed
  refine ⟨by rw [same],by rw [same]; exact lowered,fun id => ?_⟩
  have all : sweeps ext x.replica m = ids := by simp only [sweeps,drops]
  rw [swept,all,exactly id,tracks.metered m stage id,and_assoc]

theorem Tracks.step {committed : List RequestId} (tracks : x.Tracks) (owned : Owned committed x.replica)
    (step : Step ext blockSize x a x') : x'.Tracks := by
  have whole := step
  obtain ⟨⟨enabled,result⟩,history⟩ := step
  cases a with
  | commit request reads cached =>
    obtain ⟨_,hits,entry,_,_,done⟩ := commit_cases result
    rw [history]
    exact tracks.beside (by rw [done.result]) (by rw [done.result])
  | addRequest =>
    rw [history,← Except.ok.inj result]
    exact tracks.beside rfl rfl
  | send =>
    rw [history,← Except.ok.inj result]
    exact tracks.beside rfl rfl
  | notify id =>
    rw [history,← Except.ok.inj result]
    exact tracks.beside rfl rfl
  | recvStep m =>
    have except := owned.drained.except
    rw [history,← Except.ok.inj result]
    refine ⟨?_,?_,?_⟩
    · intro id live found
      simp only [after,except] at found
      exact tracks.lowered id live found
    · intro m' same id
      simp only [after,Due,except]
      exact (tracks.lowered.mem_faultedIds owned.sound).symm
    · intro m' same
      cases same
  | meter =>
    obtain ⟨m,stage⟩ := enabled
    obtain ⟨loop,context,metered,same⟩ := perform_meter stage result
    rw [history,same]
    refine ⟨?_,?_,?_⟩
    · intro id live found
      exact tracks.lowered id live ((owned.sound.meter_faulted metered live).mp found).1
    · intro m' same
      cases same
    · intro m' same id
      cases same
      exact (owned.sound.meter_faulted metered false).trans (and_congr_left' (tracks.received m stage id))
  | deliver =>
    obtain ⟨m,stage⟩ := enabled
    obtain ⟨idle,lowered,_⟩ := tracks.deliver owned.sound stage whole
    refine ⟨lowered,?_,?_⟩
    · intro m' same
      rw [idle] at same
      cases same
    · intro m' same
      rw [idle] at same
      cases same

theorem run_tracks (context : ScheduleContext β) (run : Run (Step ext blockSize) (start context) history x)
    (fresh : (committedIn history).Nodup) : Owned (committedIn history) x.replica ∧ x.Tracks := by
  induction run with
  | start => exact ⟨owned_start context,tracks_start context⟩
  | next path taken ih =>
    rw [committedIn_append] at fresh ⊢
    obtain ⟨before,_,apart⟩ := List.nodup_append.mp fresh
    obtain ⟨owned,tracks⟩ := ih before
    exact ⟨(owned.step (fun id member inside => apart id inside id member rfl) taken.1).owned,tracks.step owned taken⟩

-- Whoever the sweep drops was faulted before the step came in, and the step does
-- not name them: in every run this holds of an iteration exactly when each faulted
-- request that its step names is reported as finished, or acknowledged, in it.
theorem named_faults_stay_iff (context : ScheduleContext β) (run : Run (Step ext blockSize) (start context) history x)
    (fresh : (committedIn history).Nodup) (stage : x.replica.stage = .metered m) (step : Step ext blockSize x .deliver x') :
    (∀ id ∈ x'.swept, id ∈ x.faulted ∧ ∀ o ∈ m.outputs, o.requestId ≠ id) ↔
      ∀ id ∈ x.faulted, (∃ o ∈ m.outputs, o.requestId = id) → FinishedIn m.outputs id ∨ id ∈ m.abortedRequests := by
  obtain ⟨owned,tracks⟩ := run_tracks context run fresh
  obtain ⟨_,_,swept⟩ := tracks.deliver owned.sound stage step
  constructor
  · intro stays id faulted named
    by_contra neither
    rw [not_or] at neither
    obtain ⟨o,output,same⟩ := named
    exact (stays id ((swept id).mpr ⟨faulted,neither⟩)).2 o output same
  · intro covered id member
    obtain ⟨faulted,runs,unacknowledged⟩ := (swept id).mp member
    refine ⟨faulted,?_⟩
    intro o output same
    rcases covered id faulted ⟨o,output,same⟩ with finished | acknowledged
    · exact runs finished
    · exact unacknowledged acknowledged

def exec (ext : External) (blockSize : Nat) : Cycle β → List Action → Option (Cycle β)
  | x,[] => some x
  | x,a::rest =>
    if x.replica.Enabled a then
      match x.replica.perform ext blockSize a with
      | .ok r => exec ext blockSize (x.after ext a r) rest
      | .error _ => none
    else none

omit [BlockHash β] in
@[simp] theorem after_replica (x : Cycle β) (a : Action) (r : Replica β) : (x.after ext a r).replica = r := by
  unfold after
  split <;> rfl

theorem exec_cons {rest : List Action} (executed : x.exec ext blockSize (a::rest) = some x') :
    ∃ next, Step ext blockSize x a next ∧ next.exec ext blockSize rest = some x' := by
  unfold exec at executed
  split at executed
  · rename_i enabled
    split at executed
    · rename_i r done
      exact ⟨x.after ext a r,⟨⟨enabled,by rw [after_replica]; exact done⟩,by rw [after_replica]⟩,executed⟩
    · cases executed
  · cases executed

theorem run_exec {past actions : List Action} {from_ : Cycle β} (run : Run (Step ext blockSize) from_ past x)
    (executed : x.exec ext blockSize actions = some x') : Run (Step ext blockSize) from_ (past++actions) x' :=
  run.executed (fun _ => rfl) (fun _ _ _ _ => exec_cons) executed

-- Request 1 fails in its first step and is named once more by the next one.
def named (isFinished : Bool) : EngineStepOutput := Audit.plainStep 0 [Audit.plainOutput 1 .decode isFinished [6]] []

def faultThenNamed (isFinished : Bool) : List Action :=
  [.commit (Audit.shortRequest 1) none ⟨0,0⟩,.addRequest,.send,.recvStep (Audit.plainStep 1 [Audit.plainOutput 1 .prefill false [5]] []),
    .notify 1,.meter,.deliver,.recvStep (named isFinished),.meter]

theorem run_named (isFinished : Bool) : ∃ x x' : Cycle RadixTreeBlockHash,
    Run (Step Audit.plainExternal 16) (start ⟨.empty,RadixTreeBlockHash.new 4⟩) (faultThenNamed isFinished) x ∧
      x.replica.stage = .metered (named isFinished) ∧ Step Audit.plainExternal 16 x .deliver x' ∧ x.faulted = [1] ∧
      x'.swept = if isFinished then [] else [1] := by
  have facts : ((start ⟨.empty,RadixTreeBlockHash.new 4⟩).exec Audit.plainExternal 16 (faultThenNamed isFinished)).map
      (fun x : Cycle RadixTreeBlockHash => (x.replica.stage,x.faulted,(x.exec Audit.plainExternal 16 [.deliver]).map Cycle.swept)) =
      some (.metered (named isFinished),[1],some (if isFinished then [] else [1])) := by
    cases isFinished <;> decide
  obtain ⟨x,executed,shown⟩ := Option.map_eq_some_iff.mp facts
  simp only [Prod.mk.injEq] at shown
  obtain ⟨stage,faulted,last⟩ := shown
  obtain ⟨x',delivered,swept⟩ := Option.map_eq_some_iff.mp last
  obtain ⟨_,step,done⟩ := exec_cons delivered
  cases done
  exact ⟨x,x',run_exec .start executed,stage,step,faulted,swept⟩

theorem named_faults_stay_finished : ∃ x x' : Cycle RadixTreeBlockHash, Step Audit.plainExternal 16 x .deliver x' ∧ x.faulted = [1] ∧
    ∀ id ∈ x'.swept, id ∈ x.faulted ∧ ∀ o ∈ (named true).outputs, o.requestId ≠ id := by
  obtain ⟨x,x',run,stage,step,faulted,_⟩ := run_named true
  refine ⟨x,x',step,faulted,(named_faults_stay_iff _ run (by decide) stage step).mpr ?_⟩
  intro id member _
  rw [faulted] at member
  exact .inl ⟨_,List.mem_singleton_self _,rfl,(List.mem_singleton.mp member).symm⟩

-- The request is still running, and the step that says so drops its entry.
theorem named_fault_dropped : ¬∀ (history : List Action) (x x' : Cycle RadixTreeBlockHash) (m : EngineStepOutput),
    Run (Step Audit.plainExternal 16) (start ⟨.empty,RadixTreeBlockHash.new 4⟩) history x → (committedIn history).Nodup →
      x.replica.stage = .metered m → Step Audit.plainExternal 16 x .deliver x' →
      ∀ id ∈ x.faulted, (∃ o ∈ m.outputs, o.requestId = id) → id ∉ x'.swept := by
  intro always
  obtain ⟨x,x',run,stage,step,faulted,swept⟩ := run_named false
  refine always _ x x' _ run (by decide) stage step 1 (by rw [faulted]; decide) ⟨_,List.mem_singleton_self _,rfl⟩ ?_
  rw [swept]
  decide

end Cycle
end BlitzRouter
