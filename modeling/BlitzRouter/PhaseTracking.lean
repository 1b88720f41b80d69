import BlitzRouter.GuardedRuns

namespace BlitzRouter
open Radix

namespace CompletionLoop
variable {ext : External} {s s' : CompletionLoop} {d d' : LMetricDec} {o : RequestStepOutput} {id : RequestId}
  {entry : Entry} {m : EngineStepOutput} {errors extra : List RequestId} {left : List Entry}

-- Every tracked request has a phase, and a phase without its request is one of
-- `extra`: those that this step acknowledges.
structure Complete (extra : List RequestId) (s : CompletionLoop) : Prop where
  present : ∀ id, (s.find id).isSome = true → (s.requestPhases.lookup id).isSome = true
  orphan : ∀ id, (s.requestPhases.lookup id).isSome = true → (s.find id).isSome = true ∨ id ∈ extra

theorem Complete.same (complete : s.Complete extra)
    (rows : ∀ id, (s'.requestPhases.lookup id).isSome = (s.requestPhases.lookup id).isSome)
    (tracked : ∀ id, (s'.find id).isSome = (s.find id).isSome) : s'.Complete extra := by
  constructor
  · intro id inside
    rw [rows]
    exact complete.present id (tracked id ▸ inside)
  · intro id inside
    rw [tracked]
    exact complete.orphan id (rows id ▸ inside)

-- A request that goes together with its phase.
theorem Complete.without (complete : s.Complete extra) (id : RequestId)
    (rows : ∀ key, (s'.requestPhases.lookup key).isSome = true ↔ (s.requestPhases.lookup key).isSome = true ∧ key ≠ id)
    (tracked : ∀ key, (s'.find key).isSome = true ↔ (s.find key).isSome = true ∧ key ≠ id) : s'.Complete extra := by
  constructor
  · intro key inside
    obtain ⟨before,differs⟩ := (tracked key).mp inside
    exact (rows key).mpr ⟨complete.present key before,differs⟩
  · intro key inside
    obtain ⟨before,differs⟩ := (rows key).mp inside
    exact (complete.orphan key before).imp_left fun held => (tracked key).mpr ⟨held,differs⟩

theorem Complete.more {more : List RequestId} (complete : s.Complete extra) (inside : ∀ id ∈ extra, id ∈ more) :
    s.Complete more :=
  ⟨complete.present,fun id row => (complete.orphan id row).imp_right (inside id)⟩

theorem complete_new : Complete [] new := ⟨by simp [find,new,ExtContext.new],by simp [new]⟩

theorem Complete.receive (complete : s.Complete extra) : (s.receive entry).Complete extra := by
  unfold CompletionLoop.receive
  constructor
  · intro key inside
    by_cases same : key = entry.request.requestId
    · subst same; simp
    · simp only [find,AList.lookup_insert_ne same] at inside ⊢
      exact complete.present key inside
  · intro key inside
    by_cases same : key = entry.request.requestId
    · subst same; simp [find]
    · simp only [find,AList.lookup_insert_ne same] at inside ⊢
      exact complete.orphan key inside

theorem Complete.drain (complete : s.Complete extra) (posted : List Entry) : (s.drain posted).Complete extra := by
  induction posted generalizing s with
  | nil => exact complete
  | cons entry rest ih => exact ih complete.receive

theorem Advanced.rows {phases : Table RequestId RequestPhase} (advanced : Advanced s o phases) (key : RequestId) :
    (phases.lookup key).isSome = (s.requestPhases.lookup key).isSome := by
  by_cases same : key = o.requestId
  · subst same
    cases held : s.requestPhases.lookup o.requestId with
    | some phase =>
      obtain ⟨next,moved⟩ := advanced.moves phase held
      rw [(advanced.own next).mpr ⟨phase,held,moved⟩]
      rfl
    | none =>
      cases found : phases.lookup o.requestId with
      | none => rfl
      | some next =>
        obtain ⟨phase,held',_⟩ := (advanced.own next).mp found
        rw [held] at held'
        cases held'
  · rw [advanced.others key same]

theorem erase_rows {V : Type} (t : Table RequestId V) (id key : RequestId) :
    ((t.erase id).lookup key).isSome = true ↔ (t.lookup key).isSome = true ∧ key ≠ id := by
  by_cases same : key = id
  · subst same; simp
  · simp [AList.lookup_erase_ne same,same]

theorem Passed.complete (step : Passed s o s') (sound : s.Sound) (complete : s.Complete extra) : s'.Complete extra := by
  cases step with
  | unknown phases absent advanced => exact complete.same advanced.rows fun _ => rfl
  | update entry new phases cancel found goes account choice advanced =>
    refine complete.same advanced.rows fun key => ?_
    by_cases same : key = o.requestId
    · subst same; simp [find,found]
    · simp [find,AList.lookup_insert_ne same]
  | finish entry new phases cancel found ends account same advanced =>
    refine complete.without o.requestId ?_ ?_
    · intro key
      rw [erase_rows,advanced.rows]
    · intro key
      by_cases same : key = o.requestId
      · subst same
        have outside := sound.except.absent (sound.apart _ entry found)
        simp [find,outside]
      · simp [find,AList.lookup_erase_ne same,same]

theorem Moved.complete (step : Moved s id s') (complete : s.Complete extra) : s'.Complete extra := by
  cases step with
  | mk entry new st phases skipped found account holds marked =>
    refine complete.same ?_ ?_
    · intro key
      by_cases same : key = id
      · subst same; rw [marked.own,Option.isSome_map]
      · rw [marked.others key same]
    · intro key
      by_cases same : key = id
      · subst same; simp [find,found]
      · simp [find,AList.lookup_erase_ne same,AList.lookup_insert_ne same]

-- An acknowledgement takes its request off the extra ones, too.
theorem Termed.complete {rest : List RequestId} {returned : List Entry} (step : Termed s id s' returned) (sound : s.Sound)
    (complete : s.Complete (id::rest)) : s'.Complete rest := by
  cases step with
  | mk st record =>
    have outside := sound.outside_of_record record
    constructor
    · intro key inside
      have differs : key ≠ id := by rintro rfl; simp [find,outside] at inside
      rw [erase_rows]
      refine ⟨complete.present key ?_,differs⟩
      simpa [find,AList.lookup_erase_ne differs] using inside
    · intro key inside
      rw [erase_rows] at inside
      obtain ⟨row,differs⟩ := inside
      rcases complete.orphan key row with tracked | member
      · exact .inl (by simpa [find,AList.lookup_erase_ne differs] using tracked)
      · exact .inr (List.mem_of_ne_of_mem differs member)

theorem Sound.dropFaulted_complete (sound : s.Sound) (complete : s.Complete extra) (result : s.dropFaulted = .ok (s',left)) :
    s'.Complete extra := by
  obtain ⟨s'',left',result',leaves,dropped,drops,phases⟩ := sound.dropFaulted_leaving
  rw [result] at result'
  cases result'
  have gone : ∀ key, key ∈ dropped.map Prod.fst ↔
      ((s.exceptContext.states.dlookup key).map ExtStInner.isDropReady).getD false = true := by
    intro key
    constructor
    · intro member
      obtain ⟨row,inside,rfl⟩ := List.mem_map.mp member
      obtain ⟨_,st,record,ready⟩ := drops.taken row inside
      simp [record,ready]
    · intro ready
      cases record : s.exceptContext.states.dlookup key with
      | none => simp [record] at ready
      | some st => exact drops.all key st record (by simpa [record] using ready)
  have rows : ∀ key, (s'.requestPhases.lookup key).isSome = true ↔
      (s.requestPhases.lookup key).isSome = true ∧ key ∉ dropped.map Prod.fst := by
    intro key
    rw [phases,erases_lookup]
    split <;> simp_all
  have tracked : ∀ key, (s'.find key).isSome = true ↔ (s.find key).isSome = true ∧ key ∉ dropped.map Prod.fst := by
    intro key
    have kept := drops.kept key
    rw [find,find,leaves.entries,kept]
    by_cases ready : ((s.exceptContext.states.dlookup key).map ExtStInner.isDropReady).getD false = true
    · rw [if_pos ready]
      obtain ⟨row,inside,rfl⟩ := List.mem_map.mp ((gone key).mpr ready)
      obtain ⟨_,st,record,_⟩ := drops.taken row inside
      simp only [sound.outside_of_record record,(gone _).mpr ready,Option.or_none,Option.isSome_none,Bool.false_eq_true,
        not_true_eq_false,and_false]
    · rw [if_neg ready]
      simp only [(gone key).not.mpr ready,not_false_eq_true,and_true]
  constructor
  · intro key inside
    obtain ⟨before,stays⟩ := (tracked key).mp inside
    exact (rows key).mpr ⟨complete.present key before,stays⟩
  · intro key inside
    obtain ⟨before,stays⟩ := (rows key).mp inside
    exact (complete.orphan key before).imp_left fun held => (tracked key).mpr ⟨held,stays⟩

-- What the fast path may take out of the exception context: requests that the
-- same step acknowledges.
theorem Metered.complete (step : Metered s d o s' d') (complete : s.Complete extra)
    (acknowledged : o.isFinished = true → (s.exceptContext.entries.lookup o.requestId).isSome = true → o.requestId ∈ extra) :
    s'.Complete extra := by
  cases step with
  | unknown absent => exact complete
  | update entry new found goes account =>
    refine complete.same (fun key => by rw [store_phases]) fun key => ?_
    by_cases same : key = o.requestId
    · subst same; rw [find_store,found]; rfl
    · rw [find_store_ne same]
  | finish entry kept ends => exact complete
  | exit entry st absent held record ends =>
    constructor
    · intro key inside
      exact complete.present key (tracked_of_erase (s := s) (by rfl) (by rfl) key inside)
    · intro key inside
      by_cases same : key = o.requestId
      · subst same
        exact .inr (acknowledged ends (by rw [held]; rfl))
      · refine (complete.orphan key inside).imp_left fun tracked => ?_
        simpa [find,AList.lookup_erase_ne same] using tracked

theorem Metered.except_shrinks (step : Metered s d o s' d')
    (inside : (s'.exceptContext.entries.lookup id).isSome = true) : (s.exceptContext.entries.lookup id).isSome = true := by
  cases step with
  | unknown absent => exact inside
  | update entry new found goes account => rwa [← (store_tracked found id).2]
  | finish entry kept ends => exact inside
  | exit entry st absent held record ends => exact ((erase_rows _ _ _).mp inside).1

theorem Carries.complete (carries : Carries s s') (complete : s.Complete extra) : s'.Complete extra := by
  refine complete.same (fun id => by rw [carries.kept.phases]) fun id => ?_
  have same := congrArg Option.isSome (carries.found id)
  rwa [Option.isSome_map,Option.isSome_map] at same

theorem Sound.meter_complete {β : Type} [BlockHash β] {context context' : ScheduleContext β} (sound : s.Sound)
    (complete : s.Complete [])
    (acknowledged : ∀ o ∈ m.outputs, o.isFinished = true → (s.exceptContext.entries.lookup o.requestId).isSome = true →
      o.requestId ∈ m.abortedRequests)
    (result : s.meter ext context m = .ok (s',context')) : s'.Complete m.abortedRequests := by
  obtain ⟨s₁,d,fast,cache,_⟩ := meter_phases result
  have metered := sound.meterOutputs_induct
    (P := fun t => t.Complete m.abortedRequests ∧
      ∀ id, (t.exceptContext.entries.lookup id).isSome = true → (s.exceptContext.entries.lookup id).isSome = true)
    ⟨complete.more (by simp),fun _ => id⟩
    (fun t d o t' d' member _ before step =>
      ⟨step.complete before.1 fun ends held => acknowledged o member ends (before.2 _ held),
        fun id inside => before.2 id (step.except_shrinks inside)⟩) fast
  exact (carries_cacheUpdate cache).complete metered.2.1

theorem Sound.passGenerations_complete (sound : s.Sound) (complete : s.Complete m.abortedRequests)
    (result : s.passGenerations ext m errors = .ok (s',left)) : s'.Complete [] := by
  obtain ⟨s₁,s₂,s₃,s₄,s₅,terminated,dropped,slow,aborted,faulted,ended,ends,rfl,rfl⟩ := passGenerations_phases result
  have passing := sound.passing slow
  obtain ⟨_,complete₁⟩ := slowPath_induct (P := fun t => t.Sound ∧ t.Complete m.abortedRequests) ⟨sound,complete⟩
    (fun _ _ _ _ before step => ⟨step.sound before.1,step.complete before.1 before.2⟩) slow
  have sound₁ : Sound {s₁ with cancelReqIds := []} := passing.sound.uncancelled
  have complete₂ : s₂.Complete m.abortedRequests := onFrontendAbort_induct ⟨complete₁.present,complete₁.orphan⟩
    (fun _ _ _ complete step => step.complete complete) aborted
  have sound₂ := (sound₁.onFrontendAbort_moving aborted).sound sound₁
  have complete₃ : s₃.Complete m.abortedRequests := onBackendFault_induct complete₂
    (fun _ _ _ complete step => step.complete complete) faulted
  have sound₃ := (sound₂.onBackendFault_moving faulted).sound sound₂
  have complete₄ : s₄.Complete [] := sound₃.terms_induct (P := fun ids t => t.Complete ids) complete₃
    (fun _ _ _ _ _ sound complete step => step.complete sound complete) ended
  have complete₅ := (sound₃.terms_leaving ended).sound.dropFaulted_complete complete₄ ends
  exact ⟨complete₅.present,complete₅.orphan⟩

end CompletionLoop

namespace Replica
open CompletionLoop
variable {β : Type} [BlockHash β] {ext : External} {blockSize : Nat} {r r' : Replica β} {a : Action} {history : List Action}

-- An excepted request that finishes is acknowledged by the same step.
def ExitsAcknowledged (r : Replica β) (a : Action) : Prop :=
  ∀ m ∈ r.metering a, ∀ o ∈ m.outputs, o.isFinished = true →
    (r.loop.exceptContext.entries.lookup o.requestId).isSome = true → o.requestId ∈ m.abortedRequests

def acknowledgedNow : Stage → List RequestId
  | .metered m => m.abortedRequests
  | _ => []

theorem complete_step {committed : List RequestId} (owned : Owned committed r)
    (complete : r.loop.Complete (acknowledgedNow r.stage)) (step : Guarded ext blockSize ExitsAcknowledged r a r') :
    r'.loop.Complete (acknowledgedNow r'.stage) := by
  obtain ⟨⟨enabled,result⟩,acknowledged⟩ := step
  cases a with
  | commit request reads cached =>
    obtain ⟨_,hits,entry,_,_,done⟩ := commit_cases result
    rw [done.result]
    exact complete
  | addRequest => cases result; exact complete
  | send => cases result; exact complete
  | notify id => cases result; exact complete
  | recvStep m =>
    cases result
    rw [enabled.1] at complete
    exact complete.drain _
  | meter =>
    obtain ⟨m,stage⟩ := enabled
    have named := acknowledged m (metering_meter stage)
    rw [stage] at complete
    obtain ⟨loop,context,metered,rfl⟩ := perform_meter stage result
    exact owned.sound.meter_complete complete named metered
  | deliver =>
    obtain ⟨m,stage⟩ := enabled
    rw [stage] at complete
    obtain ⟨loop,context,delivered,rfl⟩ := perform_deliver stage result
    obtain ⟨left,passed,_⟩ := deliver_cases delivered
    exact owned.sound.passGenerations_complete complete passed

-- While every excepted request that finishes is acknowledged in the same step,
-- the phases on record are those of the tracked requests at every boundary.
theorem phases_complete (context : ScheduleContext β) (run : Run (Guarded ext blockSize ExitsAcknowledged) (start context) history r)
    (fresh : (committedIn history).Nodup) (idle : r.stage = .idle) (id : RequestId) :
    (r.loop.requestPhases.lookup id).isSome = true ↔
      (r.loop.entries.lookup id).isSome = true ∨ (r.loop.exceptContext.entries.lookup id).isSome = true := by
  have complete : r.loop.Complete (acknowledgedNow r.stage) := by
    clear idle
    induction run with
    | start => exact complete_new
    | next path taken ih =>
      rw [committedIn_append] at fresh
      have before := (List.nodup_append.mp fresh).1
      exact complete_step ((owned_start context).run (Guarded.run path) (by simpa using before)) (ih before) taken
  rw [idle] at complete
  have tracked : (r.loop.find id).isSome = true ↔
      (r.loop.entries.lookup id).isSome = true ∨ (r.loop.exceptContext.entries.lookup id).isSome = true := by
    rw [find,Option.isSome_or,Bool.or_eq_true]
  rw [← tracked]
  exact ⟨fun row => (complete.orphan id row).resolve_right List.not_mem_nil,complete.present id⟩

instance (r : Replica β) (a : Action) : Decidable (ExitsAcknowledged r a) :=
  inferInstanceAs (Decidable (∀ m ∈ r.metering a, ∀ o ∈ m.outputs, o.isFinished = true →
    (r.loop.exceptContext.entries.lookup o.requestId).isSome = true → o.requestId ∈ m.abortedRequests))

end Replica

namespace Audit
open Replica

theorem phases_complete_aborted : ∃ r : Replica RadixTreeBlockHash, r.stage = .idle ∧
    ((r.loop.requestPhases.lookup 1).isSome = true ↔
      (r.loop.entries.lookup 1).isSome = true ∨ (r.loop.exceptContext.entries.lookup 1).isSome = true) := by
  obtain ⟨r,executed⟩ : ∃ r, (Replica.start ⟨.empty,RadixTreeBlockHash.new 4⟩).execIf plainExternal 16 ExitsAcknowledged
      abortedRequest = some r := Option.isSome_iff_exists.mp (by decide)
  have idle : ((Replica.start ⟨.empty,RadixTreeBlockHash.new 4⟩).execIf plainExternal 16 ExitsAcknowledged abortedRequest).map
      stage = some .idle := by decide
  rw [executed] at idle
  have stays := Option.some.inj idle
  exact ⟨r,stays,phases_complete ⟨.empty,RadixTreeBlockHash.new 4⟩ (run_execIf .start executed) (by decide) stays 1⟩

-- The client has left, and the request finishes before the engine acknowledges:
-- its entry goes with the Exit event, its phase stays.
def exitedRequest : List Action :=
  [.commit (shortRequest 1) (some 1) ⟨0,0⟩,.addRequest,.send,.recvStep (plainStep 1 [plainOutput 1 .prefill false [5]] []),
    .meter,.deliver,.recvStep (plainStep 0 [plainOutput 1 .decode true [6]] []),.meter,.deliver]

theorem exit_leaks_phase :
    ¬∀ (history : List Action) (r : Replica RadixTreeBlockHash),
      Run (Guarded plainExternal 16 NamesTracked) (Replica.start ⟨.empty,RadixTreeBlockHash.new 4⟩) history r →
      (committedIn history).Nodup → r.stage = .idle → ∀ id, ((r.loop.requestPhases.lookup id).isSome = true ↔
        (r.loop.entries.lookup id).isSome = true ∨ (r.loop.exceptContext.entries.lookup id).isSome = true) := by
  intro claimed
  obtain ⟨r,executed⟩ : ∃ r, (Replica.start ⟨.empty,RadixTreeBlockHash.new 4⟩).execIf plainExternal 16 NamesTracked
      exitedRequest = some r := Option.isSome_iff_exists.mp (by decide)
  have outcome : ((Replica.start ⟨.empty,RadixTreeBlockHash.new 4⟩).execIf plainExternal 16 NamesTracked exitedRequest).map
      (fun r => (r.stage,(r.loop.requestPhases.lookup 1).isSome,(r.loop.entries.lookup 1).isSome,
        (r.loop.exceptContext.entries.lookup 1).isSome)) = some (.idle,true,false,false) := by decide
  rw [executed] at outcome
  simp only [Option.map_some,Option.some.injEq,Prod.mk.injEq] at outcome
  obtain ⟨idle,row,kept,held⟩ := outcome
  have exact_ := claimed exitedRequest r (run_execIf .start executed) (by decide) idle 1
  rw [row,kept,held] at exact_
  simp at exact_

end Audit
end BlitzRouter
