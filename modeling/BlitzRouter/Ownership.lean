import BlitzRouter.Audit

namespace BlitzRouter
open Radix CompletionLoop

namespace CompletionLoop
variable {ext : External} {s s' : CompletionLoop} {d d' : LMetricDec} {o : RequestStepOutput} {id : RequestId}
  {entry : Entry} {m : EngineStepOutput} {errors : List RequestId} {left : List Entry}

-- A request in `entries` is in a normal phase. Any other phase that is still on
-- record is Excepted.
structure Phased (s : CompletionLoop) : Prop where
  normal : ∀ id, (s.entries.lookup id).isSome = true →
    ∃ phase, s.requestPhases.lookup id = some phase ∧ phase ≠ .excepted
  excepted : ∀ id phase, s.entries.lookup id = none → s.requestPhases.lookup id = some phase → phase = .excepted

theorem transition_excepted {phase next : RequestPhase} {state : SseState} (moved : phase.transition id state = .ok next) :
    next = .excepted ↔ phase = .excepted := by
  cases phase <;> cases state <;> cases moved <;> simp

theorem Advanced.normal {phases : Table RequestId RequestPhase} (advanced : Advanced s o phases) {key : RequestId}
    (before : ∃ phase, s.requestPhases.lookup key = some phase ∧ phase ≠ .excepted) :
    ∃ phase, phases.lookup key = some phase ∧ phase ≠ .excepted := by
  by_cases same : key = o.requestId
  · subst same
    obtain ⟨phase,held,normal⟩ := before
    obtain ⟨next,moved⟩ := advanced.moves phase held
    exact ⟨next,(advanced.own next).mpr ⟨phase,held,moved⟩,fun same => normal ((transition_excepted moved).mp same)⟩
  · rwa [advanced.others key same]

theorem Advanced.excepted {phases : Table RequestId RequestPhase} (advanced : Advanced s o phases) {key : RequestId}
    {next : RequestPhase} (before : ∀ phase, s.requestPhases.lookup key = some phase → phase = .excepted)
    (found : phases.lookup key = some next) : next = .excepted := by
  by_cases same : key = o.requestId
  · subst same
    obtain ⟨phase,held,moved⟩ := (advanced.own next).mp found
    exact (transition_excepted moved).mpr (before phase held)
  · rw [advanced.others key same] at found
    exact before next found

theorem phased_new : Phased new := ⟨by simp [new],by simp [new]⟩

theorem Phased.receive (phased : s.Phased) : (s.receive entry).Phased := by
  unfold CompletionLoop.receive
  constructor
  · intro key inside
    by_cases same : key = entry.request.requestId
    · subst same
      exact ⟨.waiting,AList.lookup_insert _,by simp⟩
    · rw [AList.lookup_insert_ne same] at inside ⊢
      exact phased.normal key inside
  · intro key phase absent found
    have differs : key ≠ entry.request.requestId := by rintro rfl; simp at absent
    rw [AList.lookup_insert_ne differs] at absent found
    exact phased.excepted key phase absent found

theorem Phased.drain (phased : s.Phased) (posted : List Entry) : (s.drain posted).Phased := by
  induction posted generalizing s with
  | nil => exact phased
  | cons entry rest ih => exact ih phased.receive

theorem Kept.phased (kept : Kept s s') (phased : s.Phased) : s'.Phased := by
  constructor
  · intro key inside
    rw [kept.phases]
    exact phased.normal key (kept.tracked key ▸ inside)
  · intro key phase absent found
    rw [kept.phases] at found
    refine phased.excepted key phase ?_ found
    have same := kept.tracked key
    rw [absent] at same
    cases held : s.entries.lookup key with
    | none => rfl
    | some entry => rw [held] at same; cases same

theorem Passed.phased (step : Passed s o s') (phased : s.Phased) : s'.Phased := by
  cases step with
  | unknown phases absent advanced =>
    exact ⟨fun key inside => advanced.normal (phased.normal key inside),
      fun key phase outside => advanced.excepted fun p => phased.excepted key p outside⟩
  | update entry new phases cancel found goes account choice advanced =>
    constructor
    · intro key inside
      refine advanced.normal (phased.normal key ?_)
      by_cases same : key = o.requestId
      · rw [same,found]; rfl
      · simpa [AList.lookup_insert_ne same] using inside
    · intro key phase outside
      have differs : key ≠ o.requestId := by rintro rfl; simp at outside
      exact advanced.excepted fun p => phased.excepted key p (by simpa [AList.lookup_insert_ne differs] using outside)
  | finish entry new phases cancel found ends account same advanced =>
    constructor
    · intro key inside
      have differs : key ≠ o.requestId := by rintro rfl; simp at inside
      simp only [AList.lookup_erase_ne differs] at inside ⊢
      exact advanced.normal (phased.normal key inside)
    · intro key phase outside inside
      have differs : key ≠ o.requestId := by rintro rfl; simp at inside
      simp only [AList.lookup_erase_ne differs] at outside inside
      exact advanced.excepted (fun p => phased.excepted key p outside) inside

theorem Moved.phased (step : Moved s id s') (phased : s.Phased) : s'.Phased := by
  cases step with
  | mk entry new st phases skipped found account holds marked =>
    constructor
    · intro key inside
      have differs : key ≠ id := by rintro rfl; simp at inside
      simp only [AList.lookup_erase_ne differs] at inside
      simp only [marked.others key differs]
      exact phased.normal key inside
    · intro key phase outside inside
      by_cases same : key = id
      · subst same
        simp only [marked.own,Option.map_eq_some_iff] at inside
        obtain ⟨_,_,rfl⟩ := inside
        rfl
      · simp only [AList.lookup_erase_ne same] at outside
        simp only [marked.others key same] at inside
        exact phased.excepted key phase outside inside

-- Rows of requests outside `entries` may go.
theorem Phased.forget (phased : s.Phased) (entries : s'.entries = s.entries)
    (kept : ∀ id, (s.entries.lookup id).isSome = true → s'.requestPhases.lookup id = s.requestPhases.lookup id)
    (fewer : ∀ id phase, s'.requestPhases.lookup id = some phase → s.requestPhases.lookup id = some phase) : s'.Phased := by
  constructor
  · intro key inside
    rw [entries] at inside
    rw [kept key inside]
    exact phased.normal key inside
  · intro key phase outside inside
    exact phased.excepted key phase (entries ▸ outside) (fewer key phase inside)

theorem Sound.outside_of_record (sound : s.Sound) {st : ExtStInner} (record : s.exceptContext.states.dlookup id = some st) :
    s.entries.lookup id = none := by
  cases kept : s.entries.lookup id with
  | none => rfl
  | some entry =>
    rw [sound.apart id entry kept] at record
    cases record

theorem Sound.outside_of_except (sound : s.Sound) (held : (s.exceptContext.entries.lookup id).isSome = true) :
    s.entries.lookup id = none := by
  obtain ⟨st,record,_⟩ := (sound.except.held id).mp (Option.isSome_iff_exists.mp held)
  exact sound.outside_of_record record

theorem Termed.phased (step : Termed s id s' left) (sound : s.Sound) (phased : s.Phased) : s'.Phased := by
  cases step with
  | mk st record =>
    have outside := sound.outside_of_record record
    refine phased.forget rfl ?_ ?_
    · intro key inside
      have differs : key ≠ id := by rintro rfl; rw [outside] at inside; cases inside
      exact AList.lookup_erase_ne differs
    · intro key phase inside
      have differs : key ≠ id := by rintro rfl; simp at inside
      simpa [AList.lookup_erase_ne differs] using inside

theorem erases_lookup {V : Type} (rows : List (RequestId × Entry)) (phases : Table RequestId V) (key : RequestId) :
    (rows.foldl (fun phases row => phases.erase row.1) phases).lookup key =
      if key ∈ rows.map Prod.fst then none else phases.lookup key := by
  induction rows generalizing phases with
  | nil => simp
  | cons row rest ih =>
    rw [List.foldl_cons,ih,List.map_cons]
    by_cases same : key = row.1
    · subst same; simp
    · rw [AList.lookup_erase_ne same]
      simp only [List.mem_cons,same,false_or]

theorem Sound.dropFaulted_phased (sound : s.Sound) (phased : s.Phased) (result : s.dropFaulted = .ok (s',left)) : s'.Phased := by
  obtain ⟨s'',left',result',leaves,dropped,drops,phases⟩ := sound.dropFaulted_leaving
  rw [result] at result'
  cases result'
  have outside : ∀ key ∈ dropped.map Prod.fst, s.entries.lookup key = none := by
    intro key member
    obtain ⟨row,inside,rfl⟩ := List.mem_map.mp member
    obtain ⟨_,st,record,_⟩ := drops.taken row inside
    exact sound.outside_of_record record
  refine phased.forget leaves.entries ?_ ?_
  · intro key inside
    rw [phases,erases_lookup,if_neg]
    intro member
    rw [outside key member] at inside
    cases inside
  · intro key phase inside
    rw [phases,erases_lookup] at inside
    split at inside
    · cases inside
    · exact inside

theorem Sound.fastPath_phased (sound : s.Sound) (phased : s.Phased) (result : s.fastPath ext m = .ok (s',d)) :
    s'.Sound ∧ s'.Phased :=
  sound.meterOutputs_induct phased (fun _ _ _ _ _ _ _ phased step => step.kept.phased phased) result

theorem Sound.meter_phased {β : Type} [BlockHash β] {context context' : ScheduleContext β} (sound : s.Sound) (phased : s.Phased)
    (result : s.meter ext context m = .ok (s',context')) : s'.Sound ∧ s'.Phased := by
  obtain ⟨s₁,d,fast,cache,_⟩ := meter_phases result
  obtain ⟨sound₁,phased₁⟩ := sound.fastPath_phased phased fast
  have carries := carries_cacheUpdate cache
  exact ⟨carries.sound sound₁,carries.kept.phased phased₁⟩

theorem Sound.passGenerations_phased (sound : s.Sound) (phased : s.Phased)
    (result : s.passGenerations ext m errors = .ok (s',left)) : s'.Phased := by
  obtain ⟨s₁,s₂,s₃,s₄,s₅,terminated,dropped,slow,aborted,faulted,ended,ends,rfl,rfl⟩ := passGenerations_phases result
  have passing := sound.passing slow
  have phased₁ : s₁.Phased := slowPath_induct phased (fun _ _ _ _ phased step => step.phased phased) slow
  have sound₁ : Sound {s₁ with cancelReqIds := []} := passing.sound.uncancelled
  have aborts := sound₁.onFrontendAbort_moving aborted
  have phased₂ : s₂.Phased := onFrontendAbort_induct ⟨phased₁.normal,phased₁.excepted⟩ (fun _ _ _ phased step => step.phased phased) aborted
  have sound₂ := aborts.sound sound₁
  have faults := sound₂.onBackendFault_moving faulted
  have phased₃ : s₃.Phased := onBackendFault_induct phased₂ (fun _ _ _ phased step => step.phased phased) faulted
  have sound₃ := faults.sound sound₂
  have leaves := sound₃.terms_leaving ended
  have phased₄ : s₄.Phased := sound₃.terms_induct (P := fun _ s => s.Phased) phased₃
    (fun _ _ _ _ _ sound phased step => step.phased sound phased) ended
  have phased₅ := leaves.sound.dropFaulted_phased phased₄ ends
  exact ⟨phased₅.normal,phased₅.excepted⟩

theorem Sound.known_of_tracked (sound : s.Sound) (inside : (s.find id).isSome = true) : s.Known id := by
  unfold find at inside
  rw [Option.isSome_or,Bool.or_eq_true] at inside
  rcases inside with kept | held
  · exact .inl kept
  · obtain ⟨st,record,_⟩ := (sound.except.held id).mp (Option.isSome_iff_exists.mp held)
    exact .inr (by rw [record]; rfl)

theorem Metered.tracked (step : Metered s d o s' d') (inside : (s'.find id).isSome = true) : (s.find id).isSome = true := by
  cases step with
  | unknown absent => exact inside
  | update entry new found goes account =>
    by_cases same : id = o.requestId
    · rw [same,found]; rfl
    · rwa [find_store_ne same] at inside
  | finish entry kept ends => exact inside
  | exit entry st absent held record ends => exact tracked_of_erase (s := s) (by rfl) (by rfl) id inside

-- What the first half of an iteration leaves in place.
theorem Sound.meter_keeps {β : Type} [BlockHash β] {context context' : ScheduleContext β} (sound : s.Sound)
    (result : s.meter ext context m = .ok (s',context')) :
    Kept s s' ∧ ∀ id, (s'.find id).isSome = true → (s.find id).isSome = true := by
  obtain ⟨s₁,d,fast,cache,_⟩ := meter_phases result
  obtain ⟨_,kept,tracked⟩ := sound.meterOutputs_induct
    (P := fun t => Kept s t ∧ ∀ id, (t.find id).isSome = true → (s.find id).isSome = true) ⟨.refl s,fun _ => id⟩
    (fun _ _ _ _ _ _ _ before step => ⟨before.1.trans step.kept,fun id inside => before.2 id (step.tracked inside)⟩) fast
  have carries := carries_cacheUpdate cache
  refine ⟨kept.trans carries.kept,fun id inside => tracked id ?_⟩
  have same := congrArg Option.isSome (carries.found id)
  rw [Option.isSome_map,Option.isSome_map] at same
  rwa [← same]

end CompletionLoop

namespace Replica
variable {β : Type} {ext : External} {blockSize : Nat} {r r' : Replica β} {a : Action} {id : RequestId}
  {committed : List RequestId} {history : List Action}

def pendingIds (r : Replica β) : List RequestId := r.pending.map fun entry => entry.request.requestId

-- Ids committed over a history.
def committedIn (history : List Action) : List RequestId := history.flatMap committedBy

-- Every id is committed once, and is in the queues or known to the loop.
structure Owned (committed : List RequestId) (r : Replica β) : Prop where
  sound : r.loop.Sound
  phased : r.loop.Phased
  distinct : r.pendingIds.Nodup
  outside : ∀ id ∈ r.pendingIds, ¬r.loop.Known id
  known : ∀ id, r.loop.Known id → id ∈ committed
  posted : ∀ id ∈ r.pendingIds, id ∈ committed

theorem owned_start (context : ScheduleContext β) : Owned [] (start context) :=
  ⟨sound_new,phased_new,List.nodup_nil,by simp [pendingIds,pending,start],
    by simp [Known,start,CompletionLoop.new,ExtContext.new],by simp [pendingIds,pending,start]⟩

-- One action: where requests can be afterwards.
structure Advances (committed : List RequestId) (r : Replica β) (a : Action) (r' : Replica β) : Prop where
  owned : Owned (committed++committedBy a) r'
  pending : ∀ id ∈ r'.pendingIds, id ∈ r.pendingIds ∨ id ∈ committedBy a
  tracked : ∀ id, (r'.loop.find id).isSome = true → (r.loop.find id).isSome = true ∨ id ∈ r.pendingIds

theorem Handed.advances (handed : Handed r r') (quiet : committedBy a = []) (owned : Owned committed r) :
    Advances committed r a r' := by
  cases handed with
  | mk queued channel admitting errors perm =>
    have ids := perm.map fun entry => entry.request.requestId
    rw [← pendingIds] at ids
    refine ⟨?_,fun id member => .inl (ids.mem_iff.mp member),fun _ inside => .inl inside⟩
    rw [quiet,List.append_nil]
    exact ⟨owned.sound,owned.phased,ids.nodup_iff.mpr owned.distinct,fun id member => owned.outside id (ids.mem_iff.mp member),
      owned.known,fun id member => owned.posted id (ids.mem_iff.mp member)⟩

theorem Owned.commit [BlockHash β] {request : ValidGenerateRequest} {reads : Option Nat} {cached : Observation} (owned : Owned committed r)
    (fresh : request.requestId ∉ committed) (result : r.commit ext blockSize request reads cached = .ok r') :
    Advances committed r (.commit request reads cached) r' := by
  obtain ⟨_,hits,entry,_,_,done⟩ := commit_cases result
  have named : entry.request = request := congrArg Account.request done.account
  have perm : r'.pendingIds.Perm (request.requestId::r.pendingIds) := by
    rw [done.result]
    simp only [pendingIds,pending,List.append_assoc]
    have moved := List.perm_append_comm_assoc r.queued [entry] (r.admitting.toList++r.channel)
    simpa only [named,List.map_append,List.map_cons,List.cons_append,List.nil_append,List.append_assoc] using
      moved.map fun entry => entry.request.requestId
  have loop : r'.loop = r.loop := by rw [done.result]
  refine ⟨⟨loop ▸ owned.sound,loop ▸ owned.phased,?_,?_,?_,?_⟩,?_,fun _ inside => .inl (loop ▸ inside)⟩
  · exact perm.nodup_iff.mpr (List.nodup_cons.mpr ⟨fun member => fresh (owned.posted _ member),owned.distinct⟩)
  · intro id member known
    rw [loop] at known
    rcases List.mem_cons.mp (perm.mem_iff.mp member) with rfl | old
    · exact fresh (owned.known _ known)
    · exact owned.outside id old known
  · exact fun id known => List.mem_append_left _ (owned.known id (loop ▸ known))
  · intro id member
    rcases List.mem_cons.mp (perm.mem_iff.mp member) with rfl | old
    · exact List.mem_append_right _ (List.mem_singleton_self _)
    · exact List.mem_append_left _ (owned.posted id old)
  · intro id member
    rcases List.mem_cons.mp (perm.mem_iff.mp member) with rfl | old
    · exact .inr (List.mem_singleton_self _)
    · exact .inl old

theorem Owned.drained (owned : Owned committed r) : Drained r.loop r.channel (r.loop.drain r.channel) := by
  have distinct := owned.distinct
  rw [pendingIds,pending,List.map_append] at distinct
  refine owned.sound.drain (List.nodup_append.mp distinct).2.1 fun e member => owned.outside _ ?_
  exact List.mem_map_of_mem (List.mem_append_right _ member)

theorem Owned.recvStep {m : EngineStepOutput} (owned : Owned committed r) :
    Advances committed r (.recvStep m) {r with loop := r.loop.drain r.channel,channel := [],stage := .received m} := by
  have drained := owned.drained
  have split : r.pendingIds = ((r.queued++r.admitting.toList).map fun entry => entry.request.requestId)++
      r.channel.map fun entry => entry.request.requestId := by rw [pendingIds,pending,List.map_append]
  have distinct := owned.distinct
  rw [split] at distinct
  obtain ⟨front,_,apart⟩ := List.nodup_append.mp distinct
  have known : ∀ id, (r.loop.drain r.channel).Known id → r.loop.Known id ∨ id ∈ r.channel.map fun entry => entry.request.requestId :=
    fun id held => (drained.known id).mp held
  have behind : ∀ id ∈ r.channel.map fun entry => entry.request.requestId, id ∈ r.pendingIds := fun id member =>
    split ▸ List.mem_append_right _ member
  have ahead : ∀ id, id ∈ (r.queued++r.admitting.toList++[]).map (fun entry : Entry => entry.request.requestId) →
      id ∈ (r.queued++r.admitting.toList).map fun entry => entry.request.requestId := fun id member => by
    rwa [List.append_nil] at member
  have before : ∀ id, id ∈ (r.queued++r.admitting.toList++[]).map (fun entry : Entry => entry.request.requestId) →
      id ∈ r.pendingIds :=
    fun id member => split ▸ List.mem_append_left _ (ahead id member)
  refine ⟨?_,fun id member => .inl (before id member),?_⟩
  · simp only [committedBy,List.append_nil]
    refine ⟨drained.sound,owned.phased.drain _,?_,?_,?_,fun id member => owned.posted id (before id member)⟩
    · simpa [pendingIds,pending] using front
    · intro id member held
      rcases known id held with old | posted
      · exact owned.outside id (before id member) old
      · exact apart id (ahead id member) id posted rfl
    · intro id held
      rcases known id held with old | posted
      · exact owned.known id old
      · exact owned.posted id (behind id posted)
  · intro id inside
    rcases known id (drained.sound.known_of_tracked inside) with old | posted
    · rw [drained.found id old] at inside
      exact .inl inside
    · exact .inr (behind id posted)

theorem Owned.step [BlockHash β] (owned : Owned committed r) (fresh : ∀ id ∈ committedBy a, id ∉ committed)
    (step : Step ext blockSize r a r') : Advances committed r a r' := by
  obtain ⟨enabled,result⟩ := step
  cases a with
  | commit request reads cached => exact owned.commit (fresh _ (List.mem_singleton_self _)) result
  | addRequest => cases result; exact (handed_addRequest enabled.1).advances rfl owned
  | send => cases result; exact handed_send.advances rfl owned
  | notify id => cases result; exact (handed_notify id).advances rfl owned
  | recvStep m => cases result; exact owned.recvStep
  | meter =>
    obtain ⟨m,stage⟩ := enabled
    obtain ⟨loop,context,metered,rfl⟩ := perform_meter stage result
    obtain ⟨sound,phased⟩ := owned.sound.meter_phased owned.phased metered
    obtain ⟨kept,tracked⟩ := owned.sound.meter_keeps metered
    refine ⟨?_,fun _ member => .inl member,fun id inside => .inl (tracked id inside)⟩
    simp only [committedBy,List.append_nil]
    exact ⟨sound,phased,owned.distinct,fun id member known => owned.outside id member ((kept.known id).mp known),
      fun id known => owned.known id ((kept.known id).mp known),owned.posted⟩
  | deliver =>
    obtain ⟨m,stage⟩ := enabled
    obtain ⟨loop,context,delivered,rfl⟩ := perform_deliver stage result
    obtain ⟨left,passed,_⟩ := deliver_cases delivered
    have delivering := owned.sound.delivering passed
    refine ⟨?_,fun _ member => .inl member,fun id inside => .inl (delivering.tracked id inside)⟩
    simp only [committedBy,List.append_nil]
    exact ⟨delivering.sound,owned.sound.passGenerations_phased owned.phased passed,owned.distinct,
      fun id member known => owned.outside id member (delivering.known id known),
      fun id known => owned.known id (delivering.known id known),owned.posted⟩

theorem committedIn_append (past : List Action) (a : Action) : committedIn (past++[a]) = committedIn past++committedBy a := by
  simp [committedIn]

-- Induction on the run, from any owned state on.
theorem Owned.run [BlockHash β] {from_ : Replica β} (owned : Owned committed from_) (run : Run (Step ext blockSize) from_ history r)
    (fresh : (committed++committedIn history).Nodup) : Owned (committed++committedIn history) r := by
  induction run with
  | start => simpa [committedIn] using owned
  | next _ taken ih =>
    rw [committedIn_append,← List.append_assoc] at fresh ⊢
    obtain ⟨before,_,apart⟩ := List.nodup_append.mp fresh
    exact ((ih before).step (fun id member inside => apart id inside id member rfl) taken).owned

-- A committed id that is not pending is never pending again.
theorem Owned.received [BlockHash β] {from_ : Replica β} (owned : Owned committed from_) (inside : id ∈ committed)
    (outside : id ∉ from_.pendingIds) (run : Run (Step ext blockSize) from_ history r)
    (fresh : (committed++committedIn history).Nodup) : id ∉ r.pendingIds := by
  induction run with
  | start => exact outside
  | next path taken ih =>
    rw [committedIn_append,← List.append_assoc] at fresh
    obtain ⟨before,_,apart⟩ := List.nodup_append.mp fresh
    have advances := (owned.run path before).step (fun id member inside => apart id inside id member rfl) taken
    intro member
    rcases advances.pending id member with old | new
    · exact ih before old
    · exact apart id (List.mem_append_left _ inside) id new rfl

-- Nor does it come back to the loop once it has left both maps.
theorem Owned.gone [BlockHash β] {from_ : Replica β} (owned : Owned committed from_) (inside : id ∈ committed)
    (outside : id ∉ from_.pendingIds) (left : from_.loop.find id = none) (run : Run (Step ext blockSize) from_ history r)
    (fresh : (committed++committedIn history).Nodup) : r.loop.find id = none := by
  induction run with
  | start => exact left
  | next path taken ih =>
    rename_i t _
    rw [committedIn_append,← List.append_assoc] at fresh
    obtain ⟨before,_,apart⟩ := List.nodup_append.mp fresh
    have advances := (owned.run path before).step (fun id member inside => apart id inside id member rfl) taken
    cases found : t.loop.find id with
    | none => rfl
    | some entry =>
      rcases advances.tracked id (by rw [found]; rfl) with old | pending
      · rw [ih before] at old; cases old
      · exact absurd pending (owned.received inside outside path before)

variable [BlockHash β]

-- Who holds a request between two steps of the loop, in which phase, and that one
-- that has left both maps never comes back.
theorem ownership_at_boundary (context : ScheduleContext β) (run : Run (Step ext blockSize) (start context) history r)
    (fresh : (committedIn history).Nodup) :
    (∀ id, ¬((r.loop.entries.lookup id).isSome = true ∧ (r.loop.exceptContext.entries.lookup id).isSome = true)) ∧
      (∀ id, (r.loop.entries.lookup id).isSome = true →
        ∃ phase, r.loop.requestPhases.lookup id = some phase ∧ phase ≠ .excepted) ∧
      (∀ id phase, (r.loop.exceptContext.entries.lookup id).isSome = true → r.loop.requestPhases.lookup id = some phase →
        phase = .excepted) ∧
      ∀ (past later rest : List Action) (r₀ r₁ : Replica β) (id : RequestId), history = past++later++rest →
        Run (Step ext blockSize) (start context) past r₀ → Run (Step ext blockSize) r₀ later r₁ →
        Run (Step ext blockSize) r₁ rest r → (r₀.loop.find id).isSome = true → r₁.loop.find id = none →
        r.loop.find id = none := by
  have owned := (owned_start context).run run (by simpa using fresh)
  refine ⟨?_,owned.phased.normal,?_,?_⟩
  · rintro id ⟨kept,held⟩
    rw [owned.sound.outside_of_except held] at kept
    cases kept
  · intro id phase held found
    exact owned.phased.excepted id phase (owned.sound.outside_of_except held) found
  · intro past later rest r₀ r₁ id split first second third tracked left
    have all : (committedIn past++committedIn later++committedIn rest).Nodup := by
      simpa only [split,committedIn,List.flatMap_append] using fresh
    have early := (List.nodup_append.mp all).1
    have owned₀ := (owned_start context).run first (by simpa using (List.nodup_append.mp early).1)
    rw [List.nil_append] at owned₀
    have known := owned₀.sound.known_of_tracked tracked
    have inside := owned₀.known id known
    have received := owned₀.received inside (fun member => owned₀.outside id member known) second early
    exact (owned₀.run second early).gone (List.mem_append_left _ inside) received left third all

end Replica

namespace Audit
open Replica
variable {β : Type} [BlockHash β] {ext : External} {blockSize : Nat}

theorem run_replica {x x' : Audit β} {history : List Action} (run : Run (Step ext blockSize) x history x') :
    Run (Replica.Step ext blockSize) x.replica history x'.replica := by
  obtain ⟨r,path,rfl⟩ := run.simulate (R := fun x r => r = x.replica) rfl fun _ _ x' _ same step => ⟨x'.replica,same ▸ step.taken,rfl⟩
  exact path

-- A request with a client that leaves after the first message, until it is dropped.
def abortedRequest : List Action :=
  [.commit (shortRequest 1) (some 1) ⟨0,0⟩,.addRequest,.send,.recvStep (plainStep 1 [plainOutput 1 .prefill false [5]] []),
    .meter,.deliver,.recvStep (plainStep 0 [] [1]),.meter,.deliver]

theorem ownership_at_boundary_aborted : ∃ r : Replica RadixTreeBlockHash, r.stage = .idle ∧
    ∀ id, ¬((r.loop.entries.lookup id).isSome = true ∧ (r.loop.exceptContext.entries.lookup id).isSome = true) := by
  obtain ⟨x,executed⟩ : ∃ x, (start ⟨.empty,RadixTreeBlockHash.new 4⟩).exec plainExternal 16 abortedRequest = some x :=
    Option.isSome_iff_exists.mp (by decide)
  have idle : ((start ⟨.empty,RadixTreeBlockHash.new 4⟩).exec plainExternal 16 abortedRequest).map (fun x => x.replica.stage) =
      some .idle := by decide
  rw [executed] at idle
  have owned := Replica.ownership_at_boundary ⟨.empty,RadixTreeBlockHash.new 4⟩ (run_replica (run_exec .start executed)) (by decide)
  exact ⟨x.replica,Option.some.inj idle,owned.1⟩

end Audit
end BlitzRouter
