import BlitzRouter.LeastTtft
import BlitzRouter.MirrorInFlight
import BlitzRouter.RolloutConservation
import BlitzRouter.RolloutResidue

namespace BlitzRouter
open SchedSnapshot

variable {ρ τ : Type} {predict : BatchForPredictor → τ} {limits : StepLimits} {s s' : SchedSnapshot} {slotIdx : Nat}
  {candidateId rid : RequestId} {r r' : ReqProgress} {buffer buffer' : RolloutBuffer τ} {slot : RolloutSlot τ} {parts : List PrefillPart}

namespace SchedSnapshot

theorem Filled.stays (filled : Filled s parts s') (running : rid ∈ s.running) : rid ∈ s'.running := by
  induction filled with
  | nil => exact running
  | resume _ _ _ _ ih => exact ih ((AList.mem_insert _).mpr (.inr running))
  | pull _ _ _ _ ih => exact ih ((AList.mem_insert _).mpr (.inr running))
  | cached _ _ _ ih => exact ih ((AList.mem_insert _).mpr (.inr running))

theorem Filled.served (filled : Filled s parts s') (served : rid ∈ parts.map fun part => part.rid) : rid ∈ s'.running := by
  induction filled with
  | nil => cases served
  | resume _ _ _ rest ih =>
    rcases List.mem_cons.mp served with rfl | later
    · exact rest.stays ((AList.mem_insert _).mpr (.inl rfl))
    · exact ih later
  | pull _ _ _ rest ih =>
    rcases List.mem_cons.mp served with rfl | later
    · exact rest.stays ((AList.mem_insert _).mpr (.inl rfl))
    · exact ih later
  | cached _ _ _ ih => exact ih served

-- Who starts to run without a chunk owed none.
theorem Filled.unserved (filled : Filled s parts s') (waits : rid ∉ s.running) (running : rid ∈ s'.running)
    (unserved : rid ∉ parts.map fun part => part.rid) (found : s.find rid = some r) (alone : s.Alone rid) : r.isPrefilling = false := by
  induction filled generalizing r with
  | nil => exact absurd running waits
  | @resume s s' key req chunk parts held _ _ _ ih =>
    obtain ⟨differs,later⟩ := not_or.mp fun inside => unserved (List.mem_cons.mpr inside)
    have next := fun req => ((count_resume held req).count_eq rid).trans_le alone
    exact ih (fun inside => ((AList.mem_insert _).mp inside).elim differs waits) running later
      (by rw [find_insert_other _ _ differs]; exact found) (next _)
  | @pull s s' front rest chunk parts queue _ _ _ ih =>
    obtain ⟨differs,later⟩ := not_or.mp fun inside => unserved (List.mem_cons.mpr inside)
    have next := fun req => (count_pull queue alone req).trans_le alone
    exact ih (fun inside => ((AList.mem_insert _).mp inside).elim differs waits) running later
      (by rw [find_insert_other _ _ differs,find_tail queue differs]; exact found) (next _)
  | @cached s s' front rest parts queue nothing _ ih =>
    by_cases same : rid = front.requestId
    · subst same
      cases found.symm.trans (alone.find_front queue)
      simp only [ReqProgress.isPrefilling,ReqProgress.prefillRemaining,decide_eq_false_iff_not] at nothing ⊢
      omega
    · have next := fun req => (count_pull queue alone req).trans_le alone
      exact ih (fun inside => ((AList.mem_insert _).mp inside).elim same waits) running unserved
        (by rw [find_insert_other _ _ same,find_tail queue same]; exact found) (next _)

theorem find_running (running : rid ∈ s.running) : s.find rid = s.running.lookup rid := by
  obtain ⟨r,held⟩ := Option.isSome_iff_exists.mp (AList.lookup_isSome.mpr running)
  simp [find,held]

end SchedSnapshot

theorem trackCandidate_steps (sched : SchedSnapshot) (slotIdx : Nat) (candidateId : RequestId) (slot : RolloutSlot τ) (buffer : RolloutBuffer τ) :
    (trackCandidate sched slotIdx candidateId slot buffer).prefillBeginStep =
        (if candidateId ∈ slot.prefillRids ∧ buffer.prefillBeginStep = none then some slotIdx else buffer.prefillBeginStep) ∧
      (trackCandidate sched slotIdx candidateId slot buffer).prefillEndStep =
        (if candidateId ∈ slot.prefillRids ∧ ∃ r, sched.running.lookup candidateId = some r ∧ r.isPrefilling = false
          then some slotIdx else buffer.prefillEndStep) ∧
      (trackCandidate sched slotIdx candidateId slot buffer).inDecodeStep =
        (if candidateId ∈ slot.decodeRids ∧ buffer.inDecodeStep = none then some slotIdx else buffer.inDecodeStep) := by
  simp only [trackCandidate,List.contains_iff_mem,Bool.and_eq_true,Option.isNone_iff_eq_none]
  -- each step is set under its own condition, whatever the lookup finds
  cases found : sched.running.lookup candidateId with
  | none | some r =>
    simp only [reduceCtorEq,false_and,exists_false,and_false,if_false,ite_self,Option.some.injEq,exists_eq_left']
    refine ⟨?_,?_,?_⟩
    all_goals repeat' split
    all_goals first | rfl | simp_all

theorem simulateOneSlot_tracks (result : simulateOneSlot predict limits s slotIdx candidateId buffer = (s',buffer',some slot)) :
    buffer' = trackCandidate s' slotIdx candidateId slot buffer := by
  unfold simulateOneSlot at result
  split at result
  split at result
  · cases result
  · cases result
    rfl

-- Both ends of the prefill on the slots, or neither.
def Marked (owes : Bool) (b : RolloutBuffer τ) : Prop :=
  (owes = true → ∃ i j, b.prefillBeginStep = some i ∧ b.prefillEndStep = some j ∧ i ≤ j) ∧
    (owes = false → b.prefillBeginStep = none ∧ b.prefillEndStep = none)

-- Where the candidate stands between two slots; `owes` is whether it came with
-- prefill to do.
inductive CandidateStage (owes : Bool) (candidateId : RequestId) (s : SchedSnapshot) (b : RolloutBuffer τ) : Prop where
  | queued (r : ReqProgress) : candidateId ∉ s.running → s.find candidateId = some r → r.isPrefilling = owes →
      b.prefillBeginStep = none → b.prefillEndStep = none → CandidateStage owes candidateId s b
  | filling (r : ReqProgress) (i : Nat) : s.running.lookup candidateId = some r → r.isPrefilling = true → owes = true →
      b.prefillBeginStep = some i → i ≤ b.slots.length → b.prefillEndStep = none → CandidateStage owes candidateId s b
  | complete (r : ReqProgress) : s.running.lookup candidateId = some r → r.isPrefilling = false → Marked owes b →
      CandidateStage owes candidateId s b

-- What a slot does for the candidate.
structure Turned (candidateId : RequestId) (s s' : SchedSnapshot) (b b' : RolloutBuffer τ) (slot : RolloutSlot τ) : Prop where
  running : candidateId ∈ s.running → candidateId ∈ s'.running
  served : candidateId ∈ slot.prefillRids → candidateId ∈ s'.running
  unserved : ∀ r, s.find candidateId = some r → candidateId ∉ slot.prefillRids → s'.find candidateId = some r ∧
    (candidateId ∉ s.running → candidateId ∈ s'.running → r.isPrefilling = false)
  owing : ∀ r, s.find candidateId = some r → candidateId ∈ slot.prefillRids → r.isPrefilling = true
  decodes : candidateId ∈ slot.decodeRids ↔ ∃ r, s.running.lookup candidateId = some r ∧ r.isPrefilling = false
  slots : b'.slots = b.slots
  tracked : b' = trackCandidate s' b.slots.length candidateId slot b

theorem rids_of_spans (parts : List PrefillPart) : (parts.map PrefillPart.span).map Prod.fst = parts.map fun part => part.rid := by
  rw [List.map_map]
  rfl

theorem simulateOneSlot_turned (keyed : s.Keyed) (alone : s.Alone candidateId)
    (result : simulateOneSlot predict limits s buffer.slots.length candidateId buffer = (s',buffer',some slot)) :
    Turned candidateId s s' buffer buffer' slot := by
  obtain ⟨parts,filled,prefills,decoders,_,_,slots⟩ := simulateOneSlot_some result
  have rids : spansOf candidateId (parts.map PrefillPart.span) = [] ↔ candidateId ∉ slot.prefillRids := by
    rw [spansOf_eq_nil,rids_of_spans,prefills]
  refine ⟨filled.stays,fun served => filled.served (prefills ▸ served),fun r found unserved => ?_,fun r found served => ?_,?_,slots,
    simulateOneSlot_tracks result⟩
  · obtain ⟨r',found',id,length,drains⟩ := filled.drains alone found
    rw [rids.mpr unserved] at drains
    have same : r' = r := by
      have stop := drains.stop_eq
      cases r
      cases r'
      simp_all
    exact ⟨same ▸ found',fun waits running => filled.unserved waits running (prefills ▸ unserved) found alone⟩
  · by_contra done
    obtain ⟨r',_,_,_,drains⟩ := filled.drains alone found
    have none := drains.done (by simpa [ReqProgress.isPrefilling] using done) fun span member => by
      obtain ⟨labelled,inside,rfl⟩ := List.mem_map.mp member
      obtain ⟨part,listed,rfl⟩ := List.mem_map.mp (List.mem_filter.mp inside).1
      exact filled.positive part listed
    exact rids.mp none served
  · rw [decoders,keyed.decode_rids]
    have chosen := keyed.mem_sortedIds (fun r => !r.isPrefilling) candidateId
    simpa only [runningDecoders,Bool.not_eq_true'] using chosen

namespace CandidateStage
variable {owes : Bool} {b b' : RolloutBuffer τ}

theorem queued_turn (turned : Turned candidateId s s' b b' slot) (pending : b.inDecodeStep = none) (waits : candidateId ∉ s.running)
    (found : s.find candidateId = some r) (same : r.isPrefilling = owes) (unbegun : b.prefillBeginStep = none)
    (unended : b.prefillEndStep = none) :
    b'.inDecodeStep = none ∧ CandidateStage owes candidateId s' {b' with slots := b'.slots++[slot]} := by
  obtain ⟨begins,ends,decoding⟩ := trackCandidate_steps s' b.slots.length candidateId slot b
  rw [← turned.tracked] at begins ends decoding
  have idle : candidateId ∉ slot.decodeRids := fun member => by
    obtain ⟨_,held,_⟩ := turned.decodes.mp member
    exact waits (AList.lookup_isSome.mp (by rw [held]; rfl))
  simp only [idle,false_and,if_false] at decoding
  refine ⟨decoding.trans pending,?_⟩
  by_cases served : candidateId ∈ slot.prefillRids
  · obtain ⟨r',held⟩ := Option.isSome_iff_exists.mp (AList.lookup_isSome.mpr (turned.served served))
    have owing := turned.owing r found served
    simp only [served,unbegun,and_self,if_true] at begins
    simp only [served,held,Option.some.injEq,exists_eq_left',true_and] at ends
    cases more : r'.isPrefilling with
    | true =>
      rw [more] at ends
      exact .filling r' _ held more (same ▸ owing) begins (by simp [turned.slots]) (by simpa [unended] using ends)
    | false =>
      rw [more,if_pos rfl] at ends
      refine .complete r' held more ⟨fun _ => ⟨_,_,begins,ends,le_rfl⟩,fun none => ?_⟩
      rw [← same,owing] at none
      cases none
  · obtain ⟨found',entered⟩ := turned.unserved r found served
    simp only [served,false_and,if_false] at begins ends
    rw [unbegun] at begins
    rw [unended] at ends
    by_cases running : candidateId ∈ s'.running
    · have done := entered waits running
      refine .complete r ((find_running running).symm.trans found') done ⟨fun owing => ?_,fun _ => ⟨begins,ends⟩⟩
      rw [← same,done] at owing
      cases owing
    · exact .queued r running found' same begins ends

theorem filling_turn {i : Nat} (turned : Turned candidateId s s' b b' slot) (pending : b.inDecodeStep = none)
    (held : s.running.lookup candidateId = some r) (owing : r.isPrefilling = true) (came : owes = true)
    (begun : b.prefillBeginStep = some i) (early : i ≤ b.slots.length) (unended : b.prefillEndStep = none) :
    b'.inDecodeStep = none ∧ CandidateStage owes candidateId s' {b' with slots := b'.slots++[slot]} := by
  obtain ⟨begins,ends,decoding⟩ := trackCandidate_steps s' b.slots.length candidateId slot b
  rw [← turned.tracked] at begins ends decoding
  have running : candidateId ∈ s.running := AList.lookup_isSome.mp (by rw [held]; rfl)
  have idle : candidateId ∉ slot.decodeRids := fun member => by
    obtain ⟨_,held',done⟩ := turned.decodes.mp member
    cases held.symm.trans held'
    rw [owing] at done
    cases done
  simp only [idle,false_and,if_false] at decoding
  refine ⟨decoding.trans pending,?_⟩
  obtain ⟨r',held'⟩ := Option.isSome_iff_exists.mp (AList.lookup_isSome.mpr (turned.running running))
  simp only [begun,reduceCtorEq,and_false,if_false] at begins
  simp only [held',Option.some.injEq,exists_eq_left'] at ends
  cases more : r'.isPrefilling with
  | true =>
    rw [more] at ends
    exact .filling r' i held' more came begins (by simp [turned.slots]; omega) (by simpa [unended] using ends)
  | false =>
    have served : candidateId ∈ slot.prefillRids := by
      by_contra unserved
      have found' := (turned.unserved r ((find_running running).trans held) unserved).1
      rw [find_running (turned.running running),held'] at found'
      cases found'
      rw [owing] at more
      cases more
    rw [if_pos ⟨served,more⟩] at ends
    exact .complete r' held' more ⟨fun _ => ⟨i,_,begins,ends,early⟩,fun none => absurd (came.symm.trans none) (by decide)⟩

theorem complete_turn (turned : Turned candidateId s s' b b' slot) (pending : b.inDecodeStep = none)
    (held : s.running.lookup candidateId = some r) (done : r.isPrefilling = false) (marked : Marked owes b) :
    b'.inDecodeStep = some b.slots.length ∧ Marked owes b' := by
  obtain ⟨begins,ends,decoding⟩ := trackCandidate_steps s' b.slots.length candidateId slot b
  rw [← turned.tracked] at begins ends decoding
  have running : candidateId ∈ s.running := AList.lookup_isSome.mp (by rw [held]; rfl)
  have unserved : candidateId ∉ slot.prefillRids := fun served => by
    have owing := turned.owing r ((find_running running).trans held) served
    rw [done] at owing
    cases owing
  simp only [unserved,false_and,if_false] at begins ends
  rw [if_pos ⟨turned.decodes.mpr ⟨r,held,done⟩,pending⟩] at decoding
  exact ⟨decoding,by simpa only [Marked,begins,ends] using marked⟩

theorem idle (stage : CandidateStage owes candidateId s b) (idle : s.Idle) :
    owes = false ∧ b.prefillBeginStep = none ∧ b.prefillEndStep = none := by
  obtain ⟨bare,cached⟩ := idle
  have stopped : ∀ r, s.running.lookup candidateId ≠ some r := fun r held => by
    have listed := mem_values.mpr ⟨candidateId,held⟩
    rw [bare] at listed
    cases listed
  cases stage with
  | queued r waits found same unbegun unended =>
    refine ⟨?_,unbegun,unended⟩
    rw [find,AList.lookup_eq_none.mpr waits,Option.none_or] at found
    rw [← same]
    exact cached r (List.mem_of_find?_eq_some found)
  | filling r i held => exact absurd held (stopped r)
  | complete r held => exact absurd held (stopped r)

end CandidateStage

-- How the loop may end for the candidate: it decodes, the places are used up, or
-- nothing was left to schedule for a candidate without prefill to do.
inductive LoopEnd (owes : Bool) (places : Nat) (b : RolloutBuffer τ) : Prop where
  | decoding (k : Nat) : b.inDecodeStep = some k → k < b.slots.length → Marked owes b → LoopEnd owes places b
  | full : b.inDecodeStep = none → places ≤ b.slots.length → LoopEnd owes places b
  | idle : owes = false → b.inDecodeStep = none → b.prefillBeginStep = none → b.prefillEndStep = none → LoopEnd owes places b

-- Induction on the free places, with the stage of the candidate between two slots.
theorem scheduleLoop_end (predict : BatchForPredictor → τ) (limits : StepLimits) {owes : Bool} (free : Nat) (keyed : s.Keyed) (alone : s.Alone candidateId) (pending : buffer.inDecodeStep = none)
    (stage : CandidateStage owes candidateId s buffer) :
    LoopEnd owes (buffer.slots.length+free) (scheduleLoop predict limits candidateId free s buffer).1 := by
  induction free generalizing s buffer with
  | zero => exact .full pending le_rfl
  | succ free ih =>
    unfold scheduleLoop
    split
    · rename_i u v step
      have still : s.Idle := (simulateOneSlot_none predict limits candidateId keyed _ _).mp (by rw [step])
      obtain ⟨none,unbegun,unended⟩ := stage.idle still
      rw [simulateOneSlot_stopped step]
      exact .idle none pending unbegun unended
    · rename_i u v slot step
      have turned := simulateOneSlot_turned keyed alone step
      obtain ⟨filled,_,_⟩ := simulateOneSlot_parts step
      have next : (v.inDecodeStep = some buffer.slots.length ∧ Marked owes v) ∨
          (v.inDecodeStep = none ∧ CandidateStage owes candidateId u {v with slots := v.slots++[slot]}) := by
        cases stage with
        | queued r waits found same unbegun unended => exact .inr (CandidateStage.queued_turn turned pending waits found same unbegun unended)
        | filling r i held owing came begun early unended =>
          exact .inr (CandidateStage.filling_turn turned pending held owing came begun early unended)
        | complete r held done marked => exact .inl (CandidateStage.complete_turn turned pending held done marked)
      rcases next with ⟨decoding,marked⟩ | ⟨waits,stage⟩
      · dsimp only
        rw [if_pos (by rw [decoding]; rfl)]
        exact .decoding buffer.slots.length decoding (by simp [turned.slots]) marked
      · dsimp only
        rw [if_neg (by simp [waits])]
        have later := @ih u {v with slots := v.slots++[slot]} (filled.keyed keyed) ((filled.count alone).trans_le alone) waits stage
        have places : (v.slots++[slot]).length+free = buffer.slots.length+(free+1) := by
          rw [turned.slots,List.length_append,List.length_singleton]
          omega
        exact places ▸ later

-- The loop ran out of places before the candidate decoded.
def RolloutBuffer.capped (b : RolloutBuffer τ) : Prop := maxSlots ≤ b.slots.length ∧ b.inDecodeStep = none

def RolloutGist.complete (gist : RolloutGist τ) : Prop :=
  gist.ttftMs.isSome ∧ gist.chunkedPrefillSteps.isSome ∧ gist.inDecodeTbtMs.isSome

section Gist
variable [Zero τ] [Add τ] {owes : Bool} {places : Nat} {b : RolloutBuffer τ}

theorem LoopEnd.ttft (ended : LoopEnd owes places b) (room : maxSlots ≤ places) (uncapped : ¬b.capped) :
    b.gist.ttftMs.isSome ↔ owes = true := by
  have answered : b.gist.ttftMs.isSome = b.prefillEndStep.isSome := by simp [RolloutBuffer.gist]
  rw [answered]
  cases ended with
  | decoding k decoding inside marked =>
    cases owes with
    | true =>
      obtain ⟨i,j,_,ended,_⟩ := marked.1 rfl
      simp [ended]
    | false => simp [(marked.2 rfl).2]
  | full pending places => exact absurd ⟨room.trans places,pending⟩ uncapped
  | idle none pending unbegun unended => simp [none,unended]

theorem LoopEnd.gist (ended : LoopEnd owes places b) (room : maxSlots ≤ places) (uncapped : ¬b.capped) :
    b.gist.complete ↔ owes = true := by
  refine ⟨fun complete => (ended.ttft room uncapped).mp complete.1,fun owing => ?_⟩
  refine ⟨(ended.ttft room uncapped).mpr owing,?_⟩
  cases ended with
  | decoding k decoding inside marked =>
    obtain ⟨i,j,begun,ended,ordered⟩ := marked.1 owing
    exact ⟨by simp [RolloutBuffer.gist,begun,ended,ordered],by simp [RolloutBuffer.gist,decoding,inside]⟩
  | full pending places => exact absurd ⟨room.trans places,pending⟩ uncapped
  | idle none => exact absurd (none.symm.trans owing) (by decide)

end Gist

-- The queues hold known requests only.
structure SchedSnapshot.Within (ids : List RequestId) (s : SchedSnapshot) : Prop where
  keyed : s.Keyed
  known : ∀ rid ∈ s.inFlightIds, rid ∈ ids

namespace SchedSnapshot.Within
variable {ids more : List RequestId}

theorem mono (within : s.Within ids) (subset : ids ⊆ more) : s.Within more := ⟨within.keyed,fun rid member => subset (within.known rid member)⟩

theorem filled (within : s.Within ids) (filled : Filled s parts s') : s'.Within ids := by
  refine ⟨filled.keyed within.keyed,fun rid member => within.known rid ?_⟩
  by_contra outside
  exact find_eq_none.mp (filled.absent (find_eq_none.mpr outside)).1 member

theorem simulated {turns : List (SchedSnapshot × RolloutSlot τ)} (run : Simulated predict limits s turns s') (within : s.Within ids) :
    s'.Within ids := by
  induction run with
  | stop => exact within
  | slot step _ ih => exact ih (within.filled (simulateOneSlot_parts step).1)
  | idle step _ ih => exact ih (within.filled (simulateOneSlot_parts step).1)

theorem loop (within : s.Within ids) (predict : BatchForPredictor → τ) (limits : StepLimits) (candidateId : RequestId) (free : Nat) (buffer : RolloutBuffer τ) :
    (scheduleLoop predict limits candidateId free s buffer).2.Within ids := by
  obtain ⟨_,run,_⟩ := scheduleLoop_simulated predict limits candidateId free s buffer
  exact within.simulated run

theorem admitReq (within : s.Within ids) (req : ReqProgress) : (s.admitReq req).Within (ids++[req.requestId]) := by
  refine ⟨within.keyed,fun rid member => ?_⟩
  have joined : rid ∈ s.inFlightIds ∨ rid = req.requestId := by
    simpa [inFlightIds,SchedSnapshot.admitReq,or_assoc,or_comm,or_left_comm] using member
  rcases joined with earlier | rfl
  · exact List.mem_append_left _ (within.known rid earlier)
  · exact List.mem_append_right _ List.mem_cons_self

theorem sync (within : s.Within ids) (m : EngineStepOutput) : (s.sync m).Within ids :=
  ⟨within.keyed.sync m,fun rid member => within.known rid (List.mem_filter.mp ((within.keyed.ids_sync m).mem_iff.mp member)).1⟩

-- A new request waits alone under its id.
theorem entered (within : s.Within ids) (req : ReqProgress) (fresh : candidateId ∉ ids) (own : req.requestId = candidateId)
    (slots : List (RolloutSlot τ)) : (s.admitReq req).Alone candidateId ∧
      CandidateStage req.isPrefilling candidateId (s.admitReq req) ⟨some candidateId,slots,none,none,none⟩ := by
  subst own
  have outside : req.requestId ∉ s.inFlightIds := fun member => fresh (within.known req.requestId member)
  obtain ⟨unqueued,unkeyed⟩ := not_or.mp fun inside => outside (List.mem_append.mpr inside)
  constructor
  · simp [Alone,inFlightIds,SchedSnapshot.admitReq,List.count_eq_zero.mpr unqueued,List.count_eq_zero.mpr unkeyed]
  · have idle : req.requestId ∉ s.running := fun running => unkeyed (AList.mem_keys.mp running)
    have missing : (s.waiting.find? fun r => r.requestId == req.requestId) = none := by
      rw [List.find?_eq_none]
      intro r queued same
      exact unqueued (List.mem_map.mpr ⟨r,queued,by simpa using same⟩)
    refine .queued req idle ?_ rfl rfl rfl
    have none : s.running.lookup req.requestId = none := AList.lookup_eq_none.mpr idle
    simp [find,SchedSnapshot.admitReq,none,missing]

end SchedSnapshot.Within

namespace PCtx
variable {trained : TrainedPredictor ρ τ} {p : PCtx ρ τ} {ids : List RequestId}

-- No queue of the context, live or simulated, holds a request that was neither
-- admitted nor asked about in the cached rollout.
structure Known (ids : List RequestId) (p : PCtx ρ τ) : Prop where
  live : p.sched.Within ids
  tail : ∀ e, p.ephemeral = some e → e.tailSched.Within (ids++e.candidateId.toList)
  saved : ∀ e idx t, p.ephemeral = some e → e.savepoint = some (idx,t) → t.Within ids

theorem Known.ground (known : p.Known ids) : p.ground.2.Within ids := by
  unfold PCtx.ground
  cases recovered : p.ephemeral.bind EphemeralRollout.recover with
  | none => exact known.live
  | some taken =>
    obtain ⟨e,cached,result⟩ := Option.bind_eq_some_iff.mp recovered
    unfold EphemeralRollout.recover at result
    split at result
    · rename_i clean
      cases result
      have within := known.tail e cached
      rw [clean] at within
      simpa using within
    · split at result
      · rename_i idx saved kept
        split at result
        · cases result
          exact known.saved e idx saved cached kept
        · cases result
      · cases result

theorem Known.popHead {e : EphemeralRollout τ} (stepId idx : Nat) (t : SchedSnapshot) (popped : (e.popHead stepId).savepoint = some (idx,t)) :
    ∃ old, e.savepoint = some (old,t) := by
  simp only [EphemeralRollout.popHead] at popped
  cases saved : e.savepoint with
  | none =>
    rw [saved] at popped
    cases popped
  | some point =>
    rw [saved] at popped
    simp only [Option.map_some] at popped
    split at popped
    · cases popped
    · cases popped
      exact ⟨_,rfl⟩

section Calls
variable [Zero τ] [Add τ]

theorem Known.call (known : p.Known ids) (trained : TrainedPredictor ρ τ) (call : PCtxCall) : (p.call trained call).Known (ids++call.admits.toList) := by
  cases call with
  | query c =>
    obtain ⟨e,state,_,loop,bound,saved⟩ := ask_ground trained p c
    have tail : e.tailSched.Within (ids++[c.id]) := by
      have within := (known.ground.admitReq (p.entering c)).loop (trained.predict p.regressor) p.limits c.id
        (maxSlots-p.ground.1.length) ⟨some c.id,p.ground.1,none,none,none⟩
      rwa [← loop] at within
    change Known (ids++[]) (p.ask trained c).1
    rw [state,List.append_nil]
    refine ⟨known.live,fun e' cached => ?_,fun e' idx t cached kept => ?_⟩
    · cases cached
      rwa [bound]
    · cases cached
      rw [saved] at kept
      split at kept
      · cases kept
      · cases kept
        exact known.ground
  | onAdmit requestId inputLength hashes =>
    refine ⟨known.live.admitReq (ReqProgress.new requestId inputLength),fun e' cached => ?_,fun e' idx t cached kept => ?_⟩
    · obtain ⟨e,held,result⟩ := Option.bind_eq_some_iff.mp cached
      obtain ⟨bound,rfl⟩ := EphemeralRollout.admitted_cases result
      have within := known.tail e held
      rw [bound] at within
      rw [Option.toList_none,List.append_nil]
      exact within
    · obtain ⟨e,held,result⟩ := Option.bind_eq_some_iff.mp cached
      obtain ⟨_,rfl⟩ := EphemeralRollout.admitted_cases result
      cases kept
  | onSse batch m =>
    change Known (ids++[]) (p.onSse trained batch m).1
    rw [List.append_nil]
    refine ⟨known.live.sync m,fun e' cached => ?_,fun e' idx t cached kept => ?_⟩
    · obtain ⟨e,held,result⟩ := Option.bind_eq_some_iff.mp cached
      obtain ⟨_,_,rfl⟩ := EphemeralRollout.maintained_cases result
      exact known.tail e held
    · obtain ⟨e,held,result⟩ := Option.bind_eq_some_iff.mp cached
      obtain ⟨_,_,rfl⟩ := EphemeralRollout.maintained_cases result
      obtain ⟨old,saved⟩ := Known.popHead m.stepId idx t kept
      exact known.saved e old t held saved

theorem known_after (trained : TrainedPredictor ρ τ) (regressor : ρ) (blockSize tokenBudget : Nat) (calls : List PCtxCall) :
    (after trained (new regressor blockSize tokenBudget) calls).Known (BlitzRouter.admitted calls) := by
  induction calls using List.reverseRecOn with
  | nil => exact ⟨⟨nofun,nofun⟩,nofun,nofun⟩
  | append_singleton calls call ih =>
    rw [admitted_snoc,after,List.foldl_append]
    exact ih.call trained call

end Calls

-- How much of its prompt the candidate is taken to find in the cache.
def cachedTokens (p : PCtx ρ τ) (c : Candidate) : Nat :=
  min (max c.sctxPrefixHits (p.mirror.prefixMatch c.hashes)%u32Size*p.limits.blockSize) (u32Size-1)

theorem entering_owes (p : PCtx ρ τ) (c : Candidate) : (p.entering c).isPrefilling = true ↔ p.cachedTokens c < c.inputLength := by
  have processed : (p.entering c).processedTokens = min (p.cachedTokens c) c.inputLength := rfl
  have length : (p.entering c).inputLength = c.inputLength := rfl
  rw [ReqProgress.isPrefilling,decide_eq_true_eq,processed,length]
  omega

theorem Known.ask_ends [Zero τ] [Add τ] (known : p.Known ids) (trained : TrainedPredictor ρ τ) (c : Candidate) (fresh : c.id ∉ ids) :
    ∃ e, (p.ask trained c).1.ephemeral = some e ∧ (p.ask trained c).2 = e.buffer.gist ∧
      LoopEnd (p.entering c).isPrefilling (p.ground.1.length+(maxSlots-p.ground.1.length)) e.buffer := by
  obtain ⟨e,state,gist,loop,_,_⟩ := ask_ground trained p c
  obtain ⟨alone,stage⟩ := known.ground.entered (p.entering c) fresh rfl p.ground.1
  have keyed : (p.ground.2.admitReq (p.entering c)).Keyed := known.ground.keyed
  have ended := scheduleLoop_end (trained.predict p.regressor) p.limits (maxSlots-p.ground.1.length) keyed alone rfl stage
  rw [← loop] at ended
  exact ⟨e,by rw [state],gist,ended⟩

-- A rollout that does not run out of places has all three answers exactly when the
-- cache leaves part of the prompt to do.
theorem finished_rollout_iff [Zero τ] [Add τ] [LT τ] [DecidableLT τ] (trained : TrainedPredictor ρ τ) (regressor : ρ) (blockSize tokenBudget : Nat)
    (calls : List PCtxCall) (c : Candidate) (fresh : c.id ∉ BlitzRouter.admitted calls) :
    let p := after trained (new regressor blockSize tokenBudget) calls
    ∃ e, (p.ask trained c).1.ephemeral = some e ∧ (¬e.buffer.capped →
      (((p.ask trained c).2.complete ∧ ∀ idx, (better none idx (p.ask trained c).2.ttftMs).isSome) ↔ p.cachedTokens c < c.inputLength)) := by
  intro p
  have known : p.Known (BlitzRouter.admitted calls) := known_after trained regressor blockSize tokenBudget calls
  obtain ⟨e,state,gist,ended⟩ := known.ask_ends trained c fresh
  refine ⟨e,state,fun uncapped => ?_⟩
  have complete := ended.gist (by omega) uncapped
  rw [gist,← entering_owes,← complete]
  refine and_iff_left_of_imp fun answered idx => ?_
  obtain ⟨t,ttft⟩ := Option.isSome_iff_exists.mp answered.1
  rw [ttft]
  rfl

theorem finished_rollout_iff_busy :
    let p := after tokenPredictor (new () 16 1024) [.onAdmit 7 16 []]
    ∃ e, (p.ask tokenPredictor ⟨1,100,[],2⟩).1.ephemeral = some e ∧ (¬e.buffer.capped →
      (((p.ask tokenPredictor ⟨1,100,[],2⟩).2.complete ∧ ∀ idx, (better none idx (p.ask tokenPredictor ⟨1,100,[],2⟩).2.ttftMs).isSome) ↔
        p.cachedTokens ⟨1,100,[],2⟩ < 100)) :=
  finished_rollout_iff tokenPredictor () 16 1024 [.onAdmit 7 16 []] ⟨1,100,[],2⟩ (by decide)

instance (b : RolloutBuffer τ) : Decidable b.capped := inferInstanceAs (Decidable (_ ∧ b.inDecodeStep = none))

-- The cache covers the prompt: on an idle replica nothing is scheduled, on a busy
-- one the candidate decodes without a TTFT.
theorem cached_candidate_without_ttft :
    (∃ e, ((new () 16 1024 : PCtx Unit Nat).ask tokenPredictor ⟨1,16,[],1⟩).1.ephemeral = some e ∧ ¬e.buffer.capped ∧
      ((new () 16 1024 : PCtx Unit Nat).ask tokenPredictor ⟨1,16,[],1⟩).2 = ⟨none,none,none⟩) ∧
    (∃ e, ((after tokenPredictor (new () 16 1024) [.onAdmit 7 16 []]).ask tokenPredictor ⟨1,16,[],1⟩).1.ephemeral = some e ∧
      ¬e.buffer.capped ∧ ((after tokenPredictor (new () 16 1024) [.onAdmit 7 16 []]).ask tokenPredictor ⟨1,16,[],1⟩).2 = ⟨none,none,some 2⟩) ∧
    ∀ idx, better (none : Option (Nat × Nat)) idx ((new () 16 1024 : PCtx Unit Nat).ask tokenPredictor ⟨1,16,[],1⟩).2.ttftMs = none :=
  ⟨⟨_,rfl,by decide,rfl⟩,⟨_,rfl,by decide,rfl⟩,fun _ => rfl⟩

end PCtx
end BlitzRouter
