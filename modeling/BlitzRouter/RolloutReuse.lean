import BlitzRouter.RolloutTtft

namespace BlitzRouter
open SchedSnapshot

variable {ρ τ : Type} {predict : BatchForPredictor → τ} {limits : StepLimits} {s s' : SchedSnapshot} {candidateId : RequestId}
  {base : List (RolloutSlot τ)} {b : RolloutBuffer τ} {slot : RolloutSlot τ}

namespace RolloutBuffer

-- The same rollout with other slots in front of it.
def behind (base : List (RolloutSlot τ)) (b : RolloutBuffer τ) : RolloutBuffer τ where
  candidateId := b.candidateId
  slots := base++b.slots
  prefillBeginStep := b.prefillBeginStep.map (base.length+·)
  prefillEndStep := b.prefillEndStep.map (base.length+·)
  inDecodeStep := b.inDecodeStep.map (base.length+·)

def latencies (slots : List (RolloutSlot τ)) : List τ := slots.map fun s => s.predictedLatMs

-- The TTFT counts on from what the slots in front have summed up to.
theorem gist_behind [Zero τ] [Add τ] (base : List (RolloutSlot τ)) (b : RolloutBuffer τ) :
    (b.behind base).gist.chunkedPrefillSteps = b.gist.chunkedPrefillSteps ∧
      (b.behind base).gist.inDecodeTbtMs = b.gist.inDecodeTbtMs ∧
      (b.behind base).gist.ttftMs = b.prefillEndStep.map fun i =>
        (latencies (b.slots.take (i+1))).foldl (·+·) ((latencies base).foldl (·+·) 0) := by
  refine ⟨?_,?_,?_⟩
  · simp only [gist,behind]
    cases b.prefillBeginStep with
    | none => rfl
    | some i =>
      cases b.prefillEndStep with
      | none => rfl
      | some j =>
        simp only [Option.map_some,ge_iff_le,Nat.add_le_add_iff_left,Nat.add_sub_add_left]
  · simp only [gist,behind]
    cases b.inDecodeStep with
    | none => rfl
    | some k => simp [List.getElem?_append_right]
  · simp only [gist,behind,Option.map_map]
    congr 1
    funext i
    have split_ : (base++b.slots).take (base.length+i+1) = base++b.slots.take (i+1) := by
      rw [Nat.add_assoc,List.take_length_add_append]
    simp only [Function.comp_apply,split_,latencies,List.map_append,List.foldl_append]

end RolloutBuffer

open RolloutBuffer

theorem trackCandidate_behind (sched : SchedSnapshot) (slotIdx : Nat) :
    trackCandidate sched (base.length+slotIdx) candidateId slot (b.behind base) = (trackCandidate sched slotIdx candidateId slot b).behind base := by
  simp only [trackCandidate,behind,Option.isNone_map]
  repeat' split
  all_goals first | rfl | simp_all

section Loop
variable (predict limits candidateId)

theorem simulateOneSlot_behind (base : List (RolloutSlot τ)) (s : SchedSnapshot) (slotIdx : Nat) (b : RolloutBuffer τ) :
    simulateOneSlot predict limits s (base.length+slotIdx) candidateId (b.behind base) =
      ((simulateOneSlot predict limits s slotIdx candidateId b).1,(simulateOneSlot predict limits s slotIdx candidateId b).2.1.behind base,
        (simulateOneSlot predict limits s slotIdx candidateId b).2.2) := by
  unfold simulateOneSlot
  split
  split
  · rfl
  · simp only [trackCandidate_behind]

-- The loop goes on behind other slots as it would without them.
theorem scheduleLoop_behind (base : List (RolloutSlot τ)) (free : Nat) (s : SchedSnapshot) (b : RolloutBuffer τ) :
    scheduleLoop predict limits candidateId free s (b.behind base) =
      ((scheduleLoop predict limits candidateId free s b).1.behind base,(scheduleLoop predict limits candidateId free s b).2) := by
  induction free generalizing s b with
  | zero => rfl
  | succ free ih =>
    have index : (b.behind base).slots.length = base.length+b.slots.length := List.length_append
    unfold scheduleLoop
    rw [index,simulateOneSlot_behind]
    rcases simulateOneSlot predict limits s b.slots.length candidateId b with ⟨u,v,slot⟩
    cases slot with
    | none => rfl
    | some slot =>
      have pushed : {v.behind base with slots := (v.behind base).slots++[slot]} = ({v with slots := v.slots++[slot]} : RolloutBuffer τ).behind base := by
        simp [behind]
      have decoding : (v.behind base).inDecodeStep.isSome = v.inDecodeStep.isSome := by simp [behind]
      simp only [pushed,decoding]
      split
      · rfl
      · exact ih u _

-- A loop that ends before its places are used up does not notice more of them.
theorem scheduleLoop_room (free more : Nat) (s : SchedSnapshot) (b : RolloutBuffer τ)
    (ended : (scheduleLoop predict limits candidateId free s b).1.inDecodeStep.isSome ∨
      (scheduleLoop predict limits candidateId free s b).1.slots.length < b.slots.length+free) (pending : b.inDecodeStep = none) :
    scheduleLoop predict limits candidateId (free+more) s b = scheduleLoop predict limits candidateId free s b := by
  induction free generalizing s b with
  | zero =>
    rcases ended with decoding | short
    · simp [scheduleLoop,pending] at decoding
    · exact absurd short (by simp [scheduleLoop])
  | succ free ih =>
    rw [show free+1+more = (free+more)+1 by omega]
    unfold scheduleLoop at ended ⊢
    rcases step : simulateOneSlot predict limits s b.slots.length candidateId b with ⟨u,v,slot⟩
    rw [step] at ended
    cases slot with
    | none => rfl
    | some slot =>
      dsimp only at ended ⊢
      split
      · rfl
      · rename_i undecided
        rw [if_neg undecided] at ended
        obtain ⟨_,_,_,_,_,_,kept⟩ := simulateOneSlot_some step
        have size : (v.slots++[slot]).length = b.slots.length+1 := by rw [kept,List.length_append,List.length_singleton]
        refine ih u _ (ended.imp_right fun short => ?_) (by simpa using undecided)
        rw [size]
        omega

end Loop

def PCtxCall.isQuery : PCtxCall → Bool
  | .query _ => true
  | _ => false

namespace PCtx
variable {trained : TrainedPredictor ρ τ} {p : PCtx ρ τ}

def hitsOf (p : PCtx ρ τ) (c : Candidate) : Nat := max c.sctxPrefixHits (p.mirror.prefixMatch c.hashes)

-- The rebuild from some queues, as the code does it from the live ones.
def scratch (trained : TrainedPredictor ρ τ) (p : PCtx ρ τ) (sched : SchedSnapshot) (c : Candidate) : RolloutBuffer τ × SchedSnapshot :=
  runScheduleLoopFromScratch (trained.predict p.regressor) p.limits sched c.id c.inputLength (p.hitsOf c)

variable [Zero τ] [Add τ]

theorem unasked (trained : TrainedPredictor ρ τ) (regressor : ρ) (blockSize tokenBudget : Nat) (calls : List PCtxCall)
    (quiet : ∀ call ∈ calls, PCtxCall.isQuery call = false) : (after trained (new regressor blockSize tokenBudget) calls).ephemeral = none := by
  induction calls using List.reverseRecOn with
  | nil => rfl
  | append_singleton calls call ih =>
    have earlier := ih fun other member => quiet other (List.mem_append_left _ member)
    have last := quiet call (List.mem_append_right _ List.mem_cons_self)
    rw [after,List.foldl_append]
    change (PCtx.call trained (after trained (new regressor blockSize tokenBudget) calls) call).ephemeral = none
    cases call with
    | query c => cases last
    | onAdmit requestId inputLength hashes => simp [PCtx.call,onAdmit,earlier]
    | onSse batch m => simp [PCtx.call,onSse,absorb,observeStep,earlier]

-- Asked and admitted on a replica without a cached rollout, A's rollout is what
-- the next query starts from.
theorem ground_promoted (fresh : p.ephemeral = none) (a : Candidate) :
    ((p.ask trained a).1.onAdmit a.id a.inputLength a.hashes).ground = ((p.scratch trained p.sched a).1.slots,(p.scratch trained p.sched a).2) := by
  have asked : (p.ask trained a).1 = {p with ephemeral := some ⟨some a.id,(p.scratch trained p.sched a).1,p.lastSseStepId,(p.scratch trained p.sched a).2,none⟩} := by
    unfold ask query
    rw [fresh]
    rfl
  rw [asked]
  simp [ground,onAdmit,EphemeralRollout.admitted,EphemeralRollout.recover]

-- A scratch rebuild of a request that the queues do not know.
theorem scratch_ttft {ids : List RequestId} {sched : SchedSnapshot} {c : Candidate} (within : sched.Within ids) (fresh : c.id ∉ ids)
    (uncapped : ¬(p.scratch trained sched c).1.capped) :
    (p.scratch trained sched c).1.gist.ttftMs.isSome ↔ p.cachedTokens c < c.inputLength := by
  obtain ⟨alone,stage⟩ := within.entered (p.entering c) fresh rfl ([] : List (RolloutSlot τ))
  have keyed : (sched.admitReq (p.entering c)).Keyed := within.keyed
  have ended := scheduleLoop_end (trained.predict p.regressor) p.limits maxSlots keyed alone rfl stage
  exact (ended.ttft (Nat.le_add_left _ _) uncapped).trans (p.entering_owes c)

-- Asked on top of A's promoted rollout, B is answered as by a scratch rebuild from
-- the queues at the end of that rollout, behind its slots.
theorem reuse_continues_baseline (trained : TrainedPredictor ρ τ) (regressor : ρ) (blockSize tokenBudget : Nat) (calls : List PCtxCall)
    (quiet : ∀ call ∈ calls, PCtxCall.isQuery call = false) (a b : Candidate) :
    let p := after trained (new regressor blockSize tokenBudget) calls
    let baseline := p.scratch trained p.sched a
    let q := (p.ask trained a).1.onAdmit a.id a.inputLength a.hashes
    ∃ e, (q.ask trained b).1.ephemeral = some e ∧
      (¬e.buffer.capped →
        let again := (q.scratch trained baseline.2 b).1
        e.buffer = again.behind baseline.1.slots ∧
          (q.ask trained b).2.chunkedPrefillSteps = again.gist.chunkedPrefillSteps ∧
          (q.ask trained b).2.inDecodeTbtMs = again.gist.inDecodeTbtMs ∧
          (q.ask trained b).2.ttftMs = again.prefillEndStep.map fun i =>
            (latencies (again.slots.take (i+1))).foldl (·+·) ((latencies baseline.1.slots).foldl (·+·) 0)) ∧
      (b.id ∉ BlitzRouter.admitted calls → b.id ≠ a.id → ¬e.buffer.capped → ¬(q.scratch trained q.sched b).1.capped →
        ((q.ask trained b).2.ttftMs.isSome ↔ (q.scratch trained q.sched b).1.gist.ttftMs.isSome)) := by
  intro p baseline q
  have ground : q.ground = (baseline.1.slots,baseline.2) := ground_promoted (unasked trained regressor blockSize tokenBudget calls quiet) a
  obtain ⟨e,state,gist,loop,_,_⟩ := ask_ground trained q b
  rw [ground] at loop
  have start : (⟨some b.id,baseline.1.slots,none,none,none⟩ : RolloutBuffer τ) = RolloutBuffer.behind baseline.1.slots ⟨some b.id,[],none,none,none⟩ := by
    simp [behind]
  dsimp only at loop
  rw [start,scheduleLoop_behind] at loop
  have buffer := congrArg Prod.fst loop
  dsimp only at buffer
  refine ⟨e,by rw [state],fun uncapped => ?_,fun fresh other uncapped still => ?_⟩
  · -- the rollout stopped by itself, so the places it had left do not matter
    have same : (q.scratch trained baseline.2 b).1 = (scheduleLoop (trained.predict q.regressor) q.limits b.id (maxSlots-baseline.1.slots.length)
        (baseline.2.admitReq (q.entering b)) ⟨some b.id,[],none,none,none⟩).1 := by
      by_cases full : maxSlots ≤ baseline.1.slots.length
      · have none : maxSlots-baseline.1.slots.length = 0 := by omega
        rw [none] at buffer
        exact absurd ⟨by rw [buffer]; simp [behind,scheduleLoop,full],by rw [buffer]; rfl⟩ uncapped
      · have room := scheduleLoop_room (trained.predict q.regressor) q.limits b.id (maxSlots-baseline.1.slots.length) baseline.1.slots.length
          (baseline.2.admitReq (q.entering b)) ⟨some b.id,[],none,none,none⟩ (by
            rw [RolloutBuffer.capped,buffer,not_and_or] at uncapped
            rcases uncapped with short | decoding
            · right
              simp only [behind,List.length_append,List.length_nil,Nat.zero_add] at short ⊢
              omega
            · left
              simpa [behind,Option.isSome_iff_ne_none] using decoding) rfl
        rw [Nat.sub_add_cancel (by omega)] at room
        exact congrArg Prod.fst room
    intro again
    rw [gist,buffer,← same]
    exact ⟨rfl,gist_behind _ _⟩
  · have known : p.Known (BlitzRouter.admitted calls) := known_after trained regressor blockSize tokenBudget calls
    have asked : q.Known ((BlitzRouter.admitted calls++(PCtxCall.query a).admits.toList)++[a.id]) :=
      (known.call trained (.query a)).call trained (.onAdmit a.id a.inputLength a.hashes)
    have outside : b.id ∉ (BlitzRouter.admitted calls++(PCtxCall.query a).admits.toList)++[a.id] := by simp [PCtxCall.admits,fresh,other]
    obtain ⟨e',state',gist',ended⟩ := asked.ask_ends trained b outside
    have only : some e = some e' := by rw [← state',state]
    cases only
    rw [scratch_ttft asked.live outside still,gist,ended.ttft (by omega) uncapped,q.entering_owes b]

-- A of 100 tokens, then B of 2000, on a budget of 1024.
def reused : PCtx Unit Nat := (((new () 16 1024 : PCtx Unit Nat).ask tokenPredictor ⟨1,100,[],0⟩).1).onAdmit 1 100 []

theorem reuse_continues_baseline_pair : ∃ e, (reused.ask tokenPredictor ⟨2,2000,[],0⟩).1.ephemeral = some e ∧ ¬e.buffer.capped ∧
    e.buffer = (reused.scratch tokenPredictor ((new () 16 1024 : PCtx Unit Nat).scratch tokenPredictor SchedSnapshot.new ⟨1,100,[],0⟩).2
      ⟨2,2000,[],0⟩).1.behind ((new () 16 1024 : PCtx Unit Nat).scratch tokenPredictor SchedSnapshot.new ⟨1,100,[],0⟩).1.slots := by
  obtain ⟨e,cached,continues,_⟩ := reuse_continues_baseline tokenPredictor () 16 1024 [] nofun ⟨1,100,[],0⟩ ⟨2,2000,[],0⟩
  have stopped : ((reused.ask tokenPredictor ⟨2,2000,[],0⟩).1.ephemeral.map fun e => decide e.buffer.capped) = some false := by decide
  have uncapped : ¬e.buffer.capped := by
    have same : (reused.ask tokenPredictor ⟨2,2000,[],0⟩).1.ephemeral = some e := cached
    rw [same] at stopped
    simpa using stopped
  exact ⟨e,cached,uncapped,(continues uncapped).1⟩

-- The rebuild lets B share the slots of A: it starts in slot 0 and needs three
-- slots, behind the baseline it starts in slot 2 and needs two.
theorem reuse_differs_from_scratch :
    (reused.ask tokenPredictor ⟨2,2000,[],0⟩).2.ttftMs = some 2103 ∧
      (reused.scratch tokenPredictor reused.sched ⟨2,2000,[],0⟩).1.gist.ttftMs = some 2102 ∧
      (reused.ask tokenPredictor ⟨2,2000,[],0⟩).2.chunkedPrefillSteps = some 2 ∧
      (reused.scratch tokenPredictor reused.sched ⟨2,2000,[],0⟩).1.gist.chunkedPrefillSteps = some 3 := by decide

end PCtx
end BlitzRouter
