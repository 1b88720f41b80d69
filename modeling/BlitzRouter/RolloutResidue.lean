import BlitzRouter.RolloutRuns

namespace BlitzRouter
open SchedSnapshot

variable {ρ τ : Type} {predict : BatchForPredictor → τ} {limits : StepLimits} {s s' : SchedSnapshot} {candidateId rid : RequestId}

namespace SchedSnapshot

-- One snapshot or two that differ in the order of the map only.
structure Same (s s' : SchedSnapshot) : Prop where
  waiting : s.waiting = s'.waiting
  running : ∀ rid, s.running.lookup rid = s'.running.lookup rid

theorem Same.refl (s : SchedSnapshot) : Same s s := ⟨rfl,fun _ => rfl⟩

theorem Same.symm (same : Same s s') : Same s' s := ⟨same.waiting.symm,fun rid => (same.running rid).symm⟩

theorem Same.admitReq (same : Same s s') (req : ReqProgress) : Same (s.admitReq req) (s'.admitReq req) :=
  ⟨congrArg (·++[req]) same.waiting,same.running⟩

theorem insert_same {running running' : Table RequestId ReqProgress} (same : ∀ rid, running.lookup rid = running'.lookup rid)
    (key : RequestId) (r : ReqProgress) (rid : RequestId) : (running.insert key r).lookup rid = (running'.insert key r).lookup rid := by
  by_cases here : rid = key
  · rw [here,AList.lookup_insert,AList.lookup_insert]
  · rw [AList.lookup_insert_ne here,AList.lookup_insert_ne here,same]

-- Sorting the ids hides the order in which a map hands out its values.
theorem Same.sortedIds (same : Same s s') (select : ReqProgress → Bool) :
    SchedSnapshot.sortedIds (s.values.filter select) = SchedSnapshot.sortedIds (s'.values.filter select) := by
  have rows : s.running.entries.Perm s'.running.entries := by
    apply List.lookup_ext s.running.nodupKeys s'.running.nodupKeys
    intro rid r
    change r ∈ s.running.lookup rid ↔ r ∈ s'.running.lookup rid
    rw [same.running]
  have ids := (((rows.map Sigma.snd).filter select).map fun r => r.requestId)
  refine List.Perm.eq_of_pairwise' (r := (·≤·)) (List.pairwise_insertionSort _ _) (List.pairwise_insertionSort _ _) ?_
  exact (List.perm_insertionSort _ _).trans (ids.trans (List.perm_insertionSort _ _).symm)

theorem Same.decodeParts (same : Same s s') (rids : List RequestId) : s.decodeParts rids = s'.decodeParts rids := by
  unfold SchedSnapshot.decodeParts
  congr 1
  funext rid
  rw [same.running]

theorem Same.continuePrefills (same : Same s s') (rids : List RequestId) (budget : Int) :
    (SchedSnapshot.continuePrefills rids s budget).2 = (SchedSnapshot.continuePrefills rids s' budget).2 ∧
      Same (SchedSnapshot.continuePrefills rids s budget).1 (SchedSnapshot.continuePrefills rids s' budget).1 := by
  induction rids generalizing s s' budget with
  | nil => exact ⟨rfl,same⟩
  | cons rid rest ih =>
    unfold SchedSnapshot.continuePrefills
    split
    · exact ⟨rfl,same⟩
    · rw [same.running rid]
      split
      · exact ih same budget
      · rename_i req found
        simp only
        split
        · exact ih same budget
        · have placed : ∀ r, Same {s with running := s.running.insert rid r} {s' with running := s'.running.insert rid r} :=
            fun r => ⟨same.waiting,insert_same same.running rid r⟩
          obtain ⟨parts,rest⟩ := ih (placed _) _
          exact ⟨congrArg (fun out : Int × List PrefillPart => (out.1,PrefillPart.mk rid req.processedTokens _::out.2)) parts,rest⟩

theorem pullWaiting_same (waiting : List ReqProgress) {running running' : Table RequestId ReqProgress}
    (same : ∀ rid, running.lookup rid = running'.lookup rid) (budget : Int) :
    (pullWaiting waiting running budget).2 = (pullWaiting waiting running' budget).2 ∧
      Same (pullWaiting waiting running budget).1 (pullWaiting waiting running' budget).1 := by
  induction waiting generalizing running running' budget with
  | nil => exact ⟨rfl,rfl,same⟩
  | cons next rest ih =>
    unfold pullWaiting
    split
    · exact ⟨rfl,rfl,same⟩
    · simp only
      split
      · exact ih (insert_same same _ _) budget
      · obtain ⟨parts,rest⟩ := ih (insert_same same next.requestId _) _
        exact ⟨by rw [parts],rest⟩

end SchedSnapshot

theorem scheduleStep_same (limits : StepLimits) (same : Same s s') :
    (scheduleStep limits s).2 = (scheduleStep limits s').2 ∧ Same (scheduleStep limits s).1 (scheduleStep limits s').1 := by
  have decoders : s.runningDecoders = s'.runningDecoders := same.sortedIds _
  have prefillers : s.runningPrefillers = s'.runningPrefillers := same.sortedIds _
  unfold scheduleStep
  rw [decoders,prefillers,same.decodeParts]
  obtain ⟨parts,continued⟩ := same.continuePrefills s'.runningPrefillers
    ((limits.tokenBudget : Int)-(s'.decodeParts s'.runningDecoders).length)
  rcases one : SchedSnapshot.continuePrefills s'.runningPrefillers s
    ((limits.tokenBudget : Int)-(s'.decodeParts s'.runningDecoders).length) with ⟨u,left,taken⟩
  rcases two : SchedSnapshot.continuePrefills s'.runningPrefillers s'
    ((limits.tokenBudget : Int)-(s'.decodeParts s'.runningDecoders).length) with ⟨u',left',taken'⟩
  rw [one,two] at parts continued
  cases parts
  have moved : Same u u' := continued
  obtain ⟨more,pulled⟩ := pullWaiting_same u.waiting moved.running left
  simp only [one,two,← moved.waiting]
  exact ⟨by rw [more],pulled⟩

section Loop
variable (predict limits candidateId)

theorem simulateOneSlot_same (same : Same s s') (slotIdx : Nat) (buffer : RolloutBuffer τ) :
    (simulateOneSlot predict limits s slotIdx candidateId buffer).2 = (simulateOneSlot predict limits s' slotIdx candidateId buffer).2 ∧
      Same (simulateOneSlot predict limits s slotIdx candidateId buffer).1
        (simulateOneSlot predict limits s' slotIdx candidateId buffer).1 := by
  obtain ⟨parts,moved⟩ := scheduleStep_same limits same
  unfold simulateOneSlot
  simp only [parts]
  split
  · exact ⟨rfl,moved⟩
  · simp only [trackCandidate,moved.running]
    exact ⟨trivial,moved⟩

theorem scheduleLoop_same (same : Same s s') (free : Nat) (buffer : RolloutBuffer τ) :
    (scheduleLoop predict limits candidateId free s buffer).1 = (scheduleLoop predict limits candidateId free s' buffer).1 ∧
      Same (scheduleLoop predict limits candidateId free s buffer).2 (scheduleLoop predict limits candidateId free s' buffer).2 := by
  induction free generalizing s s' buffer with
  | zero => exact ⟨rfl,same⟩
  | succ free ih =>
    obtain ⟨out,moved⟩ := simulateOneSlot_same predict limits candidateId same
      buffer.slots.length buffer
    unfold scheduleLoop
    rcases one : simulateOneSlot predict limits s buffer.slots.length candidateId buffer with ⟨u,v,slot⟩
    rcases two : simulateOneSlot predict limits s' buffer.slots.length candidateId buffer with ⟨u',v',slot'⟩
    rw [one,two] at out moved
    cases out
    cases slot with
    | none => exact ⟨rfl,moved⟩
    | some slot =>
      simp only
      split
      · exact ⟨rfl,moved⟩
      · exact ih moved _

end Loop

namespace PCtx
variable [Zero τ] [Add τ] {trained : TrainedPredictor ρ τ} {p : PCtx ρ τ}

-- B is answered as if A had never been asked.
def NoResidue (trained : TrainedPredictor ρ τ) (p : PCtx ρ τ) (a b : Candidate) : Prop :=
  (((p.ask trained a).1).ask trained b).2 = (p.ask trained b).2 ∧
    ∃ e e', (((p.ask trained a).1).ask trained b).1.ephemeral = some e ∧ (p.ask trained b).1.ephemeral = some e' ∧
      e.buffer = e'.buffer ∧ Same e.tailSched e'.tailSched

-- A promoted rollout without slots stands where the engine stands.
def Settled (p : PCtx ρ τ) : Prop :=
  ∀ e, p.ephemeral = some e → e.candidateId = none → e.buffer.slots = [] → Same e.tailSched p.sched

-- From which slots and which snapshot the next rollout continues.
def ground (p : PCtx ρ τ) : List (RolloutSlot τ) × SchedSnapshot :=
  match p.ephemeral.bind EphemeralRollout.recover with
  | some (b,_,tail) => (b.slots,tail)
  | none => ([],p.sched)

theorem ask_ground (trained : TrainedPredictor ρ τ) (p : PCtx ρ τ) (c : Candidate) :
    ∃ e, (p.ask trained c).1 = {p with ephemeral := some e} ∧ (p.ask trained c).2 = e.buffer.gist ∧
      (e.buffer,e.tailSched) = scheduleLoop (trained.predict p.regressor) p.limits c.id (maxSlots-p.ground.1.length)
        (p.ground.2.admitReq (p.entering c)) ⟨some c.id,p.ground.1,none,none,none⟩ ∧
      e.candidateId = some c.id ∧ e.savepoint = if p.ground.1.isEmpty then none else some (p.ground.1.length,p.ground.2) := by
  obtain ⟨e,state,gist,built⟩ := ask_cases trained p c
  refine ⟨e,state,gist,?_⟩
  unfold ground
  rcases built with ⟨b,anchor,tail,recovered,loop,bound,saved⟩ | ⟨recovered,loop,bound,saved⟩
  · rw [recovered]
    exact ⟨loop,bound,saved⟩
  · rw [recovered]
    exact ⟨loop,bound,saved⟩

-- After a query the next one starts where this one did, unless there was no slot
-- to keep: then it starts from the scheduler again.
theorem ground_ask (trained : TrainedPredictor ρ τ) (p : PCtx ρ τ) (c : Candidate) :
    (p.ask trained c).1.ground = if p.ground.1.isEmpty then ([],p.sched) else p.ground := by
  obtain ⟨e,state,_,loop,bound,saved⟩ := ask_ground trained p c
  obtain ⟨more,slots,_⟩ := scheduleLoop_slots (trained.predict p.regressor) p.limits c.id
    (maxSlots-p.ground.1.length) (p.ground.2.admitReq (p.entering c)) ⟨some c.id,p.ground.1,none,none,none⟩
  rw [← loop] at slots
  change e.buffer.slots = p.ground.1++more at slots
  have recovered : e.recover = if p.ground.1.isEmpty then none
      else some (⟨none,p.ground.1,none,none,none⟩,e.sseAnchorStepId,p.ground.2) := by
    unfold EphemeralRollout.recover
    rw [bound,saved]
    by_cases bare : p.ground.1 = []
    · simp [bare]
    · have positive := List.length_pos_of_ne_nil bare
      simp [bare,positive,slots]
  rw [state]
  change (match e.recover with
    | some (b,_,tail) => (b.slots,tail)
    | none => ([],p.sched)) = _
  rw [recovered]
  by_cases bare : p.ground.1 = []
  · simp [bare]
  · simp [bare]

theorem ground_same {c : Candidate} {q : PCtx ρ τ} (slots : q.ground.1 = p.ground.1)
    (sched : Same q.ground.2 p.ground.2) (regressor : q.regressor = p.regressor) (limits : q.limits = p.limits)
    (mirror : q.mirror = p.mirror) :
    (q.ask trained c).2 = (p.ask trained c).2 ∧
      ∃ e e', (q.ask trained c).1.ephemeral = some e ∧ (p.ask trained c).1.ephemeral = some e' ∧
        e.buffer = e'.buffer ∧ Same e.tailSched e'.tailSched := by
  obtain ⟨e,state,gist,loop,_,_⟩ := ask_ground trained q c
  obtain ⟨e',state',gist',loop',_,_⟩ := ask_ground trained p c
  have entering : q.entering c = p.entering c := by simp only [PCtx.entering,limits,mirror]
  rw [slots,entering,regressor,limits] at loop
  obtain ⟨buffer,tail⟩ := scheduleLoop_same (trained.predict p.regressor) p.limits c.id
    (sched.admitReq (p.entering c)) (maxSlots-p.ground.1.length) ⟨some c.id,p.ground.1,none,none,none⟩
  rw [← loop,← loop'] at buffer tail
  refine ⟨?_,e,e',by rw [state],by rw [state'],buffer,tail⟩
  rw [gist,gist']
  exact congrArg RolloutBuffer.gist buffer

omit [Zero τ] [Add τ] in
theorem Sound.ground_settled (sound : p.Sound) (settled : p.Settled) (bare : p.ground.1 = []) : Same p.sched p.ground.2 := by
  unfold ground at bare ⊢
  cases recovered : p.ephemeral.bind EphemeralRollout.recover with
  | none => exact Same.refl p.sched
  | some taken =>
    obtain ⟨b,anchor,tail⟩ := taken
    rw [recovered] at bare
    obtain ⟨e,cached,result⟩ := Option.bind_eq_some_iff.mp recovered
    unfold EphemeralRollout.recover at result
    split at result
    · rename_i clean
      cases result
      exact (settled e cached clean bare).symm
    · split at result
      · rename_i idx saved kept
        split at result
        · cases result
          -- a savepoint lies inside the buffer, so it keeps a slot
          have bounds := (sound.cached e cached).split idx _ kept
          have size := congrArg List.length bare
          rw [List.length_take,List.length_nil] at size
          omega
        · cases result
      · cases result

theorem Sound.no_residue (sound : p.Sound) (settled : p.Settled) (a b : Candidate) : NoResidue trained p a b := by
  obtain ⟨e,state,_⟩ := ask_ground trained p a
  have next := ground_ask trained p a
  have kept : (p.ask trained a).1.regressor = p.regressor ∧ (p.ask trained a).1.limits = p.limits ∧
      (p.ask trained a).1.mirror = p.mirror := by
    rw [state]
    exact ⟨rfl,rfl,rfl⟩
  by_cases bare : p.ground.1 = []
  · rw [bare,List.isEmpty_nil,if_pos rfl] at next
    refine ground_same (by rw [next,bare]) ?_ kept.1 kept.2.1 kept.2.2
    rw [next]
    exact sound.ground_settled settled bare
  · have filled : p.ground.1.isEmpty = false := by simpa using bare
    rw [filled,if_neg Bool.false_ne_true] at next
    exact ground_same (by rw [next]) (next ▸ Same.refl _) kept.1 kept.2.1 kept.2.2

theorem queries_leave_no_residue (trained : TrainedPredictor ρ τ) (regressor : ρ) (blockSize tokenBudget : Nat) (calls : List PCtxCall)
    (settled : Settled (after trained (new regressor blockSize tokenBudget) calls)) (a b : Candidate) :
    NoResidue trained (after trained (new regressor blockSize tokenBudget) calls) a b :=
  (sound_after regressor blockSize tokenBudget calls).no_residue settled a b

theorem queries_leave_no_residue_promoted : NoResidue tokenPredictor
    (after tokenPredictor (new () 16 1024) [.query ⟨1,100,[],0⟩,.onAdmit 1 100 []]) ⟨2,20,[],0⟩ ⟨3,40,[],1⟩ := by
  apply queries_leave_no_residue
  intro e cached _ bare
  have slots : (after tokenPredictor (new () 16 1024) [.query ⟨1,100,[],0⟩,.onAdmit 1 100 []]).ephemeral.map
      (fun e => e.buffer.slots.length) = some 2 := by decide
  rw [cached,Option.map_some,bare] at slots
  cases slots

-- The promoted rollout of a fully cached candidate has no slots. Alone, the query
-- sees request 1 decode; after another query it sees it prefill.
theorem empty_baseline_residue : ¬NoResidue tokenPredictor
    (after tokenPredictor (new () 16 1024) [.query ⟨1,16,[],1⟩,.onAdmit 1 16 []]) ⟨2,20,[],0⟩ ⟨3,20,[],0⟩ := by
  intro same
  exact absurd same.1 (by decide)

end PCtx
end BlitzRouter
