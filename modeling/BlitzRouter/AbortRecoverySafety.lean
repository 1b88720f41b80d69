import BlitzRouter.AbortRecovery

namespace BlitzRouter.AbortRecovery
variable {ι : Type} {s : State ι} {a : Action ι} {channelCap : Nat}

-- An id moves on from the queue to the channel, to the entries, perhaps to the
-- exceptions, and to the finished ones, and is in one of these at a time. What the
-- engine has it was sent, so that it is not in the queue any more.
structure Sound (s : State ι) : Prop where
  queued : ∀ id ∈ s.queue, id ∉ s.wqChannel ∧ id ∉ s.entries.dom ∧ id ∉ s.exceptCtx.dom ∧ id ∉ s.finished
  in_transit : ∀ id ∈ s.wqChannel, id ∉ s.entries.dom ∧ id ∉ s.exceptCtx.dom ∧ id ∉ s.finished
  entered : ∀ id ∈ s.entries.dom, id ∉ s.exceptCtx.dom ∧ id ∉ s.finished
  excepted : ∀ id ∈ s.exceptCtx.dom, id ∉ s.finished
  tracked : ∀ id, id ∈ s.phases.dom ↔ id ∈ s.entries.dom ∨ id ∈ s.exceptCtx.dom
  entry_phase : ∀ id ∈ s.entries.dom, s.phases.val id ≠ .excepted
  except_phase : ∀ id ∈ s.exceptCtx.dom, s.phases.val id = .excepted
  marked : ∀ id ∈ s.exceptCtx.dom, (s.exceptCtx.val id).state = .waitingTerm → id ∈ s.abortedAtRouter
  sent : ∀ id, id ∈ s.engineActive ∨ id ∈ s.enginePending →
    id ∈ s.wqChannel ∨ id ∈ s.entries.dom ∨ id ∈ s.exceptCtx.dom ∨ id ∈ s.finished
  metric : 0 ≤ s.bs

theorem sound_init (requestIds : Finset ι) : Sound (init requestIds) := by
  constructor <;> simp [init,Fn.empty]

variable [DecidableEq ι]

theorem sound_safe (sound : Sound s) : SafetyInvariant s := by
  have apart : s.entries.dom ∩ s.exceptCtx.dom = ∅ :=
    Finset.eq_empty_of_forall_notMem fun id member => (sound.entered id (Finset.mem_inter.mp member).1).1 (Finset.mem_inter.mp member).2
  have open_ : s.entries.dom ∩ s.finished = ∅ :=
    Finset.eq_empty_of_forall_notMem fun id member => (sound.entered id (Finset.mem_inter.mp member).1).2 (Finset.mem_inter.mp member).2
  have pending : s.exceptCtx.dom ∩ s.finished = ∅ :=
    Finset.eq_empty_of_forall_notMem fun id member => sound.excepted id (Finset.mem_inter.mp member).1 (Finset.mem_inter.mp member).2
  constructor
  · exact ⟨apart,open_,pending⟩
  · refine ⟨fun id member => ⟨(sound.tracked id).mpr (.inl member),sound.entry_phase id member⟩,?_⟩
    exact fun id member => ⟨(sound.tracked id).mpr (.inr member),sound.except_phase id member⟩
  · exact Finset.ext fun id => by rw [sound.tracked,Finset.mem_union]
  · intro id member
    refine ⟨?_,sound.marked id member⟩
    cases (s.exceptCtx.val id).state <;> simp
  · exact ⟨Finset.inter_comm s.finished _ ▸ open_,Finset.inter_comm s.finished _ ▸ pending⟩
  · intro id member
    have known := sound.sent id (.inl member)
    simp only [Finset.mem_union,List.mem_toFinset]
    tauto
  · exact sound.metric

theorem phaseTransition_excepted {phase : Phase} {sse : Sse} (open_ : phase ≠ .excepted) : phaseTransition phase sse ≠ .excepted := by
  cases phase <;> cases sse <;> simp_all [phaseTransition]

namespace Output
variable {o : Output ι} {id : ι}

-- What the guards of a step output say of one id.
structure Allowed (s : State ι) (o : Output ι) : Prop where
  aborts : ∀ id ∈ o.frontendAborts, id ∈ o.reported ∧ id ∈ s.entries.dom
  terms : ∀ id ∈ o.termIds, id ∈ s.exceptCtx.dom
  faults : ∀ id ∈ o.faultIds, id ∈ s.entries.dom ∧ id ∉ o.reported

theorem allowed_of (enabled : o.Enabled s) : o.Allowed s := by
  obtain ⟨_,_,aborts,terms,faults,_,_,_⟩ := enabled
  exact ⟨fun id member => Finset.mem_inter.mp (aborts member),fun id member => (Finset.mem_inter.mp (terms member)).2,
    fun id member => Finset.mem_sdiff.mp (faults member)⟩

@[simp] theorem mem_finishing : id ∈ o.finishing s ↔ (id ∈ o.reported ∧ id ∈ s.entries.dom) ∧ o.isFin id := by simp [finishing]

@[simp] theorem mem_actualAborts : id ∈ o.actualAborts s ↔ id ∈ o.frontendAborts ∧ id ∉ o.finishing s := by simp [actualAborts]

@[simp] theorem mem_exceptedFinishing : id ∈ o.exceptedFinishing s ↔ (id ∈ o.reported ∧ id ∈ s.exceptCtx.dom) ∧ o.isFin id := by
  simp [exceptedFinishing]

theorem mem_entries : id ∈ (o.apply s).entries.dom ↔
    id ∈ s.entries.dom ∧ id ∉ o.finishing s ∧ id ∉ o.actualAborts s ∧ id ∉ o.faultIds := by
  simp only [apply,entriesAfterFinish,Finset.mem_sdiff]
  tauto

-- The exceptions that leave for good.
def leaving (s : State ι) (o : Output ι) : Finset ι := o.exceptedFinishing s ∪ o.termIds ∪ o.dropReady s

theorem mem_dropReady (drop : id ∈ o.dropReady s) : id ∈ s.exceptCtx.dom := by
  simp only [dropReady,exceptAfterTerm,exceptAfterExit,Finset.mem_filter,Finset.mem_sdiff] at drop
  exact drop.1.1.1

theorem mem_leaving (allowed : o.Allowed s) (leaves : id ∈ o.leaving s) : id ∈ s.exceptCtx.dom := by
  simp only [leaving,Finset.mem_union,mem_exceptedFinishing] at leaves
  rcases leaves with (finished | term) | drop
  · exact finished.1.2
  · exact allowed.terms id term
  · exact mem_dropReady drop

theorem mem_exceptCtx : id ∈ (o.apply s).exceptCtx.dom ↔
    (id ∈ s.exceptCtx.dom ∧ id ∉ o.leaving s) ∨ id ∈ o.actualAborts s ∨ id ∈ o.faultIds := by
  simp only [apply,allExcept,exceptFinal,exceptAfterTerm,exceptAfterExit,newAbortEntries,newFaultEntries,leaving,
    Finset.mem_union,Finset.mem_sdiff]
  tauto

theorem mem_phases : id ∈ (o.apply s).phases.dom ↔
    (id ∈ s.phases.dom ∧ id ∉ o.finishing s ∧ id ∉ o.leaving s) ∨ id ∈ o.actualAborts s ∨ id ∈ o.faultIds := by
  simp only [apply,allPhases,phasesFinal,phasesAfterTerm,phasesCleaned,phasesAfter,newAbortEntries,newFaultEntries,leaving,
    Finset.mem_union,Finset.mem_sdiff]
  tauto

theorem mem_finished : id ∈ (o.apply s).finished ↔ id ∈ s.finished ∨ id ∈ o.finishing s ∨ id ∈ o.leaving s := by
  simp only [apply,newlyFinished,leaving,Finset.mem_union]
  tauto

-- An entry that is aborted or faults does not finish as well.
theorem raised_entry (allowed : o.Allowed s) (raised : id ∈ o.actualAborts s ∨ id ∈ o.faultIds) :
    id ∈ s.entries.dom ∧ id ∉ o.finishing s := by
  rcases raised with aborted | faulted
  · obtain ⟨chosen,stays⟩ := mem_actualAborts.mp aborted
    exact ⟨(allowed.aborts id chosen).2,stays⟩
  · obtain ⟨entry,unreported⟩ := allowed.faults id faulted
    exact ⟨entry,fun finishes => unreported (mem_finishing.mp finishes).1.1⟩

-- Whoever was known before the step is known after it, and nobody else.
theorem known_iff (allowed : o.Allowed s) :
    (id ∈ (o.apply s).entries.dom ∨ id ∈ (o.apply s).exceptCtx.dom ∨ id ∈ (o.apply s).finished) ↔
      id ∈ s.entries.dom ∨ id ∈ s.exceptCtx.dom ∨ id ∈ s.finished := by
  constructor
  · rintro (entry | excepted | finished)
    · exact .inl (mem_entries.mp entry).1
    · rcases mem_exceptCtx.mp excepted with ⟨old,_⟩ | raised
      · exact .inr (.inl old)
      · exact .inl (raised_entry allowed raised).1
    · rcases mem_finished.mp finished with old | finishes | leaves
      · exact .inr (.inr old)
      · exact .inl (mem_finishing.mp finishes).1.2
      · exact .inr (.inl (mem_leaving allowed leaves))
  · rw [mem_entries,mem_exceptCtx,mem_finished]
    tauto

theorem entry_stays (sound : Sound s) (allowed : o.Allowed s) (entry : id ∈ s.entries.dom) : id ∉ o.leaving s :=
  fun leaves => (sound.entered id entry).1 (mem_leaving allowed leaves)

theorem except_stays (sound : Sound s) (excepted : id ∈ s.exceptCtx.dom) : id ∉ o.finishing s :=
  fun finishes => (sound.entered id (mem_finishing.mp finishes).1.2).1 excepted

theorem raised_phase (raised : id ∈ o.actualAborts s ∨ id ∈ o.faultIds) : (o.apply s).phases.val id = .excepted := if_pos raised

theorem quiet_phase (quiet : ¬(id ∈ o.actualAborts s ∨ id ∈ o.faultIds)) :
    (o.apply s).phases.val id = (o.phasesAfter s).val id := if_neg quiet

theorem quiet_state (quiet : ¬(id ∈ o.actualAborts s ∨ id ∈ o.faultIds)) :
    ((o.apply s).exceptCtx.val id).state = (s.exceptCtx.val id).state := by
  have old : (o.apply s).exceptCtx.val id = (o.exceptFinal s).val id :=
    (if_neg fun aborted => quiet (.inl aborted)).trans (if_neg fun faulted => quiet (.inr faulted))
  rw [old]
  simp only [exceptFinal,exceptAfterTerm,exceptAfterExit]
  split <;> rfl

-- Of the raised exceptions, those that wait for the engine are the aborts.
theorem raised_state (waiting : ((o.apply s).exceptCtx.val id).state = .waitingTerm) (raised : id ∈ o.actualAborts s ∨ id ∈ o.faultIds) :
    id ∈ o.actualAborts s := by
  by_contra unaborted
  have faulted : (o.apply s).exceptCtx.val id = o.newFaultEntries.val id := (if_neg unaborted).trans (if_pos (raised.resolve_left unaborted))
  rw [faulted] at waiting
  cases waiting

theorem entry_phase_kept (sound : Sound s) (member : id ∈ (o.apply s).entries.dom) : (o.apply s).phases.val id ≠ .excepted := by
  obtain ⟨entry,stays,unaborted,unfaulted⟩ := mem_entries.mp member
  have quiet : ¬(id ∈ o.actualAborts s ∨ id ∈ o.faultIds) := not_or.mpr ⟨unaborted,unfaulted⟩
  have apart : id ∉ o.exceptedFinishing s := fun finishes => (sound.entered id entry).1 (mem_exceptedFinishing.mp finishes).1.2
  rw [quiet_phase quiet]
  simp only [phasesAfter]
  rw [if_neg (not_or.mpr ⟨stays,apart⟩),if_neg quiet]
  split
  · exact phaseTransition_excepted (sound.entry_phase id entry)
  · exact sound.entry_phase id entry

theorem except_phase_kept (sound : Sound s) (member : id ∈ (o.apply s).exceptCtx.dom) : (o.apply s).phases.val id = .excepted := by
  by_cases raised : id ∈ o.actualAborts s ∨ id ∈ o.faultIds
  · exact raised_phase raised
  · have old := ((mem_exceptCtx.mp member).resolve_right raised).1
    have apart : ¬(id ∈ o.reported ∧ id ∈ s.entries.dom) := fun both => (sound.entered id both.2).1 old
    rw [quiet_phase raised,← sound.except_phase id old]
    simp only [phasesAfter,if_neg raised,if_neg apart,ite_self]

theorem marked_kept (sound : Sound s) (allowed : o.Allowed s) (member : id ∈ (o.apply s).exceptCtx.dom)
    (waiting : ((o.apply s).exceptCtx.val id).state = .waitingTerm) : id ∈ (o.apply s).abortedAtRouter := by
  simp only [apply,Finset.mem_sdiff,Finset.mem_union]
  by_cases raised : id ∈ o.actualAborts s ∨ id ∈ o.faultIds
  · have entry := (raised_entry allowed raised).1
    exact ⟨.inr (raised_state waiting raised),fun term => (sound.entered id entry).1 (allowed.terms id term)⟩
  · obtain ⟨old,stays⟩ := (mem_exceptCtx.mp member).resolve_right raised
    rw [quiet_state raised] at waiting
    refine ⟨.inl (sound.marked id old waiting),fun term => stays ?_⟩
    simp [leaving,term]

theorem sound_apply (sound : Sound s) (enabled : o.Enabled s) : Sound (o.apply s) := by
  have allowed := allowed_of enabled
  have unknown {id : ι} (outside : id ∉ s.entries.dom ∧ id ∉ s.exceptCtx.dom ∧ id ∉ s.finished) :
      id ∉ (o.apply s).entries.dom ∧ id ∉ (o.apply s).exceptCtx.dom ∧ id ∉ (o.apply s).finished := by
    rw [← not_or,← not_or] at outside ⊢
    exact fun known => outside ((known_iff allowed).mp known)
  constructor
  · exact fun id member => ⟨(sound.queued id member).1,unknown (sound.queued id member).2⟩
  · exact fun id member => unknown (sound.in_transit id member)
  · intro id member
    obtain ⟨entry,stays,quiet⟩ := mem_entries.mp member
    have apart := sound.entered id entry
    have kept := entry_stays sound allowed entry
    rw [mem_exceptCtx,mem_finished]
    grind
  · intro id member
    rw [mem_finished]
    rcases mem_exceptCtx.mp member with ⟨old,stays⟩ | raised
    · exact not_or.mpr ⟨sound.excepted id old,not_or.mpr ⟨except_stays sound old,stays⟩⟩
    · obtain ⟨entry,stays⟩ := raised_entry allowed raised
      exact not_or.mpr ⟨(sound.entered id entry).2,not_or.mpr ⟨stays,entry_stays sound allowed entry⟩⟩
  · intro id
    have entry_kept : id ∈ s.entries.dom → id ∉ o.leaving s := entry_stays sound allowed
    have except_kept : id ∈ s.exceptCtx.dom → id ∉ o.finishing s := except_stays sound
    rw [mem_phases,mem_entries,mem_exceptCtx,sound.tracked id]
    grind
  · exact fun id member => entry_phase_kept sound member
  · exact fun id member => except_phase_kept sound member
  · exact fun id member => marked_kept sound allowed member
  · intro id given
    have before : id ∈ s.engineActive ∨ id ∈ s.enginePending := by
      refine given.imp_left fun active => ?_
      exact (Finset.mem_sdiff.mp (Finset.mem_sdiff.mp active).1).1
    exact (sound.sent id before).imp_right (known_iff allowed).mpr
  · simp only [apply]
    split <;> omega

end Output

theorem sound_dispatch {id : ι} (sound : Sound s) (queued : id ∈ s.queue) : Sound (apply s (.workLoopDispatch id)) := by
  have fresh := sound.queued id queued
  refine {sound with queued := ?_,in_transit := ?_,sent := ?_}
  · intro other member
    simp only [apply,Finset.mem_sdiff,Finset.mem_singleton] at member
    obtain ⟨channel,known⟩ := sound.queued other member.1
    refine ⟨?_,known⟩
    simp [apply,channel,member.2]
  · intro other member
    rcases List.mem_append.mp member with old | new
    · exact sound.in_transit other old
    · rw [List.mem_singleton.mp new]
      exact fresh.2
  · intro other given
    simp only [apply,Finset.mem_union,Finset.mem_singleton,List.mem_append,List.mem_singleton] at given ⊢
    have known := sound.sent other
    grind

theorem sound_drain (sound : Sound s) : Sound (apply s .completionLoopDrainChannel) := by
  have entered {id : ι} : id ∈ (drained s s.entries).dom ↔ id ∈ s.entries.dom ∨ id ∈ s.wqChannel := by simp [drained]
  have phased {id : ι} : id ∈ (drained s s.phases).dom ↔ id ∈ s.phases.dom ∨ id ∈ s.wqChannel := by simp [drained]
  constructor
  · intro id member
    have outside := sound.queued id member
    refine ⟨List.not_mem_nil,fun entry => ?_,outside.2.2⟩
    exact (entered.mp entry).elim outside.2.1 outside.1
  · exact fun id member => (List.not_mem_nil member).elim
  · intro id member
    exact (entered.mp member).elim (sound.entered id) fun channel => (sound.in_transit id channel).2
  · exact sound.excepted
  · intro id
    have tracked := sound.tracked id
    simp only [apply,entered,phased]
    grind
  · intro id member
    simp only [apply,drained]
    split
    · nofun
    · rename_i arrived
      exact sound.entry_phase id ((entered.mp member).resolve_right fun channel => arrived (List.mem_toFinset.mpr channel))
  · intro id member
    have arrived : id ∉ s.wqChannel.toFinset := fun channel => (sound.in_transit id (List.mem_toFinset.mp channel)).2.1 member
    exact (if_neg arrived).trans (sound.except_phase id member)
  · exact sound.marked
  · intro id given
    have known := sound.sent id given
    simp only [apply,entered]
    grind
  · exact sound.metric

theorem sound_accept {id : ι} (sound : Sound s) (pending : id ∈ s.enginePending) : Sound (apply s (.engineAcceptRequest id)) := by
  refine {sound with sent := ?_}
  intro other given
  simp only [apply,Finset.mem_union,Finset.mem_sdiff,Finset.mem_singleton] at given
  refine sound.sent other ?_
  rcases given with (active | rfl) | ⟨left,_⟩
  · exact .inl active
  · exact .inr pending
  · exact .inr left

theorem sound_finish {id : ι} (sound : Sound s) (entry : id ∈ s.entries.dom) : Sound (apply s (.engineProduceFinish id)) := by
  obtain ⟨apart,_⟩ := sound.entered id entry
  constructor
  · intro other member
    obtain ⟨channel,entries,excepts,finished⟩ := sound.queued other member
    simp only [apply,Fn.removeKey,Finset.mem_sdiff,Finset.mem_union,Finset.mem_singleton]
    exact ⟨channel,fun both => entries both.1,excepts,not_or.mpr ⟨finished,fun same => entries (same ▸ entry)⟩⟩
  · intro other member
    obtain ⟨entries,excepts,finished⟩ := sound.in_transit other member
    simp only [apply,Fn.removeKey,Finset.mem_sdiff,Finset.mem_union,Finset.mem_singleton]
    exact ⟨fun both => entries both.1,excepts,not_or.mpr ⟨finished,fun same => entries (same ▸ entry)⟩⟩
  · intro other member
    simp only [apply,Fn.removeKey,Finset.mem_sdiff,Finset.mem_union,Finset.mem_singleton] at member ⊢
    obtain ⟨excepts,finished⟩ := sound.entered other member.1
    exact ⟨excepts,not_or.mpr ⟨finished,member.2⟩⟩
  · intro other member
    simp only [apply,Finset.mem_union,Finset.mem_singleton]
    exact not_or.mpr ⟨sound.excepted other member,fun same => apart (same ▸ member)⟩
  · intro other
    have tracked := sound.tracked other
    have differs : other ∈ s.exceptCtx.dom → other ≠ id := fun member same => apart (same ▸ member)
    simp only [apply,Fn.removeKey,Finset.mem_sdiff,Finset.mem_singleton]
    grind
  · exact fun other member => sound.entry_phase other (Finset.mem_sdiff.mp member).1
  · exact sound.except_phase
  · exact sound.marked
  · intro other given
    have known := sound.sent other (given.imp_left fun active => (Finset.mem_sdiff.mp active).1)
    simp only [apply,Fn.removeKey,Finset.mem_sdiff,Finset.mem_union,Finset.mem_singleton]
    grind
  · have metric := sound.metric
    simp only [apply]
    split <;> omega

theorem sound_acknowledge {id : ι} (sound : Sound s) (excepted : id ∈ s.exceptCtx.dom) : Sound (apply s (.engineAcknowledgeAbort id)) := by
  have apart : ∀ other ∈ s.entries.dom, other ≠ id := fun other member same => (sound.entered other member).1 (same ▸ excepted)
  constructor
  · intro other member
    obtain ⟨channel,entries,excepts,finished⟩ := sound.queued other member
    simp only [apply,Fn.removeKey,Finset.mem_sdiff,Finset.mem_union,Finset.mem_singleton]
    exact ⟨channel,entries,fun both => excepts both.1,not_or.mpr ⟨finished,fun same => excepts (same ▸ excepted)⟩⟩
  · intro other member
    obtain ⟨entries,excepts,finished⟩ := sound.in_transit other member
    simp only [apply,Fn.removeKey,Finset.mem_sdiff,Finset.mem_union,Finset.mem_singleton]
    exact ⟨entries,fun both => excepts both.1,not_or.mpr ⟨finished,fun same => excepts (same ▸ excepted)⟩⟩
  · intro other member
    obtain ⟨excepts,finished⟩ := sound.entered other member
    simp only [apply,Fn.removeKey,Finset.mem_sdiff,Finset.mem_union,Finset.mem_singleton]
    exact ⟨fun both => excepts both.1,not_or.mpr ⟨finished,apart other member⟩⟩
  · intro other member
    simp only [apply,Fn.removeKey,Finset.mem_sdiff,Finset.mem_union,Finset.mem_singleton] at member ⊢
    exact not_or.mpr ⟨sound.excepted other member.1,member.2⟩
  · intro other
    have tracked := sound.tracked other
    have differs := apart other
    simp only [apply,Fn.removeKey,Finset.mem_sdiff,Finset.mem_singleton]
    grind
  · exact sound.entry_phase
  · exact fun other member => sound.except_phase other (Finset.mem_sdiff.mp member).1
  · intro other member waiting
    obtain ⟨old,differs⟩ := Finset.mem_sdiff.mp member
    exact Finset.mem_sdiff.mpr ⟨sound.marked other old waiting,differs⟩
  · intro other given
    have known := sound.sent other (given.imp_left fun active => (Finset.mem_sdiff.mp active).1)
    simp only [apply,Fn.removeKey,Finset.mem_sdiff,Finset.mem_union,Finset.mem_singleton]
    grind
  · have metric := sound.metric
    simp only [apply]
    split <;> omega

theorem sound_mark {id : ι} (sound : Sound s) : Sound (apply s (.frontendAbort id)) :=
  {sound with marked := fun other member waiting => Finset.mem_union_left _ (sound.marked other member waiting)}

theorem sound_step {s' : State ι} (sound : Sound s) (step : Next channelCap s a s') : Sound s' := by
  obtain ⟨enabled,rfl⟩ := step
  cases a with
  | workLoopDispatch id => exact sound_dispatch sound enabled.2
  | completionLoopDrainChannel => exact sound_drain sound
  | engineAcceptRequest id => exact sound_accept sound enabled
  | completionLoopStepOutput o => exact Output.sound_apply sound enabled
  | engineProduceFinish id => exact sound_finish sound enabled.2
  | engineAcknowledgeAbort id => exact sound_acknowledge sound enabled.2.1
  | frontendAbort id => exact sound_mark sound
  | stutter => exact sound

theorem reachable_safe (requestIds : Finset ι) (channelCap : Nat) (history : List (Action ι)) (s : State ι)
    (run : Run (Next channelCap) (init requestIds) history s) : SafetyInvariant s := by
  have sound : Sound s := run.invariant (sound_init requestIds) fun _ _ _ _ held step => sound_step held step
  exact sound_safe sound

-- Request 1 is aborted by its client in its first step and acknowledged later.
def abortedOutput : Output Nat := ⟨{1},fun _ => .prefill,fun _ => false,{1},∅,∅⟩

theorem reachable_safe_aborted : ∃ s : State Nat, Run (Next 2) (init {1,2})
    [.workLoopDispatch 1,.completionLoopDrainChannel,.engineAcceptRequest 1,.completionLoopStepOutput abortedOutput,.engineAcknowledgeAbort 1] s ∧
    1 ∈ s.finished ∧ SafetyInvariant s := by
  have run : ∃ s : State Nat, Run (Next 2) (init {1,2})
      [.workLoopDispatch 1,.completionLoopDrainChannel,.engineAcceptRequest 1,.completionLoopStepOutput abortedOutput,.engineAcknowledgeAbort 1] s ∧
      1 ∈ s.finished := by
    refine ⟨_,.next (.next (.next (.next (.next .start ⟨?_,rfl⟩) ⟨?_,rfl⟩) ⟨?_,rfl⟩) ⟨?_,rfl⟩) ⟨?_,rfl⟩,by decide⟩
    all_goals
      simp only [Enabled,Output.Enabled]
      decide
  obtain ⟨s,run,finished⟩ := run
  exact ⟨s,run,finished,reachable_safe {1,2} 2 _ s run⟩

end BlitzRouter.AbortRecovery
