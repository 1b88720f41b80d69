import BlitzRouter.LoopLines

namespace BlitzRouter.CompletionLoop

variable {ext : External} {outputs rest : List RequestStepOutput} {faulted : List RequestId} {s s' : CompletionLoop}
  {o : RequestStepOutput} {id : RequestId} {entry new : Entry} {ids errors : List RequestId}

section Slow

-- Requests to be cancelled have lost their client.
def Gone (ids : List RequestId) (s : CompletionLoop) : Prop :=
  ∀ id ∈ ids, ∀ entry, s.entries.lookup id = some entry → entry.responseTx.reads ≠ none

-- One output of the slow path: its request is not served here, or its messages
-- are sent, with the last one if it ends the request.
inductive Sends (ext : External) (s : CompletionLoop) (o : RequestStepOutput) : CompletionLoop → Prop where
  | unknown (phases : Table RequestId RequestPhase) : s.entries.lookup o.requestId = none →
      Sends ext s o {s with requestPhases := phases}
  | sent (entry : Entry) (tx : ResponseTx) (isOpen : Bool) (phases : Table RequestId RequestPhase) :
      s.entries.lookup o.requestId = some entry → entry.responseTx.Extends ext o.newTokenIds tx isOpen →
      Sends ext s o ({s with requestPhases := phases}.delivered o ({entry with responseTx := tx},isOpen))

theorem sends_of (result : s.passOutput ext o = .ok s') : Sends ext s o s' := by
  obtain ⟨phases,_,⟨absent,rfl⟩ | ⟨entry,outcome,found,served,rfl⟩⟩ := passOutput_cases result
  · exact .unknown phases absent
  · obtain ⟨tx,isOpen,sent,extended⟩ : ∃ tx isOpen, outcome = ({entry with responseTx := tx},isOpen) ∧
        entry.responseTx.Extends ext o.newTokenIds tx isOpen := by
      rcases served with rfl | rfl
      · exact onPrefill_extends ext entry o.newTokenIds
      · exact onDecode_extends ext entry o.newTokenIds
    rw [sent]
    exact .sent entry tx isOpen phases found extended

theorem promised_spares (runs : ¬FinishedIn outputs o.requestId) :
    (promised ext outputs faulted).Spares (promised ext (outputs++[o]) faulted) o.requestId where
  serving _ _ differs streaming := streaming.other differs
  excepted _ _ withheld := withheld
  left _ resolved := resolved.later runs

theorem Lines.sends (lines : Lines ext outputs faulted s) (sound : s.Sound) (runs : ¬FinishedIn outputs o.requestId)
    (step : Sends ext s o s') : Lines ext (outputs++[o]) faulted s' := by
  have upholds := lines_iff.mp lines
  cases step with
  | unknown phases absent => exact lines_iff.mpr (upholds.unknown (promised_spares runs) absent)
  | sent entry tx isOpen phases found extended =>
    have streaming := lines.entries _ entry found
    refine lines_iff.mpr (upholds.delivered (promised_spares runs) (fun goes => streaming.next goes extended) fun ends => ?_)
    have named := sound.keyed _ entry found
    simp only [promised,onFinishRequest,named]
    exact streaming.finish ends extended

theorem delivered_cancel {outcome : Entry × Bool} (member : id ∈ (s.delivered o outcome).cancelReqIds) :
    id ∈ s.cancelReqIds ∨ id = o.requestId ∧ outcome.2 = false := by
  have called : id ∈ (if outcome.2 then s.cancelReqIds else o.requestId::s.cancelReqIds) := by
    unfold delivered at member
    simp only at member
    generalize (if outcome.2 then s.cancelReqIds else o.requestId::s.cancelReqIds) = cancel at member ⊢
    split at member
    · simp only at member
      split at member
      · exact List.mem_of_mem_tail member
      · exact member
    · exact member
  cases isOpen : outcome.2 with
  | true =>
    rw [isOpen,if_pos rfl] at called
    exact .inl called
  | false =>
    rw [isOpen,if_neg Bool.false_ne_true] at called
    exact (List.mem_cons.mp called).symm.imp_right fun same => ⟨same,rfl⟩

theorem Gone.sends (gone : Gone s.cancelReqIds s) (step : Sends ext s o s') : Gone s'.cancelReqIds s' := by
  cases step with
  | unknown phases absent => exact gone
  | sent entry tx isOpen phases found extended =>
    intro id member e inside
    have called := delivered_cancel member
    unfold delivered at inside
    cases ends : o.isFinished with
    | false =>
      rw [ends,if_neg Bool.false_ne_true] at inside
      simp only at inside
      by_cases same : id = o.requestId
      · rw [same,AList.lookup_insert] at inside
        cases inside
        simp only
        rw [extended.reads]
        rcases called with old | ⟨_,closed⟩
        · exact gone id old entry (same ▸ found)
        · intro connected
          rw [(extended.connected connected).1] at closed
          cases closed
      · rw [AList.lookup_insert_ne same] at inside
        rcases called with old | ⟨own,_⟩
        · exact gone id old e inside
        · exact absurd own same
    | true =>
      rw [ends,if_pos rfl] at inside
      simp only at inside
      have differs : id ≠ o.requestId := by
        intro same
        rw [same,AList.lookup_erase] at inside
        cases inside
      rw [AList.lookup_erase_ne differs] at inside
      rcases called with old | ⟨own,_⟩
      · exact gone id old e inside
      · exact absurd own differs

-- Induction on the outputs: each is new to its request.
theorem Lines.slowPath (lines : Lines ext outputs faulted s) (sound : s.Sound) (gone : Gone s.cancelReqIds s)
    (runs : ∀ o ∈ rest, ¬FinishedIn outputs o.requestId) (distinct : (rest.map RequestStepOutput.requestId).Nodup)
    (result : s.slowPath ext rest = .ok s') : Lines ext (outputs++rest) faulted s' ∧ Gone s'.cancelReqIds s' := by
  induction rest generalizing s outputs with
  | nil =>
    cases result
    rw [List.append_nil]
    exact ⟨lines,gone⟩
  | cons o rest ih =>
    cases one : s.passOutput ext o with
    | error panic => rw [CompletionLoop.slowPath,one] at result; cases result
    | ok s₁ =>
      rw [CompletionLoop.slowPath,one] at result
      obtain ⟨fresh,distinct'⟩ := List.nodup_cons.mp distinct
      have step := sends_of one
      have runs' : ∀ p ∈ rest, ¬FinishedIn (outputs++[o]) p.requestId := fun p member => by
        have differs : p.requestId ≠ o.requestId := fun same => fresh (same ▸ List.mem_map_of_mem member)
        rw [finishedIn_other differs]
        exact runs p (List.mem_cons_of_mem o member)
      have later := ih (lines.sends sound (runs o List.mem_cons_self) step) ((passed_of one).sound sound) (gone.sends step) runs' distinct' result
      rwa [List.append_assoc,List.singleton_append] at later

end Slow

section Exceptions

-- A request goes to the exception context: as it is when its client has gone,
-- after a refusal when the engine gave it up.
inductive Withdrawn (faulted : List RequestId) (s : CompletionLoop) (id : RequestId) : CompletionLoop → Prop where
  | abort (entry : Entry) (phases : Table RequestId RequestPhase) (skipped : List RequestId) : s.entries.lookup id = some entry →
      entry.responseTx.reads ≠ none →
      Withdrawn faulted s id {s with entries := s.entries.erase id,requestPhases := phases,skippedFaultEntries := skipped,
                                     exceptContext := ⟨s.exceptContext.entries.insert id entry,
                                       s.exceptContext.states++[⟨id,.waitingTerm false⟩]⟩}
  | fault (entry : Entry) (phases : Table RequestId RequestPhase) : s.entries.lookup id = some entry → id ∈ faulted →
      Withdrawn faulted s id {s with entries := s.entries.erase id,requestPhases := phases,
                                     exceptContext := ⟨s.exceptContext.entries.insert id
                                       {entry with responseTx := (entry.responseTx.send Message.refused).1},
                                       s.exceptContext.states++[⟨id,.faulted true⟩]⟩}

theorem withdrawn_abort (gone : ∀ entry, s.entries.lookup id = some entry → entry.responseTx.reads ≠ none)
    (result : s.abortEntry id = .ok s') : Withdrawn faulted s id s' := by
  obtain ⟨entry,phases,found,_,rfl⟩ := abortEntry_cases result
  exact .abort entry phases _ found (gone entry found)

theorem withdrawn_fault (noticed : id ∈ faulted) (result : s.faultEntry id = .ok s') : s' = s ∨ Withdrawn faulted s id s' := by
  rcases faultEntry_cases result with same | ⟨entry,phases,failed,found,_,rfl,rfl⟩
  · exact .inl same
  · exact .inr (.fault entry phases found noticed)

-- A withdrawal takes its request from `entries` and no other.
theorem Withdrawn.shrinks (step : Withdrawn faulted s id s') {key : RequestId} (inside : s'.entries.lookup key = some entry) :
    key ≠ id ∧ s.entries.lookup key = some entry := by
  have erased : (s.entries.erase id).lookup key = some entry := by
    cases step <;> exact inside
  have differs : key ≠ id := by
    intro same
    rw [same,AList.lookup_erase] at erased
    cases erased
  rw [AList.lookup_erase_ne differs] at erased
  exact ⟨differs,erased⟩

-- What every withdrawal keeps, all of them keep.
theorem abortEntries_withdrawn {P : CompletionLoop → Prop} (base : P s) (gone : Gone ids s)
    (keep : ∀ s id s', P s → Withdrawn faulted s id s' → P s') (result : s.abortEntries ids = .ok s') : P s' := by
  refine (abortEntries_steps (P := fun s => P s ∧ Gone ids s) ⟨base,gone⟩ ?_ result).1
  intro s id s' member before one
  have step : Withdrawn faulted s id s' := withdrawn_abort (before.2 id member) one
  refine ⟨keep s id s' before.1 step,?_⟩
  intro key among e inside
  exact before.2 key among e (step.shrinks inside).2

theorem onBackendFault_withdrawn {P : CompletionLoop → Prop} (base : P s) (noticed : ∀ id ∈ errors, id ∈ faulted)
    (keep : ∀ s id s', P s → Withdrawn faulted s id s' → P s') (result : s.onBackendFault errors = .ok s') : P s' := by
  refine onBackendFault_steps base ?_ result
  intro s id s' member before one
  rcases withdrawn_fault (noticed id member) one with rfl | step
  · exact before
  · exact keep s id s' before step

theorem Lines.withdrawn (lines : Lines ext outputs faulted s) (step : Withdrawn faulted s id s') : Lines ext outputs faulted s' := by
  have upholds := lines_iff.mp lines
  cases step with
  | abort entry phases skipped found gone =>
    exact lines_iff.mpr (upholds.withdraw ((lines.entries id entry found).abort gone))
  | fault entry phases found noticed =>
    exact lines_iff.mpr (upholds.withdraw ((lines.entries id entry found).refuse noticed))

theorem Withdrawn.tracked (step : Withdrawn faulted s id s') (key : RequestId) (inside : (s.find key).isSome = true) :
    (s'.find key).isSome = true := by
  by_cases same : key = id
  · subst same
    cases step <;> simp [find]
  · cases step <;> simpa only [find,AList.lookup_erase_ne same,AList.lookup_insert_ne same] using inside

-- No request is withdrawn and ready to be dropped in one iteration.
theorem Withdrawn.ready (step : Withdrawn faulted s id s') {key : RequestId} {st : ExtStInner}
    (found : s'.exceptContext.states.dlookup key = some st) (ready : st.isDropReady = true) :
    s.exceptContext.states.dlookup key = some st := by
  have entered : ∀ fresh : ExtStInner, fresh.isDropReady = false →
      List.dlookup key (s.exceptContext.states++[⟨id,fresh⟩]) = some st → s.exceptContext.states.dlookup key = some st := by
    intro fresh live found
    rw [List.dlookup_append] at found
    cases record : s.exceptContext.states.dlookup key with
    | some old => rwa [record] at found
    | none =>
      rw [record,Option.none_or] at found
      cases List.mem_singleton.mp (List.of_mem_dlookup found)
      rw [live] at ready
      cases ready
  cases step with
  | abort entry phases skipped _ _ => exact entered (.waitingTerm false) rfl found
  | fault entry phases _ _ => exact entered (.faulted true) rfl found

-- The withdrawals of an iteration, one after the other.
structure Withdrawing (ext : External) (outputs : List RequestStepOutput) (faulted : List RequestId) (s s' : CompletionLoop) : Prop where
  lines : Lines ext outputs faulted s'
  tracked : ∀ key, (s.find key).isSome = true → (s'.find key).isSome = true
  ready : ∀ key st, s'.exceptContext.states.dlookup key = some st → st.isDropReady = true →
    s.exceptContext.states.dlookup key = some st

theorem Withdrawing.step {s₁ s₂ : CompletionLoop} (before : Withdrawing ext outputs faulted s s₁) (step : Withdrawn faulted s₁ id s₂) :
    Withdrawing ext outputs faulted s s₂ :=
  ⟨before.lines.withdrawn step,fun key inside => step.tracked key (before.tracked key inside),
    fun key st found ready => before.ready key st (step.ready found ready) ready⟩

theorem Lines.withdrawing (lines : Lines ext outputs faulted s) (gone : Gone s.cancelReqIds s) (noticed : ∀ id ∈ errors, id ∈ faulted)
    {s₁ : CompletionLoop} (aborted : s.onFrontendAbort = .ok s₁) (failed : s₁.onBackendFault errors = .ok s') :
    Withdrawing ext outputs faulted s s' := by
  have start : Withdrawing ext outputs faulted s {s with cancelReqIds := []} :=
    ⟨⟨lines.entries,lines.except,lines.leaving,lines.released⟩,fun _ inside => inside,fun _ _ found _ => found⟩
  have called : Gone s.cancelReqIds {s with cancelReqIds := []} := gone
  have aborts : Withdrawing ext outputs faulted s s₁ :=
    abortEntries_withdrawn start called (fun _ _ _ before step => before.step step) aborted
  exact onBackendFault_withdrawn aborts noticed (fun _ _ _ before step => before.step step) failed

end Exceptions

section Leave
variable {left : List Entry} {m : EngineStepOutput}

theorem Termed.tracked {returned : List Entry} (step : Termed s id s' returned) (key : RequestId) (inside : (s.find key).isSome = true) :
    (s'.find key).isSome = true ∨ key = id := by
  cases step with
  | mk st record =>
    by_cases same : key = id
    · exact .inr same
    · exact .inl (by simpa only [find,AList.lookup_erase_ne same] using inside)

theorem Termed.ready {returned : List Entry} (step : Termed s id s' returned) (sound : s.Sound) {key : RequestId} {st : ExtStInner}
    (found : s'.exceptContext.states.dlookup key = some st) : s.exceptContext.states.dlookup key = some st := by
  cases step with
  | mk old record =>
    by_cases same : key = id
    · rw [same,List.dlookup_kerase id sound.except.single] at found
      cases found
    · rwa [List.dlookup_kerase_ne same] at found

-- All acknowledgements of an iteration.
structure Acknowledging (ext : External) (outputs : List RequestStepOutput) (faulted acked : List RequestId) (s s' : CompletionLoop) :
    Prop where
  lines : Lines ext outputs faulted s'
  tracked : ∀ key, (s.find key).isSome = true → (s'.find key).isSome = true ∨ key ∈ acked
  ready : ∀ key st, s'.exceptContext.states.dlookup key = some st → s.exceptContext.states.dlookup key = some st

theorem Lines.acknowledging (lines : Lines ext outputs faulted s) (sound : s.Sound) (result : s.terms ids = .ok (s',left)) :
    Acknowledging ext outputs faulted ids s s' := by
  have all := sound.terms_induct (P := fun rest t => (∀ id ∈ rest, id ∈ ids) ∧ Acknowledging ext outputs faulted ids s t)
    ⟨fun _ member => member,lines,fun _ inside => .inl inside,fun _ _ found => found⟩
    (fun t id rest t' returned sound before step => by
      obtain ⟨among,acks⟩ := before
      have termed := (lines_iff.mp acks.lines).termed (promised_lasting ext outputs faulted) sound step
      refine ⟨fun key member => among key (List.mem_cons_of_mem id member),lines_iff.mpr termed,fun key inside => ?_,
        fun key st found => acks.ready key st (step.ready sound found)⟩
      rcases acks.tracked key inside with there | acked
      · refine (step.tracked key there).imp_right fun same => ?_
        rw [same]
        exact among id List.mem_cons_self
      · exact .inr acked) result
  exact all.2

-- Who is lost from sight in the sweep was ready to be dropped.
theorem Sound.dropFaulted_ready (sound : s.Sound) (result : s.dropFaulted = .ok (s',left)) :
    ∀ key, (s.find key).isSome = true → (s'.find key).isSome = true ∨ key ∈ s.dropReady := by
  obtain ⟨ctx,dropped,filtered,_,drops⟩ := sound.except.filterDrop_spec
  simp only [CompletionLoop.dropFaulted,filtered] at result
  cases result
  intro key inside
  have kept := drops.kept key
  by_cases ready : ((s.exceptContext.states.dlookup key).map ExtStInner.isDropReady).getD false = true
  · cases record : s.exceptContext.states.dlookup key with
    | none => rw [record] at ready; cases ready
    | some st =>
      rw [record] at ready
      exact .inr (mem_dropReady record ready)
  · rw [if_neg ready] at kept
    refine .inl ?_
    simp only [find,kept] at inside ⊢
    exact inside

-- The second half of an iteration: the channels of all outputs are served, and a
-- request is lost from sight for three reasons.
theorem Lines.passGenerations (lines : Lines ext outputs faulted s) (sound : s.Sound) (cancel : s.cancelReqIds = [])
    (runs : ∀ o ∈ m.outputs, ¬FinishedIn outputs o.requestId) (distinct : (m.outputs.map RequestStepOutput.requestId).Nodup)
    (noticed : ∀ id ∈ errors, id ∈ faulted) (result : s.passGenerations ext m errors = .ok (s',left)) :
    Lines ext (outputs++m.outputs) faulted s' ∧ ∀ key, (s.find key).isSome = true →
      (s'.find key).isSome = true ∨ FinishedIn m.outputs key ∨ key ∈ m.abortedRequests ∨ key ∈ s.dropReady := by
  obtain ⟨s₁,s₂,s₃,s₄,s₅,terminated,dropped,slow,aborted,failed,ended,ends,rfl,rfl⟩ := passGenerations_phases result
  have passing := sound.passing slow
  have sound₂ := (passing.sound.uncancelled.onFrontendAbort_moving aborted).sound passing.sound.uncancelled
  have sound₃ := (sound₂.onBackendFault_moving failed).sound sound₂
  have sound₄ := (sound₃.terms_leaving ended).sound
  obtain ⟨lines₁,gone⟩ := lines.slowPath sound (fun id member => by rw [cancel] at member; cases member) runs distinct slow
  have withdrawing := lines₁.withdrawing gone noticed aborted failed
  have acknowledging := withdrawing.lines.acknowledging sound₃ ended
  have upholds₅ := (lines_iff.mp acknowledging.lines).dropFaulted (promised_lasting ext _ faulted) sound₄ ends
  have drops := sound₄.dropFaulted_ready ends
  refine ⟨lines_iff.mpr upholds₅.renew,fun key inside => ?_⟩
  by_cases finishing : FinishedIn m.outputs key
  · exact .inr (.inl finishing)
  have served : (s₁.find key).isSome = true := by
    unfold find at inside ⊢
    rw [Option.isSome_or,Bool.or_eq_true] at inside ⊢
    rw [passing.except]
    exact inside.imp_left fun there => (passing.tracked key).mpr ⟨there,finishing⟩
  rcases acknowledging.tracked key (withdrawing.tracked key served) with there | acked
  · rcases drops key there with stays | ready
    · exact .inl stays
    · obtain ⟨row,member,rfl⟩ := List.mem_map.mp ready
      obtain ⟨recorded,due⟩ := List.mem_filter.mp member
      have found := (List.mem_dlookup_iff sound₄.except.single).mpr recorded
      have old := withdrawing.ready row.1 row.2 (acknowledging.ready row.1 row.2 found) due
      rw [passing.except] at old
      exact .inr (.inr (.inr (mem_dropReady old due)))
  · exact .inr (.inr (.inl acked))

end Leave

section Drain

theorem Sound.known_of_find (sound : s.Sound) (inside : (s.find id).isSome = true) : s.Known id := by
  unfold find at inside
  rw [Option.isSome_or,Bool.or_eq_true] at inside
  rcases inside with there | excepted
  · exact .inl there
  · obtain ⟨st,record,_⟩ := (sound.except.held id).mp (Option.isSome_iff_exists.mp excepted)
    exact .inr (by rw [record]; rfl)


-- An entry that no output has named yet, with an empty channel.
structure Untouched (outputs : List RequestStepOutput) (entry : Entry) : Prop where
  silent : entry.responseTx.sent = []
  unnamed : ∀ o ∈ outputs, o.requestId ≠ entry.request.requestId

theorem Untouched.streaming (untouched : Untouched outputs entry) : Streaming ext outputs entry.request.requestId entry.responseTx := by
  refine ⟨?_,fun _ => ?_,fun ⟨o,member,_,named⟩ => untouched.unnamed o member named⟩
  · rw [ResponseTx.Open,untouched.silent]
    exact running_nil
  · rw [tokensFor_unnamed untouched.unnamed,ResponseTx.tokens,untouched.silent]
    rfl

theorem Lines.drain {posted : List Entry} (lines : Lines ext outputs faulted s) (fresh : ∀ entry ∈ posted, Untouched outputs entry) :
    Lines ext outputs faulted (s.drain posted) :=
  lines_iff.mpr ((lines_iff.mp lines).drain fun entry member => (fresh entry member).streaming)

end Drain
end BlitzRouter.CompletionLoop
