import BlitzRouter.PhaseTracking

namespace BlitzRouter
open Radix

-- Phase maps that answer alike.
def Same (p q : Table RequestId RequestPhase) : Prop := ∀ id, p.lookup id = q.lookup id

section Same
variable {p q : Table RequestId RequestPhase} {id : RequestId} {phase : RequestPhase}

theorem Same.insert (same : Same p q) : Same (p.insert id phase) (q.insert id phase) := by
  intro key
  by_cases equal : key = id
  · subst equal; simp
  · simp only [AList.lookup_insert_ne equal,same key]

theorem Same.erase (same : Same p q) : Same (p.erase id) (q.erase id) := by
  intro key
  by_cases equal : key = id
  · subst equal; simp
  · simp only [AList.lookup_erase_ne equal,same key]

theorem Same.erases (same : Same p q) (rows : List (RequestId × Entry)) :
    Same (rows.foldl (fun phases row => phases.erase row.1) p) (rows.foldl (fun phases row => phases.erase row.1) q) := by
  induction rows generalizing p q with
  | nil => exact same
  | cons row rest ih => exact ih same.erase

theorem same_insert_self (held : p.lookup id = some phase) : Same (p.insert id phase) p := by
  intro key
  by_cases equal : key = id
  · subst equal; simp [held]
  · simp only [AList.lookup_insert_ne equal]

end Same

namespace CompletionLoop

-- Two states of the loop that differ in the order of the phase map at most.
def Alike (s t : CompletionLoop) : Prop := ∃ p, Same p s.requestPhases ∧ t = {s with requestPhases := p}

section Alike
variable {ext : External} {s s' t : CompletionLoop} {o : RequestStepOutput} {id : RequestId} {ids errors : List RequestId}
  {left : List Entry} {phase : RequestPhase}

theorem Alike.refl (s : CompletionLoop) : Alike s s := ⟨s.requestPhases,fun _ => rfl,rfl⟩

theorem advancePhase_alike (alike : Alike s t) (result : s.advancePhase o = .ok s') :
    ∃ t', t.advancePhase o = .ok t' ∧ Alike s' t' := by
  obtain ⟨p,same,rfl⟩ := alike
  unfold advancePhase at result ⊢
  simp only [same o.requestId]
  cases found : s.requestPhases.lookup o.requestId with
  | none =>
    rw [found] at result
    cases result
    exact ⟨_,rfl,p,same,rfl⟩
  | some phase =>
    simp only [found] at result ⊢
    cases moved : phase.transition o.requestId o.state with
    | error panic => rw [moved] at result; cases result
    | ok next =>
      rw [moved] at result
      cases result
      exact ⟨_,rfl,_,same.insert,rfl⟩

theorem delivered_alike {outcome : Entry × Bool} (alike : Alike s t) : Alike (s.delivered o outcome) (t.delivered o outcome) := by
  obtain ⟨p,same,rfl⟩ := alike
  unfold delivered
  cases o.isFinished with
  | true => exact ⟨_,same.erase,rfl⟩
  | false => exact ⟨_,same,rfl⟩

theorem passOutput_alike (alike : Alike s t) (result : s.passOutput ext o = .ok s') :
    ∃ t', t.passOutput ext o = .ok t' ∧ Alike s' t' := by
  unfold passOutput at result ⊢
  cases advanced : s.advancePhase o with
  | error panic => rw [advanced] at result; cases result
  | ok s₁ =>
    obtain ⟨t₁,advanced',alike₁⟩ := advancePhase_alike alike advanced
    rw [advanced] at result
    rw [advanced']
    have entries : t₁.entries = s₁.entries := by obtain ⟨p,_,rfl⟩ := alike₁; rfl
    simp only [bind,Except.bind] at result ⊢
    rw [entries]
    cases state : o.state with
    | prefill =>
      simp only [state] at result ⊢
      cases found : s₁.entries.lookup o.requestId with
      | none =>
        simp only [found] at result ⊢
        cases result
        exact ⟨t₁,rfl,alike₁⟩
      | some entry =>
        simp only [found] at result ⊢
        cases result
        exact ⟨_,rfl,delivered_alike alike₁⟩
    | decode =>
      simp only [state] at result ⊢
      cases found : s₁.entries.lookup o.requestId with
      | none =>
        simp only [found] at result ⊢
        cases result
        exact ⟨t₁,rfl,alike₁⟩
      | some entry =>
        simp only [found] at result ⊢
        cases result
        exact ⟨_,rfl,delivered_alike alike₁⟩
    | other text => simp only [state] at result; cases result

theorem markExcepted_alike (id : RequestId) (alike : Alike s t) : Alike (s.markExcepted id) (t.markExcepted id) := by
  obtain ⟨p,same,rfl⟩ := alike
  unfold markExcepted
  rw [same id]
  split
  · exact ⟨_,same.insert,rfl⟩
  · exact ⟨p,same,rfl⟩

theorem abortEntry_alike (alike : Alike s t) (result : s.abortEntry id = .ok s') : ∃ t', t.abortEntry id = .ok t' ∧ Alike s' t' := by
  obtain ⟨p,same,rfl⟩ := alike
  unfold abortEntry at result ⊢
  cases found : s.entries.lookup id with
  | none => simp only [found] at result; cases result
  | some entry =>
    simp only [found] at result ⊢
    obtain ⟨q,same',marked⟩ := markExcepted_alike id
      (s := {s with skippedFaultEntries := s.skippedFaultEntries++[id],entries := s.entries.erase id}) ⟨p,same,rfl⟩
    cases result
    rw [marked]
    exact ⟨_,rfl,q,same',rfl⟩

theorem faultEntry_alike (alike : Alike s t) (result : s.faultEntry id = .ok s') : ∃ t', t.faultEntry id = .ok t' ∧ Alike s' t' := by
  obtain ⟨p,same,rfl⟩ := alike
  unfold faultEntry at result ⊢
  by_cases skipped : id ∈ s.skippedFaultEntries
  · rw [if_pos skipped] at result ⊢
    cases result
    exact ⟨_,rfl,p,same,rfl⟩
  · rw [if_neg skipped] at result ⊢
    cases found : s.entries.lookup id with
    | none => simp only [found] at result; cases result
    | some entry =>
      simp only [found] at result ⊢
      obtain ⟨q,same',marked⟩ := markExcepted_alike id (s := {s with entries := s.entries.erase id}) ⟨p,same,rfl⟩
      cases result
      rw [marked]
      exact ⟨_,rfl,q,same',rfl⟩

theorem abortEntries_alike (alike : Alike s t) (result : s.abortEntries ids = .ok s') :
    ∃ t', t.abortEntries ids = .ok t' ∧ Alike s' t' := by
  induction ids generalizing s t with
  | nil => cases result; exact ⟨t,rfl,alike⟩
  | cons id rest ih =>
    rw [abortEntries] at result ⊢
    cases one : s.abortEntry id with
    | error panic => rw [one] at result; cases result
    | ok s₁ =>
      obtain ⟨t₁,one',alike₁⟩ := abortEntry_alike alike one
      rw [one] at result
      rw [one']
      exact ih alike₁ result

theorem onFrontendAbort_alike (alike : Alike s t) (result : s.onFrontendAbort = .ok s') :
    ∃ t', t.onFrontendAbort = .ok t' ∧ Alike s' t' := by
  obtain ⟨p,same,rfl⟩ := alike
  unfold onFrontendAbort at result ⊢
  exact abortEntries_alike (s := {s with cancelReqIds := []}) ⟨p,same,rfl⟩ result

theorem onBackendFault_alike (alike : Alike s t) (result : s.onBackendFault errors = .ok s') :
    ∃ t', t.onBackendFault errors = .ok t' ∧ Alike s' t' := by
  induction errors generalizing s t with
  | nil => cases result; exact ⟨t,rfl,alike⟩
  | cons id rest ih =>
    rw [onBackendFault] at result ⊢
    cases one : s.faultEntry id with
    | error panic => rw [one] at result; cases result
    | ok s₁ =>
      obtain ⟨t₁,one',alike₁⟩ := faultEntry_alike alike one
      rw [one] at result
      rw [one']
      exact ih alike₁ result

theorem terms_alike (alike : Alike s t) (result : s.terms ids = .ok (s',left)) :
    ∃ t', t.terms ids = .ok (t',left) ∧ Alike s' t' := by
  induction ids generalizing s s' t left with
  | nil => cases result; exact ⟨t,rfl,alike⟩
  | cons id rest ih =>
    obtain ⟨p,same,rfl⟩ := alike
    rw [terms] at result ⊢
    simp only at result ⊢
    cases put : s.exceptContext.put (.term id) with
    | error panic => simp only [put] at result; cases result
    | ok pair =>
      obtain ⟨ctx,returned⟩ := pair
      simp only [put,bind,Except.bind] at result ⊢
      cases returned with
      | none =>
        simp only at result ⊢
        exact ih ⟨_,same.erase,rfl⟩ result
      | some entry =>
        simp only at result ⊢
        cases later : terms {s with requestPhases := s.requestPhases.erase id,exceptContext := ctx,
                                    released := s.released++[entry]} rest with
        | error panic => simp only [later] at result; cases result
        | ok pair =>
          obtain ⟨s₂,left₁⟩ := pair
          obtain ⟨t₂,later',alike₂⟩ := ih (t := {s with requestPhases := p.erase id,exceptContext := ctx,
                                                          released := s.released++[entry]}) ⟨_,same.erase,rfl⟩ later
          simp only [later] at result
          simp only [later']
          cases result
          exact ⟨t₂,rfl,alike₂⟩

theorem dropFaulted_alike (alike : Alike s t) (result : s.dropFaulted = .ok (s',left)) :
    ∃ t', t.dropFaulted = .ok (t',left) ∧ Alike s' t' := by
  obtain ⟨p,same,rfl⟩ := alike
  unfold dropFaulted at result ⊢
  simp only at result ⊢
  cases filtered : s.exceptContext.filterDrop with
  | error panic => simp only [filtered] at result; cases result
  | ok pair =>
    obtain ⟨ctx,dropped⟩ := pair
    simp only [filtered,bind,Except.bind] at result ⊢
    cases result
    exact ⟨_,rfl,_,same.erases dropped,rfl⟩

end Alike

-- The step without what it says about requests that the loop does not track.
def onlyTracked (s : CompletionLoop) (m : EngineStepOutput) : EngineStepOutput :=
  {m with outputs := m.outputs.filter fun o => (s.find o.requestId).isSome,
          curUsedBlockIds := m.curUsedBlockIds.filter fun report => (s.find report.1).isSome,
          newBlockHashesIds := m.newBlockHashesIds.filter fun report => (s.find report.1).isSome}

-- What a step may say about them: it finishes only those that have left the
-- exception context and are not acknowledged yet, and its reports list no blocks.
structure Harmless (s : CompletionLoop) (m : EngineStepOutput) : Prop where
  finished : ∀ o ∈ m.outputs, s.find o.requestId = none → o.isFinished = true →
    (s.exceptContext.states.dlookup o.requestId).isSome = true
  curUsed : ∀ report ∈ m.curUsedBlockIds, s.find report.1 = none → report.2 = []
  newBlocks : ∀ report ∈ m.newBlockHashesIds, s.find report.1 = none → report.2 = []

section Stale
variable {ext : External} {s s' s₀ : CompletionLoop} {d d' : LMetricDec} {o : RequestStepOutput} {m : EngineStepOutput}
  {outputs : List RequestStepOutput}

-- An output of an untracked request: nothing happens, or the loop stops at a
-- request it has no record of.
theorem Sound.meterOutput_stale (sound : s.Sound) (absent : s.find o.requestId = none)
    (state : o.state = .prefill ∨ o.state = .decode) :
    ((o.isFinished = true → (s.exceptContext.states.dlookup o.requestId).isSome = true) ∧ s.meterOutput ext d o = .ok (s,d)) ∨
      (o.isFinished = true ∧ s.exceptContext.states.dlookup o.requestId = none) ∧
        s.meterOutput ext d o = .error (.exitNotCaptured o.requestId) := by
  have kept : s.entries.lookup o.requestId = none := by
    unfold find at absent
    exact (Option.or_eq_none_iff.mp absent).1
  have held : s.exceptContext.entries.lookup o.requestId = none := by
    unfold find at absent
    exact (Option.or_eq_none_iff.mp absent).2
  have stays : ∀ owed : Entry → Int, (s.exceptContext.states.dlookup o.requestId).isSome = true →
      s.finished d o.requestId owed = .ok (s,d) := by
    intro owed record
    obtain ⟨st,record⟩ := Option.isSome_iff_exists.mp record
    cases result : s.finished d o.requestId owed with
    | error panic =>
      unfold finished at result
      simp only [kept,(sound.except.exit_spec record).1,held] at result
      cases result
    | ok pair =>
      obtain ⟨s₁,d₁⟩ := pair
      rcases sound.finished_cases result with ⟨_,rfl,rfl⟩ | ⟨entry,found,_⟩ | ⟨entry,_,_,found,_⟩
      · rfl
      · rw [kept] at found; cases found
      · rw [held] at found; cases found
  have stops : ∀ owed : Entry → Int, s.exceptContext.states.dlookup o.requestId = none →
      s.finished d o.requestId owed = .error (.exitNotCaptured o.requestId) := by
    intro owed record
    unfold finished
    have stopped : s.exceptContext.put (.exit o.requestId) = .error (.exitNotCaptured o.requestId) := by
      simp [ExtContext.put,record]
    simp only [kept,stopped]
    rfl
  unfold meterOutput
  cases ends : o.isFinished with
  | false =>
    refine .inl ⟨fun wrong => (by cases wrong),?_⟩
    rcases state with state | state
    · simp [state,absent,prefillUpdate]
    · simp [state,absent,decodeUpdate]
  | true =>
    cases record : s.exceptContext.states.dlookup o.requestId with
    | some st =>
      refine .inl ⟨fun _ => rfl,?_⟩
      rcases state with state | state
      · simp [state,absent,prefillFinished,stays _ (by rw [record]; rfl)]
      · simp [state,decodeFinished,stays _ (by rw [record]; rfl)]
    | none =>
      refine .inr ⟨⟨rfl,rfl⟩,?_⟩
      rcases state with state | state
      · simp [state,absent,prefillFinished,stops _ record]
      · simp [state,decodeFinished,stops _ record]

-- The state that decides who is tracked is the one before the outputs.
structure Since (s₀ s : CompletionLoop) : Prop where
  sound : s.Sound
  tracked : ∀ id, (s.find id).isSome = true → (s₀.find id).isSome = true
  recorded : ∀ id, (s.exceptContext.states.dlookup id).isSome = (s₀.exceptContext.states.dlookup id).isSome

theorem Since.absent {id : RequestId} (since : Since s₀ s) (absent : s₀.find id = none) : s.find id = none := by
  cases found : s.find id with
  | none => rfl
  | some entry =>
    have tracked := since.tracked id (by rw [found]; rfl)
    rw [absent] at tracked
    cases tracked

theorem Since.metered (since : Since s₀ s) (step : Metered s d o s' d') : Since s₀ s' :=
  ⟨step.sound since.sound,fun id inside => since.tracked id (step.tracked inside),
    fun id => (step.kept.recorded id).trans (since.recorded id)⟩

-- Induction on the outputs: leaving the stale ones out changes nothing, and
-- going through them is possible just when none of them finishes without a record.
theorem Since.meterOutputs_iff (since : Since s₀ s)
    (states : ∀ o ∈ outputs, s₀.find o.requestId = none → o.state = .prefill ∨ o.state = .decode)
    (passed : s.meterOutputs ext d (outputs.filter fun o => (s₀.find o.requestId).isSome) = .ok (s',d')) :
    s.meterOutputs ext d outputs = .ok (s',d') ∧ (∀ o ∈ outputs, s₀.find o.requestId = none → o.isFinished = true →
        (s₀.exceptContext.states.dlookup o.requestId).isSome = true) ∨
      (∃ panic, s.meterOutputs ext d outputs = .error panic) ∧ ∃ o ∈ outputs, s₀.find o.requestId = none ∧
        o.isFinished = true ∧ s₀.exceptContext.states.dlookup o.requestId = none := by
  induction outputs generalizing s d with
  | nil => exact .inl ⟨passed,by simp⟩
  | cons o rest ih =>
    have states' := fun p member => states p (List.mem_cons_of_mem o member)
    cases found : s₀.find o.requestId with
    | some entry =>
      rw [List.filter_cons_of_pos (by rw [found]; rfl)] at passed
      cases one : s.meterOutput ext d o with
      | error panic => rw [meterOutputs,one] at passed; cases passed
      | ok pair =>
        obtain ⟨s₁,d₁⟩ := pair
        rw [meterOutputs,one] at passed
        have next : s.meterOutputs ext d (o::rest) = s₁.meterOutputs ext d₁ rest := by rw [meterOutputs,one]; rfl
        rw [next]
        rcases ih (since.metered (since.sound.metered one)) states' passed with ⟨result,records⟩ | ⟨panics,p,member,stale⟩
        · refine .inl ⟨result,?_⟩
          intro p member absent
          rcases List.mem_cons.mp member with rfl | behind
          · rw [found] at absent; cases absent
          · exact records p behind absent
        · exact .inr ⟨panics,p,List.mem_cons_of_mem o member,stale⟩
    | none =>
      rw [List.filter_cons_of_neg (by rw [found]; simp)] at passed
      rcases since.sound.meterOutput_stale (d := d) (since.absent found) (states o List.mem_cons_self found) with
        ⟨record,one⟩ | ⟨⟨ends,record⟩,one⟩
      · have next : s.meterOutputs ext d (o::rest) = s.meterOutputs ext d rest := by rw [meterOutputs,one]; rfl
        rw [next]
        rcases ih since states' passed with ⟨result,records⟩ | ⟨panics,p,member,stale⟩
        · refine .inl ⟨result,?_⟩
          intro p member absent ends
          rcases List.mem_cons.mp member with rfl | behind
          · exact since.recorded _ ▸ record ends
          · exact records p behind absent ends
        · exact .inr ⟨panics,p,List.mem_cons_of_mem o member,stale⟩
      · refine .inr ⟨⟨.exitNotCaptured o.requestId,by rw [meterOutputs,one]; rfl⟩,o,List.mem_cons_self,found,ends,?_⟩
        have same := since.recorded o.requestId
        rw [record] at same
        simpa using same.symm

end Stale

section Reports
variable {β : Type} [BlockHash β] {ext : External} {s s' s₀ : CompletionLoop} {d : LMetricDec} {m : EngineStepOutput}
  {blockHash blockHash' : β} {reports : List (RequestId × List BlockId)}

-- Block reports do not find the requests that were untracked before the step.
def Blind (s₀ s : CompletionLoop) : Prop := ∀ rid, s₀.find rid = none → s.findBlocks rid = none

theorem blind_of (tracked : ∀ id, (s.find id).isSome = true → (s₀.find id).isSome = true)
    (leaving : ∀ row ∈ s.tempLeavingEntries, (s₀.find row.1).isSome = true) : Blind s₀ s := by
  intro rid absent
  unfold findBlocks
  refine Option.or_eq_none_iff.mpr ⟨?_,?_⟩
  · cases found : s.find rid with
    | none => rfl
    | some entry =>
      have inside := tracked rid (by rw [found]; rfl)
      rw [absent] at inside
      cases inside
  · rw [Option.map_eq_none_iff,List.find?_eq_none]
    intro row member same
    have inside := leaving row member
    rw [beq_iff_eq.mp same,absent] at inside
    cases inside

theorem Blind.carries (blind : Blind s₀ s) (carries : Carries s s') : Blind s₀ s' := by
  intro rid absent
  obtain ⟨outside,rows⟩ := Option.or_eq_none_iff.mp (blind rid absent)
  unfold findBlocks
  refine Option.or_eq_none_iff.mpr ⟨?_,?_⟩
  · have same := carries.found rid
    rw [outside,Option.map_none] at same
    exact Option.map_eq_none_iff.mp same
  · have keys : s'.tempLeavingEntries.map Prod.fst = s.tempLeavingEntries.map Prod.fst := by
      have same := congrArg (List.map Prod.fst) carries.leaving
      simpa only [List.map_map,Function.comp_def] using same
    rw [Option.map_eq_none_iff,List.find?_eq_none] at rows ⊢
    intro row member same
    have inside : row.1 ∈ s.tempLeavingEntries.map Prod.fst := keys ▸ List.mem_map_of_mem member
    obtain ⟨row',member',equal⟩ := List.mem_map.mp inside
    exact rows row' member' (by rwa [equal])

-- A report of a request that is known, or without blocks, decides nothing.
theorem one_more_report {ε γ : Type} {outcome : Except ε γ} {done : γ} {rid : RequestId} {bids : List BlockId}
    {rest : List (RequestId × List BlockId)} (quiet : s₀.find rid = none → bids = [])
    (later : outcome = .ok done ∧ (∀ report ∈ rest, s₀.find report.1 = none → report.2 = []) ∨
      (∃ panic, outcome = .error panic) ∧ ∃ report ∈ rest, s₀.find report.1 = none ∧ report.2 ≠ []) :
    outcome = .ok done ∧ (∀ report ∈ (rid,bids)::rest, s₀.find report.1 = none → report.2 = []) ∨
      (∃ panic, outcome = .error panic) ∧ ∃ report ∈ (rid,bids)::rest, s₀.find report.1 = none ∧ report.2 ≠ [] := by
  refine later.imp ?_ ?_
  · rintro ⟨result,empty⟩
    exact ⟨result,List.forall_mem_cons.mpr ⟨quiet,empty⟩⟩
  · rintro ⟨panics,report,member,stale⟩
    exact ⟨panics,report,List.mem_cons_of_mem _ member,stale⟩

theorem Blind.setCurUsed_iff (blind : Blind s₀ s)
    (passed : s.setCurUsed (reports.filter fun report => (s₀.find report.1).isSome) = .ok s') :
    s.setCurUsed reports = .ok s' ∧ (∀ report ∈ reports, s₀.find report.1 = none → report.2 = []) ∨
      (∃ panic, s.setCurUsed reports = .error panic) ∧ ∃ report ∈ reports, s₀.find report.1 = none ∧ report.2 ≠ [] := by
  induction reports generalizing s with
  | nil => exact .inl ⟨passed,by simp⟩
  | cons report rest ih =>
    obtain ⟨rid,bids⟩ := report
    cases found : s₀.find rid with
    | none =>
      rw [List.filter_cons_of_neg (by simp [found])] at passed
      cases bids with
      | nil =>
        have skipped : s.setCurUsed ((rid,[])::rest) = s.setCurUsed rest := by simp [setCurUsed]
        rw [skipped]
        exact one_more_report (fun _ => rfl) (ih blind passed)
      | cons bid bids =>
        refine .inr ⟨⟨.blocksNotTracked rid,?_⟩,(rid,bid::bids),List.mem_cons_self,found,List.cons_ne_nil _ _⟩
        rw [setCurUsed,if_neg (by simp),blind rid found]
    | some entry =>
      rw [List.filter_cons_of_pos (by simp [found])] at passed
      have tracked : s₀.find rid = none → bids = [] := fun absent => by rw [found] at absent; cases absent
      rw [setCurUsed] at passed
      split at passed
      · rename_i empty
        rw [setCurUsed,if_pos empty]
        exact one_more_report tracked (ih blind passed)
      · rename_i filled
        cases inside : s.findBlocks rid with
        | none => simp only [inside] at passed; cases passed
        | some held =>
          simp only [inside] at passed
          cases set : held.blockHashState.setBids bids with
          | none => simp only [set] at passed; cases passed
          | some state =>
            simp only [set] at passed
            obtain ⟨_,synced,equal⟩ := BlockHashState.setBids_eq set
            simp only [setCurUsed,if_neg filled,inside,set]
            exact one_more_report tracked (ih (blind.carries (carries_storeBlocks inside (account_blocks synced bids equal))) passed)

theorem Blind.insertNewBlocks_iff (blind : Blind s₀ s)
    (passed : s.insertNewBlocks blockHash (reports.filter fun report => (s₀.find report.1).isSome) = .ok (s',blockHash')) :
    s.insertNewBlocks blockHash reports = .ok (s',blockHash') ∧
        (∀ report ∈ reports, s₀.find report.1 = none → report.2 = []) ∨
      (∃ panic, s.insertNewBlocks blockHash reports = .error panic) ∧
        ∃ report ∈ reports, s₀.find report.1 = none ∧ report.2 ≠ [] := by
  induction reports generalizing s blockHash with
  | nil => exact .inl ⟨passed,by simp⟩
  | cons report rest ih =>
    obtain ⟨rid,bids⟩ := report
    cases found : s₀.find rid with
    | none =>
      rw [List.filter_cons_of_neg (by simp [found])] at passed
      cases bids with
      | nil =>
        have skipped : s.insertNewBlocks blockHash ((rid,[])::rest) = s.insertNewBlocks blockHash rest := by simp [insertNewBlocks]
        rw [skipped]
        exact one_more_report (fun _ => rfl) (ih blind passed)
      | cons bid bids =>
        refine .inr ⟨⟨.blocksNotTracked rid,?_⟩,(rid,bid::bids),List.mem_cons_self,found,List.cons_ne_nil _ _⟩
        rw [insertNewBlocks,if_neg (by simp),blind rid found]
    | some entry =>
      rw [List.filter_cons_of_pos (by simp [found])] at passed
      have tracked : s₀.find rid = none → bids = [] := fun absent => by rw [found] at absent; cases absent
      rw [insertNewBlocks] at passed
      split at passed
      · rename_i empty
        rw [insertNewBlocks,if_pos empty]
        exact one_more_report tracked (ih blind passed)
      · rename_i filled
        cases inside : s.findBlocks rid with
        | none => simp only [inside] at passed; cases passed
        | some held =>
          simp only [inside] at passed
          cases onto : held.blockHashState.getOntoHashes bids with
          | none => simp only [onto] at passed; cases passed
          | some outcome =>
            cases outcome with
            | error bad => simp only [onto] at passed; cases passed
            | ok pair =>
              obtain ⟨state,hashes⟩ := pair
              simp only [onto] at passed
              cases inserted : BlockHash.insert blockHash hashes bids with
              | none => simp only [inserted] at passed; cases passed
              | some pair =>
                obtain ⟨seen,count⟩ := pair
                simp only [inserted] at passed
                obtain ⟨_,_,_,equal⟩ := BlockHashState.getOntoHashes_found onto
                have carried := carries_storeBlocks inside (account_blocks _ held.blockHashState.blockIndices equal)
                simp only [insertNewBlocks,if_neg filled,inside,onto,inserted]
                exact one_more_report tracked (ih (blind.carries carried) passed)

-- The first half of the iteration, with and without the stale parts.
theorem Sound.meter_iff {context context' : ScheduleContext β} (sound : s₀.Sound) (leaving : s₀.tempLeavingEntries = [])
    (states : ∀ o ∈ m.outputs, s₀.find o.requestId = none → o.state = .prefill ∨ o.state = .decode)
    (passed : s₀.meter ext context (s₀.onlyTracked m) = .ok (s',context')) :
    s₀.meter ext context m = .ok (s',context') ↔ s₀.Harmless m := by
  obtain ⟨s₁,d,fast,cache,lmetric⟩ := meter_phases passed
  have since : Since s₀ s₀ := ⟨sound,fun _ => id,fun _ => rfl⟩
  have start : startDelta (s₀.onlyTracked m) = startDelta m := rfl
  have fast' : s₀.meterOutputs ext (startDelta m) (m.outputs.filter fun o => (s₀.find o.requestId).isSome) = .ok (s₁,d) := fast
  have blind : Blind s₀ s₁ := by
    have keep : ∀ (t : CompletionLoop) (d : LMetricDec) (o : RequestStepOutput) (t' : CompletionLoop) (d' : LMetricDec),
        (Since s₀ t ∧ ∀ row ∈ t.tempLeavingEntries, (s₀.find row.1).isSome = true) → Metered t d o t' d' →
        Since s₀ t' ∧ ∀ row ∈ t'.tempLeavingEntries, (s₀.find row.1).isSome = true := by
      intro t d o t' d' before step
      refine ⟨before.1.metered step,?_⟩
      cases step with
      | unknown absent => exact before.2
      | update entry new found goes account => rw [store_leaving]; exact before.2
      | finish entry kept ends => exact before.2
      | exit entry st absent held record ends =>
        intro row member
        rcases List.mem_append.mp member with old | new
        · exact before.2 row old
        · rw [List.mem_singleton.mp new]
          exact before.1.tracked _ (by rw [find_except absent,held]; rfl)
    obtain ⟨_,since₁,rows⟩ := sound.meterOutputs_induct
      (P := fun t => Since s₀ t ∧ ∀ row ∈ t.tempLeavingEntries, (s₀.find row.1).isSome = true)
      ⟨since,fun row member => by rw [leaving] at member; cases member⟩ (fun t d o t' d' _ _ before step => keep t d o t' d' before step)
      fast'
    exact blind_of since₁.tracked rows
  have split : s₀.meter ext context m = .ok (s',context') ↔
      ∃ t d', s₀.fastPath ext m = .ok (t,d') ∧ t.cacheUpdate context.blockHash m = .ok (s',context'.blockHash) ∧
        context'.lmetric = context.lmetric.subAssign d' := by
    constructor
    · exact meter_phases
    · rintro ⟨t,d',one,two,three⟩
      unfold meter
      simp only [bind,Except.bind,one,two,← three]
  have removed : ∃ seen used, BlockHash.remove context.blockHash m.evictedBlockIds = some seen ∧
      s₁.setCurUsed (m.curUsedBlockIds.filter fun report => (s₀.find report.1).isSome) = .ok used ∧
      used.insertNewBlocks seen (m.newBlockHashesIds.filter fun report => (s₀.find report.1).isSome) =
        .ok (s',context'.blockHash) := by
    unfold cacheUpdate onlyTracked at cache
    simp only at cache
    cases gone : BlockHash.remove context.blockHash m.evictedBlockIds with
    | none => simp only [gone] at cache; cases cache
    | some seen =>
      simp only [gone] at cache
      cases used : s₁.setCurUsed (m.curUsedBlockIds.filter fun report => (s₀.find report.1).isSome) with
      | error panic => rw [used] at cache; cases cache
      | ok t => rw [used] at cache; exact ⟨seen,t,rfl,rfl,cache⟩
  obtain ⟨seen,used,gone,set,inserted⟩ := removed
  have blind' : Blind s₀ used := blind.carries (carries_setCurUsed set)
  have whole : ∀ t : CompletionLoop, t.cacheUpdate context.blockHash m =
      (t.setCurUsed m.curUsedBlockIds).bind fun t => t.insertNewBlocks seen m.newBlockHashesIds := by
    intro t
    unfold cacheUpdate
    rw [gone]
    rfl
  rw [split]
  constructor
  · rintro ⟨t,d',one,two,_⟩
    rcases since.meterOutputs_iff states fast' with ⟨result,records⟩ | ⟨⟨panic,result⟩,_⟩
    · have same : (t,d') = (s₁,d) := Except.ok.inj (one.symm.trans result)
      cases same
      rw [whole] at two
      rcases blind.setCurUsed_iff set with ⟨result',empty⟩ | ⟨⟨panic,result'⟩,_⟩
      · rw [result'] at two
        rcases blind'.insertNewBlocks_iff inserted with ⟨_,empty'⟩ | ⟨⟨panic,result''⟩,_⟩
        · exact ⟨records,empty,empty'⟩
        · simp only [Except.bind,result''] at two
          cases two
      · rw [result'] at two
        cases two
    · rw [fastPath,result] at one
      cases one
  · intro harmless
    refine ⟨s₁,d,?_,?_,lmetric⟩
    · rcases since.meterOutputs_iff states fast' with ⟨result,_⟩ | ⟨_,o,member,absent,ends,record⟩
      · exact result
      · have recorded := harmless.finished o member absent ends
        rw [record] at recorded
        cases recorded
    · rw [whole]
      rcases blind.setCurUsed_iff set with ⟨result,_⟩ | ⟨_,report,member,absent,filled⟩
      · rw [result]
        rcases blind'.insertNewBlocks_iff inserted with ⟨result',_⟩ | ⟨_,report,member,absent,filled⟩
        · exact result'
        · exact absurd (harmless.newBlocks report member absent) filled
      · exact absurd (harmless.curUsed report member absent) filled

end Reports

section Pass
variable {ext : External} {s s' s₀ t : CompletionLoop} {o : RequestStepOutput} {m : EngineStepOutput}
  {outputs : List RequestStepOutput} {errors : List RequestId} {left : List Entry}

-- An output of an untracked request sets an Excepted phase to itself at most.
theorem Phased.passOutput_stale (ext : External) (phased : s.Phased) (absent : s.entries.lookup o.requestId = none)
    (state : o.state = .prefill ∨ o.state = .decode) : ∃ t, s.passOutput ext o = .ok t ∧ Alike s t := by
  have advanced : ∃ t, s.advancePhase o = .ok t ∧ Alike s t := by
    unfold advancePhase
    cases found : s.requestPhases.lookup o.requestId with
    | none => exact ⟨s,rfl,.refl s⟩
    | some phase =>
      obtain rfl := phased.excepted _ phase absent found
      exact ⟨_,rfl,_,same_insert_self found,rfl⟩
  obtain ⟨t,one,alike⟩ := advanced
  have outside : t.entries.lookup o.requestId = none := by obtain ⟨p,_,rfl⟩ := alike; exact absent
  refine ⟨t,?_,alike⟩
  unfold passOutput
  rw [one]
  rcases state with state | state <;> simp [state,outside,bind,Except.bind]

theorem Alike.trans {s₁ s₂ s₃ : CompletionLoop} (one : Alike s₁ s₂) (two : Alike s₂ s₃) : Alike s₁ s₃ := by
  obtain ⟨p,same,rfl⟩ := one
  obtain ⟨q,same',rfl⟩ := two
  exact ⟨q,fun id => (same' id).trans (same id),rfl⟩

theorem Alike.phased (alike : Alike s t) (phased : s.Phased) : t.Phased := by
  obtain ⟨p,same,rfl⟩ := alike
  constructor
  · intro id inside
    obtain ⟨phase,found,normal⟩ := phased.normal id inside
    exact ⟨phase,(same id).trans found,normal⟩
  · intro id phase absent found
    exact phased.excepted id phase absent ((same id).symm.trans found)

-- Induction on the outputs: the loop without the stale ones is followed by the
-- loop with them.
theorem Phased.slowPath_stale (phased : s.Phased) (alike : Alike s t)
    (outside : ∀ id, s₀.find id = none → s.entries.lookup id = none)
    (states : ∀ o ∈ outputs, s₀.find o.requestId = none → o.state = .prefill ∨ o.state = .decode)
    (passed : s.slowPath ext (outputs.filter fun o => (s₀.find o.requestId).isSome) = .ok s') :
    ∃ t', t.slowPath ext outputs = .ok t' ∧ Alike s' t' := by
  induction outputs generalizing s t with
  | nil => cases passed; exact ⟨t,rfl,alike⟩
  | cons o rest ih =>
    have states' := fun p member => states p (List.mem_cons_of_mem o member)
    cases found : s₀.find o.requestId with
    | some entry =>
      rw [List.filter_cons_of_pos (by rw [found]; rfl)] at passed
      cases one : s.passOutput ext o with
      | error panic => rw [slowPath,one] at passed; cases passed
      | ok s₁ =>
        obtain ⟨t₁,one',alike₁⟩ := passOutput_alike alike one
        rw [slowPath,one] at passed
        have step := passed_of one
        have outside' : ∀ id, s₀.find id = none → s₁.entries.lookup id = none := by
          intro id absent
          cases kept : s₁.entries.lookup id with
          | none => rfl
          | some entry =>
            have before := ((step.tracked id).mp (by rw [kept]; rfl)).1
            rw [outside id absent] at before
            cases before
        obtain ⟨t',later,alike'⟩ := ih (step.phased phased) alike₁ outside' states' passed
        exact ⟨t',by rw [slowPath,one']; exact later,alike'⟩
    | none =>
      rw [List.filter_cons_of_neg (by rw [found]; simp)] at passed
      have absent : t.entries.lookup o.requestId = none := by
        obtain ⟨p,_,rfl⟩ := alike
        exact outside _ found
      obtain ⟨t₁,one,alike₁⟩ := (alike.phased phased).passOutput_stale ext absent (states o List.mem_cons_self found)
      obtain ⟨t',later,alike'⟩ := ih phased (alike.trans alike₁) outside states' passed
      exact ⟨t',by rw [slowPath,one]; exact later,alike'⟩

-- The second half of the iteration, with and without the stale parts.
theorem Phased.passGenerations_stale (phased : s.Phased) (outside : ∀ id, s₀.find id = none → s.entries.lookup id = none)
    (states : ∀ o ∈ m.outputs, s₀.find o.requestId = none → o.state = .prefill ∨ o.state = .decode)
    (passed : s.passGenerations ext (s₀.onlyTracked m) errors = .ok (s',left)) :
    ∃ t', s.passGenerations ext m errors = .ok (t',left) ∧ Alike s' t' := by
  obtain ⟨s₁,s₂,s₃,s₄,s₅,terminated,dropped,slow,aborted,faulted,ended,ends,rfl,rfl⟩ := passGenerations_phases passed
  obtain ⟨t₁,slow',alike₁⟩ := phased.slowPath_stale (.refl s) outside states slow
  obtain ⟨t₂,aborted',alike₂⟩ := onFrontendAbort_alike alike₁ aborted
  obtain ⟨t₃,faulted',alike₃⟩ := onBackendFault_alike alike₂ faulted
  obtain ⟨t₄,ended',alike₄⟩ := terms_alike alike₃ ended
  obtain ⟨t₅,ends',p,same,rfl⟩ := dropFaulted_alike alike₄ ends
  have acknowledged : t₃.terms m.abortedRequests = .ok (t₄,terminated) := ended'
  refine ⟨_,?_,p,same,rfl⟩
  unfold passGenerations
  simp only [bind,Except.bind,slow',aborted',faulted',acknowledged,ends']
  rfl

end Pass
end CompletionLoop

namespace Replica
open CompletionLoop
variable {β : Type} [BlockHash β] {ext : External} {blockSize : Nat} {r r' : Replica β} {a : Action} {history : List Action}

-- What leaves with a step is released before the next one.
theorem leaving_run (context : ScheduleContext β) (run : Run (Step ext blockSize) (start context) history r)
    (fresh : (committedIn history).Nodup) : (∀ m, r.stage ≠ .metered m) → r.loop.tempLeavingEntries = [] := by
  induction run with
  | start => exact fun _ => rfl
  | next path taken ih =>
    rename_i past t r' a
    rw [committedIn_append] at fresh
    have before := (List.nodup_append.mp fresh).1
    have quiet := ih before
    have owned := (owned_start context).run path (by simpa using before)
    obtain ⟨enabled,result⟩ := taken
    cases a with
    | commit request reads cached =>
      obtain ⟨_,hits,entry,_,_,done⟩ := commit_cases result
      rw [done.result]
      exact quiet
    | addRequest => cases result; exact quiet
    | send => cases result; exact quiet
    | notify id => cases result; exact quiet
    | recvStep m =>
      cases result
      intro _
      exact owned.drained.leaving.trans (quiet fun m' same => by rw [enabled.1] at same; cases same)
    | meter =>
      obtain ⟨m,stage⟩ := enabled
      obtain ⟨loop,context,metered,rfl⟩ := perform_meter stage result
      exact fun other => absurd rfl (other m)
    | deliver =>
      obtain ⟨m,stage⟩ := enabled
      obtain ⟨loop,context,delivered,rfl⟩ := perform_deliver stage result
      obtain ⟨left,passed,_⟩ := deliver_cases delivered
      exact fun _ => (owned.sound.delivering passed).leaving

-- An iteration on a step, from the state after the drain: the first half, and the
-- second one with any notifications and on the counters as they are by then.
def SameWithout (ext : External) (s : CompletionLoop) (context : ScheduleContext β) (m : EngineStepOutput)
    (s₁ : CompletionLoop) (context₁ : ScheduleContext β) : Prop :=
  s.meter ext context m = .ok (s₁,context₁) ∧
    ∀ (errors : List RequestId) (context₂ context₃ : ScheduleContext β) (s₂ : CompletionLoop),
      s₁.deliver ext context₂ (s.onlyTracked m) errors = .ok (s₂,context₃) →
      ∃ t₂, s₁.deliver ext context₂ m errors = .ok (t₂,context₃) ∧ Alike s₂ t₂

-- Where the step passes without what it says about untracked requests, it passes
-- with it, to the same effect, if and only if it is harmless.
theorem stale_outputs_harmless_iff (context : ScheduleContext β) (run : Run (Step ext blockSize) (start context) history r)
    (fresh : (committedIn history).Nodup) {m : EngineStepOutput} (stage : r.stage = .received m)
    (states : ∀ o ∈ m.outputs, r.loop.find o.requestId = none → o.state = .prefill ∨ o.state = .decode)
    {s₁ : CompletionLoop} {context₁ : ScheduleContext β}
    (passed : r.loop.meter ext r.context (r.loop.onlyTracked m) = .ok (s₁,context₁)) :
    SameWithout ext r.loop r.context m s₁ context₁ ↔ r.loop.Harmless m := by
  have owned := (owned_start context).run run (by simpa using fresh)
  have leaving := leaving_run context run fresh fun m' other => by rw [stage] at other; cases other
  have metered := owned.sound.meter_iff leaving states passed
  refine ⟨fun same => metered.mp same.1,fun harmless => ⟨metered.mpr harmless,?_⟩⟩
  intro errors context₂ context₃ s₂ delivered
  obtain ⟨kept,_⟩ := owned.sound.meter_keeps passed
  have phased := kept.phased owned.phased
  have outside : ∀ id, r.loop.find id = none → s₁.entries.lookup id = none := by
    intro id absent
    have before : r.loop.entries.lookup id = none := (Option.or_eq_none_iff.mp absent).1
    have tracked := kept.tracked id
    rw [before] at tracked
    simpa using tracked
  obtain ⟨left,result,counted⟩ := deliver_cases delivered
  obtain ⟨t₂,result',alike⟩ := phased.passGenerations_stale outside states result
  refine ⟨t₂,?_,alike⟩
  unfold deliver
  rw [result',counted]
  rfl

end Replica

namespace Audit
open Replica CompletionLoop

-- A replica that never had a request receives a step about request 9.
def strayed (isFinished : Bool) : EngineStepOutput := plainStep 0 [plainOutput 9 .decode isFinished [5]] []

theorem run_strayed (isFinished : Bool) : Run (Replica.Step plainExternal 16) (Replica.start ⟨.empty,RadixTreeBlockHash.new 4⟩)
    [.recvStep (strayed isFinished)] {Replica.start ⟨.empty,RadixTreeBlockHash.new 4⟩ with stage := .received (strayed isFinished)} :=
  .next .start ⟨⟨rfl,rfl⟩,rfl⟩

theorem stale_outputs_harmless_decode : ∃ s₁ context₁,
    SameWithout plainExternal CompletionLoop.new (⟨.empty,RadixTreeBlockHash.new 4⟩ : ScheduleContext RadixTreeBlockHash)
      (strayed false) s₁ context₁ :=
  ⟨_,_,(stale_outputs_harmless_iff ⟨.empty,RadixTreeBlockHash.new 4⟩ (run_strayed false) (by decide) rfl (by decide) rfl).mpr
    ⟨by decide,by decide,by decide⟩⟩

-- It stops at a finished output: there is no record to note the exit in.
theorem stale_finish_stops :
    ¬∀ (history : List Action) (r : Replica RadixTreeBlockHash) (m : EngineStepOutput) (s₁ : CompletionLoop)
      (context₁ : ScheduleContext RadixTreeBlockHash),
      Run (Replica.Step plainExternal 16) (Replica.start ⟨.empty,RadixTreeBlockHash.new 4⟩) history r →
      (committedIn history).Nodup → r.stage = .received m →
      (∀ o ∈ m.outputs, r.loop.find o.requestId = none → o.state = .prefill ∨ o.state = .decode) →
      r.loop.meter plainExternal r.context (r.loop.onlyTracked m) = .ok (s₁,context₁) →
      SameWithout plainExternal r.loop r.context m s₁ context₁ := by
  intro claimed
  have same := claimed _ _ (strayed true) _ _ (run_strayed true) (by decide) rfl (by decide) rfl
  have stopped : CompletionLoop.meter plainExternal CompletionLoop.new (⟨.empty,RadixTreeBlockHash.new 4⟩ : ScheduleContext RadixTreeBlockHash)
      (strayed true) = .error (.exitNotCaptured 9) := rfl
  cases stopped.symm.trans same.1

end Audit
end BlitzRouter
