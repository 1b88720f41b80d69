import BlitzRouter.CompletionBlocks

namespace BlitzRouter.CompletionLoop

section Pass
variable {ext : External} {s s' : CompletionLoop} {o : RequestStepOutput} {entry new : Entry} {id : RequestId}

@[simp] theorem onPrefill_account (tokens : List TokenId) : (onPrefill ext entry tokens).1.account = entry.account := by
  unfold onPrefill
  simp only
  split <;> rfl

@[simp] theorem onDecode_account (tokens : List TokenId) : (onDecode ext entry tokens).1.account = entry.account := rfl

@[simp] theorem onFinishRequest_account : (onFinishRequest entry).account = entry.account := rfl

-- The phase of the named request moves, if it has one; no other does.
structure Advanced (s : CompletionLoop) (o : RequestStepOutput) (phases : Table RequestId RequestPhase) : Prop where
  others : ∀ key, key ≠ o.requestId → phases.lookup key = s.requestPhases.lookup key
  own : ∀ next, phases.lookup o.requestId = some next ↔
    ∃ phase, s.requestPhases.lookup o.requestId = some phase ∧ phase.transition o.requestId o.state = .ok next
  moves : ∀ phase, s.requestPhases.lookup o.requestId = some phase → ∃ next, phase.transition o.requestId o.state = .ok next

-- Everything one output can do in the slow path.
inductive Passed (s : CompletionLoop) (o : RequestStepOutput) : CompletionLoop → Prop where
  | unknown (phases : Table RequestId RequestPhase) : s.entries.lookup o.requestId = none → Advanced s o phases →
      Passed s o {s with requestPhases := phases}
  | update (entry new : Entry) (phases : Table RequestId RequestPhase) (cancel : List RequestId) :
      s.entries.lookup o.requestId = some entry → o.isFinished = false → new.account = entry.account →
      cancel = s.cancelReqIds ∨ cancel = o.requestId::s.cancelReqIds → Advanced s o phases →
      Passed s o {s with requestPhases := phases,entries := s.entries.insert o.requestId new,cancelReqIds := cancel}
  | finish (entry new : Entry) (phases : Table RequestId RequestPhase) (cancel : List RequestId) :
      s.entries.lookup o.requestId = some entry → o.isFinished = true → new.account = entry.account →
      (o.requestId ∉ s.cancelReqIds → cancel = s.cancelReqIds) → Advanced s o phases →
      Passed s o {s with requestPhases := phases.erase o.requestId,entries := s.entries.erase o.requestId,released := s.released++[new],
                         cancelReqIds := cancel}

theorem advancePhase_cases (result : s.advancePhase o = .ok s') :
    ∃ phases, s' = {s with requestPhases := phases} ∧ Advanced s o phases := by
  unfold advancePhase at result
  split at result
  · rename_i absent
    cases result
    exact ⟨s.requestPhases,rfl,fun _ _ => rfl,by simp [absent],by simp [absent]⟩
  · rename_i phase found
    cases moved : phase.transition o.requestId o.state with
    | error panic => rw [moved] at result; cases result
    | ok next =>
      rw [moved] at result
      cases result
      exact ⟨_,rfl,fun key differs => AList.lookup_insert_ne differs,by simp [found,moved],by simp [found,moved]⟩

theorem delivered_passed {phases : Table RequestId RequestPhase} {outcome : Entry × Bool}
    (found : s.entries.lookup o.requestId = some entry) (account : outcome.1.account = entry.account)
    (advanced : Advanced s o phases) : Passed s o ({s with requestPhases := phases}.delivered o outcome) := by
  unfold delivered
  cases ends : o.isFinished with
  | false =>
    rw [if_neg Bool.false_ne_true]
    refine .update entry outcome.1 phases _ found ends account ?_ advanced
    split
    · exact .inl rfl
    · exact .inr rfl
  | true =>
    rw [if_pos rfl]
    refine .finish entry (onFinishRequest outcome.1) _ _ found ends ((onFinishRequest_account).trans account) ?_ advanced
    intro fresh
    cases outcome.2 with
    | false => simp
    | true =>
      simp only [if_true]
      rw [if_neg]
      intro top
      exact fresh (List.mem_of_mem_head? top)

-- The request of an output is not served here, or its messages are sent, by the
-- state that the output reports.
theorem passOutput_cases (result : s.passOutput ext o = .ok s') : ∃ phases, Advanced s o phases ∧
    (s.entries.lookup o.requestId = none ∧ s' = {s with requestPhases := phases} ∨
      ∃ entry outcome, s.entries.lookup o.requestId = some entry ∧
        (outcome = onPrefill ext entry o.newTokenIds ∨ outcome = onDecode ext entry o.newTokenIds) ∧
        s' = {s with requestPhases := phases}.delivered o outcome) := by
  unfold passOutput at result
  cases advanced : s.advancePhase o with
  | error panic => rw [advanced] at result; cases result
  | ok s₁ =>
    obtain ⟨phases,rfl,moved⟩ := advancePhase_cases advanced
    rw [advanced] at result
    simp only [bind,Except.bind] at result
    refine ⟨phases,moved,?_⟩
    split at result
    · split at result
      · rename_i entry found
        cases result
        exact .inr ⟨entry,_,found,.inl rfl,rfl⟩
      · rename_i absent
        cases result
        exact .inl ⟨absent,rfl⟩
    · split at result
      · rename_i entry found
        cases result
        exact .inr ⟨entry,_,found,.inr rfl,rfl⟩
      · rename_i absent
        cases result
        exact .inl ⟨absent,rfl⟩
    · cases result

theorem passed_of (result : s.passOutput ext o = .ok s') : Passed s o s' := by
  obtain ⟨phases,moved,⟨absent,rfl⟩ | ⟨entry,outcome,found,served,rfl⟩⟩ := passOutput_cases result
  · exact .unknown phases absent moved
  · rcases served with rfl | rfl
    · exact delivered_passed found (onPrefill_account _) moved
    · exact delivered_passed found (onDecode_account _) moved

-- A finished output of the slow path removes what the books wrote off before.
theorem Passed.balance (step : Passed s o s') {w : Account → Int} {settled : List RequestId}
    (written : o.isFinished = true → o.requestId ∈ settled) : balance w settled s' = CompletionLoop.balance w settled s := by
  cases step with
  | unknown phases absent => rfl
  | update entry new phases cancel found goes account =>
    have same := Ledger.total_insert_same (standing w settled) new found (by simp only [standing,account])
    simp only [CompletionLoop.balance,same]
  | finish entry new phases cancel found ends account =>
    have paid := Ledger.total_erase (standing w settled) found
    simp only [standing,if_pos (written ends)] at paid
    simp only [CompletionLoop.balance]
    change Ledger.total (standing w settled) s.entries = 0+Ledger.total (standing w settled) (s.entries.erase o.requestId) at paid
    omega

theorem Passed.conserved (step : Passed s o s') {w : Account → Int} :
    CompletionLoop.balance w [] s'+gone w s' = CompletionLoop.balance w [] s+gone w s := by
  cases step with
  | unknown phases absent => rfl
  | update entry new phases cancel found goes account =>
    have same := Ledger.total_insert_same (standing w []) new found (by simp only [standing,account])
    simp only [CompletionLoop.balance,same,gone]
  | finish entry new phases cancel found ends account =>
    have paid := Ledger.total_erase (standing w []) found
    simp only [standing,List.not_mem_nil,if_false] at paid
    simp only [CompletionLoop.balance,gone,List.map_append,List.map_cons,List.map_nil,List.sum_append,List.sum_cons,
      List.sum_nil,account]
    change Ledger.total (standing w []) s.entries = w entry.account+Ledger.total (standing w []) (s.entries.erase o.requestId) at paid
    omega

theorem Passed.sound (step : Passed s o s') (sound : s.Sound) : s'.Sound := by
  cases step with
  | unknown phases absent => exact ⟨sound.except,sound.apart,sound.keyed,sound.keyedExcept⟩
  | update entry new phases cancel found goes account =>
    refine ⟨sound.except,?_,?_,sound.keyedExcept⟩
    · intro key e inside
      by_cases same : key = o.requestId
      · subst same; exact sound.apart _ entry found
      · exact sound.apart key e (by simpa [AList.lookup_insert_ne same] using inside)
    · intro key e inside
      by_cases same : key = o.requestId
      · subst same
        simp only [AList.lookup_insert,Option.some.injEq] at inside
        subst inside
        exact (congrArg (fun a : Account => a.request.requestId) account).trans (sound.keyed _ entry found)
      · exact sound.keyed key e (by simpa [AList.lookup_insert_ne same] using inside)
  | finish entry new phases cancel found ends account =>
    refine ⟨sound.except,?_,?_,sound.keyedExcept⟩
    · intro key e inside
      by_cases same : key = o.requestId
      · subst same; simp at inside
      · exact sound.apart key e (by simpa [AList.lookup_erase_ne same] using inside)
    · intro key e inside
      by_cases same : key = o.requestId
      · subst same; simp at inside
      · exact sound.keyed key e (by simpa [AList.lookup_erase_ne same] using inside)

theorem Passed.tracked (step : Passed s o s') (id : RequestId) :
    (s'.entries.lookup id).isSome = true ↔
      (s.entries.lookup id).isSome = true ∧ ¬(o.isFinished = true ∧ o.requestId = id) := by
  cases step with
  | unknown phases absent =>
    constructor
    · intro inside
      refine ⟨inside,?_⟩
      rintro ⟨_,rfl⟩
      rw [absent] at inside
      cases inside
    · exact fun both => both.1
  | update entry new phases cancel found goes account =>
    by_cases same : id = o.requestId
    · subst same; simp [found,goes]
    · simp [AList.lookup_insert_ne same,goes]
  | finish entry new phases cancel found ends account =>
    by_cases same : id = o.requestId
    · subst same; simp [ends]
    · simp [AList.lookup_erase_ne same,Ne.symm same]

theorem Passed.frame (step : Passed s o s') : s'.exceptContext = s.exceptContext ∧
    s'.tempLeavingEntries = s.tempLeavingEntries ∧ s'.skippedFaultEntries = s.skippedFaultEntries := by
  cases step <;> exact ⟨rfl,rfl,rfl⟩

-- Requests whose client has gone: each is named once and still has its entry.
def Cancelling (s : CompletionLoop) : Prop :=
  s.cancelReqIds.Nodup ∧ ∀ id ∈ s.cancelReqIds, (s.entries.lookup id).isSome = true

theorem Passed.cancelling (step : Passed s o s') (cancelling : s.Cancelling) (fresh : o.requestId ∉ s.cancelReqIds) :
    s'.Cancelling ∧ ∀ id ∈ s'.cancelReqIds, id ∈ s.cancelReqIds ∨ id = o.requestId := by
  have tracked := step.tracked
  cases step with
  | unknown phases absent => exact ⟨cancelling,fun id member => .inl member⟩
  | update entry new phases cancel found goes account choice =>
    have old : ∀ id ∈ s.cancelReqIds, ((s.entries.insert o.requestId new).lookup id).isSome = true := fun id member =>
      (tracked id).mpr ⟨cancelling.2 id member,by simp [goes]⟩
    rcases choice with rfl | rfl
    · exact ⟨⟨cancelling.1,old⟩,fun id member => .inl member⟩
    · refine ⟨⟨List.nodup_cons.mpr ⟨fresh,cancelling.1⟩,?_⟩,?_⟩
      · intro id member
        rcases List.mem_cons.mp member with rfl | member
        · simp
        · exact old id member
      · intro id member
        exact (List.mem_cons.mp member).symm
  | finish entry new phases cancel found ends account same =>
    obtain rfl := same fresh
    refine ⟨⟨cancelling.1,?_⟩,fun id member => .inl member⟩
    intro id member
    refine (tracked id).mpr ⟨cancelling.2 id member,?_⟩
    rintro ⟨_,rfl⟩
    exact fresh member

end Pass

-- What each output keeps, all of them keep.
theorem slowPath_steps {P : CompletionLoop → Prop} {ext : External} {s s' : CompletionLoop}
    {outputs : List RequestStepOutput} (base : P s) (keep : ∀ s o s', o ∈ outputs → P s → s.passOutput ext o = .ok s' → P s')
    (result : s.slowPath ext outputs = .ok s') : P s' := by
  induction outputs generalizing s with
  | nil => cases result; exact base
  | cons o rest ih =>
    cases one : s.passOutput ext o with
    | error panic => rw [slowPath,one] at result; cases result
    | ok s₁ =>
      rw [slowPath,one] at result
      exact ih (keep s o s₁ List.mem_cons_self base one) (fun s p s' member => keep s p s' (List.mem_cons_of_mem o member)) result

theorem slowPath_induct {P : CompletionLoop → Prop} {ext : External} {s s' : CompletionLoop}
    {outputs : List RequestStepOutput} (base : P s) (keep : ∀ s o s', o ∈ outputs → P s → Passed s o s' → P s')
    (result : s.slowPath ext outputs = .ok s') : P s' :=
  slowPath_steps base (fun s o s' member before one => keep s o s' member before (passed_of one)) result

-- The slow path as a whole.
structure Passing (outputs : List RequestStepOutput) (s s' : CompletionLoop) : Prop where
  balance : ∀ (w : Account → Int) (settled : List RequestId), (∀ o ∈ outputs, o.isFinished = true → o.requestId ∈ settled) →
    balance w settled s' = CompletionLoop.balance w settled s
  conserved : ∀ w : Account → Int, CompletionLoop.balance w [] s'+gone w s' = CompletionLoop.balance w [] s+gone w s
  sound : s'.Sound
  tracked : ∀ id, (s'.entries.lookup id).isSome = true ↔
    (s.entries.lookup id).isSome = true ∧ ¬∃ o ∈ outputs, o.isFinished = true ∧ o.requestId = id
  except : s'.exceptContext = s.exceptContext
  leaving : s'.tempLeavingEntries = s.tempLeavingEntries
  skipped : s'.skippedFaultEntries = s.skippedFaultEntries

theorem Sound.passing {ext : External} {s s' : CompletionLoop} {outputs : List RequestStepOutput} (sound : s.Sound)
    (result : s.slowPath ext outputs = .ok s') : Passing outputs s s' := by
  induction outputs generalizing s with
  | nil =>
    cases result
    exact ⟨fun _ _ _ => rfl,fun _ => rfl,sound,fun _ => by simp,rfl,rfl,rfl⟩
  | cons o rest ih =>
    cases one : s.passOutput ext o with
    | error panic => rw [slowPath,one] at result; cases result
    | ok s₁ =>
      have first := passed_of one
      rw [slowPath,one] at result
      have later := ih (first.sound sound) result
      obtain ⟨except,leaving,skipped⟩ := first.frame
      refine ⟨?_,?_,later.sound,?_,later.except.trans except,later.leaving.trans leaving,later.skipped.trans skipped⟩
      · intro w settled written
        rw [later.balance w settled fun p member => written p (List.mem_cons_of_mem o member)]
        exact first.balance (written o List.mem_cons_self)
      · exact fun w => (later.conserved w).trans first.conserved
      · intro id
        rw [later.tracked id,first.tracked id]
        simp only [List.mem_cons,exists_eq_or_imp,not_or]
        exact and_assoc

theorem cancelling_slowPath {ext : External} {s s' : CompletionLoop} {outputs : List RequestStepOutput}
    (cancelling : s.Cancelling) (distinct : (outputs.map RequestStepOutput.requestId).Nodup)
    (fresh : ∀ o ∈ outputs, o.requestId ∉ s.cancelReqIds) (result : s.slowPath ext outputs = .ok s') : s'.Cancelling := by
  induction outputs generalizing s with
  | nil => cases result; exact cancelling
  | cons o rest ih =>
    cases one : s.passOutput ext o with
    | error panic => rw [slowPath,one] at result; cases result
    | ok s₁ =>
      have first := passed_of one
      rw [slowPath,one] at result
      obtain ⟨unique,distinct'⟩ := List.nodup_cons.mp distinct
      obtain ⟨cancelling₁,new⟩ := first.cancelling cancelling (fresh o List.mem_cons_self)
      refine ih cancelling₁ distinct' ?_ result
      intro p member held
      rcases new p.requestId held with old | same
      · exact fresh p (List.mem_cons_of_mem o member) old
      · exact unique (same ▸ List.mem_map_of_mem member)

end BlitzRouter.CompletionLoop
