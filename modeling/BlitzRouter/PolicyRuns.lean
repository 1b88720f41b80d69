import BlitzRouter.PolicyRunner

namespace BlitzRouter.QueueTask
variable {ω γ : Type} {schedule : Schedule ω γ} {q q' : QueueTask γ}

-- What a call to `schedule` does to the queue task when it does not panic.
inductive Scheduled (schedule : Schedule ω γ) : QueueTask γ → QueueTask γ → Prop where
  | decline {q : QueueTask γ} {view : ω} {front : Queued} {rest : List Queued} {atomics : Atomics} {gctx : γ} :
      q.uncommitBuffer = front::rest → schedule view q.gctx front.entry = .ok (none,atomics,gctx) →
      Scheduled schedule q {q with gctx := gctx,uncommitBuffer := {front with entry := front.entry.store atomics}::rest}
  | commit {q q' : QueueTask γ} {view : ω} {front : Queued} {rest : List Queued} {replicaIdx : Nat} {atomics : Atomics} {gctx : γ} :
      q.uncommitBuffer = front::rest → schedule view q.gctx front.entry = .ok (some replicaIdx,atomics,gctx) →
      QueueTask.commit {q with gctx := gctx} {front with entry := front.entry.store atomics} rest replicaIdx = .ok q' →
      Scheduled schedule q q'

abbrev Scheduling (schedule : Schedule ω γ) : QueueTask γ → QueueTask γ → Prop := Relation.ReflTransGen (Scheduled schedule)

theorem commit_eq {front : Queued} {rest : List Queued} {replicaIdx : Nat} (result : commit q front rest replicaIdx = .ok q') :
    ∃ buffer, q.allCommitReqBuffers[replicaIdx]? = some buffer ∧ q' = {q with
      uncommitBuffer := rest
      allCommitReqBuffers := q.allCommitReqBuffers.set replicaIdx (buffer++[(front.entry.request.requestId,front)])
      log := {q.log with commits := q.log.commits++[(replicaIdx,front.arrival)]}} := by
  unfold commit at result
  cases found : q.allCommitReqBuffers[replicaIdx]? with
  | none => simp [found] at result
  | some buffer =>
    rw [found] at result
    exact ⟨buffer,rfl,(Except.ok.inj result).symm⟩

theorem scheduleFront_scheduling {view : ω} {flag : Bool} (result : scheduleFront schedule view q = .ok (q',flag)) :
    Scheduling schedule q q' ∧ (flag = true → q'.uncommitBuffer.length+1 = q.uncommitBuffer.length) := by
  unfold scheduleFront at result
  cases waiting : q.uncommitBuffer with
  | nil =>
    simp only [waiting,Except.ok.injEq,Prod.mk.injEq] at result
    obtain ⟨rfl,rfl⟩ := result
    exact ⟨.refl,nofun⟩
  | cons front rest =>
    simp only [waiting] at result
    cases called : schedule view q.gctx front.entry with
    | error panic => simp [called] at result
    | ok outcome =>
      obtain ⟨choice,atomics,gctx⟩ := outcome
      cases choice with
      | none =>
        simp only [called,Except.ok.injEq,Prod.mk.injEq] at result
        obtain ⟨rfl,rfl⟩ := result
        exact ⟨.single (.decline waiting called),nofun⟩
      | some replicaIdx =>
        simp only [called] at result
        rw [← waiting] at result
        cases placed : commit {q with gctx := gctx} {front with entry := front.entry.store atomics} rest replicaIdx with
        | error panic => simp [placed,bind,Except.bind] at result
        | ok next =>
          simp only [placed,bind,Except.bind,Except.ok.injEq,Prod.mk.injEq] at result
          obtain ⟨rfl,rfl⟩ := result
          refine ⟨.single (.commit waiting called placed),fun _ => ?_⟩
          obtain ⟨buffer,_,rfl⟩ := commit_eq placed
          rfl

theorem ineligible_scheduling {replicaIdx rounds : Nat} {views : Nat → ω} (result : ineligible schedule replicaIdx rounds views q = some (.ok q')) :
    Scheduling schedule q q' := by
  induction rounds generalizing q views with
  | zero =>
    unfold ineligible at result
    split at result
    · simp at result
    · cases result
      exact .refl
    · simp at result
  | succ rounds ih =>
    unfold ineligible at result
    split at result
    · simp at result
    · cases result
      exact .refl
    · simp only at result
      cases round : q.scheduleFront schedule (views 0) with
      | error panic => simp [round] at result
      | ok outcome =>
        obtain ⟨next,flag⟩ := outcome
        have moved := (scheduleFront_scheduling round).1
        cases flag with
        | false =>
          simp only [round,Option.some.injEq,Except.ok.injEq] at result
          exact result ▸ moved
        | true =>
          simp only [round] at result
          exact moved.trans (ih result)

-- Every round but the last takes the front off the uncommitted buffer.
theorem ineligible_ends (replicaIdx rounds : Nat) (views : Nat → ω) (enough : q.uncommitBuffer.length < rounds) :
    ∃ outcome, ineligible schedule replicaIdx rounds views q = some outcome := by
  induction rounds generalizing q views with
  | zero => omega
  | succ rounds ih =>
    unfold ineligible
    split
    · exact ⟨_,rfl⟩
    · exact ⟨_,rfl⟩
    · simp only
      cases round : q.scheduleFront schedule (views 0) with
      | error panic => exact ⟨_,rfl⟩
      | ok outcome =>
        obtain ⟨next,flag⟩ := outcome
        cases flag with
        | false => exact ⟨_,rfl⟩
        | true =>
          have shorter := (scheduleFront_scheduling round).2 rfl
          exact ih _ (by omega)

theorem answer_eq {replicaIdx : Nat} (result : q.answer replicaIdx = .ok q') :
    (q.allCommitReqBuffers[replicaIdx]? = some [] ∧ q' = {q with log := {q.log with answers := q.log.answers++[(replicaIdx,none)]}}) ∨
      ∃ first rest, q.allCommitReqBuffers[replicaIdx]? = some (first::rest) ∧ q' = {q with
        allCommitReqBuffers := q.allCommitReqBuffers.set replicaIdx rest
        log := {q.log with answers := q.log.answers++[(replicaIdx,some first)]}} := by
  unfold answer at result
  cases found : q.allCommitReqBuffers[replicaIdx]? with
  | none => simp [found] at result
  | some buffer =>
    cases buffer with
    | nil =>
      simp only [found,Except.ok.injEq] at result
      exact .inl ⟨rfl,result.symm⟩
    | cons first rest =>
      simp only [found,Except.ok.injEq] at result
      exact .inr ⟨first,rest,rfl,result.symm⟩

-- A handled command appends before it schedules, or schedules before it answers.
theorem step_cases {a : PolicyCommand × (Nat → ω)} (step : Step schedule q a q') :
    (∃ entry, a.1 = .append entry ∧ Scheduling schedule (q.pushBack entry) q') ∨
      ∃ replicaIdx middle, a.1 = .nextRequest replicaIdx ∧ Scheduling schedule q middle ∧ middle.answer replicaIdx = .ok q' := by
  obtain ⟨command,views⟩ := a
  obtain ⟨rounds,handled⟩ := step
  cases command with
  | append entry =>
    refine .inl ⟨entry,rfl,?_⟩
    simp only [handle,Option.some.injEq] at handled
    cases round : scheduleFront schedule (views 0) (q.pushBack entry) with
    | error panic => simp [round,Except.map] at handled
    | ok outcome =>
      simp only [round,Except.map,Except.ok.injEq] at handled
      exact handled ▸ (scheduleFront_scheduling round).1
  | nextRequest replicaIdx =>
    obtain ⟨result,looped,answered⟩ := Option.map_eq_some_iff.mp handled
    cases result with
    | error panic => simp [Except.bind] at answered
    | ok middle => exact .inr ⟨replicaIdx,middle,rfl,ineligible_scheduling looped,answered⟩

theorem scheduling_invariant {I : QueueTask γ → Prop} (moves : Scheduling schedule q q') (base : I q)
    (keep : ∀ q q', I q → Scheduled schedule q q' → I q') : I q' := by
  induction moves with
  | refl => exact base
  | tail _ move ih => exact keep _ _ ih move

end BlitzRouter.QueueTask
