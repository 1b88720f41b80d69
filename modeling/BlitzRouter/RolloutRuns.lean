import BlitzRouter.RolloutLoop
import BlitzRouter.PredictorContext

namespace BlitzRouter
open Radix SchedSnapshot

structure Candidate where
  id : RequestId
  inputLength : Nat
  hashes : List Hash
  sctxPrefixHits : Nat

inductive PCtxCall where
  | query (candidate : Candidate)
  | onAdmit (requestId : RequestId) (inputLength : Nat) (hashes : List Hash)
  | onSse (batch : BatchForPredictor) (m : EngineStepOutput)

variable {ρ τ : Type} {trained : TrainedPredictor ρ τ} {p : PCtx ρ τ} {e : EphemeralRollout τ} {m : EngineStepOutput}

namespace PCtx
section Calls
variable [Zero τ] [Add τ]

def ask (trained : TrainedPredictor ρ τ) (p : PCtx ρ τ) (c : Candidate) : PCtx ρ τ × RolloutGist τ :=
  p.query trained c.id c.inputLength c.hashes c.sctxPrefixHits

def call (trained : TrainedPredictor ρ τ) (p : PCtx ρ τ) : PCtxCall → PCtx ρ τ
  | .query candidate => (p.ask trained candidate).1
  | .onAdmit requestId inputLength hashes => p.onAdmit requestId inputLength hashes
  | .onSse batch m => (p.onSse trained batch m).1

-- The state after a history of calls, one after another.
def after (trained : TrainedPredictor ρ τ) (start : PCtx ρ τ) (calls : List PCtxCall) : PCtx ρ τ := calls.foldl (call trained) start

end Calls

-- The candidate as the simulation queues it.
def entering (p : PCtx ρ τ) (c : Candidate) : ReqProgress :=
  candidateProgress p.limits c.id c.inputLength (max c.sctxPrefixHits (p.mirror.prefixMatch c.hashes))

end PCtx

-- What a cached rollout is taken to be when a step or a query meets it.
structure PCtx.NeverEmpty (p : PCtx ρ τ) : Prop where
  stocked : ∀ e, p.ephemeral = some e → ∃ s0 rest, e.buffer.slots = s0::rest ∧ s0.compositionKnown = true
  checked : ∀ e m, p.ephemeral = some e → ∃ drift, e.headCheck m = .known drift
  extended : ∀ e b anchor tail, p.ephemeral = some e → e.candidateId = none → e.recover = some (b,anchor,tail) → b.slots ≠ []

-- The calls that leave a slot behind: a rebuild from scratch has something to
-- schedule, and a step does not match the only slot of the cached rollout.
def PCtx.Feeding (p : PCtx ρ τ) : PCtxCall → Prop
  | .query c => p.ephemeral.bind EphemeralRollout.recover = none →
      p.sched.values ≠ [] ∨ (∃ r ∈ p.sched.waiting, r.isPrefilling = true) ∨ (p.entering c).isPrefilling = true
  | .onAdmit _ _ _ => True
  | .onSse _ m => ∀ e s0, p.ephemeral = some e → e.buffer.slots = [s0] → stepHasPrefill m = true → ridSetsMatch s0 m = false

-- What holds of a cached rollout whether or not it has slots.
structure EphemeralRollout.Sound (e : EphemeralRollout τ) : Prop where
  known : ∀ slot ∈ e.buffer.slots, slot.compositionKnown = true
  split : ∀ idx tail, e.savepoint = some (idx,tail) → 0 < idx ∧ idx ≤ e.buffer.slots.length

structure PCtx.Sound (p : PCtx ρ τ) : Prop where
  keyed : p.sched.Keyed
  cached : ∀ e, p.ephemeral = some e → e.Sound

namespace EphemeralRollout

theorem Sound.popHead (sound : e.Sound) (stepId : Nat) : (e.popHead stepId).Sound := by
  refine ⟨fun slot member => sound.known slot (List.mem_of_mem_tail member),fun idx tail kept => ?_⟩
  simp only [EphemeralRollout.popHead] at kept ⊢
  cases saved : e.savepoint with
  | none =>
    rw [saved] at kept
    cases kept
  | some point =>
    obtain ⟨old,held⟩ := point
    have bounds := sound.split old held saved
    rw [saved] at kept
    simp only [Option.map_some] at kept
    split at kept
    · cases kept
    · rename_i nonzero
      cases kept
      simp only [List.length_tail]
      have positive : old-1 ≠ 0 := fun zero => nonzero tail (by rw [zero])
      omega

theorem admitted_cases {rid : RequestId} {e' : EphemeralRollout τ} (result : e.admitted rid = some e') : e.candidateId = some rid ∧
    e' = {e with candidateId := none,buffer := {e.buffer with candidateId := none},savepoint := none} := by
  unfold EphemeralRollout.admitted at result
  split at result
  · rename_i bound
    cases result
    exact ⟨bound,rfl⟩
  · cases result

theorem Sound.admitted {rid : RequestId} {e' : EphemeralRollout τ} (sound : e.Sound) (result : e.admitted rid = some e') :
    e'.Sound ∧ e'.buffer.slots = e.buffer.slots := by
  obtain ⟨_,rfl⟩ := admitted_cases result
  exact ⟨⟨sound.known,fun idx tail kept => by cases kept⟩,rfl⟩

theorem maintained_cases {e' : EphemeralRollout τ} (result : e.maintained m = some e') :
    stepHasPrefill m = true ∧ (∃ s0 rest, e.buffer.slots = s0::rest ∧ ridSetsMatch s0 m = true) ∧ e' = e.popHead m.stepId := by
  unfold EphemeralRollout.maintained at result
  split at result
  · rename_i busy
    split at result
    · cases result
    · rename_i steady
      cases result
      refine ⟨busy,?_,rfl⟩
      unfold headCheck at steady
      split at steady
      · exact absurd rfl steady
      · rename_i s0 rest slots
        split at steady
        · exact ⟨s0,rest,slots,by simpa [HeadCheck.drift] using steady⟩
        · exact absurd rfl steady
  · cases result

theorem maintained_of_match {s0 : RolloutSlot τ} {rest : List (RolloutSlot τ)} (slots : e.buffer.slots = s0::rest)
    (known : s0.compositionKnown = true) (busy : stepHasPrefill m = true) (matches_ : ridSetsMatch s0 m = true) :
    e.maintained m = some (e.popHead m.stepId) := by
  simp [maintained,busy,headCheck,slots,known,matches_,HeadCheck.drift]

-- What a query takes over keeps its compositions and, past an empty baseline, a slot.
theorem Sound.recover {b : RolloutBuffer τ} {anchor : Nat} {tail : SchedSnapshot} (sound : e.Sound)
    (result : e.recover = some (b,anchor,tail)) :
    (∀ slot ∈ b.slots, slot.compositionKnown = true) ∧ (e.buffer.slots ≠ [] → b.slots ≠ []) := by
  unfold EphemeralRollout.recover at result
  split at result
  · cases result
    exact ⟨sound.known,id⟩
  · split at result
    · rename_i idx saved kept
      split at result
      · rename_i positive
        cases result
        refine ⟨fun slot member => sound.known slot (List.mem_of_mem_take member),fun filled nothing => ?_⟩
        have bounds := sound.split idx _ kept
        have size := congrArg List.length nothing
        rw [List.length_take,List.length_nil] at size
        omega
      · cases result
    · cases result

end EphemeralRollout

namespace PCtx

theorem Sound.neverEmpty (sound : p.Sound) (stocked : ∀ e, p.ephemeral = some e → e.buffer.slots ≠ []) : p.NeverEmpty := by
  have head : ∀ e, p.ephemeral = some e → ∃ s0 rest, e.buffer.slots = s0::rest ∧ s0.compositionKnown = true := fun e cached => by
    obtain ⟨s0,rest,slots⟩ := List.exists_cons_of_ne_nil (stocked e cached)
    exact ⟨s0,rest,slots,(sound.cached e cached).known s0 (slots ▸ List.mem_cons_self)⟩
  refine ⟨head,fun e m cached => ?_,fun e b anchor tail cached _ result => ?_⟩
  · obtain ⟨s0,rest,slots,known⟩ := head e cached
    exact ⟨!ridSetsMatch s0 m,by simp [EphemeralRollout.headCheck,slots,known]⟩
  · exact ((sound.cached e cached).recover result).2 (stocked e cached)

theorem NeverEmpty.filled (never : p.NeverEmpty) (cached : p.ephemeral = some e) : e.buffer.slots ≠ [] := by
  obtain ⟨s0,rest,slots,_⟩ := never.stocked e cached
  rw [slots]
  exact List.cons_ne_nil s0 rest

theorem sound_new (regressor : ρ) (blockSize tokenBudget : Nat) : Sound (new regressor blockSize tokenBudget : PCtx ρ τ) :=
  ⟨fun rid r found => (by cases found),fun e cached => (by cases cached)⟩

variable [Zero τ] [Add τ]

-- The rollout a query leaves behind, by the way it was obtained.
theorem ask_cases (trained : TrainedPredictor ρ τ) (p : PCtx ρ τ) (c : Candidate) :
    ∃ e, (p.ask trained c).1 = {p with ephemeral := some e} ∧ (p.ask trained c).2 = e.buffer.gist ∧
      ((∃ b anchor tail, p.ephemeral.bind EphemeralRollout.recover = some (b,anchor,tail) ∧
          (e.buffer,e.tailSched) = scheduleLoop (trained.predict p.regressor) p.limits c.id (maxSlots-b.slots.length)
            (tail.admitReq (p.entering c)) ⟨some c.id,b.slots,none,none,none⟩ ∧
          e.candidateId = some c.id ∧ e.savepoint = if b.slots.isEmpty then none else some (b.slots.length,tail)) ∨
        (p.ephemeral.bind EphemeralRollout.recover = none ∧
          (e.buffer,e.tailSched) = scheduleLoop (trained.predict p.regressor) p.limits c.id maxSlots
            (p.sched.admitReq (p.entering c)) ⟨some c.id,[],none,none,none⟩ ∧
          e.candidateId = some c.id ∧ e.savepoint = none)) := by
  unfold ask query
  cases baseline : p.ephemeral.bind EphemeralRollout.recover with
  | none => exact ⟨_,rfl,rfl,.inr ⟨rfl,rfl,rfl,rfl⟩⟩
  | some taken =>
    obtain ⟨b,anchor,tail⟩ := taken
    exact ⟨_,rfl,rfl,.inl ⟨b,anchor,tail,rfl,rfl,rfl,rfl⟩⟩

theorem Sound.ask (sound : p.Sound) (c : Candidate) : Sound (p.ask trained c).1 := by
  obtain ⟨e,state,_,built⟩ := ask_cases trained p c
  rw [state]
  refine ⟨sound.keyed,fun other cached => ?_⟩
  cases cached
  rcases built with ⟨b,anchor,tail,recovered,loop,_,saved⟩ | ⟨_,loop,_,saved⟩
  · obtain ⟨old,cached,result⟩ := Option.bind_eq_some_iff.mp recovered
    obtain ⟨known,_⟩ := (sound.cached old cached).recover result
    obtain ⟨more,slots,all⟩ := scheduleLoop_slots (trained.predict p.regressor) p.limits c.id
      (maxSlots-b.slots.length) (tail.admitReq (p.entering c)) ⟨some c.id,b.slots,none,none,none⟩
    rw [← loop] at slots
    change e.buffer.slots = b.slots++more at slots
    refine ⟨fun slot member => ?_,fun idx point kept => ?_⟩
    · rw [slots] at member
      exact (List.mem_append.mp member).elim (known slot) (all slot)
    · rw [saved] at kept
      split at kept
      · cases kept
      · rename_i filled
        cases kept
        rw [slots,List.length_append]
        have positive : b.slots ≠ [] := fun nothing => filled (by rw [nothing]; rfl)
        have size := List.length_pos_of_ne_nil positive
        omega
  · obtain ⟨more,slots,all⟩ := scheduleLoop_slots (trained.predict p.regressor) p.limits c.id
      maxSlots (p.sched.admitReq (p.entering c)) ⟨some c.id,[],none,none,none⟩
    rw [← loop] at slots
    change e.buffer.slots = []++more at slots
    refine ⟨fun slot member => all slot (by rw [slots] at member; exact member),fun idx point kept => ?_⟩
    rw [saved] at kept
    cases kept

theorem Sound.call (sound : p.Sound) (call : PCtxCall) : Sound (p.call trained call) := by
  cases call with
  | query c => exact sound.ask c
  | onAdmit requestId inputLength hashes =>
    refine ⟨sound.keyed,fun e' cached => ?_⟩
    obtain ⟨e,held,result⟩ := Option.bind_eq_some_iff.mp cached
    exact ((sound.cached e held).admitted result).1
  | onSse batch m =>
    refine ⟨sound.keyed.sync m,fun e' cached => ?_⟩
    obtain ⟨e,held,result⟩ := Option.bind_eq_some_iff.mp cached
    obtain ⟨_,_,rfl⟩ := EphemeralRollout.maintained_cases result
    exact (sound.cached e held).popHead m.stepId

theorem sound_after (regressor : ρ) (blockSize tokenBudget : Nat) (calls : List PCtxCall) :
    Sound (after trained (new regressor blockSize tokenBudget) calls) := by
  induction calls using List.reverseRecOn with
  | nil => exact sound_new regressor blockSize tokenBudget
  | append_singleton calls call ih =>
    rw [after,List.foldl_append]
    exact ih.call call

-- One call keeps the rollout stocked exactly when it is one of the feeding ones.
theorem Sound.neverEmpty_call (sound : p.Sound) (never : p.NeverEmpty) (call : PCtxCall) :
    NeverEmpty (p.call trained call) ↔ p.Feeding call := by
  have next : Sound (p.call trained call) := sound.call call
  suffices filled : (∀ e, (p.call trained call).ephemeral = some e → e.buffer.slots ≠ []) ↔ p.Feeding call from
    ⟨fun stocked => filled.mp fun e cached => stocked.filled cached,fun feeding => next.neverEmpty (filled.mpr feeding)⟩
  cases call with
  | query c =>
    obtain ⟨e,state,_,built⟩ := ask_cases trained p c
    have only : (∀ e', (p.call trained (.query c)).ephemeral = some e' → e'.buffer.slots ≠ []) ↔ e.buffer.slots ≠ [] := by
      change (∀ e', (p.ask trained c).1.ephemeral = some e' → e'.buffer.slots ≠ []) ↔ _
      rw [state]
      simp
    rw [only]
    rcases built with ⟨b,anchor,tail,recovered,loop,_,_⟩ | ⟨recovered,loop,_,_⟩
    · obtain ⟨old,cached,result⟩ := Option.bind_eq_some_iff.mp recovered
      have filled := ((sound.cached old cached).recover result).2 (never.filled cached)
      obtain ⟨more,slots,_⟩ := scheduleLoop_slots (trained.predict p.regressor) p.limits c.id
        (maxSlots-b.slots.length) (tail.admitReq (p.entering c)) ⟨some c.id,b.slots,none,none,none⟩
      rw [← loop] at slots
      refine iff_of_true ?_ fun nothing => by rw [recovered] at nothing; cases nothing
      rw [show e.buffer.slots = b.slots++more from slots]
      exact List.append_ne_nil_of_left_ne_nil filled more
    · have keyed : Keyed (p.sched.admitReq (p.entering c)) := sound.keyed
      have grows := scheduleLoop_nonempty (trained.predict p.regressor) p.limits c.id keyed 255
        (show (⟨some c.id,[],none,none,none⟩ : RolloutBuffer τ).slots = [] from rfl)
      change (scheduleLoop _ _ _ maxSlots _ _).1.slots ≠ [] ↔ _ at grows
      rw [← loop] at grows
      refine grows.trans ?_
      simp only [Feeding,recovered,forall_const,Idle,not_and_or,not_forall]
      have values : (p.sched.admitReq (p.entering c)).values = p.sched.values := rfl
      have waiting : (p.sched.admitReq (p.entering c)).waiting = p.sched.waiting++[p.entering c] := rfl
      rw [values,waiting]
      apply or_congr_right
      constructor
      · rintro ⟨r,member,owes⟩
        rcases List.mem_append.mp member with queued | last
        · exact .inl ⟨r,queued,by simpa using owes⟩
        · cases List.mem_singleton.mp last
          exact .inr (by simpa using owes)
      · rintro (⟨r,member,owes⟩ | owes)
        · exact ⟨r,List.mem_append_left _ member,by simp [owes]⟩
        · exact ⟨p.entering c,by simp,by simp [owes]⟩
  | onAdmit requestId inputLength hashes =>
    refine iff_of_true (fun e' cached => ?_) trivial
    obtain ⟨e,held,result⟩ := Option.bind_eq_some_iff.mp cached
    rw [((sound.cached e held).admitted result).2]
    exact never.filled held
  | onSse batch m =>
    constructor
    · intro filled e s0 cached slots busy
      by_contra matches_
      have known := (sound.cached e cached).known s0 (slots ▸ List.mem_cons_self)
      have popped := EphemeralRollout.maintained_of_match slots known busy (by simpa using matches_)
      have emptied := filled (e.popHead m.stepId) (by
        change (p.ephemeral.bind fun e => e.maintained m) = _
        rw [cached]
        exact popped)
      exact emptied (by simp [EphemeralRollout.popHead,slots])
    · intro feeding e' cached
      obtain ⟨e,held,result⟩ := Option.bind_eq_some_iff.mp cached
      obtain ⟨busy,⟨s0,rest,slots,matches_⟩,rfl⟩ := EphemeralRollout.maintained_cases result
      intro nothing
      have single : e.buffer.slots = [s0] := by
        simp only [EphemeralRollout.popHead,slots,List.tail_cons] at nothing
        rw [slots,nothing]
      rw [feeding e s0 held single busy] at matches_
      cases matches_

-- Induction on the history: the first call that does not feed is the one that empties.
theorem rollout_never_empty_iff (trained : TrainedPredictor ρ τ) (regressor : ρ) (blockSize tokenBudget : Nat) (calls : List PCtxCall) :
    (∀ past, past <+: calls → NeverEmpty (after trained (new regressor blockSize tokenBudget) past)) ↔
      ∀ past call, past++[call] <+: calls → Feeding (after trained (new regressor blockSize tokenBudget) past) call := by
  have step : ∀ past call, NeverEmpty (after trained (new regressor blockSize tokenBudget) past) →
      (NeverEmpty (after trained (new regressor blockSize tokenBudget) (past++[call])) ↔
        Feeding (after trained (new regressor blockSize tokenBudget) past) call) := fun past call never => by
    rw [after,List.foldl_append]
    exact (sound_after regressor blockSize tokenBudget past).neverEmpty_call never call
  constructor
  · intro never past call before
    exact (step past call (never past ((List.prefix_append _ _).trans before))).mp (never _ before)
  · intro feeding past before
    induction past using List.reverseRecOn with
    | nil => exact (sound_new regressor blockSize tokenBudget).neverEmpty fun e cached => by cases cached
    | append_singleton past call ih =>
      exact (step past call (ih ((List.prefix_append _ _).trans before))).mpr (feeding past call before)

-- A regressor that answers with the tokens of the batch.
def tokenPredictor : TrainedPredictor Unit Nat := ⟨fun _ batch => batch.numTokens,fun _ _ _ => (),id⟩

-- An idle replica whose cache covers the whole prompt: nothing is left to schedule.
theorem cached_candidate_empties :
    ¬NeverEmpty (after tokenPredictor (new () 16 1024) [.query ⟨1,16,[],1⟩]) := by
  intro never
  exact never.filled rfl rfl

end PCtx
end BlitzRouter
