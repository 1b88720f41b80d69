import BlitzRouter.RolloutResidue

namespace BlitzRouter
open Radix SchedSnapshot

-- A promoted rollout: its slots, how many of them steps have consumed since, and
-- the sched state its simulation ended in.
structure Baseline (τ : Type) where
  slots : List (RolloutSlot τ)
  consumed : Nat
  endSched : SchedSnapshot

def Baseline.remaining {τ : Type} (b : Baseline τ) : List (RolloutSlot τ) := b.slots.drop b.consumed

-- What the simulation of a candidate added to the slots it started from.
structure Trial (τ : Type) where
  id : RequestId
  added : List (RolloutSlot τ)
  endSched : SchedSnapshot

-- The cached rollout with its two portions held apart, so that no index is needed
-- to tell them: what it is for. The code keeps one buffer and a savepoint.
structure Trail (τ : Type) where
  baseline : Option (Baseline τ)
  trial : Option (Trial τ)

namespace Trail
variable {ρ τ : Type}

def remaining (t : Trail τ) : List (RolloutSlot τ) := (t.baseline.map Baseline.remaining).getD []

def added (t : Trail τ) : List (RolloutSlot τ) := (t.trial.map Trial.added).getD []

-- A baseline that nothing is left of is given up once a candidate stood on it.
def reusable (t : Trail τ) : Option (Baseline τ) :=
  if t.trial.isNone || !t.remaining.isEmpty then t.baseline else none

def ask (trained : TrainedPredictor ρ τ) (p : PCtx ρ τ) (t : Option (Trail τ)) (c : Candidate) : Trail τ :=
  let baseline := t.bind reusable
  let slots := (baseline.map Baseline.remaining).getD []
  let sched := (baseline.map Baseline.endSched).getD p.sched
  let (buffer,endSched) := scheduleLoop (trained.predict p.regressor) p.limits c.id (maxSlots-slots.length)
    (sched.admitReq (p.entering c)) ⟨some c.id,slots,none,none,none⟩
  ⟨baseline,some ⟨c.id,buffer.slots.drop slots.length,endSched⟩⟩

-- Promotion makes one baseline of both portions.
def admitted (t : Trail τ) (rid : RequestId) : Option (Trail τ) :=
  match t.trial with
  | some trial => if trial.id = rid then some ⟨some ⟨t.remaining++trial.added,0,trial.endSched⟩,none⟩ else none
  | none => none

def consume (t : Trail τ) : Trail τ :=
  if t.remaining.isEmpty then {t with trial := t.trial.map fun trial => {trial with added := trial.added.tail}}
  else {t with baseline := t.baseline.map fun b => {b with consumed := b.consumed+1}}

def sse (t : Trail τ) (m : EngineStepOutput) : Option (Trail τ) :=
  match t.remaining++t.added with
  | [] => none
  | s0::_ => if stepHasPrefill m && s0.compositionKnown && ridSetsMatch s0 m then some t.consume else none

def call (trained : TrainedPredictor ρ τ) (p : PCtx ρ τ) (t : Option (Trail τ)) : PCtxCall → Option (Trail τ)
  | .query c => some (ask trained p t c)
  | .onAdmit rid _ _ => t.bind fun t => t.admitted rid
  | .onSse _ m => t.bind fun t => t.sse m

-- The trail of a history of calls, beside the state these lead to.
def after [Zero τ] [Add τ] (trained : TrainedPredictor ρ τ) (start : PCtx ρ τ) (calls : List PCtxCall) : Option (Trail τ) :=
  (calls.foldl (fun (x : PCtx ρ τ × Option (Trail τ)) c => (x.1.call trained c,call trained x.1 x.2 c)) (start,none)).2

end Trail

-- The buffer is the two portions in a row, and the savepoint marks where the
-- second begins while there is a first.
structure EphemeralRollout.Follows {τ : Type} (e : EphemeralRollout τ) (t : Trail τ) : Prop where
  slots : e.buffer.slots = t.remaining++t.added
  bound : e.candidateId = t.trial.map Trial.id
  buffered : e.buffer.candidateId = e.candidateId
  clean : ∀ b, t.trial = none → t.baseline = some b → e.tailSched = b.endSched
  extended : ∀ trial, t.trial = some trial → e.tailSched = trial.endSched
  based : t.trial = none → t.baseline.isSome
  unmarked : t.trial = none ∨ t.remaining = [] → e.savepoint = none
  marked : ∀ b, t.trial.isSome → t.baseline = some b → b.remaining ≠ [] → e.savepoint = some (b.remaining.length,b.endSched)

section Loop
variable {τ : Type} {predict : BatchForPredictor → τ} {limits : StepLimits} {candidateId : RequestId}

theorem trackCandidate_candidate (sched : SchedSnapshot) (slotIdx : Nat) (slot : RolloutSlot τ) (buffer : RolloutBuffer τ) :
    (trackCandidate sched slotIdx candidateId slot buffer).candidateId = buffer.candidateId := by
  simp only [trackCandidate]
  repeat' split
  all_goals rfl

theorem simulateOneSlot_candidate (s : SchedSnapshot) (slotIdx : Nat) (buffer : RolloutBuffer τ) :
    (simulateOneSlot predict limits s slotIdx candidateId buffer).2.1.candidateId = buffer.candidateId := by
  unfold simulateOneSlot
  simp only
  split
  · rfl
  · exact trackCandidate_candidate _ _ _ _

-- The loop leaves the buffer with its candidate.
theorem scheduleLoop_candidate (free : Nat) (s : SchedSnapshot) (buffer : RolloutBuffer τ) :
    (scheduleLoop predict limits candidateId free s buffer).1.candidateId = buffer.candidateId := by
  induction free generalizing s buffer with
  | zero => rfl
  | succ free ih =>
    have kept : (simulateOneSlot predict limits s buffer.slots.length candidateId buffer).2.1.candidateId = buffer.candidateId :=
      simulateOneSlot_candidate _ _ _
    unfold scheduleLoop
    rcases step : simulateOneSlot predict limits s buffer.slots.length candidateId buffer with ⟨u,v,slot⟩
    rw [step] at kept
    cases slot with
    | none => exact kept
    | some slot =>
      simp only
      split
      · exact kept
      · rw [ih]
        exact kept

end Loop

section
variable {ρ τ : Type} {trained : TrainedPredictor ρ τ} {p : PCtx ρ τ} {e e' : EphemeralRollout τ} {t : Trail τ} {m : EngineStepOutput}

namespace Trail

theorem remaining_some {b : Baseline τ} (based : t.baseline = some b) : t.remaining = b.remaining := by
  rw [remaining,based]
  rfl

theorem added_none (alone : t.trial = none) : t.added = [] := by
  rw [added,alone]
  rfl

theorem based_of_remaining (left : t.remaining ≠ []) : ∃ b, t.baseline = some b := by
  cases based : t.baseline with
  | none =>
    rw [remaining,based] at left
    exact absurd rfl left
  | some b => exact ⟨b,rfl⟩

end Trail

namespace EphemeralRollout

theorem Follows.savepoint_some {idx : Nat} {tail : SchedSnapshot} (follows : e.Follows t) (saved : e.savepoint = some (idx,tail)) :
    ∃ b, t.trial.isSome ∧ t.baseline = some b ∧ b.remaining ≠ [] ∧ idx = b.remaining.length ∧ tail = b.endSched := by
  have left : ¬(t.trial = none ∨ t.remaining = []) := fun none => by simp [follows.unmarked none] at saved
  rw [not_or] at left
  obtain ⟨b,based⟩ := Trail.based_of_remaining left.2
  have trial : t.trial.isSome := Option.isSome_iff_ne_none.mpr left.1
  have filled : b.remaining ≠ [] := Trail.remaining_some based ▸ left.2
  have marked := follows.marked b trial based filled
  rw [saved,Option.some.injEq,Prod.mk.injEq] at marked
  exact ⟨b,trial,based,filled,marked⟩

theorem Follows.take_marked {b : Baseline τ} (follows : e.Follows t) (based : t.baseline = some b) :
    e.buffer.slots.take b.remaining.length = b.remaining := by
  rw [follows.slots,Trail.remaining_some based,List.take_left]

-- What a query takes over of the cached rollout is what is left of the baseline.
theorem Follows.recover (follows : e.Follows t) :
    e.recover.map (fun taken => (taken.1.slots,taken.2.2)) = t.reusable.map fun b => (b.remaining,b.endSched) := by
  unfold EphemeralRollout.recover Trail.reusable
  cases alone : t.trial with
  | none =>
    obtain ⟨b,based⟩ := Option.isSome_iff_exists.mp (follows.based alone)
    have free : e.candidateId = none := by rw [follows.bound,alone]; rfl
    simp [free,based,follows.clean b alone based,follows.slots,Trail.added_none alone,Trail.remaining_some based]
  | some trial =>
    have bound : e.candidateId = some trial.id := by rw [follows.bound,alone]; rfl
    by_cases left : t.remaining = []
    · simp [bound,follows.unmarked (.inr left),left]
    · obtain ⟨b,based⟩ := Trail.based_of_remaining left
      have filled : b.remaining ≠ [] := Trail.remaining_some based ▸ left
      have positive := List.length_pos_of_ne_nil filled
      have marked := follows.marked b (by rw [alone]; rfl) based filled
      simp [bound,marked,positive,left,based,follows.take_marked based]

theorem Follows.admitted (follows : e.Follows t) (rid : RequestId) : Option.Rel Follows (e.admitted rid) (t.admitted rid) := by
  unfold EphemeralRollout.admitted Trail.admitted
  rw [follows.bound]
  cases trying : t.trial with
  | none => exact .none
  | some trial =>
    simp only [Option.map_some,Option.some.injEq]
    split
    · refine .some ⟨?_,rfl,rfl,?_,nofun,fun _ => rfl,fun _ => rfl,nofun⟩
      · simp [follows.slots,Trail.remaining,Trail.added,Baseline.remaining,trying]
      · rintro _ _ ⟨⟩
        exact follows.extended trial trying
    · exact .none

-- The savepoint of a popped rollout: one less, and none when that leaves nothing.
theorem popHead_savepoint (stepId : Nat) :
    (e.popHead stepId).savepoint = e.savepoint.bind fun point => if point.1-1 = 0 then none else some (point.1-1,point.2) := by
  unfold EphemeralRollout.popHead
  cases e.savepoint with
  | none => rfl
  | some point =>
    obtain ⟨idx,tail⟩ := point
    simp only [Option.map_some,Option.bind_some]
    split
    · rename_i gone
      simp only [Option.some.injEq,Prod.mk.injEq] at gone
      simp [gone.1]
    · rename_i kept
      rw [if_neg]
      intro zero
      exact kept tail (by rw [zero])

theorem Follows.pop_added (follows : e.Follows t) (left : t.remaining = []) {trial : Trial τ} (trying : t.trial = some trial) (stepId : Nat) :
    (e.popHead stepId).Follows ⟨t.baseline,some {trial with added := trial.added.tail}⟩ := by
  have saved : (e.popHead stepId).savepoint = none := by
    rw [popHead_savepoint,follows.unmarked (.inr left)]
    rfl
  have slots : e.buffer.slots = trial.added := by rw [follows.slots,left,Trail.added,trying]; rfl
  refine ⟨?_,?_,follows.buffered,nofun,?_,nofun,fun _ => saved,?_⟩
  · change e.buffer.slots.tail = t.remaining++trial.added.tail
    rw [slots,left,List.nil_append]
  · exact follows.bound.trans (by rw [trying]; rfl)
  · rintro _ ⟨⟩
    exact follows.extended trial trying
  · intro b _ based filled
    exact absurd (Trail.remaining_some based ▸ left) filled

theorem Follows.pop_baseline (follows : e.Follows t) {b : Baseline τ} (based : t.baseline = some b) (filled : b.remaining ≠ []) (stepId : Nat) :
    (e.popHead stepId).Follows ⟨some {b with consumed := b.consumed+1},t.trial⟩ := by
  have rest : ({b with consumed := b.consumed+1} : Baseline τ).remaining = b.remaining.tail := by simp [Baseline.remaining,List.tail_drop]
  have slots : e.buffer.slots = b.remaining++t.added := by rw [follows.slots,Trail.remaining_some based]
  refine ⟨?_,follows.bound,follows.buffered,?_,follows.extended,fun _ => rfl,?_,?_⟩
  · change e.buffer.slots.tail = ({b with consumed := b.consumed+1} : Baseline τ).remaining++t.added
    rw [slots,rest,List.tail_append_of_ne_nil filled]
  · rintro _ alone ⟨⟩
    exact follows.clean b alone based
  · intro none
    rw [popHead_savepoint]
    by_cases alone : t.trial = Option.none
    · rw [follows.unmarked (.inl alone)]
      rfl
    · have last : b.remaining.tail = [] := rest ▸ none.resolve_left alone
      rw [follows.marked b (Option.isSome_iff_ne_none.mpr alone) based filled]
      have size := congrArg List.length last
      rw [List.length_tail,List.length_nil] at size
      simp [size]
  · rintro _ trying ⟨⟩ more
    rw [popHead_savepoint,follows.marked b trying based filled]
    rw [rest] at more ⊢
    have size := List.length_pos_of_ne_nil more
    rw [List.length_tail] at size ⊢
    simp only [Option.bind_some]
    rw [if_neg (by omega)]

theorem Follows.popHead (follows : e.Follows t) {s0 : RolloutSlot τ} {rest : List (RolloutSlot τ)} (slots : e.buffer.slots = s0::rest)
    (stepId : Nat) : (e.popHead stepId).Follows t.consume := by
  unfold Trail.consume
  by_cases left : t.remaining = []
  · cases trying : t.trial with
    | none =>
      rw [follows.slots,left,Trail.added_none trying] at slots
      cases slots
    | some trial =>
      rw [left,List.isEmpty_nil,if_pos rfl]
      exact follows.pop_added left trying stepId
  · obtain ⟨b,based⟩ := Trail.based_of_remaining left
    have filled : b.remaining ≠ [] := Trail.remaining_some based ▸ left
    rw [if_neg (by simpa using left),based]
    exact follows.pop_baseline based filled stepId

theorem Follows.maintained (follows : e.Follows t) (m : EngineStepOutput) : Option.Rel Follows (e.maintained m) (t.sse m) := by
  unfold EphemeralRollout.maintained EphemeralRollout.headCheck Trail.sse
  rw [← follows.slots]
  cases slots : e.buffer.slots with
  | nil =>
    simp only [HeadCheck.drift,if_true,ite_self]
    exact .none
  | cons s0 rest =>
    cases busy : stepHasPrefill m with
    | false => exact .none
    | true =>
      cases known : s0.compositionKnown with
      | false => simp [known,HeadCheck.drift]
      | true =>
        cases matches_ : ridSetsMatch s0 m with
        | false => simp [known,matches_,HeadCheck.drift]
        | true => simpa [known,matches_,HeadCheck.drift] using follows.popHead slots m.stepId

end EphemeralRollout

theorem related_bind {α β γ δ : Type} {r : α → β → Prop} {q : γ → δ → Prop} {a : Option α} {b : Option β} {f : α → Option γ} {g : β → Option δ}
    (related : Option.Rel r a b) (each : ∀ x y, r x y → Option.Rel q (f x) (g y)) : Option.Rel q (a.bind f) (b.bind g) := by
  cases related with
  | none => exact .none
  | some both => exact each _ _ both

namespace PCtx

-- A rollout is cached when the trail has one, and follows it.
abbrev Trails (p : PCtx ρ τ) (t : Option (Trail τ)) : Prop := Option.Rel EphemeralRollout.Follows p.ephemeral t

theorem Trails.recover {t : Option (Trail τ)} (trails : p.Trails t) :
    (p.ephemeral.bind EphemeralRollout.recover).map (fun taken => (taken.1.slots,taken.2.2)) =
      (t.bind Trail.reusable).map fun b => (b.remaining,b.endSched) := by
  rcases cached : p.ephemeral with none | e
  · rw [Trails,cached] at trails
    cases trails
    rfl
  · rw [Trails,cached] at trails
    cases trails with
    | some follows => exact follows.recover

-- The query of the code and that of the trail start from the same place.
theorem Trails.ground {t : Option (Trail τ)} (trails : p.Trails t) :
    p.ground = (((t.bind Trail.reusable).map Baseline.remaining).getD [],((t.bind Trail.reusable).map Baseline.endSched).getD p.sched) := by
  have recovered := trails.recover
  unfold PCtx.ground
  cases taken : p.ephemeral.bind EphemeralRollout.recover with
  | none =>
    rw [taken] at recovered
    have nothing : t.bind Trail.reusable = none := by simpa using recovered.symm
    rw [nothing]
    rfl
  | some found =>
    rw [taken] at recovered
    obtain ⟨b,reused,same⟩ := Option.map_eq_some_iff.mp recovered.symm
    rw [reused]
    exact same.symm

variable [Zero τ] [Add τ]

theorem Trails.ask {t : Option (Trail τ)} (trails : p.Trails t) (c : Candidate) :
    Trails (p.ask trained c).1 (some (Trail.ask trained p t c)) := by
  obtain ⟨e,state,_,loop,bound,saved⟩ := ask_ground trained p c
  obtain ⟨more,slots,_⟩ := scheduleLoop_slots (trained.predict p.regressor) p.limits c.id
    (maxSlots-p.ground.1.length) (p.ground.2.admitReq (p.entering c)) ⟨some c.id,p.ground.1,none,none,none⟩
  have named : (scheduleLoop (trained.predict p.regressor) p.limits c.id (maxSlots-p.ground.1.length)
      (p.ground.2.admitReq (p.entering c)) ⟨some c.id,p.ground.1,none,none,none⟩).1.candidateId = some c.id := scheduleLoop_candidate _ _ _
  rw [← loop] at slots named
  change e.buffer.slots = p.ground.1++more at slots
  have ground := trails.ground
  have first : ((t.bind Trail.reusable).map Baseline.remaining).getD [] = p.ground.1 := by rw [ground]
  have last : ((t.bind Trail.reusable).map Baseline.endSched).getD p.sched = p.ground.2 := by rw [ground]
  have asked : Trail.ask trained p t c = ⟨t.bind Trail.reusable,some ⟨c.id,e.buffer.slots.drop p.ground.1.length,e.tailSched⟩⟩ := by
    unfold Trail.ask
    simp only [first,last,← loop]
  rw [state,asked]
  refine .some ⟨?_,bound,named.trans bound.symm,nofun,?_,nofun,?_,?_⟩
  · change e.buffer.slots = ((t.bind Trail.reusable).map Baseline.remaining).getD []++e.buffer.slots.drop p.ground.1.length
    rw [first,slots,List.drop_left]
  · rintro _ ⟨⟩
    rfl
  · rintro (nothing | bare)
    · cases nothing
    · have empty : p.ground.1 = [] := first ▸ bare
      rw [saved,empty]
      rfl
  · intro b _ based filled
    have reused : t.bind Trail.reusable = some b := based
    have parts : p.ground = (b.remaining,b.endSched) := by rw [ground,reused]; rfl
    rw [saved,parts,if_neg (by simpa using filled)]

theorem Trails.call (trained : TrainedPredictor ρ τ) {t : Option (Trail τ)} (trails : p.Trails t) (c : PCtxCall) :
    Trails (p.call trained c) (Trail.call trained p t c) := by
  cases c with
  | query c => exact trails.ask c
  | onAdmit rid inputLength hashes => exact related_bind trails fun _ _ follows => follows.admitted rid
  | onSse batch m => exact related_bind trails fun _ _ follows => follows.maintained m

theorem trails_after (trained : TrainedPredictor ρ τ) (regressor : ρ) (blockSize tokenBudget : Nat) (calls : List PCtxCall) :
    Trails (after trained (new regressor blockSize tokenBudget) calls) (Trail.after trained (new regressor blockSize tokenBudget) calls) := by
  have beside (calls : List PCtxCall) (p : PCtx ρ τ) (t : Option (Trail τ)) :
      (calls.foldl (fun (x : PCtx ρ τ × Option (Trail τ)) c => (x.1.call trained c,Trail.call trained x.1 x.2 c)) (p,t)).1 =
        calls.foldl (PCtx.call trained) p := by
    induction calls generalizing p t with
    | nil => rfl
    | cons c calls ih => exact ih _ _
  induction calls using List.reverseRecOn with
  | nil => exact .none
  | append_singleton calls c ih =>
    have next := ih.call trained c
    unfold after Trail.after at next ⊢
    rw [List.foldl_append,List.foldl_append]
    simp only [List.foldl_cons,List.foldl_nil,beside]
    exact next

-- A cached rollout against the trail of the calls that led to it.
theorem savepoint_marks_baseline (trained : TrainedPredictor ρ τ) (regressor : ρ) (blockSize tokenBudget : Nat) (calls : List PCtxCall)
    (e : EphemeralRollout τ) (cached : (after trained (new regressor blockSize tokenBudget) calls).ephemeral = some e) :
    e.candidateId = e.buffer.candidateId ∧ (e.candidateId = none → e.savepoint = none) ∧
      ∀ idx tail, e.savepoint = some (idx,tail) → 0 < idx ∧ idx ≤ e.buffer.slots.length ∧
        ∃ trail baseline, Trail.after trained (new regressor blockSize tokenBudget) calls = some trail ∧
          trail.baseline = some baseline ∧ e.candidateId = trail.trial.map Trial.id ∧
          e.buffer.slots.take idx = baseline.remaining ∧ tail = baseline.endSched ∧
          e.recover = some (⟨none,baseline.remaining,none,none,none⟩,e.sseAnchorStepId,baseline.endSched) := by
  have trails := trails_after trained regressor blockSize tokenBudget calls
  rw [Trails,cached] at trails
  cases trail : Trail.after trained (new regressor blockSize tokenBudget) calls with
  | none =>
    rw [trail] at trails
    cases trails
  | some t =>
    rw [trail] at trails
    have follows : e.Follows t := Option.rel_some_some.mp trails
    refine ⟨follows.buffered.symm,?_,?_⟩
    · intro clean
      rw [follows.bound,Option.map_eq_none_iff] at clean
      exact follows.unmarked (.inl clean)
    · intro idx tail saved
      obtain ⟨b,trying,based,filled,rfl,rfl⟩ := follows.savepoint_some saved
      have positive := List.length_pos_of_ne_nil filled
      have marked := follows.take_marked based
      refine ⟨positive,?_,t,b,rfl,based,follows.bound,marked,rfl,?_⟩
      · have size := congrArg List.length marked
        rw [List.length_take] at size
        omega
      · obtain ⟨trial,trying⟩ := Option.isSome_iff_exists.mp trying
        have bound : e.candidateId = some trial.id := by rw [follows.bound,trying]; rfl
        unfold EphemeralRollout.recover
        simp only [bound,saved,marked]
        rw [if_pos positive]

-- Request 1 is promoted, request 2 stands on it, and a step consumes the first of
-- the two slots of the baseline.
def poppedCalls : List PCtxCall :=
  [.query ⟨1,100,[],0⟩,.onAdmit 1 100 [],.query ⟨2,20,[],0⟩,
    .onSse ⟨100,112,[100],[0],[],1⟩ ⟨100,0,[⟨1,[],.prefill,false,0,0⟩],[],[],[],[],[],[],1⟩]

theorem savepoint_marks_baseline_popped : ∃ e tail, ∃ baseline : Baseline Nat, (after tokenPredictor (new () 16 1024) poppedCalls).ephemeral = some e ∧
    e.savepoint = some (1,tail) ∧ e.buffer.slots.take 1 = baseline.remaining ∧ tail = baseline.endSched := by
  have saved : (after tokenPredictor (new () 16 1024) poppedCalls).ephemeral.bind (fun e => e.savepoint.map Prod.fst) = some 1 := by decide
  obtain ⟨e,cached,first⟩ := Option.bind_eq_some_iff.mp saved
  obtain ⟨⟨idx,tail⟩,marked,rfl⟩ := Option.map_eq_some_iff.mp first
  obtain ⟨_,_,marks⟩ := savepoint_marks_baseline tokenPredictor () 16 1024 poppedCalls e cached
  obtain ⟨_,_,_,baseline,_,_,_,slots,last,_⟩ := marks _ tail marked
  exact ⟨e,tail,baseline,cached,marked,slots,last⟩

end PCtx
end
end BlitzRouter
