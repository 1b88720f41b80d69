import BlitzRouter.RolloutRuns
import BlitzRouter.Runs

namespace BlitzRouter
open Radix SchedSnapshot

-- A schedule loop under way; `free` is the number of turns left to it.
structure Rolling (τ : Type) where
  candidateId : RequestId
  anchor : Nat
  savepoint : Option (Nat × SchedSnapshot)
  buffer : RolloutBuffer τ
  sched : SchedSnapshot
  free : Nat

-- Where the thread of queries and admissions stands, with what its local
-- variables hold from one critical section to the next.
inductive Asker (τ : Type) where
  | idle
  | probed (candidate : Candidate) (compositeHits : Nat)
  | taken (candidate : Candidate) (compositeHits : Nat) (baseline : Option (RolloutBuffer τ × Nat × SchedSnapshot))
  | anchored (candidate : Candidate) (compositeHits anchor : Nat)
  | rolling (loop : Rolling τ)
  | queued (requestId : RequestId) (hashes : List Hash)
  | mirrored (requestId : RequestId)

inductive Stepper where
  | idle
  | observed (m : EngineStepOutput)
  | absorbed (m : EngineStepOutput)
  | stored (m : EngineStepOutput)
deriving DecidableEq

inductive AskerAct where
  | prefixMatch (candidate : Candidate)
  | take
  | loadAnchor
  | cloneSched
  | simulateOneSlot
  | writeBack
  | admitReq (requestId : RequestId) (inputLength : Nat) (hashes : List Hash)
  | insertRequest
  | promoteOrDrop

inductive StepperAct where
  | observeStep (batch : BatchForPredictor) (m : EngineStepOutput)
  | absorb
  | storeAnchor
  | maintain

inductive Act where
  | asker (act : AskerAct)
  | stepper (act : StepperAct)

-- What the order of the actions alone tells: how many steps have stored their
-- id, and how many are past their section over the cached rollout. `kept` is how
-- many were when the last query took the rollout out, nought once it rebuilds;
-- `anchored` and `rebuilt` are how many ids were stored when the last query, and
-- the last one that rebuilt from scratch, loaded its anchor.
structure Timeline where
  stored : Nat
  passed : Nat
  kept : Nat
  anchored : Nat
  rebuilt : Nat

namespace Timeline

def after (line : Timeline) : Act → Timeline
  | .asker .take => {line with kept := line.passed}
  | .asker .loadAnchor => {line with anchored := line.stored}
  | .asker .cloneSched => {line with kept := 0,rebuilt := line.anchored}
  | .stepper .storeAnchor => {line with stored := line.stored+1}
  | .stepper .maintain => {line with passed := line.passed+1}
  | _ => line

-- No step is past its section over the cached rollout but those that were before
-- the rollout was taken out, and those whose id the last rebuild could load.
def Punctual (line : Timeline) : Prop := line.passed ≤ max line.kept line.rebuilt

instance (line : Timeline) : Decidable line.Punctual := inferInstanceAs (Decidable (_ ≤ _))

end Timeline

def timeline (acts : List Act) : Timeline := acts.foldl Timeline.after ⟨0,0,0,0,0⟩

-- No action reads the last two. The steps are numbered as they come; `carried`
-- are those that the rollout, cached or in the hands of a query, carries.
structure Threads (ρ τ : Type) where
  ctx : PCtx ρ τ
  asker : Asker τ
  stepper : Stepper
  line : Timeline
  carried : List Nat

variable {ρ τ : Type} {trained : TrainedPredictor ρ τ}

namespace Rolling

def scratch (limits : StepLimits) (sched : SchedSnapshot) (c : Candidate) (compositeHits anchor : Nat) : Rolling τ :=
  ⟨c.id,anchor,none,⟨some c.id,[],none,none,none⟩,sched.admitReq (candidateProgress limits c.id c.inputLength compositeHits),maxSlots⟩

def extending (limits : StepLimits) (buffer : RolloutBuffer τ) (baselineTailSched : SchedSnapshot) (c : Candidate)
    (compositeHits anchor : Nat) : Rolling τ where
  candidateId := c.id
  anchor := anchor
  savepoint := if buffer.slots.isEmpty then none else some (buffer.slots.length,baselineTailSched)
  buffer := ⟨some c.id,buffer.slots,none,none,none⟩
  sched := baselineTailSched.admitReq (candidateProgress limits c.id c.inputLength compositeHits)
  free := maxSlots-buffer.slots.length

-- One turn of the loop; the regressor is locked for this turn only.
def turn (predict : BatchForPredictor → τ) (limits : StepLimits) (r : Rolling τ) : Option (Rolling τ) :=
  match r.free with
  | 0 => none
  | free+1 =>
    match simulateOneSlot predict limits r.sched r.buffer.slots.length r.candidateId r.buffer with
    | (sched,buffer,none) => some {r with sched := sched,buffer := buffer,free := 0}
    | (sched,buffer,some slot) =>
      let buffer := {buffer with slots := buffer.slots++[slot]}
      some {r with sched := sched,buffer := buffer,free := if buffer.inDecodeStep.isSome then 0 else free}

def rollout (r : Rolling τ) : EphemeralRollout τ := ⟨some r.candidateId,r.buffer,r.anchor,r.sched,r.savepoint⟩

end Rolling

namespace Asker

-- The anchor of the rollout a query is making.
def inFlight : Asker τ → Option Nat
  | .anchored _ _ anchor => some anchor
  | .rolling loop => some loop.anchor
  | _ => none

def querying : Asker τ → Bool
  | .idle => false
  | .queued _ _ => false
  | .mirrored _ => false
  | _ => true

-- Past the section that takes the cached rollout out.
def emptied : Asker τ → Bool
  | .taken _ _ _ => true
  | asker => asker.inFlight.isSome

end Asker

section Steps
variable (trained)

def askerStep (p : PCtx ρ τ) : Asker τ → AskerAct → Option (PCtx ρ τ × Asker τ)
  | .idle,.prefixMatch c => some (p,.probed c (max c.sctxPrefixHits (p.mirror.prefixMatch c.hashes)))
  | .probed c hits,.take => some ({p with ephemeral := none},.taken c hits (p.ephemeral.bind EphemeralRollout.recover))
  | .taken c hits none,.loadAnchor => some (p,.anchored c hits p.lastSseStepId)
  | .taken c hits (some (b,_,tail)),.loadAnchor => some (p,.rolling (.extending p.limits b tail c hits p.lastSseStepId))
  | .anchored c hits anchor,.cloneSched => some (p,.rolling (.scratch p.limits p.sched c hits anchor))
  | .rolling loop,.simulateOneSlot => (loop.turn (trained.predict p.regressor) p.limits).map fun loop => (p,.rolling loop)
  | .rolling loop,.writeBack => if loop.free = 0 then some ({p with ephemeral := some loop.rollout},.idle) else none
  | .idle,.admitReq requestId inputLength hashes =>
    some ({p with sched := p.sched.admitReq (ReqProgress.new requestId inputLength)},.queued requestId hashes)
  | .queued requestId hashes,.insertRequest =>
    some ({p with mirror := p.mirror.insertRequest requestId hashes},.mirrored requestId)
  | .mirrored requestId,.promoteOrDrop =>
    some ({p with ephemeral := p.ephemeral.bind fun e => e.admitted requestId},.idle)
  | _,_ => none

-- The locks of the scheduler and of the mirror overlap, so `absorb` is one action.
def stepperStep (p : PCtx ρ τ) : Stepper → StepperAct → Option (PCtx ρ τ × Stepper)
  | .idle,.observeStep batch m => some ({p with regressor := trained.calibrate p.regressor batch (trained.ofMillis m.latency)},.observed m)
  | .observed m,.absorb => some (p.absorb m,.absorbed m)
  | .absorbed m,.storeAnchor => some ({p with lastSseStepId := m.stepId},.stored m)
  | .stored m,.maintain => some ({p with ephemeral := p.ephemeral.bind fun e => e.maintained m},.idle)
  | _,_ => none

-- A rebuild starts from a state that has absorbed the steps up to its anchor.
def AskerAct.carried (line : Timeline) (asker : Asker τ) (carried : List Nat) : AskerAct → List Nat
  | .loadAnchor =>
    match asker with
    | .anchored _ _ _ => List.range line.stored
    | _ => carried
  | _ => carried

-- The F3 check and the pop of the head reach a rollout that is cached.
def StepperAct.carried (line : Timeline) (cached : Bool) (carried : List Nat) : StepperAct → List Nat
  | .maintain => if cached then line.passed::carried else carried
  | _ => carried

namespace Threads

def step (t : Threads ρ τ) : Act → Option (Threads ρ τ)
  | .asker act => (askerStep trained t.ctx t.asker act).map fun (ctx,asker) =>
    ⟨ctx,asker,t.stepper,t.line.after (.asker act),act.carried t.line asker t.carried⟩
  | .stepper act => (stepperStep trained t.ctx t.stepper act).map fun (ctx,stepper) =>
    ⟨ctx,t.asker,stepper,t.line.after (.stepper act),act.carried t.line t.ctx.ephemeral.isSome t.carried⟩

def start (p : PCtx ρ τ) : Threads ρ τ := ⟨p,.idle,.idle,timeline [],[]⟩

def execute (t : Threads ρ τ) (acts : List Act) : Option (Threads ρ τ) := acts.foldlM (step trained) t

-- An interleaving that leads from a fresh context to `t`.
def Interleaving (regressor : ρ) (blockSize tokenBudget : Nat) (acts : List Act) (t : Threads ρ τ) : Prop :=
  Run (fun s act s' => s.step trained act = some s') (start (PCtx.new regressor blockSize tokenBudget)) acts t

end Threads
end Steps

namespace Threads
variable {t t' : Threads ρ τ}

def Quiet (t : Threads ρ τ) : Prop := t.asker.querying = false ∧ t.stepper = .idle

-- A cached rollout is that of the last step, and carries all that are past their
-- section over it.
structure NoStepLost (t : Threads ρ τ) : Prop where
  fresh : t.Quiet → ∀ e, t.ctx.ephemeral = some e → e.sseAnchorStepId = t.ctx.lastSseStepId
  checked : ∀ e, t.ctx.ephemeral = some e → ∀ n, n < t.line.passed → n ∈ t.carried

-- A rollout that carries the first `upTo` steps. Between the store of a step id
-- and the section over the cached rollout its anchor may lag behind.
structure Carries (t : Threads ρ τ) (upTo anchor : Nat) : Prop where
  exact : ∀ n, n ∈ t.carried ↔ n < upTo
  fresh : t.line.stored ≤ upTo → anchor = t.ctx.lastSseStepId

-- What holds of every interleaving whose queries have been punctual so far.
structure Accounted (t : Threads ρ τ) : Prop where
  stored : ∀ m, t.stepper = .stored m → t.ctx.lastSseStepId = m.stepId ∧ t.line.stored = t.line.passed+1
  paced : (∀ m, t.stepper ≠ .stored m) → t.line.stored = t.line.passed
  kept : t.line.kept ≤ t.line.passed
  anchored : t.line.anchored ≤ t.line.stored
  rebuilt : t.line.rebuilt ≤ t.line.stored
  emptied : t.asker.emptied = true → t.ctx.ephemeral = none
  cached : ∀ e, t.ctx.ephemeral = some e → t.Carries (max t.line.passed t.line.rebuilt) e.sseAnchorStepId
  reused : ∀ c hits b, t.asker = .taken c hits (some b) → ∀ n, n ∈ t.carried ↔ n < max t.line.kept t.line.rebuilt
  rebuilding : ∀ c hits anchor, t.asker = .anchored c hits anchor → t.Carries t.line.anchored anchor
  rolling : ∀ loop, t.asker = .rolling loop → t.Carries (max t.line.kept t.line.rebuilt) loop.anchor

end Threads

theorem Rolling.turn_anchor {predict : BatchForPredictor → τ} {limits : StepLimits} {loop next : Rolling τ}
    (turned : loop.turn predict limits = some next) : next.anchor = loop.anchor := by
  unfold Rolling.turn at turned
  split at turned
  · cases turned
  · split at turned
    · cases turned
      rfl
    · cases turned
      rfl

theorem maintained_anchor {e e' : EphemeralRollout τ} {m : EngineStepOutput} (result : e.maintained m = some e') :
    e'.sseAnchorStepId = m.stepId := by
  obtain ⟨_,_,rfl⟩ := EphemeralRollout.maintained_cases result
  rfl

namespace Threads
variable {t t' : Threads ρ τ}

theorem accounted_start (p : PCtx ρ τ) (bare : p.ephemeral = none) : Accounted (start p) where
  stored _ here := nomatch here
  paced _ := rfl
  kept := Nat.le_refl _
  anchored := Nat.le_refl _
  rebuilt := Nat.le_refl _
  emptied _ := bare
  cached _ held := nomatch bare.symm.trans held
  reused _ _ _ here := nomatch here
  rebuilding _ _ _ here := nomatch here
  rolling _ here := nomatch here

-- Both clauses of a rollout are about what the thread of steps does not change here.
theorem Carries.moved {upTo anchor : Nat} (carries : t.Carries upTo anchor) (carried : t'.carried = t.carried)
    (stored : t'.line.stored = t.line.stored) (last : t'.ctx.lastSseStepId = t.ctx.lastSseStepId) : t'.Carries upTo anchor :=
  ⟨fun n => carried ▸ carries.exact n,fun late => (carries.fresh (stored ▸ late)).trans last.symm⟩

theorem Accounted.asker {act : AskerAct} (accounted : t.Accounted) (taken : t.step trained (.asker act) = some t')
    (punctual : act = .writeBack → t.line.Punctual) : t'.Accounted := by
  obtain ⟨p,asker,stepper,line,carried⟩ := t
  obtain ⟨⟨p',asker'⟩,moved,rfl⟩ := Option.map_eq_some_iff.mp taken
  obtain ⟨stored,paced,kept,anchored,rebuilt,emptied,cached,reused,rebuilding,rolling⟩ := accounted
  dsimp only at moved stored paced kept anchored rebuilt emptied cached reused rebuilding rolling punctual
  unfold askerStep at moved
  split at moved
  case h_1 =>
    cases moved
    exact ⟨stored,paced,kept,anchored,rebuilt,nofun,fun e held => (cached e held).moved rfl rfl rfl,nofun,nofun,nofun⟩
  case h_2 =>
    cases moved
    refine ⟨stored,paced,Nat.le_refl _,anchored,rebuilt,fun _ => rfl,nofun,fun c hits b here => ?_,nofun,nofun⟩
    -- The baseline is that of the rollout that was cached.
    obtain ⟨-,-,recovered⟩ := Asker.taken.inj here
    obtain ⟨e,held,-⟩ := Option.bind_eq_some_iff.mp recovered
    exact (cached e held).exact
  case h_3 =>
    cases moved
    refine ⟨stored,paced,kept,Nat.le_refl _,rebuilt,fun _ => emptied rfl,fun e held => ?_,nofun,fun c hits anchor here => ?_,nofun⟩
    · cases (emptied rfl).symm.trans held
    · cases here
      exact ⟨fun n => List.mem_range,fun _ => rfl⟩
  case h_4 =>
    cases moved
    refine ⟨stored,paced,kept,Nat.le_refl _,rebuilt,fun _ => emptied rfl,fun e held => ?_,nofun,nofun,fun loop here => ?_⟩
    · cases (emptied rfl).symm.trans held
    · cases here
      exact ⟨reused _ _ _ rfl,fun _ => rfl⟩
  case h_5 =>
    cases moved
    refine ⟨stored,paced,Nat.zero_le _,anchored,anchored,fun _ => emptied rfl,fun e held => ?_,nofun,nofun,fun loop here => ?_⟩
    · cases (emptied rfl).symm.trans held
    · cases here
      have carries := rebuilding _ _ _ rfl
      exact ⟨fun n => (carries.exact n).trans (by simp [Timeline.after]),fun late => carries.fresh (by simpa [Timeline.after] using late)⟩
  case h_6 =>
    obtain ⟨next,turned,equal⟩ := Option.map_eq_some_iff.mp moved
    cases equal
    refine ⟨stored,paced,kept,anchored,rebuilt,fun _ => emptied rfl,fun e held => ?_,nofun,nofun,fun loop here => ?_⟩
    · cases (emptied rfl).symm.trans held
    · cases here
      rw [Rolling.turn_anchor turned]
      exact (rolling _ rfl).moved rfl rfl rfl
  case h_7 =>
    split at moved
    · cases moved
      refine ⟨stored,paced,kept,anchored,rebuilt,nofun,fun e held => ?_,nofun,nofun,nofun⟩
      cases held
      -- A punctual query carries all that are past: they are not more than it kept.
      have same : max line.kept line.rebuilt = max line.passed line.rebuilt := by
        have bound : line.passed ≤ max line.kept line.rebuilt := punctual rfl
        omega
      exact same ▸ (rolling _ rfl).moved rfl rfl rfl
    · cases moved
  case h_8 | h_9 =>
    cases moved
    exact ⟨stored,paced,kept,anchored,rebuilt,nofun,fun e held => (cached e held).moved rfl rfl rfl,nofun,nofun,nofun⟩
  case h_10 =>
    cases moved
    refine ⟨stored,paced,kept,anchored,rebuilt,nofun,fun e held => ?_,nofun,nofun,nofun⟩
    obtain ⟨old,before,result⟩ := Option.bind_eq_some_iff.mp held
    obtain ⟨_,rfl⟩ := EphemeralRollout.admitted_cases result
    exact (cached old before).moved rfl rfl rfl
  case h_11 => cases moved

theorem Accounted.stepper {act : StepperAct} (accounted : t.Accounted) (taken : t.step trained (.stepper act) = some t') : t'.Accounted := by
  obtain ⟨p,asker,stepper,line,carried⟩ := t
  obtain ⟨⟨p',stepper'⟩,moved,rfl⟩ := Option.map_eq_some_iff.mp taken
  obtain ⟨stored,paced,kept,anchored,rebuilt,emptied,cached,reused,rebuilding,rolling⟩ := accounted
  dsimp only at moved stored paced kept anchored rebuilt emptied cached reused rebuilding rolling
  unfold stepperStep at moved
  split at moved
  case h_1 | h_2 =>
    cases moved
    exact ⟨nofun,fun _ => paced nofun,kept,anchored,rebuilt,emptied,fun e held => (cached e held).moved rfl rfl rfl,reused,
      fun c hits anchor here => (rebuilding c hits anchor here).moved rfl rfl rfl,fun loop here => (rolling loop here).moved rfl rfl rfl⟩
  case h_3 =>
    cases moved
    have level : line.stored = line.passed := paced nofun
    -- Nobody carries the step whose id is stored now, so that no anchor has to be its id yet.
    refine ⟨fun m here => ?_,fun between => absurd rfl (between _),kept,Nat.le_succ_of_le anchored,Nat.le_succ_of_le rebuilt,emptied,
      fun e held => ⟨(cached e held).exact,fun late => ?_⟩,reused,fun c hits anchor here => ⟨(rebuilding c hits anchor here).exact,fun late => ?_⟩,
      fun loop here => ⟨(rolling loop here).exact,fun late => ?_⟩⟩
    · cases here
      exact ⟨rfl,congrArg Nat.succ level⟩
    all_goals
      simp only [Timeline.after] at late
      omega
  case h_4 m =>
    cases moved
    obtain ⟨last,ahead⟩ := stored _ rfl
    refine ⟨nofun,fun _ => ahead,Nat.le_succ_of_le kept,anchored,rebuilt,fun out => ?_,fun e held => ?_,fun c hits b here => ?_,
      fun c hits anchor here => ?_,fun loop here => ?_⟩
    · simp [emptied out]
    · obtain ⟨old,before,result⟩ := Option.bind_eq_some_iff.mp held
      refine ⟨fun n => ?_,fun _ => (maintained_anchor result).trans last.symm⟩
      have carries := (cached old before).exact n
      simp only [StepperAct.carried,before,Option.isSome_some,if_true,List.mem_cons,carries,Timeline.after]
      omega
    · change asker = _ at here
      have bare : p.ephemeral = none := emptied (by rw [here]; rfl)
      simpa [StepperAct.carried,bare,Timeline.after] using reused c hits b here
    · change asker = _ at here
      have bare : p.ephemeral = none := emptied (by rw [here]; rfl)
      exact (rebuilding c hits anchor here).moved (by simp [StepperAct.carried,bare]) rfl rfl
    · change asker = _ at here
      have bare : p.ephemeral = none := emptied (by rw [here]; rfl)
      exact (rolling loop here).moved (by simp [StepperAct.carried,bare]) rfl rfl
  case h_5 => cases moved

theorem Accounted.step {act : Act} (accounted : t.Accounted) (taken : t.step trained act = some t')
    (punctual : act = .asker .writeBack → t.line.Punctual) : t'.Accounted := by
  cases act with
  | asker act => exact accounted.asker taken fun writes => punctual (by rw [writes])
  | stepper act => exact accounted.stepper taken

theorem Accounted.noStepLost (accounted : t.Accounted) : t.NoStepLost := by
  refine ⟨fun quiet e held => ?_,fun e held n past => ?_⟩
  · have level := accounted.paced fun m here => nomatch quiet.2.symm.trans here
    exact (accounted.cached e held).fresh (level ▸ Nat.le_max_left _ _)
  · exact ((accounted.cached e held).exact n).mpr (Nat.lt_of_lt_of_le past (Nat.le_max_left _ _))

theorem writeBack_cases {p p' : PCtx ρ τ} {asker asker' : Asker τ} (moved : askerStep trained p asker .writeBack = some (p',asker')) :
    ∃ loop, asker = .rolling loop ∧ p'.ephemeral = some loop.rollout := by
  cases asker with
  | rolling loop =>
    simp only [askerStep] at moved
    split at moved
    · cases moved
      exact ⟨loop,rfl,rfl⟩
    · cases moved
  | taken c hits baseline =>
    cases baseline with
    | none => cases moved
    | some taken => cases moved
  | _ => cases moved

-- The last step that is past its section is carried, so it is among the first ones
-- that the query kept or rebuilt.
theorem Accounted.punctual (accounted : t.Accounted) (taken : t.step trained (.asker .writeBack) = some t') (kept : t'.NoStepLost) :
    t.line.Punctual := by
  obtain ⟨⟨p',asker'⟩,moved,rfl⟩ := Option.map_eq_some_iff.mp taken
  obtain ⟨loop,here,held⟩ := writeBack_cases moved
  have carries := (accounted.rolling loop here).exact
  unfold Timeline.Punctual
  cases passed : t.line.passed with
  | zero => exact Nat.zero_le _
  | succ n => exact (carries n).mp (kept.checked _ held n (show n < t.line.passed from passed ▸ Nat.lt_succ_self n))

section Interleavings
variable {regressor : ρ} {blockSize tokenBudget : Nat} {acts : List Act}

theorem line_eq (run : Interleaving trained regressor blockSize tokenBudget acts t) : t.line = timeline acts := by
  refine Run.invariant (I := fun past t => t.line = timeline past) run rfl fun past s act s' same taken => ?_
  rw [timeline,List.foldl_append]
  cases act with
  | asker act =>
    obtain ⟨_,_,rfl⟩ := Option.map_eq_some_iff.mp taken
    exact congrArg (·.after (.asker act)) same
  | stepper act =>
    obtain ⟨_,_,rfl⟩ := Option.map_eq_some_iff.mp taken
    exact congrArg (·.after (.stepper act)) same

theorem accounted_interleaving (run : Interleaving trained regressor blockSize tokenBudget acts t)
    (punctual : ∀ past s s', past++[.asker .writeBack] <+: acts → Interleaving trained regressor blockSize tokenBudget past s →
      s.step trained (.asker .writeBack) = some s' → s.Accounted → s.line.Punctual) : t.Accounted := by
  suffices kept : Interleaving trained regressor blockSize tokenBudget acts t ∧ (acts <+: acts → t.Accounted) from kept.2 List.prefix_rfl
  refine Run.invariant (I := fun past t => Interleaving trained regressor blockSize tokenBudget past t ∧ (past <+: acts → t.Accounted)) run
    ⟨.start,fun _ => accounted_start _ rfl⟩ ?_
  rintro past s act s' ⟨run,accounted⟩ taken
  refine ⟨.next run taken,fun before => ?_⟩
  have now := accounted ((List.prefix_append _ _).trans before)
  refine now.step taken ?_
  rintro rfl
  exact punctual past s s' before run taken now

end Interleavings

-- No run loses a step exactly when every query that writes back is punctual.
theorem no_step_lost_iff (trained : TrainedPredictor ρ τ) (regressor : ρ) (blockSize tokenBudget : Nat) (acts : List Act) :
    (∀ past t, past <+: acts → Interleaving trained regressor blockSize tokenBudget past t → t.NoStepLost) ↔
      ∀ past t t', past++[.asker .writeBack] <+: acts → Interleaving trained regressor blockSize tokenBudget past t →
        t.step trained (.asker .writeBack) = some t' → (timeline past).Punctual := by
  constructor
  · intro kept past t t' before run taken
    have accounted : t.Accounted := by
      refine accounted_interleaving run fun earlier s s' within ran written now => ?_
      have inside := within.trans ((List.prefix_append past _).trans before)
      exact now.punctual written (kept _ s' inside (.next ran written))
    rw [← line_eq run]
    exact accounted.punctual taken (kept _ t' before (.next run taken))
  · intro punctual past t before run
    refine (accounted_interleaving run fun earlier s s' within ran written _ => ?_).noStepLost
    rw [line_eq ran]
    exact punctual earlier s s' (within.trans before) ran written

-- A whole step passes between taking a baseline out and loading the anchor.
example : ¬(timeline [.asker .take,.stepper .storeAnchor,.stepper .maintain,.asker .loadAnchor]).Punctual := by decide

-- A rebuild that could load the id of the step on its way loses nothing.
example : (timeline [.asker .take,.stepper .storeAnchor,.asker .loadAnchor,.asker .cloneSched,.stepper .maintain]).Punctual := by decide

theorem interleaving_of_execute {regressor : ρ} {blockSize tokenBudget : Nat} {acts : List Act}
    (ran : (start (PCtx.new regressor blockSize tokenBudget)).execute trained acts = some t) :
    Interleaving trained regressor blockSize tokenBudget acts t := by
  induction acts using List.reverseRecOn generalizing t with
  | nil =>
    cases ran
    exact .start
  | append_singleton acts act ih =>
    simp only [execute,List.foldlM_append,List.foldlM_cons,List.foldlM_nil,bind_pure] at ran
    obtain ⟨middle,before,taken⟩ := Option.bind_eq_some_iff.mp ran
    exact .next (ih before) taken

section Alone
variable (trained)

theorem execute_append (acts more : List Act) :
    t.execute trained (acts++more) = (t.execute trained acts).bind fun t => t.execute trained more := by
  simp only [execute,List.foldlM_append]
  rfl

-- Turn by turn the loop comes to what `scheduleLoop` computes at once.
theorem turns_alone (p : PCtx ρ τ) (stepper : Stepper) (line : Timeline) (carried : List Nat) (loop : Rolling τ) :
    ∃ turns, execute trained ⟨p,.rolling loop,stepper,line,carried⟩ (List.replicate turns (.asker .simulateOneSlot)) =
      some ⟨p,.rolling {loop with
        buffer := (scheduleLoop (trained.predict p.regressor) p.limits loop.candidateId loop.free loop.sched loop.buffer).1
        sched := (scheduleLoop (trained.predict p.regressor) p.limits loop.candidateId loop.free loop.sched loop.buffer).2
        free := 0},stepper,line,carried⟩ := by
  obtain ⟨candidateId,anchor,savepoint,buffer,sched,free⟩ := loop
  induction free generalizing buffer sched with
  | zero => exact ⟨0,rfl⟩
  | succ free ih =>
    unfold scheduleLoop
    cases turned : simulateOneSlot (trained.predict p.regressor) p.limits sched buffer.slots.length candidateId buffer with
    | mk sched' rest =>
      obtain ⟨buffer',slot⟩ := rest
      cases slot with
      | none =>
        refine ⟨1,?_⟩
        simp [execute,step,askerStep,Rolling.turn,turned,AskerAct.carried,Timeline.after]
      | some slot =>
        simp only
        split
        · rename_i decoding
          refine ⟨1,?_⟩
          simp [execute,step,askerStep,Rolling.turn,turned,AskerAct.carried,Timeline.after,decoding]
        · rename_i decoding
          obtain ⟨turns,later⟩ := ih {buffer' with slots := buffer'.slots++[slot]} sched'
          refine ⟨turns+1,?_⟩
          rw [List.replicate_succ,← List.singleton_append,execute_append]
          have first : execute trained ⟨p,.rolling ⟨candidateId,anchor,savepoint,buffer,sched,free+1⟩,stepper,line,carried⟩
              [.asker .simulateOneSlot] = some ⟨p,.rolling ⟨candidateId,anchor,savepoint,
                {buffer' with slots := buffer'.slots++[slot]},sched',free⟩,stepper,line,carried⟩ := by
            simp [execute,step,askerStep,Rolling.turn,turned,AskerAct.carried,Timeline.after,decoding]
          rw [first]
          exact later

theorem loop_alone (p : PCtx ρ τ) (stepper : Stepper) (line : Timeline) (carried : List Nat) (loop : Rolling τ) :
    ∃ acts, execute trained ⟨p,.rolling loop,stepper,line,carried⟩ acts = some ⟨{p with ephemeral := some ⟨some loop.candidateId,
      (scheduleLoop (trained.predict p.regressor) p.limits loop.candidateId loop.free loop.sched loop.buffer).1,loop.anchor,
      (scheduleLoop (trained.predict p.regressor) p.limits loop.candidateId loop.free loop.sched loop.buffer).2,loop.savepoint⟩},
      .idle,stepper,line,carried⟩ := by
  obtain ⟨turns,ran⟩ := turns_alone trained p stepper line carried loop
  refine ⟨List.replicate turns (.asker .simulateOneSlot)++[.asker .writeBack],?_⟩
  rw [execute_append,ran]
  rfl

variable [Zero τ] [Add τ]

-- A call that meets no other leaves the context that the call alone computes.
theorem ask_alone (p : PCtx ρ τ) (stepper : Stepper) (line : Timeline) (carried : List Nat) (c : Candidate) :
    ∃ acts line' carried', execute trained ⟨p,.idle,stepper,line,carried⟩ acts = some ⟨(p.ask trained c).1,.idle,stepper,line',carried'⟩ := by
  have opening : execute trained ⟨p,.idle,stepper,line,carried⟩ [.asker (.prefixMatch c),.asker .take] =
      some ⟨{p with ephemeral := none},.taken c (max c.sctxPrefixHits (p.mirror.prefixMatch c.hashes))
        (p.ephemeral.bind EphemeralRollout.recover),stepper,{line with kept := line.passed},carried⟩ := rfl
  unfold PCtx.ask PCtx.query
  cases baseline : p.ephemeral.bind EphemeralRollout.recover with
  | none =>
    rw [baseline] at opening
    obtain ⟨acts,ran⟩ := loop_alone trained {p with ephemeral := none} stepper
      {line with kept := 0,anchored := line.stored,rebuilt := line.stored} (List.range line.stored)
      (.scratch p.limits p.sched c (max c.sctxPrefixHits (p.mirror.prefixMatch c.hashes)) p.lastSseStepId)
    refine ⟨([.asker (.prefixMatch c),.asker .take]++[.asker .loadAnchor,.asker .cloneSched])++acts,
      {line with kept := 0,anchored := line.stored,rebuilt := line.stored},List.range line.stored,?_⟩
    rw [execute_append,execute_append,opening]
    exact ran
  | some taken =>
    obtain ⟨b,anchor,tail⟩ := taken
    rw [baseline] at opening
    obtain ⟨acts,ran⟩ := loop_alone trained {p with ephemeral := none} stepper {line with kept := line.passed,anchored := line.stored} carried
      (.extending p.limits b tail c (max c.sctxPrefixHits (p.mirror.prefixMatch c.hashes)) p.lastSseStepId)
    refine ⟨([.asker (.prefixMatch c),.asker .take]++[.asker .loadAnchor])++acts,
      {line with kept := line.passed,anchored := line.stored},carried,?_⟩
    rw [execute_append,execute_append,opening]
    exact ran

theorem call_alone (p : PCtx ρ τ) (line : Timeline) (carried : List Nat) (call : PCtxCall) :
    ∃ acts line' carried', execute trained ⟨p,.idle,.idle,line,carried⟩ acts = some ⟨p.call trained call,.idle,.idle,line',carried'⟩ := by
  cases call with
  | query c => exact ask_alone trained p .idle line carried c
  | onAdmit requestId inputLength hashes =>
    exact ⟨[.asker (.admitReq requestId inputLength hashes),.asker .insertRequest,.asker .promoteOrDrop],_,_,rfl⟩
  | onSse batch m =>
    exact ⟨[.stepper (.observeStep batch m),.stepper .absorb,.stepper .storeAnchor,.stepper .maintain],_,_,rfl⟩

-- Every history of calls one after another is among the interleavings.
theorem history_interleaves (regressor : ρ) (blockSize tokenBudget : Nat) (calls : List PCtxCall) :
    ∃ acts line carried, Interleaving trained regressor blockSize tokenBudget acts
      ⟨PCtx.after trained (PCtx.new regressor blockSize tokenBudget) calls,.idle,.idle,line,carried⟩ := by
  suffices ran : ∃ acts line carried, (start (PCtx.new regressor blockSize tokenBudget)).execute trained acts =
      some ⟨PCtx.after trained (PCtx.new regressor blockSize tokenBudget) calls,.idle,.idle,line,carried⟩ by
    obtain ⟨acts,line,carried,ran⟩ := ran
    exact ⟨acts,line,carried,interleaving_of_execute ran⟩
  induction calls using List.reverseRecOn with
  | nil => exact ⟨[],_,_,rfl⟩
  | append_singleton calls call ih =>
    obtain ⟨acts,line,carried,ran⟩ := ih
    obtain ⟨more,line',carried',next⟩ := call_alone trained
      (PCtx.after trained (PCtx.new regressor blockSize tokenBudget) calls) line carried call
    refine ⟨acts++more,line',carried',?_⟩
    rw [execute_append,ran]
    unfold PCtx.after
    rw [List.foldl_append]
    exact next

end Alone

-- A step runs from its first section to its last while a query holds its rollout.
def overtaken : List Act :=
  [.asker (.prefixMatch ⟨1,20,[],0⟩),.asker .take,.asker .loadAnchor,
    .stepper (.observeStep ⟨0,0,[],[],[],0⟩ ⟨0,1,[],[],[],[],[],[],[],1⟩),.stepper .absorb,.stepper .storeAnchor,.stepper .maintain,
    .asker .cloneSched,.asker .simulateOneSlot,.asker .simulateOneSlot,.asker .writeBack]

theorem overtaken_query_keeps_old_anchor : ∃ t, Interleaving PCtx.tokenPredictor () 16 1024 overtaken t ∧ t.Quiet ∧
    ∃ e, t.ctx.ephemeral = some e ∧ e.sseAnchorStepId ≠ t.ctx.lastSseStepId := by
  have ends : ((start (PCtx.new () 16 1024)).execute PCtx.tokenPredictor overtaken).map (fun t =>
      ((t.asker.querying,t.stepper),t.ctx.ephemeral.map fun e => e.sseAnchorStepId,t.ctx.lastSseStepId)) =
        some ((false,.idle),some 0,1) := by decide
  obtain ⟨t,ran,last⟩ := Option.map_eq_some_iff.mp ends
  simp only [Prod.mk.injEq,Option.map_eq_some_iff] at last
  obtain ⟨quiet,⟨e,held,anchor⟩,stored⟩ := last
  exact ⟨t,interleaving_of_execute ran,quiet,e,held,by omega⟩

end Threads
end BlitzRouter
