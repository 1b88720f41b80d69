import BlitzRouter.PhaseTracking

namespace BlitzRouter
open Radix CompletionLoop

-- The transitions that a debug build lets through.
def RequestPhase.Legal : RequestPhase → SseState → Prop
  | .waiting,.prefill => True
  | .prefilling,.prefill => True
  | .waiting,.decode => True
  | .prefilling,.decode => True
  | .decoding,.decode => True
  | _,_ => False

-- Where the engine stands with a request. A preemption while decoding sends it
-- back to its prefill.
inductive EngineStage where
  | waiting
  | prefilling
  | decoding
  | preempted
  | ended
deriving DecidableEq,Repr

namespace EngineStage

-- `none` is an output outside of the life cycle.
def output (stage : EngineStage) (o : RequestStepOutput) : Option EngineStage :=
  match stage,o.state with
  | .ended,_ => none
  | .decoding,.prefill => none
  | .preempted,.decode => none
  | _,.prefill => some (if o.isFinished then .ended else .prefilling)
  | _,.decode => some (if o.isFinished then .ended else .decoding)
  | _,.other _ => none

def preempt : EngineStage → EngineStage
  | .prefilling => .waiting
  | .decoding => .preempted
  | stage => stage

end EngineStage

abbrev Engine := RequestId → EngineStage

namespace Engine

def outputs (engine : Engine) : List RequestStepOutput → Option Engine
  | [] => some engine
  | o::rest => do
    let stage ← (engine o.requestId).output o
    outputs (Function.update engine o.requestId stage) rest

def step (engine : Engine) (m : EngineStepOutput) : Option Engine :=
  (engine.outputs m.outputs).map fun engine id => if id ∈ m.preemptedIds then (engine id).preempt else engine id

-- The engine moves with the steps that the loop receives.
def after (engine : Engine) : Action → Option Engine
  | .recvStep m => engine.step m
  | _ => some engine

end Engine

namespace CompletionLoop
variable {ext : External} {s s' : CompletionLoop} {o : RequestStepOutput} {engine next : Engine} {id : RequestId}
  {outputs : List RequestStepOutput} {m : EngineStepOutput} {errors : List RequestId} {left : List Entry}

-- Every transition the slow path asks for, one output after the other.
def LegalTransitions (ext : External) : CompletionLoop → List RequestStepOutput → Prop
  | _,[] => True
  | s,o::rest => (∀ phase, s.requestPhases.lookup o.requestId = some phase → phase.Legal o.state) ∧
      ∀ s', s.passOutput ext o = .ok s' → LegalTransitions ext s' rest

-- A request on record as decoding has been decoding.
def Agrees (s : CompletionLoop) (engine : Engine) : Prop :=
  ∀ id, s.requestPhases.lookup id = some .decoding → engine id = .decoding ∨ engine id = .preempted ∨ engine id = .ended

-- No output for a request that was preempted while decoding and is still in
-- `entries`, nor for one that is on record as an exception.
def Undisturbed (s : CompletionLoop) (engine : Engine) (outputs : List RequestStepOutput) : Prop :=
  ∀ o ∈ outputs, ((s.entries.lookup o.requestId).isSome = true → engine o.requestId ≠ .preempted) ∧
    (s.entries.lookup o.requestId = none → s.requestPhases.lookup o.requestId = none)

theorem Agrees.fewer (agrees : s.Agrees engine)
    (rows : ∀ id, s'.requestPhases.lookup id = some .decoding → s.requestPhases.lookup id = some .decoding) : s'.Agrees engine :=
  fun id row => agrees id (rows id row)

theorem legal_output {phase : RequestPhase} {stage stage' : EngineStage} (moved : stage.output o = some stage')
    (normal : phase ≠ .excepted) (resumed : stage ≠ .preempted) (agrees : phase = .decoding → stage = .decoding ∨ stage = .ended) :
    phase.Legal o.state := by
  unfold EngineStage.output at moved
  cases phase <;> cases stage <;> cases state : o.state <;> simp_all [RequestPhase.Legal]

theorem decoded_output {phase : RequestPhase} {stage stage' : EngineStage} (moved : stage.output o = some stage')
    (advanced : phase.transition id o.state = .ok .decoding) : stage' = .decoding ∨ stage' = .ended := by
  unfold EngineStage.output at moved
  cases state : o.state with
  | prefill => cases phase <;> simp [RequestPhase.transition,state] at advanced
  | decode => cases stage <;> cases ends : o.isFinished <;> simp_all
  | other text => cases stage <;> simp_all

theorem ran_output {stage stage' : EngineStage} (moved : stage.output o = some stage') : stage' ≠ .preempted := by
  unfold EngineStage.output at moved
  rintro rfl
  cases stage <;> cases state : o.state <;> cases ends : o.isFinished <;> simp_all

-- One output: its transition is legal, and what the loop records goes along with
-- the engine.
theorem Phased.passes (phased : s.Phased) (agrees : s.Agrees engine) (undisturbed : s.Undisturbed engine (o::outputs))
    {stage : EngineStage} (moved : (engine o.requestId).output o = some stage) :
    (∀ phase, s.requestPhases.lookup o.requestId = some phase → phase.Legal o.state) ∧
      ∀ s', Passed s o s' → s'.Phased ∧ s'.Agrees (Function.update engine o.requestId stage) ∧
        s'.Undisturbed (Function.update engine o.requestId stage) outputs := by
  obtain ⟨resumed,recorded⟩ := undisturbed o List.mem_cons_self
  constructor
  · intro phase found
    have inside : (s.entries.lookup o.requestId).isSome = true := by
      cases kept : s.entries.lookup o.requestId with
      | some entry => rfl
      | none => rw [recorded kept] at found; cases found
    obtain ⟨phase',found',normal⟩ := phased.normal _ inside
    rw [found] at found'
    cases found'
    refine legal_output moved normal (resumed inside) ?_
    rintro rfl
    exact (agrees _ found).imp_right fun other => other.resolve_left (resumed inside)
  · intro s' step
    have tracked := step.tracked
    refine ⟨step.phased phased,?_,?_⟩
    · intro id row
      by_cases same : id = o.requestId
      · subst same
        rw [Function.update_self]
        have decoded : ∃ phase : RequestPhase, phase.transition o.requestId o.state = .ok .decoding := by
          cases step with
          | unknown phases absent advanced =>
            obtain ⟨phase,_,transition⟩ := (advanced.own _).mp row
            exact ⟨phase,transition⟩
          | update entry new phases cancel found goes account choice advanced =>
            obtain ⟨phase,_,transition⟩ := (advanced.own _).mp row
            exact ⟨phase,transition⟩
          | finish entry new phases cancel found ends account same advanced => simp at row
        obtain ⟨phase,transition⟩ := decoded
        exact (decoded_output moved transition).imp_right .inr
      · rw [Function.update_of_ne same]
        refine agrees id ?_
        cases step with
        | unknown phases absent advanced => rwa [← advanced.others id same]
        | update entry new phases cancel found goes account choice advanced => rwa [← advanced.others id same]
        | finish entry new phases cancel found ends account own advanced =>
          rw [← advanced.others id same]
          simpa [AList.lookup_erase_ne same] using row
    · intro p member
      obtain ⟨resumed',recorded'⟩ := undisturbed p (List.mem_cons_of_mem o member)
      constructor
      · intro inside
        by_cases same : p.requestId = o.requestId
        · rw [same,Function.update_self]
          exact ran_output moved
        · rw [Function.update_of_ne same]
          exact resumed' ((tracked _).mp inside).1
      · intro outside
        cases step with
        | unknown phases absent advanced =>
          have rows := advanced.rows p.requestId
          rw [recorded' outside] at rows
          simpa using rows
        | update entry new phases cancel found goes account choice advanced =>
          have differs : p.requestId ≠ o.requestId := by intro same; simp [same] at outside
          simp only [AList.lookup_insert_ne differs] at outside
          rw [advanced.others _ differs]
          exact recorded' outside
        | finish entry new phases cancel found ends account own advanced =>
          by_cases same : p.requestId = o.requestId
          · rw [same]
            simp only [AList.lookup_erase]
          · simp only [AList.lookup_erase_ne same] at outside ⊢
            rw [advanced.others _ same]
            exact recorded' outside

-- Induction on the outputs of the step.
theorem Phased.slowPath_legal (phased : s.Phased) (agrees : s.Agrees engine) (undisturbed : s.Undisturbed engine outputs)
    (ran : engine.outputs outputs = some next) :
    LegalTransitions ext s outputs ∧ ∀ s', s.slowPath ext outputs = .ok s' → s'.Agrees next := by
  induction outputs generalizing s engine with
  | nil =>
    cases ran
    refine ⟨trivial,?_⟩
    intro s' result
    cases result
    exact agrees
  | cons o rest ih =>
    cases moved : (engine o.requestId).output o with
    | none => simp [Engine.outputs,moved] at ran
    | some stage =>
      simp only [Engine.outputs,moved,Option.bind_eq_bind,Option.bind_some] at ran
      obtain ⟨legal,passes⟩ := phased.passes agrees undisturbed moved
      have later : ∀ s₁, s.passOutput ext o = .ok s₁ →
          LegalTransitions ext s₁ rest ∧ ∀ s', s₁.slowPath ext rest = .ok s' → s'.Agrees next := by
        intro s₁ one
        obtain ⟨phased₁,agrees₁,undisturbed₁⟩ := passes s₁ (passed_of one)
        exact ih phased₁ agrees₁ undisturbed₁ ran
      refine ⟨⟨legal,fun s₁ one => (later s₁ one).1⟩,?_⟩
      intro s' result
      cases one : s.passOutput ext o with
      | error panic => rw [slowPath,one] at result; cases result
      | ok s₁ =>
        rw [slowPath,one] at result
        exact (later s₁ one).2 s' result

theorem Moved.decoding_rows (step : Moved s id s') (key : RequestId) (row : s'.requestPhases.lookup key = some .decoding) :
    s.requestPhases.lookup key = some .decoding := by
  cases step with
  | mk entry new st phases skipped found account holds marked =>
    by_cases same : key = id
    · subst same
      simp only [marked.own,Option.map_eq_some_iff] at row
      obtain ⟨_,_,wrong⟩ := row
      cases wrong
    · rwa [← marked.others key same]

theorem erase_row {V : Type} {t : Table RequestId V} {id key : RequestId} {v : V} (row : (t.erase id).lookup key = some v) :
    t.lookup key = some v := by
  have differs : key ≠ id := by rintro rfl; simp at row
  rwa [AList.lookup_erase_ne differs] at row

theorem Sound.passGenerations_agrees (sound : s.Sound) (phased : s.Phased) (agrees : s.Agrees engine)
    (undisturbed : s.Undisturbed engine m.outputs) (ran : engine.step m = some next)
    (result : s.passGenerations ext m errors = .ok (s',left)) : s'.Agrees next := by
  obtain ⟨s₁,s₂,s₃,s₄,s₅,terminated,dropped,slow,aborted,faulted,ended,ends,rfl,rfl⟩ := passGenerations_phases result
  obtain ⟨engine₁,outputs,rfl⟩ := Option.map_eq_some_iff.mp ran
  have agrees₁ : s₁.Agrees engine₁ := (phased.slowPath_legal agrees undisturbed outputs).2 s₁ slow
  have sound₁ : Sound {s₁ with cancelReqIds := []} := (sound.passing slow).sound.uncancelled
  have agrees₂ : s₂.Agrees engine₁ := onFrontendAbort_induct (P := fun s => s.Agrees engine₁) agrees₁
    (fun _ _ _ agrees step => agrees.fewer step.decoding_rows) aborted
  have sound₂ := (sound₁.onFrontendAbort_moving aborted).sound sound₁
  have agrees₃ : s₃.Agrees engine₁ := onBackendFault_induct (P := fun s => s.Agrees engine₁) agrees₂
    (fun _ _ _ agrees step => agrees.fewer step.decoding_rows) faulted
  have sound₃ := (sound₂.onBackendFault_moving faulted).sound sound₂
  have agrees₄ : s₄.Agrees engine₁ := sound₃.terms_induct (P := fun _ s => s.Agrees engine₁) agrees₃
    (fun _ _ _ _ _ _ agrees step => agrees.fewer fun key row => by cases step with | mk st record => exact erase_row row) ended
  obtain ⟨s₆,left',result',_,gone,_,phases⟩ := (sound₃.terms_leaving ended).sound.dropFaulted_leaving
  rw [ends] at result'
  cases result'
  intro id row
  have before : s₄.requestPhases.lookup id = some .decoding := by
    change s₅.requestPhases.lookup id = some .decoding at row
    rw [phases,erases_lookup] at row
    split at row
    · cases row
    · exact row
  have stage := agrees₄ id before
  simp only
  split
  · rcases stage with held | held | held <;> simp [held,EngineStage.preempt]
  · exact stage

end CompletionLoop

-- A replica beside the engine that serves it.
structure Engaged (β : Type) where
  replica : Replica β
  engine : Engine

namespace Engaged
open Replica
variable {β : Type} [BlockHash β] {ext : External} {blockSize : Nat} {x x' : Engaged β} {a : Action} {history : List Action}

def start (context : ScheduleContext β) : Engaged β := ⟨.start context,fun _ => .waiting⟩

-- Each output follows the life cycle of its request.
structure Step (ext : External) (blockSize : Nat) (x : Engaged β) (a : Action) (x' : Engaged β) : Prop where
  taken : x.replica.Step ext blockSize a x'.replica
  engine : x.engine.after a = some x'.engine

-- Outputs come for requests in a normal phase, none of them preempted while it
-- was decoding.
def Undisturbed (x : Engaged β) : Action → Prop
  | .recvStep m => (x.replica.loop.drain x.replica.channel).Undisturbed x.engine m.outputs
  | _ => True

-- What the loop has on record goes along with the engine as it stood before the
-- step that the loop works on.
def Follows (x : Engaged β) : Prop :=
  match stepOf x.replica.stage with
  | none => x.replica.loop.Agrees x.engine
  | some m => ∃ before : Engine, before.step m = some x.engine ∧ x.replica.loop.Agrees before ∧
      x.replica.loop.Undisturbed before m.outputs

theorem Agrees.receive {s : CompletionLoop} {engine : Engine} {entry : Entry} (agrees : s.Agrees engine) :
    (s.receive entry).Agrees engine := by
  intro id row
  unfold CompletionLoop.receive at row
  by_cases same : id = entry.request.requestId
  · subst same
    simp at row
  · exact agrees id (by simpa only [AList.lookup_insert_ne same] using row)

theorem Agrees.drain {s : CompletionLoop} {engine : Engine} (agrees : s.Agrees engine) (posted : List Entry) :
    (s.drain posted).Agrees engine := by
  induction posted generalizing s with
  | nil => exact agrees
  | cons entry rest ih => exact ih (Agrees.receive agrees)

theorem Kept.undisturbed {s s' : CompletionLoop} {engine : Engine} {outputs : List RequestStepOutput} (kept : Kept s s')
    (undisturbed : s.Undisturbed engine outputs) : s'.Undisturbed engine outputs := by
  intro o member
  obtain ⟨resumed,recorded⟩ := undisturbed o member
  have tracked := kept.tracked o.requestId
  refine ⟨fun inside => resumed (tracked ▸ inside),fun outside => ?_⟩
  rw [kept.phases]
  refine recorded ?_
  rw [outside] at tracked
  cases held : s.entries.lookup o.requestId with
  | none => rfl
  | some entry => rw [held] at tracked; cases tracked

theorem follows_step {committed : List RequestId} (owned : Owned committed x.replica) (follows : x.Follows)
    (step : Step ext blockSize x a x') (undisturbed : x.Undisturbed a) : x'.Follows := by
  obtain ⟨⟨enabled,result⟩,engine⟩ := step
  obtain ⟨r',engine'⟩ := x'
  simp only at result engine
  cases a with
  | commit request reads cached =>
    obtain ⟨_,hits,entry,_,_,done⟩ := commit_cases result
    cases engine
    rw [done.result]
    exact follows
  | addRequest => cases result; cases engine; exact follows
  | send => cases result; cases engine; exact follows
  | notify id => cases result; cases engine; exact follows
  | recvStep m =>
    cases result
    have idle : stepOf x.replica.stage = none := by rw [enabled.1]; rfl
    unfold Follows at follows
    rw [idle] at follows
    exact ⟨x.engine,engine,Agrees.drain follows _,undisturbed⟩
  | meter =>
    obtain ⟨m,stage⟩ := enabled
    have working : stepOf x.replica.stage = some m := by rw [stage]; rfl
    unfold Follows at follows
    rw [working] at follows
    obtain ⟨before,ran,agrees,quiet⟩ := follows
    obtain ⟨loop,context,metered,rfl⟩ := perform_meter stage result
    cases engine
    obtain ⟨kept,_⟩ := owned.sound.meter_keeps metered
    exact ⟨before,ran,agrees.fewer fun id row => by rwa [kept.phases] at row,Kept.undisturbed kept quiet⟩
  | deliver =>
    obtain ⟨m,stage⟩ := enabled
    have working : stepOf x.replica.stage = some m := by rw [stage]; rfl
    unfold Follows at follows
    rw [working] at follows
    obtain ⟨before,ran,agrees,quiet⟩ := follows
    obtain ⟨loop,context,delivered,rfl⟩ := perform_deliver stage result
    cases engine
    obtain ⟨left,passed,_⟩ := deliver_cases delivered
    exact owned.sound.passGenerations_agrees owned.phased agrees quiet ran passed

theorem follows_run (context : ScheduleContext β)
    (run : Run (fun x a x' => Step ext blockSize x a x' ∧ x.Undisturbed a) (start context) history x)
    (fresh : (committedIn history).Nodup) : Owned (committedIn history) x.replica ∧ x.Follows := by
  induction run with
  | start => exact ⟨owned_start context,fun _ row => by simp [start,Replica.start,CompletionLoop.new] at row⟩
  | next _ taken ih =>
    rw [committedIn_append] at fresh ⊢
    obtain ⟨before,_,apart⟩ := List.nodup_append.mp fresh
    obtain ⟨owned,follows⟩ := ih before
    exact ⟨(owned.step (fun id member inside => apart id inside id member rfl) taken.1.taken).owned,
      follows_step owned follows taken.1 taken.2⟩

-- In every run whose outputs follow the engine's life cycle and come for requests
-- in a normal phase that were not preempted while decoding, every transition that
-- the slow path asks for is a legal one.
theorem transitions_legal (context : ScheduleContext β)
    (run : Run (fun x a x' => Step ext blockSize x a x' ∧ x.Undisturbed a) (start context) history x)
    (fresh : (committedIn history).Nodup) (m : EngineStepOutput) (stage : x.replica.stage = .metered m) :
    LegalTransitions ext x.replica.loop m.outputs := by
  obtain ⟨owned,follows⟩ := follows_run context run fresh
  have working : stepOf x.replica.stage = some m := by rw [stage]; rfl
  unfold Follows at follows
  rw [working] at follows
  obtain ⟨before,ran,agrees,quiet⟩ := follows
  obtain ⟨engine,outputs,_⟩ := Option.map_eq_some_iff.mp ran
  exact (owned.phased.slowPath_legal agrees quiet outputs).1

def exec (ext : External) (blockSize : Nat) (P : Engaged β → Action → Prop) [∀ x a, Decidable (P x a)] :
    Engaged β → List Action → Option (Engaged β)
  | x,[] => some x
  | x,a::rest =>
    if x.replica.Enabled a ∧ P x a then
      match x.replica.perform ext blockSize a,x.engine.after a with
      | .ok r,some engine => exec ext blockSize P ⟨r,engine⟩ rest
      | _,_ => none
    else none

theorem run_exec {P : Engaged β → Action → Prop} [∀ x a, Decidable (P x a)] {from_ : Engaged β} {past actions : List Action}
    (run : Run (fun x a x' => Step ext blockSize x a x' ∧ P x a) from_ past x) (executed : x.exec ext blockSize P actions = some x') :
    Run (fun x a x' => Step ext blockSize x a x' ∧ P x a) from_ (past++actions) x' := by
  refine run.executed (fun _ => rfl) (fun x a rest t result => ?_) executed
  unfold exec at result
  split at result
  · rename_i allowed
    split at result
    · rename_i r engine done ran
      exact ⟨⟨r,engine⟩,⟨⟨⟨allowed.1,done⟩,ran⟩,allowed.2⟩,result⟩
    · cases result
  · cases result

instance (x : Engaged β) (a : Action) : Decidable (x.Undisturbed a) :=
  match a with
  | .recvStep m => inferInstanceAs (Decidable (∀ o ∈ m.outputs, _ ∧ _))
  | .commit .. | .addRequest | .send | .notify _ | .meter | .deliver => .isTrue trivial

end Engaged

namespace Audit
open Engaged

theorem transitions_legal_decoding : ∃ x : Engaged RadixTreeBlockHash,
    LegalTransitions plainExternal x.replica.loop [plainOutput 1 .decode true [6]] := by
  obtain ⟨x,executed⟩ : ∃ x, (Engaged.start ⟨.empty,RadixTreeBlockHash.new 4⟩).exec plainExternal 16 Engaged.Undisturbed
      [.commit (shortRequest 1) none ⟨0,0⟩,.addRequest,.send,.recvStep (plainStep 1 [plainOutput 1 .prefill false [5]] []),
        .meter,.deliver,.recvStep (plainStep 0 [plainOutput 1 .decode true [6]] []),.meter] = some x :=
    Option.isSome_iff_exists.mp (by decide)
  have stage : x.replica.stage = .metered (plainStep 0 [plainOutput 1 .decode true [6]] []) := by
    have outcome := congrArg (Option.map fun x => x.replica.stage) executed
    exact (Option.some.inj outcome).symm
  exact ⟨x,transitions_legal ⟨.empty,RadixTreeBlockHash.new 4⟩ (Engaged.run_exec .start executed) (by decide) _ stage⟩

-- The client leaves, and the engine goes on decoding.
def decodedAfterAbort : List Action :=
  [.commit (shortRequest 1) (some 1) ⟨0,0⟩,.addRequest,.send,.recvStep (plainStep 1 [plainOutput 1 .prefill false [5]] []),
    .meter,.deliver,.recvStep (plainStep 0 [plainOutput 1 .decode false [6]] []),.meter]

theorem excepted_transition :
    ¬∀ (history : List Action) (x : Engaged RadixTreeBlockHash),
      Run (fun x a x' => Engaged.Step plainExternal 16 x a x' ∧ True) (Engaged.start ⟨.empty,RadixTreeBlockHash.new 4⟩) history x →
      (Replica.committedIn history).Nodup → ∀ m, x.replica.stage = .metered m →
      LegalTransitions plainExternal x.replica.loop m.outputs := by
  intro claimed
  obtain ⟨x,executed⟩ : ∃ x, (Engaged.start ⟨.empty,RadixTreeBlockHash.new 4⟩).exec plainExternal 16 (fun _ _ => True)
      decodedAfterAbort = some x := Option.isSome_iff_exists.mp (by decide)
  have outcome : ((Engaged.start ⟨.empty,RadixTreeBlockHash.new 4⟩).exec plainExternal 16 (fun _ _ => True) decodedAfterAbort).map
      (fun x => (x.replica.stage,x.replica.loop.requestPhases.lookup 1)) =
      some (.metered (plainStep 0 [plainOutput 1 .decode false [6]] []),some .excepted) := by decide
  rw [executed] at outcome
  simp only [Option.map_some,Option.some.injEq,Prod.mk.injEq] at outcome
  have legal := claimed decodedAfterAbort x (Engaged.run_exec .start executed) (by decide) _ outcome.1
  exact legal.1 .excepted outcome.2

end Audit
end BlitzRouter
