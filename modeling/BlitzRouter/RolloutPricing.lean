import BlitzRouter.OnlineCorrection
import BlitzRouter.RolloutConservation
import BlitzRouter.VidurPredictions

namespace BlitzRouter
open SchedSnapshot OnlineCorrection Vidur

variable {ρ τ : Type} {trained : TrainedPredictor ρ τ} {p : PCtx ρ τ} {e : EphemeralRollout τ} {worth : BatchForPredictor → τ → Prop}

-- Every latency of a rollout stands to its batch as `worth` says.
def EphemeralRollout.Priced (worth : BatchForPredictor → τ → Prop) (e : EphemeralRollout τ) : Prop :=
  ∀ slot ∈ e.buffer.slots, worth slot.batch slot.predictedLatMs

def PCtx.Priced (worth : BatchForPredictor → τ → Prop) (p : PCtx ρ τ) : Prop := ∀ e, p.ephemeral = some e → e.Priced worth

section Slots
variable {predict : BatchForPredictor → τ} {limits : StepLimits} {s s' : SchedSnapshot}

theorem simulateOneSlot_priced {slotIdx : Nat} {candidateId : RequestId} {buffer buffer' : RolloutBuffer τ} {slot : RolloutSlot τ}
    (result : simulateOneSlot predict limits s slotIdx candidateId buffer = (s',buffer',some slot)) :
    slot.predictedLatMs = predict slot.batch := by
  unfold simulateOneSlot at result
  split at result
  split at result
  · cases result
  · cases result
    rfl

theorem Simulated.priced {turns : List (SchedSnapshot × RolloutSlot τ)} (run : Simulated predict limits s turns s') :
    ∀ turn ∈ turns, turn.2.predictedLatMs = predict turn.2.batch := by
  induction run with
  | stop => exact fun turn member => absurd member List.not_mem_nil
  | slot step _ ih => exact List.forall_mem_cons.mpr ⟨simulateOneSlot_priced step,ih⟩
  | idle _ _ ih => exact ih

theorem scheduleLoop_priced (fair : ∀ batch, worth batch (predict batch)) (limits : StepLimits) (candidateId : RequestId) (free : Nat)
    (s : SchedSnapshot) (buffer : RolloutBuffer τ) (base : ∀ slot ∈ buffer.slots, worth slot.batch slot.predictedLatMs) :
    ∀ slot ∈ (scheduleLoop predict limits candidateId free s buffer).1.slots, worth slot.batch slot.predictedLatMs := by
  obtain ⟨turns,run,slots⟩ := scheduleLoop_simulated predict limits candidateId free s buffer
  intro slot member
  rw [slots,List.mem_append] at member
  rcases member with old | new
  · exact base slot old
  · obtain ⟨turn,inside,rfl⟩ := List.mem_map.mp new
    exact run.priced turn inside ▸ fair turn.2.batch

end Slots

theorem EphemeralRollout.recover_slots {b : RolloutBuffer τ} {anchor : Nat} {tail : SchedSnapshot}
    (result : e.recover = some (b,anchor,tail)) : ∀ slot ∈ b.slots, slot ∈ e.buffer.slots := by
  unfold EphemeralRollout.recover at result
  split at result
  · cases result
    exact fun slot member => member
  · split at result
    · split at result
      · cases result
        exact fun slot member => List.mem_of_mem_take member
      · cases result
    · cases result

namespace PCtx

theorem Priced.mono {other : BatchForPredictor → τ → Prop} (priced : p.Priced worth) (weaker : ∀ batch v, worth batch v → other batch v) :
    p.Priced other := fun e cached slot member => weaker _ _ (priced e cached slot member)

variable [Zero τ] [Add τ]

theorem Priced.ask (priced : p.Priced worth) (fair : ∀ batch, worth batch (trained.predict p.regressor batch)) (c : Candidate) :
    (p.ask trained c).1.Priced worth := by
  obtain ⟨e,state,_,built⟩ := ask_cases trained p c
  rw [state]
  intro other cached
  cases cached
  rcases built with ⟨b,anchor,tail,recovered,loop,_,_⟩ | ⟨_,loop,_,_⟩
  · obtain ⟨old,held,result⟩ := Option.bind_eq_some_iff.mp recovered
    have base : ∀ slot ∈ b.slots, worth slot.batch slot.predictedLatMs :=
      fun slot member => priced old held slot (EphemeralRollout.recover_slots result slot member)
    have all := scheduleLoop_priced fair p.limits c.id (maxSlots-b.slots.length) (tail.admitReq (p.entering c))
      ⟨some c.id,b.slots,none,none,none⟩ base
    rwa [← loop] at all
  · have all := scheduleLoop_priced fair p.limits c.id maxSlots (p.sched.admitReq (p.entering c)) ⟨some c.id,[],none,none,none⟩
      fun slot member => absurd member List.not_mem_nil
    rwa [← loop] at all

theorem Priced.call (priced : p.Priced worth) (fair : ∀ batch, worth batch (trained.predict p.regressor batch)) (call : PCtxCall) :
    (p.call trained call).Priced worth := by
  cases call with
  | query c => exact priced.ask fair c
  | onAdmit requestId inputLength hashes =>
    intro e' cached
    obtain ⟨e,held,result⟩ := Option.bind_eq_some_iff.mp cached
    obtain ⟨_,rfl⟩ := EphemeralRollout.admitted_cases result
    exact priced e held
  | onSse batch m =>
    intro e' cached
    obtain ⟨e,held,result⟩ := Option.bind_eq_some_iff.mp cached
    obtain ⟨_,_,rfl⟩ := EphemeralRollout.maintained_cases result
    exact fun slot member => priced e held slot (List.mem_of_mem_tail member)

-- A latency comes from the regressor as it stood at some point of the history.
def PredictedWithin (trained : TrainedPredictor ρ τ) (start : PCtx ρ τ) (calls : List PCtxCall) (batch : BatchForPredictor) (v : τ) : Prop :=
  ∃ earlier, earlier <+: calls ∧ v = trained.predict (start.after trained earlier).regressor batch

theorem after_concat (trained : TrainedPredictor ρ τ) (start : PCtx ρ τ) (calls : List PCtxCall) (call : PCtxCall) :
    start.after trained (calls++[call]) = (start.after trained calls).call trained call := by
  rw [after,List.foldl_append]
  rfl

theorem priced_after (trained : TrainedPredictor ρ τ) (regressor : ρ) (blockSize tokenBudget : Nat) (calls : List PCtxCall) :
    (after trained (new regressor blockSize tokenBudget) calls).Priced (PredictedWithin trained (new regressor blockSize tokenBudget) calls) := by
  induction calls using List.reverseRecOn with
  | nil => exact fun e cached => (by cases cached)
  | append_singleton calls call ih =>
    have kept := ih.mono fun batch v ⟨earlier,within,same⟩ => (⟨earlier,within.trans (List.prefix_append _ [call]),same⟩ :
      PredictedWithin trained (new regressor blockSize tokenBudget) (calls++[call]) batch v)
    rw [after_concat]
    exact kept.call (fun batch => ⟨calls,List.prefix_append _ _,rfl⟩) call

theorem priced_forever (worth : BatchForPredictor → τ → Prop) (trained : TrainedPredictor ρ τ)
    (fair : ∀ state batch, worth batch (trained.predict state batch)) (regressor : ρ) (blockSize tokenBudget : Nat) (calls : List PCtxCall) :
    ((new regressor blockSize tokenBudget).after trained calls).Priced worth :=
  (priced_after trained regressor blockSize tokenBudget calls).mono fun batch _ ⟨_,_,same⟩ => same ▸ fair _ batch

-- A latency that is the sum over the slots of a cached rollout, up to the one
-- where the prefill of its candidate ends.
structure Summed (worth : BatchForPredictor → τ → Prop) (p : PCtx ρ τ) (t : τ) (e : EphemeralRollout τ) (last : Nat) : Prop where
  cached : p.ephemeral = some e
  ends : e.buffer.prefillEndStep = some last
  sum : t = ((e.buffer.slots.take (last+1)).map fun slot => slot.predictedLatMs).foldl (·+·) 0
  each : ∀ slot ∈ e.buffer.slots.take (last+1), worth slot.batch slot.predictedLatMs

-- The slots an answer sums over are those of the rollout it leaves behind.
theorem ttft_summed {c : Candidate} {t : τ} (answer : (p.ask trained c).2.ttftMs = some t) (priced : (p.ask trained c).1.Priced worth) :
    ∃ e last, Summed worth (p.ask trained c).1 t e last := by
  obtain ⟨e,state,told,_⟩ := ask_cases trained p c
  have cached : (p.ask trained c).1.ephemeral = some e := by rw [state]
  rw [told] at answer
  obtain ⟨last,ends,sum⟩ := Option.map_eq_some_iff.mp answer
  exact ⟨e,last,cached,ends,sum.symm,fun slot member => priced e cached slot (List.mem_of_mem_take member)⟩

theorem ttft_predicted (trained : TrainedPredictor ρ τ) (regressor : ρ) (blockSize tokenBudget : Nat) (calls : List PCtxCall) (c : Candidate)
    {t : τ} (answer : (((new regressor blockSize tokenBudget).after trained calls).ask trained c).2.ttftMs = some t) :
    ∃ e last, Summed (PredictedWithin trained (new regressor blockSize tokenBudget) calls)
      (((new regressor blockSize tokenBudget).after trained calls).ask trained c).1 t e last :=
  ttft_summed answer ((priced_after trained regressor blockSize tokenBudget calls).ask (fun _ => ⟨calls,List.prefix_refl _,rfl⟩) c)

-- The rest of a rollout from before a step, and new slots from after it.
def adding : TrainedPredictor Nat Nat := ⟨fun state batch => state+batch.numTokens,fun state _ actual => state+actual,id⟩

def halfPrefilled : List PCtxCall :=
  [.query ⟨1,100,[],0⟩,.onAdmit 1 100 [],.onSse ⟨64,64,[64],[0],[],1⟩ ⟨64,3,[⟨1,[],.prefill,false,0,0⟩],[],[],[],[],[],[],1⟩]

theorem ttft_predicted_mixed : ∃ e last, Summed (PredictedWithin adding (new 0 16 64) halfPrefilled)
    (((new 0 16 64).after adding halfPrefilled).ask adding ⟨2,40,[],0⟩).1 81 e last :=
  ttft_predicted adding 0 16 64 halfPrefilled ⟨2,40,[],0⟩ (by decide +kernel)

end PCtx

section Sign
variable [Field τ] [LinearOrder τ] [IsStrictOrderedRing τ] {ε : Type} {parseF32 : List Char → Option τ}
variable {openFile : String → Except ε (Lines ε)} {config : SimulatorConfig τ} {powf : τ → τ → τ} {grids : VidurRfPredictor τ}

-- The grids without a correction, over a whole history.
theorem grid_ttft_nonneg (loaded : VidurRfPredictor.new parseF32 openFile config = .ok grids)
    (costs : CostsTime parseF32 openFile config powf) (ofMillis : Nat → τ) (blockSize tokenBudget : Nat) (calls : List PCtxCall) (c : Candidate)
    {t : τ} (answer : (((PCtx.new () blockSize tokenBudget).after
      (regressionalPredictor (fun batch => grids.predict batch powf) nullCorrector ofMillis) calls).ask
      (regressionalPredictor (fun batch => grids.predict batch powf) nullCorrector ofMillis) c).2.ttftMs = some t) : 0 ≤ t := by
  have fair (state : Unit) (batch : BatchForPredictor) :
      0 ≤ (regressionalPredictor (fun batch => grids.predict batch powf) nullCorrector ofMillis).predict state batch :=
    predict_nonneg loaded costs batch
  have priced := PCtx.priced_forever (fun _ v => 0 ≤ v) _ fair () blockSize tokenBudget calls
  obtain ⟨e,last,_,_,rfl,positive⟩ := PCtx.ttft_summed answer (priced.ask (fair _) c)
  refine List.foldlRecOn _ _ (motive := fun t => 0 ≤ t) le_rfl fun sum held v member => ?_
  obtain ⟨slot,inside,rfl⟩ := List.mem_map.mp member
  exact add_nonneg held (positive slot inside)

def loadedGrids : VidurRfPredictor ℚ :=
  match VidurRfPredictor.new wholeMs oneRow .standard with
  | .ok grids => grids
  | .error () => ⟨.standard,∅,∅⟩

-- A step comes in while its request is half prefilled, the next one queues behind it.
def loadedCalls : List PCtxCall :=
  [.query ⟨1,100,[],0⟩,.onAdmit 1 100 [],.onSse ⟨64,64,[64],[0],[],1⟩ ⟨64,3,[⟨1,[],.prefill,false,0,0⟩],[],[],[],[],[],[],1⟩]

def loadedContext : PCtx Unit ℚ :=
  (PCtx.new () 16 64).after (regressionalPredictor (fun batch => loadedGrids.predict batch fun x _ => x) nullCorrector fun ms => (ms : ℚ)) loadedCalls

theorem grid_ttft_nonneg_full : ∃ t, (loadedContext.ask (regressionalPredictor (fun batch => loadedGrids.predict batch fun x _ => x)
      nullCorrector fun ms => (ms : ℚ)) ⟨2,40,[],0⟩).2.ttftMs = some t ∧ 0 ≤ t := by
  obtain ⟨t,answer⟩ := Option.isSome_iff_exists.mp (show (loadedContext.ask (regressionalPredictor
      (fun batch => loadedGrids.predict batch fun x _ => x) nullCorrector fun ms => (ms : ℚ)) ⟨2,40,[],0⟩).2.ttftMs.isSome by decide +kernel)
  obtain ⟨grids,loaded⟩ := new_ok wholeMs oneRow .standard fun op => ⟨_,rfl,fun line member => ⟨_,List.mem_singleton.mp member⟩⟩
  have same : grids = loadedGrids := by simp [loadedGrids,loaded]
  exact ⟨t,answer,grid_ttft_nonneg (same ▸ loaded) oneRow_costs _ 16 64 loadedCalls ⟨2,40,[],0⟩ answer⟩

end Sign
end BlitzRouter
