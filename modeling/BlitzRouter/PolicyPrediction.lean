import BlitzRouter.PolicyDispatch

namespace BlitzRouter
open Radix

-- An entry whose predicted hits nobody has set.
def Entry.Fresh (entry : Entry) : Prop := entry.blockHashState.predHitNblks = noneSentinel

theorem fresh_new {ext : External} {blockSize : Nat} {request : ValidGenerateRequest} {reads : Option Nat} {entry : Entry}
    (made : Entry.new ext blockSize request reads = some entry) : entry.Fresh := by
  cases hashed : BlockHashState.new ext request.inputTokens blockSize with
  | none => simp [Entry.new,hashed] at made
  | some state =>
    obtain rfl : ⟨request,state,⟨[],reads⟩,0⟩ = entry := by simpa [Entry.new,hashed] using made
    exact (BlockHashState.new_eq hashed).2.1

section
variable {β : Type} [BlockHash β] {context context' : ScheduleContext β} {cached : Observation} {entry next : Entry}

theorem applyDefaultAfter_eq (applied : applyDefaultAfter entry context cached = .ok (next,context')) :
    ∃ hits state, entry.blockHashState.setPredBlockHits hits = some state ∧
      next = {entry with blockHashState := {state with decisionEpoch := BlockHash.epoch context.blockHash}} := by
  unfold applyDefaultAfter at applied
  cases observed : observedHits context.blockHash entry.blockHashState.blockHashes cached with
  | none => simp [observed] at applied
  | some hits =>
    cases set : entry.blockHashState.setPredBlockHits hits with
    | none => simp [observed,set] at applied
    | some state =>
      simp only [observed,set,Except.ok.injEq,Prod.mk.injEq] at applied
      exact ⟨hits,state,set,applied.1.symm⟩

-- The assertion of `set_pred_block_hits` holds on a fresh entry.
theorem applyDefaultAfter_fresh (fresh : entry.Fresh) (id : RequestId) :
    applyDefaultAfter entry context cached ≠ .error (.predHitsSet id) := by
  intro failed
  unfold applyDefaultAfter at failed
  cases observed : observedHits context.blockHash entry.blockHashState.blockHashes cached with
  | none => simp [observed] at failed
  | some hits =>
    have set : ∃ state, entry.blockHashState.setPredBlockHits hits = some state := ⟨_,if_pos fresh⟩
    obtain ⟨state,set⟩ := set
    simp [observed,set] at failed

theorem applyDefaultAfter_store (applied : applyDefaultAfter entry context cached = .ok (next,context')) :
    next = entry.store next.atomics := by
  obtain ⟨hits,state,set,rfl⟩ := applyDefaultAfter_eq applied
  rw [BlockHashState.setPredBlockHits_eq set]
  rfl

end

-- The entry is the appended one, after one call of `apply_default_after`.
def Entry.PredictedFrom (β : Type) [BlockHash β] (appended entry : Entry) : Prop :=
  ∃ (context : ScheduleContext β) (cached : Observation) (context' : ScheduleContext β),
    applyDefaultAfter appended context cached = .ok (entry,context')

theorem predicted_below {β : Type} [BlockHash β] {appended entry : Entry} (predicted : Entry.PredictedFrom β appended entry) :
    entry.blockHashState.predHitNblks < noneSentinel := by
  obtain ⟨context,cached,context',applied⟩ := predicted
  obtain ⟨hits,state,set,rfl⟩ := applyDefaultAfter_eq applied
  rw [BlockHashState.setPredBlockHits_eq set]
  exact Nat.mod_lt _ (by decide)

-- With a prediction, only the two assertions on the reported hits can fail.
theorem setRealTokenHits_total {state : BlockHashState} (below : state.predHitNblks < noneSentinel) (hits : Nat) :
    state.setRealTokenHitsGetDiff hits = none ↔ state.blockSize = 0 ∨ hits%state.blockSize ≠ 0 := by
  unfold BlockHashState.setRealTokenHitsGetDiff
  by_cases bad : state.blockSize = 0 ∨ hits%state.blockSize ≠ 0
  · simp [bad]
  · simp [bad,below]

-- Applies `apply_default_after` exactly when it returns a replica, and panics
-- only inside it.
structure AppliesDefaultAfter (β : Type) [BlockHash β] {ω γ : Type} (schedule : Schedule ω γ) : Prop where
  skipped : ∀ {view gctx gctx' entry atomics}, schedule view gctx entry = .ok (none,atomics,gctx') → atomics = entry.atomics
  applied : ∀ {view gctx gctx' entry replicaIdx atomics}, schedule view gctx entry = .ok (some replicaIdx,atomics,gctx') →
    Entry.PredictedFrom β entry (entry.store atomics)
  panicked : ∀ {view gctx entry panic}, schedule view gctx entry = .error panic →
    ∃ (context : ScheduleContext β) (cached : Observation), applyDefaultAfter entry context cached = .error panic

section
variable {β γ ω : Type} [BlockHash β] {choose : ω → γ → Entry → Option (Nat × Observation) × γ} {contexts : ω → Nat → ScheduleContext β}
  {view : ω} {gctx gctx' : γ} {entry : Entry}

theorem loweredSchedule_none (chose : choose view gctx entry = (none,gctx')) :
    loweredSchedule choose contexts view gctx entry = .ok (none,entry.atomics,gctx') := by
  simp only [loweredSchedule,chose]

theorem loweredSchedule_some {chosen : Nat} {cached : Observation} (chose : choose view gctx entry = (some (chosen,cached),gctx')) :
    loweredSchedule choose contexts view gctx entry =
      (applyDefaultAfter entry (contexts view chosen) cached).map fun done => (some chosen,done.1.atomics,gctx') := by
  simp only [loweredSchedule,chose]
  cases applyDefaultAfter entry (contexts view chosen) cached <;> rfl

theorem loweredSchedule_applies (choose : ω → γ → Entry → Option (Nat × Observation) × γ) (contexts : ω → Nat → ScheduleContext β) :
    AppliesDefaultAfter β (loweredSchedule choose contexts) := by
  constructor
  · intro view gctx gctx' entry atomics called
    rcases chose : choose view gctx entry with ⟨choice,next⟩
    cases choice with
    | none =>
      rw [loweredSchedule_none chose] at called
      cases called
      rfl
    | some pair =>
      rw [loweredSchedule_some chose] at called
      cases applied : applyDefaultAfter entry (contexts view pair.1) pair.2 <;> simp [applied,Except.map] at called
  · intro view gctx gctx' entry replicaIdx atomics called
    rcases chose : choose view gctx entry with ⟨choice,next⟩
    cases choice with
    | none => simp [loweredSchedule_none chose] at called
    | some pair =>
      rw [loweredSchedule_some chose] at called
      cases applied : applyDefaultAfter entry (contexts view pair.1) pair.2 with
      | error panic => simp [applied,Except.map] at called
      | ok done =>
        simp only [applied,Except.map,Except.ok.injEq,Prod.mk.injEq] at called
        obtain ⟨_,rfl,_⟩ := called
        rw [← applyDefaultAfter_store applied]
        exact ⟨_,pair.2,done.2,applied⟩
  · intro view gctx entry panic called
    rcases chose : choose view gctx entry with ⟨choice,next⟩
    cases choice with
    | none => simp [loweredSchedule_none chose] at called
    | some pair =>
      rw [loweredSchedule_some chose] at called
      cases applied : applyDefaultAfter entry (contexts view pair.1) pair.2 with
      | error other =>
        simp only [applied,Except.map,Except.error.injEq] at called
        exact ⟨_,pair.2,called ▸ applied⟩
      | ok done => simp [applied,Except.map] at called

end

end BlitzRouter
