import BlitzRouter.PolicyDsl

namespace BlitzRouter.Policy
open Radix

-- The input of `policy!`, whose `gctx` is the type `γ`. Of the statements after
-- the decision it models what they do to the global context.
structure PolicyInput (ε F γ : Type) where
  body : γ → Entry → List (Observation ε) → Expr ε F
  afterExtra : List (Observation ε) → Nat → γ → γ

-- What one call finds in `all_sctx`, each context when it is locked for its
-- observation and again when it was chosen, and what it draws.
structure Found (β F : Type) where
  observed : List (ScheduleContext β)
  applied : List (ScheduleContext β)
  draw : F
  sameReplicas : applied.length = observed.length

section Lower
variable {β ε F γ : Type} [BlockHash β]

def observe (features : ScheduleContext β → ε) (entry : Entry) (idx : Nat) (sctx : ScheduleContext β) :
    Except SchedulePanic (Observation ε) :=
  match BlockHash.get sctx.blockHash entry.blockHashState.blockHashes with
  | none => .error (.inner .blockHash)
  | some hitBlocks => .ok {
      idx,bs := sctx.lmetric.bs,waiting := sctx.lmetric.waitingReqs,queuedTokens := sctx.lmetric.prefillTokens
      allTokens := sctx.lmetric.allTokens,blockSize := entry.blockHashState.blockSize,hitBlocks
      epoch := BlockHash.epoch sctx.blockHash,features := features sctx}

def captureFrom (features : ScheduleContext β → ε) (entry : Entry) : Nat → List (ScheduleContext β) → Except SchedulePanic (List (Observation ε))
  | _,[] => .ok []
  | idx,sctx::rest => do
    let o ← observe features entry idx sctx
    let others ← captureFrom features entry (idx+1) rest
    .ok (o::others)

def captureObservations (features : ScheduleContext β → ε) (entry : Entry) (allSctx : List (ScheduleContext β)) :
    Except SchedulePanic (List (Observation ε)) := captureFrom features entry 0 allSctx

variable [Zero F] [Add F] [Sub F] [Mul F] [Max F] [LE F] [DecidableLE F]

def lower (features : ScheduleContext β → ε) (policy : PolicyInput ε F γ) (found : Found β F) (gctx : γ) (entry : Entry) :
    Except SchedulePanic (Option Nat × Atomics × γ) := do
  let observations ← captureObservations features entry found.observed
  match ← (policy.body gctx entry observations).eval found.draw (rootTarget observations) with
  | none => .ok (none,entry.atomics,gctx)
  | some idx =>
    match observations[idx]?,found.applied[idx]? with
    | none,_ => .error (.observationIndex idx)
    | _,none => .error (.replicaIndex idx)
    | some cached,some context => do
      let (entry,_) ← (applyDefaultAfter entry context cached.toObservation).mapError .inner
      .ok (some idx,entry.atomics,policy.afterExtra observations idx gctx)

end Lower

section Lossless
variable {β ε F γ : Type} [BlockHash β] {features : ScheduleContext β → ε} {entry : Entry} {observations : List (Observation ε)}

theorem observe_idx {idx : Nat} {sctx : ScheduleContext β} {o : Observation ε} (seen : observe features entry idx sctx = .ok o) : o.idx = idx := by
  unfold observe at seen
  split at seen
  · cases seen
  · cases seen
    rfl

-- Every replica is observed, under its position.
theorem captureFrom_indexed {allSctx : List (ScheduleContext β)} {start : Nat} (captured : captureFrom features entry start allSctx = .ok observations) :
    observations.length = allSctx.length ∧ ∀ i (o : Observation ε), observations[i]? = some o → o.idx = start+i := by
  induction allSctx generalizing start observations with
  | nil =>
    cases captured
    exact ⟨rfl,by simp⟩
  | cons sctx rest ih =>
    cases seen : observe features entry start sctx with
    | error panic => simp [captureFrom,seen,bind,Except.bind] at captured
    | ok first =>
      cases later : captureFrom features entry (start+1) rest with
      | error panic => simp [captureFrom,seen,later,bind,Except.bind] at captured
      | ok others =>
        simp only [captureFrom,seen,later,bind,Except.bind,Except.ok.injEq] at captured
        obtain ⟨count,indexed⟩ := ih later
        rw [← captured]
        refine ⟨by rw [List.length_cons,List.length_cons,count],fun i o at_ => ?_⟩
        cases i with
        | zero =>
          cases at_
          exact observe_idx seen
        | succ i =>
          rw [indexed i o at_]
          omega

theorem captureFrom_panics {allSctx : List (ScheduleContext β)} {start : Nat} {panic : SchedulePanic}
    (stopped : captureFrom features entry start allSctx = .error panic) : panic = .inner .blockHash := by
  induction allSctx generalizing start with
  | nil => cases stopped
  | cons sctx rest ih =>
    cases seen : observe features entry start sctx with
    | error other =>
      simp only [captureFrom,seen,bind,Except.bind,Except.error.injEq] at stopped
      unfold observe at seen
      split at seen
      · cases seen
        exact stopped.symm
      · cases seen
    | ok first =>
      cases later : captureFrom features entry (start+1) rest with
      | error other =>
        simp only [captureFrom,seen,later,bind,Except.bind,Except.error.injEq] at stopped
        subst stopped
        exact ih later
      | ok others => simp [captureFrom,seen,later,bind,Except.bind] at stopped

variable [Zero F] [Add F] [Sub F] [Mul F] [Max F] [LE F] [DecidableLE F]

-- On indexed observations an expression chooses one of their positions.
theorem eval_chooses (e : Expr ε F) (draw : F) (filled : observations ≠ []) (indexed : ∀ i (o : Observation ε), observations[i]? = some o → o.idx = i) :
    ∃ i o preds selection reached, e.eval draw (rootTarget observations) = .ok (some i) ∧ observations[i]? = some o ∧
      Path e observations preds selection reached ∧ (∀ pred ∈ preds, pred o = true) ∧ selection.Best reached o := by
  obtain ⟨preds,selection,reached,o,path,result,best⟩ := eval_path e draw filled
  have survives : o ∈ observations.filter fun o => preds.all fun pred => pred o := path.reached_eq ▸ best.1
  obtain ⟨inside,passes⟩ := List.mem_filter.mp survives
  obtain ⟨i,at_⟩ := List.mem_iff_getElem?.mp inside
  exact ⟨i,o,preds,selection,reached,(indexed i o at_) ▸ result,at_,path,List.all_eq_true.mp passes,best⟩

-- A call that captured its observations comes to `apply_default_after` for the
-- replica it chose.
theorem lower_applies {found : Found β F} (policy : PolicyInput ε F γ) (gctx : γ) (filled : found.observed ≠ [])
    (captured : captureObservations features entry found.observed = .ok observations) : ∃ idx cached context,
      observations[idx]? = some cached ∧ found.applied[idx]? = some context ∧
      (policy.body gctx entry observations).eval found.draw (rootTarget observations) = .ok (some idx) ∧
      lower features policy found gctx entry = (applyDefaultAfter entry context cached.toObservation).mapError .inner >>=
        fun done => .ok (some idx,done.1.atomics,policy.afterExtra observations idx gctx) := by
  obtain ⟨count,indexed⟩ := captureFrom_indexed captured
  have some_ : observations ≠ [] := by
    intro none
    rw [none] at count
    exact filled (List.length_eq_zero_iff.mp count.symm)
  obtain ⟨idx,cached,_,_,_,result,at_,_⟩ := eval_chooses (policy.body gctx entry observations) found.draw some_ (by simpa using indexed)
  have inRange : idx < found.applied.length := by
    rw [found.sameReplicas,← count]
    exact (List.getElem?_eq_some_iff.mp at_).1
  refine ⟨idx,cached,found.applied[idx],at_,List.getElem?_eq_getElem inRange,result,?_⟩
  unfold lower
  simp only [captured,result,at_,List.getElem?_eq_getElem inRange,bind,Except.bind]

-- What the body of a policy decides, where it could observe its replicas.
def decision (features : ScheduleContext β → ε) (policy : PolicyInput ε F γ) (found : Found β F) (gctx : γ) (entry : Entry) :
    Option (Nat × BlitzRouter.Observation) × γ :=
  match captureObservations features entry found.observed with
  | .error _ => (none,gctx)
  | .ok observations =>
    match (policy.body gctx entry observations).eval found.draw (rootTarget observations) with
    | .ok (some idx) =>
      match observations[idx]? with
      | some cached => (some (idx,cached.toObservation),policy.afterExtra observations idx gctx)
      | none => (none,gctx)
    | _ => (none,gctx)

-- The expansion is the schedule that the queue task was modelled with.
theorem lower_lowered {found : Found β F} {contexts : Found β F → Nat → ScheduleContext β} (policy : PolicyInput ε F γ) (gctx : γ)
    (filled : found.observed ≠ []) (captured : captureObservations features entry found.observed = .ok observations)
    (locked : ∀ idx context, found.applied[idx]? = some context → contexts found idx = context) :
    lower features policy found gctx entry = (loweredSchedule (decision features policy) contexts found gctx entry).mapError .inner := by
  obtain ⟨idx,cached,context,at_,held,result,applies⟩ := lower_applies policy gctx filled captured
  have decided : decision features policy found gctx entry = (some (idx,cached.toObservation),policy.afterExtra observations idx gctx) := by
    simp only [decision,captured,result,at_]
  rw [applies,loweredSchedule_some decided,locked idx context held]
  cases applyDefaultAfter entry context cached.toObservation <;> rfl

-- Of the replicas one is always returned, and in range: a call can only panic in
-- the matcher or in `apply_default_after`.
theorem lower_chooses (features : ScheduleContext β → ε) (policy : PolicyInput ε F γ) (found : Found β F) (gctx : γ) (entry : Entry)
    (filled : found.observed ≠ []) :
    (∀ atomics gctx', lower features policy found gctx entry ≠ .ok (none,atomics,gctx')) ∧
    (∀ idx atomics gctx', lower features policy found gctx entry = .ok (some idx,atomics,gctx') → idx < found.observed.length) ∧
    ∀ panic, lower features policy found gctx entry = .error panic → ∃ inner, panic = .inner inner := by
  cases captured : captureObservations features entry found.observed with
  | error panic =>
    have stopped : lower features policy found gctx entry = .error panic := by
      unfold lower
      simp only [captured,bind,Except.bind]
    rw [stopped]
    refine ⟨nofun,nofun,fun other same => ?_⟩
    cases same
    exact ⟨.blockHash,captureFrom_panics captured⟩
  | ok observations =>
    obtain ⟨idx,cached,context,_,held,_,applies⟩ := lower_applies policy gctx filled captured
    have inRange : idx < found.observed.length := found.sameReplicas ▸ (List.getElem?_eq_some_iff.mp held).1
    rw [applies]
    cases applyDefaultAfter entry context cached.toObservation with
    | error panic =>
      refine ⟨nofun,nofun,fun other same => ?_⟩
      cases same
      exact ⟨panic,rfl⟩
    | ok done =>
      refine ⟨nofun,fun other atomics gctx' same => ?_,nofun⟩
      cases same
      exact inRange

end Lossless

-- Every expression over every arithmetic of its draws, and every policy that is
-- lowered from one.
theorem expressions_lossless (ε F : Type) [Zero F] [Add F] [Sub F] [Mul F] [Max F] [LE F] [DecidableLE F] :
    (∀ (e : Expr ε F) (draw : F) (observations : List (Observation ε)), observations ≠ [] →
      (∀ i (o : Observation ε), observations[i]? = some o → o.idx = i) →
      ∃ i o preds selection reached, e.eval draw (rootTarget observations) = .ok (some i) ∧ observations[i]? = some o ∧
        Path e observations preds selection reached ∧ (∀ pred ∈ preds, pred o = true) ∧ selection.Best reached o) ∧
    ∀ (β γ : Type) [BlockHash β] (features : ScheduleContext β → ε) (policy : PolicyInput ε F γ) (found : Found β F) (gctx : γ) (entry : Entry),
      found.observed ≠ [] →
      (∀ atomics gctx', lower features policy found gctx entry ≠ .ok (none,atomics,gctx')) ∧
      (∀ idx atomics gctx', lower features policy found gctx entry = .ok (some idx,atomics,gctx') → idx < found.observed.length) ∧
      ∀ panic, lower features policy found gctx entry = .error panic → ∃ inner, panic = .inner inner :=
  ⟨fun e draw _ filled indexed => eval_chooses e draw filled indexed,
    fun _ _ _ features policy found gctx entry filled => lower_chooses features policy found gctx entry filled⟩

section Simple
variable {ε : Type}

def waitingtPrefillTokenBound : Nat := 2048

def newTokens (req : ValidGenerateRequest) (sctx : Observation ε) : Nat := req.inputTokens.length-sctx.hitBlocks*sctx.blockSize

def queuedTokens (sctx : Observation ε) : Nat := (max sctx.queuedTokens 0).toNat

def prefillTokens (req : ValidGenerateRequest) (sctx : Observation ε) : Nat := queuedTokens sctx+newTokens req sctx

def jBoundMostHitQ2 (ε F : Type) : PolicyInput ε F Unit where
  body := fun _ entry _ => .filterThen (fun o => queuedTokens o < waitingtPrefillTokenBound)
    (fun _ => .select (.maxBy fun o => o.hitBlocks)) (fun _ => .select (.minBy fun o => prefillTokens entry.request o))
  afterExtra := fun _ _ gctx => gctx

end Simple

-- Two replicas below the bound, of which the second has more hits, and a busy one.
def threeReplicas : List (Observation Unit) :=
  [⟨⟨0,1⟩,0,3,1,2047,64,16,()⟩,⟨⟨0,2⟩,1,5,0,-4,96,16,()⟩,⟨⟨0,7⟩,2,9,4,4000,512,16,()⟩]

example (entry : Entry) : ((jBoundMostHitQ2 Unit Int).body () entry threeReplicas).eval 0 (rootTarget threeReplicas) = .ok (some 1) := rfl

def promptEntry : Entry := ⟨⟨7,3,[1,2,3]⟩,⟨[],[],0,noneSentinel,none,16,defaultBlockHash,[1,2,3],0⟩,⟨[],none⟩,0⟩

theorem expressions_lossless_bounded : ∃ i o preds selection reached,
    ((jBoundMostHitQ2 Unit Int).body () promptEntry threeReplicas).eval 0 (rootTarget threeReplicas) = .ok (some i) ∧
      threeReplicas[i]? = some o ∧ Path ((jBoundMostHitQ2 Unit Int).body () promptEntry threeReplicas) threeReplicas preds selection reached ∧
      (∀ pred ∈ preds, pred o = true) ∧ selection.Best reached o := by
  refine (expressions_lossless Unit Int).1 _ 0 threeReplicas (by decide) fun i o at_ => ?_
  rcases i with _ | _ | _ | i
  · cases at_; rfl
  · cases at_; rfl
  · cases at_; rfl
  · cases at_

end BlitzRouter.Policy
