import BlitzRouter.LeastMeanSquares
import BlitzRouter.RolloutRuns
import BlitzRouter.VidurRf

namespace BlitzRouter.OnlineCorrection
open LeastMeanSquares Vidur

structure Corrector (ρ τ : Type) where
  correct : ρ → τ → τ
  calibrate : ρ → τ → τ → ρ

def nullCorrector {τ : Type} : Corrector Unit τ := ⟨fun _ rawMs => rawMs,fun _ _ _ => ()⟩

-- The weights are `f32` in the source, and numbers of an ordered field here.
structure LinregCorrector (τ : Type) where
  weight : τ × τ
  learningRate : τ
  warmupRemaining : Nat
  outlierThresholdMs : τ

-- The regressor is fixed: calibration only moves the corrector.
def regressionalPredictor {ρ τ : Type} (inner : BatchForPredictor → τ) (corrector : Corrector ρ τ) (ofMillis : Nat → τ) :
    TrainedPredictor ρ τ where
  predict state batch := corrector.correct state (inner batch)
  calibrate state batch actual := corrector.calibrate state (inner batch) actual
  ofMillis := ofMillis

variable {τ : Type} [Field τ] [LinearOrder τ]

namespace LinregCorrector

def new (config : SimulatorConfig τ) : LinregCorrector τ := ⟨(1,0),config.learningRate,config.linregWarmup,config.linregOutlierThresholdMs⟩

def correct (c : LinregCorrector τ) (rawMs : τ) : τ := c.weight.1*rawMs+c.weight.2

def calibrate (c : LinregCorrector τ) (rawMs actualMs : τ) : LinregCorrector τ :=
  if c.warmupRemaining > 0 then {c with warmupRemaining := c.warmupRemaining-1}
  else
    let corrected := c.weight.1*rawMs+c.weight.2
    let error := actualMs-corrected
    if |error| > c.outlierThresholdMs then c
    else {c with weight := (c.weight.1+c.learningRate*error*rawMs,c.weight.2+c.learningRate*error)}

end LinregCorrector

def linregCorrector : Corrector (LinregCorrector τ) τ := ⟨LinregCorrector.correct,LinregCorrector.calibrate⟩

section Runs
variable (inner : BatchForPredictor → τ) (ofMillis : Nat → τ)

def trained : TrainedPredictor (LinregCorrector τ) τ := regressionalPredictor inner linregCorrector ofMillis

-- What the step outputs of a history say: prediction of the regressor, latency.
def samples : List PCtxCall → List (τ × τ) :=
  List.filterMap fun
    | .onSse batch m => some (inner batch,ofMillis m.latency)
    | _ => none

-- What the step outputs of a history report: corrected prediction, latency.
def reports (p : PCtx (LinregCorrector τ) τ) : List PCtxCall → List (τ × τ)
  | [] => []
  | .onSse batch m::rest => (p.onSse (trained inner ofMillis) batch m).2::reports (p.call (trained inner ofMillis) (.onSse batch m)) rest
  | call::rest => reports (p.call (trained inner ofMillis) call) rest

end Runs

section Steps
variable {c : LinregCorrector τ} {x y : τ}

theorem calibrate_cases (c : LinregCorrector τ) (x y : τ) :
    (∃ n, c.warmupRemaining = n+1 ∧ c.calibrate x y = {c with warmupRemaining := n}) ∨
      (c.warmupRemaining = 0 ∧ c.outlierThresholdMs < |misfit c.weight x y| ∧ c.calibrate x y = c) ∨
        (c.warmupRemaining = 0 ∧ |misfit c.weight x y| ≤ c.outlierThresholdMs ∧
          c.calibrate x y = {c with weight := descend c.learningRate c.weight x y}) := by
  cases warm : c.warmupRemaining with
  | succ n => exact .inl ⟨n,rfl,by simp [LinregCorrector.calibrate,warm]⟩
  | zero =>
    refine .inr ?_
    by_cases far : c.outlierThresholdMs < |misfit c.weight x y|
    · exact .inl ⟨rfl,far,by simpa [LinregCorrector.calibrate,warm,misfit] using fun near => absurd far (not_lt.mpr near)⟩
    · have near : |y-(c.weight.1*x+c.weight.2)| ≤ c.outlierThresholdMs := not_lt.mp far
      exact .inr ⟨rfl,near,by simp [LinregCorrector.calibrate,warm,misfit,descend,near]⟩

end Steps

-- The corrector alone, over a list of samples.
def calibrated (c : LinregCorrector τ) (fed : List (τ × τ)) : LinregCorrector τ := fed.foldl (fun c sample => c.calibrate sample.1 sample.2) c

def reported : LinregCorrector τ → List (τ × τ) → List (τ × τ)
  | _,[] => []
  | c,sample::rest => (c.correct sample.1,sample.2)::reported (c.calibrate sample.1 sample.2) rest

section Histories
variable (inner : BatchForPredictor → τ) (ofMillis : Nat → τ) (p : PCtx (LinregCorrector τ) τ) (calls : List PCtxCall)

theorem after_regressor : (p.after (trained inner ofMillis) calls).regressor = calibrated p.regressor (samples inner ofMillis calls) := by
  induction calls generalizing p with
  | nil => rfl
  | cons call rest ih => cases call <;> exact ih _

theorem reports_eq : reports inner ofMillis p calls = reported p.regressor (samples inner ofMillis calls) := by
  induction calls generalizing p with
  | nil => rfl
  | cons call rest ih =>
    cases call with
    | query c => exact ih _
    | onAdmit requestId inputLength hashes => exact ih _
    | onSse batch m => exact congrArg _ (ih _)

end Histories

section Regret
variable [IsStrictOrderedRing τ] {c : LinregCorrector τ} {law : τ × τ}

-- The squares of the errors the corrector has learned from.
def learned (threshold : τ) (reported : List (τ × τ)) : τ :=
  ((reported.filter fun report => |report.2-report.1| ≤ threshold).map fun report => (report.2-report.1)^2).sum

def Fits (rate : τ) (law sample : τ × τ) : Prop := sample.2 = law.1*sample.1+law.2 ∧ 0 ≤ contraction rate sample.1

omit [IsStrictOrderedRing τ] in
theorem learned_far {threshold : τ} {report : τ × τ} (far : threshold < |report.2-report.1|) (reported : List (τ × τ)) :
    learned threshold (report::reported) = learned threshold reported := by
  simp [learned,not_le.mpr far]

omit [IsStrictOrderedRing τ] in
theorem learned_near {threshold : τ} {report : τ × τ} (near : |report.2-report.1| ≤ threshold) (reported : List (τ × τ)) :
    learned threshold (report::reported) = (report.2-report.1)^2+learned threshold reported := by
  simp [learned,near]

theorem learned_apart (positive : 0 ≤ c.learningRate) (fed : List (τ × τ)) (fits : ∀ sample ∈ fed, Fits c.learningRate law sample) :
    c.learningRate*learned c.outlierThresholdMs ((reported c fed).drop c.warmupRemaining)+apart (calibrated c fed).weight law ≤
      apart c.weight law := by
  induction fed generalizing c with
  | nil => simp [reported,learned,calibrated]
  | cons sample rest ih =>
    have first := fits sample List.mem_cons_self
    have more : ∀ sample ∈ rest, Fits c.learningRate law sample := fun sample member => fits sample (List.mem_cons_of_mem _ member)
    change c.learningRate*learned c.outlierThresholdMs (((c.correct sample.1,sample.2)::reported (c.calibrate sample.1 sample.2) rest).drop
      c.warmupRemaining)+apart (calibrated (c.calibrate sample.1 sample.2) rest).weight law ≤ _
    rcases calibrate_cases c sample.1 sample.2 with ⟨n,warm,skipped⟩ | ⟨warm,far,skipped⟩ | ⟨warm,near,moved⟩
    · have bound := ih (c := {c with warmupRemaining := n}) positive more
      rwa [skipped,warm,List.drop_succ_cons]
    · have bound := ih positive more
      rw [warm,List.drop_zero] at bound
      rwa [skipped,warm,List.drop_zero,learned_far far]
    · have bound := ih (c := {c with weight := descend c.learningRate c.weight sample.1 sample.2}) positive more
      have step := apart_descend_le (w := c.weight) first.1 positive first.2
      simp only [warm,List.drop_zero] at bound
      rw [moved,warm,List.drop_zero,learned_near near,mul_add]
      change c.learningRate*misfit c.weight sample.1 sample.2^2+_+_ ≤ _
      linarith

theorem corrections_bounded (inner : BatchForPredictor → τ) (ofMillis : Nat → τ) (config : SimulatorConfig τ) (law : τ × τ)
    (positive : 0 ≤ config.learningRate) (blockSize tokenBudget : Nat) (calls : List PCtxCall)
    (fits : ∀ sample ∈ samples inner ofMillis calls, Fits config.learningRate law sample) :
    config.learningRate*learned config.linregOutlierThresholdMs
        ((reports inner ofMillis (.new (.new config) blockSize tokenBudget) calls).drop config.linregWarmup)+
      apart ((PCtx.new (.new config) blockSize tokenBudget).after (trained inner ofMillis) calls).regressor.weight law ≤
        (1-law.1)^2+law.2^2 := by
  rw [reports_eq,after_regressor]
  have bound := learned_apart (c := .new config) positive _ fits
  simpa [apart,PCtx.new,LinregCorrector.new] using bound

-- Two steps of two tokens that take five milliseconds each.
def twoSteps : List PCtxCall :=
  [.onSse ⟨2,16,[],[],[7,9],2⟩ ⟨0,5,[],[],[],[],[],[],[],1⟩,.onSse ⟨2,16,[],[],[8,10],2⟩ ⟨0,5,[],[],[],[],[],[],[],2⟩]

theorem twoSteps_samples : samples (fun batch => (batch.numTokens : ℚ)) (fun ms => (ms : ℚ)) twoSteps = List.replicate 2 (2,5) := by
  simp [samples,twoSteps]

def quickConfig : SimulatorConfig ℚ := {SimulatorConfig.standard with learningRate := 1/10,linregWarmup := 1,linregOutlierThresholdMs := 4}

theorem corrections_bounded_two : (1/10 : ℚ)*learned 4
      ((reports (fun batch => (batch.numTokens : ℚ)) (fun ms => (ms : ℚ)) (.new (.new quickConfig) 16 1024) twoSteps).drop 1)+
    apart ((PCtx.new (.new quickConfig) 16 1024).after (trained (fun batch => (batch.numTokens : ℚ)) fun ms => (ms : ℚ)) twoSteps).regressor.weight
      (2,1) ≤ (1-2)^2+1^2 := by
  refine corrections_bounded _ _ quickConfig (2,1) (by norm_num [quickConfig]) 16 1024 twoSteps fun sample member => ?_
  rw [twoSteps_samples,List.mem_replicate] at member
  rw [member.2]
  exact ⟨by norm_num,by norm_num [contraction,quickConfig]⟩

end Regret

section Steady
variable [IsStrictOrderedRing τ] {c : LinregCorrector τ} {x y : τ}

theorem steady_near (shrinks : |contraction c.learningRate x| ≤ 1) (near : |misfit c.weight x y| ≤ c.outlierThresholdMs) (n : Nat) :
    misfit (calibrated c (List.replicate n (x,y))).weight x y =
      contraction c.learningRate x^(n-c.warmupRemaining)*misfit c.weight x y := by
  induction n generalizing c with
  | zero => simp [calibrated]
  | succ n ih =>
    change misfit (calibrated (c.calibrate x y) (List.replicate n (x,y))).weight x y = _
    rcases calibrate_cases c x y with ⟨left,warm,skipped⟩ | ⟨_,far,_⟩ | ⟨warm,_,moved⟩
    · rw [skipped,warm,Nat.succ_sub_succ]
      exact ih (c := {c with warmupRemaining := left}) shrinks near
    · exact absurd near (not_le.mpr far)
    · have less : |misfit (descend c.learningRate c.weight x y) x y| ≤ c.outlierThresholdMs := by
        rw [misfit_descend]
        exact contraction_mul_le shrinks near
      have run := ih (c := {c with weight := descend c.learningRate c.weight x y}) shrinks less
      rw [moved,run,misfit_descend]
      simp only [warm,Nat.sub_zero,pow_succ,mul_assoc]

omit [IsStrictOrderedRing τ] in
theorem steady_far (far : c.outlierThresholdMs < |misfit c.weight x y|) (n : Nat) :
    (calibrated c (List.replicate n (x,y))).weight = c.weight := by
  induction n generalizing c with
  | zero => rfl
  | succ n ih =>
    change (calibrated (c.calibrate x y) (List.replicate n (x,y))).weight = _
    rcases calibrate_cases c x y with ⟨left,_,skipped⟩ | ⟨_,_,skipped⟩ | ⟨_,near,_⟩
    · rw [skipped]
      exact ih (c := {c with warmupRemaining := left}) far
    · rw [skipped]
      exact ih far
    · exact absurd near (not_le.mpr far)

-- Steps of one length: the correction comes to it geometrically, as far as the
-- arithmetic is exact, or not at all when the first error is an outlier.
theorem steady_corrected (inner : BatchForPredictor → τ) (ofMillis : Nat → τ) (config : SimulatorConfig τ) (blockSize tokenBudget : Nat)
    (calls : List PCtxCall) (same : ∀ sample ∈ samples inner ofMillis calls, sample = (x,y))
    (shrinks : |contraction config.learningRate x| ≤ 1) :
    let learnt := ((PCtx.new (.new config) blockSize tokenBudget).after (trained inner ofMillis) calls).regressor
    (|y-x| ≤ config.linregOutlierThresholdMs →
      y-learnt.correct x = contraction config.learningRate x^((samples inner ofMillis calls).length-config.linregWarmup)*(y-x)) ∧
    (config.linregOutlierThresholdMs < |y-x| → learnt.correct x = x) := by
  have start : misfit (LinregCorrector.new config).weight x y = y-x := by simp [misfit,LinregCorrector.new]
  have fed : samples inner ofMillis calls = List.replicate (samples inner ofMillis calls).length (x,y) := List.eq_replicate_iff.mpr ⟨rfl,same⟩
  generalize (samples inner ofMillis calls).length = n at fed
  simp only [after_regressor,fed]
  refine ⟨fun near => ?_,fun far => ?_⟩
  · have run := steady_near (c := .new config) shrinks (start.symm ▸ near) n
    rw [start] at run
    exact run
  · have frozen := steady_far (c := .new config) (start.symm ▸ far) n
    have weights : (calibrated (LinregCorrector.new config) (List.replicate n (x,y))).weight = (1,0) := frozen
    change (calibrated (LinregCorrector.new config) (List.replicate n (x,y))).correct x = x
    simp [LinregCorrector.correct,weights]

theorem steady_corrected_two :
    let learnt := ((PCtx.new (.new quickConfig) 16 1024).after (trained (fun batch => (batch.numTokens : ℚ)) fun ms => (ms : ℚ)) twoSteps).regressor
    (|(5 : ℚ)-2| ≤ 4 → 5-learnt.correct 2 = contraction (1/10) 2^(2-1)*(5-2)) ∧ ((4 : ℚ) < |5-2| → learnt.correct 2 = 2) := by
  refine steady_corrected (fun batch => (batch.numTokens : ℚ)) (fun ms => (ms : ℚ)) quickConfig 16 1024 twoSteps (fun sample member => ?_) ?_
  · rw [twoSteps_samples,List.mem_replicate] at member
    exact member.2
  · norm_num [contraction,quickConfig]

end Steady
end BlitzRouter.OnlineCorrection
