import BlitzRouter.SlidingWindow
import Mathlib.Algebra.Order.Ring.Rat
import Mathlib.Algebra.Order.Field.Basic
import Mathlib.Tactic.Linarith
import Mathlib.Tactic.NormNum
import Mathlib.Tactic.Positivity
import Mathlib.Tactic.Ring

namespace BlitzRouter.CostModel

inductive TargetGpu where
  | a6000
  | v100
  | a800
deriving DecidableEq,Repr

def TargetGpu.default : TargetGpu := .a800

-- Milliseconds on three pieces of the token count, in seconds.
def linearTime (slope intercept : ℚ) (constant linear quadratic : ℚ) (flat : ℚ) (numBatchedTokens : Nat) : ℚ :=
  let t : ℚ := numBatchedTokens
  if 384 ≤ numBatchedTokens then (slope*t+intercept)/1000
  else if 192 ≤ numBatchedTokens then (constant+linear*t-quadratic*t*t)/1000
  else flat/1000

def attentionTime (flat slope offset : ℚ) (numReqs totalContext numUniqueKv : Nat) : ℚ :=
  let numUniqueKv := if numUniqueKv = 0 then totalContext else numUniqueKv
  let forwardTime :=
    if totalContext ≤ 1024 then flat else
      let ft := slope*totalContext+offset
      if (numUniqueKv : ℚ)/numReqs ≤ 1024 ∧ numReqs*numUniqueKv ≤ 32*256*2048 then ft/2 else ft
  forwardTime/1000

def calculateAttnQuad (constant linear quadratic : ℚ) (perToken perContext perPair : ℚ) (numTokens : Nat) (seqLen : Option Nat) : ℚ :=
  let t : ℚ := numTokens
  let attnQuad :=
    match seqLen with
    | none => if 4096 ≤ numTokens then constant+linear*t+quadratic*t*t else 0
    | some sl => if 1024*1024 < numTokens*sl then perToken*t+perContext*sl+perPair*t*sl else 0
  attnQuad/1000

def mistral7bA6000LinearTime : Nat → ℚ := linearTime 0.10842571 4.209777054806409 (-118) 1.25 2.56e-3 22

def mistral7bA6000AttentionTime : Nat → Nat → Nat → ℚ := attentionTime 0.32 1.86e-4 0.159

def mistral7bV100LinearTime : Nat → ℚ := linearTime 0.27106428 10.52444263 (-295) 3.125 6.4e-3 55

def mistral7bV100AttentionTime : Nat → Nat → Nat → ℚ := attentionTime 0.80 4.65e-4 0.398

def mistral7bA800LinearTime : Nat → ℚ := linearTime 0.10842571 4.21 (-118) 1.25 2.56e-3 22

def mistral7bA800AttentionTime : Nat → Nat → Nat → ℚ := mistral7bA6000AttentionTime

def calculateAttnQuadA6000 : Nat → Option Nat → ℚ := calculateAttnQuad (-7.37) 3.86e-3 2.16e-6 1.13e-3 1.75e-3 2.19e-6

def calculateAttnQuadV100 : Nat → Option Nat → ℚ := calculateAttnQuad (-18.425) 9.65e-3 5.4e-6 2.825e-3 4.375e-3 5.475e-6

def calculateAttnQuadA800 : Nat → Option Nat → ℚ := calculateAttnQuadA6000

def basePrefillTime (gpu : TargetGpu) (numTokens contextLength : Nat) : ℚ :=
  match gpu with
  | .a6000 => mistral7bA6000LinearTime numTokens+mistral7bA6000AttentionTime 1 contextLength numTokens
  | .v100 => mistral7bV100LinearTime numTokens+mistral7bV100AttentionTime 1 contextLength numTokens
  | .a800 => mistral7bA800LinearTime numTokens+mistral7bA800AttentionTime 1 contextLength numTokens

def attnQuadTime (gpu : TargetGpu) (numTokens : Nat) (seqLen : Option Nat) : ℚ :=
  match gpu with
  | .a6000 => calculateAttnQuadA6000 numTokens seqLen
  | .v100 => calculateAttnQuadV100 numTokens seqLen
  | .a800 => calculateAttnQuadA800 numTokens seqLen

def prefillTime (gpu : TargetGpu) (numTokens contextLength : Nat) : ℚ :=
  (basePrefillTime gpu numTokens contextLength+attnQuadTime gpu numTokens none)/0.9

section Pieces
variable {slope intercept constant linear quadratic flat offset : ℚ} {n contextLength : Nat}

theorem linearTime_outside (rising : 0 ≤ slope) (above : 0 < intercept) (level : 0 < flat) (outside : n < 192 ∨ 384 ≤ n) :
    0 < linearTime slope intercept constant linear quadratic flat n := by
  unfold linearTime
  rcases outside with low | high
  · rw [if_neg (by omega),if_neg (by omega)]
    positivity
  · rw [if_pos high]
    positivity

theorem linearTime_middle (low : 192 ≤ n) (high : n < 384) :
    linearTime slope intercept constant linear quadratic flat n = (constant+linear*n-quadratic*n*n)/1000 := by
  unfold linearTime
  rw [if_neg (by omega),if_pos low]

theorem attentionTime_pos (rising : 0 ≤ slope) (above : 0 < offset) (level : 0 < flat) (numReqs totalContext numUniqueKv : Nat) :
    0 < attentionTime flat slope offset numReqs totalContext numUniqueKv := by
  unfold attentionTime
  split
  · positivity
  · split <;> positivity

-- One request with few uncached tokens takes half of the long-context time.
theorem attentionTime_few (some : 1 ≤ n) (few : n ≤ 1024) : attentionTime flat slope offset 1 contextLength n =
    (if contextLength ≤ 1024 then flat else (slope*contextLength+offset)/2)/1000 := by
  have share : (n : ℚ)/(1 : Nat) ≤ 1024 := by
    rw [Nat.cast_one,div_one]
    exact_mod_cast few
  unfold attentionTime
  simp only [Nat.ne_of_gt some,if_false]
  rw [if_pos (⟨share,by omega⟩ : (n : ℚ)/(1 : Nat) ≤ 1024 ∧ 1*n ≤ 32*256*2048)]

theorem calculateAttnQuad_nonneg {perToken perContext perPair : ℚ} (first : 0 ≤ linear) (second : 0 ≤ quadratic)
    (seam : 0 ≤ constant+linear*4096) : 0 ≤ calculateAttnQuad constant linear quadratic perToken perContext perPair n none := by
  unfold calculateAttnQuad
  simp only
  split
  · rename_i many
    have tokens : (4096 : ℚ) ≤ n := by exact_mod_cast many
    have rest : 0 ≤ quadratic*n*n := by positivity
    have reached : linear*4096 ≤ linear*n := mul_le_mul_of_nonneg_left tokens first
    have whole : 0 ≤ constant+linear*n+quadratic*n*n := by linarith
    positivity
  · simp

theorem calculateAttnQuad_few {perToken perContext perPair : ℚ} (few : n < 4096) :
    calculateAttnQuad constant linear quadratic perToken perContext perPair n none = 0 := by
  unfold calculateAttnQuad
  simp only [Nat.not_le.mpr few,if_false,zero_div]

end Pieces

-- The context that makes up for the quadratic piece: twice the time in millionths
-- of a millisecond, since of a long context half is counted.
def ContextPays (gpu : TargetGpu) (numTokens contextLength : Nat) : Prop :=
  match gpu with
  | .a6000 | .a800 => 236000000+5120*numTokens^2 < 186*contextLength+159000+2500000*numTokens
  | .v100 => 590000000+12800*numTokens^2 < 465*contextLength+398000+6250000*numTokens

instance (gpu : TargetGpu) (numTokens contextLength : Nat) : Decidable (ContextPays gpu numTokens contextLength) := by
  unfold ContextPays
  cases gpu <;> infer_instance

-- The quadratic piece falls below 0 at 361 tokens, and ends at 384.
def Affordable (gpu : TargetGpu) (numTokens contextLength : Nat) : Prop :=
  numTokens ≤ 360 ∨ 384 ≤ numTokens ∨ ContextPays gpu numTokens contextLength

instance (gpu : TargetGpu) (numTokens contextLength : Nat) : Decidable (Affordable gpu numTokens contextLength) :=
  inferInstanceAs (Decidable (_ ∨ _))

section Signs
variable {gpu : TargetGpu} {n contextLength : Nat}

theorem attnQuadTime_nonneg (gpu : TargetGpu) (n : Nat) : 0 ≤ attnQuadTime gpu n none := by
  cases gpu with
  | a6000 =>
    unfold attnQuadTime calculateAttnQuadA6000
    exact calculateAttnQuad_nonneg (by norm_num) (by norm_num) (by norm_num)
  | v100 =>
    unfold attnQuadTime calculateAttnQuadV100
    exact calculateAttnQuad_nonneg (by norm_num) (by norm_num) (by norm_num)
  | a800 =>
    unfold attnQuadTime calculateAttnQuadA800 calculateAttnQuadA6000
    exact calculateAttnQuad_nonneg (by norm_num) (by norm_num) (by norm_num)

theorem prefillTime_outside (outside : n < 192 ∨ 384 ≤ n) : 0 < prefillTime gpu n contextLength := by
  have base : 0 < basePrefillTime gpu n contextLength := by
    cases gpu with
    | a6000 =>
      exact add_pos (linearTime_outside (by norm_num) (by norm_num) (by norm_num) outside)
        (attentionTime_pos (by norm_num) (by norm_num) (by norm_num) _ _ _)
    | v100 =>
      exact add_pos (linearTime_outside (by norm_num) (by norm_num) (by norm_num) outside)
        (attentionTime_pos (by norm_num) (by norm_num) (by norm_num) _ _ _)
    | a800 =>
      exact add_pos (linearTime_outside (by norm_num) (by norm_num) (by norm_num) outside)
        (attentionTime_pos (by norm_num) (by norm_num) (by norm_num) _ _ _)
  exact div_pos (add_pos_of_pos_of_nonneg base (attnQuadTime_nonneg gpu n)) (by norm_num)

-- The sign on the quadratic piece, for both sets of its coefficients.
def middle (gpu : TargetGpu) (n contextLength : Nat) : ℚ :=
  let t : ℚ := n
  let attention (flat slope offset : ℚ) : ℚ := if contextLength ≤ 1024 then flat else (slope*contextLength+offset)/2
  match gpu with
  | .a6000 | .a800 => -118+1.25*t-2.56e-3*t*t+attention 0.32 1.86e-4 0.159
  | .v100 => -295+3.125*t-6.4e-3*t*t+attention 0.80 4.65e-4 0.398

theorem prefillTime_middle (low : 192 ≤ n) (high : n < 384) : prefillTime gpu n contextLength = middle gpu n contextLength/900 := by
  have few : n < 4096 := by omega
  cases gpu with
  | a6000 =>
    simp only [prefillTime,basePrefillTime,attnQuadTime,mistral7bA6000LinearTime,mistral7bA6000AttentionTime,calculateAttnQuadA6000,
      linearTime_middle low high,attentionTime_few (show 1 ≤ n by omega) (by omega),calculateAttnQuad_few few,middle]
    ring
  | v100 =>
    simp only [prefillTime,basePrefillTime,attnQuadTime,mistral7bV100LinearTime,mistral7bV100AttentionTime,calculateAttnQuadV100,
      linearTime_middle low high,attentionTime_few (show 1 ≤ n by omega) (by omega),calculateAttnQuad_few few,middle]
    ring
  | a800 =>
    simp only [prefillTime,basePrefillTime,attnQuadTime,mistral7bA800LinearTime,mistral7bA800AttentionTime,mistral7bA6000AttentionTime,
      calculateAttnQuadA800,calculateAttnQuadA6000,
      linearTime_middle low high,attentionTime_few (show 1 ≤ n by omega) (by omega),calculateAttnQuad_few few,middle]
    ring

-- Up to 360 tokens the chord of the parabola is above 0.
theorem middle_low (low : 192 ≤ n) (high : n ≤ 360) : 0 < middle gpu n contextLength := by
  have from_ : (192 : ℚ) ≤ n := by exact_mod_cast low
  have to_ : (n : ℚ) ≤ 360 := by exact_mod_cast high
  have chord : (n : ℚ)*n ≤ 552*n-69120 := by nlinarith
  have context : (0 : ℚ) ≤ contextLength := Nat.cast_nonneg _
  cases gpu <;> simp only [middle] <;> split <;> linarith

-- From 361 on it is below its tangent, by more than a short context takes.
theorem middle_short (low : 361 ≤ n) (high : n < 384) (short : contextLength ≤ 1024) :
    middle gpu n contextLength < 0 ∧ ¬ContextPays gpu n contextLength := by
  have from_ : (361 : ℚ) ≤ n := by exact_mod_cast low
  have tangent : 722*(n : ℚ)-130321 ≤ n*n := by nlinarith
  have tangentNat : 722*n ≤ n^2+130321 := by
    have cast : (722*(n : ℚ)) ≤ (n : ℚ)^2+130321 := by nlinarith
    exact_mod_cast cast
  cases gpu with
  | a6000 =>
    simp only [middle,if_pos short,ContextPays]
    exact ⟨by linarith,by omega⟩
  | v100 =>
    simp only [middle,if_pos short,ContextPays]
    exact ⟨by linarith,by omega⟩
  | a800 =>
    simp only [middle,if_pos short,ContextPays]
    exact ⟨by linarith,by omega⟩

theorem middle_long (long : 1024 < contextLength) : 0 < middle gpu n contextLength ↔ ContextPays gpu n contextLength := by
  have counted : 0 < middle gpu n contextLength ↔ match gpu with
      | .a6000 | .a800 => (236000000+5120*n^2 : ℚ) < 186*contextLength+159000+2500000*n
      | .v100 => (590000000+12800*n^2 : ℚ) < 465*contextLength+398000+6250000*n := by
    cases gpu <;> simp only [middle,if_neg (Nat.not_le.mpr long)] <;> constructor <;> intro sign <;> nlinarith
  rw [counted]
  cases gpu <;> simp only [ContextPays] <;> norm_cast

theorem prefillTime_iff : 0 < prefillTime gpu n contextLength ↔ Affordable gpu n contextLength := by
  by_cases low : 192 ≤ n
  · by_cases high : n < 384
    · rw [prefillTime_middle low high,div_pos_iff_of_pos_right (by norm_num)]
      by_cases below : n ≤ 360
      · exact iff_of_true (middle_low low below) (.inl below)
      · have same : Affordable gpu n contextLength ↔ ContextPays gpu n contextLength := by
          unfold Affordable
          rw [or_iff_right (by omega),or_iff_right (by omega)]
        rw [same]
        by_cases short : contextLength ≤ 1024
        · obtain ⟨negative,unpaid⟩ : middle gpu n contextLength < 0 ∧ ¬ContextPays gpu n contextLength := middle_short (by omega) high short
          exact iff_of_false negative.not_gt unpaid
        · exact middle_long (by omega)
    · exact iff_of_true (prefillTime_outside (.inr (by omega))) (.inr (.inl (by omega)))
  · exact iff_of_true (prefillTime_outside (.inl (by omega))) (.inl (by omega))

end Signs

end BlitzRouter.CostModel

namespace BlitzRouter
open CostModel

-- The prefix tree is left out. The window adds a cost when it comes and subtracts it
-- when it expires, as the source does in `f64`; here both are exact.
structure PrebleBlockHash where
  window : SlidingWindow ℚ (Window.Sum ℚ)
  costModel : TargetGpu

namespace PrebleBlockHash

def timePerTokenS : ℚ := 0.15

def prefillContrib (gpu : TargetGpu) (numTokens contextLength : Nat) : ℚ :=
  if 0 < numTokens then prefillTime gpu numTokens contextLength else 0

def decodeContrib (decodingLength : Nat) : ℚ := decodingLength*timePerTokenS

def updateWithCost (p : PrebleBlockHash) (numTokens contextLength decodingLength now : Nat) : PrebleBlockHash :=
  {p with window := p.window.push now (prefillContrib p.costModel numTokens contextLength+decodeContrib decodingLength)}

def cost (p : PrebleBlockHash) (now : Nat) : PrebleBlockHash × ℚ :=
  let (window,agg) := p.window.aggregateAt now
  ({p with window},agg.value)

-- What was pushed just now does not expire, and does not keep others from it.
theorem expireFrom_pushed (now duration : Nat) (entries : List (Nat × ℚ)) (agg : Window.Sum ℚ) (x : ℚ) :
    (SlidingWindow.expireFrom now duration (entries++[(now,x)]) (Aggregate.add agg x)).2.value =
      (SlidingWindow.expireFrom now duration entries agg).2.value+x := by
  induction entries generalizing agg with
  | nil =>
    simp only [List.nil_append,SlidingWindow.expireFrom,Nat.sub_self,Nat.not_lt_zero,if_false]
    rfl
  | cons entry rest ih =>
    obtain ⟨t,y⟩ := entry
    have swap : Aggregate.sub (Aggregate.add agg x) y = Aggregate.add (Aggregate.sub agg y) x := congrArg Window.Sum.mk (add_sub_right_comm _ _ _)
    simp only [List.cons_append,SlidingWindow.expireFrom]
    split
    · rw [swap]
      exact ih _
    · rfl

theorem cost_update (p : PrebleBlockHash) (numTokens contextLength decodingLength now : Nat) :
    ((p.updateWithCost numTokens contextLength decodingLength now).cost now).2 =
      (p.cost now).2+(prefillContrib p.costModel numTokens contextLength+decodeContrib decodingLength) :=
  expireFrom_pushed now p.window.duration p.window.entries p.window.agg _

-- On every GPU, for every request with uncached tokens: how long its prefill
-- takes, and whether that raises the cost of its replica.
theorem prefillTime_positive_iff (gpu : TargetGpu) (numTokens contextLength : Nat) (uncached : 1 ≤ numTokens) :
    (0 < prefillTime gpu numTokens contextLength ↔ Affordable gpu numTokens contextLength) ∧
    ∀ (p : PrebleBlockHash) (decodingLength now : Nat), p.costModel = gpu →
      ((p.cost now).2+decodeContrib decodingLength < ((p.updateWithCost numTokens contextLength decodingLength now).cost now).2 ↔
        Affordable gpu numTokens contextLength) := by
  refine ⟨prefillTime_iff,fun p decodingLength now same => ?_⟩
  rw [cost_update,same,prefillContrib,if_pos (show 0 < numTokens from uncached),← prefillTime_iff]
  constructor <;> intro sign <;> linarith

theorem prefillTime_positive_iff_short : 0 < prefillTime .a800 256 1024 :=
  (prefillTime_positive_iff .a800 256 1024 (by omega)).1.mpr (.inl (by omega))

-- A prompt of 383 tokens without hits.
theorem prefillTime_negative : prefillTime .a800 383 383 < 0 ∧ prefillTime .a6000 383 383 < 0 ∧ prefillTime .v100 383 383 < 0 := by
  refine ⟨?_,?_,?_⟩ <;> rw [prefillTime_middle (by omega) (by omega)] <;> norm_num [middle]

end PrebleBlockHash

end BlitzRouter
