import Mathlib.Data.Rat.Cast.Defs
import BlitzRouter.Ledger
import BlitzRouter.Rollout
import BlitzRouter.TextCells

namespace BlitzRouter.Vidur
open TextCells

inductive ModelKind where
  | llama
  | moe
deriving DecidableEq,Repr

inductive Op where
  | attnDecode
  | attnPrefill
  | attnPreProj
  | attnPostProj
  | attnRope
  | attnKvCacheSave
  | inputLayernorm
  | postAttentionLayernorm
  | add
  | samplerE2e
  | schedule
  | mlpUpProj
  | mlpDownProj
  | mlpAct
  | moeLinear
  | sendRecv
  | allReduce
deriving DecidableEq,Repr

def Op.name : Op → String
  | .attnDecode => "attn_decode"
  | .attnPrefill => "attn_prefill"
  | .attnPreProj => "attn_pre_proj"
  | .attnPostProj => "attn_post_proj"
  | .attnRope => "attn_rope"
  | .attnKvCacheSave => "attn_kv_cache_save"
  | .inputLayernorm => "input_layernorm"
  | .postAttentionLayernorm => "post_attention_layernorm"
  | .add => "add"
  | .samplerE2e => "sampler_e2e"
  | .schedule => "schedule"
  | .mlpUpProj => "mlp_up_proj"
  | .mlpDownProj => "mlp_down_proj"
  | .mlpAct => "mlp_act"
  | .moeLinear => "moe_linear"
  | .sendRecv => "send_recv"
  | .allReduce => "all_reduce"

-- `τ` is the f32 of the latencies.
structure SimulatorConfig (τ : Type) where
  modelHash : String
  modelKind : ModelKind
  numLayers : Nat
  numPipelineStages : Nat
  tensorParallelSize : Nat
  postAttnNorm : Bool
  attentionPrefillBatchingOverheadFraction : τ
  attentionDecodeBatchingOverheadFraction : τ
  tokenBudget : Nat
  kvCachePredictionGranularity : Nat
  flopsPredictionGranularity : Nat
  ncclCpuLaunchOverheadMs : Option τ
  ncclCpuSkewOverheadPerDeviceMs : Option τ
  skipCpuOverheadModeling : Bool
  learningRate : τ
  linregWarmup : Nat
  linregOutlierThresholdMs : τ
deriving DecidableEq,Repr

def SimulatorConfig.standard {τ : Type} [RatCast τ] : SimulatorConfig τ where
  modelHash := "9f4b3b9a"
  modelKind := .llama
  numLayers := 28
  numPipelineStages := 1
  tensorParallelSize := 1
  postAttnNorm := true
  attentionPrefillBatchingOverheadFraction := ((1/10 : ℚ) : τ)
  attentionDecodeBatchingOverheadFraction := ((4/10 : ℚ) : τ)
  tokenBudget := 1024
  kvCachePredictionGranularity := 64
  flopsPredictionGranularity := 1024
  ncclCpuLaunchOverheadMs := none
  ncclCpuSkewOverheadPerDeviceMs := none
  skipCpuOverheadModeling := true
  learningRate := ((1/10000 : ℚ) : τ)
  linregWarmup := 10
  linregOutlierThresholdMs := ((1/2 : ℚ) : τ)

abbrev Grid (τ : Type) := Table (Nat × Nat) τ

structure VidurRfPredictor (τ : Type) where
  config : SimulatorConfig τ
  grids : Table Op (Grid τ)
  fullTokenCache : Table Op τ

def fallbackMs {τ : Type} [RatCast τ] : Op → τ
  | .attnPrefill => ((400 : ℚ) : τ)
  | .attnDecode => ((30 : ℚ) : τ)
  | .schedule => ((10 : ℚ) : τ)
  | .samplerE2e => ((80 : ℚ) : τ)
  | .attnPreProj | .attnPostProj => ((40 : ℚ) : τ)
  | .moeLinear => ((100 : ℚ) : τ)
  | .inputLayernorm | .postAttentionLayernorm | .add | .attnRope | .attnKvCacheSave => ((10 : ℚ) : τ)
  | _ => ((0 : ℚ) : τ)

def llamaFullTokenOps : List Op :=
  [.attnPreProj,.attnPostProj,.mlpUpProj,.mlpDownProj,.mlpAct,.attnRope,.attnKvCacheSave,.inputLayernorm,.postAttentionLayernorm,.add]

def moeFullTokenOps : List Op :=
  [.attnPreProj,.attnPostProj,.moeLinear,.attnRope,.attnKvCacheSave,.inputLayernorm,.postAttentionLayernorm,.add]

namespace SimulatorConfig
variable {τ : Type} (config : SimulatorConfig τ)

def ops : List Op :=
  [.attnDecode,.attnPrefill,.attnPreProj,.attnPostProj,.attnRope,.attnKvCacheSave,.inputLayernorm,.postAttentionLayernorm,.add,
    .samplerE2e,.schedule]++
  (match config.modelKind with
    | .llama => [.mlpUpProj,.mlpDownProj,.mlpAct]
    | .moe => [.moeLinear])++
  (if config.numPipelineStages > 1 then [.sendRecv] else [])++
  (if config.tensorParallelSize > 1 then [.allReduce] else [])

def fullTokenOps : List Op :=
  match config.modelKind with
  | .llama => llamaFullTokenOps
  | .moe => moeFullTokenOps

def fileName (op : Op) : String := s!"{op.name}_{config.modelHash}_predictions.csv"

end SimulatorConfig

-- An item of `lines` is a line or the error of reading it.
abbrev Lines (ε : Type) := List (Except ε (List Char))

section Loading
variable {τ ε : Type} [Zero τ] (parseF32 : List Char → Option τ)

def parseUsize (s : List Char) : Option Nat := unsigned (2^64) (trim s)

-- What one line puts into the grid. Only a key that does not parse skips the
-- line: a second column or a value that does not parse reads as zero.
def csvRow (line : List Char) : Option ((Nat × Nat) × τ) :=
  let parts := line.splitOn ','
  if parts.length < 2 then none
  else
    match parseUsize (parts.headD []) with
    | none => none
    | some r1 =>
      let r2 := if parts.length = 2 then 0 else (parseUsize (parts.getD 1 [])).getD 0
      some ((r1,r2),(parseF32 (trim (parts.getLastD []))).getD 0)

def loadLines : Lines ε → Grid τ → Except ε (Grid τ)
  | [],grid => .ok grid
  | .error e::_,_ => .error e
  | .ok line::rest,grid =>
    match csvRow parseF32 line with
    | none => loadLines rest grid
    | some (key,v) => loadLines rest (grid.insert key v)

variable (openFile : String → Except ε (Lines ε))

-- The header row is dropped without a look at it.
def loadCsv (config : SimulatorConfig τ) (op : Op) : Except ε (Grid τ) := do
  let lines ← openFile (config.fileName op)
  loadLines parseF32 (lines.drop 1) ∅

namespace VidurRfPredictor

def addGrid (p : VidurRfPredictor τ) (op : Op) (grid : Grid τ) : VidurRfPredictor τ where
  config := p.config
  grids := p.grids.insert op grid
  fullTokenCache :=
    if p.config.fullTokenOps.contains op then
      match grid.lookup (p.config.tokenBudget,0) with
      | some v => p.fullTokenCache.insert op v
      | none => p.fullTokenCache
    else p.fullTokenCache

def loadOps : List Op → VidurRfPredictor τ → Except ε (VidurRfPredictor τ)
  | [],p => .ok p
  | op::rest,p =>
    match loadCsv parseF32 openFile p.config op with
    | .error e => .error e
    | .ok grid => loadOps rest (p.addGrid op grid)

def new (config : SimulatorConfig τ) : Except ε (VidurRfPredictor τ) :=
  loadOps parseF32 openFile config.ops ⟨config,∅,∅⟩

end VidurRfPredictor
end Loading

namespace VidurRfPredictor
section Prediction

def asU32 (n : Nat) : Nat := n%2^32

def roundUp (value granularity : Nat) : Nat := (value+granularity-1)/granularity*granularity

variable {τ : Type} [RatCast τ] (p : VidurRfPredictor τ)

def lookup (op : Op) (key : Nat × Nat) : τ :=
  match (p.grids.lookup op).bind fun g => g.lookup key with
  | some v => v
  | none => fallbackMs op

-- The fast path for a full step. `lookup_full_or` takes the rounded count and
-- `attn_kv_cache_save_ms` writes it out for the count itself.
def lookupCount (op : Op) (count : Nat) : τ :=
  match if asU32 count = p.config.tokenBudget then p.fullTokenCache.lookup op else none with
  | some v => v
  | none => p.lookup op (count,0)

variable [Zero τ] [One τ] [Add τ] [Sub τ] [Mul τ] [NatCast τ] [LT τ] [DecidableLT τ] (batch : BatchForPredictor)

def lookupFullOr (op : Op) : τ := p.lookupCount op batch.numTokensRounded

def prefillPairMs (pair : Nat × Nat) : τ :=
  let (chunk,computed) := pair
  let kv := roundUp computed p.config.kvCachePredictionGranularity
  let flops := chunk*((chunk+1)/2+kv)
  p.lookup .attnPrefill (kv,roundUp flops p.config.flopsPredictionGranularity)

def attnPrefillMs : τ :=
  if batch.numPrefillTokens.isEmpty then 0
  else
    let maxT := (batch.numPrefillTokens.zip batch.numPrefillComputedTokens).foldl
      (fun maxT pair => if p.prefillPairMs pair > maxT then p.prefillPairMs pair else maxT) 0
    if batch.numPrefillTokens.length > 1 then maxT*(1+p.config.attentionPrefillBatchingOverheadFraction) else maxT

def attnDecodeMs : τ :=
  let n := batch.numDecodeComputedTokens.length
  if n = 0 then 0
  else
    let kvAvg := batch.numDecodeComputedTokens.sum/n
    let base := p.lookup .attnDecode (n,roundUp kvAvg p.config.kvCachePredictionGranularity)
    let overhead := if n > 1 then p.config.attentionDecodeBatchingOverheadFraction else 0
    base*(1+overhead)

def scheduleMs : τ := p.lookup .schedule (batch.size,0)

def samplerE2eMs : τ := p.lookup .samplerE2e (batch.size,0)

def attnNormMs : τ := p.lookupFullOr batch .inputLayernorm

def mlpNormMs : τ := if !p.config.postAttnNorm then 0 else p.lookupFullOr batch .postAttentionLayernorm

def addMs : τ := p.lookupFullOr batch .add

def attnRopeMs : τ := p.lookupFullOr batch .attnRope

def attnKvCacheSaveMs : τ := p.lookupCount .attnKvCacheSave batch.numTokens

def attnPreProjMs : τ := p.lookupFullOr batch .attnPreProj

def attnPostProjMs : τ := p.lookupFullOr batch .attnPostProj

def mlpUpProjMs : τ := p.lookupFullOr batch .mlpUpProj

def mlpDownProjMs : τ :=
  let latency := p.lookupFullOr batch .mlpDownProj
  if latency > ((25/32 : ℚ) : τ) then latency-((1/8 : ℚ) : τ) else latency

def mlpActMs : τ := p.lookupFullOr batch .mlpAct

def moeLinearMs : τ := p.lookupFullOr batch .moeLinear

def cpuOverheadMs : τ := if p.config.skipCpuOverheadModeling then 0 else p.scheduleMs batch+p.samplerE2eMs batch

def ppCommMs : τ := if p.config.numPipelineStages = 1 then 0 else p.lookup .sendRecv (batch.numTokensRounded,0)

variable (powf : τ → τ → τ)

def tpCommMs : τ :=
  if p.config.tensorParallelSize = 1 then 0
  else
    let base := p.lookup .allReduce (batch.numTokensRounded,0)
    let launch := p.config.ncclCpuLaunchOverheadMs.getD 0
    let skew := p.config.ncclCpuSkewOverheadPerDeviceMs.getD 0
    base+launch+skew*powf (p.config.tensorParallelSize : τ) ((5/4 : ℚ) : τ)

def blockMs : τ :=
  let attn := p.attnPreProjMs batch+p.attnPostProjMs batch+p.attnRopeMs batch+p.attnKvCacheSaveMs batch+p.attnDecodeMs batch+
    p.attnPrefillMs batch+p.tpCommMs batch powf+p.attnNormMs batch
  let mlp := match p.config.modelKind with
    | .llama => p.mlpUpProjMs batch+p.mlpDownProjMs batch+p.mlpActMs batch+p.tpCommMs batch powf+p.mlpNormMs batch
    | .moe => p.moeLinearMs batch+p.tpCommMs batch powf+p.mlpNormMs batch
  attn+mlp+p.addMs batch

def modelMs : τ :=
  let layersPerStage := p.config.numLayers/max p.config.numPipelineStages 1
  p.blockMs batch powf*(layersPerStage : τ)+p.ppCommMs batch

def predict : τ := p.modelMs batch powf+p.cpuOverheadMs batch

end Prediction
end VidurRfPredictor
end BlitzRouter.Vidur
