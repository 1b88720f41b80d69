import BlitzRouter.PolicyLowering
import Mathlib.Algebra.Order.Floor.Ring
import Mathlib.Algebra.Order.Field.Basic
import Mathlib.Data.Rat.Floor
import Mathlib.Data.Prod.Lex

namespace BlitzRouter.Policy
open Radix

-- Floats of scores are read as exact rationals. `sqrt` is the one operation that
-- rationals do not have, and stays a parameter where it is used.
section Vocabulary
variable {ε : Type}

def newBlocks (req : ValidGenerateRequest) (sctx : Observation ε) : Nat :=
  if sctx.blockSize = 0 then 0 else (req.inputTokens.length+sctx.blockSize-1)/sctx.blockSize-sctx.hitBlocks

def hitPct (req : ValidGenerateRequest) (sctx : Observation ε) : ℚ :=
  if req.inputTokens.isEmpty then 0 else (sctx.hitBlocks*sctx.blockSize : Nat)/(req.inputTokens.length : ℚ)

def decodeBlocks (sctx : Observation ε) : Nat := if sctx.blockSize = 0 then 0 else sctx.allTokens/sctx.blockSize

def meanOfUsize (obs : List (Observation ε)) (proj : Observation ε → Nat) : ℚ :=
  if obs.isEmpty then 0 else (obs.map fun o => (proj o : ℚ)).sum/obs.length

def stdOfUsize (sqrt : ℚ → ℚ) (obs : List (Observation ε)) (proj : Observation ε → Nat) : ℚ :=
  if obs.length ≤ 1 then 0 else
    let m := meanOfUsize obs proj
    sqrt ((obs.map fun o => ((proj o : ℚ)-m)*((proj o : ℚ)-m)).sum/(obs.length-1 : Nat))

def minOfUsize (obs : List (Observation ε)) (proj : Observation ε → Nat) : Nat := (obs.map proj).min?.getD 0

def maxOfUsize (obs : List (Observation ε)) (proj : Observation ε → Nat) : Nat := (obs.map proj).max?.getD 0

-- Casts to an integer drop the fraction and saturate.
def asU64 (x : ℚ) : Nat := min ⌊x⌋₊ (2^64-1)

def asI64 (x : ℚ) : Int := max (-2^63) (min (if 0 ≤ x then ⌊x⌋ else ⌈x⌉) (2^63-1))

end Vocabulary

-- Most policies leave their global context alone.
def stateless {ε F : Type} (body : Entry → List (Observation ε) → Expr ε F) : PolicyInput ε F Unit where
  body := fun _ entry observations => body entry observations
  afterExtra := fun _ _ gctx => gctx

structure RRGCtx where
  nextReplicaId : Nat
deriving DecidableEq,Repr

def RRGCtx.default : RRGCtx := ⟨0⟩

def aibrixImbalanceAbsCount : Nat := 8

def aibrixStddevFactor : ℚ := 1

def dynamoOverlapWeight : ℚ := 1

section Policies
variable (ε F : Type)

def randomQ [One F] : PolicyInput ε F Unit := stateless fun _ _ => .select (.randBy fun _ => 1)

def roundRobinQ : PolicyInput ε F RRGCtx where
  body := fun gctx _ _ => .select (.minBy fun o => if o.idx = gctx.nextReplicaId then 0 else 1)
  afterExtra := fun observations _ gctx => ⟨(gctx.nextReplicaId+1)%max observations.length 1⟩

def jLeastWaitTokenQ : PolicyInput ε F Unit := stateless fun entry _ => .select (.minBy fun o => prefillTokens entry.request o)

def jShortestWeightQ : PolicyInput ε F Unit := stateless fun _ _ => .select (.minBy fun o => 4*o.waiting+o.bs)

def lmetricQ : PolicyInput ε F Unit := stateless fun entry _ => .select (.minBy fun o => prefillTokens entry.request o*(o.bs+1))

def leastActiveQ : PolicyInput ε F Unit := stateless fun _ _ => .select (.minBy fun o => o.allTokens)

def leastBsQ : PolicyInput ε F Unit := stateless fun _ _ => .select (.minBy fun o => o.bs)

def leastTokenLoadQ : PolicyInput ε F Unit := stateless fun _ _ => .select (.minBy fun o => queuedTokens o+o.allTokens)

def leastWaitingQ : PolicyInput ε F Unit := stateless fun _ _ => .select (.minBy fun o => o.waiting)

def mostHitQ : PolicyInput ε F Unit := stateless fun _ _ => .select (.maxBy fun o => o.hitBlocks)

def aibrixTau (sqrt : ℚ → ℚ) (observations : List (Observation ε)) : ℚ :=
  meanOfUsize observations (fun o => o.bs)+aibrixStddevFactor*stdOfUsize sqrt observations fun o => o.bs

-- The inner filter of both branches.
def aibrixInner (sqrt : ℚ → ℚ) (entry : Entry) (observations : List (Observation ε)) : Expr ε F :=
  .filterThen (fun o => decide ((o.bs : ℚ) ≤ aibrixTau ε sqrt observations))
    (fun _ => .select (.minBy fun o => toLex (-hitPct entry.request o,o.bs)))
    (fun _ => .select (.maxBy fun o => toLex (-hitPct entry.request o,o.bs)))

def aibrixQ (sqrt : ℚ → ℚ) : PolicyInput ε F Unit := stateless fun entry observations =>
  let lo := minOfUsize observations fun o => o.bs
  let gap := maxOfUsize observations (fun o => o.bs)-lo
  .filterThen (fun o => o.bs = lo && aibrixImbalanceAbsCount < gap)
    (fun _ => aibrixInner ε F sqrt entry observations) (fun _ => aibrixInner ε F sqrt entry observations)

def dynamoQ : PolicyInput ε F Unit := stateless fun entry _ => .select (.minBy fun o =>
  let blockSize := max o.blockSize 1
  let potentialPrefillBlock : ℚ := newTokens entry.request o/(blockSize : ℚ)
  let decodeBlock : ℚ := (newBlocks entry.request o+decodeBlocks o : Nat)
  asU64 ((dynamoOverlapWeight*potentialPrefillBlock+decodeBlock)*1000))

def dynamoPoQ : PolicyInput ε F Unit := stateless fun entry _ => .select (.minBy fun o =>
  let blockSize := max o.blockSize 1
  let potentialPrefillBlock : ℚ := prefillTokens entry.request o/(blockSize : ℚ)
  let decodeBlock : ℚ := ⌊potentialPrefillBlock⌋
  asU64 ((dynamoOverlapWeight*potentialPrefillBlock+decodeBlock)*1000))

end Policies

end BlitzRouter.Policy
