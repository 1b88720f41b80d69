import BlitzRouter.CostModel
import BlitzRouter.IdleCredit
import BlitzRouter.PolicyCatalogue
import BlitzRouter.PolicyCluster

namespace BlitzRouter
open Radix

-- `PREBLE_WINDOW_SECS`, where nobody set it.
def prebleWindowDuration : Nat := 180*10^9

structure PrebleTree extends PrebleBlockHash where
  inner : RadixTreeBlockHash

namespace PrebleTree

def defaultDecodingLength : Nat := 45

def updateWithCost (p : PrebleTree) (numTokens contextLength decodingLength now : Nat) : PrebleTree :=
  {p with toPrebleBlockHash := p.toPrebleBlockHash.updateWithCost numTokens contextLength decodingLength now}

def load (p : PrebleTree) (now : Nat) : PrebleTree × Nat :=
  let (window,len) := p.window.lenAt now
  ({p with window},len)

def cost (p : PrebleTree) (now : Nat) : PrebleTree × ℚ :=
  let (preble,cost) := p.toPrebleBlockHash.cost now
  ({p with toPrebleBlockHash := preble},cost)

end PrebleTree

-- The matcher of every flavour is its tree.
instance : BlockHash PrebleTree where
  new := fun numBlocks => ⟨⟨.new prebleWindowDuration ⟨0⟩,.default⟩,.new numBlocks⟩
  len := fun p => p.inner.len
  isEmpty := fun p => p.inner.isEmpty
  insert := fun p hashes bids => (p.inner.insert hashes bids).map fun grown => ({p with inner := grown.1},grown.2)
  get := fun p query => p.inner.get query
  remove := fun p bids => (p.inner.remove bids).map fun inner => {p with inner}
  epoch := fun p => BlockHash.epoch p.inner

structure PrebleBsBlockHash where
  inner : RadixTreeBlockHash
  bsWindow : SlidingWindow ℚ (Window.Sum ℚ)

namespace PrebleBsBlockHash

def updateWithStep (p : PrebleBsBlockHash) (bs now : Nat) : PrebleBsBlockHash := {p with bsWindow := p.bsWindow.push now bs}

def bsSum (p : PrebleBsBlockHash) (now : Nat) : PrebleBsBlockHash × ℚ :=
  let (bsWindow,agg) := p.bsWindow.aggregateAt now
  ({p with bsWindow},agg.value)

end PrebleBsBlockHash

instance : BlockHash PrebleBsBlockHash where
  new := fun numBlocks => ⟨.new numBlocks,.new prebleWindowDuration ⟨0⟩⟩
  len := fun p => p.inner.len
  isEmpty := fun p => p.inner.isEmpty
  insert := fun p hashes bids => (p.inner.insert hashes bids).map fun grown => ({p with inner := grown.1},grown.2)
  get := fun p query => p.inner.get query
  remove := fun p bids => (p.inner.remove bids).map fun inner => {p with inner}
  epoch := fun p => BlockHash.epoch p.inner

structure PrebleTpsTree extends PrebleTpsBlockHash where
  inner : RadixTreeBlockHash

-- `PREBLE_IDLE_TPS`, where nobody set it, is 120 samples a second.
instance : BlockHash PrebleTpsTree where
  new := fun numBlocks => ⟨.new prebleWindowDuration fun idleDur => 120*idleDur/10^9,.new numBlocks⟩
  len := fun p => p.inner.len
  isEmpty := fun p => p.inner.isEmpty
  insert := fun p hashes bids => (p.inner.insert hashes bids).map fun grown => ({p with inner := grown.1},grown.2)
  get := fun p query => p.inner.get query
  remove := fun p bids => (p.inner.remove bids).map fun inner => {p with inner}
  epoch := fun p => BlockHash.epoch p.inner

namespace Policy

structure PrebleFeatures where
  prebleLoad : Nat
  prebleCost : ℚ
deriving DecidableEq,Repr

-- What `preble_update_after` makes of an admission: the hits are those of the
-- observation, also when `apply_default_after` looked them up anew.
def prebleUpdateAfter (now : Nat) (entry : Entry) (chosen : Observation PrebleFeatures) (blockHash : PrebleTree) : PrebleTree :=
  let contextLength := entry.request.inputTokens.length
  let cachedTokens := min (chosen.hitBlocks*chosen.blockSize) contextLength
  blockHash.updateWithCost (contextLength-cachedTokens) contextLength PrebleTree.defaultDecodingLength now

def prebleFlavour : Flavour PrebleTree PrebleFeatures where
  look := fun now s =>
    let (blockHash,prebleLoad) := s.blockHash.load now
    let (blockHash,prebleCost) := blockHash.cost now
    (⟨prebleLoad,prebleCost⟩,blockHash)
  extra := fun now entry chosen s => some (prebleUpdateAfter now entry chosen s.blockHash)
  stepped := fun _ _ b => b
  looked := fun _ s => ⟨rfl,fun _ => rfl⟩
  extended := fun now entry chosen s b updated => by cases updated; exact ⟨rfl,fun _ => rfl⟩
  sampled := fun _ _ b => .refl b

def prebleBsUpdateAfter (now : Nat) (s : ScheduleContext PrebleBsBlockHash) : PrebleBsBlockHash := s.blockHash.updateWithStep s.lmetric.bs now

-- `preble_bs_sum` is the only feature. A forward step samples the batch size that
-- stands before its requests leave.
def prebleBsFlavour : Flavour PrebleBsBlockHash ℚ where
  look := fun now s =>
    let (blockHash,prebleBsSum) := s.blockHash.bsSum now
    (prebleBsSum,blockHash)
  extra := fun now _ _ s => some (prebleBsUpdateAfter now s)
  stepped := fun now bs b => b.updateWithStep bs now
  looked := fun _ s => ⟨rfl,fun _ => rfl⟩
  extended := fun now entry chosen s b updated => by cases updated; exact ⟨rfl,fun _ => rfl⟩
  sampled := fun now bs b => ⟨rfl,fun _ => rfl⟩

-- A replica that was idle when it was chosen is credited; no lock is taken for the
-- others.
def prebleTpsCompensateIdle (now : Nat) (chosen : Observation (Option Nat)) (blockHash : PrebleTpsTree) : Option PrebleTpsTree :=
  if chosen.bs = 0 then (blockHash.compensateIdleGap now).map fun credited => {blockHash with toPrebleTpsBlockHash := credited} else some blockHash

-- The only feature is the number of forward steps, which an idle replica has not.
def prebleTpsFlavour : Flavour PrebleTpsTree (Option Nat) where
  look := fun now s =>
    let (counted,prebleTpsCount) := s.blockHash.tpsCount s.lmetric.bs now
    (prebleTpsCount,{s.blockHash with toPrebleTpsBlockHash := counted})
  extra := fun now _ chosen s => prebleTpsCompensateIdle now chosen s.blockHash
  stepped := fun now bs b => {b with toPrebleTpsBlockHash := b.updateWithStep bs now}
  looked := fun _ s => ⟨rfl,fun _ => rfl⟩
  extended := fun now entry chosen s b updated => by
    unfold prebleTpsCompensateIdle at updated
    split at updated
    · obtain ⟨credited,_,rfl⟩ := Option.map_eq_some_iff.mp updated
      exact ⟨rfl,fun _ => rfl⟩
    · cases updated
      exact .refl _
  sampled := fun now bs b => ⟨rfl,fun _ => rfl⟩

def prebleGlobalMatchBlocks {ε : Type} (observations : List (Observation ε)) : Nat := (observations.map fun o => o.hitBlocks).max?.getD 0

-- The gate of the branch that looks at the cache. It is the same for every replica.
def prebleMatches {ε : Type} (threshold : ℚ) (entry : Entry) (observations : List (Observation ε)) : Bool :=
  threshold < (prebleGlobalMatchBlocks observations*entry.blockHashState.blockSize : Nat)/(max entry.request.inputTokens.length 1 : Nat)

def prebleTpsCount (o : Observation (Option Nat)) : Nat := o.features.getD (2^64-1)

def prebleCost (o : Observation PrebleFeatures) : Int := asI64 (o.features.prebleCost*1000)

section
variable (F : Type) (threshold : ℚ)

def prebleQ : PolicyInput PrebleFeatures F Unit := stateless fun entry observations =>
  .filterThen (fun _ => prebleMatches threshold entry observations)
    (fun _ => .select (.maxBy fun o => toLex (o.hitBlocks,-(o.features.prebleLoad : Int))))
    (fun _ => .select (.minBy prebleCost))

def prebleBsQ : PolicyInput ℚ F Unit := stateless fun entry observations =>
  .filterThen (fun _ => prebleMatches threshold entry observations)
    (fun _ => .select (.maxBy fun o => toLex (o.hitBlocks,-o.features)))
    (fun _ => .select (.minBy fun o => o.features))

def prebleTpsQ : PolicyInput (Option Nat) F Unit := stateless fun entry observations =>
  .filterThen (fun _ => prebleMatches threshold entry observations)
    (fun _ => .select (.maxBy fun o => toLex (o.hitBlocks,toLex (prebleTpsCount o,-(o.bs : Int)))))
    (fun _ => .select (.maxBy fun o => toLex (prebleTpsCount o,-(o.bs : Int))))

end
end Policy
end BlitzRouter
