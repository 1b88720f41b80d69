import BlitzRouter.SchedSnapshot

namespace BlitzRouter

structure BatchForPredictor where
  numTokens : Nat
  numTokensRounded : Nat
  numPrefillTokens : List Nat
  numPrefillComputedTokens : List Nat
  numDecodeComputedTokens : List Nat
  size : Nat
deriving DecidableEq,Repr

-- `τ` is the f32 of the latencies: the simulator only adds and hands on.
structure RolloutSlot (τ : Type) where
  batch : BatchForPredictor
  predictedLatMs : τ
  prefillRids : List RequestId
  decodeRids : List RequestId
deriving DecidableEq,Repr

def RolloutSlot.compositionKnown {τ : Type} (slot : RolloutSlot τ) : Bool :=
  !slot.prefillRids.isEmpty || !slot.decodeRids.isEmpty

structure RolloutBuffer (τ : Type) where
  candidateId : Option RequestId
  slots : List (RolloutSlot τ)
  prefillBeginStep : Option Nat
  prefillEndStep : Option Nat
  inDecodeStep : Option Nat
deriving DecidableEq,Repr

structure RolloutGist (τ : Type) where
  ttftMs : Option τ
  chunkedPrefillSteps : Option Nat
  inDecodeTbtMs : Option τ
deriving DecidableEq,Repr

def RolloutBuffer.gist {τ : Type} [Zero τ] [Add τ] (buffer : RolloutBuffer τ) : RolloutGist τ where
  ttftMs := buffer.prefillEndStep.map fun i => ((buffer.slots.take (i+1)).map fun s => s.predictedLatMs).foldl (·+·) 0
  chunkedPrefillSteps :=
    match buffer.prefillBeginStep,buffer.prefillEndStep with
    | some begin,some stop => if stop ≥ begin then some (stop-begin+1) else none
    | _,_ => none
  inDecodeTbtMs := (buffer.inDecodeStep.bind fun i => buffer.slots[i]?).map fun s => s.predictedLatMs

-- Both are at least one, whatever the configuration says.
structure StepLimits where
  blockSize : Nat
  tokenBudget : Nat
  blockPositive : 0 < blockSize
  budgetPositive : 0 < tokenBudget

def StepLimits.new (blockSize tokenBudget : Nat) : StepLimits :=
  ⟨max blockSize 1,max tokenBudget 1,by omega,by omega⟩

-- A request as one simulated step sees it: what it had computed, and how many
-- prefill tokens the step gives it.
structure PrefillPart where
  rid : RequestId
  computed : Nat
  chunk : Nat
deriving DecidableEq,Repr

structure DecodePart where
  rid : RequestId
  computed : Nat
deriving DecidableEq,Repr

namespace SchedSnapshot

def values (s : SchedSnapshot) : List ReqProgress := s.running.entries.map Sigma.snd

def sortedIds (requests : List ReqProgress) : List RequestId :=
  (requests.map fun r => r.requestId).insertionSort (·≤·)

def runningDecoders (s : SchedSnapshot) : List RequestId := sortedIds (s.values.filter fun r => !r.isPrefilling)

def runningPrefillers (s : SchedSnapshot) : List RequestId := sortedIds (s.values.filter fun r => r.isPrefilling)

def decodeParts (s : SchedSnapshot) (rids : List RequestId) : List DecodePart :=
  rids.filterMap fun rid => (s.running.lookup rid).map fun req => ⟨rid,req.processedTokens⟩

-- The running prefillers take what is left of the budget, each up to its need.
def continuePrefills : List RequestId → SchedSnapshot → Int → SchedSnapshot × Int × List PrefillPart
  | [],s,budget => (s,budget,[])
  | rid::rest,s,budget =>
    if budget ≤ 0 then (s,budget,[])
    else match s.running.lookup rid with
      | none => continuePrefills rest s budget
      | some req =>
        let chunk := (max (min (req.prefillRemaining : Int) budget) 0).toNat
        if chunk = 0 then continuePrefills rest s budget
        else
          let next := {s with running := s.running.insert rid {req with processedTokens := req.processedTokens+chunk}}
          let (s,left,parts) := continuePrefills rest next (budget-chunk)
          (s,left,⟨rid,req.processedTokens,chunk⟩::parts)

-- The queue from its front while budget is left; a request that owes no prefill
-- starts to run without a part in this step.
def pullWaiting : List ReqProgress → Table RequestId ReqProgress → Int → SchedSnapshot × List PrefillPart
  | [],running,_ => (⟨[],running⟩,[])
  | next::rest,running,budget =>
    if budget ≤ 0 then (⟨next::rest,running⟩,[])
    else
      let chunk := (max (min (next.prefillRemaining : Int) budget) 0).toNat
      if chunk = 0 then pullWaiting rest (running.insert next.requestId next) budget
      else
        let (s,parts) := pullWaiting rest
          (running.insert next.requestId {next with processedTokens := next.processedTokens+chunk}) (budget-chunk)
        (s,⟨next.requestId,next.processedTokens,chunk⟩::parts)

end SchedSnapshot

-- What one simulated engine step takes from the queues.
def scheduleStep (limits : StepLimits) (sched : SchedSnapshot) : SchedSnapshot × List PrefillPart × List DecodePart :=
  let decodes := sched.decodeParts sched.runningDecoders
  let budget := (limits.tokenBudget : Int)-decodes.length
  let (continued,left,parts) := SchedSnapshot.continuePrefills sched.runningPrefillers sched budget
  let (pulled,more) := SchedSnapshot.pullWaiting continued.waiting continued.running left
  (pulled,parts++more,decodes)

def batchOf (limits : StepLimits) (prefills : List PrefillPart) (decodes : List DecodePart) : BatchForPredictor :=
  let numTokens := (prefills.map fun p => p.chunk).sum+decodes.length
  ⟨numTokens,(numTokens+limits.blockSize-1)/limits.blockSize*limits.blockSize,prefills.map fun p => p.chunk,
    prefills.map fun p => p.computed,decodes.map fun d => d.computed,prefills.length+decodes.length⟩

section Simulation
variable {τ : Type} (predict : BatchForPredictor → τ) (limits : StepLimits)

-- The life of the candidate on the slots of the buffer.
def trackCandidate (sched : SchedSnapshot) (slotIdx : Nat) (candidateId : RequestId) (slot : RolloutSlot τ)
    (buffer : RolloutBuffer τ) : RolloutBuffer τ :=
  let inPrefill := slot.prefillRids.contains candidateId
  let inDecode := slot.decodeRids.contains candidateId
  let buffer := if inPrefill && buffer.prefillBeginStep.isNone then {buffer with prefillBeginStep := some slotIdx} else buffer
  let buffer :=
    if inPrefill then
      match sched.running.lookup candidateId with
      | some req => if !req.isPrefilling then {buffer with prefillEndStep := some slotIdx} else buffer
      | none => buffer
    else buffer
  if inDecode && buffer.inDecodeStep.isNone then {buffer with inDecodeStep := some slotIdx} else buffer

-- The queues move also when there is nothing to schedule and no slot comes out.
def simulateOneSlot (sched : SchedSnapshot) (slotIdx : Nat) (candidateId : RequestId) (buffer : RolloutBuffer τ) :
    SchedSnapshot × RolloutBuffer τ × Option (RolloutSlot τ) :=
  let (sched,prefills,decodes) := scheduleStep limits sched
  if prefills.isEmpty && decodes.isEmpty then (sched,buffer,none)
  else
    let batch := batchOf limits prefills decodes
    let slot : RolloutSlot τ := ⟨batch,predict batch,prefills.map fun p => p.rid,decodes.map fun d => d.rid⟩
    (sched,trackCandidate sched slotIdx candidateId slot buffer,some slot)

def maxSlots : Nat := 256

-- `while buffer.slots.len() < MAX_SLOTS`; every turn but the last adds a slot, so
-- the free places count the turns.
def scheduleLoop (candidateId : RequestId) : Nat → SchedSnapshot → RolloutBuffer τ → RolloutBuffer τ × SchedSnapshot
  | 0,sched,buffer => (buffer,sched)
  | free+1,sched,buffer =>
    match simulateOneSlot predict limits sched buffer.slots.length candidateId buffer with
    | (sched,buffer,none) => (buffer,sched)
    | (sched,buffer,some slot) =>
      let buffer := {buffer with slots := buffer.slots++[slot]}
      if buffer.inDecodeStep.isSome then (buffer,sched) else scheduleLoop candidateId free sched buffer

-- The candidate as the queue gets it: the cached blocks count as processed. Both
-- the conversion to u32 and the product are the source's.
def candidateProgress (candidateId : RequestId) (inputLength compositeHits : Nat) : ReqProgress :=
  let cachedTokens := min (compositeHits%u32Size*limits.blockSize) (u32Size-1)
  {ReqProgress.new candidateId inputLength with processedTokens := min cachedTokens inputLength}

def runScheduleLoopFromScratch (sched : SchedSnapshot) (candidateId : RequestId) (inputLength compositeHits : Nat) :
    RolloutBuffer τ × SchedSnapshot :=
  scheduleLoop predict limits candidateId maxSlots (sched.admitReq (candidateProgress limits candidateId inputLength compositeHits))
    ⟨some candidateId,[],none,none,none⟩

def extendWithCandidate (buffer : RolloutBuffer τ) (baselineTailSched : SchedSnapshot) (candidateId : RequestId)
    (inputLength compositeHits : Nat) : RolloutBuffer τ × SchedSnapshot × Option (Nat × SchedSnapshot) :=
  let savepoint := if buffer.slots.isEmpty then none else some (buffer.slots.length,baselineTailSched)
  let (buffer,tail) := scheduleLoop predict limits candidateId (maxSlots-buffer.slots.length)
    (baselineTailSched.admitReq (candidateProgress limits candidateId inputLength compositeHits))
    ⟨some candidateId,buffer.slots,none,none,none⟩
  (buffer,tail,savepoint)

end Simulation
end BlitzRouter
