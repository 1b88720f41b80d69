import BlitzRouter.ExceptContext

namespace BlitzRouter
open Radix

-- The state text the engine reports for a request.
inductive SseState where
  | prefill
  | decode
  | other (text : String)
deriving DecidableEq,Repr

structure RequestStepOutput where
  requestId : RequestId
  newTokenIds : List TokenId
  state : SseState
  isFinished : Bool
  hitTokenCnt : Nat
  prevComputedTokens : Nat
deriving DecidableEq,Repr

-- The two maps are keyed lists, in whatever order the loop visits them.
structure EngineStepOutput where
  prefillTokens : Nat
  latency : Nat
  outputs : List RequestStepOutput
  evictedBlockHashes : List (List Hash)
  evictedBlockIds : List BlockId
  curUsedBlockIds : List (RequestId × List BlockId)
  newBlockHashesIds : List (RequestId × List BlockId)
  preemptedIds : List RequestId
  abortedRequests : List RequestId
  stepId : Nat
deriving DecidableEq,Repr

inductive RequestPhase where
  | waiting
  | prefilling
  | decoding
  | excepted
deriving DecidableEq,Repr

-- Release semantics: the two transitions a debug build rejects are tolerated.
def RequestPhase.transition (id : RequestId) : RequestPhase → SseState → Except Panic RequestPhase
  | .waiting,.prefill => .ok .prefilling
  | .prefilling,.prefill => .ok .prefilling
  | .waiting,.decode => .ok .decoding
  | .prefilling,.decode => .ok .decoding
  | .decoding,.decode => .ok .decoding
  | .decoding,.prefill => .ok .prefilling
  | .excepted,_ => .ok .excepted
  | _,.other _ => .error (.invalidState id)

-- The locals of the loop. `cancelReqIds` has the top of the stack in front, and
-- `released` keeps what went out of scope, with the messages it sent.
structure CompletionLoop where
  entries : Table RequestId Entry
  requestPhases : Table RequestId RequestPhase
  cancelReqIds : List RequestId
  exceptContext : ExtContext
  tempLeavingEntries : List (RequestId × Entry)
  skippedFaultEntries : List RequestId
  released : List Entry

namespace CompletionLoop

def new : CompletionLoop := ⟨∅,∅,[],.new,[],[],[]⟩

def receive (s : CompletionLoop) (entry : Entry) : CompletionLoop :=
  {s with entries := s.entries.insert entry.request.requestId entry,
          requestPhases := s.requestPhases.insert entry.request.requestId .waiting}

def drain (s : CompletionLoop) (posted : List Entry) : CompletionLoop := posted.foldl receive s

def find (s : CompletionLoop) (id : RequestId) : Option Entry := (s.entries.lookup id).or (s.exceptContext.entries.lookup id)

-- Writes through the reference that `find` hands out.
def store (s : CompletionLoop) (id : RequestId) (entry : Entry) : CompletionLoop :=
  if (s.entries.lookup id).isSome then {s with entries := s.entries.insert id entry}
  else {s with exceptContext := {s.exceptContext with entries := s.exceptContext.entries.insert id entry}}

section FastPath
variable (ext : External)

-- A finished output: an entry of the loop stays until its last message is sent,
-- one of the exception context leaves at once. `owed` is what it still counts for.
def finished (s : CompletionLoop) (d : LMetricDec) (id : RequestId) (owed : Entry → Int) :
    Except Panic (CompletionLoop × LMetricDec) :=
  match s.entries.lookup id with
  | some entry => .ok (s,{d with bsDec := d.bsDec+1,allTokensInc := d.allTokensInc-owed entry})
  | none => do
    let (ctx,returned) ← s.exceptContext.put (.exit id)
    let s := {s with exceptContext := ctx}
    match returned with
    | some entry =>
      .ok ({s with tempLeavingEntries := s.tempLeavingEntries++[(id,entry)]},
        {d with bsDec := d.bsDec+1,allTokensInc := d.allTokensInc-owed entry})
    | none => .ok (s,d)

def prefillFinished (s : CompletionLoop) (d : LMetricDec) (o : RequestStepOutput) : Except Panic (CompletionLoop × LMetricDec) :=
  s.finished d o.requestId fun entry => entry.request.inputLength

def decodeFinished (s : CompletionLoop) (d : LMetricDec) (o : RequestStepOutput) : Except Panic (CompletionLoop × LMetricDec) :=
  s.finished d o.requestId fun entry => entry.request.inputLength+entry.generatedTokenCnt

-- The token increment is made in advance and undone for an unknown request.
def prefillUpdate (s : CompletionLoop) (d : LMetricDec) (o : RequestStepOutput) : Except Panic (CompletionLoop × LMetricDec) :=
  let d := {d with allTokensInc := d.allTokensInc+o.newTokenIds.length}
  match s.find o.requestId with
  | some entry =>
    match entry.blockHashState.setRealTokenHitsGetDiff o.hitTokenCnt with
    | none => .error (.realHits o.requestId)
    | some (state,incHitNblks) =>
      let entry := {entry with blockHashState := state}
      .ok (s.store o.requestId (entry.appendState ext o.newTokenIds),
        {d with prefillTokensDec := d.prefillTokensDec+incHitNblks*state.blockSize})
  | none => .ok (s,{d with allTokensInc := d.allTokensInc-o.newTokenIds.length})

def decodeUpdate (s : CompletionLoop) (d : LMetricDec) (o : RequestStepOutput) : Except Panic (CompletionLoop × LMetricDec) :=
  match s.find o.requestId with
  | some entry =>
    .ok (s.store o.requestId (entry.appendState ext o.newTokenIds),
      {d with allTokensInc := d.allTokensInc+o.newTokenIds.length})
  | none => .ok (s,d)

def meterOutput (s : CompletionLoop) (d : LMetricDec) (o : RequestStepOutput) : Except Panic (CompletionLoop × LMetricDec) :=
  match o.state with
  | .prefill =>
    let d := if (s.find o.requestId).isSome then {d with waitingReqsDec := d.waitingReqsDec+1} else d
    if o.isFinished then s.prefillFinished d o else s.prefillUpdate ext d o
  | .decode => if o.isFinished then s.decodeFinished d o else s.decodeUpdate ext d o
  | .other _ => .error (.invalidState o.requestId)

def meterOutputs : CompletionLoop → LMetricDec → List RequestStepOutput → Except Panic (CompletionLoop × LMetricDec)
  | s,d,[] => .ok (s,d)
  | s,d,o::rest => do
    let (s,d) ← meterOutput ext s d o
    meterOutputs s d rest

def startDelta (m : EngineStepOutput) : LMetricDec := {LMetricDec.new with prefillTokensDec := m.prefillTokens}

def fastPath (s : CompletionLoop) (m : EngineStepOutput) : Except Panic (CompletionLoop × LMetricDec) :=
  s.meterOutputs ext (startDelta m) m.outputs

end FastPath

section CacheUpdate
variable {β : Type} [BlockHash β]

-- Block reports are looked up among the entries that leave in this step, too.
def findBlocks (s : CompletionLoop) (rid : RequestId) : Option Entry :=
  (s.find rid).or ((s.tempLeavingEntries.find? fun row => row.1 == rid).map Prod.snd)

def replaceFirst (rid : RequestId) (entry : Entry) : List (RequestId × Entry) → List (RequestId × Entry)
  | [] => []
  | row::rest => if row.1 = rid then (row.1,entry)::rest else row::replaceFirst rid entry rest

def storeBlocks (s : CompletionLoop) (rid : RequestId) (entry : Entry) : CompletionLoop :=
  if (s.find rid).isSome then s.store rid entry
  else {s with tempLeavingEntries := replaceFirst rid entry s.tempLeavingEntries}

def setCurUsed (s : CompletionLoop) : List (RequestId × List BlockId) → Except Panic CompletionLoop
  | [] => .ok s
  | (rid,blockIndices)::rest =>
    if blockIndices.isEmpty then setCurUsed s rest
    else
      match s.findBlocks rid with
      | none => .error (.blocksNotTracked rid)
      | some entry =>
        match entry.blockHashState.setBids blockIndices with
        | none => .error (.noBids rid)
        | some state => setCurUsed (s.storeBlocks rid {entry with blockHashState := state}) rest

def insertNewBlocks (s : CompletionLoop) (blockHash : β) : List (RequestId × List BlockId) → Except Panic (CompletionLoop × β)
  | [] => .ok (s,blockHash)
  | (rid,blockIndices)::rest =>
    if blockIndices.isEmpty then insertNewBlocks s blockHash rest
    else
      match s.findBlocks rid with
      | none => .error (.blocksNotTracked rid)
      | some entry =>
        match entry.blockHashState.getOntoHashes blockIndices with
        | none => .error (.bidsOutOfRange rid)
        | some (.error _) => .error (.inconsistentBid rid)
        | some (.ok (state,ontoHashes)) =>
          match BlockHash.insert blockHash ontoHashes blockIndices with
          | none => .error .blockHash
          | some (blockHash,_) => insertNewBlocks (s.storeBlocks rid {entry with blockHashState := state}) blockHash rest

def cacheUpdate (s : CompletionLoop) (blockHash : β) (m : EngineStepOutput) : Except Panic (CompletionLoop × β) :=
  match BlockHash.remove blockHash m.evictedBlockIds with
  | none => .error .blockHash
  | some blockHash => do
    let s ← s.setCurUsed m.curUsedBlockIds
    s.insertNewBlocks blockHash m.newBlockHashesIds

-- Everything up to the end of the first lock on the schedule context.
def meter (ext : External) (s : CompletionLoop) (context : ScheduleContext β) (m : EngineStepOutput) :
    Except Panic (CompletionLoop × ScheduleContext β) := do
  let (s,metricDelta) ← s.fastPath ext m
  let (s,blockHash) ← s.cacheUpdate context.blockHash m
  .ok (s,⟨context.lmetric.subAssign metricDelta,blockHash⟩)

end CacheUpdate

section SlowPath
variable (ext : External)

def tokenOf (t : TokenId) : Token := ⟨t,((ext.sharedTokenizer.bind fun decode => decode [t] false).getD "")⟩

-- The flag is lowered by the first message that finds the channel closed.
def sendTokens (tx : ResponseTx) : List TokenId → ResponseTx × Bool
  | [] => (tx,true)
  | t::rest =>
    let (tx,isOpen) := tx.send (.ok (.intermediate (tokenOf ext t) []))
    if isOpen then sendTokens tx rest else (tx,false)

def onPrefill (entry : Entry) (newTokenIds : List TokenId) : Entry × Bool :=
  let (tx,isOpen) := entry.responseTx.send (.ok .prefill)
  if isOpen then
    let (tx,isOpen) := sendTokens ext tx newTokenIds
    ({entry with responseTx := tx},isOpen)
  else ({entry with responseTx := tx},false)

def onDecode (entry : Entry) (newTokenIds : List TokenId) : Entry × Bool :=
  let (tx,isOpen) := sendTokens ext entry.responseTx newTokenIds
  ({entry with responseTx := tx},isOpen)

def onFinishRequest (entry : Entry) : Entry :=
  {entry with responseTx := (entry.responseTx.send (.ok (.ending Token.default [] GeneratedText.default))).1}

def advancePhase (s : CompletionLoop) (o : RequestStepOutput) : Except Panic CompletionLoop :=
  match s.requestPhases.lookup o.requestId with
  | none => .ok s
  | some phase => do
    let phase ← phase.transition o.requestId o.state
    .ok {s with requestPhases := s.requestPhases.insert o.requestId phase}

-- Both arms of the match: they differ in the messages they send only.
def delivered (s : CompletionLoop) (o : RequestStepOutput) (result : Entry × Bool) : CompletionLoop :=
  let cancelReqIds := if result.2 then s.cancelReqIds else o.requestId::s.cancelReqIds
  if o.isFinished then
    {s with entries := s.entries.erase o.requestId,requestPhases := s.requestPhases.erase o.requestId,
            released := s.released++[onFinishRequest result.1],
            cancelReqIds := if cancelReqIds.head? = some o.requestId then cancelReqIds.tail else cancelReqIds}
  else {s with entries := s.entries.insert o.requestId result.1,cancelReqIds := cancelReqIds}

def passOutput (s : CompletionLoop) (o : RequestStepOutput) : Except Panic CompletionLoop := do
  let s ← s.advancePhase o
  match o.state with
  | .prefill =>
    match s.entries.lookup o.requestId with
    | some entry => .ok (s.delivered o (onPrefill ext entry o.newTokenIds))
    | none => .ok s
  | .decode =>
    match s.entries.lookup o.requestId with
    | some entry => .ok (s.delivered o (onDecode ext entry o.newTokenIds))
    | none => .ok s
  | .other _ => .error (.invalidState o.requestId)

def slowPath : CompletionLoop → List RequestStepOutput → Except Panic CompletionLoop
  | s,[] => .ok s
  | s,o::rest => do
    let s ← passOutput ext s o
    slowPath s rest

end SlowPath

section Exceptions

def markExcepted (s : CompletionLoop) (id : RequestId) : CompletionLoop :=
  if (s.requestPhases.lookup id).isSome then {s with requestPhases := s.requestPhases.insert id .excepted} else s

def abortEntry (s : CompletionLoop) (id : RequestId) : Except Panic CompletionLoop :=
  let s := {s with skippedFaultEntries := s.skippedFaultEntries++[id]}
  match s.entries.lookup id with
  | none => .error (.abortNotTracked id)
  | some entry => do
    let s := {s with entries := s.entries.erase id}.markExcepted id
    let (ctx,_) ← s.exceptContext.put (.abort id entry)
    .ok {s with exceptContext := ctx}

def abortEntries : CompletionLoop → List RequestId → Except Panic CompletionLoop
  | s,[] => .ok s
  | s,id::rest => do
    let s ← s.abortEntry id
    abortEntries s rest

def onFrontendAbort (s : CompletionLoop) : Except Panic CompletionLoop :=
  {s with cancelReqIds := []}.abortEntries s.cancelReqIds

def faultEntry (s : CompletionLoop) (id : RequestId) : Except Panic CompletionLoop :=
  if id ∈ s.skippedFaultEntries then .ok s
  else
    match s.entries.lookup id with
    | none => .error (.faultNotTracked id)
    | some entry => do
      let tx := (entry.responseTx.send (.err (.generationError "Engine refused to serve!"))).1
      let s := {s with entries := s.entries.erase id}.markExcepted id
      let (ctx,_) ← s.exceptContext.put (.fault id {entry with responseTx := tx})
      .ok {s with exceptContext := ctx}

-- Everything that waits on the error channel is received.
def onBackendFault : CompletionLoop → List RequestId → Except Panic CompletionLoop
  | s,[] => .ok s
  | s,id::rest => do
    let s ← s.faultEntry id
    onBackendFault s rest

-- Entries that acknowledgements hand back, in order.
def terms : CompletionLoop → List RequestId → Except Panic (CompletionLoop × List Entry)
  | s,[] => .ok (s,[])
  | s,id::rest => do
    let s := {s with requestPhases := s.requestPhases.erase id}
    let (ctx,returned) ← s.exceptContext.put (.term id)
    let s := {s with exceptContext := ctx}
    match returned with
    | some entry => do
      let (s,left) ← terms {s with released := s.released++[entry]} rest
      .ok (s,entry::left)
    | none => terms s rest

def dropFaulted (s : CompletionLoop) : Except Panic (CompletionLoop × List Entry) := do
  let (ctx,dropped) ← s.exceptContext.filterDrop
  .ok ({s with exceptContext := ctx,requestPhases := dropped.foldl (fun phases row => phases.erase row.1) s.requestPhases,
               released := s.released++dropped.map Prod.snd},
    dropped.map Prod.snd)

def renew (s : CompletionLoop) : CompletionLoop :=
  {s with released := s.released++s.tempLeavingEntries.map Prod.snd,tempLeavingEntries := [],skippedFaultEntries := []}

-- The rest of the iteration, with the error notifications it receives and the
-- entries that leave the exception context in it.
def passGenerations (ext : External) (s : CompletionLoop) (m : EngineStepOutput) (errors : List RequestId) :
    Except Panic (CompletionLoop × List Entry) := do
  let s ← s.slowPath ext m.outputs
  let s ← s.onFrontendAbort
  let s ← s.onBackendFault errors
  let (s,terminated) ← s.terms m.abortedRequests
  let (s,dropped) ← s.dropFaulted
  .ok (s.renew,terminated++dropped)

structure LeaveDec where
  bsDec : Nat
  allTokensInc : Int

def LeaveDec.leave (d : LeaveDec) (entry : Entry) : LeaveDec :=
  ⟨d.bsDec+1,d.allTokensInc-(entry.request.inputLength+entry.generatedTokenCnt)⟩

def LeaveDec.apply (d : LeaveDec) (lmetric : LMetric) : LMetric :=
  if d.bsDec = 0 then lmetric
  else {lmetric with bs := lmetric.bs-d.bsDec,allTokens := saturatingAddSigned lmetric.allTokens d.allTokensInc}

def deliver {β : Type} (ext : External) (s : CompletionLoop) (context : ScheduleContext β) (m : EngineStepOutput)
    (errors : List RequestId) : Except Panic (CompletionLoop × ScheduleContext β) := do
  let (s,left) ← s.passGenerations ext m errors
  .ok (s,{context with lmetric := (left.foldl LeaveDec.leave ⟨0,0⟩).apply context.lmetric})

end Exceptions
end CompletionLoop
end BlitzRouter
