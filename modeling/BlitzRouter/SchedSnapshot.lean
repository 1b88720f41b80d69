import BlitzRouter.Completion

namespace BlitzRouter

-- Token counts of the simulator are u32.
def u32Size : Nat := 2^32

structure ReqProgress where
  requestId : RequestId
  inputLength : Nat
  processedTokens : Nat
deriving DecidableEq,Repr

namespace ReqProgress

def new (requestId : RequestId) (inputLength : Nat) : ReqProgress := ⟨requestId,inputLength,0⟩

def isPrefilling (r : ReqProgress) : Bool := r.processedTokens < r.inputLength

def prefillRemaining (r : ReqProgress) : Nat := r.inputLength-r.processedTokens

end ReqProgress

structure SchedSnapshot where
  waiting : List ReqProgress
  running : Table RequestId ReqProgress
deriving DecidableEq

-- "RUNNING" is what the other engine reports for a decode.
def RequestStepOutput.decodes (o : RequestStepOutput) : Bool :=
  match o.state with
  | .decode => true
  | .other "RUNNING" => true
  | _ => false

namespace SchedSnapshot

def new : SchedSnapshot := ⟨[],∅⟩

def admitReq (s : SchedSnapshot) (req : ReqProgress) : SchedSnapshot := {s with waiting := s.waiting++[req]}

-- `running.get_mut(&rid)`, when it finds the request.
def update (s : SchedSnapshot) (rid : RequestId) (change : ReqProgress → ReqProgress) : SchedSnapshot :=
  match s.running.lookup rid with
  | none => s
  | some req => {s with running := s.running.insert rid (change req)}

def promoteToRunning (s : SchedSnapshot) (rid : RequestId) : SchedSnapshot :=
  match s.waiting.find? fun r => r.requestId == rid with
  | none => s
  | some req => ⟨s.waiting.eraseP fun r => r.requestId == rid,s.running.insert rid req⟩

def preempt (s : SchedSnapshot) (rid : RequestId) : SchedSnapshot :=
  match s.running.lookup rid with
  | none => s
  | some req => ⟨{req with processedTokens := 0}::s.waiting,s.running.erase rid⟩

def dropRequest (s : SchedSnapshot) (rid : RequestId) : SchedSnapshot :=
  ⟨s.waiting.filter fun r => r.requestId != rid,s.running.erase rid⟩

def isInFlight (s : SchedSnapshot) (rid : RequestId) : Bool :=
  (s.running.lookup rid).isSome || s.waiting.any fun r => r.requestId == rid

def absorbPrefill (s : SchedSnapshot) (o : RequestStepOutput) (chunk : Nat) : SchedSnapshot :=
  let s := if (s.running.lookup o.requestId).isSome then s else s.promoteToRunning o.requestId
  s.update o.requestId fun req =>
    {req with processedTokens := min ((o.prevComputedTokens+chunk%u32Size)%u32Size) (max req.inputLength 1)}

def absorbDecode (s : SchedSnapshot) (rid : RequestId) : SchedSnapshot :=
  let s := if (s.running.lookup rid).isSome then s
    else (s.promoteToRunning rid).update rid fun req => {req with processedTokens := req.inputLength}
  s.update rid fun req => {req with processedTokens := min (req.processedTokens+1) (u32Size-1)}

-- One iteration over the outputs, with the number of PREFILL outputs before it.
def syncOutput (perChunk remainder : Nat) (acc : SchedSnapshot × Nat) (o : RequestStepOutput) : SchedSnapshot × Nat :=
  let (s,prefillSeen) := acc
  let (s,prefillSeen) :=
    if o.state = .prefill then (s.absorbPrefill o (if prefillSeen < remainder then perChunk+1 else perChunk),prefillSeen+1)
    else if o.decodes then (s.absorbDecode o.requestId,prefillSeen)
    else (s,prefillSeen)
  (if o.isFinished then s.dropRequest o.requestId else s,prefillSeen)

def sync (s : SchedSnapshot) (m : EngineStepOutput) : SchedSnapshot :=
  let prefillCount := (m.outputs.filter fun o => o.state = .prefill).length
  let (perChunk,remainder) := if prefillCount > 0 then (m.prefillTokens/prefillCount,m.prefillTokens%prefillCount) else (0,0)
  let (s,_) := m.outputs.foldl (syncOutput perChunk remainder) (s,0)
  let s := m.preemptedIds.foldl preempt s
  m.abortedRequests.foldl dropRequest s

section Absorption
variable {P : SchedSnapshot → Prop} {s : SchedSnapshot}

-- What the parts of one output preserve, the output preserves.
theorem syncOutput_kept (perChunk remainder : Nat) (acc : SchedSnapshot × Nat) (o : RequestStepOutput)
    (promote : ∀ s, P s → P (s.promoteToRunning o.requestId))
    (update : ∀ s change, (∀ r, (change r).requestId = r.requestId) → P s → P (s.update o.requestId change))
    (drop : ∀ s, P s → P (s.dropRequest o.requestId)) (holds : P acc.1) : P (syncOutput perChunk remainder acc o).1 := by
  obtain ⟨s,seen⟩ := acc
  have prefilled : ∀ chunk, P (s.absorbPrefill o chunk) := fun chunk => by
    unfold absorbPrefill
    refine update _ _ (fun _ => rfl) ?_
    split
    · exact holds
    · exact promote _ holds
  have decoded : P (s.absorbDecode o.requestId) := by
    unfold absorbDecode
    refine update _ _ (fun _ => rfl) ?_
    split
    · exact holds
    · exact update _ _ (fun _ => rfl) (promote _ holds)
  have moved : ∀ chunk, P (if o.state = .prefill then (s.absorbPrefill o chunk,seen+1)
      else if o.decodes then (s.absorbDecode o.requestId,seen) else (s,seen)).1 := fun chunk => by
    split
    · exact prefilled chunk
    · split
      · exact decoded
      · exact holds
  unfold syncOutput
  simp only
  split
  · exact drop _ (moved _)
  · exact moved _

def mentions (m : EngineStepOutput) (rid : RequestId) : Bool :=
  m.outputs.any (fun o => o.requestId == rid) || m.preemptedIds.contains rid || m.abortedRequests.contains rid

-- What every part of a step preserves, the whole step preserves.
theorem sync_induction (m : EngineStepOutput)
    (promote : ∀ s rid, mentions m rid = true → P s → P (s.promoteToRunning rid))
    (update : ∀ s rid change, mentions m rid = true → (∀ r, (change r).requestId = r.requestId) → P s → P (s.update rid change))
    (preempt : ∀ s rid, mentions m rid = true → P s → P (s.preempt rid))
    (drop : ∀ s rid, mentions m rid = true → P s → P (s.dropRequest rid)) (start : P s) : P (s.sync m) := by
  have output : ∀ perChunk remainder (acc : SchedSnapshot × Nat), P acc.1 → ∀ o ∈ m.outputs,
      P (syncOutput perChunk remainder acc o).1 := by
    intro perChunk remainder acc holds o member
    have named : mentions m o.requestId = true := by
      simp only [mentions,Bool.or_eq_true,List.any_eq_true]
      exact .inl (.inl ⟨o,member,beq_self_eq_true _⟩)
    exact syncOutput_kept perChunk remainder acc o (fun s => promote s _ named) (fun s change => update s _ change named)
      (fun s => drop s _ named) holds
  have outputs : ∀ perChunk remainder, P (m.outputs.foldl (syncOutput perChunk remainder) (s,0)).1 := fun perChunk remainder =>
    List.foldlRecOn m.outputs (syncOutput perChunk remainder) (motive := fun acc => P acc.1) start (output perChunk remainder)
  unfold sync
  refine List.foldlRecOn (motive := P) _ _ (List.foldlRecOn (motive := P) _ _ (outputs _ _) ?_) ?_
  · intro s holds rid member
    exact preempt s rid (by simp [mentions,member]) holds
  · intro s holds rid member
    exact drop s rid (by simp [mentions,member]) holds

end Absorption

end SchedSnapshot
end BlitzRouter
