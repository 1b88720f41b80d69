import Mathlib.Data.Finset.Card
import Mathlib.Data.Finset.SDiff
import BlitzRouter.Runs

namespace BlitzRouter

-- A function of the specification language: what it maps outside of its domain is
-- left open there and carries no meaning here.
structure Fn (ι α : Type) where
  dom : Finset ι
  val : ι → α

namespace Fn
variable {ι α : Type} [DecidableEq ι]

def empty [Inhabited α] : Fn ι α := ⟨∅,fun _ => default⟩

def removeKey (f : Fn ι α) (k : ι) : Fn ι α := ⟨f.dom \ {k},f.val⟩

end Fn

namespace AbortRecovery

inductive Phase where
  | waiting | prefilling | decoding | excepted | invalid
deriving DecidableEq,Repr,Inhabited

inductive ExtState where
  | waitingTerm | faulted | exited
deriving DecidableEq,Repr,Inhabited

inductive Sse where
  | prefill | decode
deriving DecidableEq,Repr

structure Ext where
  state : ExtState
  live : Bool
  waitingTerm : Bool
deriving DecidableEq,Repr,Inhabited

-- No case of the first six covers an invalid phase.
def phaseTransition : Phase → Sse → Phase
  | .waiting,.prefill => .prefilling
  | .waiting,.decode => .decoding
  | .prefilling,.prefill => .prefilling
  | .prefilling,.decode => .decoding
  | .decoding,.decode => .decoding
  | .decoding,.prefill => .prefilling
  | .excepted,_ => .excepted
  | .invalid,_ => .invalid

structure State (ι : Type) where
  queue : Finset ι
  wqChannel : List ι
  enginePending : Finset ι
  entries : Fn ι Phase
  exceptCtx : Fn ι Ext
  tempLeaving : Finset ι
  cancelReqIds : List ι
  phases : Fn ι Phase
  finished : Finset ι
  abortedAtRouter : Finset ι
  bs : Int
  allTokens : Nat
  engineActive : Finset ι
  engineAborted : Finset ι
  stepCount : Nat

section
variable {ι : Type} [DecidableEq ι]

def init (requestIds : Finset ι) : State ι where
  queue := requestIds
  wqChannel := []
  enginePending := ∅
  entries := .empty
  exceptCtx := .empty
  tempLeaving := ∅
  cancelReqIds := []
  phases := .empty
  finished := ∅
  abortedAtRouter := ∅
  bs := 0
  allTokens := 0
  engineActive := ∅
  engineAborted := ∅
  stepCount := 0

-- What a step output chooses. Values outside of `reported` are not looked at.
structure Output (ι : Type) where
  reported : Finset ι
  sseStates : ι → Sse
  isFin : ι → Bool
  frontendAborts : Finset ι
  termIds : Finset ι
  faultIds : Finset ι

namespace Output

def Enabled (s : State ι) (o : Output ι) : Prop :=
  (s.entries.dom ∪ s.exceptCtx.dom ∪ s.engineActive).Nonempty ∧
    o.reported ⊆ s.entries.dom ∪ s.exceptCtx.dom ∧
    o.frontendAborts ⊆ o.reported ∩ s.entries.dom ∧
    o.termIds ⊆ s.abortedAtRouter ∩ s.exceptCtx.dom ∧
    o.faultIds ⊆ s.entries.dom \ o.reported ∧
    o.reported ⊆ s.engineActive ∧
    (∀ id ∈ o.termIds, id ∈ s.exceptCtx.dom ∧ (s.exceptCtx.val id).state = .waitingTerm) ∧
    o.faultIds ∩ s.exceptCtx.dom = ∅

variable (s : State ι) (o : Output ι)

def finishing : Finset ι := (o.reported ∩ s.entries.dom).filter (o.isFin ·)

def actualAborts : Finset ι := o.frontendAborts \ o.finishing s

def exceptedFinishing : Finset ι := (o.reported ∩ s.exceptCtx.dom).filter (o.isFin ·)

def entriesAfterFinish : Fn ι Phase := ⟨((s.entries.dom \ o.finishing s) \ o.actualAborts s) \ o.faultIds,s.entries.val⟩

def phasesAfter : Fn ι Phase where
  dom := s.phases.dom
  val id :=
    if id ∈ o.finishing s ∨ id ∈ o.exceptedFinishing s then s.phases.val id
    else if id ∈ o.actualAborts s ∨ id ∈ o.faultIds then .excepted
    else if id ∈ o.reported ∧ id ∈ s.entries.dom then phaseTransition (s.phases.val id) (o.sseStates id)
    else s.phases.val id

def phasesCleaned : Fn ι Phase := ⟨(o.phasesAfter s).dom \ o.finishing s,(o.phasesAfter s).val⟩

def newAbortEntries : Fn ι Ext := ⟨o.actualAborts s,fun _ => ⟨.waitingTerm,false,true⟩⟩

def newFaultEntries : Fn ι Ext := ⟨o.faultIds,fun _ => ⟨.faulted,true,false⟩⟩

def exceptAfterExit : Fn ι Ext where
  dom := s.exceptCtx.dom \ o.exceptedFinishing s
  val id := if id ∈ o.reported then {s.exceptCtx.val id with live := true} else s.exceptCtx.val id

def exceptAfterTerm : Fn ι Ext := ⟨(o.exceptAfterExit s).dom \ o.termIds,(o.exceptAfterExit s).val⟩

def phasesAfterTerm : Fn ι Phase := ⟨(o.phasesCleaned s).dom \ o.termIds,(o.phasesCleaned s).val⟩

def dropReady : Finset ι :=
  (o.exceptAfterTerm s).dom.filter fun id =>
    ((o.exceptAfterTerm s).val id).state = .faulted ∧ ((o.exceptAfterTerm s).val id).live = false

def exceptFinal : Fn ι Ext where
  dom := (o.exceptAfterTerm s).dom \ o.dropReady s
  val id := {(o.exceptAfterTerm s).val id with live := false}

def phasesFinal : Fn ι Phase := ⟨((o.phasesAfterTerm s).dom \ o.dropReady s) \ o.exceptedFinishing s,(o.phasesAfterTerm s).val⟩

def allExcept : Fn ι Ext where
  dom := (o.exceptFinal s).dom ∪ (o.newAbortEntries s).dom ∪ o.newFaultEntries.dom
  val id :=
    if id ∈ (o.newAbortEntries s).dom then (o.newAbortEntries s).val id
    else if id ∈ o.newFaultEntries.dom then o.newFaultEntries.val id
    else (o.exceptFinal s).val id

def allPhases : Fn ι Phase where
  dom := (o.phasesFinal s).dom ∪ (o.newAbortEntries s).dom ∪ o.newFaultEntries.dom
  val id :=
    if id ∈ (o.newAbortEntries s).dom ∨ id ∈ o.newFaultEntries.dom then .excepted else (o.phasesFinal s).val id

def bsDelta : Nat := (o.finishing s).card+(o.exceptedFinishing s).card+o.termIds.card+(o.dropReady s).card

def newlyFinished : Finset ι := o.finishing s ∪ o.exceptedFinishing s ∪ o.termIds ∪ o.dropReady s

def engineAfter : Finset ι := (s.engineActive \ o.finishing s) \ o.exceptedFinishing s

def apply : State ι :=
  let bsRaw : Int := s.bs+(o.reported ∩ s.entries.dom).card-o.bsDelta s
  {s with
    entries := o.entriesAfterFinish s
    exceptCtx := o.allExcept s
    phases := o.allPhases s
    tempLeaving := ∅
    cancelReqIds := []
    finished := s.finished ∪ o.newlyFinished s
    abortedAtRouter := (s.abortedAtRouter ∪ o.actualAborts s) \ o.termIds
    bs := if bsRaw < 0 then 0 else bsRaw
    engineActive := o.engineAfter s
    engineAborted := s.engineAborted ∪ o.termIds
    stepCount := s.stepCount+1}

end Output

inductive Action (ι : Type) where
  | workLoopDispatch (id : ι)
  | completionLoopDrainChannel
  | engineAcceptRequest (id : ι)
  | completionLoopStepOutput (o : Output ι)
  | engineProduceFinish (id : ι)
  | engineAcknowledgeAbort (id : ι)
  | frontendAbort (id : ι)
  | stutter

def Enabled (channelCap : Nat) (s : State ι) : Action ι → Prop
  | .workLoopDispatch id => s.wqChannel.length < channelCap ∧ id ∈ s.queue
  | .completionLoopDrainChannel => s.wqChannel ≠ []
  | .engineAcceptRequest id => id ∈ s.enginePending
  | .completionLoopStepOutput o => o.Enabled s
  | .engineProduceFinish id => id ∈ s.engineActive ∧ id ∈ s.entries.dom
  | .engineAcknowledgeAbort id =>
    id ∈ s.abortedAtRouter ∧ id ∈ s.exceptCtx.dom ∧ (s.exceptCtx.val id).state = .waitingTerm ∧ id ∉ s.engineAborted
  | .frontendAbort id => id ∈ s.entries.dom ∧ id ∉ s.abortedAtRouter
  | .stutter => True

def drained (s : State ι) (f : Fn ι Phase) : Fn ι Phase where
  dom := f.dom ∪ s.wqChannel.toFinset
  val id := if id ∈ s.wqChannel.toFinset then .waiting else f.val id

def apply (s : State ι) : Action ι → State ι
  | .workLoopDispatch id =>
    {s with queue := s.queue \ {id},enginePending := s.enginePending ∪ {id},wqChannel := s.wqChannel++[id]}
  | .completionLoopDrainChannel => {s with entries := drained s s.entries,phases := drained s s.phases,wqChannel := []}
  | .engineAcceptRequest id => {s with engineActive := s.engineActive ∪ {id},enginePending := s.enginePending \ {id}}
  | .completionLoopStepOutput o => o.apply s
  | .engineProduceFinish id =>
    {s with
      entries := s.entries.removeKey id
      phases := s.phases.removeKey id
      finished := s.finished ∪ {id}
      engineActive := s.engineActive \ {id}
      bs := if s.bs > 0 then s.bs-1 else 0}
  | .engineAcknowledgeAbort id =>
    {s with
      exceptCtx := s.exceptCtx.removeKey id
      phases := s.phases.removeKey id
      finished := s.finished ∪ {id}
      abortedAtRouter := s.abortedAtRouter \ {id}
      engineAborted := s.engineAborted ∪ {id}
      engineActive := s.engineActive \ {id}
      bs := if s.bs > 0 then s.bs-1 else 0}
  | .frontendAbort id => {s with abortedAtRouter := s.abortedAtRouter ∪ {id}}
  | .stutter => s

def Next (channelCap : Nat) (s : State ι) (a : Action ι) (s' : State ι) : Prop := Enabled channelCap s a ∧ s' = apply s a

end

section
variable {ι : Type} [DecidableEq ι] (s : State ι)

def OwnershipUniqueness : Prop :=
  s.entries.dom ∩ s.exceptCtx.dom = ∅ ∧ s.entries.dom ∩ s.finished = ∅ ∧ s.exceptCtx.dom ∩ s.finished = ∅

def PhaseConsistency : Prop :=
  (∀ id ∈ s.entries.dom, id ∈ s.phases.dom ∧ s.phases.val id ≠ .excepted) ∧
    ∀ id ∈ s.exceptCtx.dom, id ∈ s.phases.dom ∧ s.phases.val id = .excepted

def PhaseCompleteness : Prop := s.phases.dom = s.entries.dom ∪ s.exceptCtx.dom

def ExceptionStateValidity : Prop :=
  ∀ id ∈ s.exceptCtx.dom,
    ((s.exceptCtx.val id).state = .waitingTerm ∨ (s.exceptCtx.val id).state = .faulted ∨ (s.exceptCtx.val id).state = .exited) ∧
      ((s.exceptCtx.val id).state = .waitingTerm → id ∈ s.abortedAtRouter)

def NoResurrection : Prop := s.finished ∩ s.entries.dom = ∅ ∧ s.finished ∩ s.exceptCtx.dom = ∅

def EngineContainment : Prop :=
  s.engineActive ⊆ s.entries.dom ∪ s.exceptCtx.dom ∪ s.finished ∪ s.enginePending ∪ s.wqChannel.toFinset

def MetricNonNegative : Prop := 0 ≤ s.bs

structure SafetyInvariant : Prop where
  ownership : OwnershipUniqueness s
  consistency : PhaseConsistency s
  completeness : PhaseCompleteness s
  exceptions : ExceptionStateValidity s
  no_resurrection : NoResurrection s
  containment : EngineContainment s
  metric : MetricNonNegative s

end

end AbortRecovery
end BlitzRouter
