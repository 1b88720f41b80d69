import BlitzRouter.AbortRecoverySafety
import BlitzRouter.Fairness
import Mathlib.Data.Finset.Card

namespace BlitzRouter

-- Functions of the specification language are equal where they are defined.
def Fn.Agree {ι α : Type} (f g : Fn ι α) : Prop := f.dom = g.dom ∧ ∀ k ∈ f.dom, f.val k = g.val k

namespace AbortRecovery
open Fairness

-- `UNCHANGED vars`.
structure SameVars {ι : Type} (s t : State ι) : Prop where
  queue : t.queue = s.queue
  wqChannel : t.wqChannel = s.wqChannel
  enginePending : t.enginePending = s.enginePending
  entries : t.entries.Agree s.entries
  exceptCtx : t.exceptCtx.Agree s.exceptCtx
  tempLeaving : t.tempLeaving = s.tempLeaving
  cancelReqIds : t.cancelReqIds = s.cancelReqIds
  phases : t.phases.Agree s.phases
  finished : t.finished = s.finished
  abortedAtRouter : t.abortedAtRouter = s.abortedAtRouter
  bs : t.bs = s.bs
  allTokens : t.allTokens = s.allTokens
  engineActive : t.engineActive = s.engineActive
  engineAborted : t.engineAborted = s.engineAborted
  stepCount : t.stepCount = s.stepCount

-- The actions that `Fairness` names.
inductive FairAction where
  | drainChannel | stepOutput | acceptRequest | produceFinish | acknowledgeAbort
deriving DecidableEq,Repr

def Action.fairAction {ι : Type} : Action ι → Option FairAction
  | .completionLoopDrainChannel => some .drainChannel
  | .completionLoopStepOutput _ => some .stepOutput
  | .engineAcceptRequest _ => some .acceptRequest
  | .engineProduceFinish _ => some .produceFinish
  | .engineAcknowledgeAbort _ => some .acknowledgeAbort
  | .workLoopDispatch _ | .frontendAbort _ | .stutter => none

variable {ι : Type} [DecidableEq ι] {s s' : State ι} {a : Action ι} {channelCap : Nat}

def Acts (channelCap : Nat) (action : FairAction) (s t : State ι) : Prop := ∃ a, a.fairAction = some action ∧ Next channelCap s a t

structure LiveSpec (requestIds : Finset ι) (channelCap : Nat) (b : Nat → State ι) : Prop where
  init : b 0 = init requestIds
  next : ∀ n, ∃ a, Next channelCap (b n) a (b (n+1))
  fair : ∀ action, WeaklyFair SameVars (Acts channelCap action) b

def RequestTermination (requestIds : Finset ι) (b : Nat → State ι) : Prop :=
  ∀ id ∈ requestIds, LeadsTo (fun s => id ∈ s.entries.dom) (fun s => id ∈ s.finished) b

def ExceptionResolution (requestIds : Finset ι) (b : Nat → State ι) : Prop :=
  ∀ id ∈ requestIds, LeadsTo (fun s => id ∈ s.exceptCtx.dom) (fun s => id ∉ s.exceptCtx.dom) b

def ChannelDrain (b : Nat → State ι) : Prop := LeadsTo (fun s => 0 < s.wqChannel.length) (fun s => s.wqChannel.length = 0) b

-- A step output that does not report a request.
def SilentOutput (channelCap : Nat) (id : ι) (s t : State ι) : Prop :=
  ∃ o : Output ι, id ∉ o.reported ∧ Next channelCap s (.completionLoopStepOutput o) t

-- What any step does to where the requests are.
structure Moved (s s' : State ι) : Prop where
  queue : ∀ id ∈ s'.queue, id ∈ s.queue
  channel : ∀ id ∈ s'.wqChannel, id ∈ s.wqChannel ∨ id ∈ s.queue ∧ id ∈ s'.enginePending
  entries : ∀ id ∈ s'.entries.dom, id ∈ s.wqChannel ∨ id ∈ s.entries.dom
  excepts : ∀ id ∈ s'.exceptCtx.dom, id ∈ s.exceptCtx.dom ∨
    id ∈ s.entries.dom ∧ ((s'.exceptCtx.val id).state = .waitingTerm ∨ (s'.exceptCtx.val id).state = .faulted)
  finished : ∀ id ∈ s.finished, id ∈ s'.finished
  finishes : ∀ id ∈ s'.finished, id ∈ s.entries.dom ∨ id ∈ s.exceptCtx.dom ∨ id ∈ s.finished
  entry : ∀ id ∈ s.entries.dom, id ∈ s'.entries.dom ∨ id ∈ s'.exceptCtx.dom ∨ id ∈ s'.finished
  excepted : ∀ id ∈ s.exceptCtx.dom, id ∈ s'.finished ∨
    id ∈ s'.exceptCtx.dom ∧ (s'.exceptCtx.val id).state = (s.exceptCtx.val id).state ∧
      ((s.exceptCtx.val id).live = false → (s'.exceptCtx.val id).live = false)
  pending : ∀ id ∈ s'.enginePending, id ∈ s.queue ∨ id ∈ s.enginePending
  accepted : ∀ id ∈ s.enginePending, id ∈ s'.enginePending ∨ id ∈ s'.engineActive
  active : ∀ id ∈ s.engineActive, id ∈ s'.engineActive ∨ id ∈ s'.finished
  acknowledged : ∀ id ∈ s'.engineAborted, id ∈ s.engineAborted ∨ id ∈ s'.finished

omit [DecidableEq ι] in
theorem Moved.refl (s : State ι) : Moved s s := by
  constructor <;> intro id member <;> simp [member]

namespace Output
variable {o : Output ι} {id : ι}

theorem quiet_live (quiet : ¬(id ∈ o.actualAborts s ∨ id ∈ o.faultIds)) : ((o.apply s).exceptCtx.val id).live = false := by
  have old : (o.apply s).exceptCtx.val id = (o.exceptFinal s).val id :=
    (if_neg fun aborted => quiet (.inl aborted)).trans (if_neg fun faulted => quiet (.inr faulted))
  rw [old]
  rfl

theorem raised_cases (raised : id ∈ o.actualAborts s ∨ id ∈ o.faultIds) :
    ((o.apply s).exceptCtx.val id).state = .waitingTerm ∨ ((o.apply s).exceptCtx.val id).state = .faulted := by
  by_cases aborted : id ∈ o.actualAborts s
  · have new : (o.apply s).exceptCtx.val id = (o.newAbortEntries s).val id := if_pos aborted
    exact .inl (by rw [new]; rfl)
  · have new : (o.apply s).exceptCtx.val id = o.newFaultEntries.val id := (if_neg aborted).trans (if_pos (raised.resolve_left aborted))
    exact .inr (by rw [new]; rfl)

theorem moved_apply (sound : Sound s) (enabled : o.Enabled s) : Moved s (o.apply s) := by
  have allowed := allowed_of enabled
  refine {Moved.refl s with entries := ?_,excepts := ?_,finished := ?_,finishes := ?_,entry := ?_,excepted := ?_,active := ?_,acknowledged := ?_
                            accepted := fun _ member => .inl member}
  · exact fun id member => .inr (mem_entries.mp member).1
  · intro id member
    rcases mem_exceptCtx.mp member with ⟨old,_⟩ | raised
    · exact .inl old
    · exact .inr ⟨(raised_entry allowed raised).1,raised_cases raised⟩
  · exact fun id member => mem_finished.mpr (.inl member)
  · exact fun id member => (known_iff allowed).mp (.inr (.inr member))
  · exact fun id member => (known_iff allowed).mpr (.inl member)
  · intro id member
    have quiet : ¬(id ∈ o.actualAborts s ∨ id ∈ o.faultIds) := fun raised => (sound.entered id (raised_entry allowed raised).1).1 member
    by_cases leaves : id ∈ o.leaving s
    · exact .inl (mem_finished.mpr (.inr (.inr leaves)))
    · exact .inr ⟨mem_exceptCtx.mpr (.inl ⟨member,leaves⟩),quiet_state quiet,fun _ => quiet_live quiet⟩
  · intro id member
    rw [mem_finished]
    by_cases finishes : id ∈ o.finishing s
    · exact .inr (.inr (.inl finishes))
    · by_cases exits : id ∈ o.exceptedFinishing s
      · exact .inr (.inr (.inr (by simp [leaving,exits])))
      · exact .inl (Finset.mem_sdiff.mpr ⟨Finset.mem_sdiff.mpr ⟨member,finishes⟩,exits⟩)
  · intro id member
    rcases Finset.mem_union.mp member with old | term
    · exact .inl old
    · exact .inr (mem_finished.mpr (.inr (.inr (by simp [leaving,term]))))

end Output

theorem moved_step (sound : Sound s) (step : Next channelCap s a s') : Moved s s' := by
  obtain ⟨enabled,rfl⟩ := step
  cases a with
  | workLoopDispatch id =>
    refine {Moved.refl s with queue := ?_,channel := ?_,pending := ?_,accepted := ?_}
    · exact fun other member => (Finset.mem_sdiff.mp member).1
    · intro other member
      rcases List.mem_append.mp member with old | new
      · exact .inl old
      · obtain rfl := List.mem_singleton.mp new
        exact .inr ⟨enabled.2,by simp [apply]⟩
    · intro other member
      rcases Finset.mem_union.mp member with old | new
      · exact .inr old
      · exact .inl (Finset.mem_singleton.mp new ▸ enabled.2)
    · exact fun other member => .inl (Finset.mem_union_left _ member)
  | completionLoopDrainChannel =>
    refine {Moved.refl s with channel := ?_,entries := ?_,entry := ?_}
    · exact fun other member => (List.not_mem_nil member).elim
    · intro other member
      simpa [apply,drained,or_comm] using member
    · exact fun other member => .inl (Finset.mem_union_left _ member)
  | engineAcceptRequest id =>
    refine {Moved.refl s with pending := ?_,accepted := ?_,active := ?_,channel := fun _ member => .inl member}
    · exact fun other member => .inr (Finset.mem_sdiff.mp member).1
    · intro other member
      by_cases same : other = id
      · exact .inr (by simp [apply,same])
      · exact .inl (by simp [apply,member,same])
    · exact fun other member => .inl (Finset.mem_union_left _ member)
  | completionLoopStepOutput o => exact Output.moved_apply sound enabled
  | engineProduceFinish id =>
    refine {Moved.refl s with entries := ?_,finished := ?_,finishes := ?_,entry := ?_,active := ?_
                              excepted := fun _ member => .inr ⟨member,rfl,fun still => still⟩,accepted := fun _ member => .inl member
                              acknowledged := fun _ member => .inl member}
    · exact fun other member => .inr (Finset.mem_sdiff.mp member).1
    · exact fun other member => Finset.mem_union_left _ member
    · intro other member
      rcases Finset.mem_union.mp member with old | new
      · exact .inr (.inr old)
      · exact .inl (Finset.mem_singleton.mp new ▸ enabled.2)
    · intro other member
      by_cases same : other = id <;> simp [apply,Fn.removeKey,member,same]
    · intro other member
      by_cases same : other = id <;> simp [apply,member,same]
  | engineAcknowledgeAbort id =>
    refine {Moved.refl s with excepts := ?_,finished := ?_,finishes := ?_,entry := ?_,excepted := ?_,active := ?_,acknowledged := ?_
                              accepted := fun _ member => .inl member}
    · exact fun other member => .inl (Finset.mem_sdiff.mp member).1
    · exact fun other member => Finset.mem_union_left _ member
    · intro other member
      rcases Finset.mem_union.mp member with old | new
      · exact .inr (.inr old)
      · exact .inr (.inl (Finset.mem_singleton.mp new ▸ enabled.2.1))
    · exact fun other member => .inl member
    · intro other member
      by_cases same : other = id <;> simp [apply,Fn.removeKey,member,same]
    · intro other member
      by_cases same : other = id <;> simp [apply,member,same]
    · intro other member
      rcases Finset.mem_union.mp member with old | new
      · exact .inl old
      · exact .inr (Finset.mem_union_right _ new)
  | frontendAbort id => exact {Moved.refl s with}
  | stutter => exact .refl s

-- Beyond what safety needs: every id is one of those given, what the completion loop
-- has or will have the engine has too, acknowledged requests are finished, and an
-- exception waits for the engine or faulted.
structure Progressing (requestIds : Finset ι) (s : State ι) : Prop where
  known : ∀ id, id ∈ s.queue ∨ id ∈ s.wqChannel ∨ id ∈ s.entries.dom ∨ id ∈ s.exceptCtx.dom ∨ id ∈ s.finished → id ∈ requestIds
  sent_on : ∀ id, id ∈ s.wqChannel ∨ id ∈ s.entries.dom → id ∈ s.enginePending ∨ id ∈ s.engineActive
  acknowledged : ∀ id ∈ s.engineAborted, id ∈ s.finished
  raised : ∀ id ∈ s.exceptCtx.dom, (s.exceptCtx.val id).state = .waitingTerm ∨ (s.exceptCtx.val id).state = .faulted

omit [DecidableEq ι] in
theorem progressing_init (requestIds : Finset ι) : Progressing requestIds (init requestIds) := by
  constructor <;> simp [init,Fn.empty]

omit [DecidableEq ι] in
theorem progressing_moved {requestIds : Finset ι} (progressing : Progressing requestIds s) (sound : Sound s') (moved : Moved s s') :
    Progressing requestIds s' := by
  have handed (id : ι) (here : id ∈ s.enginePending ∨ id ∈ s.engineActive) (open_ : id ∉ s'.finished) : id ∈ s'.enginePending ∨ id ∈ s'.engineActive :=
    here.elim (moved.accepted id) fun active => .inr ((moved.active id active).resolve_right open_)
  constructor
  · intro id here
    have before := progressing.known id
    rcases here with queued | sent | entry | excepted | finished
    · exact before (.inl (moved.queue id queued))
    · rcases moved.channel id sent with old | new
      · exact before (.inr (.inl old))
      · exact before (.inl new.1)
    · rcases moved.entries id entry with new | old
      · exact before (.inr (.inl new))
      · exact before (.inr (.inr (.inl old)))
    · rcases moved.excepts id excepted with old | new
      · exact before (.inr (.inr (.inr (.inl old))))
      · exact before (.inr (.inr (.inl new.1)))
    · exact before (.inr (.inr (moved.finishes id finished)))
  · intro id here
    rcases here with sent | entry
    · rcases moved.channel id sent with old | new
      · exact handed id (progressing.sent_on id (.inl old)) (sound.in_transit id sent).2.2
      · exact .inl new.2
    · exact handed id (progressing.sent_on id (moved.entries id entry)) (sound.entered id entry).2
  · intro id member
    rcases moved.acknowledged id member with old | new
    · exact moved.finished id (progressing.acknowledged id old)
    · exact new
  · intro id member
    rcases moved.excepts id member with old | new
    · obtain ⟨_,same,_⟩ := (moved.excepted id old).resolve_left (sound.excepted id member)
      rw [same]
      exact progressing.raised id old
    · exact new.2

-- The requests before three points of their way.
def State.unaccepted (s : State ι) : Finset ι := s.queue ∪ s.enginePending

def State.unreleased (s : State ι) : Finset ι := s.queue ∪ s.wqChannel.toFinset ∪ s.entries.dom

def State.unfinished (s : State ι) : Finset ι := s.unreleased ∪ s.exceptCtx.dom

theorem Moved.unaccepted (moved : Moved s s') : s'.unaccepted ⊆ s.unaccepted := by
  intro id member
  have queue := moved.queue id
  have pending := moved.pending id
  simp only [State.unaccepted,Finset.mem_union] at member ⊢
  tauto

theorem Moved.unreleased (moved : Moved s s') : s'.unreleased ⊆ s.unreleased := by
  intro id member
  have queue := moved.queue id
  have channel := moved.channel id
  have entries := moved.entries id
  simp only [State.unreleased,Finset.mem_union,List.mem_toFinset] at member ⊢
  tauto

theorem Moved.unfinished (moved : Moved s s') : s'.unfinished ⊆ s.unfinished := by
  intro id member
  rcases Finset.mem_union.mp member with before | excepted
  · exact Finset.mem_union_left _ (moved.unreleased before)
  · rcases moved.excepts id excepted with old | new
    · exact Finset.mem_union_right _ old
    · exact Finset.mem_union_left _ (Finset.mem_union_right _ new.1)

-- A set that loses a member.
omit [DecidableEq ι] in
theorem card_fewer {before after : Finset ι} {id : ι} (within : after ⊆ before) (member : id ∈ before) (gone : id ∉ after) : after.card < before.card :=
  Finset.card_lt_card ((Finset.ssubset_iff_of_subset within).mpr ⟨id,member,gone⟩)

-- A step output that has nothing to say.
def Output.nothing : Output ι := ⟨∅,fun _ => .prefill,fun _ => false,∅,∅,∅⟩

theorem nothing_enabled {id : ι} (excepted : id ∈ s.exceptCtx.dom) : (Output.nothing : Output ι).Enabled s := by
  refine ⟨⟨id,?_⟩,?_⟩
  · simp [excepted]
  · simp [Output.nothing]

-- A faulted request that is not live and of which nothing is heard leaves.
theorem silent_leaves {o : Output ι} {id : ι} (excepted : id ∈ s.exceptCtx.dom) (faulted : (s.exceptCtx.val id).state = .faulted)
    (dead : (s.exceptCtx.val id).live = false) (unreported : id ∉ o.reported) : id ∈ o.leaving s := by
  by_cases term : id ∈ o.termIds
  · simp [Output.leaving,term]
  · have same : (o.exceptAfterTerm s).val id = s.exceptCtx.val id := if_neg unreported
    have drop : id ∈ o.dropReady s := by
      rw [Output.dropReady,Finset.mem_filter,same]
      exact ⟨by simp [Output.exceptAfterTerm,Output.exceptAfterExit,excepted,unreported,term],faulted,dead⟩
    simp [Output.leaving,drop]

end AbortRecovery
end BlitzRouter
