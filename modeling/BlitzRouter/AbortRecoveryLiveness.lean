import BlitzRouter.AbortRecoveryFairness
import Mathlib.Order.WellFounded

namespace BlitzRouter.AbortRecovery
open Fairness

variable {ι : Type} [DecidableEq ι] {channelCap : Nat}

section Behaviours
variable {requestIds : Finset ι} {b : Nat → State ι}

theorem LiveSpec.sound (live : LiveSpec requestIds channelCap b) (n : Nat) : Sound (b n) := by
  refine always (P := Sound) (live.init ▸ sound_init requestIds) (fun n sound => ?_) n
  obtain ⟨a,step⟩ := live.next n
  exact sound_step sound step

theorem LiveSpec.moved (live : LiveSpec requestIds channelCap b) (n : Nat) : Moved (b n) (b (n+1)) := by
  obtain ⟨a,step⟩ := live.next n
  exact moved_step (live.sound n) step

theorem LiveSpec.progressing (live : LiveSpec requestIds channelCap b) (n : Nat) : Progressing requestIds (b n) :=
  always (P := Progressing requestIds) (live.init ▸ progressing_init requestIds)
    (fun n progressing => progressing_moved progressing (live.sound (n+1)) (live.moved n)) n

theorem enabled_acts {action : FairAction} {s : State ι} (a : Action ι) (named : a.fairAction = some action) (enabled : Enabled channelCap s a)
    (changes : ¬SameVars s (apply s a)) : Fairness.Enabled (Changing SameVars (Acts channelCap action)) s :=
  ⟨apply s a,⟨a,named,enabled,rfl⟩,changes⟩

theorem LiveSpec.drains (live : LiveSpec requestIds channelCap b) : ChannelDrain b := by
  refine (live.fair .drainChannel).leads_to (fun _ => 0) (fun n filled => ?_) (fun n filled => ?_) fun n filled taken => ?_
  · have sent : (b n).wqChannel ≠ [] := List.ne_nil_of_length_pos filled
    exact enabled_acts .completionLoopDrainChannel rfl sent fun same => sent same.wqChannel.symm
  · exact (Nat.eq_zero_or_pos _).imp id fun filled => ⟨filled,Nat.le_refl 0⟩
  · obtain ⟨a,named,enabled,after⟩ := taken
    cases a <;> cases named
    exact .inl (by rw [after]; rfl)

theorem LiveSpec.accepts (live : LiveSpec requestIds channelCap b) (id : ι) :
    LeadsTo (fun s => id ∈ s.enginePending) (fun s => id ∈ s.engineActive) b := by
  refine (live.fair .acceptRequest).leads_to (fun s => s.unaccepted.card) (fun n pending => ?_) (fun n pending => ?_) fun n pending taken => ?_
  · refine enabled_acts (.engineAcceptRequest id) rfl pending fun same => ?_
    have left : id ∉ (b n).enginePending := same.enginePending ▸ by simp [apply]
    exact left pending
  · exact ((live.moved n).accepted id pending).symm.imp_right fun still => ⟨still,Finset.card_le_card (live.moved n).unaccepted⟩
  · obtain ⟨a,named,enabled,after⟩ := taken
    cases a with
    | engineAcceptRequest other =>
      refine .inr (card_fewer (live.moved n).unaccepted (Finset.mem_union_right _ enabled) ?_)
      have unqueued : other ∉ (b n).queue := fun queued => by
        have sound := (live.sound n).queued other queued
        have known := (live.sound n).sent other (.inr enabled)
        tauto
      rw [after]
      simp [State.unaccepted,apply,unqueued]
    | _ => cases named

theorem LiveSpec.releases (live : LiveSpec requestIds channelCap b) (id : ι) :
    LeadsTo (fun s => id ∈ s.entries.dom ∧ id ∈ s.engineActive) (fun s => id ∈ s.exceptCtx.dom ∨ id ∈ s.finished) b := by
  refine (live.fair .produceFinish).leads_to (fun s => s.unreleased.card) (fun n here => ?_) (fun n here => ?_) fun n here taken => ?_
  · refine enabled_acts (.engineProduceFinish id) rfl ⟨here.2,here.1⟩ fun same => ?_
    have left : id ∉ (b n).entries.dom := same.entries.1 ▸ by simp [apply,Fn.removeKey]
    exact left here.1
  · rcases (live.moved n).entry id here.1 with entry | gone
    · rcases (live.moved n).active id here.2 with active | finished
      · exact .inr ⟨⟨entry,active⟩,Finset.card_le_card (live.moved n).unreleased⟩
      · exact .inl (.inr finished)
    · exact .inl gone
  · obtain ⟨a,named,enabled,after⟩ := taken
    cases a with
    | engineProduceFinish other =>
      refine .inr (card_fewer (live.moved n).unreleased (Finset.mem_union_right _ enabled.2) ?_)
      have unqueued : other ∉ (b n).queue := fun queued => ((live.sound n).queued other queued).2.1 enabled.2
      have arrived : other ∉ (b n).wqChannel := fun sent => ((live.sound n).in_transit other sent).1 enabled.2
      rw [after]
      simp [State.unreleased,apply,Fn.removeKey,unqueued,arrived]
    | _ => cases named

theorem LiveSpec.terminates (live : LiveSpec requestIds channelCap b) (id : ι) :
    LeadsTo (fun s => id ∈ s.exceptCtx.dom ∧ (s.exceptCtx.val id).state = .waitingTerm) (fun s => id ∈ s.finished) b := by
  refine (live.fair .acknowledgeAbort).leads_to (fun s => s.unfinished.card) (fun n here => ?_) (fun n here => ?_) fun n here taken => ?_
  · have open_ : id ∉ (b n).engineAborted := fun aborted => (live.sound n).excepted id here.1 ((live.progressing n).acknowledged id aborted)
    refine enabled_acts (.engineAcknowledgeAbort id) rfl ⟨(live.sound n).marked id here.1 here.2,here.1,here.2,open_⟩ fun same => ?_
    have left : id ∉ (b n).exceptCtx.dom := same.exceptCtx.1 ▸ by simp [apply,Fn.removeKey]
    exact left here.1
  · refine ((live.moved n).excepted id here.1).imp_right fun still => ?_
    exact ⟨⟨still.1,still.2.1.trans here.2⟩,Finset.card_le_card (live.moved n).unfinished⟩
  · obtain ⟨a,named,enabled,after⟩ := taken
    cases a with
    | engineAcknowledgeAbort other =>
      obtain ⟨_,excepted,_⟩ := enabled
      refine .inr (card_fewer (live.moved n).unfinished (Finset.mem_union_right _ excepted) ?_)
      have unqueued : other ∉ (b n).queue := fun queued => ((live.sound n).queued other queued).2.2.1 excepted
      have arrived : other ∉ (b n).wqChannel := fun sent => ((live.sound n).in_transit other sent).2.1 excepted
      have apart : other ∉ (b n).entries.dom := fun entry => ((live.sound n).entered other entry).1 excepted
      rw [after]
      simp [State.unfinished,State.unreleased,apply,Fn.removeKey,unqueued,arrived,apart]
    | _ => cases named

-- The first output that does not report a faulted request may only clear its flag,
-- the second drops it.
theorem LiveSpec.drops (live : LiveSpec requestIds channelCap b) {id : ι} (silent : WeaklyFair SameVars (SilentOutput channelCap id) b) :
    LeadsTo (fun s => id ∈ s.exceptCtx.dom ∧ (s.exceptCtx.val id).state = .faulted) (fun s => id ∈ s.finished) b := by
  refine silent.leads_to (fun s => if (s.exceptCtx.val id).live then 1 else 0) (fun n here => ?_) (fun n here => ?_) fun n here taken => ?_
  · refine ⟨_,⟨.nothing,by simp [Output.nothing],nothing_enabled here.1,rfl⟩,fun same => ?_⟩
    exact absurd same.stepCount (Nat.succ_ne_self _)
  · refine ((live.moved n).excepted id here.1).imp_right fun still => ⟨⟨still.1,still.2.1.trans here.2⟩,?_⟩
    by_cases dead : ((b n).exceptCtx.val id).live = false
    · simp [still.2.2 dead]
    · rw [Bool.not_eq_false] at dead
      simp only [dead]
      split <;> simp
  · obtain ⟨o,unreported,enabled,after⟩ := taken
    have sound := live.sound n
    have allowed := Output.allowed_of enabled
    have quiet : ¬(id ∈ o.actualAborts (b n) ∨ id ∈ o.faultIds) := fun raised => (sound.entered id (Output.raised_entry allowed raised).1).1 here.1
    rw [after]
    by_cases dead : ((b n).exceptCtx.val id).live = false
    · exact .inl (Output.mem_finished.mpr (.inr (.inr (silent_leaves here.1 here.2 dead unreported))))
    · refine .inr ?_
      have cleared : ((apply (b n) (.completionLoopStepOutput o)).exceptCtx.val id).live = false := Output.quiet_live quiet
      rw [Bool.not_eq_false] at dead
      simp [cleared,dead]

theorem LiveSpec.resolves (live : LiveSpec requestIds channelCap b) {id : ι} (silent : WeaklyFair SameVars (SilentOutput channelCap id) b) :
    LeadsTo (fun s => id ∈ s.exceptCtx.dom) (fun s => id ∈ s.finished) b := by
  intro n excepted
  refine (live.terminates id).cases (live.drops silent) n ?_
  exact ((live.progressing n).raised id excepted).imp (fun waiting => ⟨excepted,waiting⟩) fun faulted => ⟨excepted,faulted⟩

-- The engine accepts an entry, and it ends there or as an exception.
theorem LiveSpec.ends (live : LiveSpec requestIds channelCap b) {id : ι} (silent : WeaklyFair SameVars (SilentOutput channelCap id) b) :
    LeadsTo (fun s => id ∈ s.entries.dom) (fun s => id ∈ s.finished) b := by
  intro n entry
  obtain ⟨m,after,active⟩ : ∃ m, n ≤ m ∧ id ∈ (b m).engineActive := by
    rcases (live.progressing n).sent_on id (.inr entry) with pending | active
    · exact live.accepts id n pending
    · exact ⟨n,Nat.le_refl n,active⟩
  have launched : id ∈ (b m).entries.dom ∨ id ∈ (b m).exceptCtx.dom ∨ id ∈ (b m).finished := by
    refine stays (P := fun s : State ι => id ∈ s.entries.dom ∨ id ∈ s.exceptCtx.dom ∨ id ∈ s.finished) (.inl entry) (fun k here => ?_) after
    rcases here with entry | excepted | finished
    · exact (live.moved k).entry id entry
    · exact .inr (((live.moved k).excepted id excepted).symm.imp_left And.left)
    · exact .inr (.inr ((live.moved k).finished id finished))
  have closes : LeadsTo (fun s => id ∈ s.exceptCtx.dom ∨ id ∈ s.finished) (fun s => id ∈ s.finished) b := (live.resolves silent).cases .refl
  obtain ⟨k,later,ended⟩ : ∃ k, m ≤ k ∧ id ∈ (b k).finished := by
    rcases launched with still | gone
    · exact (live.releases id).trans closes m ⟨still,active⟩
    · exact closes m gone
  exact ⟨k,after.trans later,ended⟩

theorem LiveSpec.finished_stays (live : LiveSpec requestIds channelCap b) {n m : Nat} (after : n ≤ m) : (b n).finished ⊆ (b m).finished :=
  fun id finished => stays (P := fun s : State ι => id ∈ s.finished) finished (fun k => (live.moved k).finished id) after

theorem LiveSpec.excepted_stays (live : LiveSpec requestIds channelCap b) {n m : Nat} {id : ι} (excepted : id ∈ (b n).exceptCtx.dom) (after : n ≤ m) :
    id ∈ (b m).exceptCtx.dom ∨ id ∈ (b m).finished := by
  refine stays (P := fun s : State ι => id ∈ s.exceptCtx.dom ∨ id ∈ s.finished) (.inl excepted) (fun k here => ?_) after
  rcases here with excepted | finished
  · exact ((live.moved k).excepted id excepted).symm.imp_left And.left
  · exact .inr ((live.moved k).finished id finished)

-- From some time on no request ends any more, so that none is left.
theorem LiveSpec.settles (live : LiveSpec requestIds channelCap b) (terminates : RequestTermination requestIds b)
    (resolves : ExceptionResolution requestIds b) : ∃ n, ∀ m, n ≤ m → (b m).entries.dom = ∅ ∧ (b m).exceptCtx.dom = ∅ := by
  let unended (n : Nat) : Nat := (requestIds \ (b n).finished).card
  have last (m : Nat) (after : Function.argmin unended ≤ m) {k : Nat} (later : m ≤ k) {id : ι} (asked : id ∈ requestIds)
      (open_ : id ∉ (b m).finished) : id ∉ (b k).finished := by
    intro ended
    have fewer : unended k < unended m := card_fewer (Finset.sdiff_subset_sdiff (Finset.Subset.refl _) (live.finished_stays later))
      (Finset.mem_sdiff.mpr ⟨asked,open_⟩) fun still => (Finset.mem_sdiff.mp still).2 ended
    have lower : unended m ≤ unended (Function.argmin unended) :=
      Finset.card_le_card (Finset.sdiff_subset_sdiff (Finset.Subset.refl _) (live.finished_stays after))
    exact absurd (fewer.trans_le lower) (Nat.not_lt.mpr (Function.argmin_le unended k))
  refine ⟨Function.argmin unended,fun m after => ⟨?_,?_⟩⟩
  · refine Finset.eq_empty_of_forall_notMem fun id entry => ?_
    have asked := (live.progressing m).known id (.inr (.inr (.inl entry)))
    obtain ⟨k,later,ended⟩ := terminates id asked m entry
    exact last m after later asked ((live.sound m).entered id entry).2 ended
  · refine Finset.eq_empty_of_forall_notMem fun id excepted => ?_
    have asked := (live.progressing m).known id (.inr (.inr (.inr (.inl excepted))))
    obtain ⟨k,later,left⟩ := resolves id asked m excepted
    exact last m after later asked ((live.sound m).excepted id excepted) ((live.excepted_stays excepted later).resolve_left left)

-- The specification is live at every size just when the engine does not go on
-- reporting a request for ever.
theorem live_iff_silent (live : LiveSpec requestIds channelCap b) :
    ((RequestTermination requestIds b ∧ ExceptionResolution requestIds b) ↔
      ∀ id ∈ requestIds, WeaklyFair SameVars (SilentOutput channelCap id) b) ∧ ChannelDrain b := by
  refine ⟨⟨fun ⟨terminates,resolves⟩ id _ => ?_,fun silent => ⟨fun id asked => live.ends (silent id asked),fun id asked n excepted => ?_⟩⟩,live.drains⟩
  · rintro ⟨n,enabled⟩ from_
    obtain ⟨settled,empty⟩ := live.settles terminates resolves
    have outputs : ∃ n, ∀ m, n ≤ m → Fairness.Enabled (Changing SameVars (Acts channelCap .stepOutput)) (b m) :=
      ⟨n,fun m after => (enabled m after).weaken fun s t ⟨o,_,step⟩ => ⟨.completionLoopStepOutput o,rfl,step⟩⟩
    obtain ⟨m,after,⟨a,named,step⟩,changes⟩ := live.fair .stepOutput outputs (max from_ settled)
    cases a with
    | completionLoopStepOutput o =>
      obtain ⟨entries,excepts⟩ := empty m ((Nat.le_max_right _ _).trans after)
      have known := step.1.2.1
      rw [entries,excepts,Finset.union_empty] at known
      exact ⟨m,(Nat.le_max_left _ _).trans after,⟨o,fun reported => Finset.notMem_empty id (known reported),step⟩,changes⟩
    | _ => cases named
  · obtain ⟨m,after,finished⟩ := live.resolves (silent id asked) n excepted
    exact ⟨m,after,fun still => (live.sound m).excepted id still finished⟩

end Behaviours

-- The behaviour that takes given actions one after the other.
def along (requestIds : Finset ι) (acts : Nat → Action ι) : Nat → State ι
  | 0 => init requestIds
  | n+1 => apply (along requestIds acts n) (acts n)

theorem along_next (channelCap : Nat) {requestIds : Finset ι} {acts : Nat → Action ι} {n : Nat} (enabled : Enabled channelCap (along requestIds acts n) (acts n)) :
    ∃ a, Next channelCap (along requestIds acts n) a (along requestIds acts (n+1)) := ⟨acts n,enabled,rfl⟩

omit [DecidableEq ι] in
-- An action that is disabled again and again is treated fairly.
theorem weaklyFair_of_disabled {act : State ι → State ι → Prop} {b : Nat → State ι} (disabled : ∀ n, ∃ m, n ≤ m ∧ ∀ t, ¬act (b m) t) :
    WeaklyFair SameVars act b := by
  rintro ⟨n,enabled⟩
  obtain ⟨m,after,never⟩ := disabled n
  obtain ⟨t,taken,_⟩ := enabled m after
  exact absurd taken (never t)

-- A request that runs through, after which nothing happens any more.
def finishedOnce : Nat → Action Nat
  | 0 => .workLoopDispatch 1
  | 1 => .completionLoopDrainChannel
  | 2 => .engineAcceptRequest 1
  | 3 => .engineProduceFinish 1
  | _+4 => .stutter

theorem finishedOnce_rests (n : Nat) : along {1} finishedOnce (n+4) = along {1} finishedOnce 4 := by
  induction n with
  | zero => rfl
  | succ n ih => exact ih

theorem finishedOnce_live : LiveSpec {1} 64 (along {1} finishedOnce) := by
  refine ⟨rfl,fun n => along_next 64 ?_,fun action => weaklyFair_of_disabled fun n => ⟨n+4,Nat.le_add_right _ _,fun t taken => ?_⟩⟩
  · match n with
    | 0 => exact ⟨by decide,by decide⟩
    | 1 => exact List.cons_ne_nil 1 []
    | 2 => simp [Enabled,along,finishedOnce,apply,init]
    | 3 => simp [Enabled,along,finishedOnce,apply,init,Fn.empty,drained]
    | n+4 => trivial
  · rw [finishedOnce_rests] at taken
    obtain ⟨a,named,enabled,_⟩ := taken
    cases a with
    | completionLoopDrainChannel => exact enabled rfl
    | engineAcceptRequest other => simp [Enabled,along,finishedOnce,apply,init] at enabled
    | engineProduceFinish other => simp [Enabled,along,finishedOnce,apply,init] at enabled
    | engineAcknowledgeAbort other => simp [Enabled,along,finishedOnce,apply,init] at enabled
    | completionLoopStepOutput o => simp [Enabled,Output.Enabled,along,finishedOnce,apply,init,Fn.empty,Fn.removeKey,drained] at enabled
    | _ => cases named

theorem live_iff_silent_once : ∃ b : Nat → State Nat, LiveSpec {1} 64 b ∧ (1 ∈ (b 2).entries.dom) ∧
    ((RequestTermination {1} b ∧ ExceptionResolution {1} b) ↔ ∀ id ∈ ({1} : Finset Nat), WeaklyFair SameVars (SilentOutput 64 id) b) ∧ ChannelDrain b :=
  ⟨_,finishedOnce_live,by decide,live_iff_silent finishedOnce_live⟩

-- A request that faulted and that the engine reports in every output from then on.
def reportedForever (id : ι) : Nat → Action ι
  | 0 => .workLoopDispatch id
  | 1 => .completionLoopDrainChannel
  | 2 => .engineAcceptRequest id
  | 3 => .completionLoopStepOutput ⟨∅,fun _ => .prefill,fun _ => false,∅,∅,{id}⟩
  | _+4 => .completionLoopStepOutput ⟨{id},fun _ => .prefill,fun _ => false,∅,∅,∅⟩

structure Starving (id : ι) (s : State ι) : Prop where
  wqChannel : s.wqChannel = []
  enginePending : s.enginePending = ∅
  engineActive : s.engineActive = {id}
  entries : s.entries.dom = ∅
  exceptCtx : s.exceptCtx.dom = {id}
  faulted : (s.exceptCtx.val id).state = .faulted

theorem Starving.report {id : ι} (starving : Starving id s) (channelCap : Nat) :
    Enabled channelCap s (.completionLoopStepOutput ⟨{id},fun _ => .prefill,fun _ => false,∅,∅,∅⟩) ∧
      Starving id (apply s (.completionLoopStepOutput ⟨{id},fun _ => .prefill,fun _ => false,∅,∅,∅⟩)) := by
  have quiet : ¬(id ∈ (⟨{id},fun _ => .prefill,fun _ => false,∅,∅,∅⟩ : Output ι).actualAborts s ∨
      id ∈ (⟨{id},fun _ => .prefill,fun _ => false,∅,∅,∅⟩ : Output ι).faultIds) := by simp
  refine ⟨?_,starving.wqChannel,starving.enginePending,?_,?_,?_,?_⟩
  · simp [Enabled,Output.Enabled,starving.exceptCtx,starving.engineActive,starving.entries]
  · simp [apply,Output.apply,Output.engineAfter,Output.finishing,Output.exceptedFinishing,starving.engineActive]
  · simp [apply,Output.apply,Output.entriesAfterFinish,starving.entries]
  · refine Finset.ext fun other => ?_
    rw [apply,Output.mem_exceptCtx]
    simp only [Output.leaving,Output.exceptedFinishing,Output.actualAborts,Output.dropReady,Output.exceptAfterTerm,Output.exceptAfterExit,starving.exceptCtx]
    by_cases same : other = id <;> simp [same]
  · exact (Output.quiet_state quiet).trans starving.faulted

theorem starving_first (requestIds : Finset ι) (id : ι) : Starving id (along requestIds (reportedForever id) 4) := by
  constructor <;> simp [along,reportedForever,apply,init,Fn.empty,drained,Output.apply,Output.engineAfter,Output.finishing,
    Output.exceptedFinishing,Output.entriesAfterFinish,Output.actualAborts,Output.allExcept,Output.exceptFinal,Output.exceptAfterTerm,
    Output.exceptAfterExit,Output.newAbortEntries,Output.newFaultEntries,Output.dropReady]

theorem starving_later (requestIds : Finset ι) (id : ι) (n : Nat) : Starving id (along requestIds (reportedForever id) (n+4)) := by
  induction n with
  | zero => exact starving_first requestIds id
  | succ n ih => exact (ih.report 0).2

theorem reportedForever_enabled {requestIds : Finset ι} {id : ι} (asked : id ∈ requestIds) (room : 0 < channelCap) (n : Nat) :
    Enabled channelCap (along requestIds (reportedForever id) n) (reportedForever id n) := by
  match n with
  | 0 => exact ⟨room,asked⟩
  | 1 => exact List.cons_ne_nil id []
  | 2 => simp [Enabled,along,reportedForever,apply,init]
  | 3 => simp [Enabled,Output.Enabled,along,reportedForever,apply,init,Fn.empty,drained]
  | n+4 => exact ((starving_later requestIds id n).report channelCap).1

theorem reportedForever_live {requestIds : Finset ι} {id : ι} (asked : id ∈ requestIds) (room : 0 < channelCap) :
    LiveSpec requestIds channelCap (along requestIds (reportedForever id)) := by
  refine ⟨rfl,fun n => along_next channelCap (reportedForever_enabled asked room n),fun action => ?_⟩
  by_cases outputs : action = .stepOutput
  · subst outputs
    intro _ n
    have enabled := ((starving_later requestIds id n).report channelCap).1
    exact ⟨n+4,Nat.le_add_right _ _,⟨_,rfl,enabled,rfl⟩,fun same => absurd same.stepCount (Nat.succ_ne_self _)⟩
  · refine weaklyFair_of_disabled fun n => ⟨n+4,Nat.le_add_right _ _,fun t taken => ?_⟩
    have starving := starving_later requestIds id n
    obtain ⟨a,named,enabled,_⟩ := taken
    cases a with
    | completionLoopDrainChannel => exact enabled starving.wqChannel
    | engineAcceptRequest other => simp [Enabled,starving.enginePending] at enabled
    | engineProduceFinish other => simp [Enabled,starving.entries] at enabled
    | engineAcknowledgeAbort other =>
      obtain ⟨_,excepted,waiting,_⟩ := enabled
      obtain rfl : other = id := by simpa [starving.exceptCtx] using excepted
      rw [starving.faulted] at waiting
      cases waiting
    | completionLoopStepOutput o => exact outputs (Option.some.inj named).symm
    | _ => cases named

-- The fairness that the specification asks for is not enough, whatever its
-- constants: a faulted request that the engine reports in every output stays for
-- ever.
theorem live_spec_starves {requestIds : Finset ι} (filled : requestIds.Nonempty) (room : 0 < channelCap) :
    ∃ b, LiveSpec requestIds channelCap b ∧ ¬RequestTermination requestIds b ∧ ¬ExceptionResolution requestIds b := by
  obtain ⟨id,asked⟩ := filled
  have live := reportedForever_live asked room
  refine ⟨_,live,fun terminates => ?_,fun resolves => ?_⟩
  · have entry : id ∈ (along requestIds (reportedForever id) 2).entries.dom := by simp [along,reportedForever,apply,init,Fn.empty,drained]
    obtain ⟨m,_,ended⟩ := terminates id asked 2 entry
    have excepted : id ∈ (along requestIds (reportedForever id) (m+4)).exceptCtx.dom := by simp [(starving_later requestIds id m).exceptCtx]
    exact (live.sound (m+4)).excepted id excepted (live.finished_stays (Nat.le_add_right m 4) ended)
  · have excepted (n : Nat) : id ∈ (along requestIds (reportedForever id) (n+4)).exceptCtx.dom := by
      simp [(starving_later requestIds id n).exceptCtx]
    obtain ⟨m,after,left⟩ := resolves id asked 4 (excepted 0)
    obtain ⟨n,rfl⟩ := Nat.exists_eq_add_of_le' after
    exact left (excepted n)

theorem live_spec_starves_one : ∃ b : Nat → State Nat, LiveSpec {1} 64 b ∧ ¬RequestTermination {1} b ∧ ¬ExceptionResolution {1} b :=
  live_spec_starves ⟨1,by decide⟩ (by decide)

end BlitzRouter.AbortRecovery
