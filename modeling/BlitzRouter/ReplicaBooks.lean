import BlitzRouter.Replica

namespace BlitzRouter
open Radix CompletionLoop

namespace CompletionLoop
variable {s : CompletionLoop} {posted : List Entry} {entry : Entry}

-- Draining the channel puts each posted entry under a key of its own.
structure Drained (s : CompletionLoop) (posted : List Entry) (s' : CompletionLoop) : Prop where
  balance : ∀ w : Account → Int,
    balance w [] s' = CompletionLoop.balance w [] s+(posted.map fun entry => w entry.account).sum
  sound : s'.Sound
  known : ∀ id, s'.Known id ↔ s.Known id ∨ id ∈ posted.map fun entry => entry.request.requestId
  found : ∀ id, s.Known id → s'.find id = s.find id
  except : s'.exceptContext = s.exceptContext
  leaving : s'.tempLeavingEntries = s.tempLeavingEntries
  released : s'.released = s.released
  cancel : s'.cancelReqIds = s.cancelReqIds
  skipped : s'.skippedFaultEntries = s.skippedFaultEntries

theorem Sound.receive (sound : s.Sound) (fresh : ¬s.Known entry.request.requestId) : Drained s [entry] (s.receive entry) := by
  have absent : s.entries.lookup entry.request.requestId = none := by
    cases found : s.entries.lookup entry.request.requestId with
    | none => rfl
    | some held => exact absurd (.inl (by rw [found]; rfl)) fresh
  have record : s.exceptContext.states.dlookup entry.request.requestId = none := by
    cases found : s.exceptContext.states.dlookup entry.request.requestId with
    | none => rfl
    | some st => exact absurd (.inr (by rw [found]; rfl)) fresh
  refine ⟨?_,⟨sound.except,?_,?_,sound.keyedExcept⟩,?_,?_,rfl,rfl,rfl,rfl,rfl⟩
  · intro w
    have given := Ledger.total_insert_fresh (standing w []) entry absent
    simp only [standing,List.not_mem_nil,if_false] at given
    change Ledger.total (standing w []) (s.entries.insert _ entry) = w entry.account+Ledger.total (standing w []) s.entries at given
    simp only [CompletionLoop.balance,CompletionLoop.receive,given,List.map_cons,List.map_nil,List.sum_cons,List.sum_nil]
    omega
  · intro key e inside
    by_cases same : key = entry.request.requestId
    · subst same; exact record
    · exact sound.apart key e (by simpa [CompletionLoop.receive,AList.lookup_insert_ne same] using inside)
  · intro key e inside
    by_cases same : key = entry.request.requestId
    · subst same
      simp only [CompletionLoop.receive,AList.lookup_insert,Option.some.injEq] at inside
      rw [← inside]
    · exact sound.keyed key e (by simpa [CompletionLoop.receive,AList.lookup_insert_ne same] using inside)
  · intro id
    by_cases same : id = entry.request.requestId
    · subst same; simp [Known,CompletionLoop.receive]
    · simp [Known,CompletionLoop.receive,AList.lookup_insert_ne same,same]
  · intro id known
    have differs : id ≠ entry.request.requestId := by rintro rfl; exact fresh known
    simp only [find,CompletionLoop.receive,AList.lookup_insert_ne differs]

theorem Sound.drain (sound : s.Sound) (distinct : (posted.map fun entry => entry.request.requestId).Nodup)
    (fresh : ∀ entry ∈ posted, ¬s.Known entry.request.requestId) : Drained s posted (s.drain posted) := by
  induction posted generalizing s with
  | nil => exact ⟨fun w => by simp [CompletionLoop.drain],sound,fun id => by simp [CompletionLoop.drain],fun _ _ => rfl,rfl,rfl,rfl,rfl,rfl⟩
  | cons entry rest ih =>
    obtain ⟨apart,distinct'⟩ := List.nodup_cons.mp distinct
    have first := sound.receive (fresh entry List.mem_cons_self)
    have fresh' : ∀ e ∈ rest, ¬(s.receive entry).Known e.request.requestId := by
      intro e member known
      rcases (first.known _).mp known with old | same
      · exact fresh e (List.mem_cons_of_mem entry member) old
      · rw [List.map_cons,List.map_nil,List.mem_singleton] at same
        exact apart (List.mem_map.mpr ⟨e,member,same⟩)
    have later := ih first.sound distinct' fresh'
    have next : s.drain (entry::rest) = (s.receive entry).drain rest := rfl
    rw [next]
    refine ⟨?_,later.sound,?_,?_,later.except.trans first.except,later.leaving.trans first.leaving,
      later.released.trans first.released,later.cancel.trans first.cancel,later.skipped.trans first.skipped⟩
    · intro w
      have one := first.balance w
      have more := later.balance w
      rw [List.map_cons,List.sum_cons]
      rw [List.map_cons,List.sum_cons,List.map_nil,List.sum_nil] at one
      omega
    · intro id
      rw [later.known,first.known]
      simp only [List.map_cons,List.map_nil,List.mem_cons,List.not_mem_nil,or_false,or_assoc]
    · intro id known
      rw [later.found id ((first.known id).mpr (.inl known)),first.found id known]

end CompletionLoop

namespace Replica
variable {β : Type} {r r' : Replica β} {w : Account → Int} {committed : List RequestId}

-- Committed entries the completion loop has not received yet.
def pending (r : Replica β) : List Entry := r.queued++r.admitting.toList++r.channel

def settledOf : Stage → List RequestId
  | .metered m => settleAll m.outputs []
  | _ => []

def stepOf : Stage → Option EngineStepOutput
  | .idle => none
  | .received m => some m
  | .metered m => some m

-- Every entry there ever was, wherever it is now.
def everything (w : Account → Int) (r : Replica β) : Int :=
  (r.pending.map fun entry => w entry.account).sum+(balance w [] r.loop+gone w r.loop)

def books (w : Account → Int) (r : Replica β) : Int :=
  (r.pending.map fun entry => w entry.account).sum+balance w (settledOf r.stage) r.loop

theorem books_zero (r : Replica β) : books (fun _ => 0) r = 0 := by
  simp [books,balance_zero]

-- The account a request is committed with.
def opened (blockSize hits : Nat) (request : ValidGenerateRequest) : Account :=
  ⟨request,0,hits%noneSentinel,none,blockSize⟩

def committedBy : Action → List RequestId
  | .commit request _ _ => [request.requestId]
  | _ => []

-- Request ids are never used twice, and a step names a request at most once.
def Orderly (committed : List RequestId) : Action → Prop
  | .commit request _ _ => request.requestId ∉ committed
  | .recvStep m => (m.outputs.map RequestStepOutput.requestId).Nodup
  | _ => True

structure Placed (committed : List RequestId) (r : Replica β) : Prop where
  sound : r.loop.Sound
  distinct : (r.pending.map fun entry => entry.request.requestId).Nodup
  outside : ∀ entry ∈ r.pending, ¬r.loop.Known entry.request.requestId
  known : ∀ id, r.loop.Known id → id ∈ committed
  posted : ∀ entry ∈ r.pending, entry.request.requestId ∈ committed
  orderly : ∀ m, stepOf r.stage = some m → (m.outputs.map RequestStepOutput.requestId).Nodup
  cancel : r.loop.cancelReqIds = []
  skipped : r.loop.skippedFaultEntries = []
  leaving : (∀ m, r.stage ≠ .metered m) → r.loop.tempLeavingEntries = []

theorem placed_start (context : ScheduleContext β) : Placed [] (start context) :=
  ⟨sound_new,List.nodup_nil,by simp [pending,start],by simp [Known,start,CompletionLoop.new,ExtContext.new],
    by simp [pending,start],by simp [stepOf,start],rfl,rfl,fun _ => rfl⟩

-- Every step between the iterations' halves only moves entries along the queues.
inductive Handed (r : Replica β) : Replica β → Prop where
  | mk (queued channel : List Entry) (admitting : Option Entry) (errors : List RequestId) :
      (queued++admitting.toList++channel).Perm r.pending →
      Handed r {r with queued := queued,admitting := admitting,channel := channel,errorRx := errors}

theorem Handed.books (handed : Handed r r') : books w r' = Replica.books w r := by
  cases handed with
  | mk queued channel admitting errors perm =>
    have sums := (perm.map fun entry => w entry.account).sum_eq
    simp only [Replica.books,pending] at sums ⊢
    omega

theorem Handed.everything (handed : Handed r r') : everything w r' = Replica.everything w r := by
  cases handed with
  | mk queued channel admitting errors perm =>
    have sums := (perm.map fun entry => w entry.account).sum_eq
    simp only [Replica.everything,pending] at sums ⊢
    omega

theorem Handed.frame (handed : Handed r r') : r'.context = r.context ∧ r'.loop = r.loop ∧ r'.stage = r.stage := by
  cases handed with
  | mk queued channel admitting errors perm => exact ⟨rfl,rfl,rfl⟩

theorem Handed.placed (handed : Handed r r') (placed : Placed committed r) : Placed committed r' := by
  cases handed with
  | mk queued channel admitting errors perm =>
    exact ⟨placed.sound,((perm.map _).nodup_iff).mpr placed.distinct,fun e member => placed.outside e (perm.mem_iff.mp member),
      placed.known,fun e member => placed.posted e (perm.mem_iff.mp member),placed.orderly,placed.cancel,placed.skipped,
      placed.leaving⟩

theorem handed_addRequest (idle : r.admitting = none) : Handed r {r with queued := r.queued.tail,admitting := r.queued.head?} := by
  have perm : (r.queued.tail++r.queued.head?.toList++r.channel).Perm r.pending := by
    unfold pending
    rw [idle]
    cases r.queued with
    | nil => simp
    | cons entry rest => exact (List.perm_append_singleton entry rest).append_right r.channel |>.trans (by simp)
  exact .mk _ _ _ r.errorRx perm

theorem handed_send : Handed r {r with admitting := none,channel := r.channel++r.admitting.toList} := by
  have perm : (r.queued++(none : Option Entry).toList++(r.channel++r.admitting.toList)).Perm r.pending := by
    unfold pending
    simp only [Option.toList_none,List.append_nil,List.append_assoc]
    exact List.perm_append_comm.append_left r.queued
  exact .mk _ _ _ r.errorRx perm

theorem handed_notify (id : RequestId) : Handed r {r with errorRx := r.errorRx++[id]} :=
  .mk r.queued r.channel r.admitting _ (List.Perm.refl _)

section Steps
variable {ext : External} {blockSize : Nat} {request : ValidGenerateRequest} {reads : Option Nat}
  {cached : Observation} {m : EngineStepOutput}

-- What a commit adds: an account, and its increments of the counters.
structure Committed (r : Replica β) (blockSize hits : Nat) (request : ValidGenerateRequest) (reads : Option Nat) (entry : Entry)
    (r' : Replica β) : Prop where
  account : entry.account = opened blockSize hits request
  channel : entry.responseTx = ⟨[],reads⟩
  positive : 0 < blockSize
  result : r' = {r with queued := r.queued++[entry],
                        context := ⟨r.context.lmetric.addAssign ⟨1,1,request.inputTokens.length-hits*blockSize,
                          request.inputTokens.length⟩,r.context.blockHash⟩}

theorem commit_cases [BlockHash β] (result : r.commit ext blockSize request reads cached = .ok r') :
    ∃ entry₀ hits entry, Entry.new ext blockSize request reads = some entry₀ ∧
      observedHits r.context.blockHash entry₀.blockHashState.blockHashes cached = some hits ∧
      Committed r blockSize hits request reads entry r' := by
  unfold commit at result
  cases made : Entry.new ext blockSize request reads with
  | none => simp [made] at result
  | some entry₀ =>
    simp only [made] at result
    cases hashed : BlockHashState.new ext request.inputTokens blockSize with
    | none => simp [Entry.new,hashed] at made
    | some state =>
      have shape : entry₀ = ⟨request,state,⟨[],reads⟩,0⟩ := by simpa [Entry.new,hashed] using made.symm
      obtain ⟨positive,_,real,size⟩ := BlockHashState.new_eq hashed
      unfold applyDefaultAfter at result
      cases observed : observedHits r.context.blockHash entry₀.blockHashState.blockHashes cached with
      | none => simp only [observed] at result; cases result
      | some hits =>
        cases set : entry₀.blockHashState.setPredBlockHits hits with
        | none => simp only [observed,set] at result; cases result
        | some state' =>
          have moved := BlockHashState.setPredBlockHits_eq set
          simp only [observed,set] at result
          cases result
          subst shape
          subst moved
          refine ⟨_,hits,⟨request,{state with predHitNblks := hits%noneSentinel,
                                              decisionEpoch := BlockHash.epoch r.context.blockHash},⟨[],reads⟩,0⟩,rfl,observed,?_⟩
          exact ⟨by simp [Entry.account,opened,real,size],rfl,positive,by simp only [size]⟩

theorem Committed.books {hits : Nat} {entry : Entry} (done : Committed r blockSize hits request reads entry r') :
    books w r' = Replica.books w r+w (opened blockSize hits request) := by
  rw [done.result,← done.account]
  simp only [Replica.books,pending,List.map_append,List.map_cons,List.map_nil,List.sum_append,List.sum_cons,List.sum_nil]
  omega

theorem Committed.everything {hits : Nat} {entry : Entry} (done : Committed r blockSize hits request reads entry r') :
    everything w r' = Replica.everything w r+w (opened blockSize hits request) := by
  rw [done.result,← done.account]
  simp only [Replica.everything,pending,List.map_append,List.map_cons,List.map_nil,List.sum_append,List.sum_cons,List.sum_nil]
  omega

theorem Committed.placed {hits : Nat} {entry : Entry} (done : Committed r blockSize hits request reads entry r')
    (placed : Placed committed r) (fresh : request.requestId ∉ committed) : Placed (committed++[request.requestId]) r' := by
  have named : entry.request = request := congrArg Account.request done.account
  have perm : r'.pending.Perm (entry::r.pending) := by
    rw [done.result]
    simp only [pending,List.append_assoc]
    exact (List.perm_append_comm_assoc r.queued [entry] (r.admitting.toList++r.channel))
  have loop : r'.loop = r.loop := by rw [done.result]
  have stage : r'.stage = r.stage := by rw [done.result]
  have member : ∀ e ∈ r'.pending, e = entry ∨ e ∈ r.pending := fun e inside => List.mem_cons.mp (perm.mem_iff.mp inside)
  refine ⟨loop ▸ placed.sound,?_,?_,?_,?_,stage ▸ placed.orderly,loop ▸ placed.cancel,loop ▸ placed.skipped,?_⟩
  · refine ((perm.map _).nodup_iff).mpr (List.nodup_cons.mpr ⟨?_,placed.distinct⟩)
    intro inside
    obtain ⟨e,member,same⟩ := List.mem_map.mp inside
    have taken : e.request.requestId = request.requestId := same.trans (congrArg ValidGenerateRequest.requestId named)
    exact fresh (taken ▸ placed.posted e member)
  · intro e inside known
    rw [loop] at known
    rcases member e inside with rfl | old
    · exact fresh (named ▸ placed.known _ known)
    · exact placed.outside e old known
  · intro id known
    exact List.mem_append_left _ (placed.known id (loop ▸ known))
  · intro e inside
    rcases member e inside with rfl | old
    · rw [named]; exact List.mem_append_right _ (List.mem_singleton_self _)
    · exact List.mem_append_left _ (placed.posted e old)
  · rw [stage,loop]; exact placed.leaving

theorem Placed.drained (placed : Placed committed r) : Drained r.loop r.channel (r.loop.drain r.channel) := by
  have inside : ∀ e ∈ r.channel, e ∈ r.pending := fun e member => List.mem_append_right _ member
  refine placed.sound.drain ?_ fun e member => placed.outside e (inside e member)
  have all := placed.distinct
  rw [pending,List.map_append] at all
  exact (List.nodup_append.mp all).2.1

theorem Placed.books_recvStep (placed : Placed committed r) (idle : r.stage = .idle) :
    books w {r with loop := r.loop.drain r.channel,channel := [],stage := .received m} = Replica.books w r := by
  have moved := placed.drained.balance w
  simp only [Replica.books,pending,idle,settledOf,moved,List.map_append,List.sum_append,List.map_nil,List.sum_nil]
  omega

theorem Placed.everything_recvStep (placed : Placed committed r) :
    everything w {r with loop := r.loop.drain r.channel,channel := [],stage := .received m} = Replica.everything w r := by
  have moved := placed.drained.balance w
  simp only [Replica.everything,pending,moved,gone,placed.drained.leaving,placed.drained.released,List.map_append,
    List.sum_append,List.map_nil,List.sum_nil]
  omega

theorem Placed.recvStep (placed : Placed committed r) (idle : r.stage = .idle)
    (distinct : (m.outputs.map RequestStepOutput.requestId).Nodup) :
    Placed committed {r with loop := r.loop.drain r.channel,channel := [],stage := .received m} := by
  have drained := placed.drained
  have still : ∀ e ∈ r.queued++r.admitting.toList++[], e ∈ r.pending := fun e member =>
    List.mem_append_left _ (by simpa using member)
  have all := placed.distinct
  rw [pending,List.map_append] at all
  obtain ⟨front,_,apart⟩ := List.nodup_append.mp all
  refine ⟨drained.sound,by simpa [pending] using front,?_,?_,fun e member => placed.posted e (still e member),?_,
    drained.cancel.trans placed.cancel,drained.skipped.trans placed.skipped,?_⟩
  · intro e member known
    rcases (drained.known _).mp known with old | posted
    · exact placed.outside e (still e member) old
    · have ahead : e ∈ r.queued++r.admitting.toList := by simpa [pending] using member
      exact apart _ (List.mem_map_of_mem ahead) _ posted rfl
  · intro id known
    rcases (drained.known _).mp known with old | posted
    · exact placed.known id old
    · obtain ⟨e,member,rfl⟩ := List.mem_map.mp posted
      exact placed.posted e (List.mem_append_right _ member)
  · intro m' same
    cases same
    exact distinct
  · intro _
    exact drained.leaving.trans (placed.leaving fun m' same => by rw [idle] at same; cases same)

-- What the first half of an iteration does to the books, with the delta it
-- subtracts from the counters.
structure Charged (r : Replica β) (m : EngineStepOutput) (d : LMetricDec) (r' : Replica β) : Prop where
  books : ∀ (w : Account → Int) (c : LMetricDec → Int), Linear c →
    books w r'+c d = Replica.books w r+c (startDelta m)+
      (m.outputs.map (driftOf w c r.loop)).sum
  everything : ∀ w : Account → Int, (∀ a o, w (a.post o) = w a) → everything w r' = Replica.everything w r
  placed : ∀ {committed}, Placed committed r → Placed committed r'
  lmetric : r'.context.lmetric = r.context.lmetric.subAssign d
  stage : r'.stage = .metered m
  pending : r'.pending = r.pending
  errors : r'.errorRx = r.errorRx

theorem Placed.charged [BlockHash β] (placed : Placed committed r) (stage : r.stage = .received m)
    (result : r.perform ext blockSize .meter = .ok r') :
    ∃ s₁ d, r.loop.fastPath ext m = .ok (s₁,d) ∧ Charged r m d r' := by
  obtain ⟨loop,context,metered,rfl⟩ := perform_meter stage result
  obtain ⟨s₁,d,fast,metering,carries,lmetric⟩ := meter_cases placed.sound (placed.orderly m (by rw [stage]; rfl)) metered
  refine ⟨s₁,d,fast,?_,?_,?_,lmetric,rfl,rfl,rfl⟩
  · intro w c linear
    have moved := metering.balance w c [] linear fun _ _ => List.not_mem_nil
    simp only [Replica.books,pending,stage,settledOf,carries.balance]
    omega
  · intro w still
    have moved := metering.conserved w still
    simp only [Replica.everything,pending,carries.balance,carries.gone]
    omega
  · intro committed placed
    have known : ∀ id, loop.Known id ↔ r.loop.Known id := fun id => (carries.kept.known id).trans (metering.kept.known id)
    refine ⟨carries.sound metering.sound,placed.distinct,fun e member => (known _).not.mpr (placed.outside e member),
      fun id held => placed.known id ((known id).mp held),placed.posted,?_,?_,?_,fun other => absurd rfl (other m)⟩
    · intro m' same
      cases same
      exact placed.orderly m (by rw [stage]; rfl)
    · exact (carries.kept.cancel.trans metering.kept.cancel).trans placed.cancel
    · exact (carries.kept.skipped.trans metering.kept.skipped).trans placed.skipped

-- What the second half does, with the entries that leave the exception context.
structure Left (r : Replica β) (left : List Entry) (r' : Replica β) : Prop where
  books : ∀ w : Account → Int, books w r'+(left.map fun entry => w entry.account).sum = Replica.books w r
  everything : ∀ w : Account → Int, everything w r' = Replica.everything w r
  placed : ∀ {committed}, Placed committed r → Placed committed r'
  lmetric : r'.context.lmetric = (left.foldl LeaveDec.leave ⟨0,0⟩).apply r.context.lmetric
  stage : r'.stage = .idle
  pending : r'.pending = r.pending

theorem Placed.left [BlockHash β] (placed : Placed committed r) (stage : r.stage = .metered m)
    (result : r.perform ext blockSize .deliver = .ok r') :
    ∃ left, r.loop.passGenerations ext m r.errorRx = .ok (r'.loop,left) ∧ Left r left r' := by
  obtain ⟨loop,context,delivered,rfl⟩ := perform_deliver stage result
  obtain ⟨left,passed,rfl⟩ := deliver_cases delivered
  have delivering := placed.sound.delivering passed
  refine ⟨left,passed,?_,?_,?_,rfl,rfl,rfl⟩
  · intro w
    have moved := delivering.balance w
    simp only [Replica.books,pending,stage,settledOf]
    omega
  · intro w
    have moved := delivering.conserved w
    simp only [Replica.everything,pending]
    omega
  · intro committed placed
    refine ⟨delivering.sound,placed.distinct,fun e member held => placed.outside e member (delivering.known _ held),
      fun id held => placed.known id (delivering.known id held),placed.posted,?_,delivering.cancel,delivering.skipped,
      fun _ => delivering.leaving⟩
    intro m' same
    cases same

end Steps
end Replica
end BlitzRouter
