import BlitzRouter.Audit

namespace BlitzRouter
open Radix CompletionLoop

namespace Replica
variable {β : Type} {r r' : Replica β} {committed : List RequestId}

def owner (id : RequestId) (a : Account) : Int := if a.request.requestId = id then 1 else 0

-- Ids of the committed requests that have not left.
def inFlight (r : Replica β) : List RequestId :=
  (r.pending.map fun entry => entry.request.requestId)++(r.loop.entries.keys++r.loop.exceptContext.entries.keys)

theorem sum_owner (entries : List Entry) (id : RequestId) :
    (entries.map fun entry => owner id entry.account).sum = (entries.map fun entry => entry.request.requestId).count id := by
  induction entries with
  | nil => rfl
  | cons entry rest ih =>
    rw [List.map_cons,List.sum_cons,List.map_cons,List.count_cons,ih]
    by_cases same : entry.request.requestId = id
    · simp [owner,same,add_comm]
    · simp [owner,same]

theorem owner_opened (blockSize hits : Nat) (request : ValidGenerateRequest) (id : RequestId) :
    owner id (opened blockSize hits request) = (([request.requestId].count id : Nat) : Int) := by
  by_cases same : request.requestId = id <;> simp [owner,opened,same]

theorem total_owner {t : Table RequestId Entry} (keyed : ∀ id entry, t.lookup id = some entry → entry.request.requestId = id)
    (id : RequestId) : Ledger.total (fun _ entry => owner id entry.account) t = t.keys.count id := by
  rw [← Ledger.total_count]
  apply Ledger.total_congr
  intro key entry found
  simp only [owner,account_request,keyed key entry found]

theorem standing_nil (w : Account → Int) : standing w [] = fun _ entry => w entry.account := by
  funext id entry
  simp [standing]

theorem balance_owner {s : CompletionLoop} (sound : s.Sound) (id : RequestId) :
    balance (owner id) [] s = (s.entries.keys++s.exceptContext.entries.keys).count id := by
  rw [balance,standing_nil,total_owner sound.keyed,total_owner sound.keyedExcept,List.count_append]
  rfl

theorem balance_one (s : CompletionLoop) :
    balance (fun _ => 1) [] s = (s.entries.keys++s.exceptContext.entries.keys).length := by
  rw [balance,standing_nil,Ledger.total_one,Ledger.total_one,List.length_append]
  rfl

theorem books_nonneg {w : Account → Int} (positive : ∀ a, 0 ≤ w a) : 0 ≤ books w r := by
  have front : 0 ≤ (r.pending.map fun entry => w entry.account).sum := by
    apply List.sum_nonneg
    intro value member
    obtain ⟨entry,_,rfl⟩ := List.mem_map.mp member
    exact positive entry.account
  have inside : 0 ≤ Ledger.total (standing w (settledOf r.stage)) r.loop.entries := by
    apply Ledger.total_nonneg
    intro id entry
    unfold standing
    split
    · exact Int.le_refl 0
    · exact positive entry.account
  have except : 0 ≤ Ledger.total (fun _ entry => w (Entry.account entry)) r.loop.exceptContext.entries :=
    Ledger.total_nonneg fun _ entry => positive entry.account
  unfold books balance
  omega

theorem books_idle {w : Account → Int} (idle : r.stage = .idle) :
    books w r = (r.pending.map fun entry => w entry.account).sum+balance w [] r.loop := by
  rw [books,idle]
  rfl

-- What the code subtracts from the batch size in that action.
def bsSubtracted (ext : External) (r : Replica β) : Action → Nat
  | .meter =>
    match r.stage with
    | .received m =>
      match r.loop.fastPath ext m with
      | .ok (_,d) => d.bsDec
      | .error _ => 0
    | _ => 0
  | .deliver =>
    match r.stage with
    | .metered m =>
      match r.loop.passGenerations ext m r.errorRx with
      | .ok (_,left) => (left.foldl LeaveDec.leave ⟨0,0⟩).bsDec
      | .error _ => 0
    | _ => 0
  | _ => 0

theorem sum_finishing (s : CompletionLoop) (m : EngineStepOutput) (id : RequestId) (sound : s.Sound) :
    (m.outputs.map (driftOf (owner id) (fun _ => 0) s)).sum = -(((finishing s m).count id : Nat) : Int) := by
  unfold finishing
  induction m.outputs with
  | nil => rfl
  | cons o rest ih =>
    rw [List.map_cons,List.sum_cons,ih,List.filter_cons]
    cases found : s.find o.requestId with
    | none => simp [driftOf,found]
    | some entry =>
      have keyed := sound.keyed_find found
      cases ends : o.isFinished with
      | false =>
        have still : owner id (entry.account.post o) = owner id entry.account := by unfold owner; rw [post_request]
        simp [driftOf,found,ends,drift,still]
      | true =>
        simp only [driftOf,found,ends,drift,owner,account_request,keyed,Option.isSome_some,Bool.and_true,if_true,List.map_cons,
          List.count_cons]
        by_cases same : o.requestId = id
        · simp [same]
        · simp [same]

theorem linear_bsDec : Linear fun d => (d.bsDec : Int) := by
  intro a o d
  unfold Account.charge LMetricDec.new
  split <;> simp

theorem linear_zero : Linear fun _ => 0 := fun _ _ _ => rfl

theorem drift_bs (a : Account) (o : RequestStepOutput) : drift (fun _ => 1) (fun d => (d.bsDec : Int)) o a = 0 := by
  unfold drift Account.charge LMetricDec.new
  cases o.isFinished <;> cases o.state <;> simp

theorem sum_drift_bs (s : CompletionLoop) (outputs : List RequestStepOutput) :
    (outputs.map (driftOf (fun _ => 1) (fun d => (d.bsDec : Int)) s)).sum = 0 := by
  apply List.sum_eq_zero
  intro value member
  obtain ⟨o,_,rfl⟩ := List.mem_map.mp member
  unfold driftOf
  split
  · rfl
  · exact drift_bs _ _

-- With nothing on the books the drift of the counter alone counts the finished ones.
theorem sum_bsDec (s : CompletionLoop) (m : EngineStepOutput) :
    (m.outputs.map (driftOf (fun _ => 0) (fun d => (d.bsDec : Int)) s)).sum = (finishing s m).length := by
  unfold finishing
  induction m.outputs with
  | nil => rfl
  | cons o rest ih =>
    rw [List.map_cons,List.sum_cons,ih,List.filter_cons]
    cases found : s.find o.requestId with
    | none => simp [driftOf,found]
    | some entry =>
      cases ends : o.isFinished <;> cases state : o.state <;>
        simp [driftOf,found,ends,drift,Account.charge,state,LMetricDec.new,add_comm]

-- The books of a replica against its history.
structure Balanced (r : Replica β) (committed charged : List RequestId) : Prop where
  placed : Placed committed r
  once : committed.Nodup
  bs : (r.context.lmetric.bs : Int) = books (fun _ => 1) r
  standing : ∀ id, books (owner id) r+(charged.count id : Nat) = (committed.count id : Nat)
  all : ∀ id, everything (owner id) r = (committed.count id : Nat)

section Actions
variable {charged : List RequestId} {m : EngineStepOutput} {ext : External} {blockSize : Nat}

theorem balanced_start (blockHash : β) : Balanced (start ⟨.empty,blockHash⟩) [] [] :=
  ⟨placed_start _,List.nodup_nil,rfl,fun _ => rfl,fun _ => rfl⟩

theorem Balanced.handed (balanced : Balanced r committed charged) (handed : Handed r r') : Balanced r' committed charged := by
  obtain ⟨context,_,_⟩ := handed.frame
  refine ⟨handed.placed balanced.placed,balanced.once,?_,?_,?_⟩
  · rw [context,handed.books]; exact balanced.bs
  · intro id; rw [handed.books]; exact balanced.standing id
  · intro id; rw [handed.everything]; exact balanced.all id

theorem Balanced.commit [BlockHash β] {request : ValidGenerateRequest} {reads : Option Nat} {cached : Observation}
    (balanced : Balanced r committed charged) (fresh : request.requestId ∉ committed)
    (result : r.commit ext blockSize request reads cached = .ok r') :
    Balanced r' (committed++[request.requestId]) charged ∧ r'.context.lmetric.bs = r.context.lmetric.bs+1 := by
  obtain ⟨_,hits,entry,_,_,done⟩ := commit_cases result
  have context : r'.context.lmetric.bs = r.context.lmetric.bs+1 := by rw [done.result]; rfl
  refine ⟨⟨done.placed balanced.placed fresh,?_,?_,?_,?_⟩,context⟩
  · exact List.Nodup.append balanced.once (List.nodup_singleton _) (by simpa using fresh)
  · have bs := balanced.bs
    have books := done.books (w := fun _ => 1)
    rw [context]
    omega
  · intro id
    have before := balanced.standing id
    have moved := done.books (w := owner id)
    rw [owner_opened] at moved
    rw [List.count_append]
    omega
  · intro id
    have before := balanced.all id
    have moved := done.everything (w := owner id)
    rw [owner_opened] at moved
    rw [List.count_append]
    omega

theorem Balanced.recvStep (balanced : Balanced r committed charged) (idle : r.stage = .idle)
    (distinct : (m.outputs.map RequestStepOutput.requestId).Nodup) :
    Balanced {r with loop := r.loop.drain r.channel,channel := [],stage := .received m} committed charged := by
  have placed := balanced.placed
  refine ⟨placed.recvStep idle distinct,balanced.once,?_,?_,?_⟩
  · exact balanced.bs.trans (placed.books_recvStep idle).symm
  · intro id
    rw [placed.books_recvStep idle]
    exact balanced.standing id
  · exact fun id => placed.everything_recvStep.trans (balanced.all id)

-- The fast path: finished requests leave the books and the batch size together.
theorem Balanced.meter [BlockHash β] (balanced : Balanced r committed charged) (stage : r.stage = .received m)
    (result : r.perform ext blockSize .meter = .ok r') :
    Balanced r' committed (charged++finishing r.loop m) ∧
      ∃ s₁ d, r.loop.fastPath ext m = .ok (s₁,d) ∧ d.bsDec = (finishing r.loop m).length ∧
        d.bsDec ≤ r.context.lmetric.bs ∧ r'.context.lmetric.bs+d.bsDec = r.context.lmetric.bs := by
  have placed := balanced.placed
  have bs := balanced.bs
  obtain ⟨s₁,d,fast,charge⟩ := placed.charged stage result
  have kept := charge.books (fun _ => 1) (fun d => (d.bsDec : Int)) linear_bsDec
  have counted := charge.books (fun _ => 0) (fun d => (d.bsDec : Int)) linear_bsDec
  have room := books_nonneg (r := r') (w := fun _ => 1) fun _ => by decide
  have start : ((startDelta m).bsDec : Int) = 0 := rfl
  rw [sum_drift_bs,start] at kept
  rw [sum_bsDec,books_zero,books_zero,start] at counted
  have lmetric : r'.context.lmetric.bs = r.context.lmetric.bs-d.bsDec := by rw [charge.lmetric]; rfl
  refine ⟨⟨charge.placed placed,balanced.once,?_,?_,?_⟩,s₁,d,fast,?_,?_,?_⟩
  · rw [lmetric]; omega
  · intro id
    have before := balanced.standing id
    have moved := charge.books (owner id) (fun _ => 0) linear_zero
    rw [sum_finishing _ _ _ placed.sound] at moved
    rw [List.count_append]
    omega
  · intro id
    refine (charge.everything (owner id) ?_).trans (balanced.all id)
    intro a o
    unfold owner
    rw [post_request]
  · omega
  · omega
  · omega

-- The exceptions: what the context hands back leaves both as well.
theorem Balanced.deliver [BlockHash β] (balanced : Balanced r committed charged) (stage : r.stage = .metered m)
    (result : r.perform ext blockSize .deliver = .ok r') :
    ∃ left, r.loop.passGenerations ext m r.errorRx = .ok (r'.loop,left) ∧
      Balanced r' committed (charged++left.map fun entry => entry.request.requestId) ∧
      left.length ≤ r.context.lmetric.bs ∧ r'.context.lmetric.bs+left.length = r.context.lmetric.bs := by
  have placed := balanced.placed
  have bs := balanced.bs
  obtain ⟨left,passed,leave⟩ := placed.left stage result
  have kept := leave.books fun _ => 1
  have room := books_nonneg (r := r') (w := fun _ => 1) fun _ => by decide
  have ones : (left.map fun _ => (1 : Int)).sum = left.length := by simp
  rw [ones] at kept
  have lmetric : r'.context.lmetric.bs = r.context.lmetric.bs-left.length := by
    rw [leave.lmetric,LeaveDec.apply,leaves_bsDec,Nat.zero_add]
    split
    · omega
    · rfl
  refine ⟨left,passed,⟨leave.placed placed,balanced.once,?_,?_,?_⟩,?_,?_⟩
  · rw [lmetric]; omega
  · intro id
    have before := balanced.standing id
    have moved := leave.books (owner id)
    rw [sum_owner] at moved
    rw [List.count_append]
    omega
  · exact fun id => (leave.everything (owner id)).trans (balanced.all id)
  · omega
  · omega

end Actions

-- Between two iterations the books are the lists of requests themselves.
theorem Balanced.idle {charged : List RequestId} (balanced : Balanced r committed charged) (idle : r.stage = .idle) :
    r.context.lmetric.bs = r.inFlight.length ∧ (r.inFlight++charged).Perm committed ∧
      charged.Perm (r.loop.released.map fun entry => entry.request.requestId) := by
  have quiet := balanced.placed.leaving fun m same => by rw [idle] at same; cases same
  have inside : ∀ id, books (owner id) r = (r.inFlight.count id : Nat) := by
    intro id
    rw [books_idle idle,sum_owner,balance_owner balanced.placed.sound]
    simp only [inFlight,List.count_append]
    omega
  refine ⟨?_,?_,?_⟩
  · have bs := balanced.bs
    have ones : (r.pending.map fun _ => (1 : Int)).sum = r.pending.length := by simp
    rw [books_idle idle,balance_one,ones] at bs
    rw [inFlight,List.length_append,List.length_map]
    omega
  · apply List.perm_iff_count.mpr
    intro id
    have standing := balanced.standing id
    rw [inside] at standing
    rw [List.count_append]
    omega
  · apply List.perm_iff_count.mpr
    intro id
    have standing := balanced.standing id
    have all := balanced.all id
    have released := sum_owner r.loop.released id
    rw [books_idle idle] at standing
    simp only [everything,gone,quiet,List.map_nil,List.sum_nil] at all
    omega

end Replica

namespace Audit
open Replica
variable {β : Type} [BlockHash β] {ext : External} {blockSize : Nat} {x x' : Audit β} {a : Action} {history : List Action}

-- What one action does to the batch size: the code subtracts one for each request
-- it charges, and there is enough to subtract from.
structure Subtracts (ext : External) (x : Audit β) (a : Action) (x' : Audit β) : Prop where
  amount : bsSubtracted ext x.replica a = (charges ext x.replica a).length
  room : bsSubtracted ext x.replica a ≤ x.replica.context.lmetric.bs
  next : x'.replica.context.lmetric.bs+bsSubtracted ext x.replica a =
    x.replica.context.lmetric.bs+(committedBy a).length

theorem balanced_step (balanced : Balanced x.replica x.committed x.charged) (step : Step ext blockSize x a x') :
    Balanced x'.replica x'.committed x'.charged ∧ Subtracts ext x a x' := by
  obtain ⟨⟨enabled,result⟩,orderly,history⟩ := step
  rw [history]
  rw [history] at result
  generalize x'.replica = r' at result
  simp only [after] at result ⊢
  cases a with
  | commit request reads cached =>
    obtain ⟨balanced',more⟩ := balanced.commit orderly result
    refine ⟨?_,rfl,Nat.zero_le _,more⟩
    simpa only [committedBy,charges,List.append_nil] using balanced'
  | addRequest =>
    cases result
    refine ⟨?_,rfl,Nat.zero_le _,rfl⟩
    simpa only [committedBy,charges,List.append_nil] using balanced.handed (handed_addRequest enabled.1)
  | send =>
    cases result
    refine ⟨?_,rfl,Nat.zero_le _,rfl⟩
    simpa only [committedBy,charges,List.append_nil] using balanced.handed handed_send
  | notify id =>
    cases result
    refine ⟨?_,rfl,Nat.zero_le _,rfl⟩
    simpa only [committedBy,charges,List.append_nil] using balanced.handed (handed_notify id)
  | recvStep m =>
    cases result
    refine ⟨?_,rfl,Nat.zero_le _,rfl⟩
    simpa only [committedBy,charges,List.append_nil] using balanced.recvStep enabled.1 orderly
  | meter =>
    obtain ⟨m,stage⟩ := enabled
    obtain ⟨balanced',s₁,d,fast,amount,room,next⟩ := balanced.meter stage result
    have charge : charges ext x.replica .meter = finishing x.replica.loop m := by simp only [charges,stage]
    have dec : bsSubtracted ext x.replica .meter = d.bsDec := by simp only [bsSubtracted,stage,fast]
    refine ⟨?_,?_,?_,?_⟩
    · rw [charge]; simpa only [committedBy,List.append_nil] using balanced'
    · rw [dec,charge]; exact amount
    · rw [dec]; exact room
    · rw [dec]; exact next
  | deliver =>
    obtain ⟨m,stage⟩ := enabled
    obtain ⟨left,passed,balanced',room,next⟩ := balanced.deliver stage result
    have charge : charges ext x.replica .deliver = left.map fun entry => entry.request.requestId := by
      simp only [charges,stage,passed]
    have dec : bsSubtracted ext x.replica .deliver = left.length := by
      simp only [bsSubtracted,stage,passed,leaves_bsDec,Nat.zero_add]
    refine ⟨?_,?_,?_,?_⟩
    · rw [charge]; simpa only [committedBy,List.append_nil] using balanced'
    · rw [dec,charge,List.length_map]
    · rw [dec]; exact room
    · rw [dec]; exact next

theorem balanced_run (blockHash : β) (run : Run (Step ext blockSize) (start ⟨.empty,blockHash⟩) history x) :
    Balanced x.replica x.committed x.charged :=
  run.invariant (I := fun _ x => Balanced x.replica x.committed x.charged) (balanced_start blockHash)
    fun _ _ _ _ balanced step => (balanced_step balanced step).1

-- Each committed request is taken off the batch size once, when it leaves, and
-- the batch size is the number of those that have not left.
theorem batch_size_exact (blockHash : β) (run : Run (Step ext blockSize) (start ⟨.empty,blockHash⟩) history x) :
    x.charged.Nodup ∧ (∀ id ∈ x.charged, id ∈ x.committed) ∧
      (∀ a x', Step ext blockSize x a x' → Subtracts ext x a x') ∧
      (x.replica.stage = .idle →
        x.replica.context.lmetric.bs = x.replica.inFlight.length ∧ (x.replica.inFlight++x.charged).Perm x.committed ∧
        x.charged.Perm (x.replica.loop.released.map fun entry => entry.request.requestId)) := by
  have balanced := balanced_run blockHash run
  have below : ∀ id, x.charged.count id ≤ x.committed.count id := by
    intro id
    have standing := balanced.standing id
    have positive : 0 ≤ books (owner id) x.replica := books_nonneg fun a => by unfold owner; split <;> decide
    omega
  refine ⟨?_,?_,fun a x' step => (balanced_step balanced step).2,balanced.idle⟩
  · exact List.nodup_iff_count_le_one.mpr fun id => (below id).trans (List.nodup_iff_count_le_one.mp balanced.once id)
  · intro id member
    exact List.count_pos_iff.mp ((List.count_pos_iff.mpr member).trans_le (below id))

-- Three requests, one for each way out: a finished output, an abort that the
-- engine acknowledges, and a fault that the end of a cycle drops.
def threeExits : List Action :=
  [.commit (shortRequest 1) none ⟨0,0⟩,.commit (shortRequest 2) (some 1) ⟨0,0⟩,.commit (shortRequest 3) none ⟨0,0⟩,
    .addRequest,.send,.addRequest,.send,.addRequest,.send,
    .recvStep (plainStep 3 [plainOutput 1 .prefill false [5],plainOutput 2 .prefill false [5],plainOutput 3 .prefill false [5]] []),
    .meter,.notify 3,.deliver,.recvStep (plainStep 0 [plainOutput 1 .decode true []] [2]),.meter,.deliver]

theorem batch_size_exact_three_exits :
    ∃ x, Run (Step plainExternal 16) (start ⟨.empty,RadixTreeBlockHash.new 4⟩) threeExits x ∧ x.charged = [1,2,3] ∧
      x.replica.context.lmetric.bs = x.replica.inFlight.length ∧ (x.replica.inFlight++x.charged).Perm x.committed := by
  obtain ⟨x,executed⟩ : ∃ x, (start ⟨.empty,RadixTreeBlockHash.new 4⟩).exec plainExternal 16 threeExits = some x :=
    Option.isSome_iff_exists.mp (by decide)
  have run := run_exec .start executed
  have charged : ((start ⟨.empty,RadixTreeBlockHash.new 4⟩).exec plainExternal 16 threeExits).map charged = some [1,2,3] := by decide
  have idle : ((start ⟨.empty,RadixTreeBlockHash.new 4⟩).exec plainExternal 16 threeExits).map (fun x => x.replica.stage) =
      some .idle := by decide
  rw [executed] at charged idle
  obtain ⟨_,_,_,boundary⟩ := batch_size_exact (RadixTreeBlockHash.new 4) run
  obtain ⟨bs,perm,_⟩ := boundary (Option.some.inj idle)
  exact ⟨x,run,Option.some.inj charged,bs,perm⟩

end Audit
end BlitzRouter
