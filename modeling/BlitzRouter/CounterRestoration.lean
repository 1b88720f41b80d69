import BlitzRouter.BatchSize
import BlitzRouter.FaultDelivery
import BlitzRouter.TokenBalance
import BlitzRouter.WaitingRequests

namespace BlitzRouter
open Radix CompletionLoop

-- What an open account stands for in each counter but the batch size: one waiting
-- request and its predicted work until the first output, and all its tokens.
def waitingWeight (a : Account) : Int := if a.generatedTokenCnt = 0 then 1 else 0

def prefillWeight (a : Account) : Int :=
  if a.generatedTokenCnt = 0 then a.request.inputLength-(a.predHitNblks*a.blockSize : Nat) else 0

def tokensWeight (a : Account) : Int := a.request.inputLength+a.generatedTokenCnt

-- An output as a normal life has it: PREFILL is the first one and no other, each
-- but the last carries one token, and a last PREFILL reports the predicted hits.
structure Regular (o : RequestStepOutput) (a : Account) : Prop where
  prefill : o.state = .prefill ↔ a.generatedTokenCnt = 0
  token : o.isFinished = false → o.newTokenIds.length = 1
  predicted : o.isFinished = true → o.state = .prefill → o.hitTokenCnt = a.predHitNblks*a.blockSize

instance (o : RequestStepOutput) (a : Account) : Decidable (Regular o a) :=
  decidable_of_iff ((o.state = .prefill ↔ a.generatedTokenCnt = 0) ∧ (o.isFinished = false → o.newTokenIds.length = 1) ∧
      (o.isFinished = true → o.state = .prefill → o.hitTokenCnt = a.predHitNblks*a.blockSize))
    ⟨fun ⟨prefill,token,predicted⟩ => ⟨prefill,token,predicted⟩,fun regular => ⟨regular.prefill,regular.token,regular.predicted⟩⟩

section Drift
variable {o : RequestStepOutput} {a : Account}

theorem Account.begun_post : 0 < (a.post o).generatedTokenCnt := by
  unfold Account.post
  split <;> exact Nat.succ_pos _

theorem drift_waiting (regular : Regular o a) : drift waitingWeight (fun d => (d.waitingReqsDec : Int)) o a = 0 := by
  have begun := (Account.begun_post (a := a) (o := o)).ne'
  have first := regular.prefill
  unfold drift
  simp only [waitingWeight,if_neg begun,ite_self]
  cases state : o.state with
  | prefill =>
    rw [if_pos (first.mp state)]
    cases ends : o.isFinished <;> simp [Account.charge,state,ends,LMetricDec.new]
  | decode =>
    rw [if_neg fun fresh => by rw [first.mpr fresh] at state; cases state]
    cases ends : o.isFinished <;> simp [Account.charge,state,ends,LMetricDec.new]
  | other text =>
    rw [if_neg fun fresh => by rw [first.mpr fresh] at state; cases state]
    cases ends : o.isFinished <;> simp [Account.charge,state,ends,LMetricDec.new]

theorem drift_prefill (regular : Regular o a) (whole : o.isFinished = false → o.state = .prefill → o.hitTokenCnt%a.blockSize = 0) :
    drift prefillWeight LMetricDec.prefillTokensDec o a =
      if o.state = .prefill then -((a.request.inputLength : Int)-o.hitTokenCnt) else 0 := by
  have begun := (Account.begun_post (a := a) (o := o)).ne'
  have first := regular.prefill
  unfold drift
  simp only [prefillWeight,if_neg begun,ite_self]
  cases state : o.state with
  | prefill =>
    rw [if_pos (first.mp state),if_pos rfl]
    cases ends : o.isFinished with
    | true =>
      have same := regular.predicted ends state
      simp only [Account.charge,state,ends,LMetricDec.new]
      omega
    | false =>
      have blocks : o.hitTokenCnt/a.blockSize*a.blockSize = o.hitTokenCnt := Nat.div_mul_cancel (Nat.dvd_of_mod_eq_zero (whole ends state))
      have corrected : (((o.hitTokenCnt/a.blockSize : Nat) : Int)-a.predHitNblks)*a.blockSize =
          (o.hitTokenCnt : Int)-(a.predHitNblks*a.blockSize : Nat) := by
        rw [sub_mul,← Nat.cast_mul,← Nat.cast_mul,blocks]
      simp only [Account.charge,state,ends,LMetricDec.new,corrected]
      omega
  | decode =>
    rw [if_neg fun fresh => by rw [first.mpr fresh] at state; cases state]
    cases ends : o.isFinished <;> simp [Account.charge,state,ends,LMetricDec.new]
  | other text =>
    rw [if_neg fun fresh => by rw [first.mpr fresh] at state; cases state]
    cases ends : o.isFinished <;> simp [Account.charge,state,ends,LMetricDec.new]

theorem drift_tokens (regular : Regular o a) : drift tokensWeight (fun d => -d.allTokensInc) o a = 0 := by
  have first := regular.prefill
  unfold drift
  cases ends : o.isFinished with
  | true =>
    cases state : o.state with
    | prefill =>
      have fresh := first.mp state
      simp [tokensWeight,Account.charge,state,ends,LMetricDec.new,fresh]
    | decode => simp [tokensWeight,Account.charge,state,ends,LMetricDec.new]
    | other text => simp [tokensWeight,Account.charge,state,ends,LMetricDec.new]
  | false =>
    have one := regular.token ends
    have next : tokensWeight (a.post o) = tokensWeight a+1 := by
      unfold tokensWeight Account.post
      split <;> simp only [Nat.cast_add,Nat.cast_one,add_assoc]
    rw [if_neg Bool.false_ne_true,next]
    cases state : o.state <;> simp [Account.charge,state,ends,LMetricDec.new,one]

end Drift

namespace CompletionLoop
variable {ext : External} {s s₁ s' t : CompletionLoop} {d d' : LMetricDec} {o : RequestStepOutput} {outputs : List RequestStepOutput}
  {id : RequestId} {ids errors : List RequestId} {left : List Entry} {m : EngineStepOutput}

-- A PREFILL output that goes on passed the check of its hit count.
theorem Sound.metered_whole (sound : s.Sound) (distinct : (outputs.map RequestStepOutput.requestId).Nodup)
    (result : s.meterOutputs ext d outputs = .ok (s',d')) : ∀ o ∈ outputs, ∀ entry, s.find o.requestId = some entry →
      o.isFinished = false → o.state = .prefill → o.hitTokenCnt%entry.account.blockSize = 0 := by
  induction outputs generalizing s d with
  | nil => exact nofun
  | cons o rest ih =>
    cases one : s.meterOutput ext d o with
    | error panic => rw [meterOutputs,one] at result; cases result
    | ok pair =>
      obtain ⟨s₁,d₁⟩ := pair
      have first := sound.metered one
      rw [meterOutputs,one] at result
      obtain ⟨fresh,distinct'⟩ := List.nodup_cons.mp distinct
      intro p member entry found goes state
      rcases List.mem_cons.mp member with rfl | later
      · cases first with
        | unknown absent => rw [absent] at found; cases found
        | update held new found' _ _ whole =>
          rw [found'] at found
          cases found
          exact whole state
        | finish held kept ends => rw [goes] at ends; cases ends
        | exit held st absent kept record ends => rw [goes] at ends; cases ends
      · have apart : p.requestId ≠ o.requestId := fun same => fresh (same ▸ List.mem_map_of_mem later)
        exact ih (first.sound sound) distinct' result p later entry ((first.find_other apart).trans found) goes state

theorem sum_drift_zero {w : Account → Int} {c : LMetricDec → Int}
    (zero : ∀ o ∈ outputs, ∀ entry, s.find o.requestId = some entry → drift w c o entry.account = 0) :
    (outputs.map (driftOf w c s)).sum = 0 := by
  apply List.sum_eq_zero
  intro value member
  obtain ⟨o,output,rfl⟩ := List.mem_map.mp member
  unfold driftOf
  split
  · rfl
  · rename_i entry found
    exact zero o output entry found

theorem sum_drift_prefill (whole : ∀ o ∈ outputs, ∀ entry, s.find o.requestId = some entry →
      o.isFinished = false → o.state = .prefill → o.hitTokenCnt%entry.account.blockSize = 0)
    (regular : ∀ o ∈ outputs, ∀ entry, s.find o.requestId = some entry → Regular o entry.account) :
    (outputs.map (driftOf prefillWeight LMetricDec.prefillTokensDec s)).sum = -(outputs.map (Replica.uncached s)).sum := by
  rw [List.sum_neg,List.map_map]
  congr 1
  apply List.map_congr_left
  intro o member
  simp only [Function.comp_apply]
  unfold driftOf Replica.uncached
  cases found : s.find o.requestId with
  | none => cases o.state <;> rfl
  | some entry =>
    simp only [drift_prefill (regular o member entry found) (whole o member entry found)]
    cases o.state <;> simp

-- The request has had an output.
def Begun (entry : Entry) : Prop := entry.account.generatedTokenCnt ≠ 0

-- An entry that the slow path leaves in place keeps its account.
theorem Passed.accounts (step : Passed s o s') {key : RequestId} {e : Entry} (inside : s'.entries.lookup key = some e) :
    ∃ old, s.entries.lookup key = some old ∧ old.account = e.account := by
  cases step with
  | unknown phases absent => exact ⟨e,inside,rfl⟩
  | update entry new phases cancel found goes account =>
    by_cases same : key = o.requestId
    · subst same
      simp only [AList.lookup_insert,Option.some.injEq] at inside
      subst inside
      exact ⟨entry,found,account.symm⟩
    · exact ⟨e,by simpa [AList.lookup_insert_ne same] using inside,rfl⟩
  | finish entry new phases cancel found ends account =>
    by_cases same : key = o.requestId
    · subst same
      simp at inside
    · exact ⟨e,by simpa [AList.lookup_erase_ne same] using inside,rfl⟩

-- Later in an iteration: no account is new, no record has become ready to drop.
structure Descends (s t : CompletionLoop) : Prop where
  accounts : ∀ id e, t.find id = some e → ∃ old, s.find id = some old ∧ old.account = e.account
  ready : ∀ id st, t.exceptContext.states.dlookup id = some st → st.isDropReady = true →
    s.exceptContext.states.dlookup id = some st

theorem Descends.refl (s : CompletionLoop) : Descends s s := ⟨fun _ e found => ⟨e,found,rfl⟩,fun _ _ found _ => found⟩

theorem Descends.trans (one : Descends s s₁) (two : Descends s₁ s') : Descends s s' := by
  refine ⟨fun id e found => ?_,fun id st found ready => one.ready id st (two.ready id st found ready) ready⟩
  obtain ⟨middle,found₁,same⟩ := two.accounts id e found
  obtain ⟨old,found₂,same₂⟩ := one.accounts id middle found₁
  exact ⟨old,found₂,same₂.trans same⟩

theorem Passed.descends {o : RequestStepOutput} (step : Passed s o s') (sound : s.Sound) : Descends s s' := by
  refine ⟨fun key e found => ?_,fun key st record _ => by rwa [step.frame.1] at record⟩
  cases kept : s'.entries.lookup key with
  | some held =>
    rw [find_entries kept] at found
    cases found
    obtain ⟨old,inside,same⟩ := step.accounts kept
    exact ⟨old,find_entries inside,same⟩
  | none =>
    rw [find_except kept,step.frame.1] at found
    exact ⟨e,by rw [find_except (sound.outside_of_except (by rw [found]; rfl)),found],rfl⟩

theorem Moved.accounts (step : Moved s id s') (key : RequestId) (e : Entry) (found : s'.find key = some e) :
    ∃ old, s.find key = some old ∧ old.account = e.account := by
  cases step with
  | mk entry new st phases skipped held account holds =>
    by_cases same : key = id
    · subst same
      have moved : new = e := by simpa [find] using found
      exact ⟨entry,find_entries held,by rw [← moved,account]⟩
    · exact ⟨e,by simpa [find,AList.lookup_erase_ne same,AList.lookup_insert_ne same] using found,rfl⟩

theorem abortEntry_descends (result : s.abortEntry id = .ok s') : Descends s s' := by
  have moved := (abortEntry_moved result).1
  refine ⟨moved.accounts,fun key st found ready => ?_⟩
  have inside : (s.entries.lookup id).isSome = true := by
    cases moved with
    | mk entry _ _ _ _ held => rw [held]; rfl
  obtain ⟨s'',result',caught,_⟩ := abortEntry_spec inside
  cases Except.ok.inj (result.symm.trans result')
  exact caught.ready rfl found ready

theorem faultEntry_descends (result : s.faultEntry id = .ok s') : Descends s s' := by
  by_cases skip : id ∈ s.skippedFaultEntries
  · unfold faultEntry at result
    rw [if_pos skip] at result
    cases result
    exact .refl _
  · rcases faultEntry_moved result with rfl | ⟨moved,_⟩
    · exact .refl _
    · refine ⟨moved.accounts,fun key st found ready => ?_⟩
      have inside : (s.entries.lookup id).isSome = true := by
        cases moved with
        | mk entry _ _ _ _ held => rw [held]; rfl
      obtain ⟨s'',result',caught,_⟩ := faultEntry_spec inside skip
      cases Except.ok.inj (result.symm.trans result')
      exact caught.ready rfl found ready

theorem abortEntries_descends (result : s.abortEntries ids = .ok s') : Descends s s' :=
  abortEntries_steps (P := Descends s) (.refl s) (fun _ _ _ _ before one => before.trans (abortEntry_descends one)) result

theorem onBackendFault_descends (result : s.onBackendFault errors = .ok s') : Descends s s' :=
  onBackendFault_steps (P := Descends s) (.refl s) (fun _ _ _ _ before one => before.trans (faultEntry_descends one)) result

theorem Termed.descends (step : Termed s id s' left) (sound : s.Sound) :
    Descends s s' ∧ ∀ entry ∈ left, s.find id = some entry := by
  cases step with
  | mk st record =>
    refine ⟨⟨fun key e found => ?_,fun key st' found _ => ?_⟩,fun entry member => ?_⟩
    · by_cases same : key = id
      · subst same
        have inside : s.entries.lookup key = some e := by simpa [find] using found
        exact ⟨e,find_entries inside,rfl⟩
      · exact ⟨e,by simpa [find,AList.lookup_erase_ne same] using found,rfl⟩
    · have differs : key ≠ id := by
        rintro rfl
        simp only [List.dlookup_kerase key sound.except.single] at found
        cases found
      simpa only [List.dlookup_kerase_ne differs] using found
    · have held := Option.mem_toList.mp member
      have outside : s.entries.lookup id = none := sound.outside_of_except (by rw [held]; rfl)
      rw [find_except outside]
      exact held

theorem Sound.terms_descends (sound : s.Sound) (result : s.terms ids = .ok (s',left)) :
    Descends s s' ∧ ∀ entry ∈ left, ∃ id ∈ ids, ∃ old, s.find id = some old ∧ old.account = entry.account := by
  induction ids generalizing s left with
  | nil =>
    cases result
    exact ⟨.refl _,nofun⟩
  | cons id rest ih =>
    obtain ⟨s₁,returned,left₁,step,result₁,rfl⟩ := sound.term_cases result
    obtain ⟨first,given⟩ := step.descends sound
    obtain ⟨later,others⟩ := ih (step.leaving sound).sound result₁
    refine ⟨first.trans later,fun entry member => ?_⟩
    rcases List.mem_append.mp member with one | more
    · exact ⟨id,List.mem_cons_self,entry,given entry one,rfl⟩
    · obtain ⟨key,named,middle,found,same⟩ := others entry more
      obtain ⟨old,found',same'⟩ := first.accounts key middle found
      exact ⟨key,List.mem_cons_of_mem id named,old,found',same'.trans same⟩

theorem Sound.dropped_ready (sound : s.Sound) (result : s.dropFaulted = .ok (s',left)) :
    ∀ entry ∈ left, ∃ id st, s.exceptContext.states.dlookup id = some st ∧ st.isDropReady = true ∧ s.find id = some entry := by
  obtain ⟨ctx,dropped,filtered,_,drops⟩ := sound.except.filterDrop_spec
  simp only [dropFaulted,filtered] at result
  cases result
  intro entry member
  obtain ⟨row,taken,rfl⟩ := List.mem_map.mp member
  obtain ⟨held,st,record,ready⟩ := drops.taken row taken
  have outside : s.entries.lookup row.1 = none := sound.outside_of_except (by rw [held]; rfl)
  exact ⟨row.1,st,record,ready,by rw [find_except outside,held]⟩

-- Who leaves the exception context was acknowledged or ready to drop, and has the
-- account it had when the second half began.
theorem Sound.left_accounts (sound : s.Sound) (result : s.passGenerations ext m errors = .ok (s',left)) :
    ∀ entry ∈ left, ∃ id ∈ m.abortedRequests++s.dropReady, ∃ old, s.find id = some old ∧ old.account = entry.account := by
  obtain ⟨s₁,s₂,s₃,s₄,s₅,terminated,dropped,slow,aborted,faulted,ended,ends,rfl,rfl⟩ := passGenerations_phases result
  have passing := sound.passing slow
  have passed : s₁.Sound ∧ Descends s s₁ := slowPath_induct (P := fun t => t.Sound ∧ Descends s t) ⟨sound,.refl s⟩
    (fun _ _ _ _ before step => ⟨step.sound before.1,before.2.trans (step.descends before.1)⟩) slow
  have cleared : Descends s₁ {s₁ with cancelReqIds := []} := ⟨fun _ e found => ⟨e,found,rfl⟩,fun _ _ found _ => found⟩
  have sound₂ := (passing.sound.uncancelled.onFrontendAbort_moving aborted).sound passing.sound.uncancelled
  have sound₃ := (sound₂.onBackendFault_moving faulted).sound sound₂
  have excepted : Descends s s₃ :=
    passed.2.trans (cleared.trans ((abortEntries_descends aborted).trans (onBackendFault_descends faulted)))
  obtain ⟨termed,given⟩ := sound₃.terms_descends ended
  intro entry member
  rcases List.mem_append.mp member with one | more
  · obtain ⟨id,named,middle,found,same⟩ := given entry one
    obtain ⟨old,found',same'⟩ := excepted.accounts id middle found
    exact ⟨id,List.mem_append_left _ named,old,found',same'.trans same⟩
  · have all := excepted.trans termed
    obtain ⟨id,st,record,ready,found⟩ := (sound₃.terms_leaving ended).sound.dropped_ready ends entry more
    obtain ⟨old,found',same⟩ := all.accounts id entry found
    exact ⟨id,List.mem_append_right _ (mem_dropReady (all.ready id st record ready) ready),old,found',same⟩

end CompletionLoop

namespace Audit
open Replica
variable {β : Type} {base : LMetric} {x x' : Audit β} {a : Action} {m : EngineStepOutput} {r' : Replica β}

-- The counters stand above their first values by what the open accounts are worth.
structure Tallied (base : LMetric) (x : Audit β) : Prop where
  placed : Placed x.committed x.replica
  bs : (x.replica.context.lmetric.bs : Int) = base.bs+books (fun _ => 1) x.replica
  waiting : (x.replica.context.lmetric.waitingReqs : Int) = base.waitingReqs+books waitingWeight x.replica
  prefill : x.replica.context.lmetric.prefillTokens = base.prefillTokens+books prefillWeight x.replica-x.unexplained
  tokens : (x.replica.context.lmetric.allTokens : Int) = base.allTokens+books tokensWeight x.replica

theorem tallied_start (context : ScheduleContext β) : Tallied context.lmetric (start context) := by
  have empty : ∀ w, books w (start context).replica = 0 := fun _ => rfl
  refine ⟨placed_start context,?_,?_,?_,?_⟩
  · rw [empty,add_zero]
    rfl
  · rw [empty,add_zero]
    rfl
  · rw [empty,add_zero]
    exact (sub_zero _).symm
  · rw [empty,add_zero]
    rfl

theorem waitingWeight_nonneg (a : Account) : 0 ≤ waitingWeight a := by
  unfold waitingWeight
  split <;> decide

theorem tokensWeight_nonneg (a : Account) : 0 ≤ tokensWeight a := by
  unfold tokensWeight
  omega

theorem Tallied.handed (tallied : Tallied base x) (handed : Handed x.replica r') (placed : Placed x'.committed r')
    (replica : x'.replica = r') (same : x'.unexplained = x.unexplained) : Tallied base x' := by
  obtain ⟨context,loop,stage⟩ := handed.frame
  refine ⟨replica ▸ placed,?_,?_,?_,?_⟩
  · rw [replica,context,handed.books]
    exact tallied.bs
  · rw [replica,context,handed.books]
    exact tallied.waiting
  · rw [replica,context,handed.books,same]
    exact tallied.prefill
  · rw [replica,context,handed.books]
    exact tallied.tokens

theorem Tallied.recvStep (tallied : Tallied base x) (idle : x.replica.stage = .idle)
    (placed : Placed x'.committed {x.replica with loop := x.replica.loop.drain x.replica.channel,channel := [],stage := .received m})
    (replica : x'.replica = {x.replica with loop := x.replica.loop.drain x.replica.channel,channel := [],stage := .received m})
    (same : x'.unexplained = x.unexplained) : Tallied base x' := by
  have books := fun w => tallied.placed.books_recvStep (w := w) (m := m) idle
  refine ⟨replica ▸ placed,?_,?_,?_,?_⟩
  · rw [replica,books]
    exact tallied.bs
  · rw [replica,books]
    exact tallied.waiting
  · rw [replica,books,same]
    exact tallied.prefill
  · rw [replica,books]
    exact tallied.tokens

-- With nobody in flight no account is open.
theorem books_left {w : Account → Int} {r : Replica β} (idle : r.stage = .idle) (left : r.inFlight = []) : books w r = 0 := by
  obtain ⟨front,inside⟩ := List.append_eq_nil_iff.mp left
  obtain ⟨entries,except⟩ := List.append_eq_nil_iff.mp inside
  have empty : ∀ t : Table RequestId Entry, t.keys = [] → ∀ worth : RequestId → Entry → Int, Ledger.total worth t = 0 := by
    intro t none worth
    have blank : Ledger.total worth t = Ledger.total (fun _ _ => (0 : Int)) t := by
      apply Ledger.total_congr
      intro key entry found
      have member : key ∈ t.keys := AList.mem_keys.mp (AList.lookup_isSome.mp (by rw [found]; rfl))
      rw [none] at member
      cases member
    exact blank.trans (Ledger.total_zero fun _ _ => rfl)
  rw [books_idle idle,List.map_eq_nil_iff.mp front,List.map_nil,List.sum_nil,balance,empty _ entries,empty _ except]
  rfl

variable [BlockHash β] {ext : External} {blockSize : Nat}

-- What keeps a counter from leaking in an action: a request is committed with its
-- own length and no more predicted hits than it is long, its outputs are those of
-- a normal life, and it is not acknowledged or dropped before the first one.
def Restorable (ext : External) (blockSize : Nat) (x : Audit β) : Action → Prop
  | .commit request reads cached => request.inputLength = request.inputTokens.length ∧ request.inputTokens.length < noneSentinel ∧
      ∀ entry ∈ Entry.new ext blockSize request reads,
        ∀ hits ∈ observedHits x.replica.context.blockHash entry.blockHashState.blockHashes cached,
          hits*blockSize ≤ request.inputTokens.length
  | .meter => ∀ m ∈ x.replica.metering .meter, ∀ o ∈ m.outputs, ∀ entry ∈ x.replica.loop.find o.requestId, Regular o entry.account
  | .deliver => ∀ m ∈ stepOf x.replica.stage, ∀ id ∈ m.abortedRequests++x.replica.loop.dropReady,
      ∀ entry ∈ x.replica.loop.find id, Begun entry
  | _ => True

theorem Tallied.commit {request : ValidGenerateRequest} {reads : Option Nat} {cached : Observation} (tallied : Tallied base x)
    (placed : Placed x'.committed r') (restorable : Restorable ext blockSize x (.commit request reads cached))
    (result : x.replica.commit ext blockSize request reads cached = .ok r') (replica : x'.replica = r')
    (same : x'.unexplained = x.unexplained) : Tallied base x' := by
  obtain ⟨entry₀,hits,entry,made,observed,done⟩ := commit_cases result
  obtain ⟨validated,short,fits⟩ := restorable
  have predicted := fits entry₀ made hits observed
  have small : hits%noneSentinel = hits := by
    apply Nat.mod_eq_of_lt
    have less : hits ≤ hits*blockSize := Nat.le_mul_of_pos_right hits done.positive
    omega
  have loop : r'.loop = x.replica.loop := by rw [done.result]
  have stage : r'.stage = x.replica.stage := by rw [done.result]
  have lmetric : r'.context.lmetric = x.replica.context.lmetric.addAssign
      ⟨1,1,request.inputTokens.length-hits*blockSize,request.inputTokens.length⟩ := by rw [done.result]
  refine ⟨replica ▸ placed,?_,?_,?_,?_⟩
  · have before := tallied.bs
    rw [replica,done.books,lmetric]
    simp only [LMetric.addAssign]
    omega
  · have before := tallied.waiting
    have weight : waitingWeight (opened blockSize hits request) = 1 := rfl
    rw [replica,done.books,lmetric,weight]
    simp only [LMetric.addAssign]
    omega
  · have before := tallied.prefill
    have weight : prefillWeight (opened blockSize hits request) = (request.inputTokens.length-hits*blockSize : Nat) := by
      simp only [prefillWeight,opened,if_true,small,validated]
      omega
    rw [replica,done.books,lmetric,weight,same]
    simp only [LMetric.addAssign]
    omega
  · have before := tallied.tokens
    have weight : tokensWeight (opened blockSize hits request) = request.inputTokens.length := by
      simp [tokensWeight,opened,validated]
    rw [replica,done.books,lmetric,weight]
    simp only [LMetric.addAssign]
    omega

theorem linear_tokens : Linear fun d => -d.allTokensInc := by
  intro a o d
  have sum := linear_all a o d
  simp only
  omega

theorem Tallied.meter (tallied : Tallied base x) (stage : x.replica.stage = .received m) (placed : Placed x'.committed r')
    (restorable : Restorable ext blockSize x .meter) (result : x.replica.perform ext blockSize .meter = .ok r')
    (replica : x'.replica = r') (same : x'.unexplained = x.unexplained+Replica.unexplained x.replica .meter) : Tallied base x' := by
  have distinct := tallied.placed.orderly m (by rw [stage]; rfl)
  obtain ⟨s₁,d,fast,charge⟩ := tallied.placed.charged stage result
  have whole := tallied.placed.sound.metered_whole distinct fast
  have regular : ∀ o ∈ m.outputs, ∀ entry, x.replica.loop.find o.requestId = some entry → Regular o entry.account :=
    restorable m (metering_meter stage)
  have extra : Replica.unexplained x.replica .meter = m.prefillTokens-(m.outputs.map (uncached x.replica.loop)).sum := by
    simp only [Replica.unexplained,stage]
  refine ⟨replica ▸ placed,?_,?_,?_,?_⟩
  · have before := tallied.bs
    have moved := charge.books (fun _ => 1) (fun d => (d.bsDec : Int)) linear_bsDec
    have room := books_nonneg (r := r') (w := fun _ => 1) fun _ => by decide
    rw [sum_drift_bs,show ((startDelta m).bsDec : Int) = 0 from rfl] at moved
    rw [replica,charge.lmetric]
    simp only [LMetric.subAssign]
    omega
  · have before := tallied.waiting
    have moved := charge.books waitingWeight (fun d => (d.waitingReqsDec : Int)) linear_waiting
    have room := books_nonneg (r := r') waitingWeight_nonneg
    rw [sum_drift_zero fun o output entry found => drift_waiting (regular o output entry found),
      show ((startDelta m).waitingReqsDec : Int) = 0 from rfl] at moved
    rw [replica,charge.lmetric]
    simp only [LMetric.subAssign]
    omega
  · have before := tallied.prefill
    have moved := charge.books prefillWeight LMetricDec.prefillTokensDec linear_prefill
    rw [sum_drift_prefill whole regular,show (startDelta m).prefillTokensDec = m.prefillTokens from rfl] at moved
    rw [replica,charge.lmetric,same,extra]
    simp only [LMetric.subAssign]
    omega
  · have before := tallied.tokens
    have moved := charge.books tokensWeight (fun d => -d.allTokensInc) linear_tokens
    have room := books_nonneg (r := r') tokensWeight_nonneg
    rw [sum_drift_zero fun o output entry found => drift_tokens (regular o output entry found),
      show -(startDelta m).allTokensInc = 0 from rfl] at moved
    rw [replica,charge.lmetric]
    simp only [LMetric.subAssign]
    rw [asUsize_cast (by omega)]
    omega

theorem Tallied.deliver (tallied : Tallied base x) (stage : x.replica.stage = .metered m) (placed : Placed x'.committed r')
    (restorable : Restorable ext blockSize x .deliver) (result : x.replica.perform ext blockSize .deliver = .ok r')
    (replica : x'.replica = r') (same : x'.unexplained = x.unexplained) : Tallied base x' := by
  obtain ⟨left,passed,leave⟩ := tallied.placed.left stage result
  have begun : ∀ entry ∈ left, Begun entry := by
    intro entry member
    obtain ⟨id,named,old,found,account⟩ := tallied.placed.sound.left_accounts passed entry member
    rw [Begun,← account]
    exact restorable m (by rw [stage]; rfl) id named old found
  have worthless : ∀ w : Account → Int, (∀ a, a.generatedTokenCnt ≠ 0 → w a = 0) → (left.map fun entry => w entry.account).sum = 0 := by
    intro w zero
    apply List.sum_eq_zero
    intro value member
    obtain ⟨entry,gone,rfl⟩ := List.mem_map.mp member
    exact zero entry.account (begun entry gone)
  have fields : ∀ d : LeaveDec, (d.apply x.replica.context.lmetric).waitingReqs = x.replica.context.lmetric.waitingReqs ∧
      (d.apply x.replica.context.lmetric).prefillTokens = x.replica.context.lmetric.prefillTokens := by
    intro d
    unfold LeaveDec.apply
    split <;> exact ⟨rfl,rfl⟩
  refine ⟨replica ▸ placed,?_,?_,?_,?_⟩
  · have before := tallied.bs
    have moved := leave.books fun _ => 1
    have ones : (left.map fun _ => (1 : Int)).sum = left.length := by simp
    have room := books_nonneg (r := r') (w := fun _ => 1) fun _ => by decide
    rw [ones] at moved
    rw [replica,leave.lmetric,LeaveDec.apply,leaves_bsDec,Nat.zero_add]
    split
    · omega
    · simp only
      omega
  · have before := tallied.waiting
    have moved := leave.books waitingWeight
    rw [worthless waitingWeight fun a begun => if_neg begun] at moved
    rw [replica,leave.lmetric,(fields _).1]
    omega
  · have before := tallied.prefill
    have moved := leave.books prefillWeight
    rw [worthless prefillWeight fun a begun => if_neg begun] at moved
    rw [replica,leave.lmetric,(fields _).2,same]
    omega
  · have before := tallied.tokens
    have moved := leave.books tokensWeight
    have room := books_nonneg (r := r') tokensWeight_nonneg
    have owed : (left.map fun entry => tokensWeight entry.account).sum =
        (left.map fun entry => (entry.request.inputLength+entry.generatedTokenCnt : Int)).sum := rfl
    rw [replica,leave.lmetric,LeaveDec.apply,leaves_bsDec,Nat.zero_add]
    split
    · rename_i none
      rw [List.length_eq_zero_iff.mp none] at moved
      simp only [List.map_nil,List.sum_nil] at moved
      omega
    · simp only [leaves_allTokensInc]
      rw [saturatingAddSigned_cast (by omega)]
      omega

def RestorableStep (ext : External) (blockSize : Nat) (x : Audit β) (a : Action) (x' : Audit β) : Prop :=
  Step ext blockSize x a x' ∧ Restorable ext blockSize x a

theorem Tallied.step (tallied : Tallied base x) (step : RestorableStep ext blockSize x a x') : Tallied base x' := by
  obtain ⟨step,restorable⟩ := step
  have placed := placed_step tallied.placed step
  have more : x'.unexplained = x.unexplained+Replica.unexplained x.replica a := by rw [step.history]; rfl
  obtain ⟨⟨enabled,result⟩,_,_⟩ := step
  cases a with
  | commit request reads cached => exact tallied.commit placed restorable result rfl (more.trans (add_zero _))
  | addRequest =>
    have same := Except.ok.inj result
    exact tallied.handed (handed_addRequest enabled.1) (same ▸ placed) same.symm (more.trans (add_zero _))
  | send =>
    have same := Except.ok.inj result
    exact tallied.handed handed_send (same ▸ placed) same.symm (more.trans (add_zero _))
  | notify id =>
    have same := Except.ok.inj result
    exact tallied.handed (handed_notify id) (same ▸ placed) same.symm (more.trans (add_zero _))
  | recvStep m =>
    have same := Except.ok.inj result
    exact tallied.recvStep enabled.1 (same ▸ placed) same.symm (more.trans (add_zero _))
  | meter =>
    obtain ⟨m,stage⟩ := enabled
    exact tallied.meter stage placed restorable result rfl more
  | deliver =>
    obtain ⟨m,stage⟩ := enabled
    exact tallied.deliver stage placed restorable result rfl (more.trans (add_zero _))

-- Once everybody has left, by whatever way, the counters are what they were.
theorem counters_restored (context : ScheduleContext β) (history : List Action)
    (run : Run (RestorableStep ext blockSize) (start context) history x) (idle : x.replica.stage = .idle)
    (left : x.replica.inFlight = []) (explained : x.unexplained = 0) : x.replica.context.lmetric = context.lmetric := by
  have tallied : Tallied context.lmetric x :=
    run.invariant (I := fun _ x => Tallied context.lmetric x) (tallied_start context) fun _ _ _ _ before step => before.step step
  obtain ⟨_,bs,waiting,prefill,tokens⟩ := tallied
  rw [books_left idle left] at bs waiting prefill tokens
  cases final : x.replica.context.lmetric with
  | mk bs' waiting' prefill' tokens' =>
    rw [final] at bs waiting prefill tokens
    cases first : context.lmetric with
    | mk bs₀ waiting₀ prefill₀ tokens₀ =>
      rw [first] at bs waiting prefill tokens
      simp only at bs waiting prefill tokens
      rw [LMetric.mk.injEq]
      omega

instance (entry : Entry) : Decidable (Begun entry) := inferInstanceAs (Decidable (_ ≠ _))

instance (x : Audit β) (a : Action) : Decidable (Restorable ext blockSize x a) :=
  match a with
  | .commit request reads cached => inferInstanceAs (Decidable (request.inputLength = request.inputTokens.length ∧
      request.inputTokens.length < noneSentinel ∧ ∀ entry ∈ Entry.new ext blockSize request reads,
        ∀ hits ∈ observedHits x.replica.context.blockHash entry.blockHashState.blockHashes cached,
          hits*blockSize ≤ request.inputTokens.length))
  | .meter => inferInstanceAs (Decidable (∀ m ∈ x.replica.metering .meter, ∀ o ∈ m.outputs,
      ∀ entry ∈ x.replica.loop.find o.requestId, Regular o entry.account))
  | .deliver => inferInstanceAs (Decidable (∀ m ∈ stepOf x.replica.stage, ∀ id ∈ m.abortedRequests++x.replica.loop.dropReady,
      ∀ entry ∈ x.replica.loop.find id, Begun entry))
  | .addRequest | .send | .notify _ | .recvStep _ => .isTrue trivial

def execRestorable (ext : External) (blockSize : Nat) : Audit β → List Action → Option (Audit β)
  | x,[] => some x
  | x,a::rest =>
    if x.replica.Enabled a ∧ Orderly x.committed a ∧ Restorable ext blockSize x a then
      match x.replica.perform ext blockSize a with
      | .ok r => execRestorable ext blockSize (x.after ext a r) rest
      | .error _ => none
    else none

theorem run_execRestorable {from_ : Audit β} {past actions : List Action} (run : Run (RestorableStep ext blockSize) from_ past x)
    (executed : x.execRestorable ext blockSize actions = some x') : Run (RestorableStep ext blockSize) from_ (past++actions) x' := by
  refine run.executed (fun _ => rfl) (fun x a rest t result => ?_) executed
  unfold execRestorable at result
  split at result
  · rename_i allowed
    split at result
    · rename_i r done
      exact ⟨x.after ext a r,⟨⟨⟨allowed.1,done⟩,allowed.2.1,rfl⟩,allowed.2.2⟩,result⟩
    · cases result
  · cases result

-- The three exits again, with one more cycle for the fault to be dropped.
def threeLeave : List Action :=
  threeExits++[.recvStep (plainStep 0 [] []),.meter,.deliver]

theorem counters_restored_three_leave : ∃ x : Audit RadixTreeBlockHash, x.committed = [1,2,3] ∧
    x.replica.context.lmetric = ⟨5,6,7,8⟩ := by
  obtain ⟨x,executed⟩ : ∃ x, (start ⟨⟨5,6,7,8⟩,RadixTreeBlockHash.new 4⟩).execRestorable plainExternal 16 threeLeave = some x :=
    Option.isSome_iff_exists.mp (by decide)
  have facts : ((start ⟨⟨5,6,7,8⟩,RadixTreeBlockHash.new 4⟩).execRestorable plainExternal 16 threeLeave).map
      (fun x => (x.committed,x.replica.stage,x.replica.inFlight,x.unexplained)) = some ([1,2,3],.idle,[],0) := by decide
  rw [executed] at facts
  simp only [Option.map_some,Option.some.injEq,Prod.mk.injEq] at facts
  obtain ⟨committed,idle,left,explained⟩ := facts
  have run := run_execRestorable .start executed
  rw [List.nil_append] at run
  exact ⟨x,committed,counters_restored ⟨⟨5,6,7,8⟩,RadixTreeBlockHash.new 4⟩ threeLeave run idle left explained⟩

-- A request that fails before its first output takes its batch slot and its tokens
-- along, but stays a waiting request with work to do.
def faultWhileWaiting : List Action :=
  [.commit (shortRequest 1) none ⟨0,0⟩,.addRequest,.send,.recvStep (plainStep 0 [] []),.notify 1,.meter,.deliver,
    .recvStep (plainStep 0 [] []),.meter,.deliver]

theorem fault_while_waiting_leaks : ∃ x : Audit RadixTreeBlockHash,
    Run (Step plainExternal 16) (start ⟨.empty,RadixTreeBlockHash.new 4⟩) faultWhileWaiting x ∧ x.replica.stage = .idle ∧
      x.replica.inFlight = [] ∧ x.unexplained = 0 ∧ x.replica.context.lmetric = ⟨0,1,1,0⟩ := by
  obtain ⟨x,executed⟩ : ∃ x, (start ⟨.empty,RadixTreeBlockHash.new 4⟩).exec plainExternal 16 faultWhileWaiting = some x :=
    Option.isSome_iff_exists.mp (by decide)
  have facts : ((start ⟨.empty,RadixTreeBlockHash.new 4⟩).exec plainExternal 16 faultWhileWaiting).map
      (fun x => (x.replica.stage,x.replica.inFlight,x.unexplained,x.replica.context.lmetric)) = some (.idle,[],0,⟨0,1,1,0⟩) := by decide
  rw [executed] at facts
  simp only [Option.map_some,Option.some.injEq,Prod.mk.injEq] at facts
  exact ⟨x,run_exec .start executed,facts⟩

end Audit
end BlitzRouter
