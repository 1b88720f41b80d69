import BlitzRouter.Completion
import Mathlib.Tactic.Ring

namespace BlitzRouter
open Radix

-- What one output does to the account of its request, and what it adds to the
-- metric delta. These two functions are all the counters ever see of an output;
-- one in another state than PREFILL or DECODE does not get this far.
def Account.post (a : Account) (o : RequestStepOutput) : Account :=
  match o.state with
  | .prefill => {a with generatedTokenCnt := a.generatedTokenCnt+1,realHitNblks := some (o.hitTokenCnt/a.blockSize)}
  | _ => {a with generatedTokenCnt := a.generatedTokenCnt+1}

def Account.charge (a : Account) (o : RequestStepOutput) (d : LMetricDec) : LMetricDec :=
  match o.state,o.isFinished with
  | .prefill,true =>
    {d with waitingReqsDec := d.waitingReqsDec+1,bsDec := d.bsDec+1,allTokensInc := d.allTokensInc-a.request.inputLength}
  | .prefill,false =>
    {d with waitingReqsDec := d.waitingReqsDec+1,
            prefillTokensDec := d.prefillTokensDec+(((o.hitTokenCnt/a.blockSize : Nat) : Int)-a.predHitNblks)*a.blockSize,
            allTokensInc := d.allTokensInc+o.newTokenIds.length}
  | _,true =>
    {d with bsDec := d.bsDec+1,allTokensInc := d.allTokensInc-(a.request.inputLength+a.generatedTokenCnt)}
  | _,false => {d with allTokensInc := d.allTokensInc+o.newTokenIds.length}

namespace CompletionLoop

-- A request is in one place, under its own id.
structure Sound (s : CompletionLoop) : Prop where
  except : s.exceptContext.Sound
  apart : ∀ id entry, s.entries.lookup id = some entry → s.exceptContext.states.dlookup id = none
  keyed : ∀ id entry, s.entries.lookup id = some entry → entry.request.requestId = id
  keyedExcept : ∀ id entry, s.exceptContext.entries.lookup id = some entry → entry.request.requestId = id

theorem sound_new : Sound new := ⟨ExtContext.sound_new,by simp [new],by simp [new],by simp [new,ExtContext.new]⟩

-- Ids the loop has a row for; a record may outlive its entry.
def Known (s : CompletionLoop) (id : RequestId) : Prop :=
  (s.entries.lookup id).isSome = true ∨ (s.exceptContext.states.dlookup id).isSome = true

section Find
variable {s : CompletionLoop} {id other : RequestId} {entry new : Entry}

theorem find_entries (found : s.entries.lookup id = some entry) : s.find id = some entry := by simp [find,found]

theorem find_except (absent : s.entries.lookup id = none) : s.find id = s.exceptContext.entries.lookup id := by
  simp [find,absent]

theorem Sound.keyed_find (sound : s.Sound) (found : s.find id = some entry) : entry.request.requestId = id := by
  cases kept : s.entries.lookup id with
  | some held =>
    rw [find_entries kept] at found
    cases found
    exact sound.keyed id entry kept
  | none => exact sound.keyedExcept id entry (find_except kept ▸ found)

theorem store_entries (found : s.entries.lookup id = some entry) :
    s.store id new = {s with entries := s.entries.insert id new} := by simp [store,found]

theorem store_except (absent : s.entries.lookup id = none) :
    s.store id new = {s with exceptContext := {s.exceptContext with entries := s.exceptContext.entries.insert id new}} := by
  simp [store,absent]

theorem find_store : (s.store id new).find id = some new := by
  cases kept : s.entries.lookup id with
  | some held => simp [store_entries kept,find]
  | none => simp [store_except kept,find,kept]

theorem find_store_ne (differs : other ≠ id) : (s.store id new).find other = s.find other := by
  cases kept : s.entries.lookup id with
  | some held => simp [store_entries kept,find,AList.lookup_insert_ne differs]
  | none => simp [store_except kept,find,AList.lookup_insert_ne differs]

@[simp] theorem store_states : (s.store id new).exceptContext.states = s.exceptContext.states := by
  unfold store; split <;> rfl

@[simp] theorem store_phases : (s.store id new).requestPhases = s.requestPhases := by
  unfold store; split <;> rfl

@[simp] theorem store_leaving : (s.store id new).tempLeavingEntries = s.tempLeavingEntries := by
  unfold store; split <;> rfl

@[simp] theorem store_released : (s.store id new).released = s.released := by
  unfold store; split <;> rfl

@[simp] theorem store_cancel : (s.store id new).cancelReqIds = s.cancelReqIds := by
  unfold store; split <;> rfl

@[simp] theorem store_skipped : (s.store id new).skippedFaultEntries = s.skippedFaultEntries := by
  unfold store; split <;> rfl

-- Which requests are in which map does not change by a write to one of them.
theorem store_tracked (found : s.find id = some entry) (key : RequestId) :
    ((s.store id new).entries.lookup key).isSome = (s.entries.lookup key).isSome ∧
      ((s.store id new).exceptContext.entries.lookup key).isSome = (s.exceptContext.entries.lookup key).isSome := by
  cases kept : s.entries.lookup id with
  | some held =>
    rw [store_entries kept]
    by_cases same : key = id
    · subst same; simp [kept]
    · simp [AList.lookup_insert_ne same]
  | none =>
    rw [find_except kept] at found
    rw [store_except kept]
    by_cases same : key = id
    · subst same; simp [found]
    · simp [AList.lookup_insert_ne same]

theorem Sound.store (sound : s.Sound) (found : s.find id = some entry) (keyed : new.request.requestId = id) :
    (s.store id new).Sound := by
  cases kept : s.entries.lookup id with
  | some held =>
    rw [store_entries kept]
    refine ⟨sound.except,?_,?_,sound.keyedExcept⟩
    · intro key e inside
      by_cases same : key = id
      · subst same; exact sound.apart key held kept
      · exact sound.apart key e (by simpa [AList.lookup_insert_ne same] using inside)
    · intro key e inside
      by_cases same : key = id
      · subst same; simp only [AList.lookup_insert,Option.some.injEq] at inside; exact inside ▸ keyed
      · exact sound.keyed key e (by simpa [AList.lookup_insert_ne same] using inside)
  | none =>
    have held := find_except kept ▸ found
    rw [store_except kept]
    refine ⟨⟨sound.except.single,?_⟩,sound.apart,sound.keyed,?_⟩
    · intro key
      rw [← sound.except.held key]
      by_cases same : key = id
      · subst same; simp [held]
      · simp only [AList.lookup_insert_ne same]
    · intro key e inside
      by_cases same : key = id
      · subst same; simp only [AList.lookup_insert,Option.some.injEq] at inside; exact inside ▸ keyed
      · exact sound.keyedExcept key e (by simpa [AList.lookup_insert_ne same] using inside)

end Find

-- Everything one output can do in the fast path.
inductive Metered (s : CompletionLoop) (d : LMetricDec) (o : RequestStepOutput) : CompletionLoop → LMetricDec → Prop where
  | unknown : s.find o.requestId = none → Metered s d o s d
  | update (entry new : Entry) : s.find o.requestId = some entry → o.isFinished = false →
      new.account = entry.account.post o → (o.state = .prefill → o.hitTokenCnt%entry.account.blockSize = 0) →
      Metered s d o (s.store o.requestId new) (entry.account.charge o d)
  | finish (entry : Entry) : s.entries.lookup o.requestId = some entry → o.isFinished = true →
      Metered s d o s (entry.account.charge o d)
  | exit (entry : Entry) (st : ExtStInner) : s.entries.lookup o.requestId = none →
      s.exceptContext.entries.lookup o.requestId = some entry → s.exceptContext.states.dlookup o.requestId = some st →
      o.isFinished = true →
      Metered s d o {s with exceptContext := ⟨s.exceptContext.entries.erase o.requestId,
                              s.exceptContext.states.kreplace o.requestId st.onExit.1⟩,
                            tempLeavingEntries := s.tempLeavingEntries++[(o.requestId,entry)]} (entry.account.charge o d)

section Inversion
variable {ext : External} {s s' : CompletionLoop} {d d' : LMetricDec} {o : RequestStepOutput}

theorem Sound.finished_cases (sound : s.Sound) {owed : Entry → Int} {id : RequestId}
    (result : s.finished d id owed = .ok (s',d')) :
    (s.find id = none ∧ s' = s ∧ d' = d) ∨
    (∃ entry, s.entries.lookup id = some entry ∧ s' = s ∧ d' = {d with bsDec := d.bsDec+1,allTokensInc := d.allTokensInc-owed entry}) ∨
    ∃ entry st, s.entries.lookup id = none ∧ s.exceptContext.entries.lookup id = some entry ∧
      s.exceptContext.states.dlookup id = some st ∧
      s' = {s with exceptContext := ⟨s.exceptContext.entries.erase id,s.exceptContext.states.kreplace id st.onExit.1⟩,
                   tempLeavingEntries := s.tempLeavingEntries++[(id,entry)]} ∧
      d' = {d with bsDec := d.bsDec+1,allTokensInc := d.allTokensInc-owed entry} := by
  unfold finished at result
  cases kept : s.entries.lookup id with
  | some entry =>
    simp only [kept,Except.ok.injEq,Prod.mk.injEq] at result
    exact .inr (.inl ⟨entry,rfl,result.1.symm,result.2.symm⟩)
  | none =>
    simp only [kept] at result
    cases record : s.exceptContext.states.dlookup id with
    | none =>
      have stopped : s.exceptContext.put (.exit id) = .error (.exitNotCaptured id) := by simp [ExtContext.put,record]
      rw [stopped] at result
      cases result
    | some st =>
      rw [(sound.except.exit_spec record).1] at result
      cases held : s.exceptContext.entries.lookup id with
      | some entry =>
        simp only [held,bind,Except.bind,Except.ok.injEq,Prod.mk.injEq] at result
        exact .inr (.inr ⟨entry,st,rfl,rfl,rfl,result.1.symm,result.2.symm⟩)
      | none =>
        have gone : st.holds = false := by
          cases holds : st.holds with
          | false => rfl
          | true =>
            obtain ⟨entry,found⟩ := sound.except.entry_of record holds
            rw [held] at found
            cases found
        have same : s.exceptContext.states.kreplace id st.onExit.1 = s.exceptContext.states := by
          rw [ExtContext.onExit_gone gone]
          exact List.kreplace_self sound.except.single (List.mem_dlookup_iff sound.except.single |>.mp record)
        simp only [held,bind,Except.bind,Except.ok.injEq,Prod.mk.injEq,Ledger.erase_absent held,same] at result
        exact .inl ⟨by rw [find_except kept,held],result.1.symm,result.2.symm⟩

theorem Sound.metered_finished (sound : s.Sound) (ends : o.isFinished = true) {owed : Entry → Int} {base : LMetricDec}
    (result : s.finished base o.requestId owed = .ok (s',d'))
    (unknown : s.find o.requestId = none → base = d)
    (known : ∀ entry, s.find o.requestId = some entry →
      {base with bsDec := base.bsDec+1,allTokensInc := base.allTokensInc-owed entry} = entry.account.charge o d) :
    Metered s d o s' d' := by
  rcases sound.finished_cases result with ⟨absent,rfl,rfl⟩ | ⟨entry,kept,rfl,rfl⟩ | ⟨entry,st,absent,held,record,rfl,rfl⟩
  · rw [unknown absent]
    exact .unknown absent
  · rw [known entry (find_entries kept)]
    exact .finish entry kept ends
  · rw [known entry (by rw [find_except absent,held])]
    exact .exit entry st absent held record ends

theorem metered_update {entry new : Entry} (found : s.find o.requestId = some entry) (goes : o.isFinished = false)
    (account : new.account = entry.account.post o) (whole : o.state = .prefill → o.hitTokenCnt%entry.account.blockSize = 0)
    (charge : d' = entry.account.charge o d) : Metered s d o (s.store o.requestId new) d' :=
  charge ▸ .update entry new found goes account whole

-- The arm of the fast path that an output goes into.
theorem meterOutput_branch (ext : External) (s : CompletionLoop) (d : LMetricDec) (o : RequestStepOutput) :
    s.meterOutput ext d o = .error (.invalidState o.requestId) ∨
    (o.isFinished = true ∧ ∃ d₁ owed, s.meterOutput ext d o = s.finished d₁ o.requestId owed) ∨
    (o.isFinished = false ∧ ∃ d₁, s.meterOutput ext d o = s.prefillUpdate ext d₁ o) ∨
    o.isFinished = false ∧ s.meterOutput ext d o = s.decodeUpdate ext d o := by
  unfold meterOutput
  cases state : o.state with
  | other text => exact .inl rfl
  | prefill =>
    cases ends : o.isFinished with
    | true => exact .inr (.inl ⟨rfl,_,_,rfl⟩)
    | false => exact .inr (.inr (.inl ⟨rfl,_,rfl⟩))
  | decode =>
    cases ends : o.isFinished with
    | true => exact .inr (.inl ⟨rfl,_,_,rfl⟩)
    | false => exact .inr (.inr (.inr ⟨rfl,rfl⟩))

theorem Sound.metered (sound : s.Sound) (result : s.meterOutput ext d o = .ok (s',d')) : Metered s d o s' d' := by
  unfold meterOutput at result
  cases state : o.state with
  | other text => simp [state] at result
  | prefill =>
    simp only [state] at result
    cases ends : o.isFinished with
    | true =>
      rw [ends,if_pos rfl] at result
      refine sound.metered_finished ends result (fun absent => by simp [absent]) ?_
      intro entry found
      simp [found,Account.charge,state,ends,Entry.account]
    | false =>
      rw [ends,if_neg Bool.false_ne_true] at result
      unfold prefillUpdate at result
      cases found : s.find o.requestId with
      | none =>
        simp only [found,Option.isSome_none,Bool.false_eq_true,if_false,Except.ok.injEq,Prod.mk.injEq] at result
        obtain ⟨rfl,rfl⟩ := result
        simp only [add_sub_cancel_right]
        exact .unknown found
      | some entry =>
        simp only [found,Option.isSome_some,if_true] at result
        cases hits : entry.blockHashState.setRealTokenHitsGetDiff o.hitTokenCnt with
        | none => simp [hits] at result
        | some pair =>
          obtain ⟨hashState,inc⟩ := pair
          obtain ⟨rfl,rfl,whole,_⟩ := BlockHashState.setRealTokenHitsGetDiff_eq hits
          simp only [hits,Except.ok.injEq,Prod.mk.injEq] at result
          obtain ⟨rfl,rfl⟩ := result
          refine metered_update found ends ?_ (fun _ => whole) ?_
          · rw [account_appendState]
            simp [Account.post,state,Entry.account]
          · simp [Account.charge,state,ends,Entry.account]
  | decode =>
    simp only [state] at result
    cases ends : o.isFinished with
    | true =>
      rw [ends,if_pos rfl] at result
      refine sound.metered_finished ends result (fun _ => rfl) ?_
      intro entry _
      simp [Account.charge,state,ends,Entry.account]
    | false =>
      rw [ends,if_neg Bool.false_ne_true] at result
      unfold decodeUpdate at result
      cases found : s.find o.requestId with
      | none =>
        simp only [found,Except.ok.injEq,Prod.mk.injEq] at result
        obtain ⟨rfl,rfl⟩ := result
        exact .unknown found
      | some entry =>
        simp only [found,Except.ok.injEq,Prod.mk.injEq] at result
        obtain ⟨rfl,rfl⟩ := result
        refine metered_update found ends ?_ (fun first => by rw [state] at first; cases first) ?_
        · rw [account_appendState]
          simp [Account.post,state,Entry.account]
        · simp [Account.charge,state,ends]

end Inversion
-- The books: what open accounts are worth to a counter, by a weight on accounts.
-- A settled request is off the books although its entry is still in the loop.
def standing (w : Account → Int) (settled : List RequestId) (id : RequestId) (entry : Entry) : Int :=
  if id ∈ settled then 0 else w entry.account

def balance (w : Account → Int) (settled : List RequestId) (s : CompletionLoop) : Int :=
  Ledger.total (standing w settled) s.entries+Ledger.total (fun _ entry => w entry.account) s.exceptContext.entries

def gone (w : Account → Int) (s : CompletionLoop) : Int :=
  (s.tempLeavingEntries.map fun row => w row.2.account).sum+(s.released.map fun entry => w entry.account).sum

def settle (o : RequestStepOutput) (settled : List RequestId) : List RequestId :=
  if o.isFinished then o.requestId::settled else settled

-- How far one output leaves a counter and the books apart.
def drift (w : Account → Int) (c : LMetricDec → Int) (o : RequestStepOutput) (a : Account) : Int :=
  (if o.isFinished then 0 else w (a.post o))+c (a.charge o LMetricDec.new)-w a

-- Outputs of unknown requests move neither.
def driftOf (w : Account → Int) (c : LMetricDec → Int) (s : CompletionLoop) (o : RequestStepOutput) : Int :=
  match s.find o.requestId with
  | none => 0
  | some entry => drift w c o entry.account

-- Counters are linear in the metric delta.
def Linear (c : LMetricDec → Int) : Prop :=
  ∀ (a : Account) (o : RequestStepOutput) (d : LMetricDec), c (a.charge o d) = c d+c (a.charge o LMetricDec.new)

section Books
variable {s s' : CompletionLoop} {d d' : LMetricDec} {o : RequestStepOutput} {w : Account → Int} {c : LMetricDec → Int}
  {settled : List RequestId} {id : RequestId} {entry new : Entry} {t : Table RequestId Entry}

theorem total_settle (found : t.lookup id = some entry) (due : id ∉ settled) :
    Ledger.total (standing w (id::settled)) t+w entry.account = Ledger.total (standing w settled) t := by
  rw [Ledger.total_erase (standing w (id::settled)) found,Ledger.total_erase (standing w settled) found]
  have rest : Ledger.total (standing w (id::settled)) (t.erase id) = Ledger.total (standing w settled) (t.erase id) := by
    apply Ledger.total_congr
    intro other e inside
    have differs : other ≠ id := by rintro rfl; simp at inside
    simp [standing,differs]
  rw [rest]
  simp only [standing,List.mem_cons,true_or,if_true,if_neg due]
  ring

theorem total_settle_absent (absent : t.lookup id = none) :
    Ledger.total (standing w (id::settled)) t = Ledger.total (standing w settled) t := by
  apply Ledger.total_congr
  intro other e inside
  have differs : other ≠ id := by rintro rfl; rw [absent] at inside; cases inside
  simp [standing,differs]

theorem balance_store (new : Entry) (found : s.find id = some entry) (due : id ∉ settled) :
    balance w settled (s.store id new)+w entry.account = balance w settled s+w new.account := by
  cases kept : s.entries.lookup id with
  | some held =>
    rw [find_entries kept] at found
    cases found
    have ends := Ledger.total_insert_over (standing w settled) new kept
    simp only [standing,if_neg due] at ends
    rw [store_entries kept]
    simp only [balance]
    change w entry.account+Ledger.total (standing w settled) (s.entries.insert id new) =
      w new.account+Ledger.total (standing w settled) s.entries at ends
    omega
  | none =>
    rw [find_except kept] at found
    have ends := Ledger.total_insert_over (fun _ e => w (Entry.account e)) new found
    rw [store_except kept]
    simp only [balance]
    omega

theorem balance_zero (settled : List RequestId) (s : CompletionLoop) : balance (fun _ => 0) settled s = 0 := by
  have inside : Ledger.total (standing (fun _ => 0) settled) s.entries = 0 :=
    Ledger.total_zero fun id entry => by simp [standing]
  have except : Ledger.total (fun (_ : RequestId) (_ : Entry) => (0 : Int)) s.exceptContext.entries = 0 :=
    Ledger.total_zero fun _ _ => rfl
  simp only [balance,inside,except,add_zero]

theorem balance_settle_absent (absent : s.entries.lookup id = none) :
    balance w (id::settled) s = balance w settled s := by
  simp only [balance,total_settle_absent absent]

-- One output: the books and the counter move together, up to the drift.
theorem Metered.balance (step : Metered s d o s' d') (linear : Linear c) (due : o.requestId ∉ settled) :
    balance w (settle o settled) s'+c d' = CompletionLoop.balance w settled s+c d+driftOf w c s o := by
  cases step with
  | unknown absent =>
    have outside : s.entries.lookup o.requestId = none := by
      cases kept : s.entries.lookup o.requestId with
      | none => rfl
      | some held => rw [find_entries kept] at absent; cases absent
    simp only [driftOf,absent,settle,add_zero]
    split
    · rw [balance_settle_absent outside]
    · rfl
  | update entry new found goes account =>
    have moved := balance_store (w := w) new found due
    simp only [driftOf,found,drift,settle,goes,Bool.false_eq_true,if_false]
    rw [linear,← account]
    omega
  | finish entry kept ends =>
    have paid := total_settle (w := w) kept due
    simp only [driftOf,find_entries kept,drift,settle,ends,if_true]
    rw [linear]
    simp only [CompletionLoop.balance]
    omega
  | exit entry st absent held record ends =>
    have paid := Ledger.total_erase (fun _ e => w (Entry.account e)) held
    have found : s.find o.requestId = some entry := by rw [find_except absent,held]
    simp only [driftOf,found,drift,settle,ends,if_true]
    rw [linear]
    simp only [CompletionLoop.balance,total_settle_absent absent]
    omega

theorem gone_store : gone w (s.store id new) = gone w s := by simp [gone]

-- A weight that no output changes is conserved: what leaves the tables is gone.
theorem Metered.conserved (step : Metered s d o s' d') (still : ∀ a, w (a.post o) = w a) :
    CompletionLoop.balance w [] s'+gone w s' = CompletionLoop.balance w [] s+gone w s := by
  cases step with
  | unknown absent => rfl
  | update entry new found goes account =>
    have moved := balance_store (w := w) new found List.not_mem_nil
    rw [account,still] at moved
    rw [gone_store]
    omega
  | finish entry kept ends => rfl
  | exit entry st absent held record ends =>
    have paid := Ledger.total_erase (fun _ e => w (Entry.account e)) held
    simp only [CompletionLoop.balance,gone,List.map_append,List.map_cons,List.map_nil,List.sum_append,List.sum_cons,List.sum_nil]
    omega

theorem Metered.find_other (step : Metered s d o s' d') {other : RequestId} (differs : other ≠ o.requestId) :
    s'.find other = s.find other := by
  cases step with
  | unknown absent => rfl
  | update entry new found goes account => exact find_store_ne differs
  | finish entry kept ends => rfl
  | exit entry st absent held record ends => simp only [find,AList.lookup_erase_ne differs]

theorem post_request (a : Account) (o : RequestStepOutput) : (a.post o).request = a.request := by
  unfold Account.post; split <;> rfl

theorem Metered.sound (step : Metered s d o s' d') (sound : s.Sound) : s'.Sound := by
  cases step with
  | unknown absent => exact sound
  | update entry new found goes account =>
    refine sound.store found ?_
    have same : new.request = entry.request := by
      rw [← account_request,account,post_request,account_request]
    rw [same]
    exact sound.keyed_find found
  | finish entry kept ends => exact sound
  | exit entry st absent held record ends =>
    refine ⟨(sound.except.exit_spec record).2,?_,sound.keyed,?_⟩
    · intro key e inside
      have differs : key ≠ o.requestId := by rintro rfl; rw [absent] at inside; cases inside
      simpa [Ledger.dlookup_kreplace_ne differs] using sound.apart key e inside
    · intro key e inside
      by_cases same : key = o.requestId
      · subst same; simp at inside
      · exact sound.keyedExcept key e (by simpa [AList.lookup_erase_ne same] using inside)

-- What the fast path leaves alone.
structure Kept (s s' : CompletionLoop) : Prop where
  phases : s'.requestPhases = s.requestPhases
  cancel : s'.cancelReqIds = s.cancelReqIds
  skipped : s'.skippedFaultEntries = s.skippedFaultEntries
  released : s'.released = s.released
  tracked : ∀ id, (s'.entries.lookup id).isSome = (s.entries.lookup id).isSome
  recorded : ∀ id, (s'.exceptContext.states.dlookup id).isSome = (s.exceptContext.states.dlookup id).isSome

theorem Kept.refl (s : CompletionLoop) : Kept s s := ⟨rfl,rfl,rfl,rfl,fun _ => rfl,fun _ => rfl⟩

theorem Kept.trans {s₁ s₂ s₃ : CompletionLoop} (one : Kept s₁ s₂) (two : Kept s₂ s₃) : Kept s₁ s₃ :=
  ⟨two.phases.trans one.phases,two.cancel.trans one.cancel,two.skipped.trans one.skipped,two.released.trans one.released,
    fun id => (two.tracked id).trans (one.tracked id),fun id => (two.recorded id).trans (one.recorded id)⟩

theorem Kept.known {s s' : CompletionLoop} (kept : Kept s s') (id : RequestId) : s'.Known id ↔ s.Known id := by
  unfold Known
  rw [kept.tracked id,kept.recorded id]

theorem Metered.kept (step : Metered s d o s' d') : Kept s s' := by
  cases step with
  | unknown absent => exact .refl s
  | update entry new found goes account =>
    exact ⟨store_phases,store_cancel,store_skipped,store_released,fun id => (store_tracked found id).1,fun id => by rw [store_states]⟩
  | finish entry kept ends => exact .refl s
  | exit entry st absent held record ends =>
    refine ⟨rfl,rfl,rfl,rfl,fun _ => rfl,?_⟩
    intro id
    by_cases same : id = o.requestId
    · subst same
      simp only [Ledger.dlookup_kreplace (k := o.requestId) (v := st.onExit.1) (by rw [record]; rfl),record,Option.isSome_some]
    · simp only [Ledger.dlookup_kreplace_ne same]

end Books

def settleAll (outputs : List RequestStepOutput) (settled : List RequestId) : List RequestId :=
  outputs.foldl (fun settled o => settle o settled) settled

theorem mem_settleAll {outputs : List RequestStepOutput} {settled : List RequestId} {id : RequestId} :
    id ∈ settleAll outputs settled ↔ id ∈ settled ∨ ∃ o ∈ outputs, o.isFinished = true ∧ o.requestId = id := by
  induction outputs generalizing settled with
  | nil => simp [settleAll]
  | cons o rest ih =>
    have next : settleAll (o::rest) settled = settleAll rest (settle o settled) := rfl
    rw [next,ih]
    unfold settle
    split
    · rename_i ends
      simp only [List.mem_cons,exists_eq_or_imp,ends,true_and]
      grind
    · rename_i goes
      simp only [List.mem_cons,exists_eq_or_imp,goes,false_and,false_or,Bool.false_eq_true]

-- All outputs of a step, each naming another request.
structure Metering (outputs : List RequestStepOutput) (s : CompletionLoop) (d : LMetricDec) (s' : CompletionLoop)
    (d' : LMetricDec) : Prop where
  balance : ∀ (w : Account → Int) (c : LMetricDec → Int) (settled : List RequestId), Linear c →
    (∀ o ∈ outputs, o.requestId ∉ settled) →
    balance w (settleAll outputs settled) s'+c d' = CompletionLoop.balance w settled s+c d+(outputs.map (driftOf w c s)).sum
  conserved : ∀ w : Account → Int, (∀ a o, w (a.post o) = w a) →
    CompletionLoop.balance w [] s'+gone w s' = CompletionLoop.balance w [] s+gone w s
  sound : s'.Sound
  kept : Kept s s'
  others : ∀ id, (∀ o ∈ outputs, o.requestId ≠ id) → s'.find id = s.find id
  posted : ∀ o ∈ outputs, o.isFinished = false → ∀ entry, s.find o.requestId = some entry →
    ∃ next, s'.find o.requestId = some next ∧ next.account = entry.account.post o

theorem Metered.posted {s s' : CompletionLoop} {d d' : LMetricDec} {o : RequestStepOutput} {entry : Entry}
    (step : Metered s d o s' d') (goes : o.isFinished = false) (found : s.find o.requestId = some entry) :
    ∃ next, s'.find o.requestId = some next ∧ next.account = entry.account.post o := by
  cases step with
  | unknown absent => rw [absent] at found; cases found
  | update held new found' _ account =>
    rw [found'] at found
    cases found
    exact ⟨new,find_store,account⟩
  | finish held kept ends => rw [goes] at ends; cases ends
  | exit held st absent kept record ends => rw [goes] at ends; cases ends

-- What each output keeps, whoever it names, all of them keep.
theorem meterOutputs_steps {P : CompletionLoop → Prop} {ext : External} {s s' : CompletionLoop} {d d' : LMetricDec}
    {outputs : List RequestStepOutput} (base : P s)
    (keep : ∀ s d o s' d', o ∈ outputs → P s → s.meterOutput ext d o = .ok (s',d') → P s')
    (result : s.meterOutputs ext d outputs = .ok (s',d')) : P s' := by
  induction outputs generalizing s d with
  | nil => cases result; exact base
  | cons o rest ih =>
    cases one : s.meterOutput ext d o with
    | error panic => rw [meterOutputs,one] at result; cases result
    | ok pair =>
      obtain ⟨s₁,d₁⟩ := pair
      rw [meterOutputs,one] at result
      exact ih (keep s d o s₁ d₁ List.mem_cons_self base one)
        (fun s d p s' d' member => keep s d p s' d' (List.mem_cons_of_mem o member)) result

theorem Sound.meterOutputs_induct {P : CompletionLoop → Prop} {ext : External} {s s' : CompletionLoop} {d d' : LMetricDec}
    {outputs : List RequestStepOutput} (sound : s.Sound) (base : P s)
    (keep : ∀ s d o s' d', o ∈ outputs → s.Sound → P s → Metered s d o s' d' → P s')
    (result : s.meterOutputs ext d outputs = .ok (s',d')) : s'.Sound ∧ P s' := by
  refine meterOutputs_steps (P := fun s => s.Sound ∧ P s) ⟨sound,base⟩ ?_ result
  intro s d o s' d' member before one
  have step := before.1.metered one
  exact ⟨step.sound before.1,keep s d o s' d' member before.1 before.2 step⟩

-- Induction on the outputs. The later ones find their requests as they were at
-- the start, because no earlier output named them.
theorem Sound.metering {ext : External} {s s' : CompletionLoop} {d d' : LMetricDec} {outputs : List RequestStepOutput}
    (sound : s.Sound) (distinct : (outputs.map RequestStepOutput.requestId).Nodup)
    (result : s.meterOutputs ext d outputs = .ok (s',d')) : Metering outputs s d s' d' := by
  induction outputs generalizing s d with
  | nil =>
    simp only [meterOutputs,Except.ok.injEq,Prod.mk.injEq] at result
    obtain ⟨rfl,rfl⟩ := result
    exact ⟨fun w c settled _ _ => by simp [settleAll],fun _ _ => rfl,sound,.refl s,fun _ _ => rfl,by simp⟩
  | cons o rest ih =>
    cases one : s.meterOutput ext d o with
    | error panic => rw [meterOutputs,one] at result; cases result
    | ok pair =>
      obtain ⟨s₁,d₁⟩ := pair
      have first := sound.metered one
      rw [meterOutputs,one] at result
      obtain ⟨fresh,distinct'⟩ := List.nodup_cons.mp distinct
      have later := ih (first.sound sound) distinct' result
      have apart : ∀ p ∈ rest, p.requestId ≠ o.requestId := fun p member same =>
        fresh (same ▸ List.mem_map_of_mem member)
      refine ⟨?_,?_,later.sound,first.kept.trans later.kept,?_,?_⟩
      · intro w c settled linear due
        have same : rest.map (driftOf w c s₁) = rest.map (driftOf w c s) := by
          apply List.map_congr_left
          intro p member
          unfold driftOf
          rw [first.find_other (apart p member)]
        have due' : ∀ p ∈ rest, p.requestId ∉ settle o settled := by
          intro p member
          unfold settle
          split
          · exact List.not_mem_cons_of_ne_of_not_mem (apart p member) (due p (List.mem_cons_of_mem o member))
          · exact due p (List.mem_cons_of_mem o member)
        have head := first.balance (w := w) linear (due o List.mem_cons_self)
        have tail := later.balance w c (settle o settled) linear due'
        have next : settleAll (o::rest) settled = settleAll rest (settle o settled) := rfl
        rw [next,List.map_cons,List.sum_cons]
        rw [same] at tail
        omega
      · intro w still
        exact (later.conserved w still).trans (first.conserved fun a => still a o)
      · intro id differs
        rw [later.others id fun p member => differs p (List.mem_cons_of_mem o member)]
        exact first.find_other (differs o List.mem_cons_self).symm
      · intro p member goes entry found
        rcases List.mem_cons.mp member with rfl | behind
        · rw [later.others p.requestId apart]
          exact first.posted goes found
        · exact later.posted p behind goes entry ((first.find_other (apart p behind)).trans found)

end CompletionLoop
end BlitzRouter
