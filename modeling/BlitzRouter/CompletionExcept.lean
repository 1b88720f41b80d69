import BlitzRouter.CompletionDeliver

namespace BlitzRouter.CompletionLoop

section Enter
variable {s s' : CompletionLoop} {id key : RequestId} {entry new : Entry} {st : ExtStInner} {errors ids : List RequestId}

-- The phase of the named request is Excepted from now on, if it has one.
structure Marked (s : CompletionLoop) (id : RequestId) (phases : Table RequestId RequestPhase) : Prop where
  others : ∀ key, key ≠ id → phases.lookup key = s.requestPhases.lookup key
  own : phases.lookup id = (s.requestPhases.lookup id).map fun _ => .excepted

-- A request goes from the loop to the exception context; its books go with it.
inductive Moved (s : CompletionLoop) (id : RequestId) : CompletionLoop → Prop where
  | mk (entry new : Entry) (st : ExtStInner) (phases : Table RequestId RequestPhase) (skipped : List RequestId) :
      s.entries.lookup id = some entry → new.account = entry.account → st.holds = true → Marked s id phases →
      Moved s id {s with entries := s.entries.erase id,requestPhases := phases,skippedFaultEntries := skipped,
                         exceptContext := ⟨s.exceptContext.entries.insert id new,s.exceptContext.states++[⟨id,st⟩]⟩}

@[simp] theorem markExcepted_entries : (s.markExcepted id).entries = s.entries := by unfold markExcepted; split <;> rfl
@[simp] theorem markExcepted_except : (s.markExcepted id).exceptContext = s.exceptContext := by unfold markExcepted; split <;> rfl

theorem markExcepted_eq (s : CompletionLoop) (id : RequestId) :
    ∃ phases, s.markExcepted id = {s with requestPhases := phases} ∧ Marked s id phases := by
  unfold markExcepted
  cases found : s.requestPhases.lookup id with
  | some phase =>
    simp only [Option.isSome_some,if_true]
    exact ⟨_,rfl,fun key differs => AList.lookup_insert_ne differs,by rw [found]; simp⟩
  | none =>
    simp only [Option.isSome_none,Bool.false_eq_true,if_false]
    exact ⟨s.requestPhases,rfl,fun _ _ => rfl,by rw [found]; rfl⟩

theorem abortEntry_cases (result : s.abortEntry id = .ok s') : ∃ entry phases, s.entries.lookup id = some entry ∧ Marked s id phases ∧
    s' = {s with entries := s.entries.erase id,requestPhases := phases,skippedFaultEntries := s.skippedFaultEntries++[id],
                 exceptContext := ⟨s.exceptContext.entries.insert id entry,s.exceptContext.states++[⟨id,.waitingTerm false⟩]⟩} := by
  unfold abortEntry at result
  cases found : s.entries.lookup id with
  | none => simp [found] at result
  | some entry =>
    simp only [found] at result
    obtain ⟨phases,marked,mark⟩ := markExcepted_eq
      {s with skippedFaultEntries := s.skippedFaultEntries++[id],entries := s.entries.erase id} id
    rw [marked] at result
    cases result
    exact ⟨entry,phases,rfl,⟨mark.others,mark.own⟩,rfl⟩

theorem faultEntry_cases (result : s.faultEntry id = .ok s') : s' = s ∨
    ∃ entry phases failed, s.entries.lookup id = some entry ∧ Marked s id phases ∧
      failed = {entry with responseTx := (entry.responseTx.send (.err (.generationError "Engine refused to serve!"))).1} ∧
      s' = {s with entries := s.entries.erase id,requestPhases := phases,
                   exceptContext := ⟨s.exceptContext.entries.insert id failed,s.exceptContext.states++[⟨id,.faulted true⟩]⟩} := by
  unfold faultEntry at result
  split at result
  · cases result; exact .inl rfl
  · cases found : s.entries.lookup id with
    | none => simp [found] at result
    | some entry =>
      simp only [found] at result
      obtain ⟨phases,marked,mark⟩ := markExcepted_eq {s with entries := s.entries.erase id} id
      rw [marked] at result
      cases result
      exact .inr ⟨entry,phases,_,rfl,⟨mark.others,mark.own⟩,rfl,rfl⟩

theorem abortEntry_moved (result : s.abortEntry id = .ok s') :
    Moved s id s' ∧ s'.skippedFaultEntries = s.skippedFaultEntries++[id] := by
  obtain ⟨entry,phases,found,mark,rfl⟩ := abortEntry_cases result
  exact ⟨.mk entry entry (.waitingTerm false) phases _ found rfl rfl mark,rfl⟩

theorem faultEntry_moved (result : s.faultEntry id = .ok s') : s' = s ∨ Moved s id s' ∧ s'.skippedFaultEntries = s.skippedFaultEntries := by
  rcases faultEntry_cases result with same | ⟨entry,phases,failed,found,mark,rfl,rfl⟩
  · exact .inl same
  · exact .inr ⟨.mk entry _ (.faulted true) phases _ found rfl rfl mark,rfl⟩

-- The state after one or many such moves. Nothing is released on the way.
structure Moving (s s' : CompletionLoop) : Prop where
  balance : ∀ w : Account → Int, balance w [] s' = CompletionLoop.balance w [] s
  sound : s.Sound → s'.Sound
  leaving : s'.tempLeavingEntries = s.tempLeavingEntries
  released : s'.released = s.released
  cancel : s'.cancelReqIds = s.cancelReqIds
  known : ∀ id, s'.Known id → s.Known id
  tracked : ∀ id, (s'.find id).isSome = true → (s.find id).isSome = true

theorem Moving.refl (s : CompletionLoop) : Moving s s := ⟨fun _ => rfl,id,rfl,rfl,rfl,fun _ => id,fun _ => id⟩

theorem Moving.trans {s₁ s₂ s₃ : CompletionLoop} (one : Moving s₁ s₂) (two : Moving s₂ s₃) : Moving s₁ s₃ :=
  ⟨fun w => (two.balance w).trans (one.balance w),two.sound ∘ one.sound,two.leaving.trans one.leaving,
    two.released.trans one.released,two.cancel.trans one.cancel,fun id => one.known id ∘ two.known id,fun id => one.tracked id ∘ two.tracked id⟩

theorem Moved.moving (step : Moved s id s') (sound : s.Sound) : Moving s s' := by
  cases step with
  | mk entry new st phases skipped found account holds =>
    have fresh := sound.apart id entry found
    have absent := sound.except.absent fresh
    refine ⟨?_,fun _ => ⟨sound.except.enter fresh holds,?_,?_,?_⟩,rfl,rfl,rfl,?_,?_⟩
    · intro w
      have taken := Ledger.total_erase (standing w []) found
      have given := Ledger.total_insert_fresh (fun _ e => w (Entry.account e)) new absent
      simp only [standing,List.not_mem_nil,if_false] at taken
      simp only [CompletionLoop.balance,given,account]
      change Ledger.total (standing w []) s.entries = w entry.account+Ledger.total (standing w []) (s.entries.erase id) at taken
      omega
    · intro key e inside
      have differs : key ≠ id := by rintro rfl; simp at inside
      simp only [Ledger.dlookup_concat_ne differs]
      exact sound.apart key e (by simpa [AList.lookup_erase_ne differs] using inside)
    · intro key e inside
      have differs : key ≠ id := by rintro rfl; simp at inside
      exact sound.keyed key e (by simpa [AList.lookup_erase_ne differs] using inside)
    · intro key e inside
      by_cases same : key = id
      · subst same
        simp only [AList.lookup_insert,Option.some.injEq] at inside
        subst inside
        exact (congrArg (fun a : Account => a.request.requestId) account).trans (sound.keyed _ entry found)
      · exact sound.keyedExcept key e (by simpa [AList.lookup_insert_ne same] using inside)
    · intro key known
      by_cases same : key = id
      · subst same
        exact .inl (by rw [found]; rfl)
      · simpa [Known,AList.lookup_erase_ne same,Ledger.dlookup_concat_ne same] using known
    · intro key inside
      by_cases same : key = id
      · subst same
        rw [find_entries found]
        rfl
      · simpa [find,AList.lookup_erase_ne same,AList.lookup_insert_ne same] using inside

-- What every such move keeps, all of them keep.
theorem abortEntries_steps {P : CompletionLoop → Prop} (base : P s) (keep : ∀ s id s', id ∈ ids → P s → s.abortEntry id = .ok s' → P s')
    (result : s.abortEntries ids = .ok s') : P s' := by
  induction ids generalizing s with
  | nil => cases result; exact base
  | cons id rest ih =>
    cases one : s.abortEntry id with
    | error panic => rw [abortEntries,one] at result; cases result
    | ok s₁ =>
      rw [abortEntries,one] at result
      exact ih (keep s id s₁ List.mem_cons_self base one) (fun s key s' member => keep s key s' (List.mem_cons_of_mem id member)) result

theorem abortEntries_induct {P : CompletionLoop → Prop} (base : P s) (keep : ∀ s id s', P s → Moved s id s' → P s')
    (result : s.abortEntries ids = .ok s') : P s' :=
  abortEntries_steps base (fun s id s' _ before one => keep s id s' before (abortEntry_moved one).1) result

theorem onFrontendAbort_induct {P : CompletionLoop → Prop} (base : P {s with cancelReqIds := []})
    (keep : ∀ s id s', P s → Moved s id s' → P s') (result : s.onFrontendAbort = .ok s') : P s' :=
  abortEntries_induct base keep result

theorem onBackendFault_steps {P : CompletionLoop → Prop} (base : P s)
    (keep : ∀ s id s', id ∈ errors → P s → s.faultEntry id = .ok s' → P s') (result : s.onBackendFault errors = .ok s') : P s' := by
  induction errors generalizing s with
  | nil => cases result; exact base
  | cons id rest ih =>
    cases one : s.faultEntry id with
    | error panic => rw [onBackendFault,one] at result; cases result
    | ok s₁ =>
      rw [onBackendFault,one] at result
      exact ih (keep s id s₁ List.mem_cons_self base one) (fun s key s' member => keep s key s' (List.mem_cons_of_mem id member)) result

theorem onBackendFault_induct {P : CompletionLoop → Prop} (base : P s) (keep : ∀ s id s', P s → Moved s id s' → P s')
    (result : s.onBackendFault errors = .ok s') : P s' := by
  refine onBackendFault_steps base ?_ result
  intro s id s' _ before one
  rcases faultEntry_moved one with rfl | ⟨moved,_⟩
  · exact before
  · exact keep s id s' before moved

theorem Moving.step {s s₁ s₂ : CompletionLoop} {id : RequestId} (sound : s.Sound) (moving : Moving s s₁)
    (moved : Moved s₁ id s₂) : Moving s s₂ :=
  moving.trans (moved.moving (moving.sound sound))

theorem Sound.abortEntries_moving (sound : s.Sound) (result : s.abortEntries ids = .ok s') : Moving s s' :=
  abortEntries_induct (.refl s) (fun _ _ _ moving moved => moving.step sound moved) result

theorem Sound.onFrontendAbort_moving (sound : Sound {s with cancelReqIds := []}) (result : s.onFrontendAbort = .ok s') :
    Moving {s with cancelReqIds := []} s' :=
  sound.abortEntries_moving result

theorem Sound.onBackendFault_moving (sound : s.Sound) (result : s.onBackendFault errors = .ok s') : Moving s s' :=
  onBackendFault_induct (.refl s) (fun _ _ _ moving moved => moving.step sound moved) result

end Enter

section Leave
variable {s s' : CompletionLoop} {ids : List RequestId} {left : List Entry}

theorem leaves_bsDec {d : LeaveDec} (left : List Entry) : (left.foldl LeaveDec.leave d).bsDec = d.bsDec+left.length := by
  induction left generalizing d with
  | nil => rfl
  | cons entry rest ih =>
    rw [List.foldl_cons,ih,List.length_cons]
    simp only [LeaveDec.leave]
    omega

theorem leaves_allTokensInc {d : LeaveDec} (left : List Entry) :
    (left.foldl LeaveDec.leave d).allTokensInc =
      d.allTokensInc-(left.map fun entry => (entry.request.inputLength+entry.generatedTokenCnt : Int)).sum := by
  induction left generalizing d with
  | nil => simp
  | cons entry rest ih =>
    rw [List.foldl_cons,ih,List.map_cons,List.sum_cons]
    simp only [LeaveDec.leave]
    omega

-- Entries that an acknowledgement or the end of the cycle hands back.
structure Leaving (s : CompletionLoop) (left : List Entry) (s' : CompletionLoop) : Prop where
  balance : ∀ w : Account → Int,
    balance w [] s'+(left.map fun entry => w entry.account).sum = CompletionLoop.balance w [] s
  released : s'.released = s.released++left
  sound : s'.Sound
  entries : s'.entries = s.entries
  leaving : s'.tempLeavingEntries = s.tempLeavingEntries
  cancel : s'.cancelReqIds = s.cancelReqIds
  known : ∀ id, s'.Known id → s.Known id
  tracked : ∀ id, (s'.find id).isSome = true → (s.find id).isSome = true

theorem Leaving.trans {s₁ s₂ s₃ : CompletionLoop} {one two : List Entry} (first : Leaving s₁ one s₂)
    (second : Leaving s₂ two s₃) : Leaving s₁ (one++two) s₃ := by
  refine ⟨?_,?_,second.sound,second.entries.trans first.entries,second.leaving.trans first.leaving,
    second.cancel.trans first.cancel,fun id => first.known id ∘ second.known id,fun id => first.tracked id ∘ second.tracked id⟩
  · intro w
    have before := first.balance w
    have after := second.balance w
    rw [List.map_append,List.sum_append]
    omega
  · rw [second.released,first.released,List.append_assoc]

theorem Sound.erase_sound {id : RequestId} (sound : s.Sound) {states : ExtStates} {phases : Table RequestId RequestPhase}
    {released : List Entry} (except : ExtContext.Sound ⟨s.exceptContext.entries.erase id,states⟩)
    (records : ∀ key, s.exceptContext.states.dlookup key = none → states.dlookup key = none) :
    Sound {s with requestPhases := phases,exceptContext := ⟨s.exceptContext.entries.erase id,states⟩,released := released} := by
  refine ⟨except,fun key e inside => records key (sound.apart key e inside),sound.keyed,?_⟩
  intro key e inside
  have differs : key ≠ id := by rintro rfl; simp at inside
  exact sound.keyedExcept key e (by simpa [AList.lookup_erase_ne differs] using inside)

theorem known_of_records {id : RequestId} (entries : s'.entries = s.entries)
    (records : s.exceptContext.states.dlookup id = none → s'.exceptContext.states.dlookup id = none)
    (known : s'.Known id) : s.Known id := by
  rcases known with inside | inside
  · exact .inl (entries ▸ inside)
  · refine .inr ?_
    cases record : s.exceptContext.states.dlookup id with
    | some st => rfl
    | none => rw [records record] at inside; cases inside

theorem tracked_of_erase {id : RequestId} (entries : s'.entries = s.entries)
    (except : s'.exceptContext.entries = s.exceptContext.entries.erase id) (key : RequestId)
    (inside : (s'.find key).isSome = true) : (s.find key).isSome = true := by
  unfold find at inside ⊢
  rw [entries,except] at inside
  by_cases same : key = id
  · subst same
    rw [AList.lookup_erase,Option.or_none] at inside
    rw [Option.isSome_or,inside,Bool.true_or]
  · rwa [AList.lookup_erase_ne same] at inside

-- One acknowledgement: the record goes, and the entry with it if it is still there.
inductive Termed (s : CompletionLoop) (id : RequestId) : CompletionLoop → List Entry → Prop where
  | mk (st : ExtStInner) : s.exceptContext.states.dlookup id = some st →
      Termed s id {s with requestPhases := s.requestPhases.erase id,
                          exceptContext := ⟨s.exceptContext.entries.erase id,s.exceptContext.states.kerase id⟩,
                          released := s.released++(s.exceptContext.entries.lookup id).toList}
        (s.exceptContext.entries.lookup id).toList

theorem Sound.term_cases {id : RequestId} {rest : List RequestId} (sound : s.Sound)
    (result : s.terms (id::rest) = .ok (s',left)) :
    ∃ s₁ returned left₁, Termed s id s₁ returned ∧ s₁.terms rest = .ok (s',left₁) ∧ left = returned++left₁ := by
  rw [terms] at result
  cases record : s.exceptContext.states.dlookup id with
  | none =>
    have stopped : s.exceptContext.put (.term id) = .error (.termNotCaptured id) := by simp [ExtContext.put,record]
    simp only [stopped] at result
    cases result
  | some st =>
    obtain ⟨answer,_⟩ := sound.except.term_spec record
    have step := Termed.mk (s := s) st record
    simp only [answer] at result
    cases held : s.exceptContext.entries.lookup id with
    | none =>
      simp only [held] at result
      simp only [held,Option.toList_none,List.append_nil] at step
      exact ⟨_,[],left,step,result,rfl⟩
    | some entry =>
      simp only [held] at result
      simp only [held,Option.toList_some] at step
      cases later : terms {s with requestPhases := s.requestPhases.erase id,released := s.released++[entry],
                                  exceptContext := ⟨s.exceptContext.entries.erase id,s.exceptContext.states.kerase id⟩} rest with
      | error panic => simp only [bind,Except.bind,later] at result; cases result
      | ok pair =>
        obtain ⟨s₂,left₁⟩ := pair
        simp only [bind,Except.bind,later,Except.ok.injEq,Prod.mk.injEq] at result
        obtain ⟨rfl,rfl⟩ := result
        exact ⟨_,[entry],left₁,step,later,rfl⟩

theorem Termed.leaving {id : RequestId} (step : Termed s id s' left) (sound : s.Sound) : Leaving s left s' := by
  cases step with
  | mk st record =>
    obtain ⟨_,except⟩ := sound.except.term_spec record
    have records : ∀ key, s.exceptContext.states.dlookup key = none →
        (s.exceptContext.states.kerase id).dlookup key = none := by
      intro key absent
      have differs : key ≠ id := by rintro rfl; rw [record] at absent; cases absent
      rwa [List.dlookup_kerase_ne differs]
    refine ⟨?_,rfl,sound.erase_sound except records,rfl,rfl,rfl,fun key => known_of_records rfl (records key),
      tracked_of_erase rfl rfl⟩
    intro w
    cases held : s.exceptContext.entries.lookup id with
    | none => simp only [CompletionLoop.balance,Ledger.erase_absent held,Option.toList_none,List.map_nil,List.sum_nil,add_zero]
    | some entry =>
      have paid := Ledger.total_erase (fun _ e => w (Entry.account e)) held
      simp only [CompletionLoop.balance,Option.toList_some,List.map_cons,List.map_nil,List.sum_cons,List.sum_nil]
      omega

theorem Sound.terms_leaving (sound : s.Sound) (result : s.terms ids = .ok (s',left)) : Leaving s left s' := by
  induction ids generalizing s left with
  | nil =>
    cases result
    exact ⟨fun w => by simp,by simp,sound,rfl,rfl,rfl,fun _ known => known,fun _ inside => inside⟩
  | cons id rest ih =>
    obtain ⟨s₁,returned,left₁,step,result₁,rfl⟩ := sound.term_cases result
    have first := step.leaving sound
    exact first.trans (ih first.sound result₁)

-- What each acknowledgement keeps, all of them keep.
theorem Sound.terms_induct {P : List RequestId → CompletionLoop → Prop} (sound : s.Sound) (base : P ids s)
    (keep : ∀ s id rest s' returned, s.Sound → P (id::rest) s → Termed s id s' returned → P rest s')
    (result : s.terms ids = .ok (s',left)) : P [] s' := by
  induction ids generalizing s left with
  | nil => cases result; exact base
  | cons id rest ih =>
    obtain ⟨s₁,returned,left₁,step,result₁,_⟩ := sound.term_cases result
    exact ih (step.leaving sound).sound (keep s id rest s₁ returned sound base step) result₁

theorem Sound.dropFaulted_leaving (sound : s.Sound) : ∃ s' left, s.dropFaulted = .ok (s',left) ∧ Leaving s left s' ∧
    ∃ dropped, ExtContext.Dropping s.exceptContext.entries s.exceptContext.states s'.exceptContext.entries
      s'.exceptContext.states dropped ∧
      s'.requestPhases = dropped.foldl (fun phases row => phases.erase row.1) s.requestPhases := by
  obtain ⟨ctx,dropped,result,except,drops⟩ := sound.except.filterDrop_spec
  have records : ∀ key, s.exceptContext.states.dlookup key = none → ctx.states.dlookup key = none := by
    intro key absent
    rw [drops.rest key,absent]
    rfl
  refine ⟨{s with exceptContext := ctx,requestPhases := dropped.foldl (fun phases row => phases.erase row.1) s.requestPhases,
                  released := s.released++dropped.map Prod.snd},dropped.map Prod.snd,by simp only [dropFaulted,result]; rfl,
    ⟨?_,rfl,?_,rfl,rfl,rfl,fun key => known_of_records rfl (records key),?_⟩,dropped,drops,rfl⟩
  · intro w
    have worth := drops.worth fun _ e => w (Entry.account e)
    simp only [CompletionLoop.balance,List.map_map,Function.comp_def]
    omega
  · refine ⟨except,fun key e inside => records key (sound.apart key e inside),sound.keyed,?_⟩
    intro key e inside
    have kept := drops.kept key
    simp only at inside
    rw [inside] at kept
    split at kept
    · cases kept
    · exact sound.keyedExcept key e kept.symm
  · intro key inside
    have kept := drops.kept key
    simp only [find,kept] at inside ⊢
    split at inside
    · rw [Option.or_none] at inside
      rw [Option.isSome_or,inside,Bool.true_or]
    · exact inside

end Leave

theorem balance_unsettled {s : CompletionLoop} {w : Account → Int} {settled : List RequestId}
    (out : ∀ id ∈ settled, s.entries.lookup id = none) : balance w settled s = balance w [] s := by
  unfold balance
  congr 1
  apply Ledger.total_congr
  intro id entry found
  have due : id ∉ settled := fun member => by rw [out id member] at found; cases found
  simp [standing,due]

-- The second half of an iteration, and who leaves the exception context in it.
structure Delivering (outputs : List RequestStepOutput) (s : CompletionLoop) (left : List Entry) (s' : CompletionLoop) : Prop where
  balance : ∀ w : Account → Int,
    balance w [] s'+(left.map fun entry => w entry.account).sum = CompletionLoop.balance w (settleAll outputs []) s
  conserved : ∀ w : Account → Int, CompletionLoop.balance w [] s'+gone w s' = CompletionLoop.balance w [] s+gone w s
  sound : s'.Sound
  known : ∀ id, s'.Known id → s.Known id
  cancel : s'.cancelReqIds = []
  leaving : s'.tempLeavingEntries = []
  skipped : s'.skippedFaultEntries = []
  tracked : ∀ id, (s'.find id).isSome = true → (s.find id).isSome = true

-- The phases of the second half, one after the other.
theorem passGenerations_phases {ext : External} {s s' : CompletionLoop} {m : EngineStepOutput} {errors : List RequestId}
    {left : List Entry} (result : s.passGenerations ext m errors = .ok (s',left)) :
    ∃ s₁ s₂ s₃ s₄ s₅ terminated dropped, s.slowPath ext m.outputs = .ok s₁ ∧ s₁.onFrontendAbort = .ok s₂ ∧
      s₂.onBackendFault errors = .ok s₃ ∧ s₃.terms m.abortedRequests = .ok (s₄,terminated) ∧
      s₄.dropFaulted = .ok (s₅,dropped) ∧ s' = s₅.renew ∧ left = terminated++dropped := by
  unfold passGenerations at result
  cases slow : s.slowPath ext m.outputs with
  | error panic => rw [slow] at result; cases result
  | ok s₁ =>
    rw [slow] at result
    cases aborted : s₁.onFrontendAbort with
    | error panic => simp only [bind,Except.bind,aborted] at result; cases result
    | ok s₂ =>
      simp only [bind,Except.bind,aborted] at result
      cases faulted : s₂.onBackendFault errors with
      | error panic => simp only [faulted] at result; cases result
      | ok s₃ =>
        simp only [faulted] at result
        cases ended : s₃.terms m.abortedRequests with
        | error panic => simp only [ended] at result; cases result
        | ok pair =>
          obtain ⟨s₄,terminated⟩ := pair
          simp only [ended] at result
          cases ends : s₄.dropFaulted with
          | error panic => simp only [ends] at result; cases result
          | ok pair =>
            obtain ⟨s₅,dropped⟩ := pair
            simp only [ends,Except.ok.injEq,Prod.mk.injEq] at result
            exact ⟨s₁,s₂,s₃,s₄,s₅,terminated,dropped,rfl,aborted,faulted,ended,ends,result.1.symm,result.2.symm⟩

theorem Sound.uncancelled {s : CompletionLoop} (sound : s.Sound) : Sound {s with cancelReqIds := []} :=
  ⟨sound.except,sound.apart,sound.keyed,sound.keyedExcept⟩

theorem Sound.delivering {ext : External} {s s' : CompletionLoop} {m : EngineStepOutput} {errors : List RequestId}
    {left : List Entry} (sound : s.Sound) (result : s.passGenerations ext m errors = .ok (s',left)) :
    Delivering m.outputs s left s' := by
  obtain ⟨s₁,s₂,s₃,s₄,s₅,terminated,dropped,slow,aborted,faulted,ended,ends,rfl,rfl⟩ := passGenerations_phases result
  have passing := sound.passing slow
  have aborts : Moving {s₁ with cancelReqIds := []} s₂ := passing.sound.uncancelled.onFrontendAbort_moving aborted
  have sound₂ := aborts.sound passing.sound.uncancelled
  have faults := sound₂.onBackendFault_moving faulted
  have first := (faults.sound sound₂).terms_leaving ended
  obtain ⟨s₆,dropped',ends',second,_⟩ := first.sound.dropFaulted_leaving
  rw [ends] at ends'
  cases ends'
  have leaves := first.trans second
  have moved : ∀ w, CompletionLoop.balance w [] s₃ = CompletionLoop.balance w [] s₁ := fun w =>
    (faults.balance w).trans (aborts.balance w)
  have same : ∀ w, CompletionLoop.balance w [] s₅.renew = CompletionLoop.balance w [] s₅ := fun _ => rfl
  refine ⟨?_,?_,?_,?_,?_,rfl,rfl,?_⟩
  · intro w
    have out : ∀ id ∈ settleAll m.outputs [], s₁.entries.lookup id = none := by
      intro id member
      cases kept : s₁.entries.lookup id with
      | none => rfl
      | some entry =>
        have stays := (passing.tracked id).mp (by rw [kept]; rfl)
        rcases mem_settleAll.mp member with none | ends
        · cases none
        · exact absurd ends stays.2
    have paid := leaves.balance w
    have passed := passing.balance w (settleAll m.outputs []) fun o member ends =>
      mem_settleAll.mpr (.inr ⟨o,member,ends,rfl⟩)
    rw [balance_unsettled out] at passed
    rw [moved] at paid
    exact paid.trans passed
  · intro w
    have passed := passing.conserved w
    have paid := leaves.balance w
    have released := leaves.released
    have leaving := leaves.leaving
    rw [faults.released,aborts.released] at released
    rw [faults.leaving,aborts.leaving] at leaving
    rw [moved,List.map_append,List.sum_append] at paid
    rw [same]
    simp only [gone,renew,released,leaving,List.map_append,List.sum_append,List.map_map,List.map_nil,List.sum_nil,
      Function.comp_def] at passed ⊢
    omega
  · exact ⟨leaves.sound.except,leaves.sound.apart,leaves.sound.keyed,leaves.sound.keyedExcept⟩
  · intro id known
    have before : s₁.Known id := aborts.known id (faults.known id (leaves.known id known))
    rcases before with inside | inside
    · exact .inl ((passing.tracked id).mp inside).1
    · exact .inr (by rwa [passing.except] at inside)
  · rw [show s₅.renew.cancelReqIds = s₅.cancelReqIds from rfl,leaves.cancel,faults.cancel,aborts.cancel]
  · intro id inside
    have before : (s₁.find id).isSome = true := aborts.tracked id (faults.tracked id (leaves.tracked id inside))
    unfold find at before ⊢
    rw [passing.except,Option.isSome_or,Bool.or_eq_true] at before
    rw [Option.isSome_or,Bool.or_eq_true]
    exact before.imp_left fun kept => ((passing.tracked id).mp kept).1

theorem deliver_cases {β : Type} {ext : External} {s s' : CompletionLoop} {context context' : ScheduleContext β}
    {m : EngineStepOutput} {errors : List RequestId} (result : s.deliver ext context m errors = .ok (s',context')) :
    ∃ left, s.passGenerations ext m errors = .ok (s',left) ∧
      context' = {context with lmetric := (left.foldl LeaveDec.leave ⟨0,0⟩).apply context.lmetric} := by
  unfold deliver at result
  cases passed : s.passGenerations ext m errors with
  | error panic => rw [passed] at result; cases result
  | ok pair =>
    rw [passed] at result
    cases result
    exact ⟨pair.2,rfl,rfl⟩

end BlitzRouter.CompletionLoop
