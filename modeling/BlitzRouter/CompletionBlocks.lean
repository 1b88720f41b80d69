import BlitzRouter.CompletionMeter

namespace BlitzRouter.CompletionLoop
open Radix

-- A move of the loop after which every request stands where it stood, with the
-- same account: the books cannot tell the two states apart.
structure Carries (s s' : CompletionLoop) : Prop where
  kept : Kept s s'
  balance : ∀ (w : Account → Int) (settled : List RequestId), balance w settled s' = CompletionLoop.balance w settled s
  gone : ∀ w : Account → Int, gone w s' = CompletionLoop.gone w s
  sound : s.Sound → s'.Sound
  found : ∀ id, (s'.find id).map Entry.account = (s.find id).map Entry.account
  leaving : s'.tempLeavingEntries.map (fun row => (row.1,row.2.account)) =
    s.tempLeavingEntries.map fun row => (row.1,row.2.account)

theorem Carries.refl (s : CompletionLoop) : Carries s s :=
  ⟨.refl s,fun _ _ => rfl,fun _ => rfl,id,fun _ => rfl,rfl⟩

theorem Carries.trans {s₁ s₂ s₃ : CompletionLoop} (one : Carries s₁ s₂) (two : Carries s₂ s₃) : Carries s₁ s₃ :=
  ⟨one.kept.trans two.kept,fun w settled => (two.balance w settled).trans (one.balance w settled),
    fun w => (two.gone w).trans (one.gone w),two.sound ∘ one.sound,fun id => (two.found id).trans (one.found id),
    two.leaving.trans one.leaving⟩

section Step
variable {s s' : CompletionLoop} {id rid : RequestId} {entry new : Entry}

theorem carries_store (found : s.find id = some entry) (account : new.account = entry.account) : Carries s (s.store id new) := by
  refine ⟨?_,?_,fun _ => gone_store,?_,?_,by simp⟩
  · exact ⟨store_phases,store_cancel,store_skipped,store_released,fun key => (store_tracked found key).1,
      fun key => by rw [store_states]⟩
  · intro w settled
    cases kept : s.entries.lookup id with
    | some held =>
      rw [find_entries kept] at found
      cases found
      have same := Ledger.total_insert_same (standing w settled) new kept (by simp only [standing,account])
      rw [store_entries kept]
      simp only [CompletionLoop.balance,same]
    | none =>
      rw [find_except kept] at found
      have same := Ledger.total_insert_same (fun _ e => w (Entry.account e)) new found (by simp only [account])
      rw [store_except kept]
      simp only [CompletionLoop.balance,same]
  · intro sound
    have same : new.request = entry.request := congrArg Account.request account
    exact sound.store found (by rw [same]; exact sound.keyed_find found)
  · intro key
    by_cases same : key = id
    · subst same
      rw [find_store,found,Option.map_some,Option.map_some,account]
    · rw [find_store_ne same]

theorem replaceFirst_accounts {rows : List (RequestId × Entry)}
    (found : (rows.find? fun row => row.1 == rid).map Prod.snd = some entry) (account : new.account = entry.account) :
    (replaceFirst rid new rows).map (fun row => (row.1,row.2.account)) = rows.map fun row => (row.1,row.2.account) := by
  induction rows with
  | nil => rfl
  | cons row rest ih =>
    unfold replaceFirst
    by_cases here : row.1 = rid
    · have named : row.2 = entry := by simpa [List.find?_cons,here] using found
      rw [if_pos here,List.map_cons,List.map_cons,account,named]
    · rw [if_neg here,List.map_cons,List.map_cons]
      have other : (row.1 == rid) = false := by simpa using here
      rw [List.find?_cons_of_neg (by simpa using here)] at found
      rw [ih found]

theorem findBlocks_leaving (absent : s.find rid = none) :
    s.findBlocks rid = (s.tempLeavingEntries.find? fun row => row.1 == rid).map Prod.snd := by
  simp [findBlocks,absent]

theorem carries_storeBlocks (found : s.findBlocks rid = some entry) (account : new.account = entry.account) :
    Carries s (s.storeBlocks rid new) := by
  cases tracked : s.find rid with
  | some held =>
    have same : held = entry := by simpa [findBlocks,tracked] using found
    subst same
    simp only [storeBlocks,tracked,Option.isSome_some,if_true]
    exact carries_store tracked account
  | none =>
    rw [findBlocks_leaving tracked] at found
    have rows := replaceFirst_accounts found account
    simp only [storeBlocks,tracked,Option.isSome_none,Bool.false_eq_true,if_false]
    refine ⟨⟨rfl,rfl,rfl,rfl,fun _ => rfl,fun _ => rfl⟩,fun _ _ => rfl,?_,?_,fun _ => rfl,rows⟩
    · intro w
      have sums := congrArg (fun rows => (rows.map fun row : RequestId × Account => w row.2).sum) rows
      simp only [List.map_map,Function.comp_def] at sums
      simp only [gone,sums]
    · intro sound
      exact ⟨sound.except,sound.apart,sound.keyed,sound.keyedExcept⟩

end Step

section Cache
variable {β : Type} [BlockHash β] {s s' : CompletionLoop} {blockHash blockHash' : β}

-- What the write of one block report keeps, the reports of a step keep. A write
-- moves the synchronised count and the occupied blocks of a request only.
theorem setCurUsed_induct {P : CompletionLoop → Prop} {reports : List (RequestId × List BlockId)} (base : P s)
    (keep : ∀ s rid entry state synced bids, P s → s.findBlocks rid = some entry →
      state = {entry.blockHashState with syncNblks := synced,blockIndices := bids} →
      P (s.storeBlocks rid {entry with blockHashState := state})) (result : s.setCurUsed reports = .ok s') : P s' := by
  induction reports generalizing s with
  | nil => cases result; exact base
  | cons report rest ih =>
    obtain ⟨rid,bids⟩ := report
    unfold setCurUsed at result
    split at result
    · exact ih base result
    · split at result
      · cases result
      · rename_i entry found
        split at result
        · cases result
        · rename_i state set
          obtain ⟨_,synced,equal⟩ := BlockHashState.setBids_eq set
          exact ih (keep s rid entry state synced bids base found equal) result

theorem insertNewBlocks_induct {P : CompletionLoop → Prop} {reports : List (RequestId × List BlockId)} (base : P s)
    (keep : ∀ s rid entry state synced bids, P s → s.findBlocks rid = some entry →
      state = {entry.blockHashState with syncNblks := synced,blockIndices := bids} →
      P (s.storeBlocks rid {entry with blockHashState := state}))
    (result : s.insertNewBlocks blockHash reports = .ok (s',blockHash')) : P s' := by
  induction reports generalizing s blockHash with
  | nil => cases result; exact base
  | cons report rest ih =>
    obtain ⟨rid,bids⟩ := report
    unfold insertNewBlocks at result
    split at result
    · exact ih base result
    · split at result
      · cases result
      · rename_i entry found
        split at result
        · cases result
        · cases result
        · rename_i state hashes onto
          obtain ⟨_,_,_,equal⟩ := BlockHashState.getOntoHashes_found onto
          split at result
          · cases result
          · exact ih (keep s rid entry state _ entry.blockHashState.blockIndices base found equal) result

theorem cacheUpdate_induct {P : CompletionLoop → Prop} {m : EngineStepOutput} (base : P s)
    (keep : ∀ s rid entry state synced bids, P s → s.findBlocks rid = some entry →
      state = {entry.blockHashState with syncNblks := synced,blockIndices := bids} →
      P (s.storeBlocks rid {entry with blockHashState := state}))
    (result : s.cacheUpdate blockHash m = .ok (s',blockHash')) : P s' := by
  unfold cacheUpdate at result
  split at result
  · cases result
  · cases used : s.setCurUsed m.curUsedBlockIds with
    | error panic => rw [used] at result; cases result
    | ok s₁ =>
      rw [used] at result
      exact insertNewBlocks_induct (setCurUsed_induct base keep used) keep result

theorem Carries.report {t : CompletionLoop} {rid : RequestId} {entry : Entry} {state : BlockHashState} (synced : Nat) (bids : List BlockId)
    (carries : Carries s t) (found : t.findBlocks rid = some entry)
    (equal : state = {entry.blockHashState with syncNblks := synced,blockIndices := bids}) :
    Carries s (t.storeBlocks rid {entry with blockHashState := state}) :=
  carries.trans (carries_storeBlocks found (account_blocks synced bids equal))

theorem carries_setCurUsed {reports : List (RequestId × List BlockId)} (result : s.setCurUsed reports = .ok s') : Carries s s' :=
  setCurUsed_induct (.refl s) (fun _ _ _ _ synced bids carries => carries.report synced bids) result

theorem carries_cacheUpdate {m : EngineStepOutput} (result : s.cacheUpdate blockHash m = .ok (s',blockHash')) : Carries s s' :=
  cacheUpdate_induct (.refl s) (fun _ _ _ _ synced bids carries => carries.report synced bids) result

theorem meter_phases {ext : External} {context context' : ScheduleContext β} {m : EngineStepOutput}
    (result : s.meter ext context m = .ok (s',context')) :
    ∃ s₁ d, s.fastPath ext m = .ok (s₁,d) ∧ s₁.cacheUpdate context.blockHash m = .ok (s',context'.blockHash) ∧
      context'.lmetric = context.lmetric.subAssign d := by
  unfold meter at result
  cases fast : s.fastPath ext m with
  | error panic => rw [fast] at result; cases result
  | ok pair =>
    obtain ⟨s₁,d⟩ := pair
    rw [fast] at result
    cases cache : s₁.cacheUpdate context.blockHash m with
    | error panic => simp only [bind,Except.bind,cache] at result; cases result
    | ok pair =>
      obtain ⟨s₂,blockHash⟩ := pair
      simp only [bind,Except.bind,cache,Except.ok.injEq,Prod.mk.injEq] at result
      obtain ⟨rfl,rfl⟩ := result
      exact ⟨s₁,d,rfl,cache,rfl⟩

-- The first half of an iteration: what the fast path did to the books, and the
-- delta it charged to the counters.
theorem meter_cases {ext : External} {context context' : ScheduleContext β} {m : EngineStepOutput} (sound : s.Sound)
    (distinct : (m.outputs.map RequestStepOutput.requestId).Nodup) (result : s.meter ext context m = .ok (s',context')) :
    ∃ s₁ d, s.fastPath ext m = .ok (s₁,d) ∧ Metering m.outputs s (startDelta m) s₁ d ∧ Carries s₁ s' ∧
      context'.lmetric = context.lmetric.subAssign d := by
  obtain ⟨s₁,d,fast,cache,lmetric⟩ := meter_phases result
  exact ⟨s₁,d,fast,sound.metering distinct fast,carries_cacheUpdate cache,lmetric⟩

end Cache
end BlitzRouter.CompletionLoop
