import BlitzRouter.Rollout

namespace BlitzRouter
namespace SchedSnapshot

variable {s s' s'' : SchedSnapshot} {parts more : List PrefillPart} {rid : RequestId} {r req : ReqProgress}

-- A running request sits under its own id.
def Keyed (s : SchedSnapshot) : Prop := ∀ rid r, s.running.lookup rid = some r → r.requestId = rid

theorem mem_values : r ∈ s.values ↔ ∃ rid, s.running.lookup rid = some r := by
  simp only [values,List.mem_map]
  constructor
  · rintro ⟨⟨rid,held⟩,member,rfl⟩
    exact ⟨rid,AList.mem_lookup_iff.mpr member⟩
  · rintro ⟨rid,found⟩
    exact ⟨⟨rid,r⟩,AList.mem_lookup_iff.mp found,rfl⟩

theorem Keyed.ids (keyed : s.Keyed) : (s.values.map fun r => r.requestId) = s.running.keys := by
  simp only [values,List.map_map,AList.keys,List.keys]
  apply List.map_congr_left
  intro row member
  exact keyed row.1 row.2 (AList.mem_lookup_iff.mpr member)

theorem Keyed.mem_sortedIds (keyed : s.Keyed) (select : ReqProgress → Bool) (rid : RequestId) :
    rid ∈ sortedIds (s.values.filter select) ↔ ∃ r, s.running.lookup rid = some r ∧ select r = true := by
  simp only [sortedIds,List.mem_insertionSort,List.mem_map,List.mem_filter,mem_values]
  constructor
  · rintro ⟨r,⟨⟨key,found⟩,chosen⟩,rfl⟩
    rw [keyed key r found]
    exact ⟨r,found,chosen⟩
  · rintro ⟨r,found,chosen⟩
    exact ⟨r,⟨⟨rid,found⟩,chosen⟩,keyed rid r found⟩

theorem Keyed.nodup_sortedIds (keyed : s.Keyed) (select : ReqProgress → Bool) : (sortedIds (s.values.filter select)).Nodup := by
  rw [sortedIds,(List.perm_insertionSort _ _).nodup_iff]
  have all : (s.values.map fun r => r.requestId).Nodup := keyed.ids ▸ s.running.keys_nodup
  exact all.sublist (List.filter_sublist.map _)

theorem decodeParts_rids {rids : List RequestId} (found : ∀ rid ∈ rids, (s.running.lookup rid).isSome) :
    (s.decodeParts rids).map (fun d => d.rid) = rids := by
  induction rids with
  | nil => rfl
  | cons rid rest ih =>
    obtain ⟨req,here⟩ := Option.isSome_iff_exists.mp (found rid List.mem_cons_self)
    have later := ih fun other member => found other (List.mem_cons_of_mem _ member)
    rw [decodeParts] at later ⊢
    rw [List.filterMap_cons,here]
    exact congrArg (rid::·) later

theorem Keyed.decode_rids (keyed : s.Keyed) : (s.decodeParts s.runningDecoders).map (fun d => d.rid) = s.runningDecoders := by
  apply decodeParts_rids
  intro rid member
  obtain ⟨r,found,_⟩ := (keyed.mem_sortedIds _ _).mp member
  rw [found]
  rfl

section Keys
variable {m : EngineStepOutput}

theorem Keyed.insert (keyed : s.Keyed) (waiting : List ReqProgress) (own : r.requestId = rid) :
    Keyed ⟨waiting,s.running.insert rid r⟩ := by
  intro other held found
  by_cases same : other = rid
  · subst same
    rw [AList.lookup_insert] at found
    cases found
    exact own
  · rw [AList.lookup_insert_ne same] at found
    exact keyed other held found

theorem Keyed.erase (keyed : s.Keyed) (waiting : List ReqProgress) (rid : RequestId) : Keyed ⟨waiting,s.running.erase rid⟩ := by
  intro other held found
  by_cases same : other = rid
  · subst same
    rw [AList.lookup_erase] at found
    cases found
  · rw [AList.lookup_erase_ne same] at found
    exact keyed other held found

theorem Keyed.update {change : ReqProgress → ReqProgress} (keyed : s.Keyed) (named : ∀ r, (change r).requestId = r.requestId) :
    Keyed (s.update rid change) := by
  unfold SchedSnapshot.update
  split
  · exact keyed
  · rename_i req found
    exact keyed.insert _ ((named req).trans (keyed rid req found))

theorem Keyed.promoteToRunning (keyed : s.Keyed) (rid : RequestId) : Keyed (s.promoteToRunning rid) := by
  unfold SchedSnapshot.promoteToRunning
  split
  · exact keyed
  · rename_i req found
    exact keyed.insert _ (by simpa using List.find?_some found)

theorem Keyed.preempt (keyed : s.Keyed) (rid : RequestId) : Keyed (s.preempt rid) := by
  unfold SchedSnapshot.preempt
  split
  · exact keyed
  · exact keyed.erase _ _

theorem Keyed.syncOutput {perChunk remainder seen : Nat} (keyed : s.Keyed) (o : RequestStepOutput) :
    Keyed (SchedSnapshot.syncOutput perChunk remainder (s,seen) o).1 :=
  syncOutput_kept perChunk remainder (s,seen) o (fun _ keyed => keyed.promoteToRunning _) (fun _ _ named keyed => keyed.update named)
    (fun _ keyed => keyed.erase _ _) keyed

theorem Keyed.sync (keyed : s.Keyed) (m : EngineStepOutput) : Keyed (s.sync m) :=
  sync_induction m (fun _ rid _ keyed => keyed.promoteToRunning rid) (fun _ _ _ _ named keyed => keyed.update named)
    (fun _ rid _ keyed => keyed.preempt rid) (fun _ _ _ keyed => keyed.erase _ _) keyed

end Keys

-- What a step may do to the queues, one part at a time.
inductive Filled : SchedSnapshot → List PrefillPart → SchedSnapshot → Prop where
  | nil {s : SchedSnapshot} : Filled s [] s
  | resume {s s' : SchedSnapshot} {rid : RequestId} {req : ReqProgress} {chunk : Nat} {parts : List PrefillPart} :
      s.running.lookup rid = some req → 0 < chunk → chunk ≤ req.prefillRemaining →
      Filled {s with running := s.running.insert rid {req with processedTokens := req.processedTokens+chunk}} parts s' →
      Filled s (⟨rid,req.processedTokens,chunk⟩::parts) s'
  | pull {s s' : SchedSnapshot} {next : ReqProgress} {rest : List ReqProgress} {chunk : Nat} {parts : List PrefillPart} :
      s.waiting = next::rest → 0 < chunk → chunk ≤ next.prefillRemaining →
      Filled ⟨rest,s.running.insert next.requestId {next with processedTokens := next.processedTokens+chunk}⟩ parts s' →
      Filled s (⟨next.requestId,next.processedTokens,chunk⟩::parts) s'
  | cached {s s' : SchedSnapshot} {next : ReqProgress} {rest : List ReqProgress} {parts : List PrefillPart} :
      s.waiting = next::rest → next.prefillRemaining = 0 → Filled ⟨rest,s.running.insert next.requestId next⟩ parts s' → Filled s parts s'

theorem Filled.trans (first : Filled s parts s') (second : Filled s' more s'') : Filled s (parts++more) s'' := by
  induction first with
  | nil => exact second
  | resume found positive fits _ ih => exact .resume found positive fits (ih second)
  | pull front positive fits _ ih => exact .pull front positive fits (ih second)
  | cached front nothing _ ih => exact .cached front nothing (ih second)

theorem chunk_spec {remaining : Nat} {budget : Int} (some_ : 0 < budget) :
    (max (min (remaining : Int) budget) 0).toNat ≤ remaining ∧
      ((max (min (remaining : Int) budget) 0).toNat = 0 → remaining = 0) := by omega

theorem continuePrefills_filled (rids : List RequestId) (s : SchedSnapshot) (budget : Int) :
    Filled s (continuePrefills rids s budget).2.2 (continuePrefills rids s budget).1 := by
  induction rids generalizing s budget with
  | nil => exact .nil
  | cons rid rest ih =>
    unfold continuePrefills
    split
    · exact .nil
    · rename_i positive
      have some_ : 0 < budget := by omega
      cases found : s.running.lookup rid with
      | none => exact ih s budget
      | some req =>
        simp only
        split
        · exact ih s budget
        · rename_i taken
          exact .resume found (Nat.pos_of_ne_zero taken) (chunk_spec some_).1 (ih _ _)

theorem pullWaiting_filled (waiting : List ReqProgress) (running : Table RequestId ReqProgress) (budget : Int) :
    Filled ⟨waiting,running⟩ (pullWaiting waiting running budget).2 (pullWaiting waiting running budget).1 := by
  induction waiting generalizing running budget with
  | nil => exact .nil
  | cons next rest ih =>
    unfold pullWaiting
    split
    · exact .nil
    · rename_i positive
      have some_ : 0 < budget := by omega
      simp only
      split
      · rename_i none
        exact .cached rfl ((chunk_spec some_).2 none) (ih _ _)
      · rename_i taken
        exact .pull rfl (Nat.pos_of_ne_zero taken) (chunk_spec some_).1 (ih _ _)

end SchedSnapshot

open SchedSnapshot

variable {τ : Type} {predict : BatchForPredictor → τ} {limits : StepLimits} {s s' : SchedSnapshot} {slotIdx : Nat}
  {candidateId : RequestId} {buffer buffer' : RolloutBuffer τ}

theorem scheduleStep_filled (limits : StepLimits) (s : SchedSnapshot) :
    Filled s (scheduleStep limits s).2.1 (scheduleStep limits s).1 ∧ (scheduleStep limits s).2.2 = s.decodeParts s.runningDecoders :=
  ⟨(continuePrefills_filled _ _ _).trans (pullWaiting_filled _ _ _),rfl⟩

theorem trackCandidate_slots (sched : SchedSnapshot) (slot : RolloutSlot τ) :
    (trackCandidate sched slotIdx candidateId slot buffer).slots = buffer.slots := by
  simp only [trackCandidate]
  repeat' split
  all_goals rfl

-- A slot that comes out names what was taken from the queues.
theorem simulateOneSlot_some {slot : RolloutSlot τ}
    (result : simulateOneSlot predict limits s slotIdx candidateId buffer = (s',buffer',some slot)) :
    ∃ parts, Filled s parts s' ∧ slot.prefillRids = parts.map (fun p => p.rid) ∧
      slot.decodeRids = (s.decodeParts s.runningDecoders).map (fun d => d.rid) ∧ slot.compositionKnown = true ∧
      slot.batch.numPrefillTokens = parts.map (fun p => p.chunk) ∧ buffer'.slots = buffer.slots := by
  obtain ⟨filled,decodes⟩ := scheduleStep_filled limits s
  unfold simulateOneSlot at result
  split at result
  rename_i sched prefills work scheduled
  rw [scheduled] at filled decodes
  split at result
  · cases result
  · rename_i busy
    cases result
    refine ⟨prefills,filled,rfl,congrArg (List.map _) decodes,?_,rfl,trackCandidate_slots _ _⟩
    simpa [RolloutSlot.compositionKnown,List.isEmpty_iff,or_iff_not_imp_left] using busy

end BlitzRouter
