import BlitzRouter.RolloutConservation

namespace BlitzRouter.SchedSnapshot

variable {s s' : SchedSnapshot} {m : EngineStepOutput} {rid : RequestId} {r : ReqProgress}

-- The snapshots agree on what they hold of the requests `keep` selects.
structure Framed (keep : RequestId → Bool) (s s' : SchedSnapshot) : Prop where
  waiting : s'.waiting.filter (fun r => keep r.requestId) = s.waiting.filter fun r => keep r.requestId
  running : ∀ rid, keep rid = true → s'.running.lookup rid = s.running.lookup rid

namespace Framed
variable {keep : RequestId → Bool}

theorem refl (s : SchedSnapshot) : Framed keep s s := ⟨rfl,fun _ _ => rfl⟩

theorem trans {u : SchedSnapshot} (first : Framed keep s u) (second : Framed keep u s') : Framed keep s s' :=
  ⟨second.waiting.trans first.waiting,fun rid kept => (second.running rid kept).trans (first.running rid kept)⟩

theorem differs {other : RequestId} (out : keep rid = false) (kept : keep other = true) : other ≠ rid := by
  rintro rfl
  rw [out] at kept
  cases kept

theorem update (out : keep rid = false) (change : ReqProgress → ReqProgress) : Framed keep s (s.update rid change) := by
  refine ⟨by rw [waiting_update],fun other kept => ?_⟩
  rw [lookup_update,if_neg (differs out kept)]

theorem promoteToRunning (out : keep rid = false) : Framed keep s (s.promoteToRunning rid) := by
  unfold SchedSnapshot.promoteToRunning
  split
  · exact refl s
  · rename_i req found
    obtain ⟨moved,before,after,_,here,listed,rest⟩ := List.exists_of_eraseP (List.mem_of_find?_eq_some found) (List.find?_some found)
    have own : moved.requestId = rid := by simpa using here
    refine ⟨?_,fun other kept => AList.lookup_insert_ne (differs out kept)⟩
    rw [rest,listed]
    simp [own,out]

theorem preempt (keyed : s.Keyed) (out : keep rid = false) : Framed keep s (s.preempt rid) := by
  unfold SchedSnapshot.preempt
  split
  · exact refl s
  · rename_i req found
    refine ⟨?_,fun other kept => AList.lookup_erase_ne (differs out kept)⟩
    simp [keyed rid req found,out]

theorem dropRequest (out : keep rid = false) : Framed keep s (s.dropRequest rid) := by
  refine ⟨?_,fun other kept => AList.lookup_erase_ne (differs out kept)⟩
  simp only [SchedSnapshot.dropRequest,List.filter_filter]
  apply List.filter_congr
  intro r member
  cases kept : keep r.requestId with
  | false => rfl
  | true => simpa using differs out kept

end Framed

-- Requests that the step does not mention stay as and where they were.
theorem Keyed.sync_framed (keyed : s.Keyed) (m : EngineStepOutput) : Framed (fun rid => !mentions m rid) s (s.sync m) := by
  suffices both : Framed (fun rid => !mentions m rid) s (s.sync m) ∧ (s.sync m).Keyed from both.1
  refine sync_induction (P := fun u => Framed (fun rid => !mentions m rid) s u ∧ u.Keyed) m ?_ ?_ ?_ ?_ ⟨.refl s,keyed⟩
  · exact fun u rid named ⟨framed,keyed⟩ => ⟨framed.trans (.promoteToRunning (by simp [named])),keyed.promoteToRunning rid⟩
  · exact fun u rid change named same ⟨framed,keyed⟩ => ⟨framed.trans (.update (by simp [named]) change),keyed.update same⟩
  · exact fun u rid named ⟨framed,keyed⟩ => ⟨framed.trans (.preempt keyed (by simp [named])),keyed.preempt rid⟩
  · exact fun u rid named ⟨framed,keyed⟩ => ⟨framed.trans (.dropRequest (by simp [named])),keyed.erase _ _⟩

def Unstarted (s : SchedSnapshot) : Prop := ∀ r ∈ s.waiting, r.processedTokens = 0

-- Only a request without progress joins the queue.
theorem Unstarted.sync (unstarted : s.Unstarted) (m : EngineStepOutput) : (s.sync m).Unstarted := by
  refine sync_induction (P := Unstarted) m ?_ ?_ ?_ ?_ unstarted
  · intro u rid _ unstarted
    unfold promoteToRunning
    split
    · exact unstarted
    · exact fun r member => unstarted r (List.eraseP_subset member)
  · intro u rid change _ _ unstarted r member
    rw [waiting_update] at member
    exact unstarted r member
  · intro u rid _ unstarted
    unfold preempt
    split
    · exact unstarted
    · exact List.forall_mem_cons.mpr ⟨rfl,unstarted⟩
  · exact fun u rid _ unstarted r member => unstarted r (List.mem_filter.mp member).1

inductive SnapshotCall where
  | admitReq (req : ReqProgress)
  | sync (m : EngineStepOutput)

def call (s : SchedSnapshot) : SnapshotCall → SchedSnapshot
  | .admitReq req => s.admitReq req
  | .sync m => s.sync m

-- Runs from the empty snapshot; an admitted id is not in flight.
inductive Reached : List SnapshotCall → SchedSnapshot → Prop where
  | new : Reached [] SchedSnapshot.new
  | admitReq {calls : List SnapshotCall} {s : SchedSnapshot} (req : ReqProgress) :
      Reached calls s → s.isInFlight req.requestId = false → Reached (calls++[.admitReq req]) (s.admitReq req)
  | sync {calls : List SnapshotCall} {s : SchedSnapshot} (m : EngineStepOutput) : Reached calls s → Reached (calls++[.sync m]) (s.sync m)

theorem Distinct.admitReq {req : ReqProgress} (distinct : s.Distinct) (fresh : s.isInFlight req.requestId = false) : (s.admitReq req).Distinct := by
  have outside : req.requestId ∉ s.inFlightIds := fun inside => by
    rw [isInFlight_iff.mpr inside] at fresh
    cases fresh
  have joined : (s.admitReq req).inFlightIds.Perm (req.requestId::s.inFlightIds) := by
    simp only [inFlightIds,SchedSnapshot.admitReq,List.map_append,List.append_assoc]
    exact List.perm_middle
  exact ⟨distinct.keyed,joined.nodup_iff.mpr (List.nodup_cons.mpr ⟨outside,distinct.apart⟩)⟩

theorem Distinct.sync (distinct : s.Distinct) (m : EngineStepOutput) : (s.sync m).Distinct :=
  ⟨distinct.keyed.sync m,(distinct.keyed.ids_sync m).nodup_iff.mpr (distinct.apart.filter _)⟩

theorem Reached.distinct {calls : List SnapshotCall} (reached : Reached calls s) : s.Distinct := by
  induction reached with
  | new => exact ⟨nofun,List.nodup_nil⟩
  | admitReq req _ fresh ih => exact ih.admitReq fresh
  | sync m _ ih => exact ih.sync m

theorem Reached.unstarted {calls : List SnapshotCall} (reached : Reached calls s)
    (started : ∀ req, SnapshotCall.admitReq req ∈ calls → req.processedTokens = 0) : s.Unstarted := by
  induction reached with
  | new => exact nofun
  | admitReq req _ _ ih =>
    intro r member
    rcases List.mem_append.mp member with earlier | last
    · exact ih (fun req listed => started req (List.mem_append_left _ listed)) r earlier
    · obtain rfl := List.mem_singleton.mp last
      exact started r (List.mem_append_right _ List.mem_cons_self)
  | sync m _ ih => exact (ih fun req listed => started req (List.mem_append_left _ listed)).sync m

-- What absorbing a step leaves behind, whatever the step says.
structure Absorbs (s : SchedSnapshot) (m : EngineStepOutput) : Prop where
  distinct : (s.sync m).Distinct
  inFlight : ∀ rid, rid ∈ (s.sync m).inFlightIds ↔ rid ∈ s.inFlightIds ∧ dismissed m rid = false
  framed : Framed (fun rid => !mentions m rid) s (s.sync m)

theorem snapshot_integrity {calls : List SnapshotCall} (reached : Reached calls s) :
    ((s.waiting.map fun r => r.requestId).Nodup ∧ (∀ r ∈ s.waiting, s.running.lookup r.requestId = none) ∧
        ∀ rid r, s.running.lookup rid = some r → r.requestId = rid) ∧
      (∀ m, s.Absorbs m) ∧
      ((∀ req, SnapshotCall.admitReq req ∈ calls → req.processedTokens = 0) → ∀ r ∈ s.waiting, r.processedTokens = 0) := by
  have distinct := reached.distinct
  obtain ⟨queued,_,apart⟩ := List.nodup_append.mp distinct.apart
  refine ⟨⟨queued,fun r member => ?_,distinct.keyed⟩,fun m => ⟨distinct.sync m,fun rid => ?_,distinct.keyed.sync_framed m⟩,reached.unstarted⟩
  · exact AList.lookup_eq_none.mpr fun inside => apart _ (List.mem_map_of_mem member) _ (AList.mem_keys.mp inside) rfl
  · rw [(distinct.keyed.ids_sync m).mem_iff,List.mem_filter,Bool.not_eq_true']

-- One step promotes 1, finishes it, preempts it and aborts it, and 2 waits.
def overlappingStep : EngineStepOutput where
  prefillTokens := 4
  latency := 0
  outputs := [⟨1,[],.prefill,false,0,0⟩,⟨1,[],.decode,true,0,4⟩,⟨9,[],.decode,true,0,4⟩]
  evictedBlockHashes := []
  evictedBlockIds := []
  curUsedBlockIds := []
  newBlockHashesIds := []
  preemptedIds := [1,9]
  abortedRequests := [1]
  stepId := 1

theorem snapshot_integrity_overlapping : ∃ s, Reached [.admitReq ⟨1,4,0⟩,.admitReq ⟨2,8,0⟩,.sync overlappingStep] s ∧
    s.waiting = [⟨2,8,0⟩] ∧ s.Absorbs overlappingStep := by
  have one : Reached [.admitReq ⟨1,4,0⟩] (SchedSnapshot.new.admitReq ⟨1,4,0⟩) := Reached.new.admitReq ⟨1,4,0⟩ (by decide)
  have reached := (one.admitReq ⟨2,8,0⟩ (by decide)).sync overlappingStep
  exact ⟨_,reached,by decide,(snapshot_integrity reached).2.1 overlappingStep⟩

end BlitzRouter.SchedSnapshot
