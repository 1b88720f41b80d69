import BlitzRouter.ScheduleStep

namespace BlitzRouter.SchedSnapshot

variable {s : SchedSnapshot} {rid : RequestId}

-- `iter_in_flight`, by id: the waiting requests and then the running ones.
def inFlightIds (s : SchedSnapshot) : List RequestId := s.waiting.map (fun r => r.requestId)++s.running.keys

def inFlightCount (s : SchedSnapshot) : Nat := s.waiting.length+s.running.keys.length

theorem inFlightIds_length (s : SchedSnapshot) : s.inFlightIds.length = s.inFlightCount := by
  simp [inFlightIds,inFlightCount]

theorem isInFlight_iff : s.isInFlight rid = true ↔ rid ∈ s.inFlightIds := by
  simp only [isInFlight,inFlightIds,Bool.or_eq_true,List.any_eq_true,beq_iff_eq,List.mem_append,List.mem_map]
  rw [or_comm,← AList.mem_keys,AList.lookup_isSome]

-- What a step reports finished or aborted leaves the replica.
def dismissed (m : EngineStepOutput) (rid : RequestId) : Bool :=
  m.outputs.any (fun o => o.isFinished && o.requestId == rid) || m.abortedRequests.contains rid

theorem ids_promoteToRunning (absent : s.running.lookup rid = none) : (s.promoteToRunning rid).inFlightIds.Perm s.inFlightIds := by
  unfold promoteToRunning
  split
  · exact List.Perm.refl _
  · rename_i req found
    obtain ⟨moved,before,after,_,here,listed,rest⟩ := List.exists_of_eraseP (List.mem_of_find?_eq_some found) (List.find?_some found)
    have own : moved.requestId = rid := by simpa using here
    have outside : rid ∉ s.running.keys := AList.lookup_eq_none.mp absent
    simp only [inFlightIds,rest,AList.keys_insert,List.erase_of_not_mem outside]
    rw [listed]
    simp only [List.map_append,List.map_cons,own]
    refine List.perm_middle.trans ?_
    rw [← List.cons_append]
    exact List.perm_middle.symm.append_right _

theorem ids_update (change : ReqProgress → ReqProgress) : (s.update rid change).inFlightIds.Perm s.inFlightIds := by
  unfold update
  split
  · exact List.Perm.refl _
  · rename_i req found
    have inside : rid ∈ s.running.keys := AList.mem_keys.mp (AList.lookup_isSome.mp (by rw [found]; rfl))
    simp only [inFlightIds,AList.keys_insert]
    exact (List.perm_cons_erase inside).symm.append_left _

theorem ids_absorbPrefill (o : RequestStepOutput) (chunk : Nat) : (s.absorbPrefill o chunk).inFlightIds.Perm s.inFlightIds := by
  unfold absorbPrefill
  refine (ids_update _).trans ?_
  split
  · exact List.Perm.refl _
  · rename_i absent
    exact ids_promoteToRunning (by simpa using absent)

theorem ids_absorbDecode (rid : RequestId) : (s.absorbDecode rid).inFlightIds.Perm s.inFlightIds := by
  unfold absorbDecode
  refine (ids_update _).trans ?_
  split
  · exact List.Perm.refl _
  · rename_i absent
    exact (ids_update _).trans (ids_promoteToRunning (by simpa using absent))

theorem ids_dropRequest (s : SchedSnapshot) (rid : RequestId) : (s.dropRequest rid).inFlightIds = s.inFlightIds.filter (· != rid) := by
  simp only [dropRequest,inFlightIds,AList.keys_erase,List.filter_append,List.filter_map,s.running.keys_nodup.erase_eq_filter]
  rfl

theorem Keyed.ids_preempt (keyed : s.Keyed) (rid : RequestId) : (s.preempt rid).inFlightIds.Perm s.inFlightIds := by
  unfold SchedSnapshot.preempt
  split
  · exact List.Perm.refl _
  · rename_i req found
    have inside : rid ∈ s.running.keys := AList.mem_keys.mp (AList.lookup_isSome.mp (by rw [found]; rfl))
    simp only [inFlightIds,List.map_cons,AList.keys_erase,keyed rid req found]
    exact List.perm_middle.symm.trans ((List.perm_cons_erase inside).symm.append_left _)

theorem ids_syncOutput (perChunk remainder seen : Nat) (s : SchedSnapshot) (o : RequestStepOutput) :
    (syncOutput perChunk remainder (s,seen) o).1.inFlightIds.Perm
      (s.inFlightIds.filter fun rid => !(o.isFinished && o.requestId == rid)) := by
  have moved : ∀ chunk, (if o.state = .prefill then (s.absorbPrefill o chunk,seen+1)
      else if o.decodes then (s.absorbDecode o.requestId,seen) else (s,seen)).1.inFlightIds.Perm s.inFlightIds := fun chunk => by
    split
    · exact ids_absorbPrefill o chunk
    · split
      · exact ids_absorbDecode o.requestId
      · exact List.Perm.refl _
  unfold syncOutput
  cases finished : o.isFinished with
  | false => simpa using moved _
  | true =>
    simp only [if_true,ids_dropRequest,Bool.true_and]
    refine ((moved _).filter _).trans (List.Perm.of_eq ?_)
    congr 1
    funext rid
    rw [bne_comm]
    rfl

theorem Keyed.ids_sync (keyed : s.Keyed) (m : EngineStepOutput) :
    (s.sync m).inFlightIds.Perm (s.inFlightIds.filter fun rid => !dismissed m rid) := by
  have outputs : ∀ (perChunk remainder seen : Nat) (xs : List RequestStepOutput) (s : SchedSnapshot), s.Keyed →
      Keyed (xs.foldl (SchedSnapshot.syncOutput perChunk remainder) (s,seen)).1 ∧
        (xs.foldl (SchedSnapshot.syncOutput perChunk remainder) (s,seen)).1.inFlightIds.Perm
          (s.inFlightIds.filter fun rid => !xs.any fun o => o.isFinished && o.requestId == rid) := by
    intro perChunk remainder seen xs
    induction xs generalizing seen with
    | nil => exact fun s keyed => ⟨keyed,by simp⟩
    | cons o xs ih =>
      intro s keyed
      obtain ⟨keyed',ids⟩ := ih _ _ (keyed.syncOutput o)
      refine ⟨keyed',ids.trans (((ids_syncOutput _ _ _ s o).filter _).trans (List.Perm.of_eq ?_))⟩
      simp [List.filter_filter,Bool.and_comm]
  have preempted : ∀ (ids : List RequestId) (s : SchedSnapshot), s.Keyed → (ids.foldl SchedSnapshot.preempt s).inFlightIds.Perm s.inFlightIds := by
    intro ids
    induction ids with
    | nil => exact fun s _ => List.Perm.refl _
    | cons id ids ih => exact fun s keyed => (ih _ (keyed.preempt id)).trans (keyed.ids_preempt id)
  have aborted : ∀ (ids : List RequestId) (s : SchedSnapshot),
      (ids.foldl dropRequest s).inFlightIds = s.inFlightIds.filter fun rid => !ids.contains rid := by
    intro ids
    induction ids with
    | nil => intro s; simp
    | cons id ids ih =>
      intro s
      rw [List.foldl_cons,ih,ids_dropRequest,List.filter_filter]
      congr 1
      funext rid
      rw [List.contains_cons,Bool.not_or,Bool.and_comm]
      rfl
  unfold SchedSnapshot.sync
  rw [aborted]
  obtain ⟨keyed',ids⟩ := outputs _ _ 0 m.outputs s keyed
  refine ((((preempted _ _ keyed').trans ids)).filter _).trans (List.Perm.of_eq ?_)
  simp [List.filter_filter,dismissed,Bool.and_comm]

end BlitzRouter.SchedSnapshot
