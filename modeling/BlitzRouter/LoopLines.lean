import BlitzRouter.ResponseLines
import BlitzRouter.LoopPlaces

namespace BlitzRouter.CompletionLoop
open Radix

-- Every channel of the loop, by the place of its entry.
structure Lines (ext : External) (outputs : List RequestStepOutput) (faulted : List RequestId) (s : CompletionLoop) : Prop where
  entries : ∀ id entry, s.entries.lookup id = some entry → Streaming ext outputs id entry.responseTx
  except : ∀ id entry, s.exceptContext.entries.lookup id = some entry → Withheld faulted id entry.responseTx
  leaving : ∀ row ∈ s.tempLeavingEntries, Resolved ext outputs faulted row.2.request.requestId row.2.responseTx
  released : ∀ entry ∈ s.released, Resolved ext outputs faulted entry.request.requestId entry.responseTx

theorem lines_new (ext : External) : Lines ext [] [] new :=
  ⟨by simp [new],by simp [new,ExtContext.new],nofun,nofun⟩

variable {ext : External} {outputs more : List RequestStepOutput} {faulted : List RequestId} {s s' : CompletionLoop}
  {d d' : LMetricDec} {o : RequestStepOutput} {id rid : RequestId} {entry new : Entry} {ids errors : List RequestId}

theorem Lines.mono {others : List RequestId} (lines : Lines ext outputs faulted s) (more : ∀ id ∈ faulted, id ∈ others) :
    Lines ext outputs others s :=
  ⟨lines.entries,fun id entry found => (lines.except id entry found).mono more,
    fun row member => (lines.leaving row member).mono more,fun entry member => (lines.released entry member).mono more⟩

-- The same in the words of the places.
def promised (ext : External) (outputs : List RequestStepOutput) (faulted : List RequestId) : Promises where
  serving id entry := Streaming ext outputs id entry.responseTx
  excepted id entry := Withheld faulted id entry.responseTx
  left entry := Resolved ext outputs faulted entry.request.requestId entry.responseTx

theorem lines_iff : Lines ext outputs faulted s ↔ s.Upholds (promised ext outputs faulted) :=
  ⟨fun lines => ⟨lines.entries,lines.except,lines.leaving,lines.released⟩,
    fun upholds => ⟨upholds.entries,upholds.except,upholds.leaving,upholds.released⟩⟩

theorem promised_lasting (ext : External) (outputs : List RequestStepOutput) (faulted : List RequestId) :
    (promised ext outputs faulted).Lasting where
  serving _ _ _ same streaming := by
    simp only [promised,same]
    exact streaming
  excepted _ _ _ same withheld := by
    simp only [promised,same]
    exact withheld
  left _ _ request same resolved := by
    simp only [promised,request,same]
    exact resolved
  yields _ _ named withheld := by
    simp only [promised,named]
    exact withheld.resolved

section Cache
variable {β : Type} [BlockHash β] {blockHash blockHash' : β} {m : EngineStepOutput}

theorem Lines.meter {context context' : ScheduleContext β} (lines : Lines ext outputs faulted s) (sound : s.Sound)
    (result : s.meter ext context m = .ok (s',context')) : Lines ext outputs faulted s' :=
  lines_iff.mpr ((lines_iff.mp lines).meter (promised_lasting ext outputs faulted) sound result)

-- A request that leaves in the fast path is still known by id.
def Leaves (outputs : List RequestStepOutput) (s : CompletionLoop) (key : RequestId) : Prop :=
  FinishedIn outputs key ∧ key ∈ s.tempLeavingEntries.map Prod.fst

theorem Written.tracked (step : Written s o s') {key : RequestId} (inside : (s.find key).isSome = true) :
    (s'.find key).isSome = true ∨ Leaves [o] s' key := by
  cases step with
  | still => exact .inl inside
  | update entry new found _ =>
    refine .inl ?_
    by_cases same : key = o.requestId
    · rw [same,find_store]
      rfl
    · rwa [find_store_ne same]
  | exit entry states ends _ _ =>
    by_cases same : key = o.requestId
    · refine .inr ⟨finishedIn_singleton.mpr ⟨ends,same.symm⟩,?_⟩
      rw [same,List.map_append]
      exact List.mem_append_right _ (List.mem_singleton_self _)
    · exact .inl (by simpa only [find,AList.lookup_erase_ne same] using inside)

theorem Written.leaving (step : Written s o s') {key : RequestId} (leaves : key ∈ s.tempLeavingEntries.map Prod.fst) :
    key ∈ s'.tempLeavingEntries.map Prod.fst := by
  cases step with
  | still => exact leaves
  | update entry new _ _ => rwa [store_leaving]
  | exit entry states _ _ _ =>
    rw [List.map_append]
    exact List.mem_append_left _ leaves

theorem Sound.meterOutputs_tracked {rest : List RequestStepOutput} (sound : s.Sound) (result : s.meterOutputs ext d rest = .ok (s',d'))
    {key : RequestId} : ((s.find key).isSome = true → (s'.find key).isSome = true ∨ Leaves rest s' key) ∧
      (key ∈ s.tempLeavingEntries.map Prod.fst → key ∈ s'.tempLeavingEntries.map Prod.fst) := by
  induction rest generalizing s d with
  | nil => cases result; exact ⟨.inl,id⟩
  | cons o rest ih =>
    cases one : s.meterOutput ext d o with
    | error panic => rw [CompletionLoop.meterOutputs,one] at result; cases result
    | ok pair =>
      rw [CompletionLoop.meterOutputs,one] at result
      have step := sound.written one
      obtain ⟨later,stays⟩ := ih ((sound.metered one).sound sound) result
      have widen : ∀ {t : CompletionLoop}, Leaves rest t key → Leaves (o::rest) t key := by
        rintro t ⟨⟨p,member,ends⟩,leaves⟩
        exact ⟨⟨p,List.mem_cons_of_mem o member,ends⟩,leaves⟩
      refine ⟨fun inside => ?_,fun leaves => stays (step.leaving leaves)⟩
      rcases step.tracked inside with there | ⟨ends,leaves⟩
      · exact (later there).imp_right widen
      · obtain ⟨ends,named⟩ := finishedIn_singleton.mp ends
        exact .inr ⟨⟨o,List.mem_cons_self,ends,named⟩,stays leaves⟩

theorem Sound.meter_tracked {context context' : ScheduleContext β} (sound : s.Sound) (result : s.meter ext context m = .ok (s',context'))
    {key : RequestId} (inside : (s.find key).isSome = true) : (s'.find key).isSome = true ∨ Leaves m.outputs s' key := by
  obtain ⟨s₁,d,fast,cache,_⟩ := meter_phases result
  have carries := carries_cacheUpdate cache
  refine ((sound.meterOutputs_tracked fast).1 inside).imp (fun there => ?_) fun ⟨ends,leaves⟩ => ⟨ends,?_⟩
  · have same := congrArg Option.isSome (carries.found key)
    rw [Option.isSome_map,Option.isSome_map] at same
    rwa [same]
  · have same := congrArg (List.map Prod.fst) carries.leaving
    rw [List.map_map,List.map_map] at same
    exact same ▸ leaves

end Cache
end BlitzRouter.CompletionLoop
