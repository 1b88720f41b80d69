import BlitzRouter.ScheduleStep

namespace BlitzRouter
open SchedSnapshot

variable {τ : Type} {predict : BatchForPredictor → τ} {limits : StepLimits} {s s' : SchedSnapshot} {slotIdx free : Nat}
  {candidateId : RequestId} {buffer buffer' : RolloutBuffer τ}

namespace SchedSnapshot

-- Nothing runs, and what waits owes no prefill.
def Idle (s : SchedSnapshot) : Prop := s.values = [] ∧ ∀ r ∈ s.waiting, r.isPrefilling = false

theorem pullWaiting_none {waiting : List ReqProgress} (running : Table RequestId ReqProgress) {budget : Int} (some_ : 0 < budget) :
    (pullWaiting waiting running budget).2 = [] ↔ ∀ r ∈ waiting, r.isPrefilling = false := by
  induction waiting generalizing running budget with
  | nil => simp [pullWaiting]
  | cons next rest ih =>
    have positive : ¬budget ≤ 0 := by omega
    unfold pullWaiting
    simp only [positive,if_false]
    split
    · rename_i none
      have nothing := (chunk_spec some_).2 none
      have owes : next.isPrefilling = false := by
        simp only [ReqProgress.isPrefilling,ReqProgress.prefillRemaining,decide_eq_false_iff_not] at nothing ⊢
        omega
      rw [ih _ some_]
      simp [owes]
    · rename_i taken
      have owes : next.isPrefilling = true := by
        simp only [ReqProgress.isPrefilling,ReqProgress.prefillRemaining,decide_eq_true_eq] at taken ⊢
        omega
      simp [owes]

theorem continuePrefills_cons {rid : RequestId} {rest : List RequestId} {req : ReqProgress} {budget : Int} (some_ : 0 < budget)
    (found : s.running.lookup rid = some req) (owes : req.isPrefilling = true) : (continuePrefills (rid::rest) s budget).2.2 ≠ [] := by
  have positive : ¬budget ≤ 0 := by omega
  have taken : (max (min (req.prefillRemaining : Int) budget) 0).toNat ≠ 0 := by
    simp only [ReqProgress.isPrefilling,ReqProgress.prefillRemaining,decide_eq_true_eq] at owes ⊢
    omega
  unfold continuePrefills
  simp [positive,found,taken]

-- A step schedules nothing exactly on an idle snapshot: the budget is at least one.
theorem Keyed.scheduleStep_none (keyed : s.Keyed) (limits : StepLimits) :
    ((scheduleStep limits s).2.1 = [] ∧ (scheduleStep limits s).2.2 = []) ↔ s.Idle := by
  have budget := limits.budgetPositive
  have split_ : (scheduleStep limits s).2.2 = s.decodeParts s.runningDecoders := rfl
  constructor
  · rintro ⟨none,still⟩
    rw [split_] at still
    have quiet : s.runningDecoders = [] := by
      rw [← keyed.decode_rids,still]
      rfl
    simp only [scheduleStep,quiet,decodeParts,List.filterMap_nil,List.length_nil,Nat.cast_zero,Int.sub_zero,List.append_eq_nil_iff] at none
    have stopped : s.runningPrefillers = [] := by
      cases ids : s.runningPrefillers with
      | nil => rfl
      | cons rid rest =>
        have member : rid ∈ s.runningPrefillers := ids ▸ List.mem_cons_self
        obtain ⟨req,found,owes⟩ := (keyed.mem_sortedIds _ _).mp member
        rw [ids] at none
        exact absurd none.1 (continuePrefills_cons (by omega) found owes)
    have bare : s.values = [] := by
      apply List.eq_nil_iff_forall_not_mem.mpr
      intro r member
      obtain ⟨rid,found⟩ := mem_values.mp member
      cases owes : r.isPrefilling with
      | true =>
        have listed : rid ∈ s.runningPrefillers := (keyed.mem_sortedIds _ _).mpr ⟨r,found,owes⟩
        rw [stopped] at listed
        cases listed
      | false =>
        have listed : rid ∈ s.runningDecoders := (keyed.mem_sortedIds _ _).mpr ⟨r,found,by simp [owes]⟩
        rw [quiet] at listed
        cases listed
    simp only [stopped,continuePrefills] at none
    exact ⟨bare,(pullWaiting_none _ (by omega)).mp none.2⟩
  · rintro ⟨bare,cached⟩
    have quiet : s.runningDecoders = [] := by simp [runningDecoders,bare,sortedIds]
    have stopped : s.runningPrefillers = [] := by simp [runningPrefillers,bare,sortedIds]
    have rest : (pullWaiting s.waiting s.running (limits.tokenBudget : Int)).2 = [] := (pullWaiting_none s.running (by omega)).mpr cached
    simp [scheduleStep,quiet,stopped,decodeParts,continuePrefills,rest]

end SchedSnapshot

theorem simulateOneSlot_stopped (result : simulateOneSlot predict limits s slotIdx candidateId buffer = (s',buffer',none)) :
    buffer' = buffer := by
  unfold simulateOneSlot at result
  split at result
  split at result
  · cases result
    rfl
  · cases result

section Loop
variable (predict limits candidateId)

theorem simulateOneSlot_none (keyed : s.Keyed) (slotIdx : Nat) (buffer : RolloutBuffer τ) :
    (simulateOneSlot predict limits s slotIdx candidateId buffer).2.2 = none ↔ s.Idle := by
  rw [← keyed.scheduleStep_none limits]
  unfold simulateOneSlot
  simp only [Bool.and_eq_true,List.isEmpty_iff]
  split
  · rename_i idle
    exact ⟨fun _ => idle,fun _ => rfl⟩
  · rename_i busy
    exact iff_of_false (Option.some_ne_none _) busy

-- The loop only adds slots, and each has a composition.
theorem scheduleLoop_slots (free : Nat) (s : SchedSnapshot) (buffer : RolloutBuffer τ) :
    ∃ more, (scheduleLoop predict limits candidateId free s buffer).1.slots = buffer.slots++more ∧
      ∀ slot ∈ more, slot.compositionKnown = true := by
  induction free generalizing s buffer with
  | zero => exact ⟨[],(List.append_nil _).symm,fun slot member => absurd member List.not_mem_nil⟩
  | succ free ih =>
    unfold scheduleLoop
    split
    · rename_i u v step
      rw [simulateOneSlot_stopped step]
      exact ⟨[],(List.append_nil _).symm,fun slot member => absurd member List.not_mem_nil⟩
    · rename_i u v slot step
      obtain ⟨_,_,_,_,known,_,kept⟩ := simulateOneSlot_some step
      simp only
      split
      · exact ⟨[slot],by rw [kept],by simpa using known⟩
      · obtain ⟨more,slots,all⟩ := ih u {v with slots := v.slots++[slot]}
        refine ⟨slot::more,by rw [slots,kept]; simp,fun other member => ?_⟩
        rcases List.mem_cons.mp member with rfl | later
        · exact known
        · exact all other later

theorem scheduleLoop_nonempty (keyed : s.Keyed) (free : Nat) {buffer : RolloutBuffer τ} (bare : buffer.slots = []) :
    (scheduleLoop predict limits candidateId (free+1) s buffer).1.slots ≠ [] ↔ ¬s.Idle := by
  rw [← simulateOneSlot_none predict limits candidateId keyed buffer.slots.length buffer]
  unfold scheduleLoop
  split
  · rename_i u v step
    rw [step,simulateOneSlot_stopped step]
    simp [bare]
  · rename_i u v slot step
    rw [step]
    simp only [reduceCtorEq,not_false_eq_true,iff_true]
    split
    · simp
    · obtain ⟨more,slots,_⟩ := scheduleLoop_slots predict limits candidateId free u {v with slots := v.slots++[slot]}
      rw [slots]
      simp

end Loop
end BlitzRouter
