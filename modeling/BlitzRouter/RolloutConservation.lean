import BlitzRouter.InFlight
import BlitzRouter.RolloutLoop
import BlitzRouter.SimulatedStep
import BlitzRouter.SpanTiling

namespace BlitzRouter
open SchedSnapshot

def PrefillPart.span (part : PrefillPart) : RequestId × Nat × Nat := (part.rid,part.computed,part.chunk)

namespace SchedSnapshot

variable {s s' : SchedSnapshot} {parts : List PrefillPart} {rid other : RequestId} {r next : ReqProgress} {rest : List ReqProgress}

-- At most one request of the two queues goes by this id.
def Alone (s : SchedSnapshot) (rid : RequestId) : Prop := s.inFlightIds.count rid ≤ 1

structure Distinct (s : SchedSnapshot) : Prop where
  keyed : s.Keyed
  apart : s.inFlightIds.Nodup

theorem Distinct.alone (distinct : s.Distinct) (rid : RequestId) : s.Alone rid := List.nodup_iff_count_le_one.mp distinct.apart rid

theorem Alone.front (alone : s.Alone next.requestId) (front : s.waiting = next::rest) :
    next.requestId ∉ rest.map (fun r => r.requestId) ∧ s.running.lookup next.requestId = none := by
  simp only [Alone,inFlightIds,front,List.map_cons,List.cons_append,List.count_cons_self] at alone
  have outside : next.requestId ∉ rest.map (fun r => r.requestId)++s.running.keys := List.count_eq_zero.mp (by omega)
  rw [List.mem_append,not_or] at outside
  exact ⟨outside.1,AList.lookup_eq_none.mpr outside.2⟩

section Find

@[simp] theorem find_insert_same (waiting : List ReqProgress) (running : Table RequestId ReqProgress) :
    find ⟨waiting,running.insert rid r⟩ rid = some r := by simp [find]

@[simp] theorem find_insert_other (waiting : List ReqProgress) (running : Table RequestId ReqProgress) (differs : other ≠ rid) :
    find ⟨waiting,running.insert rid r⟩ other = find ⟨waiting,running⟩ other := by
  simp [find,AList.lookup_insert_ne differs]

theorem find_tail (front : s.waiting = next::rest) (differs : other ≠ next.requestId) : find ⟨rest,s.running⟩ other = s.find other := by
  have elsewhere : (next.requestId == other) = false := by simpa using differs.symm
  simp [find,front,elsewhere]

theorem Alone.find_front (alone : s.Alone next.requestId) (front : s.waiting = next::rest) : s.find next.requestId = some next := by
  simp [find,(alone.front front).2,front]

theorem find_eq_none : s.find rid = none ↔ rid ∉ s.inFlightIds := by
  rw [find,Option.or_eq_none_iff,AList.lookup_eq_none,inFlightIds,List.mem_append,not_or,and_comm]
  refine and_congr ?_ Iff.rfl
  simp

end Find

section Filled

theorem count_resume (found : s.running.lookup rid = some r) (req : ReqProgress) :
    (SchedSnapshot.mk s.waiting (s.running.insert rid req)).inFlightIds.Perm s.inFlightIds := by
  have inside : rid ∈ s.running.keys := AList.mem_keys.mp (AList.lookup_isSome.mp (by rw [found]; rfl))
  simp only [inFlightIds,AList.keys_insert]
  exact (List.perm_cons_erase inside).symm.append_left _

theorem count_pull (front : s.waiting = next::rest) (alone : s.Alone rid) (req : ReqProgress) :
    (SchedSnapshot.mk rest (s.running.insert next.requestId req)).inFlightIds.count rid = s.inFlightIds.count rid := by
  simp only [inFlightIds,front,AList.keys_insert,List.map_cons,List.cons_append,List.count_append]
  by_cases same : next.requestId = rid
  · subst same
    have outside : next.requestId ∉ s.running.keys := AList.lookup_eq_none.mp (alone.front front).2
    simp only [List.count_cons_self,List.count_append,List.erase_of_not_mem outside]
    omega
  · simp [List.count_cons_of_ne same,List.count_erase_of_ne (Ne.symm same)]

theorem Filled.count (filled : Filled s parts s') (alone : s.Alone rid) : s'.inFlightIds.count rid = s.inFlightIds.count rid := by
  induction filled with
  | nil => rfl
  | resume found _ _ _ ih =>
    have kept := fun req => (count_resume found req).count_eq rid
    exact (ih ((kept _).trans_le alone)).trans (kept _)
  | pull front _ _ _ ih =>
    have kept := count_pull front alone
    exact (ih ((kept _).trans_le alone)).trans (kept _)
  | cached front _ _ ih =>
    have kept := count_pull front alone
    exact (ih ((kept _).trans_le alone)).trans (kept _)

theorem Filled.keyed (filled : Filled s parts s') (keyed : s.Keyed) : s'.Keyed := by
  induction filled with
  | nil => exact keyed
  | resume found _ _ _ ih =>
    have own := keyed _ _ found
    exact ih (keyed.insert _ own)
  | pull _ _ _ _ ih => exact ih (keyed.insert _ rfl)
  | cached _ _ _ ih => exact ih (keyed.insert _ rfl)

-- The queue is left from its front.
theorem Filled.queue (filled : Filled s parts s') : s'.waiting <:+ s.waiting := by
  induction filled with
  | nil => exact List.suffix_rfl
  | resume _ _ _ _ ih => exact ih
  | pull front _ _ _ ih => exact ih.trans (front ▸ List.suffix_cons _ _)
  | cached front _ _ ih => exact ih.trans (front ▸ List.suffix_cons _ _)

theorem Filled.absent (filled : Filled s parts s') (absent : s.find rid = none) :
    s'.find rid = none ∧ spansOf rid (parts.map PrefillPart.span) = [] := by
  have missing : ∀ {s : SchedSnapshot} {next rest}, s.find rid = none → s.waiting = next::rest → rid ≠ next.requestId := by
    rintro s next rest absent front rfl
    simp [find,front] at absent
  induction filled with
  | nil => exact ⟨absent,rfl⟩
  | @resume s s' key req chunk parts found _ _ _ ih =>
    have differs : rid ≠ key := by
      rintro rfl
      simp [find,found] at absent
    obtain ⟨gone,none⟩ := ih (by rw [find_insert_other _ _ differs]; exact absent)
    exact ⟨gone,by rw [List.map_cons,PrefillPart.span,spansOf_other differs.symm,none]⟩
  | @pull s s' next rest chunk parts front _ _ _ ih =>
    have differs := missing absent front
    obtain ⟨gone,none⟩ := ih (by rw [find_insert_other _ _ differs,find_tail front differs]; exact absent)
    exact ⟨gone,by rw [List.map_cons,PrefillPart.span,spansOf_other differs.symm,none]⟩
  | cached front _ _ ih =>
    have differs := missing absent front
    exact ih (by rw [find_insert_other _ _ differs,find_tail front differs]; exact absent)

-- What a request gets goes on from where it stood, and it stays the same request.
theorem Filled.drains (filled : Filled s parts s') (alone : s.Alone rid) (found : s.find rid = some r) :
    ∃ r', s'.find rid = some r' ∧ r'.requestId = r.requestId ∧ r'.inputLength = r.inputLength ∧
      Drains r.inputLength r.processedTokens (spansOf rid (parts.map PrefillPart.span)) r'.processedTokens := by
  induction filled generalizing r with
  | nil => exact ⟨r,found,rfl,rfl,.nil⟩
  | @resume s s' key req chunk parts held _ fits _ ih =>
    have next := fun req => ((count_resume held req).count_eq rid).trans_le alone
    by_cases same : rid = key
    · subst same
      have here : s.find rid = some req := by simp [find,held]
      cases found.symm.trans here
      obtain ⟨r',found',id,length,drains⟩ := ih (next _) (find_insert_same _ _)
      refine ⟨r',found',id,length,?_⟩
      rw [List.map_cons,PrefillPart.span,spansOf_same]
      exact drains.cons fits
    · rw [List.map_cons,PrefillPart.span,spansOf_other (Ne.symm same)]
      exact ih (next _) (by rw [find_insert_other _ _ same]; exact found)
  | @pull s s' front rest chunk parts queue _ fits _ ih =>
    have next := fun req => (count_pull queue alone req).trans_le alone
    by_cases same : rid = front.requestId
    · subst same
      cases found.symm.trans (alone.find_front queue)
      obtain ⟨r',found',id,length,drains⟩ := ih (next _) (find_insert_same _ _)
      refine ⟨r',found',id,length,?_⟩
      rw [List.map_cons,PrefillPart.span,spansOf_same]
      exact drains.cons fits
    · rw [List.map_cons,PrefillPart.span,spansOf_other (Ne.symm same)]
      exact ih (next _) (by rw [find_insert_other _ _ same,find_tail queue same]; exact found)
  | @cached s s' front rest parts queue _ _ ih =>
    have next := fun req => (count_pull queue alone req).trans_le alone
    by_cases same : rid = front.requestId
    · subst same
      cases found.symm.trans (alone.find_front queue)
      exact ih (next _) (find_insert_same _ _)
    · exact ih (next _) (by rw [find_insert_other _ _ same,find_tail queue same]; exact found)

end Filled

section Budget
variable {budget : Int}

def granted (parts : List PrefillPart) : Nat := (parts.map fun part => part.chunk).sum

theorem granted_cons (part : PrefillPart) : granted (part::parts) = part.chunk+granted parts := by simp [granted]

theorem chunk_le (remaining : Nat) (budget : Int) : ((max (min (remaining : Int) budget) 0).toNat : Int) ≤ max budget 0 := by omega

theorem continuePrefills_frame (rids : List RequestId) (s : SchedSnapshot) (budget : Int) :
    (continuePrefills rids s budget).1.waiting = s.waiting ∧
      ((continuePrefills rids s budget).2.2.map fun part => part.rid).Sublist rids ∧
      granted (continuePrefills rids s budget).2.2+(continuePrefills rids s budget).2.1 = budget ∧
      min budget 0 ≤ (continuePrefills rids s budget).2.1 := by
  induction rids generalizing s budget with
  | nil => exact ⟨rfl,List.Sublist.refl _,by simp [continuePrefills,granted],by simp [continuePrefills]⟩
  | cons rid rest ih =>
    unfold continuePrefills
    split
    · exact ⟨rfl,List.nil_sublist _,by simp [granted],min_le_left _ _⟩
    · cases found : s.running.lookup rid with
      | none =>
        obtain ⟨waiting,listed,spent,left⟩ := ih s budget
        exact ⟨waiting,listed.cons _,spent,left⟩
      | some req =>
        simp only
        split
        · obtain ⟨waiting,listed,spent,left⟩ := ih s budget
          exact ⟨waiting,listed.cons _,spent,left⟩
        · rename_i positive _
          have fits := chunk_le req.prefillRemaining budget
          generalize (max (min (req.prefillRemaining : Int) budget) 0).toNat = chunk at *
          obtain ⟨waiting,listed,spent,left⟩ := ih
            ⟨s.waiting,s.running.insert rid {req with processedTokens := req.processedTokens+chunk}⟩ (budget-chunk)
          refine ⟨waiting,listed.cons_cons _,?_,(show min budget 0 ≤ min (budget-chunk) 0 by omega).trans left⟩
          rw [granted_cons,Nat.cast_add,add_assoc]
          exact (congrArg ((chunk : Int)+·) spent).trans (by omega)

theorem pullWaiting_frame (waiting : List ReqProgress) (running : Table RequestId ReqProgress) (budget : Int) :
    ((pullWaiting waiting running budget).2.map fun part => part.rid).Sublist (waiting.map fun r => r.requestId) ∧
      (granted (pullWaiting waiting running budget).2 : Int) ≤ max budget 0 := by
  induction waiting generalizing running budget with
  | nil => exact ⟨List.Sublist.refl _,by simp [pullWaiting,granted]⟩
  | cons next rest ih =>
    unfold pullWaiting
    split
    · exact ⟨List.nil_sublist _,by simp [granted]⟩
    · simp only
      split
      · obtain ⟨listed,spent⟩ := ih (running.insert next.requestId next) budget
        exact ⟨listed.cons _,spent⟩
      · have fits := chunk_le next.prefillRemaining budget
        generalize (max (min (next.prefillRemaining : Int) budget) 0).toNat = chunk at fits ⊢
        obtain ⟨listed,spent⟩ := ih (running.insert next.requestId {next with processedTokens := next.processedTokens+chunk}) (budget-chunk)
        refine ⟨listed.cons_cons _,?_⟩
        rw [granted_cons,Nat.cast_add]
        exact (Int.add_le_add_left spent chunk).trans (by omega)

end Budget

theorem Filled.positive (filled : Filled s parts s') : ∀ part ∈ parts, 0 < part.chunk := by
  induction filled with
  | nil => exact nofun
  | resume _ positive _ _ ih => exact List.forall_mem_cons.mpr ⟨positive,ih⟩
  | pull _ positive _ _ ih => exact List.forall_mem_cons.mpr ⟨positive,ih⟩
  | cached _ _ _ ih => exact ih

theorem Distinct.filled (distinct : s.Distinct) (filled : Filled s parts s') : s'.Distinct ∧ s'.inFlightIds.Perm s.inFlightIds := by
  have same : s'.inFlightIds.Perm s.inFlightIds := List.perm_iff_count.mpr fun rid => filled.count (distinct.alone rid)
  exact ⟨⟨filled.keyed distinct.keyed,same.nodup_iff.mpr distinct.apart⟩,same⟩

theorem Distinct.candidates (distinct : s.Distinct) :
    (s.runningPrefillers++s.waiting.map fun r => r.requestId).Nodup ∧
      (s.runningPrefillers++s.waiting.map fun r => r.requestId).Disjoint s.runningDecoders := by
  obtain ⟨queued,_,apart⟩ := List.nodup_append.mp distinct.apart
  have running : ∀ select rid, rid ∈ sortedIds (s.values.filter select) → rid ∈ s.running.keys := fun select rid member => by
    obtain ⟨r,found,_⟩ := (distinct.keyed.mem_sortedIds select rid).mp member
    exact AList.mem_keys.mp (AList.lookup_isSome.mp (by rw [found]; rfl))
  refine ⟨List.nodup_append.mpr ⟨distinct.keyed.nodup_sortedIds _,queued,?_⟩,?_⟩
  · rintro rid inside _ waits rfl
    exact apart rid waits rid (running _ rid inside) rfl
  · intro rid member decoding
    rcases List.mem_append.mp member with inside | waits
    · obtain ⟨r,found,owes⟩ := (distinct.keyed.mem_sortedIds _ rid).mp inside
      obtain ⟨r',found',done⟩ := (distinct.keyed.mem_sortedIds _ rid).mp decoding
      cases found.symm.trans found'
      rw [owes] at done
      cases done
    · exact apart rid waits rid (running _ rid decoding) rfl

end SchedSnapshot

section Slots
variable {τ : Type} {predict : BatchForPredictor → τ} {limits : StepLimits} {s s' u : SchedSnapshot} {slotIdx : Nat}
  {candidateId : RequestId} {buffer buffer' : RolloutBuffer τ} {slot : RolloutSlot τ}

-- The prefills of a slot: who, from where, how much.
def RolloutSlot.chunks (slot : RolloutSlot τ) : List (RequestId × Nat × Nat) :=
  slot.prefillRids.zip (slot.batch.numPrefillComputedTokens.zip slot.batch.numPrefillTokens)

-- What a slot is allowed, given the queues it starts from.
structure SlotLaws (limits : StepLimits) (s : SchedSnapshot) (slot : RolloutSlot τ) : Prop where
  positive : ∀ chunk ∈ slot.batch.numPrefillTokens, 0 < chunk
  budget : (slot.batch.numPrefillTokens.sum : Int) ≤ max 0 (limits.tokenBudget-slot.decodeRids.length)
  tokens : slot.batch.numPrefillTokens.length = slot.prefillRids.length
  computed : slot.batch.numPrefillComputedTokens.length = slot.prefillRids.length
  prefillsDistinct : slot.prefillRids.Nodup
  decodesDistinct : slot.decodeRids.Nodup
  disjoint : slot.prefillRids.Disjoint slot.decodeRids
  numTokens : slot.batch.numTokens = slot.batch.numPrefillTokens.sum+slot.decodeRids.length
  rounded : IsLeast {n | limits.blockSize ∣ n ∧ slot.batch.numTokens ≤ n} slot.batch.numTokensRounded
  decodes : ∀ rid, rid ∈ slot.decodeRids ↔ ∃ r, s.running.lookup rid = some r ∧ r.isPrefilling = false

theorem rounded_isLeast {block : Nat} (positive : 0 < block) (n : Nat) :
    IsLeast {m | block ∣ m ∧ n ≤ m} ((n+block-1)/block*block) := by
  refine ⟨⟨Nat.dvd_mul_left _ _,?_⟩,?_⟩
  · have rest := Nat.mod_lt (n+block-1) positive
    have whole := Nat.div_add_mod' (n+block-1) block
    omega
  · rintro m ⟨⟨k,rfl⟩,enough⟩
    rw [Nat.mul_comm block k]
    exact Nat.mul_le_mul_right block ((Nat.div_le_iff_le_mul_add_pred positive).mpr (by omega))

theorem scheduleStep_rids (s : SchedSnapshot) (limits : StepLimits) :
    ((scheduleStep limits s).2.1.map fun part => part.rid).Sublist (s.runningPrefillers++s.waiting.map fun r => r.requestId) ∧
      (granted (scheduleStep limits s).2.1 : Int) ≤ max 0 (limits.tokenBudget-(scheduleStep limits s).2.2.length) := by
  obtain ⟨waiting,running,spent,left⟩ := continuePrefills_frame s.runningPrefillers s
    (limits.tokenBudget-(s.decodeParts s.runningDecoders).length)
  unfold scheduleStep
  rcases continued : continuePrefills s.runningPrefillers s (limits.tokenBudget-(s.decodeParts s.runningDecoders).length)
    with ⟨next,budget,parts⟩
  rw [continued] at waiting running spent left
  dsimp only at waiting running spent left ⊢
  rw [continued]
  obtain ⟨queued,more⟩ := pullWaiting_frame next.waiting next.running budget
  rw [waiting] at queued more ⊢
  refine ⟨?_,?_⟩
  · rw [List.map_append]
    exact running.append queued
  · simp only [granted,List.map_append,List.sum_append,Nat.cast_add] at spent more ⊢
    omega

theorem chunks_of_parts (prefills : List PrefillPart) (decodes : List DecodePart) (lat : τ) :
    (RolloutSlot.mk (batchOf limits prefills decodes) lat (prefills.map fun p => p.rid) (decodes.map fun d => d.rid)).chunks =
      prefills.map PrefillPart.span := by
  simp only [RolloutSlot.chunks,batchOf,List.zip_map']
  rfl

-- A turn of the loop, with a slot or without: what the queues gave is what the slot says.
theorem simulateOneSlot_parts {out : Option (RolloutSlot τ)}
    (result : simulateOneSlot predict limits s slotIdx candidateId buffer = (s',buffer',out)) :
    Filled s (scheduleStep limits s).2.1 s' ∧ (out = none → (scheduleStep limits s).2.1 = []) ∧
      ∀ slot, out = some slot → ∃ lat, slot = ⟨batchOf limits (scheduleStep limits s).2.1 (s.decodeParts s.runningDecoders),lat,
        (scheduleStep limits s).2.1.map fun p => p.rid,(s.decodeParts s.runningDecoders).map fun d => d.rid⟩ := by
  obtain ⟨filled,decodes⟩ := scheduleStep_filled limits s
  unfold simulateOneSlot at result
  rcases scheduled : scheduleStep limits s with ⟨next,prefills,work⟩
  rw [scheduled] at result filled decodes
  dsimp only at result filled decodes ⊢
  subst decodes
  split at result
  · rename_i quiet
    cases result
    rw [Bool.and_eq_true,List.isEmpty_iff] at quiet
    exact ⟨filled,fun _ => quiet.1,nofun⟩
  · cases result
    refine ⟨filled,nofun,fun slot same => ?_⟩
    cases same
    exact ⟨_,rfl⟩

theorem slotLaws (distinct : s.Distinct) (result : simulateOneSlot predict limits s slotIdx candidateId buffer = (s',buffer',some slot)) :
    SlotLaws limits s slot ∧ slot.chunks = (scheduleStep limits s).2.1.map PrefillPart.span := by
  obtain ⟨filled,_,shape⟩ := simulateOneSlot_parts result
  obtain ⟨lat,rfl⟩ := shape slot rfl
  obtain ⟨nodup,disjoint⟩ := distinct.candidates
  obtain ⟨listed,spent⟩ := scheduleStep_rids s limits
  have decoders := distinct.keyed.decode_rids
  refine ⟨?_,chunks_of_parts _ _ _⟩
  refine ⟨?_,?_,?_,?_,nodup.sublist listed,?_,?_,?_,rounded_isLeast limits.blockPositive _,fun rid => ?_⟩
  · intro chunk member
    obtain ⟨part,inside,rfl⟩ := List.mem_map.mp member
    exact filled.positive part inside
  · rw [List.length_map]
    exact spent
  · simp [batchOf]
  · simp [batchOf]
  · rw [decoders]
    exact distinct.keyed.nodup_sortedIds _
  · rw [decoders]
    exact fun rid member => disjoint (listed.subset member)
  · simp [batchOf]
  · rw [decoders]
    have chosen := distinct.keyed.mem_sortedIds (fun r => !r.isPrefilling) rid
    simpa only [runningDecoders,Bool.not_eq_true'] using chosen

-- Turn after turn of the loop: each slot with the queues it starts from.
inductive Simulated (predict : BatchForPredictor → τ) (limits : StepLimits) :
    SchedSnapshot → List (SchedSnapshot × RolloutSlot τ) → SchedSnapshot → Prop where
  | stop {s : SchedSnapshot} : Simulated predict limits s [] s
  | slot {s u s' : SchedSnapshot} {slotIdx : Nat} {candidateId : RequestId} {buffer buffer' : RolloutBuffer τ} {slot : RolloutSlot τ}
      {turns : List (SchedSnapshot × RolloutSlot τ)} :
      simulateOneSlot predict limits s slotIdx candidateId buffer = (u,buffer',some slot) →
      Simulated predict limits u turns s' → Simulated predict limits s ((s,slot)::turns) s'
  | idle {s u s' : SchedSnapshot} {slotIdx : Nat} {candidateId : RequestId} {buffer buffer' : RolloutBuffer τ}
      {turns : List (SchedSnapshot × RolloutSlot τ)} :
      simulateOneSlot predict limits s slotIdx candidateId buffer = (u,buffer',none) →
      Simulated predict limits u turns s' → Simulated predict limits s turns s'

theorem scheduleLoop_simulated (predict : BatchForPredictor → τ) (limits : StepLimits) (candidateId : RequestId) (free : Nat)
    (s : SchedSnapshot) (buffer : RolloutBuffer τ) :
    ∃ turns, Simulated predict limits s turns (scheduleLoop predict limits candidateId free s buffer).2 ∧
      (scheduleLoop predict limits candidateId free s buffer).1.slots = buffer.slots++turns.map Prod.snd := by
  induction free generalizing s buffer with
  | zero => exact ⟨[],.stop,(List.append_nil _).symm⟩
  | succ free ih =>
    unfold scheduleLoop
    split
    · rename_i u v step
      rw [simulateOneSlot_stopped step]
      exact ⟨[],.idle step .stop,(List.append_nil _).symm⟩
    · rename_i u v slot step
      obtain ⟨_,_,_,_,_,_,kept⟩ := simulateOneSlot_some step
      simp only
      split
      · exact ⟨[(s,slot)],.slot step .stop,by rw [kept]; rfl⟩
      · obtain ⟨turns,run,slots⟩ := ih u {v with slots := v.slots++[slot]}
        exact ⟨(s,slot)::turns,.slot step run,by rw [slots,kept]; simp⟩

def chunksOf (rid : RequestId) (turns : List (SchedSnapshot × RolloutSlot τ)) : List (Nat × Nat) :=
  spansOf rid (turns.flatMap fun turn => turn.2.chunks)

-- What holds over all slots of a rollout.
structure Conserved (limits : StepLimits) (s : SchedSnapshot) (turns : List (SchedSnapshot × RolloutSlot τ)) (s' : SchedSnapshot) : Prop where
  laws : ∀ turn ∈ turns, SlotLaws limits turn.1 turn.2
  contiguous : ∀ rid r, s.find rid = some r → ∃ r', s'.find rid = some r' ∧ r'.requestId = r.requestId ∧
    r'.inputLength = r.inputLength ∧ Drains r.inputLength r.processedTokens (chunksOf rid turns) r'.processedTokens
  foreign : ∀ rid, s.find rid = none → chunksOf rid turns = []
  queue : s'.waiting <:+ s.waiting
  ids : s'.inFlightIds.Perm s.inFlightIds
  keyed : s'.Keyed

theorem Conserved.turn {turns : List (SchedSnapshot × RolloutSlot τ)} {parts : List PrefillPart} (distinct : s.Distinct)
    (filled : Filled s parts u) (conserved : Conserved limits u turns s') :
    (∀ rid r, s.find rid = some r → ∃ r', s'.find rid = some r' ∧ r'.requestId = r.requestId ∧ r'.inputLength = r.inputLength ∧
        Drains r.inputLength r.processedTokens (spansOf rid (parts.map PrefillPart.span)++chunksOf rid turns) r'.processedTokens) ∧
      (∀ rid, s.find rid = none → spansOf rid (parts.map PrefillPart.span)++chunksOf rid turns = []) ∧
      s'.waiting <:+ s.waiting ∧ s'.inFlightIds.Perm s.inFlightIds := by
  refine ⟨fun rid r found => ?_,fun rid absent => ?_,conserved.queue.trans filled.queue,conserved.ids.trans (distinct.filled filled).2⟩
  · obtain ⟨r₁,found₁,id₁,length₁,drains₁⟩ := filled.drains (distinct.alone rid) found
    obtain ⟨r₂,found₂,id₂,length₂,drains₂⟩ := conserved.contiguous rid r₁ found₁
    rw [length₁] at drains₂
    exact ⟨r₂,found₂,id₂.trans id₁,length₂.trans length₁,drains₁.trans drains₂⟩
  · obtain ⟨absent₁,none₁⟩ := filled.absent absent
    rw [none₁,conserved.foreign rid absent₁]
    rfl

-- Induction on the turns; each slot is one filling of its queues.
theorem Simulated.conserves {turns : List (SchedSnapshot × RolloutSlot τ)} (run : Simulated predict limits s turns s')
    (distinct : s.Distinct) : Conserved limits s turns s' := by
  induction run with
  | stop =>
    exact ⟨nofun,fun rid r found => ⟨r,found,rfl,rfl,.nil⟩,fun _ _ => rfl,List.suffix_rfl,List.Perm.refl _,distinct.keyed⟩
  | @slot s u s' _ _ _ _ slot turns step run ih =>
    obtain ⟨filled,_,_⟩ := simulateOneSlot_parts step
    obtain ⟨laws,chunks⟩ := slotLaws distinct step
    have later := ih (distinct.filled filled).1
    obtain ⟨contiguous,foreign,queue,ids⟩ := later.turn distinct filled
    have joined : ∀ rid, chunksOf rid ((s,slot)::turns) =
        spansOf rid ((scheduleStep limits s).2.1.map PrefillPart.span)++chunksOf rid turns := fun rid => by
      simp [chunksOf,chunks]
    refine ⟨List.forall_mem_cons.mpr ⟨laws,later.laws⟩,?_,?_,queue,ids,later.keyed⟩
    · simpa only [joined] using contiguous
    · simpa only [joined] using foreign
  | idle step run ih =>
    obtain ⟨filled,nothing,_⟩ := simulateOneSlot_parts step
    rw [nothing rfl] at filled
    have later := ih (distinct.filled filled).1
    obtain ⟨contiguous,foreign,queue,ids⟩ := later.turn distinct filled
    exact ⟨later.laws,contiguous,foreign,queue,ids,later.keyed⟩

theorem rollout_conserves (predict : BatchForPredictor → τ) (limits : StepLimits) (s : SchedSnapshot) (distinct : s.Distinct) :
    (∀ turns s', Simulated predict limits s turns s' → Conserved limits s turns s') ∧
      ∀ candidateId free buffer, ∃ turns, Simulated predict limits s turns (scheduleLoop predict limits candidateId free s buffer).2 ∧
        (scheduleLoop predict limits candidateId free s buffer).1.slots = buffer.slots++turns.map Prod.snd :=
  ⟨fun _ _ run => run.conserves distinct,fun candidateId free buffer => scheduleLoop_simulated predict limits candidateId free s buffer⟩

theorem mixed_distinct : mixedSnapshot.Distinct := ⟨mixed_valid.keyed,by decide⟩

theorem rollout_conserves_mixed :
    ∃ turns : List (SchedSnapshot × RolloutSlot Nat), Conserved (StepLimits.new 16 5) mixedSnapshot turns (scheduleLoop (fun b => b.numTokens) (StepLimits.new 16 5) 7 6
        mixedSnapshot ⟨none,[],none,none,none⟩).2 ∧ chunksOf 7 turns = [(0,2),(2,3),(5,3),(8,3),(11,3)] := by
  obtain ⟨conserved,loop⟩ := rollout_conserves (fun b => b.numTokens) (StepLimits.new 16 5) mixedSnapshot mixed_distinct
  obtain ⟨turns,run,slots⟩ := loop 7 6 ⟨none,[],none,none,none⟩
  refine ⟨turns,conserved turns _ run,?_⟩
  have chunks : chunksOf 7 turns = spansOf 7 ((turns.map Prod.snd).flatMap RolloutSlot.chunks) := by simp [chunksOf,List.flatMap_map]
  rw [chunks,← List.nil_append (turns.map Prod.snd),← slots]
  decide

end Slots
end BlitzRouter
