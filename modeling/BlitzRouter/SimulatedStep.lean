import BlitzRouter.ScheduleStep

namespace BlitzRouter
open SchedSnapshot

variable {τ : Type} {predict : BatchForPredictor → τ} {limits : StepLimits} {s s' : SchedSnapshot} {slotIdx : Nat}
  {candidateId rid : RequestId} {buffer buffer' : RolloutBuffer τ} {slot : RolloutSlot τ} {m : EngineStepOutput}

namespace SchedSnapshot

-- Ids are not shared, and the counts are u32.
structure Valid (s : SchedSnapshot) : Prop where
  keyed : s.Keyed
  distinct : (s.waiting.map fun r => r.requestId).Nodup
  apart : ∀ r ∈ s.waiting, s.running.lookup r.requestId = none
  small : ∀ r, (r ∈ s.waiting ∨ ∃ rid, s.running.lookup rid = some r) → r.inputLength < u32Size ∧ r.processedTokens < u32Size

def find (s : SchedSnapshot) (rid : RequestId) : Option ReqProgress :=
  (s.running.lookup rid).or (s.waiting.find? fun r => r.requestId == rid)

def SameProgress (s s' : SchedSnapshot) : Prop :=
  s.waiting = s'.waiting ∧
    ∀ rid, (s.running.lookup rid).map (fun r => r.processedTokens) = (s'.running.lookup rid).map fun r => r.processedTokens

end SchedSnapshot

-- The engine step with exactly the composition of the slot.
structure Reports (s : SchedSnapshot) (slot : RolloutSlot τ) (m : EngineStepOutput) : Prop where
  composition : (m.outputs.map fun o => (o.requestId,o.state)).Perm
    (slot.prefillRids.map (fun rid => (rid,.prefill))++slot.decodeRids.map fun rid => (rid,.decode))
  computed : ∀ o ∈ m.outputs, o.state = .prefill → ∀ r, s.find o.requestId = some r → o.prevComputedTokens = r.processedTokens
  tokens : m.prefillTokens = slot.batch.numPrefillTokens.sum
  unfinished : ∀ o ∈ m.outputs, o.isFinished = false
  unpreempted : m.preemptedIds = []
  unaborted : m.abortedRequests = []

def ReqProgress.decoded (r : ReqProgress) : ReqProgress := {r with processedTokens := min (r.processedTokens+1) (u32Size-1)}

theorem ReqProgress.decoded_same {r : ReqProgress} (small : r.processedTokens < u32Size) :
    r.decoded.processedTokens = r.processedTokens ↔ r.processedTokens = u32Size-1 := by
  change min (r.processedTokens+1) (u32Size-1) = r.processedTokens ↔ _
  omega

theorem ReqProgress.owed_some {r : ReqProgress} (owes : r.isPrefilling = true) : r.prefillRemaining ≠ 0 := by
  simp only [ReqProgress.isPrefilling,ReqProgress.prefillRemaining,decide_eq_true_eq] at owes ⊢
  omega

namespace SchedSnapshot

theorem lookup_update (change : ReqProgress → ReqProgress) (other : RequestId) :
    (s.update rid change).running.lookup other = if other = rid then (s.running.lookup rid).map change else s.running.lookup other := by
  unfold update
  cases found : s.running.lookup rid with
  | none =>
    simp only [Option.map_none]
    split
    · rename_i same
      rw [same,found]
    · rfl
  | some req =>
    simp only [Option.map_some]
    split
    · rename_i same
      rw [same]
      exact AList.lookup_insert _
    · rename_i differs
      exact AList.lookup_insert_ne differs

theorem waiting_update (change : ReqProgress → ReqProgress) : (s.update rid change).waiting = s.waiting := by
  unfold update
  split <;> rfl

-- Decodes of running requests, in any order, with nothing else between them.
theorem foldl_decodes (s : SchedSnapshot) (perChunk remainder seen : Nat) {outputs : List RequestStepOutput} {rids : List RequestId}
    (listed : (outputs.map fun o => (o.requestId,o.state)) = rids.map fun rid => (rid,.decode)) (distinct : rids.Nodup)
    (unfinished : ∀ o ∈ outputs, o.isFinished = false) (running : ∀ rid ∈ rids, (s.running.lookup rid).isSome) :
    ∃ s', outputs.foldl (syncOutput perChunk remainder) (s,seen) = (s',seen) ∧ s'.waiting = s.waiting ∧
      ∀ rid, s'.running.lookup rid = if rid ∈ rids then (s.running.lookup rid).map ReqProgress.decoded else s.running.lookup rid := by
  induction outputs generalizing s rids with
  | nil =>
    cases rids with
    | nil => exact ⟨s,rfl,rfl,fun rid => by simp⟩
    | cons rid rest => cases listed
  | cons o outputs ih =>
    cases rids with
    | nil => cases listed
    | cons rid rest =>
      simp only [List.map_cons,List.cons.injEq,Prod.mk.injEq] at listed
      obtain ⟨⟨rfl,state⟩,listed⟩ := listed
      have fresh := List.nodup_cons.mp distinct
      have here := running o.requestId List.mem_cons_self
      have step : syncOutput perChunk remainder (s,seen) o = (s.update o.requestId ReqProgress.decoded,seen) := by
        have decodes : o.decodes = true := by simp [RequestStepOutput.decodes,state]
        simp only [syncOutput,state,reduceCtorEq,if_false,decodes,if_true,unfinished o List.mem_cons_self,Bool.false_eq_true,
          absorbDecode,here]
        rfl
      obtain ⟨s',folded,waiting,lookups⟩ := ih (s := s.update o.requestId ReqProgress.decoded) listed fresh.2
        (fun other member => unfinished other (List.mem_cons_of_mem _ member)) fun other member => by
          rw [lookup_update]
          have differs : other ≠ o.requestId := fun same => fresh.1 (same ▸ member)
          rw [if_neg differs]
          exact running other (List.mem_cons_of_mem _ member)
      refine ⟨s',by rw [List.foldl_cons,step,folded],waiting.trans (waiting_update _),fun other => ?_⟩
      rw [lookups,lookup_update]
      by_cases same : other = o.requestId
      · subst same
        simp [fresh.1]
      · simp [same,List.mem_cons]

theorem Filled.unchanged (filled : Filled s [] s') (owing : ∀ r ∈ s.waiting, r.isPrefilling = true) : s' = s := by
  cases filled with
  | nil => rfl
  | cached front nothing _ =>
    exact absurd nothing (ReqProgress.owed_some (owing _ (front ▸ List.mem_cons_self)))

-- One part: the request it belongs to still owed prefill, and nothing else moved.
theorem Filled.single {part : PrefillPart} (filled : Filled s [part] s') (valid : s.Valid)
    (owing : ∀ r ∈ s.waiting, r.isPrefilling = true) :
    (∃ r, s.find part.rid = some r ∧ part.computed = r.processedTokens ∧ r.isPrefilling = true) ∧
      ∀ other, other ≠ part.rid → s'.running.lookup other = s.running.lookup other := by
  cases filled with
  | resume found positive fits rest =>
    rename_i rid req chunk
    obtain rfl := rest.unchanged owing
    refine ⟨⟨req,by simp [find,found],rfl,?_⟩,fun other differs => AList.lookup_insert_ne differs⟩
    simp only [ReqProgress.isPrefilling,ReqProgress.prefillRemaining,decide_eq_true_eq] at fits ⊢
    omega
  | pull front positive fits rest =>
    rename_i next queue chunk
    obtain rfl := rest.unchanged fun r member => owing r (front ▸ List.mem_cons_of_mem _ member)
    have member : next ∈ s.waiting := front ▸ List.mem_cons_self
    refine ⟨⟨next,?_,rfl,owing next member⟩,fun other differs => AList.lookup_insert_ne differs⟩
    simp [find,valid.apart next member,front]
  | cached front nothing _ =>
    exact absurd nothing (ReqProgress.owed_some (owing _ (front ▸ List.mem_cons_self)))

-- The one prefill of the step moves on as the simulation moved it.
theorem absorbPrefill_part (o : RequestStepOutput) (chunk : Nat) (base : SchedSnapshot) {part : PrefillPart} (valid : s.Valid)
    (owing : ∀ r ∈ s.waiting, r.isPrefilling = true) (filled : Filled s [part] s') (here : o.requestId = part.rid)
    (computed : o.prevComputedTokens = part.computed) (tokens : chunk = part.chunk) (waiting : base.waiting = s.waiting)
    (running : base.running.lookup part.rid = s.running.lookup part.rid) :
    (base.absorbPrefill o chunk).waiting = s'.waiting ∧ ∀ rid, (base.absorbPrefill o chunk).running.lookup rid =
      if rid = part.rid then s'.running.lookup rid else base.running.lookup rid := by
  have sum : ∀ req : ReqProgress, req.inputLength < u32Size → part.computed = req.processedTokens → part.chunk ≤ req.prefillRemaining →
      0 < part.chunk → min ((o.prevComputedTokens+chunk%u32Size)%u32Size) (max req.inputLength 1) = req.processedTokens+part.chunk := by
    intro req small equal fits positive
    rw [ReqProgress.prefillRemaining] at fits
    rw [computed,tokens,equal,Nat.mod_eq_of_lt (show part.chunk < u32Size by omega),Nat.mod_eq_of_lt (by omega)]
    omega
  cases filled with
  | resume found positive fits rest =>
    rename_i rid req chunk'
    obtain rfl := rest.unchanged owing
    have present : base.running.lookup o.requestId = some req := by rw [here]; exact running.trans found
    have small := (valid.small req (.inr ⟨rid,found⟩)).1
    have amount := sum req small rfl fits positive
    simp only [absorbPrefill,present,Option.isSome_some,if_true]
    refine ⟨(waiting_update _).trans waiting,fun other => ?_⟩
    rw [lookup_update,here]
    split
    · rename_i same
      subst same
      rw [here] at present
      simp only [present,Option.map_some,amount,AList.lookup_insert]
    · rfl
  | pull front positive fits rest =>
    rename_i next queue chunk'
    obtain rfl := rest.unchanged fun r member => owing r (front ▸ List.mem_cons_of_mem _ member)
    have member : next ∈ s.waiting := front ▸ List.mem_cons_self
    have absent : base.running.lookup o.requestId = none := by rw [here,running]; exact valid.apart next member
    have small := (valid.small next (.inl member)).1
    have amount := sum next small rfl fits positive
    have promoted : base.promoteToRunning o.requestId = ⟨queue,base.running.insert next.requestId next⟩ := by
      have same : (next.requestId == o.requestId) = true := by rw [here]; exact beq_self_eq_true _
      simp only [promoteToRunning,waiting,front,List.find?_cons,same,List.eraseP_cons,cond_true]
      rw [here]
    simp only [absorbPrefill,absent,Option.isSome_none,Bool.false_eq_true,if_false,promoted]
    refine ⟨waiting_update _,fun other => ?_⟩
    rw [lookup_update,here]
    split
    · rename_i same
      subst same
      simp only [AList.lookup_insert,Option.map_some,amount]
    · rename_i differs
      exact AList.lookup_insert_ne differs
  | cached front nothing _ =>
    exact absurd nothing (ReqProgress.owed_some (owing _ (front ▸ List.mem_cons_self)))

theorem decode_listed {outputs : List RequestStepOutput} {rids : List RequestId}
    (composition : (outputs.map fun o => (o.requestId,o.state)).Perm (rids.map fun rid => (rid,SseState.decode))) :
    (outputs.map fun o => (o.requestId,o.state)) = (outputs.map fun o => o.requestId).map (fun rid => (rid,.decode)) ∧
      (outputs.map fun o => o.requestId).Perm rids := by
  constructor
  · rw [List.map_map]
    apply List.map_congr_left
    intro o member
    have listed := composition.mem_iff.mp (List.mem_map_of_mem (f := fun o : RequestStepOutput => (o.requestId,o.state)) member)
    obtain ⟨rid,_,equal⟩ := List.mem_map.mp listed
    exact Prod.ext rfl (congrArg Prod.snd equal).symm
  · have ids := composition.map Prod.fst
    rw [List.map_map,List.map_map] at ids
    simpa [Function.comp_def] using ids

theorem no_prefill {outputs : List RequestStepOutput}
    (listed : (outputs.map fun o => (o.requestId,o.state)) = (outputs.map fun o => o.requestId).map fun rid => (rid,.decode)) :
    (outputs.filter fun o => o.state = .prefill) = [] := by
  rw [List.filter_eq_nil_iff]
  intro o member
  rw [List.map_map] at listed
  have same := congrArg Prod.snd (List.map_inj_left.mp listed o member)
  simp only [Function.comp_apply] at same
  simp [same]

theorem sync_of_fold {perChunk remainder seen : Nat} (none : m.preemptedIds = []) (still : m.abortedRequests = [])
    (split_ : (if (m.outputs.filter fun o => o.state = .prefill).length > 0 then
      (m.prefillTokens/(m.outputs.filter fun o => o.state = .prefill).length,
        m.prefillTokens%(m.outputs.filter fun o => o.state = .prefill).length) else (0,0)) = (perChunk,remainder))
    (folded : m.outputs.foldl (syncOutput perChunk remainder) (s,0) = (s',seen)) : s.sync m = s' := by
  simp only [sync,split_,folded,none,still,List.foldl_nil]

end SchedSnapshot

theorem simulated_decodes (valid : s.Valid) (owing : ∀ r ∈ s.waiting, r.isPrefilling = true)
    (simulated : simulateOneSlot predict limits s slotIdx candidateId buffer = (s',buffer',some slot))
    (single : slot.prefillRids.length ≤ 1) (rid : RequestId) :
    (rid ∈ slot.decodeRids ↔ ∃ r, s.running.lookup rid = some r ∧ r.isPrefilling = false) ∧
      (rid ∈ slot.decodeRids → s'.running.lookup rid = s.running.lookup rid) := by
  obtain ⟨parts,filled,prefills,decodes,_,_,_⟩ := simulateOneSlot_some simulated
  rw [valid.keyed.decode_rids] at decodes
  have listed : rid ∈ slot.decodeRids ↔ ∃ r, s.running.lookup rid = some r ∧ r.isPrefilling = false := by
    rw [decodes]
    have chosen := valid.keyed.mem_sortedIds (fun r => !r.isPrefilling) rid
    simpa only [runningDecoders,Bool.not_eq_true'] using chosen
  refine ⟨listed,fun member => ?_⟩
  obtain ⟨r,found,done⟩ := listed.mp member
  rw [prefills] at single
  match parts,filled,single with
  | [],filled,_ => rw [filled.unchanged owing]
  | [part],filled,_ =>
    obtain ⟨⟨other,held,_,owes⟩,kept⟩ := filled.single valid owing
    apply kept
    rintro rfl
    simp only [find,found,Option.some_or,Option.some.injEq] at held
    rw [held,owes] at done
    cases done
  | _::_::_,_,single => simp at single

-- Absorbing the step gives the simulated state with every decode one token further.
theorem sync_reported (valid : s.Valid) (owing : ∀ r ∈ s.waiting, r.isPrefilling = true)
    (simulated : simulateOneSlot predict limits s slotIdx candidateId buffer = (s',buffer',some slot))
    (single : slot.prefillRids.length ≤ 1) (reports : Reports s slot m) :
    (s.sync m).waiting = s'.waiting ∧ ∀ rid, (s.sync m).running.lookup rid =
      if rid ∈ slot.decodeRids then (s'.running.lookup rid).map ReqProgress.decoded else s'.running.lookup rid := by
  obtain ⟨parts,filled,prefills,decodes,_,chunks,_⟩ := simulateOneSlot_some simulated
  rw [valid.keyed.decode_rids] at decodes
  have composition := reports.composition
  rw [prefills] at single composition
  have distinct : slot.decodeRids.Nodup := decodes ▸ valid.keyed.nodup_sortedIds _
  have decoding : ∀ rid ∈ slot.decodeRids, ∃ r, s.running.lookup rid = some r ∧ r.isPrefilling = false := fun rid member => by
    obtain ⟨r,found,done⟩ := (valid.keyed.mem_sortedIds _ _).mp (decodes ▸ member)
    exact ⟨r,found,by simpa using done⟩
  match parts,filled,composition,chunks,single with
  | [],filled,composition,_,_ =>
    obtain rfl := filled.unchanged owing
    obtain ⟨listed,perm⟩ := decode_listed composition
    obtain ⟨last,folded,waiting,lookups⟩ := foldl_decodes s' 0 0 0 listed
      (perm.nodup_iff.mpr distinct) reports.unfinished fun rid member => by
        obtain ⟨r,found,_⟩ := decoding rid (perm.mem_iff.mp member)
        rw [found]
        rfl
    rw [sync_of_fold reports.unpreempted reports.unaborted (by rw [no_prefill listed]; rfl) folded]
    refine ⟨waiting,fun rid => ?_⟩
    simp only [lookups,perm.mem_iff]
  | [part],filled,composition,chunks,_ =>
    obtain ⟨⟨r,held,computed,owes⟩,kept⟩ := filled.single valid owing
    have apart : part.rid ∉ slot.decodeRids := fun member => by
      obtain ⟨other,found,done⟩ := decoding part.rid member
      simp only [find,found,Option.some_or,Option.some.injEq] at held
      rw [held,owes] at done
      cases done
    -- the PREFILL output stands somewhere among the decodes
    obtain ⟨o,member,equal⟩ := List.mem_map.mp (composition.mem_iff.mpr List.mem_cons_self)
    simp only [Prod.mk.injEq] at equal
    obtain ⟨here,state⟩ := equal
    obtain ⟨before,after,outputs⟩ := List.append_of_mem member
    have others : ((before++after).map fun o => (o.requestId,o.state)).Perm (slot.decodeRids.map fun rid => (rid,.decode)) := by
      rw [outputs] at composition
      have moved : ((before++o::after).map fun o => (o.requestId,o.state)).Perm
          ((part.rid,.prefill)::(before++after).map fun o => (o.requestId,o.state)) := by
        rw [← here,← state]
        exact List.perm_middle.map _
      exact (moved.symm.trans composition).cons_inv
    obtain ⟨listed,perm⟩ := decode_listed others
    rw [List.map_append,List.map_append,List.map_append] at listed
    obtain ⟨first,second⟩ := List.append_inj listed (by simp)
    rw [List.map_append] at perm
    have nodup := perm.nodup_iff.mpr distinct
    obtain ⟨one,two,disjoint⟩ := List.nodup_append.mp nodup
    have among : ∀ rid, rid ∈ slot.decodeRids ↔ rid ∈ before.map (fun o => o.requestId) ∨ rid ∈ after.map fun o => o.requestId := fun rid => by
      rw [← perm.mem_iff,List.mem_append]
    have present : ∀ rid ∈ slot.decodeRids, (s.running.lookup rid).isSome := fun rid member => by
      obtain ⟨r,found,_⟩ := decoding rid member
      rw [found]
      rfl
    have tokens : m.prefillTokens = part.chunk := by rw [reports.tokens,chunks]; simp
    have count : (m.outputs.filter fun o => o.state = .prefill).length = 1 := by
      rw [outputs,List.filter_append,List.filter_cons,no_prefill first,no_prefill second]
      simp [state]
    obtain ⟨s₁,folded₁,waiting₁,lookups₁⟩ := foldl_decodes s part.chunk 0 0 first one
      (fun x inside => reports.unfinished x (outputs ▸ List.mem_append_left _ inside))
      fun rid inside => present rid ((among rid).mpr (.inl inside))
    have outside : ∀ rid, rid ∉ slot.decodeRids → rid ∉ before.map (fun o => o.requestId) ∧ rid ∉ after.map fun o => o.requestId :=
      fun rid missing => not_or.mp fun inside => missing ((among rid).mpr inside)
    obtain ⟨waiting₂,lookups₂⟩ := absorbPrefill_part o part.chunk s₁ valid owing filled here
      ((reports.computed o member state r (here ▸ held)).trans computed.symm) rfl waiting₁ (by
        rw [lookups₁,if_neg (outside _ apart).1])
    obtain ⟨s₃,folded₃,waiting₃,lookups₃⟩ := foldl_decodes (s₁.absorbPrefill o part.chunk) part.chunk 0 1 second two
      (fun x inside => reports.unfinished x (outputs ▸ List.mem_append_right _ (List.mem_cons_of_mem _ inside)))
      fun rid inside => by
        have listed := (among rid).mpr (.inr inside)
        have differs : rid ≠ part.rid := fun same => apart (same ▸ listed)
        have earlier : rid ∉ before.map fun o => o.requestId := fun early => disjoint rid early rid inside rfl
        rw [lookups₂,if_neg differs,lookups₁,if_neg earlier]
        exact present rid listed
    have folded : m.outputs.foldl (syncOutput part.chunk 0) (s,0) = (s₃,1) := by
      have step : syncOutput part.chunk 0 (s₁,0) o = (s₁.absorbPrefill o part.chunk,1) := by
        simp [syncOutput,state,reports.unfinished o member]
      rw [outputs,List.foldl_append,List.foldl_cons,folded₁,step,folded₃]
    rw [sync_of_fold reports.unpreempted reports.unaborted (by rw [count,tokens]; simp [Nat.mod_one]) folded]
    refine ⟨waiting₃.trans waiting₂,fun rid => ?_⟩
    rw [lookups₃,lookups₂,lookups₁]
    by_cases same : rid = part.rid
    · subst same
      simp [apart,(outside _ apart).2]
    · simp only [same,if_false,kept rid same,among]
      by_cases early : rid ∈ before.map fun o => o.requestId
      · have late : rid ∉ after.map fun o => o.requestId := fun later => disjoint rid early rid later rfl
        simp [early,late]
      · by_cases late : rid ∈ after.map fun o => o.requestId
        · simp [early,late]
        · simp [early,late]
  | _::_::_,_,_,_,single => simp at single

-- The simulation leaves a decoding request where it was; the step takes it one
-- token further unless its counter is full.
theorem simulated_step_agrees_iff (valid : s.Valid) (owing : ∀ r ∈ s.waiting, r.isPrefilling = true)
    (simulated : simulateOneSlot predict limits s slotIdx candidateId buffer = (s',buffer',some slot))
    (single : slot.prefillRids.length ≤ 1) (reports : Reports s slot m) :
    (s.sync m).SameProgress s' ↔
      ∀ rid r, s.running.lookup rid = some r → r.isPrefilling = true ∨ r.processedTokens = u32Size-1 := by
  obtain ⟨waiting,lookups⟩ := sync_reported valid owing simulated single reports
  have decodes := simulated_decodes valid owing simulated single
  constructor
  · rintro ⟨_,same⟩ rid r found
    cases owes : r.isPrefilling with
    | true => exact .inl rfl
    | false =>
      have listed := (decodes rid).1.mpr ⟨r,found,owes⟩
      have equal := same rid
      rw [lookups,if_pos listed,(decodes rid).2 listed,found,Option.map_some,Option.map_some,Option.map_some,Option.some.injEq] at equal
      exact .inr ((ReqProgress.decoded_same (valid.small r (.inr ⟨rid,found⟩)).2).mp equal)
  · intro full
    refine ⟨waiting,fun rid => ?_⟩
    rw [lookups]
    split
    · rename_i listed
      obtain ⟨r,found,done⟩ := (decodes rid).1.mp listed
      rcases full rid r found with owes | most
      · rw [owes] at done
        cases done
      · have same := (ReqProgress.decoded_same (valid.small r (.inr ⟨rid,found⟩)).2).mpr most
        rw [(decodes rid).2 listed,found,Option.map_some,Option.map_some,Option.map_some,same]
    · rfl

-- One request past its prefill, one in the middle of it, one in the queue.
def mixedSnapshot : SchedSnapshot := ⟨[⟨7,16,0⟩],AList.insert 1 ⟨1,4,4⟩ (AList.insert 3 ⟨3,8,2⟩ ∅)⟩

def mixedSlot : RolloutSlot Nat := ⟨⟨5,16,[4],[2],[4],2⟩,5,[3],[1]⟩

def mixedStep : EngineStepOutput where
  prefillTokens := 4
  latency := 0
  outputs := [⟨1,[],.decode,false,0,4⟩,⟨3,[],.prefill,false,0,2⟩]
  evictedBlockHashes := []
  evictedBlockIds := []
  curUsedBlockIds := []
  newBlockHashesIds := []
  preemptedIds := []
  abortedRequests := []
  stepId := 1

def mixedResult : SchedSnapshot := {mixedSnapshot with running := mixedSnapshot.running.insert 3 ⟨3,8,6⟩}

theorem mixed_lookup {r : ReqProgress} (found : mixedSnapshot.running.lookup rid = some r) :
    (rid = 1 ∧ r = ⟨1,4,4⟩) ∨ (rid = 3 ∧ r = ⟨3,8,2⟩) := by
  have listed := AList.mem_lookup_iff.mp found
  have entries : mixedSnapshot.running.entries = [⟨1,⟨1,4,4⟩⟩,⟨3,⟨3,8,2⟩⟩] := rfl
  rw [entries] at listed
  simpa using listed

theorem mixed_valid : mixedSnapshot.Valid := by
  refine ⟨fun rid r found => ?_,by decide,by decide,?_⟩
  · rcases mixed_lookup found with ⟨rfl,rfl⟩ | ⟨rfl,rfl⟩ <;> rfl
  · rintro r (queued | ⟨rid,found⟩)
    · cases List.mem_singleton.mp queued
      decide
    · rcases mixed_lookup found with ⟨rfl,rfl⟩ | ⟨rfl,rfl⟩ <;> decide

theorem mixed_simulated : simulateOneSlot (fun b => b.numTokens) (StepLimits.new 16 5) mixedSnapshot 0 9 ⟨none,[],none,none,none⟩ =
    (mixedResult,⟨none,[],none,none,none⟩,some mixedSlot) := rfl

theorem mixed_reports : Reports mixedSnapshot mixedSlot mixedStep := by
  refine ⟨by decide,?_,rfl,by decide,rfl,rfl⟩
  intro o member state r found
  have listed : o = ⟨1,[],.decode,false,0,4⟩ ∨ o = ⟨3,[],.prefill,false,0,2⟩ := by simpa [mixedStep] using member
  rcases listed with rfl | rfl
  · cases state
  · cases (show mixedSnapshot.find 3 = some ⟨3,8,2⟩ from rfl).symm.trans found
    rfl

theorem simulated_step_agrees_iff_mixed : (mixedSnapshot.sync mixedStep).SameProgress mixedResult ↔
    ∀ rid r, mixedSnapshot.running.lookup rid = some r → r.isPrefilling = true ∨ r.processedTokens = u32Size-1 :=
  simulated_step_agrees_iff mixed_valid (by decide) mixed_simulated (by decide) mixed_reports

-- The decoding request ends at 5 tokens in one and at 4 in the other.
theorem simulated_step_disagrees : mixedSnapshot.Valid ∧ (∀ r ∈ mixedSnapshot.waiting, r.isPrefilling = true) ∧
    (∀ r ∈ mixedSnapshot.waiting++mixedSnapshot.values, 0 < r.inputLength) ∧
    simulateOneSlot (fun b => b.numTokens) (StepLimits.new 16 5) mixedSnapshot 0 9 ⟨none,[],none,none,none⟩ =
      (mixedResult,⟨none,[],none,none,none⟩,some mixedSlot) ∧ mixedSlot.prefillRids.length ≤ 1 ∧
    Reports mixedSnapshot mixedSlot mixedStep ∧ ¬(mixedSnapshot.sync mixedStep).SameProgress mixedResult := by
  refine ⟨mixed_valid,by decide,by decide,mixed_simulated,by decide,mixed_reports,fun same => ?_⟩
  have progress := same.2 1
  revert progress
  decide

end BlitzRouter
