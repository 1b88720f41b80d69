import BlitzRouter.MirrorExact

namespace BlitzRouter
open Radix SchedSnapshot

def IncrementalMirror.inFlightCount (x : IncrementalMirror) : Nat := x.byRequest.keys.length

namespace PCtxCall

def admits : PCtxCall → Option RequestId
  | .onAdmit requestId _ _ => some requestId
  | _ => none

-- Requests that a step reported preempted since they were admitted.
def preempts (ids : List RequestId) : PCtxCall → List RequestId
  | .query _ => ids
  | .onAdmit requestId _ _ => ids.filter (· != requestId)
  | .onSse _ m => ids++m.preemptedIds

end PCtxCall

def admitted (calls : List PCtxCall) : List RequestId := calls.filterMap PCtxCall.admits

theorem admitted_snoc (calls : List PCtxCall) (call : PCtxCall) : admitted (calls++[call]) = admitted calls++call.admits.toList := by
  cases entry : call.admits with
  | none => simp [admitted,entry]
  | some rid => simp [admitted,entry]

def preempted (calls : List PCtxCall) : List RequestId := calls.foldl PCtxCall.preempts []

def Hashed (calls : List PCtxCall) : Prop := ∀ rid inputLength hashes, PCtxCall.onAdmit rid inputLength hashes ∈ calls → hashes ≠ []

namespace PCtx
variable {ρ τ : Type} {trained : TrainedPredictor ρ τ} {p : PCtx ρ τ} {R : RequestId → Option (List Hash)} {away ids : List RequestId}

-- `R` are the claims in the mirror, `away` the preempted requests, `ids` all that were admitted.
structure Accounted (R : RequestId → Option (List Hash)) (away ids : List RequestId) (p : PCtx ρ τ) : Prop where
  distinct : p.sched.inFlightIds.Nodup
  known : ∀ rid ∈ p.sched.inFlightIds, rid ∈ ids
  claimed : ∀ rid, (R rid).isSome ↔ rid ∈ p.sched.inFlightIds ∧ rid ∉ away

theorem Accounted.enqueue (accounted : p.Accounted R away ids) {rid : RequestId} {seq : List Hash} (inputLength : Nat) (fresh : rid ∉ ids)
    (mirror : IncrementalMirror) (ephemeral : Option (EphemeralRollout τ)) :
    Accounted (Function.update R rid (some seq)) (away.filter (· != rid)) (ids++[rid])
      {p with sched := p.sched.admitReq (ReqProgress.new rid inputLength),mirror := mirror,ephemeral := ephemeral} := by
  obtain ⟨distinct,known,claimed⟩ := accounted
  have joined : (p.sched.admitReq (ReqProgress.new rid inputLength)).inFlightIds.Perm (rid::p.sched.inFlightIds) := by
    simp only [inFlightIds,admitReq,List.map_append,List.append_assoc]
    exact List.perm_middle
  refine ⟨?_,fun other member => ?_,fun other => ?_⟩
  · exact joined.nodup_iff.mpr (List.nodup_cons.mpr ⟨fun inside => fresh (known rid inside),distinct⟩)
  · rcases List.mem_cons.mp (joined.mem_iff.mp member) with rfl | earlier
    · exact List.mem_append_right _ (List.mem_singleton_self _)
    · exact List.mem_append_left _ (known other earlier)
  · simp only [joined.mem_iff,List.mem_cons,List.mem_filter]
    by_cases same : other = rid
    · subst same
      simp
    · simp [same,claimed]

theorem Accounted.absorb (accounted : p.Accounted R away ids) (keyed : p.sched.Keyed) (m : EngineStepOutput) (p' : PCtx ρ τ)
    (sched : p'.sched = p.sched.sync m) :
    p'.Accounted (fun rid => if IncrementalMirror.released m rid then none else R rid) (away++m.preemptedIds) ids := by
  obtain ⟨distinct,known,claimed⟩ := accounted
  have left := keyed.ids_sync m
  rw [← sched] at left
  refine ⟨left.nodup_iff.mpr (distinct.filter _),fun rid member => known rid (List.mem_filter.mp (left.mem_iff.mp member)).1,fun rid => ?_⟩
  rw [left.mem_iff,List.mem_filter,List.mem_append]
  cases gone : IncrementalMirror.released m rid with
  | true =>
    simp only [IncrementalMirror.released,Bool.or_eq_true,List.contains_iff_mem] at gone
    simp only [if_true,Option.isSome_none,Bool.false_eq_true,false_iff,Bool.not_eq_true']
    rintro ⟨⟨_,stays⟩,outside⟩
    rcases gone with finished | away
    · rw [finished] at stays
      cases stays
    · exact outside (.inr away)
  | false =>
    simp only [IncrementalMirror.released,Bool.or_eq_false_iff] at gone
    have here : rid ∉ m.preemptedIds := by simpa using gone.2
    simp [claimed,gone.1,here]

variable [Zero τ] [Add τ]

theorem Accounted.call {call : PCtxCall} (accounted : p.Accounted R away ids) (keyed : p.sched.Keyed)
    (fresh : ∀ rid, call.admits = some rid → rid ∉ ids)
    (hashed : ∀ rid inputLength hashes, call = .onAdmit rid inputLength hashes → hashes ≠ []) :
    (p.call trained call).Accounted (call.claims R) (call.preempts away) (ids++call.admits.toList) := by
  cases call with
  | query c =>
    obtain ⟨e,state,_⟩ := ask_cases trained p c
    change Accounted R away (ids++[]) (p.ask trained c).1
    rw [state,List.append_nil]
    exact ⟨accounted.distinct,accounted.known,accounted.claimed⟩
  | onAdmit requestId inputLength hashes =>
    simp only [PCtxCall.claims,if_neg (hashed requestId inputLength hashes rfl)]
    exact accounted.enqueue inputLength (fresh requestId rfl) _ _
  | onSse batch m =>
    change Accounted _ _ (ids++[]) (p.onSse trained batch m).1
    rw [List.append_nil]
    exact accounted.absorb keyed m _ rfl

theorem accounted_after (trained : TrainedPredictor ρ τ) (regressor : ρ) (blockSize tokenBudget : Nat) (calls : List PCtxCall)
    (fresh : (BlitzRouter.admitted calls).Nodup) (hashed : Hashed calls) :
    (after trained (new regressor blockSize tokenBudget) calls).Accounted (claimed calls) (preempted calls) (BlitzRouter.admitted calls) := by
  induction calls using List.reverseRecOn with
  | nil => exact ⟨List.nodup_nil,nofun,fun rid => by simp [claimed,after,new,SchedSnapshot.new,inFlightIds]⟩
  | append_singleton calls call ih =>
    rw [admitted_snoc] at fresh ⊢
    obtain ⟨earlier,_,apart⟩ := List.nodup_append.mp fresh
    have accounted := ih earlier fun rid inputLength hashes member => hashed rid inputLength hashes (List.mem_append_left _ member)
    unfold after claimed preempted
    rw [List.foldl_append,List.foldl_append,List.foldl_append]
    refine accounted.call (mirrored_after trained regressor blockSize tokenBudget calls).keyed (fun rid entry inside => ?_)
      fun rid inputLength hashes same => hashed rid inputLength hashes (same ▸ List.mem_append_right _ (List.mem_singleton_self _))
    exact apart rid inside rid (by simp [entry]) rfl

-- The mirror holds who is in flight and was not preempted since its admission.
theorem mirror_holds_unpreempted (trained : TrainedPredictor ρ τ) (regressor : ρ) (blockSize tokenBudget : Nat) (calls : List PCtxCall)
    (fresh : (BlitzRouter.admitted calls).Nodup) (hashed : Hashed calls) :
    let p := after trained (new regressor blockSize tokenBudget) calls
    p.mirror.byRequest.keys.Perm (p.sched.inFlightIds.filter fun rid => !(preempted calls).contains rid) ∧
      (p.mirror.inFlightCount = p.sched.inFlightCount ↔ ∀ rid ∈ p.sched.inFlightIds, rid ∉ preempted calls) := by
  intro p
  have mirrored : p.Mirrored (claimed calls) := mirrored_after trained regressor blockSize tokenBudget calls
  obtain ⟨distinct,_,accounted⟩ := accounted_after trained regressor blockSize tokenBudget calls fresh hashed
  have same : p.mirror.byRequest.keys.Perm (p.sched.inFlightIds.filter fun rid => !(preempted calls).contains rid) := by
    refine (List.perm_ext_iff_of_nodup p.mirror.byRequest.keys_nodup (distinct.filter _)).mpr fun rid => ?_
    rw [← AList.mem_keys,← AList.lookup_isSome,mirrored.mirrors.held,accounted]
    simp [List.mem_filter]
  refine ⟨same,?_⟩
  rw [IncrementalMirror.inFlightCount,same.length_eq,← inFlightIds_length,List.length_filter_eq_length_iff]
  simp

theorem mirror_holds_unpreempted_pair :
    let p := after tokenPredictor (new () 16 1024) [.onAdmit 1 100 [7,8],.onAdmit 2 50 [7]]
    p.mirror.byRequest.keys.Perm (p.sched.inFlightIds.filter fun rid => !(preempted [.onAdmit 1 100 [7,8],.onAdmit 2 50 [7]]).contains rid) ∧
      (p.mirror.inFlightCount = p.sched.inFlightCount ↔
        ∀ rid ∈ p.sched.inFlightIds, rid ∉ preempted [.onAdmit 1 100 [7,8],.onAdmit 2 50 [7]]) :=
  mirror_holds_unpreempted tokenPredictor () 16 1024 [.onAdmit 1 100 [7,8],.onAdmit 2 50 [7]] (by decide) (by
    intro rid inputLength hashes member
    simp only [List.mem_cons,PCtxCall.onAdmit.injEq,List.not_mem_nil,or_false] at member
    rcases member with ⟨_,_,rfl⟩ | ⟨_,_,rfl⟩
    · exact List.cons_ne_nil _ _
    · exact List.cons_ne_nil _ _)

def reported (rids preemptedIds : List RequestId) (stepId : Nat) : PCtxCall :=
  .onSse ⟨0,0,[],[],[],0⟩ ⟨20*rids.length,1,rids.map fun rid => ⟨rid,[],.prefill,false,0,0⟩,[],[],[],[],preemptedIds,[],stepId⟩

-- Request 1 runs, is preempted and runs again; the mirror has let it go.
theorem resumed_request_unmirrored :
    let p := after tokenPredictor (new () 16 1024) [.onAdmit 1 100 [7],reported [1] [] 1,reported [] [1] 2,reported [1] [] 3]
    p.sched.inFlightIds = [1] ∧ p.mirror.byRequest.keys = [] ∧ p.mirror.inFlightCount ≠ p.sched.inFlightCount := by
  decide

end PCtx
end BlitzRouter
