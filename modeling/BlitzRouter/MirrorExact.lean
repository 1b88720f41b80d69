import BlitzRouter.InFlight
import BlitzRouter.ReqIdTrie
import BlitzRouter.RolloutRuns

namespace BlitzRouter
open Radix CommonPrefix

variable {R : RequestId → Option (List Hash)} {rid other : RequestId} {seq gone : List Hash}

-- The index over the claims `R`, without the hashes in `gone`.
structure Indexed (R : RequestId → Option (List Hash)) (gone : List Hash) (owners : Table Hash (List RequestId)) : Prop where
  nodup : ∀ h set, owners.lookup h = some set → set.Nodup
  listed : ∀ h rid, rid ∈ (owners.lookup h).getD [] ↔ h ∉ gone ∧ ∃ seq, R rid = some seq ∧ h ∈ seq

section Index
variable {owners : Table Hash (List RequestId)} (rid)

def enroll (owners : Table Hash (List RequestId)) (h : Hash) : Table Hash (List RequestId) :=
  owners.insert h (((owners.lookup h).getD []).insert rid)

theorem enroll_spec (nodup : ∀ h set, owners.lookup h = some set → set.Nodup) (h : Hash) :
    (∀ k set, (enroll rid owners h).lookup k = some set → set.Nodup) ∧
      ∀ k other, other ∈ ((enroll rid owners h).lookup k).getD [] ↔ other ∈ (owners.lookup k).getD [] ∨ k = h ∧ other = rid := by
  have before : ((owners.lookup h).getD []).Nodup := by
    cases found : owners.lookup h with
    | none => exact List.nodup_nil
    | some set => exact nodup h set found
  unfold enroll
  constructor
  · intro k set held
    by_cases same : k = h
    · subst same
      rw [AList.lookup_insert] at held
      cases held
      exact before.insert
    · rw [AList.lookup_insert_ne same] at held
      exact nodup k set held
  · intro k other
    by_cases same : k = h
    · subst same
      simp [AList.lookup_insert,List.mem_insert_iff,or_comm]
    · simp [AList.lookup_insert_ne same,same]

theorem enroll_all (nodup : ∀ h set, owners.lookup h = some set → set.Nodup) (hashes : List Hash) :
    (∀ k set, (hashes.foldl (enroll rid) owners).lookup k = some set → set.Nodup) ∧
      ∀ k other, other ∈ ((hashes.foldl (enroll rid) owners).lookup k).getD [] ↔
        other ∈ (owners.lookup k).getD [] ∨ k ∈ hashes ∧ other = rid := by
  induction hashes generalizing owners with
  | nil => exact ⟨nodup,by simp⟩
  | cons h rest ih =>
    obtain ⟨nodup₁,listed₁⟩ := enroll_spec rid nodup h
    obtain ⟨nodup₂,listed₂⟩ := ih nodup₁
    refine ⟨nodup₂,fun k other => ?_⟩
    rw [List.foldl_cons,listed₂,listed₁,List.mem_cons]
    tauto

theorem disown_spec (nodup : ∀ h set, owners.lookup h = some set → set.Nodup) (h : Hash) :
    (∀ k set, (RadixTreeReqIdHash.disown rid owners h).lookup k = some set → set.Nodup) ∧
      ∀ k other, other ∈ ((RadixTreeReqIdHash.disown rid owners h).lookup k).getD [] ↔
        other ∈ (owners.lookup k).getD [] ∧ ¬(k = h ∧ other = rid) := by
  unfold RadixTreeReqIdHash.disown
  cases found : owners.lookup h with
  | none =>
    refine ⟨nodup,fun k other => ⟨fun member => ⟨member,?_⟩,And.left⟩⟩
    rintro ⟨rfl,rfl⟩
    rw [found] at member
    cases member
  | some set =>
    have before := nodup h set found
    simp only
    split
    · rename_i bare
      have left : ∀ other, other ∈ set → other = rid := fun other member => by
        by_contra differs
        have kept := before.mem_erase_iff.mpr ⟨differs,member⟩
        rw [List.isEmpty_iff.mp bare] at kept
        cases kept
      refine ⟨fun k rest held => ?_,fun k other => ?_⟩
      · by_cases same : k = h
        · subst same
          rw [AList.lookup_erase] at held
          cases held
        · rw [AList.lookup_erase_ne same] at held
          exact nodup k rest held
      · by_cases same : k = h
        · subst same
          simpa [found] using left other
        · simp [AList.lookup_erase_ne same,same]
    · refine ⟨fun k rest held => ?_,fun k other => ?_⟩
      · by_cases same : k = h
        · subst same
          rw [AList.lookup_insert] at held
          cases held
          exact before.erase rid
        · rw [AList.lookup_insert_ne same] at held
          exact nodup k rest held
      · by_cases same : k = h
        · subst same
          simp [AList.lookup_insert,before.mem_erase_iff,found,and_comm]
        · simp [AList.lookup_insert_ne same,same]

theorem disown_all (nodup : ∀ h set, owners.lookup h = some set → set.Nodup) (hashes : List Hash) :
    (∀ k set, (hashes.foldl (RadixTreeReqIdHash.disown rid) owners).lookup k = some set → set.Nodup) ∧
      ∀ k other, other ∈ ((hashes.foldl (RadixTreeReqIdHash.disown rid) owners).lookup k).getD [] ↔
        other ∈ (owners.lookup k).getD [] ∧ ¬(k ∈ hashes ∧ other = rid) := by
  induction hashes generalizing owners with
  | nil => exact ⟨nodup,by simp⟩
  | cons h rest ih =>
    obtain ⟨nodup₁,listed₁⟩ := disown_spec rid nodup h
    obtain ⟨nodup₂,listed₂⟩ := ih nodup₁
    refine ⟨nodup₂,fun k other => ?_⟩
    rw [List.foldl_cons,listed₂,listed₁,List.mem_cons]
    tauto

end Index

theorem indexed_empty : Indexed (fun _ => none) [] ∅ :=
  ⟨nofun,fun h rid => by simp⟩

section Steps
variable {owners : Table Hash (List RequestId)}

theorem Indexed.insert (indexed : Indexed R [] owners) (fresh : R rid = none) (seq : List Hash) :
    Indexed (Function.update R rid (some seq)) [] (seq.foldl (enroll rid) owners) := by
  obtain ⟨nodup,listed⟩ := enroll_all rid indexed.nodup seq
  refine ⟨nodup,fun h other => ?_⟩
  rw [listed,indexed.listed]
  by_cases same : other = rid
  · subst same
    simp [fresh]
  · simp [same]

theorem Indexed.remove (indexed : Indexed R gone owners) (held : R rid = some seq) :
    Indexed (Function.update R rid none) gone (seq.foldl (RadixTreeReqIdHash.disown rid) owners) := by
  obtain ⟨nodup,listed⟩ := disown_all rid indexed.nodup seq
  refine ⟨nodup,fun h other => ?_⟩
  rw [listed,indexed.listed]
  by_cases same : other = rid
  · subst same
    simp [held]
  · simp [same]

theorem Indexed.evict (indexed : Indexed R gone owners) (key : Hash) : Indexed R (key::gone) (owners.erase key) := by
  refine ⟨fun h set held => ?_,fun h rid => ?_⟩
  · by_cases same : h = key
    · subst same
      rw [AList.lookup_erase] at held
      cases held
    · rw [AList.lookup_erase_ne same] at held
      exact indexed.nodup h set held
  · by_cases same : h = key
    · subst same
      simp
    · rw [AList.lookup_erase_ne same,indexed.listed]
      simp [same]

theorem Indexed.settle (indexed : Indexed R gone owners) (unneeded : ∀ h ∈ gone, ∀ rid seq, R rid = some seq → h ∉ seq) :
    Indexed R [] owners := by
  refine ⟨indexed.nodup,fun h rid => (indexed.listed h rid).trans ?_⟩
  constructor
  · exact fun listed => ⟨List.not_mem_nil,listed.2⟩
  · rintro ⟨_,seq,held,member⟩
    exact ⟨fun out => unneeded h out rid seq held member,seq,held,member⟩

end Steps

namespace IncrementalMirror
variable {x : IncrementalMirror} {sched : SchedSnapshot}

structure Mirrors (R : RequestId → Option (List Hash)) (gone : List Hash) (x : IncrementalMirror) : Prop where
  held : ∀ rid, x.byRequest.lookup rid = R rid
  proper : ∀ rid seq, R rid = some seq → seq ≠ []
  trie : x.tree.root.Tracks R gone
  index : Indexed R gone x.tree.hashOwners

theorem mirrors_new : new.Mirrors (fun _ => none) [] :=
  ⟨fun _ => rfl,nofun,TrieNode.tracks_empty,indexed_empty⟩

theorem Mirrors.removeRequest (mirrors : x.Mirrors R gone) (rid : RequestId) :
    (x.removeRequest rid).Mirrors (Function.update R rid none) gone := by
  obtain ⟨held,proper,trie,index⟩ := mirrors
  unfold IncrementalMirror.removeRequest
  rw [held rid]
  cases found : R rid with
  | none =>
    rw [Function.update_eq_self_iff.mpr found.symm]
    exact ⟨held,proper,trie,index⟩
  | some seq =>
    refine ⟨fun other => ?_,fun other seq => ?_,?_,?_⟩
    · by_cases same : other = rid
      · subst same
        simp [AList.lookup_erase]
      · simp [AList.lookup_erase_ne same,same,held]
    · by_cases same : other = rid
      · subst same
        simp
      · simpa [same] using proper other seq
    · simp only [RadixTreeReqIdHash.removeByHashes,if_neg (proper rid seq found)]
      exact trie.remove found
    · simp only [RadixTreeReqIdHash.removeByHashes,if_neg (proper rid seq found)]
      exact index.remove found

theorem Mirrors.insertRequest (mirrors : x.Mirrors R []) (rid : RequestId) (some_ : seq ≠ []) :
    (x.insertRequest rid seq).Mirrors (Function.update R rid (some seq)) [] := by
  obtain ⟨held,proper,trie,index⟩ := mirrors.removeRequest rid
  have fresh : Function.update R rid none rid = none := Function.update_self _ _ _
  have twice : Function.update (Function.update R rid none) rid (some seq) = Function.update R rid (some seq) := Function.update_idem _ _ _
  rw [← twice]
  unfold IncrementalMirror.insertRequest
  rw [if_neg some_]
  refine ⟨fun other => ?_,fun other seq' => ?_,?_,?_⟩
  · by_cases same : other = rid
    · subst same
      simp [AList.lookup_insert]
    · rw [AList.lookup_insert_ne same,held]
      simp [same]
  · by_cases same : other = rid
    · subst same
      simp only [Function.update_self,Option.some.injEq]
      rintro rfl
      exact some_
    · intro claimed
      rw [Function.update_of_ne same] at claimed
      exact proper other seq' claimed
  · simp only [RadixTreeReqIdHash.insertHashes,if_neg some_]
    exact trie.claim fresh
  · simp only [RadixTreeReqIdHash.insertHashes,if_neg some_]
    exact index.insert fresh seq

theorem Mirrors.settle (mirrors : x.Mirrors R gone) (unneeded : ∀ h ∈ gone, ∀ rid seq, R rid = some seq → h ∉ seq) : x.Mirrors R [] :=
  ⟨mirrors.held,mirrors.proper,mirrors.trie.settle unneeded,mirrors.index.settle unneeded⟩

theorem Mirrors.removeAll (mirrors : x.Mirrors R gone) (ids : List RequestId) :
    (ids.foldl IncrementalMirror.removeRequest x).Mirrors (fun rid => if rid ∈ ids then none else R rid) gone := by
  induction ids generalizing x R with
  | nil => simpa using mirrors
  | cons id ids ih =>
    have rest := ih (mirrors.removeRequest id)
    have same : (fun rid => if rid ∈ ids then none else Function.update R id none rid) =
        fun rid => if rid ∈ id::ids then none else R rid := by
      funext rid
      by_cases here : rid = id
      · subst here
        simp
      · simp [here]
    rwa [same] at rest

-- Among evictions: what was dropped is needed only by requests that leave with the step.
structure Evicting (sched : SchedSnapshot) (R : RequestId → Option (List Hash)) (gone : List Hash) (x : IncrementalMirror) : Prop where
  mirrors : x.Mirrors R gone
  doomed : ∀ h ∈ gone, ∀ rid seq, R rid = some seq → h ∈ seq → sched.isInFlight rid = false

theorem Evicting.evict (evicting : Evicting sched R gone x) (evictedHash : List Hash) :
    ∃ gone', Evicting sched R gone' (evict sched x evictedHash) := by
  obtain ⟨⟨held,proper,trie,index⟩,doomed⟩ := evicting
  unfold IncrementalMirror.evict
  simp only
  split
  · exact ⟨gone,⟨held,proper,trie,index⟩,doomed⟩
  · rename_i orphan
    unfold RadixTreeReqIdHash.evictOrphanHash
    split
    · exact ⟨gone,⟨held,proper,trie,index⟩,doomed⟩
    · rename_i c found
      have standing : backendHashToKey evictedHash ∉ gone := fun out => by
        have dropped := trie.dropped _ [] out
        simp [TrieNode.ownersAt,found] at dropped
      refine ⟨backendHashToKey evictedHash::gone,⟨held,proper,trie.evict _,index.evict _⟩,fun h out rid seq claimed member => ?_⟩
      rcases List.mem_cons.mp out with rfl | earlier
      · have owner : rid ∈ x.tree.ownersOf (backendHashToKey evictedHash) := (index.listed _ rid).mpr ⟨standing,seq,claimed,member⟩
        by_contra flying
        exact orphan (List.any_eq_true.mpr ⟨rid,owner,by simpa using flying⟩)
      · exact doomed h earlier rid seq claimed member

theorem Evicting.evictAll (evicting : Evicting sched R gone x) (hashes : List (List Hash)) :
    ∃ gone', Evicting sched R gone' (hashes.foldl (IncrementalMirror.evict sched) x) := by
  induction hashes generalizing x gone with
  | nil => exact ⟨gone,evicting⟩
  | cons h rest ih =>
    obtain ⟨gone',next⟩ := evicting.evict h
    exact ih next

-- What a step takes out of the mirror.
def released (m : EngineStepOutput) (rid : RequestId) : Bool := SchedSnapshot.dismissed m rid || m.preemptedIds.contains rid

theorem Mirrors.applySse {m : EngineStepOutput} (mirrors : x.Mirrors R [])
    (flying : ∀ rid seq, R rid = some seq → SchedSnapshot.dismissed m rid = false → sched.isInFlight rid = true) :
    (x.applySse m sched).Mirrors (fun rid => if released m rid then none else R rid) [] := by
  obtain ⟨gone,⟨evicted,doomed⟩⟩ := Evicting.evictAll ⟨mirrors,fun h out => absurd out List.not_mem_nil⟩ m.evictedBlockHashes
  have finished := evicted.removeAll ((m.outputs.filter fun o => o.isFinished).map fun o => o.requestId)
  rw [List.foldl_map] at finished
  have left := (finished.removeAll m.abortedRequests).removeAll m.preemptedIds
  have same : (fun rid => if rid ∈ m.preemptedIds then none else if rid ∈ m.abortedRequests then none
      else if rid ∈ (m.outputs.filter fun o => o.isFinished).map (fun o => o.requestId) then none else R rid) =
        fun rid => if released m rid then none else R rid := by
    funext rid
    have listed : rid ∈ (m.outputs.filter fun o => o.isFinished).map (fun o => o.requestId) ↔
        m.outputs.any (fun o => o.isFinished && o.requestId == rid) = true := by
      simp [and_assoc]
    simp only [released,SchedSnapshot.dismissed,listed,Bool.or_eq_true,List.contains_iff_mem]
    split
    · rename_i preempted
      rw [if_pos (.inr preempted)]
    · rename_i kept
      split
      · rename_i aborted
        rw [if_pos (.inl (.inr aborted))]
      · rename_i unaborted
        simp [kept,unaborted]
  rw [same] at left
  refine left.settle fun h out rid seq claimed member => ?_
  split at claimed
  · cases claimed
  · rename_i stays
    simp only [released,Bool.or_eq_true,not_or,Bool.not_eq_true] at stays
    have lands := doomed h out rid seq claimed member
    rw [flying rid seq claimed stays.1] at lands
    cases lands

end IncrementalMirror

-- The sequences of the admitted requests that no later step took out.
def PCtxCall.claims (R : RequestId → Option (List Hash)) : PCtxCall → RequestId → Option (List Hash)
  | .query _ => R
  | .onAdmit requestId _ hashes => if hashes = [] then R else Function.update R requestId (some hashes)
  | .onSse _ m => fun rid => if IncrementalMirror.released m rid then none else R rid

def claimed (calls : List PCtxCall) : RequestId → Option (List Hash) := calls.foldl PCtxCall.claims fun _ => none

namespace PCtx
variable {ρ τ : Type} {trained : TrainedPredictor ρ τ} {p : PCtx ρ τ}

structure Mirrored (R : RequestId → Option (List Hash)) (p : PCtx ρ τ) : Prop where
  keyed : p.sched.Keyed
  mirrors : p.mirror.Mirrors R []
  flying : ∀ rid seq, R rid = some seq → p.sched.isInFlight rid = true

variable [Zero τ] [Add τ]

theorem Mirrored.call (mirrored : p.Mirrored R) (call : PCtxCall) : (p.call trained call).Mirrored (call.claims R) := by
  obtain ⟨keyed,mirrors,flying⟩ := mirrored
  cases call with
  | query c =>
    obtain ⟨e,state,_⟩ := ask_cases trained p c
    change Mirrored R (p.ask trained c).1
    rw [state]
    exact ⟨keyed,mirrors,flying⟩
  | onAdmit requestId inputLength hashes =>
    have joins : ∀ rid, rid = requestId ∨ p.sched.isInFlight rid = true →
        (p.sched.admitReq (ReqProgress.new requestId inputLength)).isInFlight rid = true := by
      intro rid either
      simp only [SchedSnapshot.isInFlight_iff,SchedSnapshot.inFlightIds,SchedSnapshot.admitReq,List.map_append,List.mem_append] at either ⊢
      rcases either with rfl | waiting | running
      · exact .inl (.inr (List.mem_singleton_self _))
      · exact .inl (.inl waiting)
      · exact .inr running
    change Mirrored _ {p with
      sched := p.sched.admitReq (ReqProgress.new requestId inputLength)
      mirror := p.mirror.insertRequest requestId hashes
      ephemeral := p.ephemeral.bind fun e => e.admitted requestId}
    simp only [PCtxCall.claims]
    split
    · rename_i bare
      refine ⟨keyed,?_,fun rid seq held => joins rid (.inr (flying rid seq held))⟩
      rw [bare]
      exact mirrors
    · rename_i some_
      refine ⟨keyed,mirrors.insertRequest requestId some_,fun rid seq held => joins rid ?_⟩
      by_cases same : rid = requestId
      · exact .inl same
      · rw [Function.update_of_ne same] at held
        exact .inr (flying rid seq held)
  | onSse batch m =>
    have stays : ∀ rid seq, R rid = some seq → SchedSnapshot.dismissed m rid = false → (p.sched.sync m).isInFlight rid = true := by
      intro rid seq held kept
      rw [SchedSnapshot.isInFlight_iff,(keyed.ids_sync m).mem_iff,List.mem_filter,kept]
      exact ⟨SchedSnapshot.isInFlight_iff.mp (flying rid seq held),rfl⟩
    refine ⟨keyed.sync m,mirrors.applySse stays,fun rid seq held => ?_⟩
    simp only [PCtxCall.claims] at held
    split at held
    · cases held
    · rename_i kept
      simp only [IncrementalMirror.released,Bool.or_eq_true,not_or,Bool.not_eq_true] at kept
      exact stays rid seq held kept.1

theorem mirrored_after (trained : TrainedPredictor ρ τ) (regressor : ρ) (blockSize tokenBudget : Nat) (calls : List PCtxCall) :
    (after trained (new regressor blockSize tokenBudget) calls).Mirrored (claimed calls) := by
  induction calls using List.reverseRecOn with
  | nil => exact ⟨nofun,IncrementalMirror.mirrors_new,nofun⟩
  | append_singleton calls call ih =>
    unfold after claimed
    rw [List.foldl_append,List.foldl_append]
    exact ih.call call

-- Whatever the order of the calls, and whatever a step says it evicts.
theorem mirror_exact (trained : TrainedPredictor ρ τ) (regressor : ρ) (blockSize tokenBudget : Nat) (calls : List PCtxCall) :
    let mirror := (after trained (new regressor blockSize tokenBudget) calls).mirror
    (∀ query, (∀ rid seq, claimed calls rid = some seq → commonLen query seq ≤ mirror.prefixMatch query) ∧
        (mirror.prefixMatch query = 0 ∨ ∃ rid seq, claimed calls rid = some seq ∧ commonLen query seq = mirror.prefixMatch query)) ∧
      (∀ h rid, rid ∈ mirror.tree.ownersOf h ↔ ∃ seq, claimed calls rid = some seq ∧ h ∈ seq) ∧
      ∀ rid seq, claimed calls rid = some seq → mirror.prefixMatch seq = seq.length := by
  obtain ⟨_,⟨_,_,trie,index⟩,_⟩ := mirrored_after trained regressor blockSize tokenBudget calls
  refine ⟨trie.get_exact,fun h rid => (index.listed h rid).trans ?_,fun rid seq held => ?_⟩
  · exact ⟨And.right,fun owner => ⟨List.not_mem_nil,owner⟩⟩
  · have whole : seq.length ≤ commonLen seq seq := commonLen_maximal (Nat.le_refl _) (Nat.le_refl _) rfl
    exact Nat.le_antisymm (TrieNode.get_spec _ seq).1 (whole.trans ((trie.get_exact seq).1 rid seq held))

end PCtx
end BlitzRouter
