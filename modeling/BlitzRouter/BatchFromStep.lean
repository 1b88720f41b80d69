import BlitzRouter.EvenSplit
import BlitzRouter.SnapshotAbsorption

namespace BlitzRouter
open SchedSnapshot EvenSplit

def EngineStepOutput.prefills (m : EngineStepOutput) : List RequestStepOutput := m.outputs.filter fun o => o.state = .prefill

-- The one pass over the outputs fills three vectors.
def batchFromStep (m : EngineStepOutput) (blockSize : Nat) : BatchForPredictor :=
  let numPrefillComputedTokens := m.prefills.map fun o => o.prevComputedTokens
  let numDecodeComputedTokens := (m.outputs.filter RequestStepOutput.decodes).map fun o => o.prevComputedTokens
  let prefillCount := numPrefillComputedTokens.length
  let numPrefillTokens :=
    if prefillCount > 0 then
      let per := m.prefillTokens/prefillCount
      let remainder := m.prefillTokens%prefillCount
      (List.range prefillCount).map fun i => if i < remainder then per+1 else per
    else []
  let numTokens := m.prefillTokens+numDecodeComputedTokens.length
  let bsSafe := max blockSize 1
  {numTokens,numTokensRounded := (numTokens+bsSafe-1)/bsSafe*bsSafe,numPrefillTokens,numPrefillComputedTokens,numDecodeComputedTokens
   size := m.outputs.length}

section Split
variable {m : EngineStepOutput}

theorem numPrefillTokens_eq (some : m.prefills ≠ []) (blockSize : Nat) :
    (batchFromStep m blockSize).numPrefillTokens = (List.range m.prefills.length).map (share m.prefillTokens m.prefills.length) := by
  have count : (m.prefills.map fun o => o.prevComputedTokens).length = m.prefills.length := List.length_map _
  simp only [batchFromStep,count]
  exact if_pos (List.length_pos_iff.mpr some)

end Split

-- A request behind the step that filled a chunk of it, in the arithmetic of u32.
def ReqProgress.filled (r : ReqProgress) (prevComputedTokens chunk : Nat) : ReqProgress :=
  {r with processedTokens := min ((prevComputedTokens+chunk%u32Size)%u32Size) (max r.inputLength 1)}

theorem ReqProgress.filled_small (r : ReqProgress) {prevComputedTokens chunk : Nat} (small : prevComputedTokens+chunk < u32Size) :
    (r.filled prevComputedTokens chunk).processedTokens = min (prevComputedTokens+chunk) (max r.inputLength 1) := by
  rw [ReqProgress.filled,Nat.mod_eq_of_lt (show chunk < u32Size by omega),Nat.mod_eq_of_lt small]

namespace SchedSnapshot
variable {s s' : SchedSnapshot} {m : EngineStepOutput} {rid : RequestId} {r : ReqProgress} {outputs : List RequestStepOutput}

theorem syncOutput_seen (perChunk remainder : Nat) (acc : SchedSnapshot × Nat) (outputs : List RequestStepOutput) :
    (outputs.foldl (syncOutput perChunk remainder) acc).2 = acc.2+(outputs.filter fun o => o.state = .prefill).length := by
  induction outputs generalizing acc with
  | nil => rfl
  | cons o outputs ih =>
    rw [List.foldl_cons,ih]
    by_cases prefill : o.state = .prefill
    · simp only [syncOutput,prefill,if_true,List.filter_cons,decide_true,List.length_cons]
      omega
    · have stays : (syncOutput perChunk remainder acc o).2 = acc.2 := by
        simp only [syncOutput,prefill,if_false]
        split <;> rfl
      rw [stays,List.filter_cons_of_neg (by simpa using prefill)]

-- Outputs of other requests leave a request alone.
theorem outputs_framed (keep : RequestId → Bool) (perChunk remainder : Nat) (acc : SchedSnapshot × Nat) (keyed : acc.1.Keyed)
    (away : ∀ o ∈ outputs, keep o.requestId = false) : Framed keep acc.1 (outputs.foldl (syncOutput perChunk remainder) acc).1 := by
  suffices both : Framed keep acc.1 (outputs.foldl (syncOutput perChunk remainder) acc).1 ∧
      (outputs.foldl (syncOutput perChunk remainder) acc).1.Keyed from both.1
  refine List.foldlRecOn outputs _ (motive := fun u : SchedSnapshot × Nat => Framed keep acc.1 u.1 ∧ u.1.Keyed) ⟨.refl _,keyed⟩ fun u holds o member => ?_
  refine syncOutput_kept (P := fun u => Framed keep acc.1 u ∧ u.Keyed) perChunk remainder u o ?_ ?_ ?_ holds
  · exact fun u ⟨framed,keyed⟩ => ⟨framed.trans (.promoteToRunning (away o member)),keyed.promoteToRunning _⟩
  · exact fun u change named ⟨framed,keyed⟩ => ⟨framed.trans (.update (away o member) change),keyed.update named⟩
  · exact fun u ⟨framed,keyed⟩ => ⟨framed.trans (.dropRequest (away o member)),keyed.erase _ _⟩

theorem dismissals_framed (keep : RequestId → Bool) (keyed : s.Keyed) {preempted aborted : List RequestId}
    (unpreempted : ∀ rid ∈ preempted, keep rid = false) (unaborted : ∀ rid ∈ aborted, keep rid = false) :
    Framed keep s (aborted.foldl dropRequest (preempted.foldl preempt s)) := by
  have first : Framed keep s (preempted.foldl preempt s) ∧ (preempted.foldl preempt s).Keyed :=
    List.foldlRecOn preempted _ (motive := fun u => Framed keep s u ∧ u.Keyed) ⟨.refl s,keyed⟩ fun u ⟨framed,keyed⟩ rid member =>
      ⟨framed.trans (.preempt keyed (unpreempted rid member)),keyed.preempt rid⟩
  exact List.foldlRecOn aborted _ (motive := fun u => Framed keep s u) first.1 fun u framed rid member =>
    framed.trans (.dropRequest (unaborted rid member))

theorem Framed.find (framed : Framed (fun id => id == rid) s s') : s'.find rid = s.find rid := by
  have same := framed.waiting
  rw [SchedSnapshot.find,SchedSnapshot.find,framed.running rid (beq_self_eq_true rid),← List.head?_filter,← List.head?_filter,same]

-- A request that is held anywhere is running afterwards, with its new count.
theorem absorbPrefill_found (o : RequestStepOutput) (chunk : Nat) (held : s.find o.requestId = some r) :
    (s.absorbPrefill o chunk).running.lookup o.requestId = some (r.filled o.prevComputedTokens chunk) := by
  unfold absorbPrefill
  rw [lookup_update,if_pos rfl]
  cases running : s.running.lookup o.requestId with
  | some req =>
    rw [SchedSnapshot.find,running,Option.some_or] at held
    cases held
    simp only [Option.isSome_some,if_true,running,Option.map_some,ReqProgress.filled]
  | none =>
    rw [SchedSnapshot.find,running,Option.none_or] at held
    simp only [Option.isSome_none,Bool.false_eq_true,if_false,promoteToRunning,held,AList.lookup_insert,Option.map_some,
      ReqProgress.filled]

-- The k-th of the selected elements has k of them in front.
theorem filter_place {α : Type} {p : α → Bool} {xs : List α} {k : Nat} {x : α} (at_ : (xs.filter p)[k]? = some x) :
    p x = true ∧ ∃ front back, xs = front++x::back ∧ (front.filter p).length = k := by
  induction xs generalizing k with
  | nil => cases at_
  | cons y ys ih =>
    cases selected : p y with
    | false =>
      rw [List.filter_cons_of_neg (by simp [selected])] at at_
      obtain ⟨own,front,back,rfl,count⟩ := ih at_
      exact ⟨own,y::front,back,rfl,by rw [List.filter_cons_of_neg (by simp [selected]),count]⟩
    | true =>
      rw [List.filter_cons_of_pos selected] at at_
      cases k with
      | zero =>
        cases at_
        exact ⟨selected,[],ys,rfl,rfl⟩
      | succ k =>
        obtain ⟨own,front,back,rfl,count⟩ := ih at_
        exact ⟨own,y::front,back,rfl,by rw [List.filter_cons_of_pos selected,List.length_cons,count]⟩

theorem outputs_keyed (perChunk remainder : Nat) (acc : SchedSnapshot × Nat) (keyed : acc.1.Keyed) (outputs : List RequestStepOutput) :
    (outputs.foldl (syncOutput perChunk remainder) acc).1.Keyed :=
  List.foldlRecOn outputs _ (motive := fun u : SchedSnapshot × Nat => u.1.Keyed) keyed fun _ keyed o _ => keyed.syncOutput o

theorem sync_split (some : 0 < m.prefills.length) : s.sync m = m.abortedRequests.foldl dropRequest (m.preemptedIds.foldl preempt
    (m.outputs.foldl (syncOutput (m.prefillTokens/m.prefills.length) (m.prefillTokens%m.prefills.length)) (s,0)).1) := by
  have count : (m.outputs.filter fun o => o.state = .prefill).length > 0 := some
  simp only [sync,if_pos count,EngineStepOutput.prefills]

-- The k-th prefill of a step in the snapshot that absorbs it, by what stands
-- before its output, at it and behind it.
theorem sync_prefill (keyed : s.Keyed) (distinct : (m.outputs.map fun o => o.requestId).Nodup) {k : Nat} {o : RequestStepOutput}
    (at_ : m.prefills[k]? = some o) (held : s.find o.requestId = some r) (unfinished : o.isFinished = false)
    (unpreempted : o.requestId ∉ m.preemptedIds) (unaborted : o.requestId ∉ m.abortedRequests) :
    (s.sync m).running.lookup o.requestId = some (r.filled o.prevComputedTokens (share m.prefillTokens m.prefills.length k)) := by
  obtain ⟨prefill,front,back,split,before⟩ := filter_place at_
  have some : 0 < m.prefills.length := by
    have inside := (List.getElem?_eq_some_iff.mp at_).1
    omega
  have apart : ∀ other, other ∈ front ∨ other ∈ back → (other.requestId == o.requestId) = false := by
    rw [split,List.map_append,List.map_cons,List.nodup_append,List.nodup_cons] at distinct
    obtain ⟨_,⟨ahead,_⟩,cross⟩ := distinct
    intro other inside
    rw [beq_eq_false_iff_ne]
    intro same
    rcases inside with early | late
    · exact cross _ (List.mem_map_of_mem early) _ List.mem_cons_self same
    · exact ahead (same ▸ List.mem_map_of_mem late)
  have away : ∀ {ids : List RequestId}, o.requestId ∉ ids → ∀ rid ∈ ids, (rid == o.requestId) = false := fun missing rid member =>
    beq_eq_false_iff_ne.mpr fun same => missing (same ▸ member)
  have own : o.state = .prefill := by simpa using prefill
  let perChunk := m.prefillTokens/m.prefills.length
  let remainder := m.prefillTokens%m.prefills.length
  have earlier : Framed (fun id => id == o.requestId) s (front.foldl (syncOutput perChunk remainder) (s,0)).1 :=
    outputs_framed _ perChunk remainder (s,0) keyed fun other inside => apart other (.inl inside)
  have seen : (front.foldl (syncOutput perChunk remainder) (s,0)).2 = k := by
    rw [syncOutput_seen,before,Nat.zero_add]
  have here : (syncOutput perChunk remainder (front.foldl (syncOutput perChunk remainder) (s,0)) o).1 =
      (front.foldl (syncOutput perChunk remainder) (s,0)).1.absorbPrefill o (share m.prefillTokens m.prefills.length k) := by
    simp only [syncOutput,own,if_true,unfinished,Bool.false_eq_true,if_false,seen]
    rfl
  have filled := absorbPrefill_found (s := (front.foldl (syncOutput perChunk remainder) (s,0)).1) o
    (share m.prefillTokens m.prefills.length k) (earlier.find.trans held)
  have behind := outputs_framed (fun id => id == o.requestId) perChunk remainder
    (syncOutput perChunk remainder (front.foldl (syncOutput perChunk remainder) (s,0)) o)
    ((outputs_keyed perChunk remainder (s,0) keyed front).syncOutput o) fun other inside => apart other (.inr inside)
  have last := dismissals_framed (fun id => id == o.requestId) (outputs_keyed perChunk remainder (s,0) keyed m.outputs)
    (away unpreempted) (away unaborted)
  rw [sync_split some,last.running _ (beq_self_eq_true _),split,List.foldl_append,List.foldl_cons,behind.running _ (beq_self_eq_true _),here]
  exact filled

end SchedSnapshot

-- Every step and every snapshot that holds its requests: the batch of the
-- predictor and the snapshot afterwards tell the same about its prefills.
theorem step_split_agrees (m : EngineStepOutput) (s : SchedSnapshot) (blockSize : Nat) (some_ : m.prefills ≠ [])
    (apart : (m.outputs.map fun o => o.requestId).Nodup) (unique : s.Distinct) (holds : ∀ o ∈ m.outputs, s.isInFlight o.requestId = true)
    (fits : ∀ (k : Nat) (o : RequestStepOutput) (chunk : Nat), m.prefills[k]? = some o →
      (batchFromStep m blockSize).numPrefillTokens[k]? = some chunk → o.prevComputedTokens+chunk < u32Size) :
    (batchFromStep m blockSize).numPrefillTokens.sum = m.prefillTokens ∧
    (∀ a ∈ (batchFromStep m blockSize).numPrefillTokens, ∀ b ∈ (batchFromStep m blockSize).numPrefillTokens, a ≤ b+1) ∧
    (∀ (k : Nat) (o : RequestStepOutput), m.prefills[k]? = some o → o.isFinished = false → o.requestId ∉ m.preemptedIds →
      o.requestId ∉ m.abortedRequests → ∃ chunk r, (batchFromStep m blockSize).numPrefillTokens[k]? = some chunk ∧
        s.find o.requestId = some r ∧ (s.sync m).running.lookup o.requestId =
          some {r with processedTokens := min (o.prevComputedTokens+chunk) (max r.inputLength 1)}) ∧
    (batchFromStep m blockSize).numTokens =
      (batchFromStep m blockSize).numPrefillTokens.sum+(m.outputs.filter RequestStepOutput.decodes).length := by
  have total : (batchFromStep m blockSize).numPrefillTokens.sum = m.prefillTokens := by
    rw [numPrefillTokens_eq some_]
    exact sum_shares _ (List.length_pos_iff.mpr some_)
  refine ⟨total,?_,?_,?_⟩
  · intro a first b second
    rw [numPrefillTokens_eq some_] at first second
    obtain ⟨i,_,rfl⟩ := List.mem_map.mp first
    obtain ⟨j,_,rfl⟩ := List.mem_map.mp second
    exact share_close _ _ i j
  · intro k o at_ unfinished unpreempted unaborted
    have chunk : (batchFromStep m blockSize).numPrefillTokens[k]? = some (share m.prefillTokens m.prefills.length k) := by
      rw [numPrefillTokens_eq some_,List.getElem?_map,List.getElem?_range (List.getElem?_eq_some_iff.mp at_).1]
      rfl
    have member : o ∈ m.outputs := (List.mem_filter.mp (List.mem_of_getElem? at_)).1
    obtain ⟨r,held⟩ : ∃ r, s.find o.requestId = some r :=
      Option.ne_none_iff_exists'.mp fun none => find_eq_none.mp none (isInFlight_iff.mp (holds o member))
    refine ⟨_,r,chunk,held,?_⟩
    rw [sync_prefill unique.keyed apart at_ held unfinished unpreempted unaborted,← r.filled_small (fits k o _ at_ chunk)]
    rfl
  · rw [total]
    simp only [batchFromStep,List.length_map]

-- Five tokens for two prefills, with a decode between them.
def interleavedStep : EngineStepOutput where
  prefillTokens := 5
  latency := 0
  outputs := [⟨7,[],.prefill,false,0,0⟩,⟨1,[],.other "RUNNING",true,0,4⟩,⟨3,[],.prefill,false,0,2⟩]
  evictedBlockHashes := []
  evictedBlockIds := []
  curUsedBlockIds := []
  newBlockHashesIds := []
  preemptedIds := []
  abortedRequests := []
  stepId := 1

example : batchFromStep interleavedStep 16 = ⟨6,16,[3,2],[0,2],[4],3⟩ := by decide

theorem step_split_agrees_interleaved : ∃ chunk r, (batchFromStep interleavedStep 16).numPrefillTokens[1]? = some chunk ∧
    mixedSnapshot.find 3 = some r ∧ (mixedSnapshot.sync interleavedStep).running.lookup 3 =
      some {r with processedTokens := min (2+chunk) (max r.inputLength 1)} := by
  refine (step_split_agrees interleavedStep mixedSnapshot 16 (by decide) (by decide) mixed_distinct (by decide) ?_).2.2.1
    1 ⟨3,[],.prefill,false,0,2⟩ rfl rfl (by decide) (by decide)
  intro k o chunk at_ part
  rcases k with _ | _ | k
  · cases at_; cases part; decide
  · cases at_; cases part; decide
  · cases at_

end BlitzRouter
