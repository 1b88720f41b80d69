import BlitzRouter.PolicyCatalogue
import BlitzRouter.PolicyClusterRuns
import BlitzRouter.RadixCount
import BlitzRouter.HashTable

namespace BlitzRouter
open Radix

-- Every write of a matcher counts in its epoch, which no epoch before it equals as
-- long as there are fewer than 2^64 writes.
class LawfulEpoch (β : Type) [BlockHash β] : Prop where
  insert : ∀ {b b' : β} {hashes bids n}, BlockHash.insert b hashes bids = some (b',n) → BlockHash.epoch b' = BlockHash.epoch b+1
  remove : ∀ {b b' : β} {bids}, BlockHash.remove b bids = some b' → BlockHash.epoch b' = BlockHash.epoch b+1

theorem stable_epoch (epoch : Nat) : RadixTreeBlockHash.Stable fun t => t.epoch = epoch where
  write := fun same _ _ _ => same
  table := fun same _ => same
  newNode := fun same => same
  lazyGc := by
    intro t t' p same freed
    simp only [RadixTreeBlockHash.lazyGc,Option.bind_eq_bind,Option.bind_eq_some_iff,Option.pure_def,Option.some.injEq] at freed
    obtain ⟨_,_,rfl⟩ := freed
    exact same

instance : LawfulEpoch RadixTreeBlockHash where
  insert := by
    intro t t' hashes bids n inserted
    change RadixTreeBlockHash.insert t hashes bids = some (t',n) at inserted
    simp only [RadixTreeBlockHash.insert,Option.bind_eq_bind,Option.bind_eq_some_iff,Option.pure_def,Option.some.injEq,Prod.mk.injEq] at inserted
    obtain ⟨⟨u,m⟩,grown,rfl,_⟩ := inserted
    have same : u.epoch = t.epoch := (stable_epoch t.epoch).insertInner rfl grown
    exact congrArg (·+1) same
  remove := by
    intro t t' bids removed
    change RadixTreeBlockHash.remove t bids = some t' at removed
    simp only [RadixTreeBlockHash.remove,Option.bind_eq_bind,Option.bind_eq_some_iff,Option.pure_def,Option.some.injEq] at removed
    obtain ⟨⟨u,m⟩,shrunk,rfl⟩ := removed
    have same : u.epoch = t.epoch+1 := (stable_epoch (t.epoch+1)).removeInner rfl shrunk
    exact same

namespace HashTableBlockHash
variable {t t' : HashTableBlockHash}

theorem insertBlock_epoch {h : Hash} {bid : BlockId} {n : Nat} (inserted : t.insertBlock h bid = some (t',n)) : t'.epoch = t.epoch := by
  unfold insertBlock at inserted
  split at inserted
  · split at inserted
    · cases inserted
      rfl
    · simp only [Option.bind_eq_bind,Option.bind_eq_some_iff,Option.pure_def,Option.some.injEq,Prod.mk.injEq] at inserted
      obtain ⟨_,_,rfl,_⟩ := inserted
      rfl
  · simp only [Option.bind_eq_bind,Option.bind_eq_some_iff,Option.pure_def,Option.some.injEq,Prod.mk.injEq] at inserted
    obtain ⟨_,_,rfl,_⟩ := inserted
    rfl

theorem insertBlocks_epoch {hashes : List Hash} {bids : List BlockId} {n : Nat} (inserted : t.insertBlocks hashes bids = some (t',n)) :
    t'.epoch = t.epoch := by
  induction hashes generalizing t bids n with
  | nil =>
    cases inserted
    rfl
  | cons h hashes ih =>
    cases bids with
    | nil =>
      cases inserted
      rfl
    | cons bid bids =>
      simp only [insertBlocks,Option.bind_eq_bind,Option.bind_eq_some_iff,Option.pure_def,Option.some.injEq,Prod.mk.injEq] at inserted
      obtain ⟨⟨u,m⟩,first,⟨v,k⟩,rest,rfl,_⟩ := inserted
      exact (ih rest).trans (insertBlock_epoch first)

theorem removeBlock_epoch {bid : BlockId} (removed : t.removeBlock bid = some t') : t'.epoch = t.epoch := by
  simp only [removeBlock,Option.bind_eq_bind,Option.bind_eq_some_iff] at removed
  obtain ⟨slot,_,removed⟩ := removed
  split at removed
  · cases removed
    rfl
  · split at removed
    · cases removed
      rfl
    · split at removed
      · cases removed
        rfl
      · cases removed

end HashTableBlockHash

instance : LawfulEpoch HashTableBlockHash where
  insert := by
    intro t t' hashes bids n inserted
    change HashTableBlockHash.insert t hashes bids = some (t',n) at inserted
    simp only [HashTableBlockHash.insert,Option.bind_eq_bind,Option.bind_eq_some_iff,Option.pure_def,Option.some.injEq,Prod.mk.injEq] at inserted
    obtain ⟨⟨u,m⟩,grown,rfl,_⟩ := inserted
    exact congrArg (·+1) (HashTableBlockHash.insertBlocks_epoch grown)
  remove := by
    intro t t' bids removed
    change HashTableBlockHash.remove t bids = some t' at removed
    simp only [HashTableBlockHash.remove,Option.bind_eq_bind,Option.bind_eq_some_iff,Option.pure_def,Option.some.injEq] at removed
    obtain ⟨u,shrunk,rfl⟩ := removed
    have same : u.epoch = t.epoch := fold_kept (P := fun u => u.epoch = t.epoch)
      (fun kept taken => (HashTableBlockHash.removeBlock_epoch taken).trans kept) rfl shrunk
    exact congrArg (·+1) same

-- `apply_default_after` without the cache: the hits are looked up at the commit.
def applyAnew {β : Type} [BlockHash β] (entry : Entry) (context : ScheduleContext β) : Except Panic (Entry × ScheduleContext β) :=
  match BlockHash.get context.blockHash entry.blockHashState.blockHashes with
  | none => .error .blockHash
  | some hitNblks =>
    match entry.blockHashState.setPredBlockHits hitNblks with
    | none => .error (.predHitsSet entry.request.requestId)
    | some state =>
      let newNtkns := entry.request.inputTokens.length-hitNblks*state.blockSize
      .ok ({entry with blockHashState := {state with decisionEpoch := BlockHash.epoch context.blockHash}},
        {context with lmetric := context.lmetric.addAssign ⟨1,1,newNtkns,entry.request.inputTokens.length⟩})

namespace Policy

-- The hits of an observation are those of its replica as long as the epoch stands.
def Valid {β ε : Type} [BlockHash β] (entry : Entry) (_ : Nat) (o : Observation ε) (context : ScheduleContext β) : Prop :=
  o.epoch ≤ BlockHash.epoch context.blockHash ∧
    (o.epoch = BlockHash.epoch context.blockHash → BlockHash.get context.blockHash entry.blockHashState.blockHashes = some o.hitBlocks)

namespace PolicyCluster
variable {β ε F γ : Type} [BlockHash β] {flavour : Flavour β ε}

theorem valid_captured {entry : Entry} {idx now : Nat} {context : ScheduleContext β} {o : Observation ε}
    (seen : observe (fun s => (flavour.look now s).1) entry idx context = .ok o) :
    Valid entry idx o {context with blockHash := (flavour.look now context).2} := by
  have same := flavour.looked now context
  obtain ⟨hits,found,rfl⟩ := observe_eq seen
  exact ⟨le_of_eq same.epoch.symm,fun _ => (same.get _).trans found⟩

variable [LawfulEpoch β]

-- A step counts at least its evictions, so that no older epoch comes back.
theorem stepContext_epoch {effect : StepEffect} {now : Nat} {context next : ScheduleContext β}
    (result : stepContext flavour effect now context = some next) : BlockHash.epoch context.blockHash < BlockHash.epoch next.blockHash := by
  obtain ⟨removed,inserted,removal,insertion,rfl⟩ := stepContext_eq result
  have evicted : BlockHash.epoch removed = BlockHash.epoch context.blockHash+1 := LawfulEpoch.remove removal
  have later : BlockHash.epoch context.blockHash < BlockHash.epoch inserted := by
    refine fold_kept (P := fun b => BlockHash.epoch context.blockHash < BlockHash.epoch b) ?_ (by omega) insertion
    intro b b' pair kept step
    simp only [Option.map_eq_some_iff] at step
    obtain ⟨⟨c,n⟩,grown,rfl⟩ := step
    have counted := LawfulEpoch.insert grown
    exact counted ▸ Nat.lt_succ_of_lt kept
  exact lt_of_lt_of_eq later (flavour.sampled now context.lmetric.bs inserted).epoch.symm

theorem valid_stepped {entry : Entry} {idx now : Nat} {o : Observation ε} {effect : StepEffect} {context next : ScheduleContext β}
    (valid : Valid entry idx o context) (result : stepContext flavour effect now context = some next) : Valid entry idx o next := by
  have later := stepContext_epoch result
  exact ⟨Nat.le_trans valid.1 (Nat.le_of_lt later),fun same => absurd (same ▸ later) (Nat.not_lt.mpr valid.1)⟩

omit [LawfulEpoch β] in
theorem valid_applies {entry : Entry} {idx : Nat} {o : Observation ε} {context : ScheduleContext β} (valid : Valid entry idx o context) :
    applyDefaultAfter entry context o.toObservation = applyAnew entry context := by
  have looked : observedHits context.blockHash entry.blockHashState.blockHashes o.toObservation =
      BlockHash.get context.blockHash entry.blockHashState.blockHashes := by
    unfold observedHits
    split
    · rename_i same
      exact (valid.2 same).symm
    · rfl
  cases found : BlockHash.get context.blockHash entry.blockHashState.blockHashes with
  | none => simp only [applyDefaultAfter,applyAnew,looked,found]
  | some hits =>
    cases set : entry.blockHashState.setPredBlockHits hits with
    | none => simp only [applyDefaultAfter,applyAnew,looked,found,set]
    | some state => simp only [applyDefaultAfter,applyAnew,looked,found,set]

end PolicyCluster

-- In every run, a commit with the hits of its observation does what one with a new
-- lookup does, whatever steps came between the capture and the commit.
def ReusesExactly (β : Type) [BlockHash β] (ε F γ : Type) [Zero F] [Add F] [Sub F] [Mul F] [Max F] [LE F] [DecidableLE F] : Prop :=
  ∀ (flavour : Flavour β ε) (policy : PolicyInput ε F γ) contexts gctx history c,
    Run (PolicyCluster.Step flavour policy) (.start contexts gctx) history c →
    ∀ entry (observations : List (Observation ε)), c.call = .capturing entry (observations.map some) →
    ∀ (idx : Nat) o context, observations[idx]? = some o → c.contexts[idx]? = some context →
      applyDefaultAfter entry context o.toObservation = applyAnew entry context

theorem reuses_of_lawful (β : Type) [BlockHash β] [LawfulEpoch β] (ε F γ : Type) [Zero F] [Add F] [Sub F] [Mul F] [Max F] [LE F]
    [DecidableLE F] : ReusesExactly β ε F γ := by
  intro flavour policy contexts gctx history c run entry observations call idx o context at_ present
  have watched : PolicyCluster.Watched Valid c := by
    refine run.invariant (I := fun _ c => PolicyCluster.Watched Valid c) (PolicyCluster.watched_free fun _ _ call => by cases call) ?_
    intro _ s move t held taken
    exact (PolicyCluster.step_moves taken).watched held (fun _ _ _ _ _ seen => PolicyCluster.valid_captured seen)
      fun _ _ _ _ _ _ _ _ valid result => PolicyCluster.valid_stepped valid result
  exact PolicyCluster.valid_applies ((watched.observations call).2 idx o context at_ present)

theorem cached_hits_exact (ε F γ : Type) [Zero F] [Add F] [Sub F] [Mul F] [Max F] [LE F] [DecidableLE F] :
    ReusesExactly RadixTreeBlockHash ε F γ ∧ ReusesExactly HashTableBlockHash ε F γ :=
  ⟨reuses_of_lawful _ ε F γ,reuses_of_lawful _ ε F γ⟩

-- The only block of the prompt is stored after the replica was observed.
def oneBlockEntry : Entry := ⟨⟨7,16,List.range 16⟩,⟨[11],[],0,noneSentinel,none,16,defaultBlockHash,[],0⟩,⟨[],none⟩,0⟩

def storedBetween : List (ClusterMove ℚ) := [.schedule oneBlockEntry,.capture 0 0,.step 0 ⟨[],[([11],[3])],LMetricDec.new⟩ 0]

theorem cached_hits_exact_overtaken : ∃ c : PolicyCluster HashTableBlockHash Unit Unit,
    Run (PolicyCluster.Step (.plain _) (leastBsQ Unit ℚ)) (.start [⟨LMetric.empty,HashTableBlockHash.new 4⟩] ()) storedBetween c ∧
    ∃ o context, c.call = .capturing oneBlockEntry [some o] ∧ c.contexts = [context] ∧ o.hitBlocks = 0 ∧
      BlockHash.get context.blockHash oneBlockEntry.blockHashState.blockHashes = some 1 ∧
      applyDefaultAfter oneBlockEntry context o.toObservation = applyAnew oneBlockEntry context := by
  have executed : ∃ c, PolicyCluster.execute (.plain HashTableBlockHash) (leastBsQ Unit ℚ) (.start [⟨LMetric.empty,HashTableBlockHash.new 4⟩] ())
      storedBetween = some c ∧ ∃ o context, c.call = .capturing oneBlockEntry [some o] ∧
        c.contexts = [context] ∧ o.hitBlocks = 0 ∧ BlockHash.get context.blockHash oneBlockEntry.blockHashState.blockHashes = some 1 :=
    ⟨_,rfl,_,_,rfl,rfl,rfl,rfl⟩
  obtain ⟨c,result,o,context,call,only,missed,found⟩ := executed
  have run := PolicyCluster.execute_run result
  exact ⟨c,run,o,context,call,only,missed,found,
    (cached_hits_exact Unit ℚ Unit).2 _ _ _ _ _ _ run oneBlockEntry [o] call 0 o context rfl (by rw [only]; rfl)⟩

end Policy
end BlitzRouter
