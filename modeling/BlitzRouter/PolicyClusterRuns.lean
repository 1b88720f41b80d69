import BlitzRouter.PolicyCluster
import BlitzRouter.Runs

namespace BlitzRouter.Policy.PolicyCluster
open Radix
variable {β ε F γ : Type} [BlockHash β] [Zero F] [Add F] [Sub F] [Mul F] [Max F] [LE F] [DecidableLE F]
  {flavour : Flavour β ε} {policy : PolicyInput ε F γ} {c c' : PolicyCluster β ε γ} {move : ClusterMove F}

omit [BlockHash β] in
-- One context changes, the others stay.
theorem contexts_set {P : Nat → ScheduleContext β → Prop} {contexts : List (ScheduleContext β)} {k : Nat} {context next : ScheduleContext β}
    (present : contexts[k]? = some context) (others : ∀ (i : Nat) context, contexts[i]? = some context → i ≠ k → P i context) (changed : P k next) :
    ∀ (i : Nat) context, (contexts.set k next)[i]? = some context → P i context := by
  intro i context' there
  by_cases here : i = k
  · subst here
    rw [List.getElem?_set_self (List.getElem?_eq_some_iff.mp present).1] at there
    cases there
    exact changed
  · rw [List.getElem?_set_ne (Ne.symm here)] at there
    exact others i context' there here

theorem execute_run {moves : List (ClusterMove F)} (result : c.execute flavour policy moves = some c') : Run (Step flavour policy) c moves c' := by
  have begun : Run (Step flavour policy) c [] c := .start
  refine begun.executed (fun _ => rfl) (fun s move rest t all => ?_) result
  simp only [execute,List.foldlM_cons,Option.bind_eq_bind,Option.bind_eq_some_iff] at all
  exact all

-- As `execute`, as long as every state it comes to meets a condition.
def executeKeeping (flavour : Flavour β ε) (policy : PolicyInput ε F γ) (kept : PolicyCluster β ε γ → Prop) [DecidablePred kept]
    (c : PolicyCluster β ε γ) (moves : List (ClusterMove F)) : Option (PolicyCluster β ε γ) :=
  moves.foldlM (fun c move => (c.act flavour policy move).filter fun next => decide (kept next)) c

theorem executeKeeping_run {kept : PolicyCluster β ε γ → Prop} [DecidablePred kept] {moves : List (ClusterMove F)}
    (result : c.executeKeeping flavour policy kept moves = some c') :
    Run (fun s move t => Step flavour policy s move t ∧ kept t) c moves c' := by
  have begun : Run (fun s move t => Step flavour policy s move t ∧ kept t) c [] c := .start
  refine begun.executed (fun _ => rfl) (fun s move rest t all => ?_) result
  simp only [executeKeeping,List.foldlM_cons,Option.bind_eq_bind,Option.bind_eq_some_iff] at all
  obtain ⟨next,one,later⟩ := all
  obtain ⟨taken,holds⟩ := Option.filter_eq_some_iff.mp one
  exact ⟨next,⟨taken,of_decide_eq_true holds⟩,later⟩

-- Every filled slot stands in a relation to what its replica is now.
structure Watched (R : Entry → Nat → Observation ε → ScheduleContext β → Prop) (c : PolicyCluster β ε γ) : Prop where
  slots : ∀ entry slots, c.call = .capturing entry slots → slots.length = c.contexts.length ∧
    ∀ idx o context, slots[idx]? = some (some o) → c.contexts[idx]? = some context → R entry idx o context

omit [BlockHash β] in
theorem watched_free {R : Entry → Nat → Observation ε → ScheduleContext β → Prop} (free : ∀ entry slots, c.call ≠ .capturing entry slots) :
    Watched R c := ⟨fun entry slots call => absurd call (free entry slots)⟩

-- A relation that holds when an observation is taken, and that steps of the replica
-- keep, holds of every filled slot.
theorem Moves.watched {R : Entry → Nat → Observation ε → ScheduleContext β → Prop} (moves : Moves flavour policy c move c') (watched : Watched R c)
    (captured : ∀ entry idx now context o, observe (fun s => (flavour.look now s).1) entry idx context = .ok o →
      R entry idx o {context with blockHash := (flavour.look now context).2})
    (stepped : ∀ entry idx o context effect now next, move = .step idx effect now → R entry idx o context →
      stepContext flavour effect now context = some next → R entry idx o next) : Watched R c' := by
  cases moves with
  | schedule idle =>
    refine ⟨fun entry slots call => ?_⟩
    simp only [Call.capturing.injEq] at call
    obtain ⟨_,rfl⟩ := call
    refine ⟨List.length_map _,fun idx o context filled _ => ?_⟩
    rw [List.getElem?_map] at filled
    cases present : c.contexts[idx]? <;> simp [present] at filled
  | @capture entry slots k now context o call present free seen =>
    obtain ⟨same,held⟩ := watched.slots entry slots call
    refine ⟨fun entry' slots' call' => ?_⟩
    simp only [Call.capturing.injEq] at call'
    obtain ⟨rfl,rfl⟩ := call'
    refine ⟨by simp only [List.length_set]; exact same,fun idx seen' context' filled there => ?_⟩
    change (c.contexts.set k _)[idx]? = some context' at there
    by_cases here : k = idx
    · subst here
      rw [List.getElem?_set_self (List.getElem?_eq_some_iff.mp free).1] at filled
      rw [List.getElem?_set_self (List.getElem?_eq_some_iff.mp present).1] at there
      cases filled
      cases there
      exact captured entry k now context o seen
    · rw [List.getElem?_set_ne here] at filled there
      exact held idx seen' context' filled there
  | decline => exact watched_free (by simp)
  | commit => exact watched_free (by simp)
  | afterExtra => exact watched_free (by simp)
  | @step k now effect context next present result =>
    refine ⟨fun entry slots call => ?_⟩
    obtain ⟨same,held⟩ := watched.slots entry slots call
    refine ⟨by simp only [List.length_set]; exact same,fun idx o context' filled there => ?_⟩
    change (c.contexts.set k next)[idx]? = some context' at there
    by_cases here : k = idx
    · subst here
      rw [List.getElem?_set_self (List.getElem?_eq_some_iff.mp present).1] at there
      cases there
      exact stepped entry k o context effect now next rfl (held k o context filled present) result
    · rw [List.getElem?_set_ne here] at there
      exact held idx o context' filled there

theorem Moves.contexts_length (moves : Moves flavour policy c move c') : c'.contexts.length = c.contexts.length := by
  cases moves <;> simp

-- The observations of a commit, one for each replica and each in its relation.
omit [BlockHash β] in
theorem Watched.observations {R : Entry → Nat → Observation ε → ScheduleContext β → Prop} (watched : Watched R c) {entry : Entry}
    {observations : List (Observation ε)} (call : c.call = .capturing entry (observations.map some)) :
    observations.length = c.contexts.length ∧
      ∀ idx o context, observations[idx]? = some o → c.contexts[idx]? = some context → R entry idx o context := by
  obtain ⟨same,held⟩ := watched.slots entry _ call
  refine ⟨by simpa using same,fun idx o context at_ present => held idx o context ?_ present⟩
  rw [List.getElem?_map,at_]
  rfl

-- An observation is what some state of its replica showed.
def Observed (flavour : Flavour β ε) (entry : Entry) (idx : Nat) (o : Observation ε) (_ : ScheduleContext β) : Prop :=
  ∃ now seen, observe (fun s => (flavour.look now s).1) entry idx seen = .ok o

theorem observe_eq {features : ScheduleContext β → ε} {entry : Entry} {idx : Nat} {context : ScheduleContext β} {o : Observation ε}
    (seen : observe features entry idx context = .ok o) : ∃ hits, BlockHash.get context.blockHash entry.blockHashState.blockHashes = some hits ∧
      o = {idx,bs := context.lmetric.bs,waiting := context.lmetric.waitingReqs,queuedTokens := context.lmetric.prefillTokens
           allTokens := context.lmetric.allTokens,blockSize := entry.blockHashState.blockSize,hitBlocks := hits
           epoch := BlockHash.epoch context.blockHash,features := features context} := by
  unfold observe at seen
  cases found : BlockHash.get context.blockHash entry.blockHashState.blockHashes with
  | none => simp [found] at seen
  | some hits =>
    simp only [found,Except.ok.injEq] at seen
    exact ⟨hits,rfl,seen.symm⟩

theorem Moves.observed (moves : Moves flavour policy c move c') (watched : Watched (Observed flavour) c) : Watched (Observed flavour) c' :=
  moves.watched watched (fun _ _ now context _ seen => ⟨now,context,seen⟩) fun _ _ _ _ _ _ _ _ held _ => held

theorem Watched.indexed (watched : Watched (Observed flavour) c) {entry : Entry} {observations : List (Observation ε)}
    (call : c.call = .capturing entry (observations.map some)) : ∀ i (o : Observation ε), observations[i]? = some o → o.idx = i := by
  obtain ⟨same,held⟩ := watched.observations call
  intro i o at_
  have inside : i < c.contexts.length := same ▸ (List.getElem?_eq_some_iff.mp at_).1
  obtain ⟨now,seen,observed⟩ := held i o _ at_ (List.getElem?_eq_getElem inside)
  exact observe_idx observed

-- What a step leaves of the counters it takes from.
theorem stepContext_eq {effect : StepEffect} {now : Nat} {context next : ScheduleContext β}
    (result : stepContext flavour effect now context = some next) : ∃ removed inserted,
      BlockHash.remove context.blockHash effect.evictedBlockIds = some removed ∧
      effect.newBlocks.foldlM (fun b (pair : List Hash × List BlockId) => (BlockHash.insert b pair.1 pair.2).map Prod.fst) removed = some inserted ∧
      next = ⟨context.lmetric.subAssign effect.metricDelta,flavour.stepped now context.lmetric.bs inserted⟩ := by
  unfold stepContext at result
  cases removal : BlockHash.remove context.blockHash effect.evictedBlockIds with
  | none => simp [removal] at result
  | some removed =>
    cases insertion : effect.newBlocks.foldlM (fun b (pair : List Hash × List BlockId) => (BlockHash.insert b pair.1 pair.2).map Prod.fst) removed with
    | none => simp [removal,insertion] at result
    | some inserted =>
      simp only [removal,insertion,bind,Option.bind,Option.some.injEq] at result
      exact ⟨removed,inserted,rfl,insertion,result.symm⟩

theorem applied_lmetric {entry next : Entry} {context applied : ScheduleContext β} {cached : BlitzRouter.Observation}
    (result : applyDefaultAfter entry context cached = .ok (next,applied)) :
    ∃ hits, observedHits context.blockHash entry.blockHashState.blockHashes cached = some hits ∧ applied.blockHash = context.blockHash ∧
      applied.lmetric = context.lmetric.addAssign
        ⟨1,1,entry.request.inputTokens.length-hits*entry.blockHashState.blockSize,entry.request.inputTokens.length⟩ := by
  unfold applyDefaultAfter at result
  cases observed : observedHits context.blockHash entry.blockHashState.blockHashes cached with
  | none => simp [observed] at result
  | some hits =>
    cases set : entry.blockHashState.setPredBlockHits hits with
    | none => simp [observed,set] at result
    | some state =>
      simp only [observed,set,Except.ok.injEq,Prod.mk.injEq] at result
      obtain ⟨_,rfl⟩ := result
      refine ⟨hits,rfl,rfl,?_⟩
      rw [BlockHashState.setPredBlockHits_eq set]

end BlitzRouter.Policy.PolicyCluster
