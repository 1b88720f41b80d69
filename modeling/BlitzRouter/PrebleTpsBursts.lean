import BlitzRouter.PrebleBursts

namespace BlitzRouter.Policy
open Radix EvenSplit

theorem selectMaxBy_last {ε σ : Type} [LinearOrder σ] {score : Observation ε → σ} {observations : List (Observation ε)} {idx : Nat}
    (indexed : ∀ i (o : Observation ε), observations[i]? = some o → o.idx = i) (chose : selectMaxBy observations score = some idx) :
    ∃ o, observations[idx]? = some o ∧ (∀ other ∈ observations, score other ≤ score o) ∧
      ∀ i other, idx < i → observations[i]? = some other → score other < score o := by
  have picked : (Extremes.maxBy (fun a b => compare (score a) (score b)) observations).map Observation.idx = some idx := chose
  obtain ⟨o,kept,rfl⟩ := Option.map_eq_some_iff.mp picked
  have greatest := Extremes.maxBy_greatest kept
  obtain ⟨before,after,rfl,last⟩ := Extremes.maxBy_last kept
  have here : (before++o::after)[before.length]? = some o := by simp
  rw [indexed _ _ here]
  refine ⟨o,here,greatest,fun i other later at_ => ?_⟩
  rw [List.append_cons,List.getElem?_append_right (by simpa using later)] at at_
  exact last other (List.mem_of_getElem? at_)

-- The replicas without a request, from the last one on.
def idleReplicas (batchSizes : List Nat) : List Nat := (List.range batchSizes.length).reverse.filter fun i => batchSizes[i]? = some 0

theorem mem_idleReplicas {batchSizes : List Nat} {i : Nat} : i ∈ idleReplicas batchSizes ↔ batchSizes[i]? = some 0 := by
  simp only [idleReplicas,List.mem_filter,List.mem_reverse,List.mem_range,decide_eq_true_eq,and_iff_right_iff_imp]
  exact fun present => (List.getElem?_eq_some_iff.mp present).1

theorem idleReplicas_descend (batchSizes : List Nat) : (idleReplicas batchSizes).Pairwise (·>·) :=
  (List.pairwise_reverse.mpr List.pairwise_lt_range).filter _

-- A replica that gets its first request leaves the others as they are.
theorem idleReplicas_set {batchSizes : List Nat} {k b : Nat} : idleReplicas (batchSizes.set k (b+1)) = (idleReplicas batchSizes).filter (·≠k) := by
  rw [idleReplicas,idleReplicas,List.filter_filter,List.length_set]
  refine List.filter_congr fun i _ => ?_
  by_cases here : i = k
  · subst here
    simp [List.getElem?_set]
  · simp [List.getElem?_set_ne (Ne.symm here),here]

-- What an observation of a replica says of its requests, its window and its tree.
structure Shows (entry : Entry) (idx : Nat) (o : Observation (Option Nat)) (context : ScheduleContext PrebleTpsTree) : Prop where
  bs : o.bs = context.lmetric.bs
  idle : o.bs = 0 → o.features = none
  busy : 0 < o.bs → ∃ count, o.features = some count ∧ count ≤ context.blockHash.tpsWindow.len
  hits : o.hitBlocks ≤ entry.blockHashState.blockHashes.length

def tpsScore (o : Observation (Option Nat)) : Nat ×ₗ Int := toLex (prebleTpsCount o,-(o.bs : Int))

-- What a replica scores that never took a step.
def coldScore (bs : Nat) : Nat ×ₗ Int := toLex (if bs = 0 then 2^64-1 else 0,-(bs : Int))

theorem coldScore_falls {a b : Nat} (less : a < b) : coldScore b < coldScore a := by
  have busy : b ≠ 0 := Nat.ne_zero_of_lt less
  rw [coldScore,coldScore,Prod.Lex.toLex_lt_toLex,if_neg busy]
  split
  · exact .inl (show (0 : Nat) < 2^64-1 by decide)
  · exact .inr ⟨rfl,by omega⟩

-- Below the threshold the policy takes the last replica of the greatest score.
theorem prebleTpsQ_picks {F : Type} [Zero F] [Add F] [Sub F] [Mul F] [Max F] [LE F] [DecidableLE F] {threshold : ℚ} {gctx : Unit} {entry : Entry}
    {observations : List (Observation (Option Nat))} {draw : F} {k : Nat} (gate : prebleMatches threshold entry observations = false)
    (chose : ((prebleTpsQ F threshold).body gctx entry observations).eval draw (rootTarget observations) = .ok (some k)) :
    selectMaxBy observations tpsScore = some k := by
  have fails : filterThen observations (fun _ => prebleMatches threshold entry observations)
      (fun t => (Expr.select (.maxBy fun o => toLex (o.hitBlocks,toLex (prebleTpsCount o,-(o.bs : Int)))) : Expr (Option Nat) F).eval draw t)
      (fun t => (Expr.select (.maxBy fun o => toLex (prebleTpsCount o,-(o.bs : Int))) : Expr (Option Nat) F).eval draw t) = _ :=
    filterThen_fail fun _ _ => gate
  exact Except.ok.inj (fails.symm.trans chose)

namespace PolicyCluster
variable {F : Type} {c c' : PolicyCluster PrebleTpsTree (Option Nat) Unit}

def batchSizes (c : PolicyCluster PrebleTpsTree (Option Nat) Unit) : List Nat := c.contexts.map fun context => context.lmetric.bs

-- The length of a window is a `usize`.
def FitsUsize (c : PolicyCluster PrebleTpsTree (Option Nat) Unit) : Prop := ∀ context ∈ c.contexts, context.blockHash.tpsWindow.len < 2^64

variable [Zero F] [Add F] [Sub F] [Mul F] [Max F] [LE F] [DecidableLE F] {threshold : ℚ} {move : ClusterMove F}

theorem looked_tps (now : Nat) (context : ScheduleContext PrebleTpsTree) :
    (context.lmetric.bs = 0 → (prebleTpsFlavour.look now context).1 = none) ∧
      (0 < context.lmetric.bs → ∃ count, (prebleTpsFlavour.look now context).1 = some count ∧ count ≤ (prebleTpsFlavour.look now context).2.tpsWindow.len) := by
  change (context.lmetric.bs = 0 → (context.blockHash.tpsCount context.lmetric.bs now).2 = none) ∧
    (0 < context.lmetric.bs → ∃ count, (context.blockHash.tpsCount context.lmetric.bs now).2 = some count ∧
      count ≤ (context.blockHash.tpsCount context.lmetric.bs now).1.tpsWindow.len)
  unfold PrebleTpsBlockHash.tpsCount
  refine ⟨fun idle => by rw [if_pos idle],fun busy => ?_⟩
  rw [if_neg (Nat.ne_of_gt busy)]
  exact ⟨_,rfl,Nat.le_refl _⟩

-- The blocks that a step frees and caches do not touch the window.
theorem inserted_tps {blocks : List (List Hash × List BlockId)} {b inserted : PrebleTpsTree}
    (done : blocks.foldlM (fun b (pair : List Hash × List BlockId) => (BlockHash.insert b pair.1 pair.2).map Prod.fst) b = some inserted) :
    inserted.toPrebleTpsBlockHash = b.toPrebleTpsBlockHash := by
  induction blocks generalizing b with
  | nil =>
    cases done
    rfl
  | cons pair rest ih =>
    simp only [List.foldlM_cons,Option.bind_eq_bind,Option.bind_eq_some_iff] at done
    obtain ⟨grown,one,later⟩ := done
    obtain ⟨both,result,rfl⟩ := Option.map_eq_some_iff.mp one
    obtain ⟨inner,_,rfl⟩ := Option.map_eq_some_iff.mp result
    have rest_ := ih later
    exact rest_

theorem stepContext_tps {effect : StepEffect} {now : Nat} {context next : ScheduleContext PrebleTpsTree}
    (result : stepContext prebleTpsFlavour effect now context = some next) :
    next.lmetric.bs = context.lmetric.bs-effect.metricDelta.bsDec ∧
      next.blockHash.toPrebleTpsBlockHash = context.blockHash.updateWithStep context.lmetric.bs now := by
  obtain ⟨removed,inserted,removal,insertion,rfl⟩ := stepContext_eq result
  obtain ⟨inner,_,rfl⟩ := Option.map_eq_some_iff.mp removal
  refine ⟨rfl,?_⟩
  change inserted.toPrebleTpsBlockHash.updateWithStep context.lmetric.bs now = _
  rw [inserted_tps insertion]

-- While no request leaves, observations stay true.
theorem Moves.shows (moves : Moves prebleTpsFlavour (prebleTpsQ F threshold) c move c')
    (stays : ∀ idx effect now, move = .step idx effect now → effect.metricDelta.bsDec = 0) (shows_ : Watched Shows c) : Watched Shows c' := by
  refine moves.watched shows_ (fun entry idx now context o seen => ?_) fun entry idx o context effect now next step held result => ?_
  · obtain ⟨hits,found,rfl⟩ := observe_eq seen
    have looked := looked_tps now context
    exact ⟨rfl,looked.1,looked.2,RadixTreeBlockHash.getLoop_le found⟩
  · obtain ⟨batch,window⟩ := stepContext_tps result
    refine ⟨held.bs.trans (by rw [batch,stays idx effect now step,Nat.sub_zero]),held.idle,fun busy => ?_,held.hits⟩
    obtain ⟨count,counted,bound⟩ := held.busy busy
    refine ⟨count,counted,bound.trans ?_⟩
    rw [show next.blockHash.tpsWindow = _ from congrArg PrebleTpsBlockHash.tpsWindow window]
    simp [PrebleTpsBlockHash.updateWithStep,SlidingWindow.push,SlidingWindow.len]

-- What stands behind a commit: a last observation of the greatest score.
structure Routed (c : PolicyCluster PrebleTpsTree (Option Nat) Unit) (k : Nat) : Prop where
  seen : ∃ observations : List (Observation (Option Nat)), observations.length = c.contexts.length ∧
    (∀ idx o context, observations[idx]? = some o → c.contexts[idx]? = some context → ∃ entry, Shows entry idx o context) ∧
    ∃ o, observations[k]? = some o ∧ (∀ other ∈ observations, tpsScore other ≤ tpsScore o) ∧
      ∀ i other, k < i → observations[i]? = some other → tpsScore other < tpsScore o

theorem batchSizes_some {i b : Nat} : c.batchSizes[i]? = some b ↔ ∃ context, c.contexts[i]? = some context ∧ context.lmetric.bs = b := by
  rw [batchSizes,List.getElem?_map,Option.map_eq_some_iff]

-- Below the threshold a move either leaves the batch sizes or adds one to that of
-- the replica it routes to.
theorem Moves.routes (moves : Moves prebleTpsFlavour (prebleTpsQ F threshold) c move c') (high : 1 ≤ threshold)
    (stays : ∀ idx effect now, move = .step idx effect now → effect.metricDelta.bsDec = 0) (indexed : Watched (Observed prebleTpsFlavour) c)
    (shows_ : Watched Shows c) (whole : ∀ entry slots, c.call = .capturing entry slots → entry.Whole) :
    (c'.commits = c.commits ∧ c'.batchSizes = c.batchSizes) ∨
      ∃ k b, c.Routed k ∧ c.batchSizes[k]? = some b ∧ c'.commits = c.commits++[k] ∧ c'.batchSizes = c.batchSizes.set k (b+1) := by
  have same {k : Nat} {context next : ScheduleContext PrebleTpsTree} (present : c.contexts[k]? = some context)
      (kept : next.lmetric.bs = context.lmetric.bs) : (c.contexts.set k next).map (fun context => context.lmetric.bs) = c.batchSizes := by
    obtain ⟨inside,rfl⟩ := List.getElem?_eq_some_iff.mp present
    rw [List.map_set,kept,batchSizes,← List.getElem_map fun context : ScheduleContext PrebleTpsTree => context.lmetric.bs]
    exact List.set_getElem_self (by rwa [List.length_map])
  cases moves with
  | schedule idle => exact .inl ⟨rfl,rfl⟩
  | capture call present free seen => exact .inl ⟨rfl,same present rfl⟩
  | decline call chose => exact .inl ⟨rfl,rfl⟩
  | @commit entry next observations draw k cached context applied call chose at_ present result =>
    obtain ⟨equal,holds⟩ := shows_.observations call
    obtain ⟨hits,_,matcher,counted⟩ := applied_lmetric result
    have gate : prebleMatches threshold entry observations = false := by
      refine prebleMatches_whole (whole entry _ call) high fun o member => ?_
      obtain ⟨i,in_,rfl⟩ := List.getElem_of_mem member
      exact (holds i _ _ (List.getElem?_eq_getElem in_) (List.getElem?_eq_getElem (equal ▸ in_))).hits
    have best := selectMaxBy_last (indexed.indexed call) (prebleTpsQ_picks gate chose)
    refine .inr ⟨k,context.lmetric.bs,⟨observations,equal,fun i o context at_ there => ⟨entry,holds i o context at_ there⟩,best⟩,
      batchSizes_some.mpr ⟨context,present,rfl⟩,rfl,?_⟩
    simp only [batchSizes,List.map_set,counted,LMetric.addAssign]
  | afterExtra call at_ present extended => exact .inl ⟨rfl,same present rfl⟩
  | @step k now effect context next present result =>
    have kept : next.lmetric.bs = context.lmetric.bs := by rw [(stepContext_tps result).1,stays k effect now rfl,Nat.sub_zero]
    exact .inl ⟨rfl,same present kept⟩

-- An idle replica scores as many steps as a `usize` can count, so that the last of
-- them goes first.
theorem Routed.idle_first {k i : Nat} {rest : List Nat} (routed : c.Routed k) (fits : c.FitsUsize) (idles : idleReplicas c.batchSizes = i::rest) :
    k = i := by
  obtain ⟨observations,equal,holds,o,mine,greatest,last⟩ := routed.seen
  have scored {j : Nat} (idle : j ∈ idleReplicas c.batchSizes) : ∃ other, observations[j]? = some other ∧ tpsScore other = toLex (2^64-1,0) := by
    obtain ⟨context,present,empty⟩ := batchSizes_some.mp (mem_idleReplicas.mp idle)
    have there := List.getElem?_eq_getElem (equal ▸ (List.getElem?_eq_some_iff.mp present).1)
    obtain ⟨entry,shown⟩ := holds j _ context there present
    have free := shown.bs.trans empty
    refine ⟨_,there,?_⟩
    rw [tpsScore,prebleTpsCount,shown.idle free,free]
    rfl
  obtain ⟨other,there,top⟩ := scored (idles ▸ List.mem_cons_self)
  have above := greatest other (List.mem_of_getElem? there)
  have present := List.getElem?_eq_getElem (equal ▸ (List.getElem?_eq_some_iff.mp mine).1 : k < c.contexts.length)
  obtain ⟨entry,shown⟩ := holds k o _ mine present
  have free : o.bs = 0 := by
    refine Nat.eq_zero_of_not_pos fun busy => ?_
    obtain ⟨count,counted,bound⟩ := shown.busy busy
    have small := fits _ (List.mem_of_getElem? present)
    rw [top,tpsScore,prebleTpsCount,counted,Option.getD_some,Prod.Lex.toLex_le_toLex] at above
    omega
  have member : k ∈ idleReplicas c.batchSizes := mem_idleReplicas.mpr (batchSizes_some.mpr ⟨_,present,shown.bs.symm.trans free⟩)
  obtain ⟨same,mine',score⟩ := scored member
  cases mine.symm.trans mine'
  rw [idles] at member
  rcases List.mem_cons.mp member with here | later
  · exact here
  · have earlier : i > k := List.rel_of_pairwise_cons (idles ▸ idleReplicas_descend c.batchSizes) later
    have less := last i other earlier there
    rw [top,score] at less
    exact absurd less (lt_irrefl _)

def Cold (context : ScheduleContext PrebleTpsTree) : Prop := context.blockHash.tpsWindow.entries = [] ∧ context.blockHash.lastBusyAt = none

-- Among replicas that never took a step, the last one of the least batch size.
theorem Routed.least_last {k b : Nat} (routed : c.Routed k) (cold : ∀ context ∈ c.contexts, Cold context) (here : c.batchSizes[k]? = some b) :
    (∀ (i : Nat) b', c.batchSizes[i]? = some b' → b ≤ b') ∧ ∀ (i : Nat) b', k < i → c.batchSizes[i]? = some b' → b < b' := by
  obtain ⟨observations,equal,holds,o,mine,greatest,last⟩ := routed.seen
  have scored {i b' : Nat} (held : c.batchSizes[i]? = some b') : ∃ other, observations[i]? = some other ∧ tpsScore other = coldScore b' := by
    obtain ⟨context,present,rfl⟩ := batchSizes_some.mp held
    have there := List.getElem?_eq_getElem (equal ▸ (List.getElem?_eq_some_iff.mp present).1)
    obtain ⟨entry,shown⟩ := holds i _ context there present
    refine ⟨_,there,?_⟩
    rw [tpsScore,coldScore,← shown.bs,prebleTpsCount]
    split
    · rename_i free
      rw [shown.idle free,Option.getD_none]
    · rename_i busy
      obtain ⟨count,counted,bound⟩ := shown.busy (Nat.pos_of_ne_zero busy)
      rw [SlidingWindow.len,(cold context (List.mem_of_getElem? present)).1,List.length_nil] at bound
      rw [counted,Option.getD_some,Nat.le_zero.mp bound]
  obtain ⟨o',mine',score⟩ := scored here
  cases mine.symm.trans mine'
  have falls : StrictAnti coldScore := fun _ _ less => coldScore_falls less
  refine ⟨fun i b' held => ?_,fun i b' later held => ?_⟩
  · obtain ⟨other,there,same⟩ := scored held
    have most := greatest other (List.mem_of_getElem? there)
    rwa [same,score,falls.le_iff_ge] at most
  · obtain ⟨other,there,same⟩ := scored held
    have less := last i other later there
    rwa [same,score,falls.lt_iff_gt] at less

-- The commits of a run with some idle replicas, and those that are still idle.
structure ServesIdle (idles : List Nat) (c : PolicyCluster PrebleTpsTree (Option Nat) Unit) : Prop where
  served : c.commits.take idles.length = idles.take c.commits.length
  left : idleReplicas c.batchSizes = idles.drop c.commits.length

theorem ServesIdle.route {idles : List Nat} {k b : Nat} (serves : ServesIdle idles c) (fits : c.FitsUsize) (routed : c.Routed k)
    (commits : c'.commits = c.commits++[k]) (batch : c'.batchSizes = c.batchSizes.set k (b+1)) : ServesIdle idles c' := by
  have left := serves.left
  cases waiting : idles.drop c.commits.length with
  | nil =>
    have past : idles.length ≤ c.commits.length := List.drop_eq_nil_iff.mp waiting
    refine ⟨?_,?_⟩
    · rw [commits,List.take_append_of_le_length past,serves.served,List.length_append,List.take_of_length_le past,
        List.take_of_length_le (past.trans (Nat.le_add_right _ _))]
    · rw [batch,idleReplicas_set,left,waiting,commits,List.length_append,List.drop_eq_nil_of_le (past.trans (Nat.le_add_right _ _)),List.filter_nil]
  | cons i rest =>
    rw [waiting] at left
    obtain rfl := routed.idle_first fits left
    have next : idles[c.commits.length]? = some k := by rw [← List.head?_drop,waiting,List.head?_cons]
    have inside := (List.getElem?_eq_some_iff.mp next).1
    refine ⟨?_,?_⟩
    · have before : c.commits = idles.take c.commits.length := by
        rw [← serves.served,List.take_of_length_le inside.le]
      rw [commits,List.length_append,List.length_singleton,List.take_add_one,next,← before,List.take_of_length_le (by simpa using inside)]
      rfl
    · have descend := left ▸ idleReplicas_descend c.batchSizes
      have others : ∀ j ∈ rest, decide (j ≠ k) = true := fun j member => by
        have lower : k > j := List.rel_of_pairwise_cons descend member
        simpa using Nat.ne_of_lt lower
      rw [batch,idleReplicas_set,left,List.filter_cons_of_neg (by simp),List.filter_eq_self.mpr others,commits,List.length_append,
        List.length_singleton,← List.drop_drop,waiting,List.drop_succ_cons,List.drop_zero]

theorem Moves.whole (moves : Moves prebleTpsFlavour (prebleTpsQ F threshold) c move c') (complete : ∀ entry, move = .schedule entry → entry.Whole)
    (whole : ∀ entry slots, c.call = .capturing entry slots → entry.Whole) : ∀ entry slots, c'.call = .capturing entry slots → entry.Whole := by
  intro entry slots call
  cases moves with
  | schedule idle =>
    cases call
    exact complete _ rfl
  | capture call' present free seen =>
    cases call
    exact whole _ _ call'
  | decline => cases call
  | commit => cases call
  | afterExtra => cases call
  | step present result => exact whole _ _ call

end PolicyCluster

-- Prompts of complete blocks, and step outputs with which no request leaves.
def ClusterMove.Arrives {F : Type} : ClusterMove F → Prop
  | .schedule entry => entry.Whole
  | .step _ effect _ => effect.metricDelta.bsDec = 0
  | _ => True

-- With a threshold that no prompt passes, and until a request leaves, the replicas
-- that were idle get the first requests, one each and the last replica first,
-- whatever their windows hold and whatever steps they all take meanwhile.
theorem preble_tps_idle_first {F : Type} [Zero F] [Add F] [Sub F] [Mul F] [Max F] [LE F] [DecidableLE F] {threshold : ℚ}
    {contexts : List (ScheduleContext PrebleTpsTree)} {history : List (ClusterMove F)} {c : PolicyCluster PrebleTpsTree (Option Nat) Unit}
    (high : 1 ≤ threshold) (arrives : ∀ move ∈ history, move.Arrives)
    (run : Run (fun s move t => PolicyCluster.Step prebleTpsFlavour (prebleTpsQ F threshold) s move t ∧ s.FitsUsize) (.start contexts ()) history c) :
    let idles := idleReplicas (contexts.map fun context => context.lmetric.bs)
    c.commits.take idles.length = idles.take c.commits.length ∧ idleReplicas c.batchSizes = idles.drop c.commits.length := by
  intro idles
  have arriving : Run (fun s move t => (PolicyCluster.Step prebleTpsFlavour (prebleTpsQ F threshold) s move t ∧ s.FitsUsize) ∧ move.Arrives)
      (.start contexts ()) history c := run.weaken_of arrives fun _ _ _ quiet taken => ⟨taken,quiet⟩
  have kept := arriving.invariant (I := fun _ c => PolicyCluster.Watched (PolicyCluster.Observed prebleTpsFlavour) c ∧ PolicyCluster.Watched Shows c ∧
      (∀ entry slots, c.call = .capturing entry slots → entry.Whole) ∧ PolicyCluster.ServesIdle idles c)
    ⟨PolicyCluster.observed_start contexts (),PolicyCluster.watched_free (fun _ _ call => by cases call),fun _ _ call => (by cases call),
      ⟨List.take_nil,rfl⟩⟩ (by
      intro _ s move t held taken
      obtain ⟨indexed,shows_,whole,serves⟩ := held
      obtain ⟨⟨step,fits⟩,arrival⟩ := taken
      have moves := PolicyCluster.step_moves step
      have stays : ∀ idx effect now, move = .step idx effect now → effect.metricDelta.bsDec = 0 := fun idx effect now here => by subst here; exact arrival
      refine ⟨moves.observed indexed,moves.shows stays shows_,moves.whole (fun entry here => by subst here; exact arrival) whole,?_⟩
      rcases moves.routes high stays indexed shows_ whole with ⟨commits,batch⟩ | ⟨k,b,routed,_,commits,batch⟩
      · exact ⟨commits ▸ serves.served,batch ▸ commits ▸ serves.left⟩
      · exact serves.route fits routed commits batch)
  exact ⟨kept.2.2.2.served,kept.2.2.2.left⟩

instance {c : PolicyCluster PrebleTpsTree (Option Nat) Unit} : Decidable c.FitsUsize :=
  inferInstanceAs (Decidable (∀ context ∈ c.contexts, context.blockHash.tpsWindow.len < 2^64))

def PolicyCluster.executeFitting (threshold : ℚ) (c : PolicyCluster PrebleTpsTree (Option Nat) Unit) (moves : List (ClusterMove ℚ)) :
    Option (PolicyCluster PrebleTpsTree (Option Nat) Unit) :=
  moves.foldlM (fun c move => if c.FitsUsize then c.act prebleTpsFlavour (prebleTpsQ ℚ threshold) move else none) c

theorem PolicyCluster.executeFitting_run {threshold : ℚ} {c c' : PolicyCluster PrebleTpsTree (Option Nat) Unit} {moves : List (ClusterMove ℚ)}
    (result : c.executeFitting threshold moves = some c') :
    Run (fun s move t => Step prebleTpsFlavour (prebleTpsQ ℚ threshold) s move t ∧ s.FitsUsize) c moves c' := by
  have begun : Run (fun s move t => Step prebleTpsFlavour (prebleTpsQ ℚ threshold) s move t ∧ s.FitsUsize) c [] c := .start
  refine begun.executed (fun _ => rfl) (fun s move rest t all => ?_) result
  simp only [executeFitting,List.foldlM_cons,Option.bind_eq_bind,Option.bind_eq_some_iff] at all
  obtain ⟨next,one,later⟩ := all
  split at one
  · rename_i fits
    exact ⟨next,⟨one,fits⟩,later⟩
  · cases one

def busyReplica (bs : Nat) (steps : List Nat) : ScheduleContext PrebleTpsTree :=
  ⟨{LMetric.empty with bs},⟨⟨⟨steps.map (·,()),.count,180⟩,steps.getLast?,180,id⟩,.new 4⟩⟩

-- The middle replica is busy and takes a step between the calls.
def threeCallsStepping : List (ClusterMove ℚ) :=
  let call (now : Nat) : List (ClusterMove ℚ) := [.schedule oneBlockEntry,.capture 0 now,.capture 1 now,.capture 2 now,.apply 0,.afterExtra now]
  call 11++[.step 1 ⟨[],[],⟨0,0,0,0⟩⟩ 12,.step 2 ⟨[],[],⟨0,0,0,0⟩⟩ 12]++call 13++call 14

def idleBusyIdle : List (ScheduleContext PrebleTpsTree) := [busyReplica 0 [3],busyReplica 1 [5,6],busyReplica 0 []]

theorem preble_tps_idle_first_three : ∃ c : PolicyCluster PrebleTpsTree (Option Nat) Unit,
    Run (fun s move t => PolicyCluster.Step prebleTpsFlavour (prebleTpsQ ℚ 1) s move t ∧ s.FitsUsize) (.start idleBusyIdle ()) threeCallsStepping c ∧
      c.commits = [2,0,0] ∧ c.commits.take 2 = [2,0] ∧ idleReplicas c.batchSizes = [] := by
  have executed : (PolicyCluster.executeFitting 1 (.start idleBusyIdle ()) threeCallsStepping).map (·.commits) = some [2,0,0] := by decide +kernel
  obtain ⟨c,result,commits⟩ := Option.map_eq_some_iff.mp executed
  have run := PolicyCluster.executeFitting_run result
  have arrives : ∀ move ∈ threeCallsStepping, move.Arrives := by simp [threeCallsStepping,ClusterMove.Arrives,Entry.Whole,oneBlockEntry]
  obtain ⟨served,left⟩ := preble_tps_idle_first (le_refl 1) arrives run
  rw [commits] at served left
  exact ⟨c,run,commits,commits ▸ served,left⟩

namespace PolicyCluster
variable {F : Type} {c c' : PolicyCluster PrebleTpsTree (Option Nat) Unit} {level n : Nat}

-- The replicas in turn, the last one first.
structure Descending (level n : Nat) (c : PolicyCluster PrebleTpsTree (Option Nat) Unit) : Prop where
  count : c.batchSizes.length = n
  rotated : c.commits = (List.range c.commits.length).map fun m => n-1-m%n
  busy : ∀ (i : Nat) b, c.batchSizes[i]? = some b → b = level+share c.commits.length n (n-1-i)
  cold : ∀ context ∈ c.contexts, Cold context

theorem Descending.route {k b : Nat} (descending : Descending level n c) (routed : c.Routed k) (here : c.batchSizes[k]? = some b)
    (cold : ∀ context ∈ c'.contexts, Cold context) (commits : c'.commits = c.commits++[k]) (batch : c'.batchSizes = c.batchSizes.set k (b+1)) :
    Descending level n c' := by
  obtain ⟨least,last⟩ := routed.least_last descending.cold here
  have inside : k < n := descending.count ▸ (List.getElem?_eq_some_iff.mp here).1
  have size (i : Nat) (in_ : i < n) : ∃ b', c.batchSizes[i]? = some b' ∧ b' = level+share c.commits.length n (n-1-i) := by
    have there := List.getElem?_eq_getElem (show i < c.batchSizes.length from descending.count ▸ in_)
    exact ⟨_,there,descending.busy i _ there⟩
  -- Counted from the last replica on, the replicas take their turns.
  have turn : n-1-k = c.commits.length%n := by
    refine share_turn (g := fun s => level+s) (fun s t less => Nat.add_lt_add_left less level) (by omega) (fun i in_ => ?_) fun i earlier => ?_
    · obtain ⟨b',there,value⟩ := size (n-1-i) (by omega)
      have low := least _ b' there
      rw [value,descending.busy k b here,show n-1-(n-1-i) = i by omega] at low
      exact low
    · obtain ⟨b',there,value⟩ := size (n-1-i) (by omega)
      have low := last _ b' (by omega) there
      rw [value,descending.busy k b here,show n-1-(n-1-i) = i by omega] at low
      exact low
  refine ⟨by rw [batch,List.length_set,descending.count],?_,fun i b' there => ?_,cold⟩
  · rw [commits,List.length_append,List.length_singleton,List.range_succ,List.map_append,List.map_singleton,← descending.rotated,← turn,
      show n-1-(n-1-k) = k by omega]
  · rw [batch] at there
    have in_ : i < n := by simpa [descending.count] using (List.getElem?_eq_some_iff.mp there).1
    rw [commits,List.length_append,List.length_singleton,share_succ _ (show n-1-i < n by omega)]
    by_cases mine : i = k
    · subst mine
      rw [List.getElem?_set_self (descending.count.symm ▸ inside),Option.some.injEq] at there
      rw [if_pos turn,← there,descending.busy i b here,Nat.add_assoc]
    · rw [List.getElem?_set_ne (Ne.symm mine)] at there
      rw [if_neg (by omega),Nat.add_zero]
      exact descending.busy i b' there

variable [Zero F] [Add F] [Sub F] [Mul F] [Max F] [LE F] [DecidableLE F] {threshold : ℚ} {move : ClusterMove F}

theorem Moves.cold (moves : Moves prebleTpsFlavour (prebleTpsQ F threshold) c move c') (quiet : ∀ idx effect now, move ≠ .step idx effect now)
    (cold : ∀ context ∈ c.contexts, Cold context) : ∀ context ∈ c'.contexts, Cold context := by
  have changed {k : Nat} {next : ScheduleContext PrebleTpsTree} (still : Cold next) : ∀ context ∈ c.contexts.set k next, Cold context :=
    fun context member => (List.mem_or_eq_of_mem_set member).elim (cold context) fun here => here ▸ still
  cases moves with
  | schedule idle => exact cold
  | @capture entry slots k now context o call present free seen =>
    obtain ⟨empty,never⟩ := cold context (List.mem_of_getElem? present)
    refine changed ?_
    change (context.blockHash.tpsCount context.lmetric.bs now).1.tpsWindow.entries = [] ∧ (context.blockHash.tpsCount context.lmetric.bs now).1.lastBusyAt = none
    unfold PrebleTpsBlockHash.tpsCount
    split
    · exact ⟨empty,never⟩
    · exact ⟨by simp [SlidingWindow.lenAt,SlidingWindow.expire,SlidingWindow.expireFrom,empty],never⟩
  | decline call chose => exact cold
  | @commit entry next observations draw k cached context applied call chose at_ present result =>
    obtain ⟨hits,_,matcher,_⟩ := applied_lmetric result
    refine changed ?_
    rw [Cold,matcher]
    exact cold context (List.mem_of_getElem? present)
  | @afterExtra entry observations k now cached context blockHash call at_ present extended =>
    have still := cold context (List.mem_of_getElem? present)
    refine changed ?_
    change prebleTpsCompensateIdle now cached context.blockHash = some blockHash at extended
    simp only [prebleTpsCompensateIdle,PrebleTpsBlockHash.compensateIdleGap,still.2,Option.map_some,ite_self,Option.some.injEq] at extended
    exact extended ▸ still
  | @step k now effect context next present result => exact absurd rfl (quiet k effect now)

end PolicyCluster

-- A burst over replicas that never took a step, of prompts below the threshold:
-- the calls take them in turn, the last one first, from any level that they share.
theorem preble_tps_fans_out {F : Type} [Zero F] [Add F] [Sub F] [Mul F] [Max F] [LE F] [DecidableLE F] {threshold : ℚ}
    {contexts : List (ScheduleContext PrebleTpsTree)} {level : Nat} {history : List (ClusterMove F)}
    {c : PolicyCluster PrebleTpsTree (Option Nat) Unit} (high : 1 ≤ threshold)
    (cold : ∀ context ∈ contexts, context.lmetric.bs = level ∧ PolicyCluster.Cold context)
    (burst : ∀ move ∈ history, (∀ idx effect now, move ≠ .step idx effect now) ∧ ∀ entry, move = .schedule entry → entry.Whole)
    (run : Run (PolicyCluster.Step prebleTpsFlavour (prebleTpsQ F threshold)) (.start contexts ()) history c) :
    c.commits = ((List.range c.commits.length).map fun m => contexts.length-1-m%contexts.length) ∧
      ∀ (i : Nat) b, c.batchSizes[i]? = some b → b = level+share c.commits.length contexts.length (contexts.length-1-i) := by
  have quiet : Run (fun s move t => PolicyCluster.Step prebleTpsFlavour (prebleTpsQ F threshold) s move t ∧
      (∀ idx effect now, move ≠ .step idx effect now) ∧ ∀ entry, move = .schedule entry → entry.Whole) (.start contexts ()) history c :=
    run.weaken_of burst fun _ _ _ quiet taken => ⟨taken,quiet⟩
  have begun : PolicyCluster.Descending level contexts.length (.start contexts ()) := by
    refine ⟨List.length_map _,rfl,fun i b held => ?_,fun context member => (cold context member).2⟩
    obtain ⟨context,present,rfl⟩ := PolicyCluster.batchSizes_some.mp held
    simpa [PolicyCluster.start,share] using (cold context (List.mem_of_getElem? present)).1
  have kept := quiet.invariant (I := fun _ c => PolicyCluster.Watched (PolicyCluster.Observed prebleTpsFlavour) c ∧ PolicyCluster.Watched Shows c ∧
      (∀ entry slots, c.call = .capturing entry slots → entry.Whole) ∧ PolicyCluster.Descending level contexts.length c)
    ⟨PolicyCluster.observed_start contexts (),PolicyCluster.watched_free (fun _ _ call => by cases call),fun _ _ call => (by cases call),begun⟩ (by
      intro _ s move t held taken
      obtain ⟨indexed,shows_,whole,descending⟩ := held
      obtain ⟨step,still,complete⟩ := taken
      have moves := PolicyCluster.step_moves step
      have stays : ∀ idx effect now, move = .step idx effect now → effect.metricDelta.bsDec = 0 := fun idx effect now here => absurd here (still idx effect now)
      refine ⟨moves.observed indexed,moves.shows stays shows_,moves.whole complete whole,?_⟩
      rcases moves.routes high stays indexed shows_ whole with ⟨commits,batch⟩ | ⟨k,b,routed,here,commits,batch⟩
      · exact ⟨batch ▸ descending.count,commits ▸ descending.rotated,batch ▸ commits ▸ descending.busy,moves.cold still descending.cold⟩
      · exact descending.route routed here (moves.cold still descending.cold) commits batch)
  exact ⟨kept.2.2.2.rotated,kept.2.2.2.busy⟩

theorem preble_tps_fans_out_three : ∃ c : PolicyCluster PrebleTpsTree (Option Nat) Unit,
    Run (PolicyCluster.Step prebleTpsFlavour (prebleTpsQ ℚ 1)) (.start (List.replicate 2 (busyReplica 0 [])) ()) threeAdmissions c ∧
      c.commits = (List.range 3).map (fun m => 2-1-m%2) ∧ ∀ (i : Nat) b, c.batchSizes[i]? = some b → b = 0+share 3 2 (2-1-i) := by
  have executed : (PolicyCluster.execute prebleTpsFlavour (prebleTpsQ ℚ 1) (.start (List.replicate 2 (busyReplica 0 [])) ()) threeAdmissions).map
      (fun c => c.commits.length) = some 3 := by decide +kernel
  obtain ⟨c,result,three⟩ := Option.map_eq_some_iff.mp executed
  have run := PolicyCluster.execute_run result
  have cold : ∀ context ∈ List.replicate 2 (busyReplica 0 []), context.lmetric.bs = 0 ∧ PolicyCluster.Cold context := fun context member => by
    rw [List.eq_of_mem_replicate member]
    exact ⟨rfl,rfl,rfl⟩
  have burst : ∀ move ∈ threeAdmissions, (∀ idx effect now, move ≠ .step idx effect now) ∧ ∀ entry, move = .schedule entry → entry.Whole := by
    simp [threeAdmissions,Entry.Whole,oneBlockEntry]
  obtain ⟨rotated,busy⟩ := preble_tps_fans_out (le_refl 1) cold burst run
  rw [three] at rotated busy
  exact ⟨c,run,rotated,busy⟩

end BlitzRouter.Policy
