import BlitzRouter.BlockHashing
import BlitzRouter.EpochReuse
import BlitzRouter.PolicyRotation
import BlitzRouter.PrebleLoads

namespace BlitzRouter
open Radix FullBlocks

-- Only complete blocks are hashed.
def Entry.Whole (entry : Entry) : Prop := entry.blockHashState.blockHashes.length*entry.blockHashState.blockSize ≤ entry.request.inputTokens.length

-- With blocks of 16 tokens every prompt is hashed so.
theorem whole_new {ext : External} {request : ValidGenerateRequest} {reads : Option Nat} {entry : Entry}
    (made : Entry.new ext 16 request reads = some entry) : entry.Whole := by
  cases hashed : BlockHashState.new ext request.inputTokens 16 with
  | none => simp [Entry.new,hashed] at made
  | some state =>
    obtain rfl : ⟨request,state,⟨[],reads⟩,0⟩ = entry := by simpa [Entry.new,hashed] using made
    have size := (BlockHashState.new_eq hashed).2.2.2
    have rest : request.inputTokens.length%16 < 16 := Nat.mod_lt _ (by decide)
    rw [BlockHashState.new_long (Nat.le_refl 16),if_pos rest,Option.some.injEq] at hashed
    have count : state.blockHashes.length = request.inputTokens.length/16 := by
      rw [← hashed]
      change ([]++chain ext.xxh3WithSeed defaultBlockHash (fullBlocks 16 request.inputTokens)).length = _
      rw [List.nil_append,chain_length,fullBlocks,firstBlocks_length]
    change state.blockHashes.length*state.blockSize ≤ request.inputTokens.length
    rw [count,size]
    exact Nat.div_mul_le_self _ _

namespace Radix.RadixTreeBlockHash

theorem nextChild_le {t : RadixTreeBlockHash} {key : List Hash} {first : Hash} {children : Children} {child : Ptr} {i : Nat}
    (found : t.nextChild key first children = some (some (child,i))) : i ≤ key.length := by
  cases children with
  | small v =>
    change t.getChild key v = _ at found
    induction v with
    | nil => simp [getChild] at found
    | cons p rest ih =>
      simp only [getChild,Option.bind_eq_bind,Option.bind_eq_some_iff] at found
      obtain ⟨n,_,found⟩ := found
      split at found
      · exact ih found
      · cases found
        exact CommonPrefix.commonLen_le_right _ _
  | large m =>
    simp only [nextChild] at found
    split at found
    · cases found
    · simp only [Option.bind_eq_bind,Option.bind_eq_some_iff] at found
      obtain ⟨c,_,found⟩ := found
      split at found
      · cases found
      · cases found
        exact CommonPrefix.commonLen_le_right _ _

theorem getLoop_le {fuel : Nat} {t : RadixTreeBlockHash} {cur : Ptr} {key : List Hash} {n : Nat} (found : getLoop fuel t cur key = some n) :
    n ≤ key.length := by
  induction fuel generalizing cur key n with
  | zero => cases found
  | succ fuel ih =>
    simp only [getLoop,Option.bind_eq_bind,Option.bind_eq_some_iff] at found
    obtain ⟨node,_,found⟩ := found
    cases key with
    | nil =>
      cases found
      exact Nat.le_refl _
    | cons first rest =>
      simp only [Option.bind_eq_some_iff] at found
      obtain ⟨next,below,found⟩ := found
      cases next with
      | none =>
        cases found
        exact Nat.zero_le _
      | some hit =>
        obtain ⟨child,i⟩ := hit
        have within := nextChild_le below
        simp only [Option.bind_eq_some_iff] at found
        obtain ⟨c,_,found⟩ := found
        split at found
        · cases found
          exact within
        · simp only [Option.bind_eq_some_iff,Option.pure_def,Option.some.injEq] at found
          obtain ⟨more,later,rfl⟩ := found
          have bound := ih later
          rw [List.length_drop] at bound
          omega

end Radix.RadixTreeBlockHash

namespace Policy
open EvenSplit

-- Nothing in the window is older than a time, so that nothing expires for its length.
def Unexpired (floor duration : Nat) (w : SlidingWindow ℚ (Window.Sum ℚ)) : Prop := w.duration = duration ∧ ∀ e ∈ w.entries, floor ≤ e.1

section
variable {floor duration now : Nat} {w : SlidingWindow ℚ (Window.Sum ℚ)}

theorem Unexpired.expire (unexpired : Unexpired floor duration w) (soon : now ≤ floor+duration) : w.expire now = w := by
  obtain ⟨entries,agg,length⟩ := w
  obtain rfl : length = duration := unexpired.1
  cases entries with
  | nil => rfl
  | cons e rest =>
    have here := unexpired.2 e List.mem_cons_self
    simp only [SlidingWindow.expire,SlidingWindow.expireFrom]
    rw [if_neg (by omega)]

theorem Unexpired.push (unexpired : Unexpired floor duration w) (later : floor ≤ now) (x : ℚ) : Unexpired floor duration (w.push now x) := by
  refine ⟨unexpired.1,fun e member => ?_⟩
  rcases List.mem_append.mp member with before | here
  · exact unexpired.2 e before
  · rw [List.mem_singleton.mp here]
    exact later

end

-- The samples of the batch size that some admissions leave, from a level on.
def samples (level : Nat) : Nat → ℚ
  | 0 => 0
  | k+1 => samples level k+(level+k+1 : Nat)

theorem samples_rise (level : Nat) : StrictMono (samples level) := by
  refine strictMono_nat_of_lt_succ fun k => ?_
  have positive : (0 : ℚ) < (level+k+1 : Nat) := by exact_mod_cast Nat.succ_pos _
  exact lt_add_of_pos_right _ positive

-- What an observation of a replica says of its window and of its tree.
def Sees (entry : Entry) (_ : Nat) (o : Observation ℚ) (context : ScheduleContext PrebleBsBlockHash) : Prop :=
  o.features = context.blockHash.bsWindow.agg.value ∧ o.hitBlocks ≤ entry.blockHashState.blockHashes.length

theorem prebleMatches_whole {ε : Type} {entry : Entry} {observations : List (Observation ε)} {threshold : ℚ} (whole : entry.Whole)
    (high : 1 ≤ threshold) (hits : ∀ o ∈ observations, o.hitBlocks ≤ entry.blockHashState.blockHashes.length) : prebleMatches threshold entry observations = false := by
  have global : prebleGlobalMatchBlocks observations ≤ entry.blockHashState.blockHashes.length := by
    unfold prebleGlobalMatchBlocks
    cases most : (observations.map fun o => o.hitBlocks).max? with
    | none => exact Nat.zero_le _
    | some value =>
      obtain ⟨o,member,rfl⟩ := List.mem_map.mp (List.max?_eq_some_iff.mp most).1
      exact hits o member
  have tokens : prebleGlobalMatchBlocks observations*entry.blockHashState.blockSize ≤ max entry.request.inputTokens.length 1 :=
    ((Nat.mul_le_mul_right _ global).trans whole).trans (Nat.le_max_left _ _)
  have positive : (0 : ℚ) < (max entry.request.inputTokens.length 1 : Nat) := by exact_mod_cast Nat.lt_of_lt_of_le Nat.one_pos (Nat.le_max_right _ _)
  have ratio : ((prebleGlobalMatchBlocks observations*entry.blockHashState.blockSize : Nat) : ℚ)/(max entry.request.inputTokens.length 1 : Nat) ≤ 1 := by
    rw [div_le_one positive]
    exact_mod_cast tokens
  simpa [prebleMatches] using ratio.trans high

namespace PolicyCluster
variable {F : Type} {c c' : PolicyCluster PrebleBsBlockHash ℚ Unit} {floor duration level n : Nat}

-- The commits that `after_extra` has sampled.
def sampled (c : PolicyCluster PrebleBsBlockHash ℚ Unit) : Nat :=
  match c.call with
  | .chosen _ _ _ => c.commits.length-1
  | _ => c.commits.length

structure Fanned (floor duration level n : Nat) (c : PolicyCluster PrebleBsBlockHash ℚ Unit) : Prop where
  count : c.contexts.length = n
  rotated : c.commits = (List.range c.commits.length).map (·%n)
  busy : ∀ (i : Nat) context, c.contexts[i]? = some context → context.lmetric.bs = level+share c.commits.length n i
  windows : ∀ (i : Nat) context, c.contexts[i]? = some context → Unexpired floor duration context.blockHash.bsWindow ∧
    context.blockHash.bsWindow.agg.value = samples level (share c.sampled n i)
  chosen : ∀ entry observations idx, c.call = .chosen entry observations idx → ∃ m, c.commits.length = m+1 ∧ idx = m%n
  whole : ∀ entry slots, c.call = .capturing entry slots → entry.Whole

theorem fanned_start {contexts : List (ScheduleContext PrebleBsBlockHash)}
    (cold : ∀ context ∈ contexts, context.lmetric.bs = level ∧ context.blockHash.bsWindow = .new duration ⟨0⟩) :
    Fanned floor duration level contexts.length (start contexts ()) where
  count := rfl
  rotated := rfl
  busy := by
    intro i context present
    rw [(cold context (List.mem_of_getElem? present)).1]
    simp [start,share]
  windows := by
    intro i context present
    rw [(cold context (List.mem_of_getElem? present)).2]
    exact ⟨⟨rfl,by simp [SlidingWindow.new]⟩,by simp [start,sampled,share,samples,SlidingWindow.new]⟩
  chosen := fun entry observations idx call => by cases call
  whole := fun entry slots call => by cases call

theorem Fanned.unchosen (fanned : Fanned floor duration level n c) (unchosen : ∀ entry observations idx, c.call ≠ .chosen entry observations idx) :
    ∀ (i : Nat) context, c.contexts[i]? = some context → Unexpired floor duration context.blockHash.bsWindow ∧
      context.blockHash.bsWindow.agg.value = samples level (share c.commits.length n i) := by
  have same : c.sampled = c.commits.length := by
    unfold sampled
    split
    · rename_i call
      exact absurd call (unchosen _ _ _)
    · rfl
  exact same ▸ fanned.windows

variable [Zero F] [Add F] [Sub F] [Mul F] [Max F] [LE F] [DecidableLE F] {threshold : ℚ} {move : ClusterMove F}

theorem Moves.sees (moves : Moves prebleBsFlavour (prebleBsQ F threshold) c move c') (quiet : ∀ idx effect now, move ≠ .step idx effect now)
    (sees : Watched Sees c) : Watched Sees c' := by
  refine moves.watched sees (fun entry idx now context o seen => ?_) fun _ idx _ _ effect now _ step _ _ => absurd step (quiet idx effect now)
  obtain ⟨hits,found,rfl⟩ := observe_eq seen
  exact ⟨rfl,RadixTreeBlockHash.getLoop_le found⟩

-- Below the threshold the policy takes the first replica of the least samples.
theorem prebleBsQ_picks {gctx : Unit} {entry : Entry} {observations : List (Observation ℚ)} {draw : F} {k : Nat}
    (gate : prebleMatches threshold entry observations = false)
    (chose : ((prebleBsQ F threshold).body gctx entry observations).eval draw (rootTarget observations) = .ok (some k)) :
    selectMinBy observations (fun o => o.features) = some k := by
  have fails : filterThen observations (fun _ => prebleMatches threshold entry observations)
      (fun t => (Expr.select (.maxBy fun o => toLex (o.hitBlocks,-o.features)) : Expr ℚ F).eval draw t)
      (fun t => (Expr.select (.minBy fun o => o.features) : Expr ℚ F).eval draw t) = _ := filterThen_fail fun _ _ => gate
  exact Except.ok.inj (fails.symm.trans chose)

-- At a decision no replica matches a larger part of the prompt than the threshold.
theorem Fanned.gate (fanned : Fanned floor duration level n c) (high : 1 ≤ threshold) (sees : Watched Sees c) {entry : Entry}
    {observations : List (Observation ℚ)} (call : c.call = .capturing entry (observations.map some)) :
    prebleMatches threshold entry observations = false := by
  obtain ⟨equal,holds⟩ := sees.observations call
  refine prebleMatches_whole (fanned.whole entry _ call) high fun o member => ?_
  obtain ⟨i,in_,rfl⟩ := List.getElem_of_mem member
  exact (holds i _ _ (List.getElem?_eq_getElem in_) (List.getElem?_eq_getElem (equal ▸ in_))).2

theorem Fanned.turn (fanned : Fanned floor duration level n c) (high : 1 ≤ threshold) (indexed : Watched (Observed prebleBsFlavour) c)
    (sees : Watched Sees c) {entry : Entry} {observations : List (Observation ℚ)} {draw : F} {k : Nat} (call : c.call = .capturing entry (observations.map some))
    (chose : ((prebleBsQ F threshold).body c.gctx entry observations).eval draw (rootTarget observations) = .ok (some k)) (inside : k < n) :
    k = c.commits.length%n := by
  obtain ⟨equal,holds⟩ := sees.observations call
  have windows := fanned.unchosen (by simp [call])
  -- Each observation shows the samples of its replica.
  have seen (i : Nat) (in_ : i < n) : ∃ o, observations[i]? = some o ∧ o.features = samples level (share c.commits.length n i) := by
    have there : i < c.contexts.length := fanned.count ▸ in_
    refine ⟨_,List.getElem?_eq_getElem (equal ▸ there),?_⟩
    rw [← (windows i _ (List.getElem?_eq_getElem there)).2]
    exact (holds i _ _ (List.getElem?_eq_getElem (equal ▸ there)) (List.getElem?_eq_getElem there)).1
  obtain ⟨o,mine,least,first⟩ := selectMinBy_first (indexed.indexed call) (prebleBsQ_picks (fanned.gate high sees call) chose)
  obtain ⟨o',mine',load⟩ := seen k inside
  cases mine.symm.trans mine'
  refine share_turn (samples_rise level) inside (fun i in_ => ?_) fun i earlier => ?_
  · obtain ⟨other,there,value⟩ := seen i in_
    rw [← load,← value]
    exact least other (List.mem_of_getElem? there)
  · obtain ⟨other,there,value⟩ := seen i (earlier.trans inside)
    rw [← load,← value]
    exact first i other earlier there

theorem Fanned.commit (fanned : Fanned floor duration level n c) {entry next : Entry} {observations : List (Observation ℚ)} {k : Nat}
    {context applied : ScheduleContext PrebleBsBlockHash} {cached : BlitzRouter.Observation} (call : c.call = .capturing entry (observations.map some))
    (turn : k = c.commits.length%n) (present : c.contexts[k]? = some context) (result : applyDefaultAfter entry context cached = .ok (next,applied)) :
    Fanned floor duration level n {c with
      contexts := c.contexts.set k applied,call := .chosen next observations k,commits := c.commits++[k]} := by
  have windows := fanned.unchosen (by simp [call])
  have inside : k < n := fanned.count ▸ (List.getElem?_eq_some_iff.mp present).1
  obtain ⟨hits,_,matcher,counted⟩ := applied_lmetric result
  refine ⟨(List.length_set ..).trans fanned.count,?_,contexts_set present (fun i context there other => ?_) ?_,
    contexts_set present (fun i context there _ => ?_) ?_,fun _ _ _ call' => ?_,fun _ _ call => (by cases call)⟩
  · simp only [List.length_append,List.length_singleton,List.range_succ,List.map_append,List.map_singleton]
    rw [← fanned.rotated,turn]
  · have in_ : i < n := fanned.count ▸ (List.getElem?_eq_some_iff.mp there).1
    simp only [List.length_append,List.length_singleton]
    rw [share_succ _ in_,if_neg (turn ▸ other),Nat.add_zero]
    exact fanned.busy i context there
  · simp only [List.length_append,List.length_singleton]
    rw [share_succ _ inside,if_pos turn,counted]
    exact congrArg (·+1) (fanned.busy k context present)
  · simp only [sampled,List.length_append,List.length_singleton,Nat.add_sub_cancel]
    exact windows i context there
  · simp only [sampled,List.length_append,List.length_singleton,Nat.add_sub_cancel]
    exact matcher ▸ windows k context present
  · cases call'
    exact ⟨c.commits.length,by simp,turn⟩

-- `after_extra` samples the batch size that the commit left.
theorem Fanned.sample (fanned : Fanned floor duration level n c) {entry : Entry} {observations : List (Observation ℚ)} {k now : Nat}
    {context : ScheduleContext PrebleBsBlockHash} (call : c.call = .chosen entry observations k) (present : c.contexts[k]? = some context)
    (later : floor ≤ now) : Fanned floor duration level n {c with
      contexts := c.contexts.set k {context with blockHash := prebleBsUpdateAfter now context},call := .idle} := by
  obtain ⟨m,more,turn⟩ := fanned.chosen _ _ _ call
  have before : c.sampled = m := by simp [sampled,call,more]
  have inside : k < n := fanned.count ▸ (List.getElem?_eq_some_iff.mp present).1
  have busy := fanned.busy k context present
  rw [more,share_succ m inside,if_pos turn] at busy
  obtain ⟨unexpired,value⟩ := fanned.windows k context present
  refine ⟨(List.length_set ..).trans fanned.count,fanned.rotated,contexts_set present (fun i context there _ => fanned.busy i context there)
    (fanned.busy k context present),contexts_set present (fun i context there other => ?_) ⟨unexpired.push later _,?_⟩,
    fun _ _ _ call => (by cases call),fun _ _ call => (by cases call)⟩
  · have in_ : i < n := fanned.count ▸ (List.getElem?_eq_some_iff.mp there).1
    change _ ∧ _ = samples level (share c.commits.length n i)
    rw [more,share_succ m in_,if_neg (turn ▸ other),Nat.add_zero,← before]
    exact fanned.windows i context there
  · change context.blockHash.bsWindow.agg.value+(context.lmetric.bs : ℚ) = samples level (share c.commits.length n k)
    rw [more,share_succ m inside,if_pos turn,value,before,busy]
    rfl

theorem Moves.fanned (moves : Moves prebleBsFlavour (prebleBsQ F threshold) c move c') (quiet : ∀ idx effect now, move ≠ .step idx effect now)
    (timed : ∀ now ∈ move.time, floor ≤ now ∧ now ≤ floor+duration) (whole : ∀ entry, move = .schedule entry → entry.Whole) (high : 1 ≤ threshold)
    (indexed : Watched (Observed prebleBsFlavour) c) (sees : Watched Sees c) (fanned : Fanned floor duration level n c) :
    Fanned floor duration level n c' := by
  cases moves with
  | @schedule entry idle =>
    refine ⟨fanned.count,fanned.rotated,fanned.busy,fanned.unchosen (by simp [idle]),fun _ _ _ call => (by cases call),fun entry' slots call => ?_⟩
    cases call
    exact whole entry rfl
  | @capture entry slots k now context o call present free seen =>
    have windows := fanned.unchosen (by simp [call])
    have kept : (prebleBsFlavour.look now context).2.bsWindow = context.blockHash.bsWindow := (windows k context present).1.expire (timed now rfl).2
    refine ⟨(List.length_set ..).trans fanned.count,fanned.rotated,contexts_set present (fun i context there _ => fanned.busy i context there) ?_,
      contexts_set present (fun i context there _ => windows i context there) ?_,fun _ _ _ call => (by cases call),fun entry' slots' call' => ?_⟩
    · exact fanned.busy k context present
    · change Unexpired floor duration (prebleBsFlavour.look now context).2.bsWindow ∧
        (prebleBsFlavour.look now context).2.bsWindow.agg.value = samples level (share c.commits.length n k)
      rw [kept]
      exact windows k context present
    · cases call'
      exact fanned.whole entry slots call
  | @decline entry observations draw call chose =>
    exact ⟨fanned.count,fanned.rotated,fanned.busy,fanned.unchosen (by simp [call]),fun _ _ _ call => (by cases call),fun _ _ call => (by cases call)⟩
  | @commit entry next observations draw k cached context applied call chose at_ present result =>
    have inside : k < n := fanned.count ▸ (List.getElem?_eq_some_iff.mp present).1
    exact fanned.commit call (fanned.turn high indexed sees call chose inside) present result
  | @afterExtra entry observations k now cached context blockHash call at_ present extended =>
    cases extended
    exact fanned.sample call present (timed now rfl).1
  | @step k now effect context next present result => exact absurd rfl (quiet k effect now)

end PolicyCluster

-- With a threshold that no prompt passes, a burst of whole prompts within the
-- window fans out over the replicas in turn, from any level that they share and
-- windows without samples. No decision goes by what the replicas have cached.
theorem preble_bs_fans_out {F : Type} [Zero F] [Add F] [Sub F] [Mul F] [Max F] [LE F] [DecidableLE F] {threshold : ℚ}
    {contexts : List (ScheduleContext PrebleBsBlockHash)} {floor duration level : Nat} {history : List (ClusterMove F)}
    {c : PolicyCluster PrebleBsBlockHash ℚ Unit} (high : 1 ≤ threshold)
    (cold : ∀ context ∈ contexts, context.lmetric.bs = level ∧ context.blockHash.bsWindow = .new duration ⟨0⟩)
    (burst : ∀ move ∈ history, (∀ idx effect now, move ≠ .step idx effect now) ∧ (∀ now ∈ move.time, floor ≤ now ∧ now ≤ floor+duration) ∧
      ∀ entry, move = .schedule entry → entry.Whole)
    (run : Run (PolicyCluster.Step prebleBsFlavour (prebleBsQ F threshold)) (.start contexts ()) history c) :
    c.commits = (List.range c.commits.length).map (·%contexts.length) ∧
      (∀ i, i < contexts.length → c.commits.count i = share c.commits.length contexts.length i) ∧
      ∀ entry observations, c.call = .capturing entry (observations.map some) → prebleMatches threshold entry observations = false := by
  have quiet : Run (fun s move t => PolicyCluster.Step prebleBsFlavour (prebleBsQ F threshold) s move t ∧ (∀ idx effect now, move ≠ .step idx effect now) ∧
      (∀ now ∈ move.time, floor ≤ now ∧ now ≤ floor+duration) ∧ ∀ entry, move = .schedule entry → entry.Whole) (.start contexts ()) history c :=
    run.weaken_of burst fun _ _ _ quiet taken => ⟨taken,quiet⟩
  have kept := quiet.invariant (I := fun _ c => PolicyCluster.Watched (PolicyCluster.Observed prebleBsFlavour) c ∧ PolicyCluster.Watched Sees c ∧
      PolicyCluster.Fanned floor duration level contexts.length c)
    ⟨PolicyCluster.observed_start contexts (),PolicyCluster.watched_free (fun _ _ call => by cases call),PolicyCluster.fanned_start cold⟩ (by
      intro _ s move t held taken
      obtain ⟨indexed,sees,fanned⟩ := held
      obtain ⟨step,still,timed,whole⟩ := taken
      have moves := PolicyCluster.step_moves step
      exact ⟨moves.observed indexed,moves.sees still sees,moves.fanned still timed whole high indexed sees fanned⟩)
  have rotated := kept.2.2.rotated
  refine ⟨rotated,fun i inside => ?_,fun entry observations call => kept.2.2.gate high kept.2.1 call⟩
  rw [← count_turns c.commits.length inside,← rotated]

def threeAdmissions : List (ClusterMove ℚ) :=
  let call (now : Nat) : List (ClusterMove ℚ) := [.schedule oneBlockEntry,.capture 0 now,.capture 1 now,.apply 0,.afterExtra now]
  call 1++call 2++call 3

-- The prompt is one complete block, the threshold is never exceeded.
theorem preble_bs_fans_out_three : ∃ c : PolicyCluster PrebleBsBlockHash ℚ Unit,
    Run (PolicyCluster.Step prebleBsFlavour (prebleBsQ ℚ 1)) (.start (List.replicate 2 ⟨LMetric.empty,⟨.new 4,.new 180 ⟨0⟩⟩⟩) ()) threeAdmissions c ∧
    c.commits = [0,1,0] ∧ c.commits.count 0 = share 3 2 0 := by
  have executed : (PolicyCluster.execute prebleBsFlavour (prebleBsQ ℚ 1) (.start (List.replicate 2 ⟨LMetric.empty,⟨.new 4,.new 180 ⟨0⟩⟩⟩) ())
      threeAdmissions).map (·.commits) = some [0,1,0] := by decide +kernel
  obtain ⟨c,result,commits⟩ := Option.map_eq_some_iff.mp executed
  have run := PolicyCluster.execute_run result
  have cold : ∀ context ∈ List.replicate 2 (⟨LMetric.empty,⟨.new 4,.new 180 ⟨0⟩⟩⟩ : ScheduleContext PrebleBsBlockHash),
      context.lmetric.bs = 0 ∧ context.blockHash.bsWindow = .new 180 ⟨0⟩ := fun context member => by
    rw [List.eq_of_mem_replicate member]
    exact ⟨rfl,rfl⟩
  have burst : ∀ move ∈ threeAdmissions, (∀ idx effect now, move ≠ .step idx effect now) ∧ (∀ now ∈ move.time, 0 ≤ now ∧ now ≤ 0+180) ∧
      ∀ entry, move = .schedule entry → entry.Whole := by
    simp [threeAdmissions,ClusterMove.time,Entry.Whole,oneBlockEntry]
  refine ⟨c,run,commits,?_⟩
  have counted := (preble_bs_fans_out (le_refl 1) cold burst run).2.1 0 (by decide)
  rwa [commits] at counted ⊢

end Policy
end BlitzRouter
