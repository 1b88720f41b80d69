import BlitzRouter.EvenSplit
import BlitzRouter.PolicyBalance

namespace BlitzRouter.Policy
open Radix EvenSplit

-- Takes the first replica of the least load.
def TakesFirst {ε F γ : Type} [Zero F] [Add F] [Sub F] [Mul F] [Max F] [LE F] [DecidableLE F] (policy : PolicyInput ε F γ) (w : Weights) : Prop :=
  ∀ gctx entry (observations : List (Observation ε)) draw idx, (∀ i (o : Observation ε), observations[i]? = some o → o.idx = i) →
    (policy.body gctx entry observations).eval draw (rootTarget observations) = .ok (some idx) →
    ∃ o, observations[idx]? = some o ∧ (∀ other ∈ observations, w.observed o ≤ w.observed other) ∧
      ∀ i other, i < idx → observations[i]? = some other → w.observed o < w.observed other

section
variable {ε F : Type} [Zero F] [Add F] [Sub F] [Mul F] [Max F] [LE F] [DecidableLE F]

theorem selectMinBy_first {σ : Type} [LinearOrder σ] {score : Observation ε → σ} {observations : List (Observation ε)} {idx : Nat}
    (indexed : ∀ i (o : Observation ε), observations[i]? = some o → o.idx = i) (chose : selectMinBy observations score = some idx) :
    ∃ o, observations[idx]? = some o ∧ (∀ other ∈ observations, score o ≤ score other) ∧
      ∀ i other, i < idx → observations[i]? = some other → score o < score other := by
  have picked : (Extremes.minBy (fun a b => compare (score a) (score b)) observations).map Observation.idx = some idx := chose
  obtain ⟨o,kept,rfl⟩ := Option.map_eq_some_iff.mp picked
  have least := Extremes.minBy_least kept
  obtain ⟨before,after,rfl,first⟩ := Extremes.minBy_first kept
  have here : (before++o::after)[before.length]? = some o := by simp
  rw [indexed _ _ here]
  refine ⟨o,here,least,fun i other earlier at_ => ?_⟩
  rw [List.getElem?_append_left earlier] at at_
  exact first other (List.mem_of_getElem? at_)

theorem minBy_takes {score : Observation ε → Nat} {w : Weights} (same : ∀ o, score o = w.observed o) :
    TakesFirst (stateless fun _ _ => Expr.select (.minBy score) : PolicyInput ε F Unit) w := by
  intro gctx entry observations draw idx indexed chose
  obtain ⟨o,here,least,first⟩ := selectMinBy_first indexed (Except.ok.inj chose)
  refine ⟨o,here,fun other member => ?_,fun i other earlier at_ => ?_⟩
  · rw [← same,← same]
    exact least other member
  · rw [← same,← same]
    exact first i other earlier at_

end

-- What was observed of a replica is still its load.
def Current {β ε : Type} (w : Weights) (_ : Entry) (_ : Nat) (o : Observation ε) (context : ScheduleContext β) : Prop :=
  w.observed o = w.carried context

namespace PolicyCluster
variable {β ε F γ : Type} {c c' : PolicyCluster β ε γ} {w : Weights} {n level : Nat}

-- Every replica has what an even split of the commits gives it, on top of a level.
structure Levelled (w : Weights) (n level : Nat) (c : PolicyCluster β ε γ) : Prop where
  count : c.contexts.length = n
  rotated : c.commits = (List.range c.commits.length).map (·%n)
  loads : ∀ i, i < n → loadAt w c.contexts i = level+(w.bs+w.waiting)*share c.commits.length n i

theorem levelled_start {contexts : List (ScheduleContext β)} {gctx : γ} (level_ : ∀ context ∈ contexts, w.carried context = level) :
    Levelled w contexts.length level (start contexts gctx : PolicyCluster β ε γ) where
  count := rfl
  rotated := rfl
  loads := by
    intro i inside
    have none_ : share 0 contexts.length i = 0 := by simp [share]
    rw [show loadAt w (start contexts gctx : PolicyCluster β ε γ).contexts i = w.carried contexts[i] from
      loadAt_present (List.getElem?_eq_getElem inside),level_ _ (List.getElem_mem inside)]
    simp [start,none_]

-- A move that changes neither the loads nor the commits.
theorem Levelled.same (levelled : Levelled w n level c) (count : c'.contexts.length = c.contexts.length)
    (commits : c'.commits = c.commits) (loads : loadAt w c'.contexts = loadAt w c.contexts) : Levelled w n level c' :=
  ⟨count.trans levelled.count,commits ▸ levelled.rotated,fun i inside => by rw [loads,commits]; exact levelled.loads i inside⟩

-- The first replica of the least load is the next in turn.
theorem Levelled.turn (levelled : Levelled w n level c) (weighs : 0 < w.bs+w.waiting) {k : Nat} (inside : k < n)
    (least : ∀ i, i < n → loadAt w c.contexts k ≤ loadAt w c.contexts i)
    (first : ∀ i, i < k → loadAt w c.contexts k < loadAt w c.contexts i) : k = c.commits.length%n := by
  have rises : StrictMono fun s => level+(w.bs+w.waiting)*s := fun s t less => Nat.add_lt_add_left (Nat.mul_lt_mul_of_pos_left less weighs) level
  refine share_turn rises inside (fun i in_ => ?_) fun i earlier => ?_
  · rw [← levelled.loads k inside,← levelled.loads i in_]
    exact least i in_
  · rw [← levelled.loads k inside,← levelled.loads i (earlier.trans inside)]
    exact first i earlier

variable [BlockHash β] [Zero F] [Add F] [Sub F] [Mul F] [Max F] [LE F] [DecidableLE F] {flavour : Flavour β ε}
  {policy : PolicyInput ε F γ} {move : ClusterMove F}

theorem Levelled.commit (levelled : Levelled w n level c) {entry next : Entry} {k : Nat} {context applied : ScheduleContext β}
    {cached : BlitzRouter.Observation} {call : Call ε} (turn : k = c.commits.length%n) (present : c.contexts[k]? = some context)
    (result : applyDefaultAfter entry context cached = .ok (next,applied)) :
    Levelled w n level {c with contexts := c.contexts.set k applied,call := call,commits := c.commits++[k]} where
  count := by
    simp only [List.length_set]
    exact levelled.count
  rotated := by
    simp only [List.length_append,List.length_singleton,List.range_succ,List.map_append,List.map_singleton]
    rw [← levelled.rotated,turn]
  loads := by
    intro i inside
    simp only [List.length_append,List.length_singleton]
    rw [loadAt_set present,share_succ _ inside,Nat.mul_add,← Nat.add_assoc,← levelled.loads i inside]
    by_cases here : i = k
    · rw [if_pos here,if_pos (here.trans turn),here,loadAt_present present,applied_carried result,Nat.mul_one]
    · rw [if_neg here,if_neg (turn ▸ here),Nat.mul_zero,Nat.add_zero]

theorem Moves.levelled (moves : Moves flavour policy c move c') (quiet : ∀ idx effect now, move ≠ .step idx effect now)
    (takes : TakesFirst policy w) (weighs : 0 < w.bs+w.waiting) (indexed : Watched (Observed flavour) c) (current : Watched (Current w) c)
    (levelled : Levelled w n level c) : Levelled w n level c' := by
  cases moves with
  | schedule idle => exact levelled.same rfl rfl rfl
  | capture call present free seen => exact levelled.same (List.length_set ..) rfl (loadAt_matcher present _)
  | decline call chose => exact levelled.same rfl rfl rfl
  | @commit entry next observations draw k cached context applied call chose at_ present result =>
    obtain ⟨same,holds⟩ := current.observations call
    have inside : k < n := levelled.count ▸ (List.getElem?_eq_some_iff.mp present).1
    -- The observations are the loads, replica by replica.
    have seen (i : Nat) (in_ : i < n) : ∃ o, observations[i]? = some o ∧ w.observed o = loadAt w c.contexts i := by
      have there : i < c.contexts.length := levelled.count ▸ in_
      refine ⟨_,List.getElem?_eq_getElem (same ▸ there),?_⟩
      rw [loadAt_present (List.getElem?_eq_getElem there)]
      exact holds i _ _ (List.getElem?_eq_getElem (same ▸ there)) (List.getElem?_eq_getElem there)
    obtain ⟨o,mine,least,first⟩ := takes c.gctx entry observations draw k (indexed.indexed call) chose
    obtain ⟨o',mine',load⟩ := seen k inside
    cases mine.symm.trans mine'
    refine levelled.commit (levelled.turn weighs inside (fun i in_ => ?_) fun i earlier => ?_) present result
    · obtain ⟨other,at_,same⟩ := seen i in_
      rw [← load,← same]
      exact least other (List.mem_of_getElem? at_)
    · obtain ⟨other,at_,same⟩ := seen i (Nat.lt_trans earlier inside)
      rw [← load,← same]
      exact first i other earlier at_
  | afterExtra call at_ present extended => exact levelled.same (List.length_set ..) rfl (loadAt_matcher present _)
  | @step k now effect context next present result => exact absurd rfl (quiet k effect now)

theorem Moves.current (moves : Moves flavour policy c move c') (quiet : ∀ idx effect now, move ≠ .step idx effect now)
    (current : Watched (Current w) c) : Watched (Current w) c' := by
  refine moves.watched current (fun entry idx now context o seen => ?_) fun _ idx _ _ effect now _ step _ _ => absurd step (quiet idx effect now)
  obtain ⟨hits,_,rfl⟩ := observe_eq seen
  rfl

end PolicyCluster

-- Between two step outputs, replicas of equal load are taken in turn.
def Rotates {F : Type} [Zero F] [Add F] [Sub F] [Mul F] [Max F] [LE F] [DecidableLE F] (ε : Type) (policy : PolicyInput ε F Unit) (w : Weights) : Prop :=
  ∀ (β : Type) [BlockHash β] (flavour : Flavour β ε) (contexts : List (ScheduleContext β)) (level : Nat) history c,
    (∀ context ∈ contexts, w.carried context = level) → (∀ move ∈ history, ∀ idx effect now, move ≠ ClusterMove.step idx effect now) →
    Run (PolicyCluster.Step flavour policy) (.start contexts ()) history c →
    c.commits = (List.range c.commits.length).map (·%contexts.length) ∧
      ∀ (i : Nat) context, c.contexts[i]? = some context → w.carried context = level+(w.bs+w.waiting)*share c.commits.length contexts.length i

section
variable {F : Type} [Zero F] [Add F] [Sub F] [Mul F] [Max F] [LE F] [DecidableLE F] {ε : Type}

theorem rotates_of_takes {policy : PolicyInput ε F Unit} {w : Weights} (takes : TakesFirst policy w) (weighs : 0 < w.bs+w.waiting) :
    Rotates ε policy w := by
  intro β _ flavour contexts level history c level_ burst run
  have quiet : Run (fun s move t => PolicyCluster.Step flavour policy s move t ∧ ∀ idx effect now, move ≠ .step idx effect now)
      (.start contexts ()) history c := run.weaken_of burst fun _ _ _ quiet taken => ⟨taken,quiet⟩
  have kept := quiet.invariant (I := fun _ c => PolicyCluster.Watched (PolicyCluster.Observed flavour) c ∧ PolicyCluster.Watched (Current w) c ∧
      PolicyCluster.Levelled w contexts.length level c)
    ⟨PolicyCluster.observed_start contexts (),PolicyCluster.watched_free (fun _ _ call => by cases call),PolicyCluster.levelled_start level_⟩ (by
      intro _ s move t held taken
      obtain ⟨indexed,current,levelled⟩ := held
      have moves := PolicyCluster.step_moves taken.1
      exact ⟨moves.observed indexed,moves.current taken.2 current,moves.levelled taken.2 takes weighs indexed current levelled⟩)
  obtain ⟨_,_,levelled⟩ := kept
  refine ⟨levelled.rotated,fun i context present => ?_⟩
  rw [← levelled.loads i (levelled.count ▸ (List.getElem?_eq_some_iff.mp present).1)]
  exact (PolicyCluster.loadAt_present present).symm

variable (ε F)

theorem least_loaded_rotate : Rotates ε (leastBsQ ε F) ⟨1,0⟩ ∧ Rotates ε (leastWaitingQ ε F) ⟨0,1⟩ ∧ Rotates ε (jShortestWeightQ ε F) ⟨1,4⟩ := by
  refine ⟨rotates_of_takes (minBy_takes fun o => ?_) (by decide),rotates_of_takes (minBy_takes fun o => ?_) (by decide),
    rotates_of_takes (minBy_takes fun o => ?_) (by decide)⟩
  · simp [Weights.observed,Weights.load]
  · simp [Weights.observed,Weights.load]
  · simp only [Weights.observed,Weights.load]
    omega

end

-- Three calls on end, the captures in any order.
def threeInTurn : List (ClusterMove ℚ) :=
  [.schedule promptEntry,.capture 1 0,.capture 0 0,.apply 0,.afterExtra 0,.schedule promptEntry,.capture 0 0,.capture 1 0,.apply 0,.afterExtra 0,
    .schedule promptEntry,.capture 0 0,.capture 1 0,.apply 0,.afterExtra 0]

theorem least_loaded_rotate_three : ∃ c : PolicyCluster HashTableBlockHash Unit Unit,
    Run (PolicyCluster.Step (.plain _) (jShortestWeightQ Unit ℚ)) (.start twoReplicas ()) threeInTurn c ∧ c.commits = [0,1,0] ∧
    c.contexts.map (Weights.carried ⟨1,4⟩) = [10,5] ∧ ∀ (i : Nat) context, c.contexts[i]? = some context → Weights.carried ⟨1,4⟩ context = 0+5*share 3 2 i := by
  have executed : (PolicyCluster.execute (.plain HashTableBlockHash) (jShortestWeightQ Unit ℚ) (.start twoReplicas ()) threeInTurn).map
      (fun c => (c.commits,c.contexts.map (Weights.carried ⟨1,4⟩))) = some ([0,1,0],[10,5]) := by decide +kernel
  obtain ⟨c,result,last⟩ := Option.map_eq_some_iff.mp executed
  obtain ⟨commits,loads⟩ := Prod.mk.inj last
  have run := PolicyCluster.execute_run result
  have even := ((least_loaded_rotate ℚ Unit).2.2 _ (.plain HashTableBlockHash) twoReplicas 0 threeInTurn c (by decide) (by simp [threeInTurn]) run).2
  rw [commits] at even
  exact ⟨c,run,commits,loads,even⟩

namespace PolicyCluster
variable {β ε F : Type}

-- Where the next turn stands: `after_extra` moves it on after the commit.
structure InTurn (n : Nat) (c : PolicyCluster β ε RRGCtx) : Prop where
  count : c.contexts.length = n
  rotated : c.commits = (List.range c.commits.length).map (·%n)
  chosen : ∀ entry observations idx, c.call = .chosen entry observations idx → observations.length = n ∧
    ∃ m, c.commits.length = m+1 ∧ c.gctx.nextReplicaId = m%n
  next : (∀ entry observations idx, c.call ≠ .chosen entry observations idx) → c.gctx.nextReplicaId = c.commits.length%n

-- A move between two commits.
theorem InTurn.same {c c' : PolicyCluster β ε RRGCtx} {n : Nat} (turns : InTurn n c) (count : c'.contexts.length = c.contexts.length)
    (commits : c'.commits = c.commits) (gctx : c'.gctx = c.gctx) (before : ∀ entry observations idx, c.call ≠ .chosen entry observations idx)
    (after : ∀ entry observations idx, c'.call ≠ .chosen entry observations idx) : InTurn n c' where
  count := count.trans turns.count
  rotated := commits ▸ turns.rotated
  chosen := fun entry observations idx call => absurd call (after entry observations idx)
  next := fun _ => by rw [gctx,commits]; exact turns.next before

variable [BlockHash β] [Zero F] [Add F] [Sub F] [Mul F] [Max F] [LE F] [DecidableLE F] {flavour : Flavour β ε}
  {c c' : PolicyCluster β ε RRGCtx} {move : ClusterMove F} {n : Nat}

theorem roundRobinQ_chosen {gctx : RRGCtx} {entry : Entry} {observations : List (Observation ε)} {draw : F} {idx : Nat}
    (indexed : ∀ i (o : Observation ε), observations[i]? = some o → o.idx = i) (turn : gctx.nextReplicaId < observations.length)
    (chose : ((roundRobinQ ε F).body gctx entry observations).eval draw (rootTarget observations) = .ok (some idx)) : idx = gctx.nextReplicaId := by
  have there := List.getElem?_eq_getElem turn
  obtain ⟨i,best,_,_,_,result,at_,path,_,chosen⟩ := eval_chooses ((roundRobinQ ε F).body gctx entry observations) draw
    (List.ne_nil_of_mem (List.getElem_mem turn)) indexed
  cases path
  obtain rfl : i = idx := by simpa [result] using chose
  have least := chosen.2 _ (List.mem_of_getElem? there)
  simp only [indexed _ _ there,indexed _ _ at_,if_true] at least
  by_cases same : i = gctx.nextReplicaId
  · exact same
  · simp [same] at least

theorem Moves.inTurn (moves : Moves flavour (roundRobinQ ε F) c move c') (indexed : Watched (Observed flavour) c) (turns : InTurn n c) : InTurn n c' := by
  cases moves with
  | schedule idle => exact turns.same rfl rfl rfl (by simp [idle]) (by simp)
  | capture call present free seen => exact turns.same (List.length_set ..) rfl rfl (by simp [call]) (by simp)
  | decline call chose => exact turns.same rfl rfl rfl (by simp [call]) (by simp)
  | @commit entry next observations draw k cached context applied call chose at_ present result =>
    obtain ⟨same,_⟩ := indexed.observations call
    have next := turns.next (by simp [call])
    have some_ : 0 < n := turns.count ▸ Nat.zero_lt_of_lt (List.getElem?_eq_some_iff.mp present).1
    have turn : k = c.commits.length%n :=
      (roundRobinQ_chosen (indexed.indexed call) (by rw [next,same,turns.count]; exact Nat.mod_lt _ some_) chose).trans next
    refine ⟨(List.length_set ..).trans turns.count,?_,fun entry' observations' idx' call' => ?_,fun other => absurd rfl (other _ _ _)⟩
    · simp only [List.length_append,List.length_singleton,List.range_succ,List.map_append,List.map_singleton]
      rw [← turns.rotated,turn]
    · cases call'
      exact ⟨same.trans turns.count,c.commits.length,by simp,next⟩
  | @afterExtra entry observations k now cached context blockHash call at_ present extended =>
    obtain ⟨same,m,more,turn⟩ := turns.chosen _ _ _ call
    have some_ : 0 < n := same ▸ Nat.zero_lt_of_lt (List.getElem?_eq_some_iff.mp at_).1
    refine ⟨(List.length_set ..).trans turns.count,turns.rotated,fun _ _ _ other => (by cases other),fun _ => ?_⟩
    change (c.gctx.nextReplicaId+1)%max observations.length 1 = c.commits.length%n
    rw [turn,same,more,Nat.max_eq_left some_,Nat.mod_add_mod]
  | @step k now effect context next present result =>
    exact ⟨(List.length_set ..).trans turns.count,turns.rotated,turns.chosen,turns.next⟩

end PolicyCluster

-- Whatever the replicas do meanwhile, the calls take them in turn, so that no two
-- replicas ever differ by more than one commit.
theorem round_robin_even (ε F : Type) [Zero F] [Add F] [Sub F] [Mul F] [Max F] [LE F] [DecidableLE F] {β : Type} [BlockHash β]
    (flavour : Flavour β ε) {contexts : List (ScheduleContext β)} {history : List (ClusterMove F)} {c : PolicyCluster β ε RRGCtx}
    (run : Run (PolicyCluster.Step flavour (roundRobinQ ε F)) (.start contexts RRGCtx.default) history c) :
    c.commits = (List.range c.commits.length).map (·%contexts.length) ∧
      ∀ i, i < contexts.length → c.commits.count i = share c.commits.length contexts.length i := by
  have kept := run.invariant (I := fun _ c => PolicyCluster.Watched (PolicyCluster.Observed flavour) c ∧ PolicyCluster.InTurn contexts.length c)
    ⟨PolicyCluster.observed_start contexts RRGCtx.default,rfl,rfl,fun _ _ _ call => (by cases call),fun _ => (Nat.zero_mod _).symm⟩ (by
      intro _ s move t held taken
      obtain ⟨indexed,turns⟩ := held
      have moves := PolicyCluster.step_moves taken
      exact ⟨moves.observed indexed,moves.inTurn indexed turns⟩)
  have rotated := kept.2.rotated
  refine ⟨rotated,fun i inside => ?_⟩
  rw [← count_turns c.commits.length inside,← rotated]

theorem round_robin_even_three : ∃ c : PolicyCluster HashTableBlockHash Unit RRGCtx,
    Run (PolicyCluster.Step (.plain _) (roundRobinQ Unit ℚ))
      (.start [⟨LMetric.empty,HashTableBlockHash.new 4⟩,⟨LMetric.empty,HashTableBlockHash.new 4⟩] RRGCtx.default) threeCalls c ∧
    c.commits = [0,1,0] ∧ c.commits.count 0 = share 3 2 0 := by
  have executed : ∃ c, PolicyCluster.execute (.plain HashTableBlockHash) (roundRobinQ Unit ℚ)
      (.start [⟨LMetric.empty,HashTableBlockHash.new 4⟩,⟨LMetric.empty,HashTableBlockHash.new 4⟩] RRGCtx.default) threeCalls = some c ∧ c.commits = [0,1,0] :=
    ⟨_,rfl,rfl⟩
  obtain ⟨c,result,commits⟩ := executed
  have run := PolicyCluster.execute_run result
  refine ⟨c,run,commits,?_⟩
  have counted := (round_robin_even Unit ℚ _ run).2 0 (by decide)
  rwa [commits] at counted ⊢

end BlitzRouter.Policy
