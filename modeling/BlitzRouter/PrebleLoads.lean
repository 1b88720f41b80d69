import BlitzRouter.PolicyClusterRuns
import BlitzRouter.PrebleFlavours
import BlitzRouter.RadixCount

namespace BlitzRouter.Policy
open Radix SlidingWindow

-- What a request that was routed to a replica adds to its cost, and when.
structure Admission where
  replica : Nat
  time : Nat
  cost : ℚ
deriving DecidableEq,Repr

namespace ClusterMove
variable {F : Type}

def time : ClusterMove F → Option Nat
  | .capture _ now => some now
  | .afterExtra now => some now
  | .step _ _ now => some now
  | .schedule _ => none
  | .apply _ => none

def times (history : List (ClusterMove F)) : List Nat := history.filterMap time

theorem times_append (history : List (ClusterMove F)) (move : ClusterMove F) : times (history++[move]) = times history++move.time.toList := by
  unfold times
  rw [List.filterMap_append]
  cases timed : move.time <;> simp [timed]

end ClusterMove

def prefillTokensOf (entry : Entry) (chosen : Observation PrebleFeatures) : Nat :=
  entry.request.inputTokens.length-min (chosen.hitBlocks*chosen.blockSize) entry.request.inputTokens.length

-- `PT_r + DT_r` of the request.
def contribution (preble : PrebleBlockHash) (entry : Entry) (chosen : Observation PrebleFeatures) : ℚ :=
  PrebleBlockHash.prefillContrib preble.costModel (prefillTokensOf entry chosen) entry.request.inputTokens.length+
    PrebleBlockHash.decodeContrib PrebleTree.defaultDecodingLength

namespace PolicyCluster
variable {F γ : Type}

def admission (c : PolicyCluster PrebleTree PrebleFeatures γ) : ClusterMove F → List Admission
  | .afterExtra now =>
    match c.call with
    | .chosen entry observations idx =>
      match observations[idx]?,c.contexts[idx]? with
      | some chosen,some context => [⟨idx,now,contribution context.blockHash.toPrebleBlockHash entry chosen⟩]
      | _,_ => []
    | _ => []
  | _ => []

-- The window of a replica is a window over the admissions of the log that are its.
structure Windowed (duration : Nat) (times : List Nat) (log : List Admission) (idx : Nat) (window : SlidingWindow ℚ (Window.Sum ℚ)) : Prop where
  holds : ∃ ops, Holds ⟨0⟩ duration ops window ∧ pushes ops = (log.filter (·.replica = idx)).map (fun a => (a.time,a.cost)) ∧
    ∀ past ∈ expiries ops, past ∈ times

variable {duration now idx : Nat} {times : List Nat} {log : List Admission} {window : SlidingWindow ℚ (Window.Sum ℚ)}

theorem Windowed.later (windowed : Windowed duration times log idx window) (more : List Nat) : Windowed duration (times++more) log idx window := by
  obtain ⟨ops,holds,pushed,past⟩ := windowed.holds
  exact ⟨ops,holds,pushed,fun time member => List.mem_append_left _ (past time member)⟩

theorem Windowed.elsewhere (windowed : Windowed duration times log idx window) {a : Admission} (other : a.replica ≠ idx) :
    Windowed duration times (log++[a]) idx window := by
  obtain ⟨ops,holds,pushed,past⟩ := windowed.holds
  exact ⟨ops,holds,by rw [pushed,List.filter_append]; simp [other],past⟩

theorem Windowed.expire (windowed : Windowed duration times log idx window) (now : Nat) :
    Windowed duration (times++[now]) log idx (window.expire now) := by
  obtain ⟨ops,holds,pushed,past⟩ := windowed.holds
  refine ⟨ops++[.expire now],(holds.expire now).1,?_,fun time member => ?_⟩
  · rw [← pushed]
    simp [pushes,WindowOp.pushed]
  · simp only [expiries,List.filterMap_append,List.mem_append] at member
    rcases member with before | here
    · exact List.mem_append_left _ (past time before)
    · exact List.mem_append_right _ (by simpa [WindowOp.expired] using here)

theorem Windowed.push (windowed : Windowed duration times log idx window) (now : Nat) (cost : ℚ) :
    Windowed duration times (log++[⟨idx,now,cost⟩]) idx (window.push now cost) := by
  obtain ⟨ops,holds,pushed,past⟩ := windowed.holds
  refine ⟨ops++[.push now cost],holds.push now cost,?_,fun time member => ?_⟩
  · rw [List.filter_append,List.map_append,← pushed]
    simp [pushes,WindowOp.pushed]
  · refine past time ?_
    simpa [expiries,WindowOp.expired] using member

-- The admissions of a replica that are not older than the window.
def recent (duration now idx : Nat) (log : List Admission) : List Admission := log.filter fun a => a.replica = idx && now-a.time ≤ duration

theorem Windowed.exact (windowed : Windowed duration times log idx window) (ordered : (log.map Admission.time).Pairwise (· ≤ ·))
    (latest : ∀ past ∈ times, past ≤ now) : (window.expire now).entries = (recent duration now idx log).map (fun a => (a.time,a.cost)) ∧
      (window.expire now).agg.value = ((recent duration now idx log).map Admission.cost).sum := by
  obtain ⟨ops,holds,pushed,past⟩ := windowed.holds
  have inOrder : (pushes ops).Pairwise fun a b => a.1 ≤ b.1 := by
    rw [pushed,List.pairwise_map]
    exact (List.pairwise_map.mp ordered).sublist List.filter_sublist
  obtain ⟨entries,agg⟩ := holds.exact inOrder fun time member => latest time (past time member)
  have same : (pushes ops).filter (fun e => Fresh duration now e) = (recent duration now idx log).map fun a => (a.time,a.cost) := by
    rw [pushed,List.filter_map,List.filter_filter,recent]
    refine congrArg _ (List.filter_congr fun a _ => ?_)
    rw [Bool.and_comm]
    rfl
  refine ⟨entries.trans same,?_⟩
  rw [agg,same,SlidingWindow.total,Window.sum_value,List.map_map,zero_add]
  rfl

-- A step of the cluster, with the admissions that it makes.
def Logs [Zero F] [Add F] [Sub F] [Mul F] [Max F] [LE F] [DecidableLE F] (policy : PolicyInput PrebleFeatures F γ)
    (s : PolicyCluster PrebleTree PrebleFeatures γ × List Admission) (move : ClusterMove F)
    (t : PolicyCluster PrebleTree PrebleFeatures γ × List Admission) : Prop :=
  Step prebleFlavour policy s.1 move t.1 ∧ t.2 = s.2++s.1.admission move

-- Every window is one over the admissions of its replica, which come in the order
-- of the moves.
structure Booked (duration : Nat) (times : List Nat) (c : PolicyCluster PrebleTree PrebleFeatures γ) (log : List Admission) : Prop where
  inOrder : (log.map Admission.time).Sublist times
  windows : ∀ (idx : Nat) context, c.contexts[idx]? = some context → Windowed duration times log idx context.blockHash.window

theorem booked_start {contexts : List (ScheduleContext PrebleTree)} {gctx : γ}
    (new_ : ∀ context ∈ contexts, context.blockHash.window = .new duration ⟨0⟩) : Booked duration [] (start contexts gctx) [] where
  inOrder := .slnil
  windows := by
    intro idx context present
    have empty := new_ context (List.mem_of_getElem? present)
    have holds : Holds ⟨0⟩ duration [] context.blockHash.window := empty ▸ run_holds duration (⟨0⟩ : Window.Sum ℚ) []
    exact ⟨⟨[],holds,rfl,by simp [expiries]⟩⟩

-- The tree of a matcher changes without its window.
theorem stepContext_window {effect : StepEffect} {context next : ScheduleContext PrebleTree}
    (result : stepContext prebleFlavour effect now context = some next) : next.blockHash.window = context.blockHash.window := by
  obtain ⟨removed,inserted,removal,insertion,rfl⟩ := stepContext_eq result
  have evicted : removed.window = context.blockHash.window := by
    change (context.blockHash.inner.remove effect.evictedBlockIds).map _ = _ at removal
    obtain ⟨inner,_,rfl⟩ := Option.map_eq_some_iff.mp removal
    rfl
  refine fold_kept (P := fun b : PrebleTree => b.window = context.blockHash.window) (fun {b b' pair} kept step => ?_) evicted insertion
  obtain ⟨⟨grown,n⟩,inserted,rfl⟩ := Option.map_eq_some_iff.mp step
  change (b.inner.insert pair.1 pair.2).map _ = _ at inserted
  obtain ⟨_,_,same⟩ := Option.map_eq_some_iff.mp inserted
  cases same
  exact kept

variable [Zero F] [Add F] [Sub F] [Mul F] [Max F] [LE F] [DecidableLE F] {policy : PolicyInput PrebleFeatures F γ}
  {c c' : PolicyCluster PrebleTree PrebleFeatures γ} {move : ClusterMove F}

theorem Moves.booked (moves : Moves prebleFlavour policy c move c') (booked : Booked duration times c log) :
    Booked duration (times++move.time.toList) c' (log++c.admission move) := by
  have later {log : List Admission} (inOrder : (log.map Admission.time).Sublist times) (more : List Nat) : (log.map Admission.time).Sublist (times++more) :=
    inOrder.trans (List.sublist_append_left _ _)
  cases moves with
  | schedule idle =>
    simp only [ClusterMove.time,admission,Option.toList_none,List.append_nil]
    exact ⟨booked.inOrder,booked.windows⟩
  | @capture entry slots k now context o call present free seen =>
    simp only [ClusterMove.time,admission,Option.toList_some,List.append_nil]
    refine ⟨later booked.inOrder _,contexts_set present (fun idx context there _ => (booked.windows idx context there).later _) ?_⟩
    have once := (booked.windows k context present).expire now
    -- The second read expires nothing more; it happens at the same time.
    obtain ⟨ops,holds,pushed,past⟩ := once.holds
    refine ⟨ops++[.expire now],(holds.expire now).1,?_,fun time member => ?_⟩
    · rw [← pushed]
      simp [pushes,WindowOp.pushed]
    · simp only [expiries,List.filterMap_append,List.mem_append] at member
      rcases member with before | here
      · exact past time before
      · exact List.mem_append_right _ (by simpa [WindowOp.expired] using here)
  | decline call chose =>
    simp only [ClusterMove.time,admission,Option.toList_none,List.append_nil]
    exact ⟨booked.inOrder,booked.windows⟩
  | @commit entry next observations draw k cached context applied call chose at_ present result =>
    simp only [ClusterMove.time,admission,Option.toList_none,List.append_nil]
    obtain ⟨hits,_,same,_⟩ := applied_lmetric result
    exact ⟨booked.inOrder,contexts_set present (fun idx context there _ => booked.windows idx context there) (same ▸ booked.windows k context present)⟩
  | @afterExtra entry observations k now cached context blockHash call at_ present extended =>
    cases extended
    simp only [ClusterMove.time,admission,call,at_,present,Option.toList_some]
    refine ⟨?_,contexts_set present (fun idx context there other => ?_) ?_⟩
    · rw [List.map_append]
      exact booked.inOrder.append (List.Sublist.refl _)
    · exact ((booked.windows idx context there).later _).elsewhere (Ne.symm other)
    · exact ((booked.windows k context present).later _).push now _
  | @step k now effect context next present result =>
    simp only [ClusterMove.time,admission,Option.toList_some,List.append_nil]
    exact ⟨later booked.inOrder _,contexts_set present (fun idx context there _ => (booked.windows idx context there).later _)
      (stepContext_window result ▸ (booked.windows k context present).later _)⟩

end PolicyCluster

-- What the policy sees of a replica at a capture is the number and, in exact
-- arithmetic, the cost of the requests that were routed to it within the window,
-- whatever came between.
theorem preble_loads_exact {F γ : Type} [Zero F] [Add F] [Sub F] [Mul F] [Max F] [LE F] [DecidableLE F] {policy : PolicyInput PrebleFeatures F γ}
    {contexts : List (ScheduleContext PrebleTree)} {gctx : γ} {duration idx now : Nat} {history : List (ClusterMove F)} {log : List Admission}
    {c c' : PolicyCluster PrebleTree PrebleFeatures γ} (new_ : ∀ context ∈ contexts, context.blockHash.window = .new duration ⟨0⟩)
    (run : Run (PolicyCluster.Logs policy) (.start contexts gctx,[]) history (c,log)) (step : PolicyCluster.Step prebleFlavour policy c (.capture idx now) c')
    (clock : (ClusterMove.times (history++[.capture idx now])).Pairwise (· ≤ ·)) : ∃ entry slots o,
      c'.call = .capturing entry slots ∧ slots[idx]? = some (some o) ∧
      o.features.prebleLoad = (PolicyCluster.recent duration now idx log).length ∧
      o.features.prebleCost = ((PolicyCluster.recent duration now idx log).map Admission.cost).sum := by
  have booked : PolicyCluster.Booked duration (ClusterMove.times history) c log := by
    refine run.invariant (I := fun past (s : PolicyCluster PrebleTree PrebleFeatures γ × List Admission) =>
      PolicyCluster.Booked duration (ClusterMove.times past) s.1 s.2) (PolicyCluster.booked_start new_) ?_
    intro past s move t held taken
    rw [ClusterMove.times_append,taken.2]
    exact (PolicyCluster.step_moves taken.1).booked held
  rw [ClusterMove.times_append] at clock
  obtain ⟨before,_,latest⟩ := List.pairwise_append.mp clock
  have ordered := before.sublist booked.inOrder
  have past : ∀ time ∈ ClusterMove.times history, time ≤ now := fun time member => latest time member now (by simp [ClusterMove.time])
  cases PolicyCluster.step_moves step with
  | @capture entry slots _ _ context o call present free seen =>
    refine ⟨entry,_,o,rfl,List.getElem?_set_self (List.getElem?_eq_some_iff.mp free).1,?_⟩
    have windowed := booked.windows idx context present
    obtain ⟨entries,_⟩ := windowed.exact ordered past
    obtain ⟨_,cost⟩ := (windowed.expire now).exact ordered fun time member => (List.mem_append.mp member).elim (past time) fun here =>
      Nat.le_of_eq (List.mem_singleton.mp here)
    obtain ⟨hits,_,rfl⟩ := PolicyCluster.observe_eq seen
    refine ⟨?_,cost⟩
    change (context.blockHash.window.expire now).entries.length = _
    rw [entries,List.length_map]

namespace PolicyCluster

def twoCold : PolicyCluster PrebleTree PrebleFeatures Unit := start (List.replicate 2 ⟨LMetric.empty,⟨⟨.new 10 ⟨0⟩,.a800⟩,.new 4⟩⟩) ()

def logged (s : PolicyCluster PrebleTree PrebleFeatures Unit × List Admission) (moves : List (ClusterMove ℚ)) :
    Option (PolicyCluster PrebleTree PrebleFeatures Unit × List Admission) :=
  moves.foldlM (fun s move => (s.1.act prebleFlavour (prebleQ ℚ (1/2)) move).map fun c => (c,s.2++s.1.admission move)) s

theorem logged_run {s t : PolicyCluster PrebleTree PrebleFeatures Unit × List Admission} {moves : List (ClusterMove ℚ)}
    (result : logged s moves = some t) : Run (Logs (prebleQ ℚ (1/2))) s moves t := by
  have begun : Run (Logs (prebleQ ℚ (1/2))) s [] s := .start
  refine begun.executed (fun _ => rfl) (fun s move rest t all => ?_) result
  simp only [logged,List.foldlM_cons,Option.bind_eq_bind,Option.bind_eq_some_iff,Option.map_eq_some_iff] at all
  obtain ⟨_,⟨c,taken,rfl⟩,later⟩ := all
  exact ⟨(c,s.2++s.1.admission move),⟨taken,rfl⟩,later⟩

-- The first request is routed at 5, and the next one looks at 12.
def oneRouted : List (ClusterMove ℚ) :=
  [.schedule promptEntry,.capture 0 0,.capture 1 0,.apply 0,.afterExtra 5,.schedule promptEntry,.capture 1 11]

end PolicyCluster

theorem preble_loads_exact_one : ∃ c log c' entry slots o, Run (PolicyCluster.Logs (prebleQ ℚ (1/2))) (PolicyCluster.twoCold,[]) PolicyCluster.oneRouted (c,log) ∧
    PolicyCluster.Step prebleFlavour (prebleQ ℚ (1/2)) c (.capture 0 12) c' ∧ c'.call = .capturing entry slots ∧ slots[0]? = some (some o) ∧
    o.features.prebleLoad = 1 ∧ o.features.prebleCost = 16937/2500 := by
  have executed : ((PolicyCluster.logged (PolicyCluster.twoCold,[]) PolicyCluster.oneRouted).bind fun s =>
      (s.1.act prebleFlavour (prebleQ ℚ (1/2)) (.capture 0 12)).map fun _ => s.2) = some [⟨0,5,16937/2500⟩] := by decide +kernel
  simp only [Option.bind_eq_some_iff,Option.map_eq_some_iff] at executed
  obtain ⟨⟨c,log⟩,result,c',step,rfl⟩ := executed
  have run := PolicyCluster.logged_run result
  have new_ : ∀ context ∈ List.replicate 2 (⟨LMetric.empty,⟨⟨.new 10 ⟨0⟩,.a800⟩,.new 4⟩⟩ : ScheduleContext PrebleTree),
      context.blockHash.window = .new 10 ⟨0⟩ := fun context member => by rw [List.eq_of_mem_replicate member]
  obtain ⟨entry,slots,o,call,filled,load,cost⟩ := preble_loads_exact new_ run step (by decide)
  refine ⟨c,_,c',entry,slots,o,run,step,call,filled,?_,?_⟩
  · rw [load]
    decide
  · rw [cost]
    decide +kernel

end BlitzRouter.Policy
