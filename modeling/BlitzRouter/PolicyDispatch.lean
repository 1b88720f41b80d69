import BlitzRouter.PolicyRuns

namespace BlitzRouter.QueueTask
variable {ω γ : Type} {schedule : Schedule ω γ} {q q' : QueueTask γ} {d : Dispatch Nat Nat}

-- The buffers hold, arrival by arrival, what the dispatcher holds whose lanes are
-- the replicas.
structure Represents (q : QueueTask γ) (d : Dispatch Nat Nat) : Prop where
  arrived : d.arrived = List.range q.log.appends.length
  assigned : d.assigned = q.log.commits
  taken : d.taken = q.deliveries.map fun x => (x.1,x.2.arrival)
  waiting : d.waiting = q.uncommitBuffer.map Queued.arrival
  buffered : ∀ r buffer, q.allCommitReqBuffers[r]? = some buffer → d.buffered r = buffer.map (·.2.arrival)
  replicas : ∀ x ∈ d.assigned, x.1 < q.allCommitReqBuffers.length

theorem represents_start (numReplicas : Nat) (gctx : γ) : (start numReplicas gctx).Represents .empty := by
  refine ⟨rfl,rfl,rfl,rfl,?_,nofun⟩
  intro r buffer found
  obtain rfl := List.eq_of_mem_replicate (List.mem_of_getElem? found)
  rfl

theorem represents_pushBack (represents : q.Represents d) (entry : Entry) :
    (q.pushBack entry).Represents (d.arrive q.log.appends.length) where
  arrived := by simp [Dispatch.arrive,pushBack,represents.arrived,List.range_succ]
  assigned := represents.assigned
  taken := represents.taken
  waiting := by simp [represents.waiting,pushBack]
  buffered := represents.buffered
  replicas := represents.replicas

theorem represents_scheduled (represents : q.Represents d) (move : Scheduled schedule q q') : ∃ d', q'.Represents d' := by
  cases move with
  | decline waiting called =>
    refine ⟨d,{represents with waiting := ?_}⟩
    rw [represents.waiting,waiting]
    rfl
  | @commit _ _ front rest replicaIdx atomics gctx waiting called placed =>
    obtain ⟨buffer,found,rfl⟩ := commit_eq placed
    have front_waits : d.waiting = front.arrival::rest.map Queued.arrival := by
      rw [represents.waiting,waiting]
      rfl
    have inside : replicaIdx < q.allCommitReqBuffers.length := (List.getElem?_eq_some_iff.mp found).1
    refine ⟨d.assign replicaIdx front_waits,represents.arrived,?_,represents.taken,Dispatch.waiting_assign front_waits,?_,?_⟩
    · simp [Dispatch.assign,represents.assigned]
    · intro r held stored
      rw [Dispatch.buffered_assign]
      rw [List.getElem?_set] at stored
      split at stored
      · rename_i same
        subst same
        rw [Option.some.injEq] at stored
        simp [← stored,represents.buffered _ _ found]
      · rename_i differs
        simp [differs,represents.buffered _ _ stored]
    · intro x member
      rw [List.length_set]
      rcases List.mem_append.mp member with old | new
      · exact represents.replicas x old
      · rw [List.mem_singleton.mp new]
        exact inside

theorem represents_answer {replicaIdx : Nat} (represents : q.Represents d) (result : q.answer replicaIdx = .ok q') :
    ∃ d', q'.Represents d' := by
  rcases answer_eq result with ⟨_,rfl⟩ | ⟨first,rest,found,rfl⟩
  · exact ⟨d,{represents with taken := by simp [deliveries,represents.taken]}⟩
  · have first_buffered : d.buffered replicaIdx = first.2.arrival::rest.map (·.2.arrival) := by
      rw [represents.buffered _ _ found]
      rfl
    have inside : replicaIdx < q.allCommitReqBuffers.length := (List.getElem?_eq_some_iff.mp found).1
    refine ⟨Dispatch.take first_buffered,represents.arrived,represents.assigned,?_,represents.waiting,?_,?_⟩
    · simp [Dispatch.take,deliveries,represents.taken]
    · intro r held stored
      rw [Dispatch.buffered_take]
      rw [List.getElem?_set] at stored
      split at stored
      · rename_i same
        subst same
        rw [Option.some.injEq] at stored
        simp [← stored]
      · rename_i differs
        simp [differs,represents.buffered _ _ stored]
    · rw [List.length_set]
      exact represents.replicas

theorem represents_scheduling (represents : q.Represents d) (moves : Scheduling schedule q q') : ∃ d', q'.Represents d' := by
  refine scheduling_invariant (I := fun q => ∃ d, q.Represents d) moves ⟨d,represents⟩ ?_
  rintro _ _ ⟨_,held⟩ move
  exact represents_scheduled held move

theorem represents_step {a : PolicyCommand × (Nat → ω)} (represents : q.Represents d) (step : Step schedule q a q') :
    ∃ d', q'.Represents d' := by
  rcases step_cases step with ⟨entry,_,moves⟩ | ⟨replicaIdx,middle,_,moves,answered⟩
  · exact represents_scheduling (represents_pushBack represents entry) moves
  · obtain ⟨d',held⟩ := represents_scheduling represents moves
    exact represents_answer held answered

-- Every arrival is in one place, was committed at most once, and reaches the
-- replica it was committed to, after the arrivals committed there before it.
structure Placed (q : QueueTask γ) : Prop where
  once : (q.uncommitBuffer.map Queued.arrival++(q.allCommitReqBuffers.flatten.map (·.2.arrival)++
    q.deliveries.map (·.2.arrival))).Perm (List.range q.log.appends.length)
  commits_once : (q.log.commits.map Prod.snd).Nodup
  committed : ∀ x ∈ q.deliveries, (x.1,x.2.arrival) ∈ q.log.commits
  held : ∀ r buffer, q.allCommitReqBuffers[r]? = some buffer → ∀ x ∈ buffer, (r,x.2.arrival) ∈ q.log.commits
  ordered : ∀ r, ((q.deliveries.filter (·.1 = r)).map (·.2.arrival)).Pairwise (· < ·)

theorem placed_of (represents : q.Represents d) : q.Placed := by
  have delivered (r : Nat) : (q.deliveries.filter (·.1 = r)).map (·.2.arrival) = lane r d.taken := by
    rw [represents.taken,lane,List.filter_map,List.map_map]
    rfl
  have labelled : ∀ x ∈ d.assigned, x.1 ∈ List.range q.allCommitReqBuffers.length := by
    simpa using represents.replicas
  have buffers : q.allCommitReqBuffers.map (·.map (·.2.arrival)) = (List.range q.allCommitReqBuffers.length).map d.buffered := by
    refine List.ext_getElem (by simp) ?_
    intro r small _
    have inside : r < q.allCommitReqBuffers.length := by simpa using small
    simp [represents.buffered r _ (List.getElem?_eq_getElem inside)]
  constructor
  · have places := d.places List.nodup_range labelled
    rw [represents.arrived,represents.waiting,represents.taken,List.append_assoc,List.map_map,List.flatMap_def,← buffers] at places
    rwa [List.map_flatten]
  · rw [← represents.assigned]
    exact d.in_order.sublist.nodup (represents.arrived ▸ List.nodup_range)
  · intro x member
    rw [← represents.assigned]
    refine Dispatch.taken_assigned ?_
    rw [represents.taken]
    exact List.mem_map_of_mem member
  · intro r buffer found x member
    rw [← represents.assigned]
    have inside : x.2.arrival ∈ d.buffered r := by
      rw [represents.buffered r buffer found]
      exact List.mem_map_of_mem member
    exact mem_of_lane (List.mem_of_mem_drop inside)
  · intro r
    rw [delivered]
    exact List.pairwise_lt_range.sublist (represents.arrived ▸ d.taken_in_order r)

end BlitzRouter.QueueTask
