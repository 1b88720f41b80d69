import BlitzRouter.Validation
import BlitzRouter.EvenSplit
import Mathlib.Algebra.BigOperators.Group.List.Basic

namespace BlitzRouter

structure PromptInputs where
  inputs : String
  truncate : Option Nat
  chatMessages : Option (List ChatMessage)

abbrev Prepared := Except ValidationError (List ChatMessage × String × Nat × List TokenId)

def TokenizerRender.prepare (tokenizer : TokenizerRender) (input : PromptInputs) : Prepared :=
  prepareInput tokenizer input.inputs input.truncate input.chatMessages

-- A request names its response channel by the number of requests sent before it.
abbrev TokenizerRequest := PromptInputs × Nat

-- Closed: the client went before there was an answer.
inductive PrepareResponse where
  | awaited
  | closed
  | answered (prepared : Prepared)

namespace PrepareResponse

def Settled (prepared : Prepared) (r : PrepareResponse) : Prop := r = .answered prepared ∨ r = .closed

def Pending (r : PrepareResponse) : Prop := r = .awaited ∨ r = .closed

end PrepareResponse
open PrepareResponse

-- The round robin task and the workers, each with the queue it receives from.
structure TokenizerPool where
  tokenizer : TokenizerRender
  opened : Nat
  receiver : List TokenizerRequest
  senders : List (List TokenizerRequest)
  turn : Nat
  responses : Nat → PrepareResponse

inductive TokenizerPoolAct where
  | send (input : PromptInputs)
  | hangUp (channel : Nat)
  | roundRobinTask
  | tokenizerWorker (worker : Nat)

-- What the tasks of the pool do by themselves.
def TokenizerPoolAct.service : TokenizerPoolAct → Bool
  | .send _ | .hangUp _ => false
  | .roundRobinTask | .tokenizerWorker _ => true

def TokenizerPoolAct.input : TokenizerPoolAct → Option PromptInputs
  | .send input => some input
  | .hangUp _ | .roundRobinTask | .tokenizerWorker _ => none

def TokenizerPoolAct.receives : TokenizerPoolAct → Bool
  | .roundRobinTask => true
  | .send _ | .hangUp _ | .tokenizerWorker _ => false

def TokenizerPoolAct.works (worker : Nat) : TokenizerPoolAct → Bool
  | .tokenizerWorker i => i = worker
  | .send _ | .hangUp _ | .roundRobinTask => false

namespace TokenizerPool

def new (tokenizer : TokenizerRender) (workers : Nat) : TokenizerPool :=
  ⟨tokenizer,0,[],List.replicate workers [],0,fun _ => .awaited⟩

-- A worker goes on when nobody waits for its answer.
def respond (p : TokenizerPool) (channel : Nat) (prepared : Prepared) : Nat → PrepareResponse :=
  match p.responses channel with
  | .awaited => Function.update p.responses channel (.answered prepared)
  | .closed | .answered _ => p.responses

-- The loop over the senders awaits one request at each of them. Without a
-- sender it never receives.
def roundRobinTask (p : TokenizerPool) : Option TokenizerPool :=
  match p.receiver,p.senders[p.turn]? with
  | request :: rest,some queue =>
    some {p with receiver := rest, senders := p.senders.set p.turn (queue++[request]), turn := (p.turn+1)%p.senders.length}
  | _,_ => none

def tokenizerWorker (p : TokenizerPool) (worker : Nat) : Option TokenizerPool :=
  match p.senders[worker]? with
  | some (request :: rest) =>
    some {p with senders := p.senders.set worker rest, responses := p.respond request.2 (p.tokenizer.prepare request.1)}
  | _ => none

def hangUp (p : TokenizerPool) (channel : Nat) : Option TokenizerPool :=
  match p.responses channel with
  | .awaited => if channel < p.opened then some {p with responses := Function.update p.responses channel .closed} else none
  | .closed | .answered _ => none

def step (p : TokenizerPool) : TokenizerPoolAct → Option TokenizerPool
  | .send input => some {p with opened := p.opened+1, receiver := p.receiver++[(input,p.opened)]}
  | .hangUp channel => p.hangUp channel
  | .roundRobinTask => p.roundRobinTask
  | .tokenizerWorker worker => p.tokenizerWorker worker

def run : TokenizerPool → List TokenizerPoolAct → Option TokenizerPool
  | p,[] => some p
  | p,a :: rest => (p.step a).bind (run · rest)

def queue (p : TokenizerPool) (worker : Nat) : List TokenizerRequest := p.senders[worker]?.getD []

-- Each request waits for two services, those in a worker's queue for one.
def load (p : TokenizerPool) : Nat := 2*p.receiver.length+(p.senders.map List.length).sum

section Steps
variable {p p' : TokenizerPool} {a : TokenizerPoolAct} {request : TokenizerRequest} {rest : List TokenizerRequest} {prepared : Prepared}
  {channel worker k : Nat}

theorem roundRobinTask_eq (moved : p.roundRobinTask = some p') : ∃ request rest queue, p.receiver = request :: rest ∧
    p.senders[p.turn]? = some queue ∧
    p' = {p with receiver := rest, senders := p.senders.set p.turn (queue++[request]), turn := (p.turn+1)%p.senders.length} := by
  unfold roundRobinTask at moved
  split at moved
  · rename_i request rest queue first sender
    exact ⟨request,rest,queue,first,sender,(Option.some.inj moved).symm⟩
  · cases moved

theorem tokenizerWorker_eq (worked : p.tokenizerWorker worker = some p') : ∃ request rest, p.senders[worker]? = some (request :: rest) ∧
    p' = {p with senders := p.senders.set worker rest, responses := p.respond request.2 (p.tokenizer.prepare request.1)} := by
  unfold tokenizerWorker at worked
  split at worked
  · rename_i request rest queue
    exact ⟨request,rest,queue,(Option.some.inj worked).symm⟩
  · cases worked

theorem hangUp_eq (left : p.hangUp channel = some p') : channel < p.opened ∧ p.responses channel = .awaited ∧
    p' = {p with responses := Function.update p.responses channel .closed} := by
  unfold hangUp at left
  split at left
  · rename_i awaited
    split at left
    · rename_i inside
      exact ⟨inside,awaited,(Option.some.inj left).symm⟩
    · cases left
  · cases left
  · cases left

theorem respond_cases (p : TokenizerPool) (channel : Nat) (prepared : Prepared) :
    p.responses channel = .awaited ∧ p.respond channel prepared = Function.update p.responses channel (.answered prepared) ∨
      p.responses channel ≠ .awaited ∧ p.respond channel prepared = p.responses := by
  cases response : p.responses channel with
  | awaited => exact .inl ⟨rfl,by simp only [respond,response]⟩
  | closed => exact .inr ⟨by simp,by simp only [respond,response]⟩
  | answered prior => exact .inr ⟨by simp,by simp only [respond,response]⟩

theorem respond_settled {other : Prepared} (settled : Settled other (p.responses k)) : Settled other (p.respond channel prepared k) := by
  rcases p.respond_cases channel prepared with ⟨awaited,result⟩ | ⟨_,result⟩
  · have apart : k ≠ channel := by
      rintro rfl
      rcases settled with answered | closed
      · cases awaited.symm.trans answered
      · cases awaited.symm.trans closed
    rwa [result,Function.update_of_ne apart]
  · rwa [result]

theorem respond_pending (pending : Pending (p.responses channel)) : Settled prepared (p.respond channel prepared channel) := by
  rcases p.respond_cases channel prepared with ⟨_,result⟩ | ⟨met,result⟩
  · rw [result,Function.update_self]
    exact .inl rfl
  · rw [result]
    exact .inr (pending.resolve_left met)

theorem respond_other (other : k ≠ channel) : p.respond channel prepared k = p.responses k := by
  rcases p.respond_cases channel prepared with ⟨_,result⟩ | ⟨_,result⟩
  · rw [result,Function.update_of_ne other]
  · rw [result]

theorem closed_of_respond (closed : p.respond channel prepared k = .closed) : p.responses k = .closed := by
  rcases p.respond_cases channel prepared with ⟨_,result⟩ | ⟨_,result⟩
  · have apart : k ≠ channel := by
      rintro rfl
      rw [result,Function.update_self] at closed
      cases closed
    rwa [respond_other apart] at closed
  · rwa [result] at closed

theorem queue_set (p : TokenizerPool) {queue : List TokenizerRequest} (inside : worker < p.senders.length) (k : Nat) :
    (p.senders.set worker queue)[k]?.getD [] = if k = worker then queue else p.queue k := by
  by_cases same : k = worker
  · subst same
    rw [if_pos rfl,List.getElem?_set_self inside,Option.getD_some]
  · rw [if_neg same,List.getElem?_set_ne (Ne.symm same),TokenizerPool.queue]

end Steps

-- The requests of a history in the order of sending.
def requests (history : List TokenizerPoolAct) : List TokenizerRequest := (history.filterMap TokenizerPoolAct.input).zipIdx

-- Those of the first `moved` requests that are one worker's by turns.
def lane (sent : List TokenizerRequest) (workers moved worker : Nat) : List TokenizerRequest :=
  (sent.take moved).filter fun request => request.2%workers = worker

-- A pool after a history: the round robin task took `moved` requests, and each
-- worker answered those in `done`, the first ones of its lane.
structure Serves (tokenizer : TokenizerRender) (workers : Nat) (history : List TokenizerPoolAct) (moved : Nat)
    (done : Nat → List TokenizerRequest) (p : TokenizerPool) : Prop where
  renders : p.tokenizer = tokenizer
  opened : p.opened = (requests history).length
  size : p.senders.length = workers
  taken : moved ≤ (requests history).length
  receiver : p.receiver = (requests history).drop moved
  turn : p.turn = moved%workers
  lanes : ∀ i, done i++p.queue i = lane (requests history) workers moved i
  answered : ∀ input k, (input,k) ∈ done (k%workers) → Settled (tokenizer.prepare input) (p.responses k)
  pending : ∀ input k, (input,k) ∈ requests history → (input,k) ∉ done (k%workers) → Pending (p.responses k)
  fresh : ∀ k, p.opened ≤ k → p.responses k = .awaited
  closed : ∀ k, p.responses k = .closed → .hangUp k ∈ history
  rounds : history.countP TokenizerPoolAct.receives = moved
  works : ∀ i, history.countP (TokenizerPoolAct.works i) = (done i).length

section Requests
variable {history : List TokenizerPoolAct} {a : TokenizerPoolAct} {input other : PromptInputs} {k : Nat}

theorem requests_send (history : List TokenizerPoolAct) (input : PromptInputs) :
    requests (history++[.send input]) = requests history++[(input,(requests history).length)] := by
  simp [requests,List.filterMap_append,List.zipIdx_append,TokenizerPoolAct.input]

theorem requests_quiet (history : List TokenizerPoolAct) (quiet : a.input = none) : requests (history++[a]) = requests history := by
  simp [requests,List.filterMap_append,quiet]

theorem requests_index (member : (input,k) ∈ requests history) : (history.filterMap TokenizerPoolAct.input)[k]? = some input :=
  List.mem_zipIdx_iff_getElem?.mp member

theorem requests_inside (member : (input,k) ∈ requests history) : k < (requests history).length := by
  rw [requests,List.length_zipIdx]
  exact (List.getElem?_eq_some_iff.mp (requests_index member)).1

theorem requests_unique (member : (input,k) ∈ requests history) (member' : (other,k) ∈ requests history) : input = other :=
  Option.some.inj ((requests_index member).symm.trans (requests_index member'))

theorem requests_getElem (history : List TokenizerPoolAct) (inside : k < (requests history).length) : (requests history)[k].2 = k := by
  simp [requests]

theorem requests_at (history : List TokenizerPoolAct) (inside : k < (requests history).length) :
    ((requests history)[k].1,k) ∈ requests history := by
  have member := List.getElem_mem inside
  rwa [← Prod.eta (requests history)[k],requests_getElem history inside] at member

end Requests

section Runs
variable {tokenizer : TokenizerRender} {workers moved : Nat} {history : List TokenizerPoolAct} {done : Nat → List TokenizerRequest}
  {p p' : TokenizerPool} {a : TokenizerPoolAct}

theorem serves_new (tokenizer : TokenizerRender) (workers : Nat) : Serves tokenizer workers [] 0 (fun _ => []) (new tokenizer workers) where
  renders := rfl
  opened := rfl
  size := List.length_replicate
  taken := Nat.le_refl 0
  receiver := rfl
  turn := (Nat.zero_mod workers).symm
  lanes i := by
    have empty : (new tokenizer workers).queue i = [] := by
      unfold queue new
      rw [List.getElem?_replicate]
      split <;> rfl
    rw [empty]
    rfl
  answered _ _ member := absurd member List.not_mem_nil
  pending _ _ _ _ := .inl rfl
  fresh _ _ := rfl
  closed _ closed := nomatch closed
  rounds := rfl
  works _ := rfl

theorem Serves.send (serves : Serves tokenizer workers history moved done p) (input : PromptInputs) :
    Serves tokenizer workers (history++[.send input]) moved done {p with opened := p.opened+1, receiver := p.receiver++[(input,p.opened)]} where
  renders := serves.renders
  opened := by simp [requests_send,serves.opened]
  size := serves.size
  taken := by
    rw [requests_send,List.length_append]
    exact Nat.le_add_right_of_le serves.taken
  receiver := by
    rw [requests_send,List.drop_append_of_le_length serves.taken,← serves.receiver,← serves.opened]
  turn := serves.turn
  lanes i := by
    rw [requests_send,lane,List.take_append_of_le_length serves.taken]
    exact serves.lanes i
  answered := serves.answered
  pending other k member left := by
    rw [requests_send] at member
    rcases List.mem_append.mp member with earlier | last
    · exact serves.pending other k earlier left
    · have channel : k = p.opened := (congrArg Prod.snd (List.mem_singleton.mp last)).trans serves.opened.symm
      exact .inl (serves.fresh k (Nat.le_of_eq channel.symm))
  fresh k late := serves.fresh k (Nat.le_of_succ_le late)
  closed k closed := List.mem_append_left _ (serves.closed k closed)
  rounds := by simp [serves.rounds,TokenizerPoolAct.receives]
  works i := by simp [serves.works,TokenizerPoolAct.works]

theorem Serves.hangUp (serves : Serves tokenizer workers history moved done p) {channel : Nat} (left : p.hangUp channel = some p') :
    Serves tokenizer workers (history++[.hangUp channel]) moved done p' := by
  obtain ⟨inside,awaited,rfl⟩ := hangUp_eq left
  have same : requests (history++[.hangUp channel]) = requests history := requests_quiet history rfl
  refine ⟨serves.renders,same ▸ serves.opened,serves.size,same ▸ serves.taken,same ▸ serves.receiver,serves.turn,same ▸ serves.lanes,?_,?_,?_,?_,
    by simp [serves.rounds,TokenizerPoolAct.receives],fun i => by simp [serves.works,TokenizerPoolAct.works]⟩
  · intro input k member
    by_cases here : k = channel
    · exact .inr (by rw [here]; exact Function.update_self ..)
    · simpa only [Function.update_of_ne here] using serves.answered input k member
  · intro input k member waits
    by_cases here : k = channel
    · exact .inr (by rw [here]; exact Function.update_self ..)
    · simpa only [Function.update_of_ne here] using serves.pending input k (same ▸ member) waits
  · intro k late
    have apart : k ≠ channel := Nat.ne_of_gt (Nat.lt_of_lt_of_le inside late)
    simpa only [Function.update_of_ne apart] using serves.fresh k late
  · intro k closed
    by_cases here : k = channel
    · exact here ▸ List.mem_append_right _ List.mem_cons_self
    · simp only [Function.update_of_ne here] at closed
      exact List.mem_append_left _ (serves.closed k closed)

theorem Serves.roundRobinTask (serves : Serves tokenizer workers history moved done p) (stepped : p.roundRobinTask = some p') :
    Serves tokenizer workers (history++[.roundRobinTask]) (moved+1) done p' := by
  obtain ⟨request,rest,queue,first,sender,rfl⟩ := roundRobinTask_eq stepped
  have same : requests (history++[.roundRobinTask]) = requests history := requests_quiet history rfl
  have whole : (requests history).drop moved = request :: rest := serves.receiver.symm.trans first
  have inside : moved < (requests history).length := by
    apply Nat.lt_of_not_le
    intro short
    rw [List.drop_eq_nil_of_le short] at whole
    cases whole
  rw [List.drop_eq_getElem_cons inside] at whole
  obtain ⟨head,tail⟩ := List.cons.inj whole
  have number : request.2 = moved := head ▸ requests_getElem history inside
  have slot : p.turn < p.senders.length := (List.getElem?_eq_some_iff.mp sender).1
  have turn : p.turn = moved%workers := serves.turn
  refine ⟨serves.renders,same ▸ serves.opened,?_,same ▸ inside,same ▸ tail.symm,?_,?_,serves.answered,
    fun input k member => serves.pending input k (same ▸ member),serves.fresh,
    fun k closed => List.mem_append_left _ (serves.closed k closed),by simp [serves.rounds,TokenizerPoolAct.receives],
    fun i => by simp [serves.works,TokenizerPoolAct.works]⟩
  · rw [List.length_set,serves.size]
  · rw [serves.size,turn,Nat.mod_add_mod]
  · intro i
    have prior := serves.lanes i
    rw [same,lane,List.take_succ_eq_append_getElem inside,List.filter_append,head]
    rw [TokenizerPool.queue,queue_set p slot i]
    by_cases here : i = p.turn
    · have mine : request.2%workers = i := by rw [number,here,turn]
      have current : p.queue i = queue := by rw [TokenizerPool.queue,here,sender,Option.getD_some]
      rw [if_pos here,List.filter_singleton,decide_eq_true mine,cond_true,← List.append_assoc,← current,prior,lane]
    · have other : ¬request.2%workers = i := by
        rw [number,← turn]
        exact Ne.symm here
      rw [if_neg here,List.filter_singleton,decide_eq_false other,cond_false,List.append_nil,prior,lane]

theorem Serves.tokenizerWorker (serves : Serves tokenizer workers history moved done p) {worker : Nat}
    (stepped : p.tokenizerWorker worker = some p') :
    ∃ done', Serves tokenizer workers (history++[.tokenizerWorker worker]) moved done' p' := by
  obtain ⟨request,rest,found,rfl⟩ := tokenizerWorker_eq stepped
  have same : requests (history++[.tokenizerWorker worker]) = requests history := requests_quiet history rfl
  have slot : worker < p.senders.length := (List.getElem?_eq_some_iff.mp found).1
  have current : p.queue worker = request :: rest := by rw [queue,found,Option.getD_some]
  have waited : request ∈ lane (requests history) workers moved worker := by
    rw [← serves.lanes worker,current]
    exact List.mem_append_right _ List.mem_cons_self
  obtain ⟨early,mine⟩ := List.mem_filter.mp waited
  have mine : request.2%workers = worker := of_decide_eq_true mine
  have sent : request ∈ requests history := List.mem_of_mem_take early
  have number : request.2 < p.opened := serves.opened ▸ requests_inside sent
  refine ⟨Function.update done worker (done worker++[request]),serves.renders,same ▸ serves.opened,by rw [List.length_set,serves.size],
    same ▸ serves.taken,same ▸ serves.receiver,serves.turn,?_,?_,?_,?_,?_,by simp [serves.rounds,TokenizerPoolAct.receives],?_⟩
  · intro i
    have prior := serves.lanes i
    rw [same,queue,queue_set p slot i]
    by_cases here : i = worker
    · subst here
      rw [if_pos rfl,Function.update_self,List.append_assoc,List.singleton_append,← current,prior]
    · rw [if_neg here,Function.update_of_ne here,prior]
  · intro input k member
    by_cases prior : (input,k) ∈ done (k%workers)
    · exact respond_settled (serves.answered input k prior)
    · have this : (input,k) = request := by
        by_cases here : k%workers = worker
        · rw [here,Function.update_self] at member
          exact List.mem_singleton.mp ((List.mem_append.mp member).resolve_left (here ▸ prior))
        · rw [Function.update_of_ne here] at member
          exact absurd member prior
      subst this
      rw [serves.renders]
      exact respond_pending (serves.pending input k sent prior)
  · intro input k member waits
    have apart : k ≠ request.2 := by
      rintro rfl
      have this : (input,request.2) = request := Prod.ext (requests_unique (same ▸ member) sent) rfl
      rw [mine,Function.update_self,this] at waits
      exact waits (List.mem_append_right _ List.mem_cons_self)
    simp only [respond_other apart]
    refine serves.pending input k (same ▸ member) fun prior => waits ?_
    by_cases here : k%workers = worker
    · rw [here,Function.update_self]
      exact List.mem_append_left _ (here ▸ prior)
    · rwa [Function.update_of_ne here]
  · intro k late
    have apart : k ≠ request.2 := Nat.ne_of_gt (Nat.lt_of_lt_of_le number late)
    simpa only [respond_other apart] using serves.fresh k late
  · exact fun k closed => List.mem_append_left _ (serves.closed k (closed_of_respond closed))
  · intro i
    by_cases here : i = worker
    · simp [here,serves.works,TokenizerPoolAct.works]
    · simp [here,Ne.symm here,serves.works,TokenizerPoolAct.works]

theorem Serves.step (serves : Serves tokenizer workers history moved done p) (stepped : p.step a = some p') :
    ∃ moved' done', Serves tokenizer workers (history++[a]) moved' done' p' := by
  cases a with
  | send input =>
    cases stepped
    exact ⟨moved,done,serves.send input⟩
  | hangUp channel => exact ⟨moved,done,serves.hangUp stepped⟩
  | roundRobinTask => exact ⟨moved+1,done,serves.roundRobinTask stepped⟩
  | tokenizerWorker worker =>
    obtain ⟨done',served⟩ := serves.tokenizerWorker stepped
    exact ⟨moved,done',served⟩

theorem Serves.run {actions : List TokenizerPoolAct} (serves : Serves tokenizer workers history moved done p) (ran : p.run actions = some p') :
    ∃ moved' done', Serves tokenizer workers (history++actions) moved' done' p' := by
  induction actions generalizing p history moved done with
  | nil =>
    cases ran
    exact ⟨moved,done,(List.append_nil history).symm ▸ serves⟩
  | cons a rest ih =>
    obtain ⟨middle,stepped,ran⟩ := Option.bind_eq_some_iff.mp ran
    obtain ⟨moved',done',served⟩ := serves.step stepped
    obtain ⟨moved',done',served⟩ := ih served ran
    exact ⟨moved',done',by simpa using served⟩

end Runs

section Orders
variable {tokenizer : TokenizerRender} {workers moved : Nat} {history : List TokenizerPoolAct} {done : Nat → List TokenizerRequest}
  {p p' : TokenizerPool} {a : TokenizerPoolAct}

theorem requests_sorted (history : List TokenizerPoolAct) : (requests history).Pairwise fun earlier later => earlier.2 < later.2 := by
  have numbers : ((requests history).map Prod.snd).Pairwise (· < ·) := by
    rw [requests,List.zipIdx_map_snd]
    exact List.pairwise_lt_range'
  exact List.pairwise_map.mp numbers

theorem lane_sorted (history : List TokenizerPoolAct) (workers moved worker : Nat) :
    (lane (requests history) workers moved worker).Pairwise fun earlier later => earlier.2 < later.2 :=
  (requests_sorted history).sublist (List.filter_sublist.trans (List.take_sublist moved _))

theorem mem_lane {input : PromptInputs} {k worker : Nat} : (input,k) ∈ lane (requests history) workers moved worker ↔
    (input,k) ∈ requests history ∧ k < moved ∧ k%workers = worker := by
  simp only [lane,List.mem_filter,decide_eq_true_eq]
  constructor
  · rintro ⟨early,mine⟩
    obtain ⟨i,inside,found⟩ := List.mem_take_iff_getElem.mp early
    have number : i = k := (requests_getElem history (Nat.lt_of_lt_of_le inside (Nat.min_le_right _ _))).symm.trans (congrArg Prod.snd found)
    exact ⟨List.mem_of_mem_take early,number ▸ Nat.lt_of_lt_of_le inside (Nat.min_le_left _ _),mine⟩
  · rintro ⟨sent,early,mine⟩
    have inside := requests_inside sent
    have found : (requests history)[k] = (input,k) :=
      Prod.ext (requests_unique (requests_at history inside) sent) (requests_getElem history inside)
    exact ⟨List.mem_take_iff_getElem.mpr ⟨k,Nat.lt_min.mpr ⟨early,inside⟩,found⟩,mine⟩

-- By turns each worker is given its even share.
theorem lane_length {worker : Nat} (inside : worker < workers) (taken : moved ≤ (requests history).length) :
    (lane (requests history) workers moved worker).length = EvenSplit.share moved workers worker := by
  have numbers : ((requests history).take moved).map Prod.snd = List.range moved := by
    rw [List.map_take,requests,List.zipIdx_map_snd,← List.range_eq_range',List.take_range,Nat.min_eq_left (by simpa [requests] using taken)]
  rw [← EvenSplit.count_turns moved inside,← numbers,lane,← List.countP_eq_length_filter,List.count,List.map_map,List.countP_map]
  exact List.countP_congr fun request _ => by simp

theorem Serves.mem_done (serves : Serves tokenizer workers history moved done p) {k : Nat} {prepared : Prepared}
    (answered : p.responses k = .answered prepared) : ∃ input, (input,k) ∈ requests history ∧ (input,k) ∈ done (k%workers) ∧
      prepared = tokenizer.prepare input := by
  have inside : k < (requests history).length := by
    apply Nat.lt_of_not_le
    intro late
    cases answered.symm.trans (serves.fresh k (serves.opened ▸ late))
  have sent := requests_at history inside
  by_cases served : ((requests history)[k].1,k) ∈ done (k%workers)
  · rcases serves.answered _ k served with own | closed
    · exact ⟨_,sent,served,PrepareResponse.answered.inj (answered.symm.trans own)⟩
    · cases answered.symm.trans closed
  · rcases serves.pending _ k sent served with awaited | closed
    · cases answered.symm.trans awaited
    · cases answered.symm.trans closed

-- A worker answers in the order of sending: what its lane has before an answered
-- request does not wait any more.
theorem Serves.in_order (serves : Serves tokenizer workers history moved done p) {j k : Nat} {prepared : Prepared}
    (answered : p.responses k = .answered prepared) (before : j < k) (same : j%workers = k%workers) : p.responses j ≠ .awaited := by
  obtain ⟨input,sent,served,-⟩ := serves.mem_done answered
  have places : (input,k) ∈ lane (requests history) workers moved (k%workers) := by
    rw [← serves.lanes]
    exact List.mem_append_left _ served
  obtain ⟨-,early,-⟩ := mem_lane.mp places
  have inside : j < (requests history).length := Nat.lt_trans before (requests_inside sent)
  have places' : ((requests history)[j].1,j) ∈ done (k%workers)++p.queue (k%workers) := by
    rw [serves.lanes]
    exact mem_lane.mpr ⟨requests_at history inside,Nat.lt_trans before early,same⟩
  have sorted := lane_sorted history workers moved (k%workers)
  rw [← serves.lanes] at sorted
  have first : ((requests history)[j].1,j) ∈ done (k%workers) := by
    refine (List.mem_append.mp places').resolve_right fun waits => ?_
    exact Nat.lt_asymm before ((List.pairwise_append.mp sorted).2.2 _ served _ waits)
  rcases serves.answered _ j (same ▸ first) with own | closed
  · simp [own]
  · simp [closed]

theorem Serves.idle_settled (serves : Serves tokenizer workers history moved done p) (idle : p.load = 0) {input : PromptInputs} {k : Nat}
    (sent : (input,k) ∈ requests history) : Settled (tokenizer.prepare input) (p.responses k) := by
  unfold load at idle
  have received : p.receiver = [] := List.length_eq_zero_iff.mp (by omega)
  have whole : (requests history).length ≤ moved := List.drop_eq_nil_iff.mp (serves.receiver.symm.trans received)
  have empty : p.queue (k%workers) = [] := by
    unfold queue
    cases found : p.senders[k%workers]? with
    | none => rfl
    | some queue =>
      have counted : queue.length ∈ p.senders.map List.length := List.mem_map_of_mem (List.mem_of_getElem? found)
      have bound := List.le_sum_of_mem counted
      rw [Option.getD_some]
      exact List.length_eq_zero_iff.mp (by omega)
  have place : (input,k) ∈ done (k%workers)++p.queue (k%workers) := by
    rw [serves.lanes]
    exact mem_lane.mpr ⟨sent,Nat.lt_of_lt_of_le (requests_inside sent) whole,rfl⟩
  rw [empty,List.append_nil] at place
  exact serves.answered input k place

end Orders

section Loads
variable {tokenizer : TokenizerRender} {workers moved : Nat} {history services : List TokenizerPoolAct} {done : Nat → List TokenizerRequest}
  {p p' : TokenizerPool} {a : TokenizerPoolAct}

theorem sum_set_length {α : Type} {queues : List (List α)} {i : Nat} {queue : List α} (found : queues[i]? = some queue) (next : List α) :
    ((queues.set i next).map List.length).sum+queue.length = (queues.map List.length).sum+next.length := by
  induction queues generalizing i with
  | nil => simp at found
  | cons first rest ih =>
    cases i with
    | zero =>
      cases found
      simp only [List.set_cons_zero,List.map_cons,List.sum_cons]
      omega
    | succ i =>
      have shorter := ih (i := i) found
      simp only [List.set_cons_succ,List.map_cons,List.sum_cons]
      omega

theorem load_step (service : a.service = true) (stepped : p.step a = some p') : p'.load+1 = p.load := by
  cases a with
  | send input => cases service
  | hangUp channel => cases service
  | roundRobinTask =>
    obtain ⟨request,rest,queue,first,sender,rfl⟩ := roundRobinTask_eq stepped
    have sums := sum_set_length sender (queue++[request])
    simp only [load,first,List.length_cons,List.length_append,List.length_nil] at sums ⊢
    omega
  | tokenizerWorker worker =>
    obtain ⟨request,rest,found,rfl⟩ := tokenizerWorker_eq stepped
    have sums := sum_set_length found rest
    simp only [load,List.length_cons] at sums ⊢
    omega

theorem load_run (service : ∀ a ∈ services, a.service = true) (ran : p.run services = some p') : p'.load+services.length = p.load := by
  induction services generalizing p with
  | nil =>
    cases ran
    rfl
  | cons a rest ih =>
    obtain ⟨middle,stepped,ran⟩ := Option.bind_eq_some_iff.mp ran
    have one := load_step (service a List.mem_cons_self) stepped
    have more := ih (fun b member => service b (List.mem_cons_of_mem _ member)) ran
    rw [List.length_cons]
    omega

-- A request that waits can be moved on: the turn is always a worker's.
theorem Serves.enabled (serves : Serves tokenizer workers history moved done p) (staffed : 0 < workers) (busy : p.load ≠ 0) :
    ∃ a : TokenizerPoolAct, a.service = true ∧ p.step a ≠ none := by
  cases received : p.receiver with
  | cons request rest =>
    have slot : p.turn < p.senders.length := by
      rw [serves.turn,serves.size]
      exact Nat.mod_lt _ staffed
    refine ⟨.roundRobinTask,rfl,?_⟩
    simp [TokenizerPool.step,TokenizerPool.roundRobinTask,received,slot]
  | nil =>
    have counted : (p.senders.map List.length).sum ≠ 0 := by simpa [load,received] using busy
    obtain ⟨queue,member,waits⟩ : ∃ queue ∈ p.senders, queue ≠ [] := by
      by_contra all
      push Not at all
      refine counted (List.sum_eq_zero fun n member => ?_)
      obtain ⟨queue,present,rfl⟩ := List.mem_map.mp member
      rw [all queue present,List.length_nil]
    obtain ⟨i,found⟩ := List.mem_iff_getElem?.mp member
    obtain ⟨request,rest,rfl⟩ := List.exists_cons_of_ne_nil waits
    refine ⟨.tokenizerWorker i,rfl,?_⟩
    simp [TokenizerPool.step,TokenizerPool.tokenizerWorker,found]

theorem Serves.idle_iff (serves : Serves tokenizer workers history moved done p) (staffed : 0 < workers) :
    (∀ a : TokenizerPoolAct, a.service = true → p.step a = none) ↔ p.load = 0 := by
  constructor
  · intro idle
    by_contra busy
    obtain ⟨a,service,moves⟩ := serves.enabled staffed busy
    exact moves (idle a service)
  · intro idle a service
    cases stepped : p.step a with
    | none => rfl
    | some next =>
      have less := load_step service stepped
      omega

theorem requests_service (history : List TokenizerPoolAct) (service : ∀ a ∈ services, a.service = true) :
    requests (history++services) = requests history := by
  induction services generalizing history with
  | nil => rw [List.append_nil]
  | cons a rest ih =>
    have quiet : a.input = none := by
      have first := service a List.mem_cons_self
      cases a <;> first | rfl | cases first
    rw [← List.singleton_append,← List.append_assoc,ih _ fun b member => service b (List.mem_cons_of_mem _ member),requests_quiet history quiet]

end Loads

-- Each client gets the preparation of its own request; a worker answers in the
-- order of sending; and however the round robin task and the workers take
-- turns, every worker gets its even share, and they come to rest after the same
-- number of services, with an answer to every client that stayed.
theorem tokenizer_pool_serves (tokenizer : TokenizerRender) {workers : Nat} (staffed : 0 < workers) {history : List TokenizerPoolAct}
    {p : TokenizerPool} (ran : (new tokenizer workers).run history = some p) :
    (∀ k prepared, p.responses k = .answered prepared → ∃ input, (input,k) ∈ requests history ∧ prepared = tokenizer.prepare input) ∧
    (∀ j k prepared, p.responses k = .answered prepared → j < k → j%workers = k%workers → p.responses j ≠ .awaited) ∧
    (∀ i, i < workers → history.countP (TokenizerPoolAct.works i)+(p.queue i).length =
      EvenSplit.share (history.countP TokenizerPoolAct.receives) workers i) ∧
    ∀ services p', (∀ a ∈ services, a.service = true) → p.run services = some p' →
      services.length ≤ p.load ∧ ((∀ a : TokenizerPoolAct, a.service = true → p'.step a = none) ↔ services.length = p.load) ∧
      (services.length = p.load → ∀ input k, (input,k) ∈ requests history → .hangUp k ∉ history →
        p'.responses k = .answered (tokenizer.prepare input)) := by
  obtain ⟨moved,done,serves⟩ := (serves_new tokenizer workers).run ran
  rw [List.nil_append] at serves
  refine ⟨fun k prepared answered => ?_,fun j k prepared answered => serves.in_order answered,fun i inside => ?_,
    fun services p' service ran => ?_⟩
  · obtain ⟨input,sent,-,own⟩ := serves.mem_done answered
    exact ⟨input,sent,own⟩
  · rw [serves.works,serves.rounds,← lane_length inside serves.taken,← serves.lanes,List.length_append]
  · obtain ⟨moved',done',serves'⟩ := serves.run ran
    have spent := load_run service ran
    refine ⟨by omega,(serves'.idle_iff staffed).trans (by omega),fun rest input k sent stays => ?_⟩
    refine (serves'.idle_settled (by omega) ((requests_service history service).symm ▸ sent)).resolve_right fun closed => ?_
    rcases List.mem_append.mp (serves'.closed k closed) with early | late
    · exact stays early
    · cases service _ late

-- A tokenizer of one token for each character, a template that keeps the last message.
def characters : TokenizerRender where
  render messages := .ok ((messages.getLast?.map ChatMessage.content).getD "")
  encode text := .ok (text.toList.map Char.toNat)
  decode tokens := .ok (String.ofList (tokens.map Char.ofNat))

-- The second request is answered before the first; the client of the third leaves.
def threePrompts : List TokenizerPoolAct :=
  [.send ⟨"one",none,none⟩,.send ⟨"two",some 2,none⟩,.roundRobinTask,.roundRobinTask,.send ⟨"three",none,none⟩,.tokenizerWorker 1,.hangUp 2]

theorem tokenizer_pool_serves_three : ∃ p, (new characters 2).run threePrompts = some p ∧ p.load = 3 ∧
    ∀ services p', (∀ a ∈ services, a.service = true) → p.run services = some p' → services.length = 3 →
      p'.responses 0 = .answered (characters.prepare ⟨"one",none,none⟩) ∧ p'.responses 1 = .answered (characters.prepare ⟨"two",some 2,none⟩) := by
  refine ⟨_,rfl,rfl,fun services p' service ran spent => ?_⟩
  have finish := ((@tokenizer_pool_serves characters 2 (by decide) threePrompts _ rfl).2.2.2 services p' service ran).2.2 spent
  exact ⟨finish _ 0 (by simp [requests,threePrompts,TokenizerPoolAct.input]) (by simp [threePrompts]),
    finish _ 1 (by simp [requests,threePrompts,TokenizerPoolAct.input]) (by simp [threePrompts])⟩

end TokenizerPool
end BlitzRouter
