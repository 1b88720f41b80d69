import BlitzRouter.SchedSnapshot

namespace BlitzRouter.StepReceiver

inductive EngineClientError where
  | http (text : String)
  | sse (text : String)
  | json (text : String)
  | zmq (text : String)
  | msgpack (text : String)
  | notConnected
  | apiError (text : String)
  | streamEnded
deriving DecidableEq,Repr

inductive SSE where
  | connected (status : Nat)
  | event (data : String)
  | comment
deriving DecidableEq,Repr

-- What a stream has still to yield. One that is not closed is waited on.
structure SseState where
  items : List (Except String SSE)
  closed : Bool

-- The network of a receiver: what each further attempt to connect meets.
structure VllmStepReceiver where
  attempts : List (Except String SseState)
  sseState : Option SseState

-- The first item of a stream only says whether it is connected; an event in its
-- place is dropped.
def refusal : Except String SSE → Option EngineClientError
  | .ok (.connected status) => if status ≠ 200 then some (.sse s!"SSE connection returned status {status}") else none
  | .ok _ => none
  | .error text => some (.sse s!"SSE connection error: {text}")

-- `none` is a receiver that waits.
def ensureSseConnected (r : VllmStepReceiver) : Option (Except EngineClientError Unit × VllmStepReceiver) :=
  match r.sseState with
  | some _ => some (.ok (),r)
  | none =>
    match r.attempts with
    | [] => none
    | .error text::rest => some (.error (.sse text),⟨rest,none⟩)
    | .ok stream::rest =>
      match stream.items with
      | [] => if stream.closed then some (.error .streamEnded,⟨rest,none⟩) else none
      | first::items =>
        match refusal first with
        | some e => some (.error e,⟨rest,none⟩)
        | none => some (.ok (),⟨rest,some ⟨items,stream.closed⟩⟩)

section Receiving
variable (parse : String → Except String EngineStepOutput) (quoted : String → String)

def parsed (data : String) : Except EngineClientError EngineStepOutput :=
  match parse data with
  | .ok m => .ok m
  | .error text =>
    let raw := quoted data
    .error (.json s!"Failed to parse SSE event data: {text} (raw: {raw})")

def nextStep (closed : Bool) : List (Except String SSE) → Option (Except EngineClientError EngineStepOutput × List (Except String SSE))
  | [] => if closed then some (.error .streamEnded,[]) else none
  | .ok (.event data)::rest => some (parsed parse quoted data,rest)
  | .ok .comment::rest => nextStep closed rest
  | .ok (.connected _)::rest => nextStep closed rest
  | .error text::rest => some (.error (.sse s!"SSE stream error: {text}"),rest)

def recvStep (r : VllmStepReceiver) : Option (Except EngineClientError EngineStepOutput × VllmStepReceiver) :=
  match ensureSseConnected r with
  | none => none
  | some (.error e,r) => some (.error e,r)
  | some (.ok (),r) =>
    match r.sseState with
    | none => none
    | some s => (nextStep parse quoted s.closed s.items).map fun (result,items) => (result,{r with sseState := some ⟨items,s.closed⟩})

-- What one turn of the completion loop gets: a step to handle, an error to log,
-- or the end of the stream, which ends the loop.
inductive Turn where
  | step (m : EngineStepOutput)
  | failed (e : EngineClientError)
  | ended
deriving DecidableEq

def turns : Nat → VllmStepReceiver → List Turn
  | 0,_ => []
  | fuel+1,r =>
    match recvStep parse quoted r with
    | none => []
    | some (.ok m,r) => .step m::turns fuel r
    | some (.error e,r) => if e = .streamEnded then [.ended] else .failed e::turns fuel r

-- What an item of a connected stream comes to.
def told : Except String SSE → Option Turn
  | .ok (.event data) =>
    match parsed parse quoted data with
    | .ok m => some (.step m)
    | .error e => some (.failed e)
  | .ok _ => none
  | .error text => some (.failed (.sse s!"SSE stream error: {text}"))

end Receiving

def ending (closed : Bool) : List Turn := if closed then [.ended] else []

inductive Refused : Except String SseState → EngineClientError → Prop where
  | client {text : String} : Refused (.error text) (.sse text)
  | first {item : Except String SSE} {items : List (Except String SSE)} {closed : Bool} {e : EngineClientError} :
      refusal item = some e → Refused (.ok ⟨item::items,closed⟩) e

section Laws
variable {parse : String → Except String EngineStepOutput} {quoted : String → String}

theorem parsed_error {data : String} {e : EngineClientError} (failed : parsed parse quoted data = .error e) : e ≠ .streamEnded := by
  unfold parsed at failed
  split at failed
  · cases failed
  · cases failed
    exact EngineClientError.noConfusion

theorem turns_skip {item : Except String SSE} (quiet : ∀ closed rest, nextStep parse quoted closed (item::rest) = nextStep parse quoted closed rest)
    (fuel : Nat) (later : List (Except String SseState)) (rest : List (Except String SSE)) (closed : Bool) :
    turns parse quoted fuel ⟨later,some ⟨item::rest,closed⟩⟩ = turns parse quoted fuel ⟨later,some ⟨rest,closed⟩⟩ := by
  cases fuel with
  | zero => rfl
  | succ fuel => simp only [turns,recvStep,ensureSseConnected,quiet]

theorem turns_connected (items : List (Except String SSE)) (closed : Bool) (later : List (Except String SseState)) {fuel : Nat}
    (enough : items.length < fuel) :
    turns parse quoted fuel ⟨later,some ⟨items,closed⟩⟩ = items.filterMap (told parse quoted)++ending closed := by
  induction items generalizing fuel with
  | nil =>
    obtain ⟨fuel,rfl⟩ := Nat.exists_eq_succ_of_ne_zero (Nat.ne_of_gt enough)
    cases closed <;> simp [turns,recvStep,ensureSseConnected,nextStep,ending]
  | cons item rest ih =>
    obtain ⟨fuel,rfl⟩ := Nat.exists_eq_succ_of_ne_zero (Nat.ne_of_gt (Nat.zero_lt_of_lt enough))
    have shorter : rest.length < fuel := Nat.lt_of_succ_lt_succ enough
    have longer : rest.length < fuel+1 := Nat.lt_of_succ_lt enough
    rcases item with text | (status | data | _)
    · simp [turns,recvStep,ensureSseConnected,nextStep,told,ih shorter]
    · rw [turns_skip (fun _ _ => rfl),ih longer,List.filterMap_cons_none rfl]
    · cases read : parsed parse quoted data with
      | ok m => simp [turns,recvStep,ensureSseConnected,nextStep,told,read,ih shorter]
      | error e => simp [turns,recvStep,ensureSseConnected,nextStep,told,read,ih shorter,parsed_error read]
    · rw [turns_skip (fun _ _ => rfl),ih longer,List.filterMap_cons_none rfl]

theorem refusal_error {item : Except String SSE} {e : EngineClientError} (refused : refusal item = some e) : e ≠ .streamEnded := by
  unfold refusal at refused
  split at refused
  · split at refused
    · cases refused
      exact EngineClientError.noConfusion
    · cases refused
  · cases refused
  · cases refused
    exact EngineClientError.noConfusion

theorem turns_refused {attempt : Except String SseState} {e : EngineClientError} (refused : Refused attempt e) (fuel : Nat)
    (later : List (Except String SseState)) :
    turns parse quoted (fuel+1) ⟨attempt::later,none⟩ = .failed e::turns parse quoted fuel ⟨later,none⟩ := by
  cases refused with
  | client => simp [turns,recvStep,ensureSseConnected]
  | first refused => simp [turns,recvStep,ensureSseConnected,refused,refusal_error refused]

theorem turns_accepted {first : Except String SSE} (accepted : refusal first = none) (fuel : Nat) (items : List (Except String SSE)) (closed : Bool)
    (later : List (Except String SseState)) :
    turns parse quoted fuel ⟨.ok ⟨first::items,closed⟩::later,none⟩ = turns parse quoted fuel ⟨later,some ⟨items,closed⟩⟩ := by
  cases fuel with
  | zero => rfl
  | succ fuel => simp only [turns,recvStep,ensureSseConnected,accepted]

-- What the completion loop gets from a network: one error for each attempt that
-- is refused, then every event of the first stream that is not, in its order.
theorem steps_in_order (parse : String → Except String EngineStepOutput) (quoted : String → String)
    {refusals : List (Except String SseState × EngineClientError)} (refused : ∀ attempt ∈ refusals, Refused attempt.1 attempt.2)
    {first : Except String SSE} (accepted : refusal first = none) (items : List (Except String SSE)) (closed : Bool)
    (later : List (Except String SseState)) {fuel : Nat} (enough : refusals.length+items.length < fuel) :
    turns parse quoted fuel ⟨refusals.map Prod.fst++.ok ⟨first::items,closed⟩::later,none⟩ =
      (refusals.map fun attempt => .failed attempt.2)++items.filterMap (told parse quoted)++ending closed := by
  induction refusals generalizing fuel with
  | nil => exact (turns_accepted accepted fuel items closed later).trans (turns_connected items closed later (by simpa using enough))
  | cons attempt rest ih =>
    rw [List.length_cons] at enough
    obtain ⟨fuel,rfl⟩ := Nat.exists_eq_succ_of_ne_zero (Nat.ne_of_gt (Nat.zero_lt_of_lt enough))
    have room : rest.length+items.length < fuel := by omega
    have more := ih (fun other member => refused other (List.mem_cons_of_mem _ member)) room
    simp only [List.map_cons,List.cons_append]
    rw [turns_refused (refused attempt List.mem_cons_self),more,List.append_assoc]

-- Two refused attempts, a reconnect in the stream and an event that does not parse.
def stepsOnly (data : String) : Except String EngineStepOutput :=
  if data = "step" then .ok ⟨8,5,[],[],[],[],[],[],[],1⟩ else .error "expected value"

theorem steps_in_order_third : turns stepsOnly id 8 ⟨[.error "invalid uri",.ok ⟨[.ok (.connected 503)],true⟩,
      .ok ⟨[.ok (.connected 200),.ok (.event "step"),.ok (.connected 200),.ok (.event "\x7b\x7d"),.ok (.event "step")],true⟩],none⟩ =
    [.failed (.sse "invalid uri"),.failed (.sse "SSE connection returned status 503"),.step ⟨8,5,[],[],[],[],[],[],[],1⟩,
      .failed (.json "Failed to parse SSE event data: expected value (raw: \x7b\x7d)"),.step ⟨8,5,[],[],[],[],[],[],[],1⟩,.ended] := by
  have refused : ∀ attempt ∈ [((.error "invalid uri" : Except String SseState),EngineClientError.sse "invalid uri"),
      (.ok ⟨[.ok (.connected 503)],true⟩,.sse "SSE connection returned status 503")], Refused attempt.1 attempt.2 := by
    intro attempt member
    simp only [List.mem_cons,List.not_mem_nil,or_false] at member
    rcases member with rfl | rfl
    · exact .client
    · exact .first (by decide)
  exact steps_in_order stepsOnly id refused (show refusal (.ok (.connected 200)) = none from rfl) _ true [] (by decide)

end Laws
end BlitzRouter.StepReceiver
