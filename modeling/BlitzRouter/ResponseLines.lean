import BlitzRouter.ResponseChannels

namespace BlitzRouter
open CompletionLoop

-- What the outputs passed on so far hold for a request, in their order.
def tokensFor (ext : External) (outputs : List RequestStepOutput) (id : RequestId) : List Token :=
  (outputs.filter fun o => decide (o.requestId = id)).flatMap fun o => o.newTokenIds.map (tokenOf ext)

def FinishedIn (outputs : List RequestStepOutput) (id : RequestId) : Prop := ∃ o ∈ outputs, o.isFinished = true ∧ o.requestId = id

variable {ext : External} {outputs more : List RequestStepOutput} {faulted : List RequestId} {o : RequestStepOutput} {id : RequestId}
  {tx tx' : ResponseTx}

theorem tokensFor_append : tokensFor ext (outputs++more) id = tokensFor ext outputs id++tokensFor ext more id := by
  simp only [tokensFor,List.filter_append,List.flatMap_append]

theorem tokensFor_own (o : RequestStepOutput) : tokensFor ext [o] o.requestId = o.newTokenIds.map (tokenOf ext) := by
  simp only [tokensFor,decide_true,List.filter_cons_of_pos,List.filter_nil,List.flatMap_cons,List.flatMap_nil,List.append_nil]

theorem tokensFor_unnamed (unnamed : ∀ o ∈ outputs, o.requestId ≠ id) : tokensFor ext outputs id = [] := by
  have none : (outputs.filter fun o => decide (o.requestId = id)) = [] :=
    List.filter_eq_nil_iff.mpr fun o member named => unnamed o member (of_decide_eq_true named)
  rw [tokensFor,none]
  rfl

theorem tokensFor_other (differs : id ≠ o.requestId) : tokensFor ext (outputs++[o]) id = tokensFor ext outputs id := by
  have none : tokensFor ext [o] id = [] := tokensFor_unnamed fun p member => by
    rw [List.mem_singleton.mp member]
    exact differs.symm
  rw [tokensFor_append,none,List.append_nil]

theorem finishedIn_append : FinishedIn (outputs++more) id ↔ FinishedIn outputs id ∨ FinishedIn more id := by
  simp only [FinishedIn,List.mem_append,or_and_right,exists_or]

theorem finishedIn_singleton : FinishedIn [o] id ↔ o.isFinished = true ∧ o.requestId = id := by
  simp only [FinishedIn,List.mem_singleton,exists_eq_left]

theorem finishedIn_other (differs : id ≠ o.requestId) : FinishedIn (outputs++[o]) id ↔ FinishedIn outputs id := by
  rw [finishedIn_append,finishedIn_singleton]
  exact or_iff_left fun own => differs own.2.symm

-- The channel of a request that the loop serves.
structure Streaming (ext : External) (outputs : List RequestStepOutput) (id : RequestId) (tx : ResponseTx) : Prop where
  opened : tx.Open
  tokens : tx.reads = none → tx.tokens = tokensFor ext outputs id
  runs : ¬FinishedIn outputs id

-- The channel of a request in the exception context, which is there for a reason.
structure Withheld (faulted : List RequestId) (id : RequestId) (tx : ResponseTx) : Prop where
  closes : Closes Message.isTerminal tx.sent
  cause : tx.reads = none → id ∈ faulted

-- The channel of a request that is on its way out.
structure Resolved (ext : External) (outputs : List RequestStepOutput) (faulted : List RequestId) (id : RequestId) (tx : ResponseTx) :
    Prop where
  closes : Closes Message.isTerminal tx.sent
  finished : tx.reads = none → id ∉ faulted → FinishedIn outputs id
  tokens : tx.reads = none → id ∉ faulted → tx.tokens = tokensFor ext outputs id
  ended : tx.reads = none → id ∉ faulted → ∃ body, tx.sent = body++[Message.ended] ∧ Running Message.isTerminal body

theorem Streaming.other (streaming : Streaming ext outputs id tx) (differs : id ≠ o.requestId) : Streaming ext (outputs++[o]) id tx := by
  refine ⟨streaming.opened,fun connected => ?_,(finishedIn_other differs).not.mpr streaming.runs⟩
  rw [tokensFor_other differs]
  exact streaming.tokens connected

theorem Streaming.next {isOpen : Bool} (streaming : Streaming ext outputs o.requestId tx) (goes : o.isFinished = false)
    (extended : tx.Extends ext o.newTokenIds tx' isOpen) : Streaming ext (outputs++[o]) o.requestId tx' := by
  refine ⟨extended.opened streaming.opened,fun connected => ?_,?_⟩
  · rw [extended.reads] at connected
    rw [(extended.connected connected).2,streaming.tokens connected,tokensFor_append,tokensFor_own]
  · rw [finishedIn_append,finishedIn_singleton,goes]
    exact fun either => either.elim streaming.runs fun own => Bool.false_ne_true own.1

-- The last output is followed by the end of the stream.
theorem Streaming.finish {isOpen : Bool} (streaming : Streaming ext outputs o.requestId tx) (ends : o.isFinished = true)
    (extended : tx.Extends ext o.newTokenIds tx' isOpen) :
    Resolved ext (outputs++[o]) faulted o.requestId (tx'.send Message.ended).1 := by
  have opened := extended.opened streaming.opened
  rcases tx'.send_cases Message.ended with sent | ⟨lost,gone⟩
  · rw [sent]
    refine ⟨opened.close _,fun _ _ => ?_,fun connected _ => ?_,fun _ _ => ⟨tx'.sent,rfl,opened⟩⟩
    · exact finishedIn_append.mpr (.inr (finishedIn_singleton.mpr ⟨ends,rfl⟩))
    · have still : tx.reads = none := extended.reads.symm.trans connected
      have whole : (tx'.sent++[Message.ended]).filterMap Message.token = tx'.tokens := by
        rw [List.filterMap_append]
        exact List.append_nil _
      exact whole.trans (by rw [(extended.connected still).2,streaming.tokens still,tokensFor_append,tokensFor_own])
  · rw [lost]
    exact ⟨opened.closes,fun connected => absurd connected gone,fun connected => absurd connected gone,
      fun connected => absurd connected gone⟩

theorem Streaming.abort (streaming : Streaming ext outputs id tx) (gone : tx.reads ≠ none) : Withheld faulted id tx :=
  ⟨streaming.opened.closes,fun connected => absurd connected gone⟩

theorem Streaming.refuse (streaming : Streaming ext outputs id tx) (noticed : id ∈ faulted) :
    Withheld faulted id (tx.send Message.refused).1 := by
  refine ⟨?_,fun _ => noticed⟩
  rcases tx.send_cases Message.refused with sent | ⟨lost,_⟩
  · rw [sent]
    exact streaming.opened.close _
  · rw [lost]
    exact streaming.opened.closes

theorem Withheld.resolved (withheld : Withheld faulted id tx) : Resolved ext outputs faulted id tx :=
  ⟨withheld.closes,fun connected fine => absurd (withheld.cause connected) fine,
    fun connected fine => absurd (withheld.cause connected) fine,fun connected fine => absurd (withheld.cause connected) fine⟩

-- No output comes for a request that has finished.
theorem Resolved.later (resolved : Resolved ext outputs faulted id tx) (runs : ¬FinishedIn outputs o.requestId) :
    Resolved ext (outputs++[o]) faulted id tx := by
  refine ⟨resolved.closes,fun connected fine => finishedIn_append.mpr (.inl (resolved.finished connected fine)),
    fun connected fine => ?_,resolved.ended⟩
  have differs : id ≠ o.requestId := by
    intro same
    exact runs (same ▸ resolved.finished connected fine)
  rw [tokensFor_other differs]
  exact resolved.tokens connected fine

theorem Withheld.mono {others : List RequestId} (withheld : Withheld faulted id tx) (more : ∀ id ∈ faulted, id ∈ others) :
    Withheld others id tx :=
  ⟨withheld.closes,fun connected => more id (withheld.cause connected)⟩

theorem Resolved.mono {others : List RequestId} (resolved : Resolved ext outputs faulted id tx) (more : ∀ id ∈ faulted, id ∈ others) :
    Resolved ext outputs others id tx :=
  ⟨resolved.closes,fun connected fine => resolved.finished connected (mt (more id) fine),
    fun connected fine => resolved.tokens connected (mt (more id) fine),fun connected fine => resolved.ended connected (mt (more id) fine)⟩

-- What a client is promised. Wherever its entry is, the channel of a request holds
-- one terminal message at most and nothing behind it; and while the client stays
-- and the request does not fault, it holds the tokens of the outputs passed on,
-- and the end of the stream from the last output on.
structure Delivered (ext : External) (outputs : List RequestStepOutput) (faulted : List RequestId) (entry : Entry) : Prop where
  closes : Closes Message.isTerminal entry.responseTx.sent
  once : entry.responseTx.sent.countP Message.isTerminal ≤ 1
  tokens : entry.responseTx.reads = none → entry.request.requestId ∉ faulted →
    entry.responseTx.tokens = tokensFor ext outputs entry.request.requestId
  running : entry.responseTx.reads = none → entry.request.requestId ∉ faulted → ¬FinishedIn outputs entry.request.requestId →
    Running Message.isTerminal entry.responseTx.sent
  ended : entry.responseTx.reads = none → entry.request.requestId ∉ faulted → FinishedIn outputs entry.request.requestId →
    ∃ body, entry.responseTx.sent = body++[Message.ended] ∧ Running Message.isTerminal body

theorem Streaming.delivered {entry : Entry} (streaming : Streaming ext outputs entry.request.requestId entry.responseTx) :
    Delivered ext outputs faulted entry :=
  ⟨streaming.opened.closes,streaming.opened.closes.at_most_once,fun connected _ => streaming.tokens connected,
    fun _ _ _ => streaming.opened,fun _ _ finished => absurd finished streaming.runs⟩

theorem Resolved.delivered {entry : Entry} (resolved : Resolved ext outputs faulted entry.request.requestId entry.responseTx) :
    Delivered ext outputs faulted entry :=
  ⟨resolved.closes,resolved.closes.at_most_once,resolved.tokens,
    fun connected fine runs => absurd (resolved.finished connected fine) runs,fun connected fine _ => resolved.ended connected fine⟩

end BlitzRouter
