import BlitzRouter.ClosingStreams
import BlitzRouter.FaultDelivery

namespace BlitzRouter
open CompletionLoop

def Message.isTerminal : Message → Bool
  | .ok .prefill => false
  | .ok (.intermediate ..) => false
  | .ok (.ending ..) => true
  | .err _ => true

def Message.token : Message → Option Token
  | .ok (.intermediate token _) => some token
  | _ => none

-- The last message of a request that ran to its end.
def Message.ended : Message := .ok (.ending Token.default [] GeneratedText.default)

-- The message of a request that the engine gave up.
def Message.refused : Message := .err (.generationError "Engine refused to serve!")

namespace ResponseTx
variable {tx : ResponseTx} {message : Message}

def tokens (tx : ResponseTx) : List Token := tx.sent.filterMap Message.token

def Open (tx : ResponseTx) : Prop := Running Message.isTerminal tx.sent

-- A send reaches a client that stays, and changes nothing for one that has gone.
theorem send_cases (tx : ResponseTx) (message : Message) :
    tx.send message = ({tx with sent := tx.sent++[message]},true) ∨ tx.send message = (tx,false) ∧ tx.reads ≠ none := by
  unfold send
  cases accepts : tx.accepts with
  | true => exact .inl rfl
  | false =>
    refine .inr ⟨rfl,fun connected => ?_⟩
    unfold ResponseTx.accepts at accepts
    rw [connected] at accepts
    cases accepts

-- The channel after the messages of one output, none of them terminal. The flag
-- says whether the client was there for all of them.
structure Extends (ext : External) (newTokenIds : List TokenId) (tx tx' : ResponseTx) (isOpen : Bool) : Prop where
  reads : tx'.reads = tx.reads
  opened : tx.Open → tx'.Open
  connected : tx.reads = none → isOpen = true ∧ tx'.tokens = tx.tokens++newTokenIds.map (tokenOf ext)

theorem Extends.stopped {ext : External} {newTokenIds : List TokenId} (gone : tx.reads ≠ none) : Extends ext newTokenIds tx tx false :=
  ⟨rfl,id,fun connected => absurd connected gone⟩

-- Induction on the tokens: the first one is sent, or the client has gone.
theorem sendTokens_extends (ext : External) (newTokenIds : List TokenId) (tx : ResponseTx) :
    Extends ext newTokenIds tx (sendTokens ext tx newTokenIds).1 (sendTokens ext tx newTokenIds).2 := by
  induction newTokenIds generalizing tx with
  | nil => exact ⟨rfl,id,fun _ => ⟨rfl,(List.append_nil _).symm⟩⟩
  | cons t rest ih =>
    rcases tx.send_cases (.ok (.intermediate (tokenOf ext t) [])) with sent | ⟨lost,gone⟩
    · have more := ih {tx with sent := tx.sent++[.ok (.intermediate (tokenOf ext t) [])]}
      simp only [sendTokens,sent,if_true]
      refine ⟨more.reads,fun opened => more.opened (opened.append (running_singleton rfl)),fun connected => ?_⟩
      obtain ⟨whole,tokens⟩ := more.connected connected
      refine ⟨whole,tokens.trans ?_⟩
      simp only [ResponseTx.tokens,List.filterMap_append,List.filterMap_cons,Message.token,List.filterMap_nil,List.append_assoc,
        List.singleton_append,List.map_cons]
    · simp only [sendTokens,lost,Bool.false_eq_true,if_false]
      exact .stopped gone

end ResponseTx

namespace CompletionLoop
open ResponseTx
variable {ext : External} {entry : Entry} {newTokenIds : List TokenId}

theorem onDecode_extends (ext : External) (entry : Entry) (newTokenIds : List TokenId) : ∃ tx isOpen,
    onDecode ext entry newTokenIds = ({entry with responseTx := tx},isOpen) ∧ Extends ext newTokenIds entry.responseTx tx isOpen :=
  ⟨_,_,rfl,sendTokens_extends ext newTokenIds entry.responseTx⟩

theorem onPrefill_extends (ext : External) (entry : Entry) (newTokenIds : List TokenId) : ∃ tx isOpen,
    onPrefill ext entry newTokenIds = ({entry with responseTx := tx},isOpen) ∧ Extends ext newTokenIds entry.responseTx tx isOpen := by
  rcases entry.responseTx.send_cases (.ok .prefill) with sent | ⟨lost,gone⟩
  · have more := sendTokens_extends ext newTokenIds ⟨entry.responseTx.sent++[.ok .prefill],entry.responseTx.reads⟩
    have result : onPrefill ext entry newTokenIds =
        ({entry with responseTx := (sendTokens ext ⟨entry.responseTx.sent++[.ok .prefill],entry.responseTx.reads⟩ newTokenIds).1},
          (sendTokens ext ⟨entry.responseTx.sent++[.ok .prefill],entry.responseTx.reads⟩ newTokenIds).2) := by
      simp only [onPrefill,sent,if_true]
    refine ⟨_,_,result,more.reads,fun opened => more.opened (opened.append (running_singleton rfl)),fun connected => ?_⟩
    obtain ⟨whole,tokens⟩ := more.connected connected
    refine ⟨whole,tokens.trans ?_⟩
    simp only [ResponseTx.tokens,List.filterMap_append,List.filterMap_cons,Message.token,List.filterMap_nil,List.append_nil]
  · exact ⟨entry.responseTx,false,by simp only [onPrefill,lost,Bool.false_eq_true,if_false],.stopped gone⟩

end CompletionLoop
end BlitzRouter
