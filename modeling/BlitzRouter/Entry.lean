import BlitzRouter.ScheduleState
import BlitzRouter.Ledger

namespace BlitzRouter

abbrev RequestId := Nat

-- A log probability is always sent as zero and left out.
structure Token where
  id : TokenId
  text : String
deriving DecidableEq,Repr

def Token.default : Token := ⟨0,""⟩

structure GeneratedText where
  text : String
  generatedTokens : Nat
  finishReason : Int
  seed : Option Nat
deriving DecidableEq,Repr

def GeneratedText.default : GeneratedText := ⟨"",0,0,none⟩

-- Time stamps of the last message are left out.
inductive InferStreamResponse where
  | prefill
  | intermediate (token : Token) (topTokens : List Token)
  | ending (token : Token) (topTokens : List Token) (generatedText : GeneratedText)
deriving DecidableEq,Repr

inductive InferError where
  | generationError (text : String)
  | overloaded
  | validationError (text : String)
  | incompleteGeneration
deriving DecidableEq,Repr

inductive Message where
  | ok (response : InferStreamResponse)
  | err (error : InferError)
deriving DecidableEq,Repr

-- The sending half of a response channel: what it carried so far, and after how
-- many messages the client drops the other half, if it ever does. Every
-- moment of a disconnect shows in the loop as such a number.
structure ResponseTx where
  sent : List Message
  reads : Option Nat
deriving DecidableEq,Repr

def ResponseTx.accepts (tx : ResponseTx) : Bool :=
  match tx.reads with
  | none => true
  | some bound => decide (tx.sent.length < bound)

def ResponseTx.send (tx : ResponseTx) (message : Message) : ResponseTx × Bool :=
  if tx.accepts then ({tx with sent := tx.sent++[message]},true) else (tx,false)

structure ValidGenerateRequest where
  requestId : RequestId
  inputLength : Nat
  inputTokens : List TokenId
deriving DecidableEq,Repr

structure Entry where
  request : ValidGenerateRequest
  blockHashState : BlockHashState
  responseTx : ResponseTx
  generatedTokenCnt : Nat
deriving DecidableEq,Repr

-- Timing aside, one output counts one generated token, whatever it carries.
def Entry.appendState (ext : External) (entry : Entry) (newTokens : List TokenId) : Entry :=
  {entry with generatedTokenCnt := entry.generatedTokenCnt+1,
              blockHashState := entry.blockHashState.appendTokens ext newTokens}

-- What the counters of a replica depend on. Messages, block ids and block
-- hashes come and go without touching it.
structure Account where
  request : ValidGenerateRequest
  generatedTokenCnt : Nat
  predHitNblks : Nat
  realHitNblks : Option Nat
  blockSize : Nat
deriving DecidableEq,Repr

def Entry.account (entry : Entry) : Account where
  request := entry.request
  generatedTokenCnt := entry.generatedTokenCnt
  predHitNblks := entry.blockHashState.predHitNblks
  realHitNblks := entry.blockHashState.realHitNblks
  blockSize := entry.blockHashState.blockSize

@[simp] theorem account_request (entry : Entry) : entry.account.request = entry.request := rfl

@[simp] theorem account_appendState (ext : External) (entry : Entry) (newTokens : List TokenId) :
    (entry.appendState ext newTokens).account = {entry.account with generatedTokenCnt := entry.generatedTokenCnt+1} := by
  unfold Entry.appendState Entry.account BlockHashState.appendTokens
  simp only
  split <;> rfl

@[simp] theorem account_responseTx (entry : Entry) (tx : ResponseTx) : {entry with responseTx := tx}.account = entry.account := rfl

theorem account_blocks {entry : Entry} {state : BlockHashState} (synced : Nat) (bids : List Radix.BlockId)
    (equal : state = {entry.blockHashState with syncNblks := synced,blockIndices := bids}) :
    {entry with blockHashState := state}.account = entry.account := by
  rw [equal]
  rfl

end BlitzRouter
