import BlitzRouter.Entry
import Mathlib.Data.Rat.Defs

namespace BlitzRouter

structure ChatMessage where
  role : String
  content : String
deriving DecidableEq,Repr

-- Sampling parameters are finite floats that are only compared with constants;
-- rationals carry them.
structure GenerateParameters where
  bestOf : Option Nat
  temperature : Option Rat
  repetitionPenalty : Option Rat
  topK : Option Int
  topP : Option Rat
  maxNewTokens : Option Nat
  stop : List String
  truncate : Option Nat
  seed : Option Nat
  topNTokens : Option Nat

structure GenerateRequest where
  inputs : String
  parameters : GenerateParameters
  chatMessages : Option (List ChatMessage)

inductive ValidationError where
  | bestOfSampling
  | bestOfSeed
  | topNTokens (bound given : Nat)
  | temperature
  | repetitionPenalty
  | topP
  | topK
  | truncate (bound given : Nat)
  | unsetMaxNewTokens
  | negativeMaxNewTokens
  | maxNewTokens (bound given : Nat)
  | maxTotalTokens (bound inputLength maxNewTokens : Nat)
  | inputLength (bound given : Nat)
  | emptyInput
  | stopSequence (bound given : Nat)
  | tokenizer (text : String)
deriving DecidableEq,Repr

-- Code of other packages: the chat template and the two directions of the
-- tokenizer. An encoding is the list of its token ids.
structure TokenizerRender where
  render : List ChatMessage → Except ValidationError String
  encode : String → Except String (List TokenId)
  decode : List TokenId → Except String String

-- The channel to the tokenization workers is the tokenizer they all run.
structure Validation where
  maxStopSequences : Nat
  maxTopNTokens : Nat
  maxInputLength : Nat
  maxTotalTokens : Nat
  sender : Option TokenizerRender

def asU32 (n : Nat) : Nat := n%2^32

def wrappingSub (n k : Nat) : Nat := (n+2^64-k)%2^64

def userMessages (inputs : String) (chatMessages : Option (List ChatMessage)) : List ChatMessage :=
  chatMessages.getD [⟨"user",inputs⟩]

-- Truncation takes tokens off the left.
def prepareInput (tokenizer : TokenizerRender) (inputs : String) (truncate : Option Nat) (chatMessages : Option (List ChatMessage)) :
    Except ValidationError (List ChatMessage × String × Nat × List TokenId) := do
  let messages := userMessages inputs chatMessages
  let inputs ← tokenizer.render messages
  let encoding ← (tokenizer.encode inputs).mapError .tokenizer
  match truncate.filter fun bound => decide (bound < encoding.length) with
  | some bound =>
    let encoding := encoding.drop (encoding.length-bound)
    let inputs ← (tokenizer.decode encoding).mapError .tokenizer
    .ok (messages,inputs,encoding.length,encoding)
  | none => .ok (messages,inputs,encoding.length,encoding)

namespace Validation

def validateInput (v : Validation) (inputs : String) (truncate maxNewTokens : Option Nat) (chatMessages : Option (List ChatMessage)) :
    Except ValidationError (List ChatMessage × String × Nat × Nat × List TokenId) :=
  match v.sender with
  | some tokenizer => do
    let (messages,inputs,inputLength,inputTokens) ← prepareInput tokenizer inputs truncate chatMessages
    let maxNewTokens := maxNewTokens.getD (asU32 (v.maxTotalTokens-inputLength))
    let totalTokens := inputLength+maxNewTokens
    if totalTokens > v.maxTotalTokens then .error (.maxTotalTokens v.maxTotalTokens inputLength maxNewTokens)
    else if inputLength > v.maxInputLength then .error (.inputLength v.maxInputLength inputLength)
    else .ok (messages,inputs,inputLength,maxNewTokens,inputTokens)
  | none =>
    -- the real length is not known here: it is the truncation bound or the longest input
    match maxNewTokens.or (truncate.map fun bound => asU32 (v.maxTotalTokens-bound)) with
    | none => .error .unsetMaxNewTokens
    | some maxNewTokens =>
      let inputLength := truncate.getD v.maxInputLength
      if asU32 (asU32 inputLength+maxNewTokens) > asU32 v.maxTotalTokens then
        .error (.maxNewTokens (wrappingSub v.maxTotalTokens v.maxInputLength) maxNewTokens)
      else .ok (userMessages inputs chatMessages,inputs,inputLength,maxNewTokens,[])

-- The checks in front of the input, in the order of the source.
def checkParameters (v : Validation) (request : GenerateRequest) : Except ValidationError Unit :=
  let p := request.parameters
  let bestOf := p.bestOf.getD 1
  let sampling := p.temperature.isSome || p.topK.isSome || p.topP.isSome
  if bestOf > 1 ∧ sampling = false then .error .bestOfSampling
  else if p.temperature.getD 1 ≤ 0 then .error .temperature
  else if p.repetitionPenalty.getD 1 ≤ 0 then .error .repetitionPenalty
  else if ∃ value ∈ p.topP, value ≤ 0 ∨ 1 ≤ value then .error .topP
  else if ∃ value ∈ p.topK, value ≤ 0 then .error .topK
  else if p.maxNewTokens = some 0 then .error .negativeMaxNewTokens
  else if p.stop.length > v.maxStopSequences then .error (.stopSequence v.maxStopSequences p.stop.length)
  else if p.seed.isSome ∧ bestOf > 1 then .error .bestOfSeed
  else if ∃ value ∈ p.topNTokens, value > v.maxTopNTokens then .error (.topNTokens v.maxTopNTokens (p.topNTokens.getD 0))
  else if request.inputs.isEmpty ∧ request.chatMessages.isNone then .error .emptyInput
  else if ∃ value ∈ p.truncate, value = 0 ∨ value > v.maxInputLength then
    .error (.truncate v.maxInputLength (p.truncate.getD 0))
  else .ok ()

-- `requestId` is the next value of the process-wide counter.
def validate (v : Validation) (requestId : RequestId) (request : GenerateRequest) : Except ValidationError ValidGenerateRequest := do
  v.checkParameters request
  let (_,_,inputLength,_,inputTokens) ←
    v.validateInput request.inputs request.parameters.truncate request.parameters.maxNewTokens request.chatMessages
  .ok ⟨requestId,asU32 inputLength,inputTokens⟩

section Lengths
variable {v : Validation} {requestId : RequestId} {g : GenerateRequest} {request : ValidGenerateRequest}

theorem prepareInput_length {tokenizer : TokenizerRender} {inputs text : String} {truncate : Option Nat}
    {chatMessages : Option (List ChatMessage)} {messages : List ChatMessage} {inputLength : Nat} {inputTokens : List TokenId}
    (found : prepareInput tokenizer inputs truncate chatMessages = .ok (messages,text,inputLength,inputTokens)) :
    inputLength = inputTokens.length := by
  unfold prepareInput at found
  cases rendered : tokenizer.render (userMessages inputs chatMessages) with
  | error e => simp [bind,Except.bind,rendered] at found
  | ok rendered' =>
    simp only [bind,Except.bind,rendered] at found
    cases encoded : (tokenizer.encode rendered').mapError ValidationError.tokenizer with
    | error e => simp [encoded] at found
    | ok encoding =>
      simp only [encoded] at found
      split at found
      · split at found
        · cases found
        · cases found
          rfl
      · cases found
        rfl

-- With a tokenizer the length is that of the tokens; without one there are none.
theorem validate_length (found : v.validate requestId g = .ok request) : request.requestId = requestId ∧
    if v.sender.isSome then request.inputLength ≤ request.inputTokens.length
    else request.inputTokens = [] ∧ request.inputLength = asU32 (g.parameters.truncate.getD v.maxInputLength) := by
  unfold validate at found
  cases checked : v.checkParameters g with
  | error e => simp [bind,Except.bind,checked] at found
  | ok done =>
    simp only [bind,Except.bind,checked] at found
    cases input : v.validateInput g.inputs g.parameters.truncate g.parameters.maxNewTokens g.chatMessages with
    | error e => simp [input] at found
    | ok result =>
      simp only [input] at found
      cases found
      refine ⟨rfl,?_⟩
      unfold validateInput at input
      cases sender : v.sender with
      | none =>
        simp only [sender] at input
        split at input
        · cases input
        · split at input
          · cases input
          · cases input
            exact ⟨rfl,rfl⟩
      | some tokenizer =>
        simp only [sender,bind,Except.bind] at input
        cases prepared : prepareInput tokenizer g.inputs g.parameters.truncate g.chatMessages with
        | error e => simp [prepared] at input
        | ok row =>
          simp only [prepared] at input
          split at input
          · cases input
          · split at input
            · cases input
            · cases input
              have length : row.2.2.1 = row.2.2.2.length := prepareInput_length prepared
              have short : asU32 row.2.2.1 ≤ row.2.2.1 := Nat.mod_le _ _
              rw [if_pos Option.isSome_some]
              exact length ▸ short

end Lengths
end Validation
end BlitzRouter
