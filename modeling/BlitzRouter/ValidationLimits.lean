import BlitzRouter.Validation

namespace BlitzRouter

structure GenerationParams where
  temperature : Rat
  repetitionPenalty : Rat
  topK : Nat
  topP : Rat
  seed : Nat
  maxNewTokens : Nat
  stopSequences : List String
  ignoreEosToken : Bool

-- The accepted request with all that the router hands on of it.
structure AcceptedRequest extends ValidGenerateRequest where
  messages : List ChatMessage
  inputs : String
  truncate : Nat
  params : GenerationParams
  topNTokens : Nat

namespace Validation

-- `random` is the seed that is drawn when the request brings none.
def accept (v : Validation) (requestId : RequestId) (random : Nat) (request : GenerateRequest) : Except ValidationError AcceptedRequest := do
  v.checkParameters request
  let p := request.parameters
  let (messages,inputs,inputLength,maxNewTokens,inputTokens) ← v.validateInput request.inputs p.truncate p.maxNewTokens request.chatMessages
  .ok {
    requestId := requestId
    inputLength := asU32 inputLength
    inputTokens := inputTokens
    messages := messages
    inputs := inputs
    truncate := asU32 (p.truncate.getD v.maxInputLength)
    params := ⟨p.temperature.getD 1,p.repetitionPenalty.getD 1,(p.topK.getD 0).toNat,p.topP.getD 1,p.seed.getD random,maxNewTokens,p.stop,false⟩
    topNTokens := p.topNTokens.getD 0}

-- What the router takes: at least one token of input, room for one more, and u32.
structure Limits (v : Validation) : Prop where
  some_input : 1 ≤ v.maxInputLength
  room : v.maxInputLength < v.maxTotalTokens
  small : v.maxTotalTokens < 2^32

variable {v : Validation} {requestId : RequestId} {random : Nat} {g : GenerateRequest} {a : AcceptedRequest} {inputs text : String}
  {truncate requested : Option Nat} {chatMessages : Option (List ChatMessage)} {messages : List ChatMessage}
  {inputLength maxNewTokens n : Nat} {inputTokens : List TokenId}

theorem asU32_small (small : n < 2^32) : asU32 n = n := Nat.mod_eq_of_lt small

theorem validate_accept (random : Nat) :
    v.validate requestId g = (v.accept requestId random g).map AcceptedRequest.toValidGenerateRequest := by
  unfold validate accept
  cases checked : v.checkParameters g with
  | error e => rfl
  | ok done =>
    simp only [bind,Except.bind]
    cases v.validateInput g.inputs g.parameters.truncate g.parameters.maxNewTokens g.chatMessages with
    | error e => rfl
    | ok result => rfl

theorem accept_ok (found : v.accept requestId random g = .ok a) : v.checkParameters g = .ok () ∧
    ∃ messages inputs inputLength maxNewTokens inputTokens,
      v.validateInput g.inputs g.parameters.truncate g.parameters.maxNewTokens g.chatMessages =
        .ok (messages,inputs,inputLength,maxNewTokens,inputTokens) ∧
      a.inputLength = asU32 inputLength ∧ a.params.maxNewTokens = maxNewTokens ∧
      a.truncate = asU32 (g.parameters.truncate.getD v.maxInputLength) := by
  unfold accept at found
  cases checked : v.checkParameters g with
  | error e => simp [bind,Except.bind,checked] at found
  | ok done =>
    simp only [bind,Except.bind,checked] at found
    cases input : v.validateInput g.inputs g.parameters.truncate g.parameters.maxNewTokens g.chatMessages with
    | error e => simp [input] at found
    | ok result =>
      simp only [input] at found
      cases found
      exact ⟨rfl,_,_,_,_,_,rfl,rfl,rfl,rfl⟩

theorem passed {c : Prop} [Decidable c] {e : ValidationError} {rest : Except ValidationError Unit}
    (checked : (if c then .error e else rest) = .ok ()) : ¬c ∧ rest = .ok () := by
  split at checked
  · cases checked
  · rename_i fine
    exact ⟨fine,checked⟩

-- The check of the truncation bound is the last of the checks.
theorem checkParameters_truncate (checked : v.checkParameters g = .ok ()) :
    ∀ bound, g.parameters.truncate = some bound → 1 ≤ bound ∧ bound ≤ v.maxInputLength := by
  intro bound given
  dsimp only [checkParameters] at checked
  iterate 10 replace checked := (passed checked).2
  have within := (passed checked).1
  rw [given] at within
  simp only [Option.mem_def,Option.some.injEq,exists_eq_left'] at within
  omega

theorem validateInput_tokenizer {tokenizer : TokenizerRender} (sender : v.sender = some tokenizer)
    (found : v.validateInput inputs truncate requested chatMessages = .ok (messages,text,inputLength,maxNewTokens,inputTokens)) :
    inputLength+maxNewTokens ≤ v.maxTotalTokens ∧ inputLength ≤ v.maxInputLength := by
  simp only [validateInput,sender,bind,Except.bind] at found
  cases prepared : prepareInput tokenizer inputs truncate chatMessages with
  | error e => simp [prepared] at found
  | ok row =>
    simp only [prepared] at found
    split at found
    · cases found
    · split at found
      · cases found
      · cases found
        omega

-- Without a tokenizer the comparison is in wrapping u32.
theorem validateInput_bare (sender : v.sender = none)
    (found : v.validateInput inputs truncate requested chatMessages = .ok (messages,text,inputLength,maxNewTokens,inputTokens)) :
    inputLength = truncate.getD v.maxInputLength ∧ asU32 (asU32 inputLength+maxNewTokens) ≤ asU32 v.maxTotalTokens ∧
      (requested = some maxNewTokens ∨ requested = none ∧ ∃ bound, truncate = some bound ∧ maxNewTokens = asU32 (v.maxTotalTokens-bound)) := by
  simp only [validateInput,sender] at found
  split at found
  · cases found
  · rename_i chosen
    split at found
    · cases found
    · rename_i fits
      cases found
      refine ⟨rfl,by omega,?_⟩
      cases requested with
      | some n => exact .inl (by simpa using chosen)
      | none =>
        cases truncate with
        | none => cases chosen
        | some bound => exact .inr ⟨rfl,bound,rfl,by simpa using chosen.symm⟩

-- The accepted request keeps the limits exactly when the longest input and the
-- requested tokens do not wrap, or a tokenizer measured the input.
theorem accepted_within_limits_iff (limits : v.Limits) (found : v.accept requestId random g = .ok a) :
    (a.inputLength+a.params.maxNewTokens ≤ v.maxTotalTokens ∧ a.inputLength ≤ v.maxInputLength ∧ 1 ≤ a.truncate ∧ a.truncate ≤ v.maxInputLength) ↔
      (v.sender.isSome ∨ ∀ n, g.parameters.maxNewTokens = some n → g.parameters.truncate.getD v.maxInputLength+n < 2^32) := by
  obtain ⟨some_input,room,small⟩ := limits
  obtain ⟨checked,messages,inputs,inputLength,maxNewTokens,inputTokens,input,length,tokens,truncated⟩ := accept_ok found
  have bounded := checkParameters_truncate checked
  have longest : 1 ≤ g.parameters.truncate.getD v.maxInputLength ∧ g.parameters.truncate.getD v.maxInputLength ≤ v.maxInputLength := by
    cases given : g.parameters.truncate with
    | none => exact ⟨some_input,le_rfl⟩
    | some bound => exact bounded bound given
  rw [asU32_small (by omega)] at truncated
  rw [tokens,truncated]
  cases sender : v.sender with
  | some tokenizer =>
    obtain ⟨total,within⟩ := validateInput_tokenizer sender input
    rw [asU32_small (by omega)] at length
    rw [length]
    exact iff_of_true ⟨total,within,longest⟩ (.inl rfl)
  | none =>
    obtain ⟨measured,total,source⟩ := validateInput_bare sender input
    rw [← measured] at longest ⊢
    rw [asU32_small (by omega)] at length
    rw [asU32_small (by omega : inputLength < 2^32),asU32_small small] at total
    rw [length]
    rcases source with given | ⟨none,bound,given,rest⟩
    · simp only [given,Option.some.injEq,forall_eq',Option.isSome_none,Bool.false_eq_true,false_or]
      constructor
      · rintro ⟨fits,_⟩
        omega
      · intro fits
        rw [asU32_small fits] at total
        exact ⟨total,longest.2,longest⟩
    · simp only [none,reduceCtorEq,false_implies,implies_true,or_true,iff_true]
      have inside : inputLength = bound := by rw [measured,given]; rfl
      rw [asU32_small (by omega)] at rest
      exact ⟨by omega,longest.2,longest⟩

def untokenized : Validation := ⟨4,5,10,20,none⟩

def greedyRequest (truncate maxNewTokens : Nat) : GenerateRequest :=
  ⟨"hi",⟨none,none,none,none,none,some maxNewTokens,[],some truncate,none,none⟩,none⟩

theorem untokenized_limits : untokenized.Limits := ⟨by decide,by decide,by decide⟩

theorem accepted_within_limits_small : ∃ a, untokenized.accept 7 0 (greedyRequest 5 15) = .ok a ∧
    ((a.inputLength+a.params.maxNewTokens ≤ 20 ∧ a.inputLength ≤ 10 ∧ 1 ≤ a.truncate ∧ a.truncate ≤ 10) ↔
      (untokenized.sender.isSome ∨ ∀ n, (greedyRequest 5 15).parameters.maxNewTokens = some n →
        (greedyRequest 5 15).parameters.truncate.getD untokenized.maxInputLength+n < 2^32)) :=
  ⟨_,rfl,accepted_within_limits_iff untokenized_limits rfl⟩

-- One token of input and 2^32-1 new ones make 0 in u32.
theorem wrapping_request_accepted : untokenized.Limits ∧ ∃ a, untokenized.accept 7 0 (greedyRequest 1 (2^32-1)) = .ok a ∧
    a.inputLength = 1 ∧ a.params.maxNewTokens = 4294967295 ∧ ¬a.inputLength+a.params.maxNewTokens ≤ untokenized.maxTotalTokens :=
  ⟨untokenized_limits,_,rfl,rfl,rfl,by decide⟩

end Validation
end BlitzRouter
