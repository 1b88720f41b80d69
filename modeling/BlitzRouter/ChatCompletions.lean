import BlitzRouter.Completion
import BlitzRouter.Validation

namespace BlitzRouter

-- Timings are left out, here and in the answers below.
structure InferResponse where
  requestId : RequestId
  tokens : List Token
  generatedText : GeneratedText
  topTokens : List (List Token)
  inputLength : Nat
  outputLength : Nat
deriving DecidableEq,Repr

-- What `generate_stream` hands on: the id and every message the channel will carry.
abbrev Opened := Except InferError (RequestId × List Message)

-- The loop over the stream and what follows it. There is no result where the
-- source panics: an end before the first token or before the prefill message.
def collect (requestId : RequestId) (useTopTokens : Bool) (tokens : List Token) (topTokens : List (List Token)) (firstTokenSeen : Bool) :
    List Message → Option (Except InferError InferResponse)
  | [] => some (.error .incompleteGeneration)
  | .err error::_ => some (.error error)
  | .ok .prefill::rest => collect requestId useTopTokens tokens topTokens true rest
  | .ok (.intermediate token top)::rest => collect requestId useTopTokens (tokens++[token]) (topTokens++[top]) firstTokenSeen rest
  | .ok (.ending _ _ generatedText)::_ =>
    if tokens.isEmpty then none
    else if firstTokenSeen then
      some (.ok ⟨requestId,tokens,generatedText,if useTopTokens then topTokens else [],0,tokens.length⟩)
    else none

def generate (useTopTokens : Bool) : Opened → Option (Except InferError InferResponse)
  | .error error => some (.error error)
  | .ok (requestId,messages) => collect requestId useTopTokens [] [] false messages

def finishReasonToOpenai (reason : Int) : String := if reason = 0 then "length" else "stop"

structure ChatCompletionChoice where
  index : Nat
  message : ChatMessage
  finishReason : Option String
deriving DecidableEq,Repr

structure ChatCompletionUsage where
  promptTokens : Nat
  completionTokens : Nat
  totalTokens : Nat
deriving DecidableEq,Repr

structure ChatCompletionResponse where
  id : String
  object : String
  model : String
  choices : List ChatCompletionChoice
  usage : ChatCompletionUsage
deriving DecidableEq,Repr

structure ChatCompletionDelta where
  role : Option String
  content : Option String
deriving DecidableEq,Repr

structure ChatCompletionChunkChoice where
  index : Nat
  delta : ChatCompletionDelta
  finishReason : Option String
deriving DecidableEq,Repr

structure ChatCompletionChunk where
  id : String
  object : String
  model : String
  choices : List ChatCompletionChunkChoice
deriving DecidableEq,Repr

inductive Event where
  | chunk (chunk : ChatCompletionChunk)
  | done
  | failed (error : InferError)
deriving DecidableEq,Repr

def chatId (requestId : RequestId) : String := "chatcmpl-"++toString requestId

section Answers
variable (modelId : String)

def chatResponse (response : InferResponse) : ChatCompletionResponse where
  id := chatId response.requestId
  object := "chat.completion"
  model := modelId
  choices := [⟨0,⟨"assistant",response.generatedText.text⟩,some (finishReasonToOpenai response.generatedText.finishReason)⟩]
  usage := ⟨response.inputLength,response.generatedText.generatedTokens,response.inputLength+response.generatedText.generatedTokens⟩

def chatCompletionsNonStream (opened : Opened) : Option (Except InferError ChatCompletionResponse) :=
  (generate false opened).map fun result => result.map (chatResponse modelId)

def chatChunk (requestId : RequestId) (delta : ChatCompletionDelta) (finishReason : Option String) : Event :=
  .chunk ⟨chatId requestId,"chat.completion.chunk",modelId,[⟨0,delta,finishReason⟩]⟩

def streamEvents (requestId : RequestId) : List Message → List Event
  | [] => [.failed .incompleteGeneration]
  | .err error::_ => [.failed error]
  | .ok .prefill::rest => streamEvents requestId rest
  | .ok (.intermediate token _)::rest => chatChunk modelId requestId ⟨none,some token.text⟩ none::streamEvents requestId rest
  | .ok (.ending token _ generatedText)::_ =>
    (if token.text.isEmpty then [] else [chatChunk modelId requestId ⟨none,some token.text⟩ none])++
      [chatChunk modelId requestId ⟨none,none⟩ (some (finishReasonToOpenai generatedText.finishReason)),.done]

def chatCompletionsStream : Opened → List Event
  | .error error => [.failed error]
  | .ok (requestId,messages) => chatChunk modelId requestId ⟨some "assistant",some ""⟩ none::streamEvents modelId requestId messages

end Answers

def Event.content : Event → String
  | .chunk sent => String.join (sent.choices.map fun choice => choice.delta.content.getD "")
  | _ => ""

def streamedContent (events : List Event) : String := String.join (events.map Event.content)

-- The callbacks of the completion loop for one request, before it finishes.
inductive Callback where
  | onPrefill (newTokenIds : List TokenId)
  | onDecode (newTokenIds : List TokenId)
deriving DecidableEq,Repr

namespace Callback

def newTokenIds : Callback → List TokenId
  | .onPrefill ids => ids
  | .onDecode ids => ids

def run (ext : External) (entry : Entry) : Callback → Entry
  | .onPrefill ids => (CompletionLoop.onPrefill ext entry ids).1
  | .onDecode ids => (CompletionLoop.onDecode ext entry ids).1

def prefills : Callback → Bool
  | .onPrefill _ => true
  | .onDecode _ => false

end Callback

def deliveredTokens (callbacks : List Callback) : List TokenId := callbacks.flatMap Callback.newTokenIds

-- What the channel of a finished request carried, when the client kept listening.
def served (ext : External) (entry : Entry) (callbacks : List Callback) : Opened :=
  .ok (entry.request.requestId,
    (CompletionLoop.onFinishRequest (callbacks.foldl (Callback.run ext) {entry with responseTx := ⟨[],none⟩})).responseTx.sent)

structure AnswersAgree (ext : External) (modelId : String) (entry : Entry) (callbacks : List Callback) (response : ChatCompletionResponse) :
    Prop where
  answered : chatCompletionsNonStream modelId (served ext entry callbacks) = some (.ok response)
  content : response.choices.map (fun choice => choice.message.content) =
    [streamedContent (chatCompletionsStream modelId (served ext entry callbacks))]
  completionTokens : response.usage.completionTokens = (deliveredTokens callbacks).length
  promptTokens : response.usage.promptTokens = entry.request.inputLength

section Served
variable (ext : External)

def tokenMessage (t : TokenId) : Message := .ok (.intermediate (CompletionLoop.tokenOf ext t) [])

def Callback.messages : Callback → List Message
  | .onPrefill ids => .ok .prefill::ids.map (tokenMessage ext)
  | .onDecode ids => ids.map (tokenMessage ext)

theorem sendTokens_open (sent : List Message) (ids : List TokenId) :
    CompletionLoop.sendTokens ext ⟨sent,none⟩ ids = (⟨sent++ids.map (tokenMessage ext),none⟩,true) := by
  induction ids generalizing sent with
  | nil => simp [CompletionLoop.sendTokens]
  | cons t ids ih => simp [CompletionLoop.sendTokens,ResponseTx.send,ResponseTx.accepts,ih,tokenMessage]

theorem run_open (entry : Entry) (sent : List Message) (callback : Callback) :
    Callback.run ext {entry with responseTx := ⟨sent,none⟩} callback = {entry with responseTx := ⟨sent++callback.messages ext,none⟩} := by
  cases callback with
  | onPrefill ids => simp [Callback.run,CompletionLoop.onPrefill,ResponseTx.send,ResponseTx.accepts,sendTokens_open,Callback.messages]
  | onDecode ids => simp [Callback.run,CompletionLoop.onDecode,sendTokens_open,Callback.messages]

theorem runs_open (entry : Entry) (sent : List Message) (callbacks : List Callback) :
    callbacks.foldl (Callback.run ext) {entry with responseTx := ⟨sent,none⟩} =
      {entry with responseTx := ⟨sent++callbacks.flatMap (Callback.messages ext),none⟩} := by
  induction callbacks generalizing sent with
  | nil => simp
  | cons callback callbacks ih => rw [List.foldl_cons,run_open,ih,List.flatMap_cons,List.append_assoc]

theorem served_messages (entry : Entry) (callbacks : List Callback) :
    served ext entry callbacks = .ok (entry.request.requestId,
      callbacks.flatMap (Callback.messages ext)++[.ok (.ending Token.default [] GeneratedText.default)]) := by
  simp [served,runs_open,CompletionLoop.onFinishRequest,ResponseTx.send,ResponseTx.accepts]

theorem collect_tokens (requestId : RequestId) (useTopTokens seen : Bool) (tokens : List Token) (topTokens : List (List Token))
    (ids : List TokenId) (rest : List Message) :
    collect requestId useTopTokens tokens topTokens seen (ids.map (tokenMessage ext)++rest) =
      collect requestId useTopTokens (tokens++ids.map (CompletionLoop.tokenOf ext)) (topTokens++ids.map fun _ => []) seen rest := by
  induction ids generalizing tokens topTokens with
  | nil => simp
  | cons t ids ih => simp [tokenMessage,collect,ih]

theorem collect_served (requestId : RequestId) (useTopTokens seen : Bool) (tokens : List Token) (topTokens : List (List Token))
    (callbacks : List Callback) (rest : List Message) :
    collect requestId useTopTokens tokens topTokens seen (callbacks.flatMap (Callback.messages ext)++rest) =
      collect requestId useTopTokens (tokens++(deliveredTokens callbacks).map (CompletionLoop.tokenOf ext))
        (topTokens++(deliveredTokens callbacks).map fun _ => []) (seen || callbacks.any Callback.prefills) rest := by
  induction callbacks generalizing tokens topTokens seen with
  | nil => simp [deliveredTokens]
  | cons callback callbacks ih =>
    cases callback with
    | onPrefill ids =>
      simp only [List.flatMap_cons,Callback.messages,List.cons_append,List.append_assoc,collect,collect_tokens,ih]
      simp [deliveredTokens,Callback.newTokenIds,Callback.prefills]
    | onDecode ids =>
      simp only [List.flatMap_cons,Callback.messages,List.append_assoc,collect_tokens,ih]
      simp [deliveredTokens,Callback.newTokenIds,Callback.prefills]

theorem streamed_tokens (modelId : String) (requestId : RequestId) (callbacks : List Callback) (rest : List Message) :
    streamedContent (streamEvents modelId requestId (callbacks.flatMap (Callback.messages ext)++rest)) =
      String.join ((deliveredTokens callbacks).map fun t => (CompletionLoop.tokenOf ext t).text)++
        streamedContent (streamEvents modelId requestId rest) := by
  have tokens : ∀ (ids : List TokenId) (rest : List Message),
      streamedContent (streamEvents modelId requestId (ids.map (tokenMessage ext)++rest)) =
        String.join (ids.map fun t => (CompletionLoop.tokenOf ext t).text)++streamedContent (streamEvents modelId requestId rest) := by
    intro ids rest
    induction ids with
    | nil => simp
    | cons t ids ih =>
      simp only [List.map_cons,List.cons_append,tokenMessage,streamEvents,streamedContent,String.join_cons] at ih ⊢
      rw [ih]
      simp [Event.content,chatChunk,String.append_assoc]
  induction callbacks with
  | nil => simp [deliveredTokens]
  | cons callback callbacks ih =>
    cases callback with
    | onPrefill ids =>
      simp only [List.flatMap_cons,Callback.messages,List.cons_append,List.append_assoc,streamEvents,tokens,ih]
      simp [deliveredTokens,Callback.newTokenIds,String.append_assoc]
    | onDecode ids =>
      simp only [List.flatMap_cons,Callback.messages,List.append_assoc,tokens,ih]
      simp [deliveredTokens,Callback.newTokenIds,String.append_assoc]

variable {ext} {modelId : String} {entry : Entry} {callbacks : List Callback}

-- The text and the counts of the one answer are those of a default message.
theorem nonStream_served (prefilled : callbacks.any Callback.prefills = true) (some_ : deliveredTokens callbacks ≠ []) :
    chatCompletionsNonStream modelId (served ext entry callbacks) =
      some (.ok ⟨chatId entry.request.requestId,"chat.completion",modelId,[⟨0,⟨"assistant",""⟩,some "length"⟩],⟨0,0,0⟩⟩) := by
  rw [served_messages]
  simp only [chatCompletionsNonStream,generate,collect_served,prefilled]
  simp [collect,some_,chatResponse,GeneratedText.default,finishReasonToOpenai,Except.map]

theorem nonStream_answered {response : ChatCompletionResponse}
    (answered : chatCompletionsNonStream modelId (served ext entry callbacks) = some (.ok response)) : response.usage = ⟨0,0,0⟩ := by
  by_cases some_ : deliveredTokens callbacks = []
  · rw [served_messages] at answered
    simp [chatCompletionsNonStream,generate,collect_served,collect,some_] at answered
  · by_cases prefilled : callbacks.any Callback.prefills = true
    · rw [nonStream_served prefilled some_] at answered
      cases answered
      rfl
    · rw [served_messages] at answered
      simp only [chatCompletionsNonStream,generate,collect_served,prefilled] at answered
      simp [collect,some_] at answered

theorem stream_served : streamedContent (chatCompletionsStream modelId (served ext entry callbacks)) =
    String.join ((deliveredTokens callbacks).map fun t => (CompletionLoop.tokenOf ext t).text) := by
  rw [served_messages]
  change streamedContent (_::_) = _
  rw [streamedContent,List.map_cons,String.join_cons]
  change _++streamedContent _ = _
  rw [streamed_tokens]
  simp [streamEvents,streamedContent,Event.content,chatChunk,Token.default]

theorem join_eq_empty (texts : List String) : String.join texts = "" ↔ ∀ text ∈ texts, text = "" := by
  induction texts with
  | nil => simp
  | cons text texts ih => simp [ih]

-- Which part of the agreement holds of which request.
theorem answers_by_part (prefilled : callbacks.any Callback.prefills = true) (some_ : deliveredTokens callbacks ≠ []) :
    ∃ response, chatCompletionsNonStream modelId (served ext entry callbacks) = some (.ok response) ∧
      (response.choices.map (fun choice => choice.message.content) = [streamedContent (chatCompletionsStream modelId (served ext entry callbacks))] ↔
        ∀ t ∈ deliveredTokens callbacks, (CompletionLoop.tokenOf ext t).text = "") ∧
      response.usage.completionTokens ≠ (deliveredTokens callbacks).length ∧
      (response.usage.promptTokens = entry.request.inputLength ↔ entry.request.inputLength = 0) := by
  refine ⟨_,nonStream_served prefilled some_,?_,fun none => ?_,eq_comm⟩
  · rw [stream_served,List.map_cons,List.map_nil,List.cons.injEq,and_iff_left rfl,eq_comm,join_eq_empty]
    simp
  · exact some_ (List.length_eq_zero_iff.mp none.symm)

theorem answers_never_agree (ext : External) (modelId : String) (entry : Entry) (callbacks : List Callback)
    (some_ : deliveredTokens callbacks ≠ []) : ¬∃ response, AnswersAgree ext modelId entry callbacks response := by
  rintro ⟨response,answered,_,completionTokens,_⟩
  rw [nonStream_answered answered] at completionTokens
  exact some_ (List.length_eq_zero_iff.mp completionTokens.symm)

-- One prefill and one decode, with a tokenizer that knows every token.
def spelling : External := ⟨fun _ seed => seed,some fun _ _ => some "a"⟩

def shortEntry : Entry := ⟨⟨7,3,[1,2,3]⟩,⟨[],[],0,0,none,16,defaultBlockHash,[1,2,3],0⟩,⟨[],none⟩,0⟩

theorem answers_never_agree_short : ¬∃ response, AnswersAgree spelling "model" shortEntry [.onPrefill [5]] response :=
  answers_never_agree spelling "model" shortEntry [.onPrefill [5]] (by decide)

theorem short_answers_differ : ¬∃ response, AnswersAgree spelling "model" shortEntry [.onPrefill [5],.onDecode [6]] response := by
  rintro ⟨response,answered,content,_,_⟩
  have value : chatCompletionsNonStream "model" (served spelling shortEntry [.onPrefill [5],.onDecode [6]]) =
      some (.ok ⟨chatId 7,"chat.completion","model",[⟨0,⟨"assistant",""⟩,some "length"⟩],⟨0,0,0⟩⟩) := rfl
  rw [value] at answered
  cases answered
  exact absurd content (by decide)

end Served
end BlitzRouter
