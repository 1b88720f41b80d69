import BlitzRouter.BinaryRounding
import BlitzRouter.ResponseChannels
import BlitzRouter.ChatCompletions

namespace BlitzRouter.Infer
open CompletionLoop BinaryRounding

-- A message with the readings of the clock that its arm of the loop takes: one
-- for `elapsed`, one for the next interval. Times are nanoseconds.
structure Arrival where
  message : Message
  elapsed : Nat
  now : Nat

-- What the clock of the process shows over one call. It never goes back, and a
-- reading has a signed 64-bit count of seconds.
structure Timeline where
  start : Nat
  arrivals : List Arrival
  ordered : (start::arrivals.flatMap fun a => [a.elapsed,a.now]).Pairwise (· ≤ ·)
  bounded : ∀ a ∈ arrivals, a.elapsed < 2^63*10^9

def Timeline.messages (timeline : Timeline) : List Message := timeline.arrivals.map Arrival.message

-- The times that the last message of a request brings along.
structure EndTimes where
  start : Nat
  queued : Nat
  maxTimeBetweenTokens : Nat

structure InferResponse where
  requestId : RequestId
  tokens : List Token
  generatedText : GeneratedText
  queued : Nat
  start : Nat
  topTokens : List (List Token)
  firstTokenTime : Nat
  maxTimeBetweenTokens : Nat
  maxTimeBetweenTokensExceptFirst : Nat
  firstDecodeTokenTime : Nat
  avgTimeBetweenTokens : Nat
  p90TimeBetweenTokens : Nat
  p95TimeBetweenTokens : Nat
  p99TimeBetweenTokens : Nat
  inputLength : Nat
  outputLength : Nat

-- The return values of `generate` while it reads the stream.
structure Results where
  resultTokens : List Token
  resultTopTokens : List (List Token)
  resultGeneratedText : Option GeneratedText
  resultStart : Option Nat
  resultQueued : Option Nat
  resultMaxTimeBetweenTokens : Option Nat
  timeBetweenTokens : List Nat
  outputLength : Nat
  interval : Nat
  firstTokenTime : Option Nat

def Results.new (s : Nat) : Results := ⟨[],[],none,none,none,none,[],0,s,none⟩

-- `none` throughout is a panic: here, the removal from an empty vector.
def Results.finish (times : EndTimes) (text : GeneratedText) (r : Results) : Option Results :=
  match r.timeBetweenTokens with
  | [] => none
  | _::others => some {r with resultGeneratedText := some text,resultStart := some times.start,resultQueued := some times.queued,
                              resultMaxTimeBetweenTokens := some times.maxTimeBetweenTokens,
                              timeBetweenTokens := others,outputLength := r.resultTokens.length}

-- The loop over the stream. An error message returns from `generate` at once.
def readStream (s : Nat) (times : EndTimes) : Results → List Arrival → Option (Except InferError Results)
  | r,[] => some (.ok r)
  | r,a::rest =>
    match a.message with
    | .err error => some (.error error)
    | .ok .prefill => readStream s times {r with firstTokenTime := r.firstTokenTime.or (some (a.elapsed-s)),interval := a.now} rest
    | .ok (.intermediate token topTokens) =>
      readStream s times {r with resultTokens := r.resultTokens++[token],resultTopTokens := r.resultTopTokens++[topTokens],
                                 timeBetweenTokens := r.timeBetweenTokens++[a.elapsed-r.interval],interval := a.now} rest
    | .ok (.ending _ _ text) => (r.finish times text).map .ok

-- The largest duration is just under 2^64 seconds.
def sumDurations (durations : List Nat) : Option Nat :=
  if durations.sum < 2^64*10^9 then some durations.sum else none

def divDuration (duration : Nat) (divisor : Nat) : Option Nat :=
  if divisor = 0 then none else some (duration/divisor)

-- `(len as f32 * share) as usize`.
def shareIndex (len : Nat) (share : ℚ) : Nat := ⌊roundTo 24 (roundTo 24 len*roundTo 24 share)⌋₊

structure Summary where
  maxTimeBetweenTokensExceptFirst : Nat
  firstDecodeTokenTime : Nat
  avgTimeBetweenTokens : Nat
  p90TimeBetweenTokens : Nat
  p95TimeBetweenTokens : Nat
  p99TimeBetweenTokens : Nat

-- The statistics, and the largest interval when there is one.
def summarise (timeBetweenTokens : List Nat) : Option (Summary × Option Nat) :=
  match timeBetweenTokens with
  | [] => some (⟨0,0,0,0,0,0⟩,none)
  | first::_ => do
    let sorted := timeBetweenTokens.mergeSort (· ≤ ·)
    let largest ← sorted.getLast?
    let len := sorted.length
    let total ← sumDurations sorted
    let avg ← divDuration total (len%2^32)
    let p90 ← sorted[shareIndex len (90/100)]?
    let p95 ← sorted[shareIndex len (95/100)]?
    let p99 ← sorted[shareIndex len (99/100)]?
    some (⟨sorted.reverse[1]?.getD 0,first,avg,p90,p95,p99⟩,some largest)

def respond (requestId : RequestId) (useTopTokens : Bool) (r : Results) (text : GeneratedText) (queued start : Nat) :
    Option InferResponse := do
  let (summary,largest) ← summarise r.timeBetweenTokens
  let firstTokenTime ← r.firstTokenTime
  let maxTimeBetweenTokens ← largest.or r.resultMaxTimeBetweenTokens
  some ⟨requestId,r.resultTokens,text,queued,start,if useTopTokens then r.resultTopTokens else [],firstTokenTime,
    maxTimeBetweenTokens,summary.maxTimeBetweenTokensExceptFirst,summary.firstDecodeTokenTime,summary.avgTimeBetweenTokens,
    summary.p90TimeBetweenTokens,summary.p95TimeBetweenTokens,summary.p99TimeBetweenTokens,0,r.outputLength⟩

-- From the opened stream on.
def generate (requestId : RequestId) (useTopTokens : Bool) (times : EndTimes) (timeline : Timeline) :
    Option (Except InferError InferResponse) :=
  match readStream timeline.start times (.new timeline.start) timeline.arrivals with
  | none => none
  | some (.error error) => some (.error error)
  | some (.ok r) =>
    match r.resultGeneratedText,r.resultQueued,r.resultStart with
    | some text,some queued,some start => (respond requestId useTopTokens r text queued start).map .ok
    | _,_,_ => some (.error .incompleteGeneration)

section Reading
variable {s : Nat} {times : EndTimes} {r : Results} {front rest : List Arrival} {a : Arrival}

-- What a message that is not the last one leaves behind.
def note (s : Nat) (r : Results) (a : Arrival) : Results :=
  match a.message with
  | .ok .prefill => {r with firstTokenTime := r.firstTokenTime.or (some (a.elapsed-s)),interval := a.now}
  | .ok (.intermediate token topTokens) =>
    {r with resultTokens := r.resultTokens++[token],resultTopTokens := r.resultTopTokens++[topTokens],
            timeBetweenTokens := r.timeBetweenTokens++[a.elapsed-r.interval],interval := a.now}
  | _ => r

theorem readStream_note (goes : a.message.isTerminal = false) : readStream s times r (a::rest) = readStream s times (note s r a) rest := by
  obtain ⟨message,elapsed,now⟩ := a
  cases message with
  | err error => cases goes
  | ok response =>
    cases response with
    | prefill => rfl
    | intermediate token topTokens => rfl
    | ending token topTokens text => cases goes

theorem readStream_append (goes : ∀ a ∈ front, a.message.isTerminal = false) :
    readStream s times r (front++rest) = readStream s times (front.foldl (note s) r) rest := by
  induction front generalizing r with
  | nil => rfl
  | cons a front ih =>
    rw [List.cons_append,readStream_note (goes a List.mem_cons_self),List.foldl_cons]
    exact ih fun b member => goes b (List.mem_cons_of_mem a member)

-- One interval for each token, and the first prefill message sets the time of the
-- first token.
theorem notes_tokens (front : List Arrival) (r : Results) :
    (front.foldl (note s) r).timeBetweenTokens.length = r.timeBetweenTokens.length+(front.filterMap fun a => a.message.token).length ∧
      (front.foldl (note s) r).resultTokens = r.resultTokens++(front.filterMap fun a => a.message.token) ∧
      ((front.foldl (note s) r).firstTokenTime.isSome = true ↔
        r.firstTokenTime.isSome = true ∨ ∃ a ∈ front, a.message = .ok .prefill) := by
  induction front generalizing r with
  | nil => simp
  | cons a front ih =>
    obtain ⟨count,tokens,first⟩ := ih (note s r a)
    obtain ⟨message,elapsed,now⟩ := a
    rw [List.foldl_cons,count,tokens,first]
    rcases message with (_ | ⟨token,topTokens⟩ | ⟨token,topTokens,text⟩) | error
    · simp [note,Message.token]
    · simp [note,Message.token,Nat.add_assoc,Nat.add_comm]
    · simp [note,Message.token]
    · simp [note,Message.token]

-- The intervals lie one behind the other on the clock.
theorem notes_sum {bound : Nat} (ordered : (r.interval::front.flatMap fun a => [a.elapsed,a.now]).Pairwise (· ≤ ·))
    (bounded : ∀ a ∈ front, a.elapsed < bound) (spent : r.timeBetweenTokens.sum ≤ r.interval) (inside : r.timeBetweenTokens.sum < bound) :
    (front.foldl (note s) r).timeBetweenTokens.sum < bound := by
  induction front generalizing r with
  | nil => exact inside
  | cons a front ih =>
    rw [List.flatMap_cons,List.cons_append,List.cons_append,List.nil_append] at ordered
    obtain ⟨before,after⟩ := List.pairwise_cons.mp ordered
    obtain ⟨behind,later⟩ := List.pairwise_cons.mp after
    have waits : r.interval ≤ a.elapsed := before _ List.mem_cons_self
    have goes : a.elapsed ≤ a.now := behind _ List.mem_cons_self
    have below := bounded a List.mem_cons_self
    have skipped := ordered.sublist ((List.sublist_cons_self _ _).trans (List.sublist_cons_self _ _)|>.cons_cons _)
    have bounded' : ∀ b ∈ front, b.elapsed < bound := fun b member => bounded b (List.mem_cons_of_mem a member)
    obtain ⟨message,elapsed,now⟩ := a
    rw [List.foldl_cons]
    rcases message with (_ | ⟨token,topTokens⟩ | ⟨token,topTokens,text⟩) | error
    · exact ih later bounded' (Nat.le_trans spent (Nat.le_trans waits goes)) inside
    · refine ih later bounded' ?_ ?_
      · simp only [note,List.sum_append,List.sum_singleton] at waits goes ⊢
        omega
      · simp only [note,List.sum_append,List.sum_singleton] at waits below ⊢
        omega
    · exact ih skipped bounded' spent inside
    · exact ih skipped bounded' spent inside

end Reading

section Statistics

theorem shareIndex_lt {len : Nat} {share : ℚ} (some_ : 0 < len) (positive : 0 ≤ share) (below : share ≤ 99/100) :
    shareIndex len share < len := by
  have many : (0 : ℚ) < len := by exact_mod_cast some_
  have first := roundTo_le 24 many.le
  have second := roundTo_le 24 positive
  have lower := roundTo_nonneg 24 many.le
  have product : roundTo 24 len*roundTo 24 share ≤ (len*(1+1/2^24))*(share*(1+1/2^24)) :=
    mul_le_mul first second (roundTo_nonneg 24 positive) (by positivity)
  have third := roundTo_le 24 (mul_nonneg lower (roundTo_nonneg 24 positive))
  have scaled : (len*(1+1/2^24))*(share*(1+1/2^24))*(1+1/2^24) < (len : ℚ) := by
    have factor : share*(1+1/2^24)^3 < 1 := by
      calc share*(1+1/2^24)^3 ≤ 99/100*(1+1/2^24)^3 := by gcongr
        _ < 1 := by norm_num
    calc _ = len*(share*(1+1/2^24)^3) := by ring
      _ < len*1 := by gcongr
      _ = len := mul_one _
  have whole : roundTo 24 (roundTo 24 len*roundTo 24 share) < len := by
    calc _ ≤ roundTo 24 len*roundTo 24 share*(1+1/2^24) := third
      _ ≤ (len*(1+1/2^24))*(share*(1+1/2^24))*(1+1/2^24) := by gcongr
      _ < len := scaled
  exact (Nat.floor_lt (roundTo_nonneg 24 (mul_nonneg lower (roundTo_nonneg 24 positive)))).mpr whole

theorem summarise_isSome {durations : List Nat} (bounded : durations.sum < 2^64*10^9) :
    (summarise durations).isSome = true ↔ durations = [] ∨ durations.length%2^32 ≠ 0 := by
  cases durations with
  | nil => simp [summarise]
  | cons first rest =>
    have count : ((first::rest).mergeSort (· ≤ ·)).length = (first::rest).length := List.length_mergeSort _
    have total : ((first::rest).mergeSort (· ≤ ·)).sum = (first::rest).sum := (List.mergeSort_perm _ _).sum_eq
    have index : ∀ share : ℚ, 0 ≤ share → share ≤ 99/100 → ∃ d, ((first::rest).mergeSort (· ≤ ·))[shareIndex
        ((first::rest).mergeSort (· ≤ ·)).length share]? = some d := by
      intro share positive below
      refine ⟨_,List.getElem?_eq_getElem (shareIndex_lt ?_ positive below)⟩
      rw [count]
      exact Nat.succ_pos _
    obtain ⟨p90,found90⟩ := index (90/100) (by norm_num) (by norm_num)
    obtain ⟨p95,found95⟩ := index (95/100) (by norm_num) (by norm_num)
    obtain ⟨p99,found99⟩ := index (99/100) (by norm_num) (by norm_num)
    have filled : (first::rest).mergeSort (· ≤ ·) ≠ [] := by
      intro nothing
      rw [nothing] at count
      cases count
    have largest := List.getLast?_eq_some_getLast filled
    have added : sumDurations ((first::rest).mergeSort (· ≤ ·)) = some (first::rest).sum := by
      rw [sumDurations,total,if_pos bounded]
    simp only [summarise,largest,added,found90,found95,found99,divDuration,Option.bind_eq_bind,Option.bind_some]
    rw [count]
    by_cases divides : (first::rest).length%2^32 = 0
    · rw [if_pos divides]
      exact iff_of_false Bool.false_ne_true fun either => either.elim (List.cons_ne_nil _ _) fun apart => apart divides
    · rw [if_neg divides]
      exact iff_of_true rfl (.inr divides)

end Statistics

-- What one request goes through at the completion loop, and how its channel ends:
-- with its last output, with a fault, or without another message.
inductive LifeEnd where
  | finished
  | faulted
  | left
deriving DecidableEq,Repr

structure Life where
  callbacks : List Callback
  ending : LifeEnd

-- The channel that carries a life to a client that listens.
def Life.serve (ext : External) (entry : Entry) (life : Life) : ResponseTx :=
  let entry := life.callbacks.foldl (Callback.run ext) {entry with responseTx := ⟨[],none⟩}
  match life.ending with
  | .finished => (onFinishRequest entry).responseTx
  | .faulted => (entry.responseTx.send Message.refused).1
  | .left => entry.responseTx

-- A finished request was seen in prefill and has a token, and the tokens behind
-- the first one are not counted as 0 by 32 bits.
def Life.Tokened (life : Life) : Prop :=
  life.ending = .finished → life.callbacks.any Callback.prefills = true ∧ deliveredTokens life.callbacks ≠ [] ∧
    ((deliveredTokens life.callbacks).length = 1 ∨ ((deliveredTokens life.callbacks).length-1)%2^32 ≠ 0)

section Lives
variable {ext : External} {entry : Entry} {life : Life} {timeline : Timeline} {times : EndTimes} {requestId : RequestId}
  {useTopTokens : Bool}

def LifeEnd.messages : LifeEnd → List Message
  | .finished => [Message.ended]
  | .faulted => [Message.refused]
  | .left => []

theorem serve_messages (ext : External) (entry : Entry) (life : Life) :
    (life.serve ext entry).sent = life.callbacks.flatMap (Callback.messages ext)++life.ending.messages := by
  obtain ⟨callbacks,ending⟩ := life
  cases ending with
  | finished => simp [Life.serve,runs_open,onFinishRequest,ResponseTx.send,ResponseTx.accepts,LifeEnd.messages,Message.ended]
  | faulted => simp [Life.serve,runs_open,ResponseTx.send,ResponseTx.accepts,LifeEnd.messages]
  | left => simp [Life.serve,runs_open,LifeEnd.messages]

theorem callback_running (ext : External) (callback : Callback) : ∀ message ∈ callback.messages ext, message.isTerminal = false := by
  intro message member
  cases callback with
  | onPrefill ids =>
    rcases List.mem_cons.mp member with rfl | token
    · rfl
    · obtain ⟨t,_,rfl⟩ := List.mem_map.mp token
      rfl
  | onDecode ids =>
    obtain ⟨t,_,rfl⟩ := List.mem_map.mp member
    rfl

theorem callbacks_tokens (ext : External) (callbacks : List Callback) :
    (callbacks.flatMap (Callback.messages ext)).filterMap Message.token = (deliveredTokens callbacks).map (tokenOf ext) := by
  have tokens : ∀ ids : List TokenId, (ids.map (tokenMessage ext)).filterMap Message.token = ids.map (tokenOf ext) := by
    intro ids
    induction ids with
    | nil => rfl
    | cons t ids ih => simp [tokenMessage,Message.token,ih]
  induction callbacks with
  | nil => rfl
  | cons callback callbacks ih =>
    rw [List.flatMap_cons,List.filterMap_append,ih]
    cases callback with
    | onPrefill ids =>
      have silent : (Message.ok .prefill).token = none := rfl
      simp [Callback.messages,List.filterMap_cons_none silent,deliveredTokens,Callback.newTokenIds,tokens]
    | onDecode ids => simp [Callback.messages,deliveredTokens,Callback.newTokenIds,tokens]

theorem callbacks_prefill (ext : External) (callbacks : List Callback) :
    Message.ok .prefill ∈ callbacks.flatMap (Callback.messages ext) ↔ callbacks.any Callback.prefills = true := by
  rw [List.mem_flatMap,List.any_eq_true]
  refine exists_congr fun callback => and_congr_right fun _ => ?_
  cases callback with
  | onPrefill ids => simp [Callback.messages,Callback.prefills]
  | onDecode ids => simp [Callback.messages,Callback.prefills,tokenMessage]

-- The arrivals of a life up to its last message, and that message.
theorem timeline_parts (carries : timeline.messages = (life.serve ext entry).sent) : ∃ front last,
    timeline.arrivals = front++last ∧ front.map Arrival.message = life.callbacks.flatMap (Callback.messages ext) ∧
      last.map Arrival.message = life.ending.messages := by
  rw [serve_messages,Timeline.messages] at carries
  obtain ⟨front,last,split,one,two⟩ := List.map_eq_append_iff.mp carries
  exact ⟨front,last,split,one,two⟩

-- In what state the loop over the stream meets the last message.
structure Read (life : Life) (ext : External) (r : Results) : Prop where
  tokens : r.timeBetweenTokens.length = (deliveredTokens life.callbacks).length
  first : r.firstTokenTime.isSome = true ↔ life.callbacks.any Callback.prefills = true
  sum : r.timeBetweenTokens.sum < 2^63*10^9
  unset : r.resultGeneratedText = none

theorem notes_unset {s : Nat} (front : List Arrival) (r : Results) :
    (front.foldl (note s) r).resultGeneratedText = r.resultGeneratedText := by
  induction front generalizing r with
  | nil => rfl
  | cons a front ih =>
    rw [List.foldl_cons,ih,note]
    split <;> rfl

theorem read_front (times : EndTimes) {front last : List Arrival} (split : timeline.arrivals = front++last)
    (messages : front.map Arrival.message = life.callbacks.flatMap (Callback.messages ext)) :
    ∃ r, readStream timeline.start times (.new timeline.start) timeline.arrivals = readStream timeline.start times r last ∧ Read life ext r := by
  have goes : ∀ a ∈ front, a.message.isTerminal = false := by
    intro a member
    have inside : a.message ∈ life.callbacks.flatMap (Callback.messages ext) := messages ▸ List.mem_map_of_mem member
    obtain ⟨callback,_,of⟩ := List.mem_flatMap.mp inside
    exact callback_running ext callback _ of
  have said : (front.filterMap fun a => a.message.token) = (deliveredTokens life.callbacks).map (tokenOf ext) := by
    rw [← callbacks_tokens,← messages,List.filterMap_map]
    rfl
  have prefilled : (∃ a ∈ front, a.message = .ok .prefill) ↔ life.callbacks.any Callback.prefills = true := by
    rw [← callbacks_prefill ext,← messages,List.mem_map]
  obtain ⟨count,_,first⟩ := notes_tokens (s := timeline.start) front (.new timeline.start)
  refine ⟨front.foldl (note timeline.start) (.new timeline.start),?_,?_,?_,?_,?_⟩
  · rw [split,readStream_append goes]
  · rw [count,said,List.length_map]
    exact Nat.zero_add _
  · rw [first,prefilled]
    exact or_iff_right Bool.false_ne_true
  · refine notes_sum ?_ (fun a member => timeline.bounded a (split ▸ List.mem_append_left _ member)) (Nat.zero_le _) (by simp [Results.new])
    have ordered := timeline.ordered
    rw [split,List.flatMap_append] at ordered
    exact ordered.sublist ((List.sublist_append_left _ _).cons_cons _)
  · exact notes_unset front _

-- What the last message of a finished request adds.
structure Finishes (times : EndTimes) (text : GeneratedText) (others : List Nat) (r r' : Results) : Prop where
  text : r'.resultGeneratedText = some text
  queued : r'.resultQueued = some times.queued
  start : r'.resultStart = some times.start
  most : r'.resultMaxTimeBetweenTokens = some times.maxTimeBetweenTokens
  rest : r'.timeBetweenTokens = others
  first : r'.firstTokenTime = r.firstTokenTime

theorem finish_cons (times : EndTimes) {r : Results} {head : Nat} {others : List Nat} (text : GeneratedText) (intervals : r.timeBetweenTokens = head::others) :
    ∃ r', r.finish times text = some r' ∧ Finishes times text others r r' := by
  rw [Results.finish,intervals]
  exact ⟨_,rfl,rfl,rfl,rfl,rfl,rfl,rfl⟩

-- The answer to a finished request, if there is one.
theorem Read.respond_isSome {r r' : Results} (read : Read life ext r) {others : List Nat} {head : Nat} {text : GeneratedText}
    (intervals : r.timeBetweenTokens = head::others) (finishes : Finishes times text others r r') (queued start : Nat) :
    (respond requestId useTopTokens r' text queued start).isSome = true ↔ life.callbacks.any Callback.prefills = true ∧
      ((deliveredTokens life.callbacks).length = 1 ∨ ((deliveredTokens life.callbacks).length-1)%2^32 ≠ 0) := by
  have below : others.sum < 2^64*10^9 := by
    have sum := read.sum
    rw [intervals,List.sum_cons] at sum
    omega
  have count : others.length = (deliveredTokens life.callbacks).length-1 := by
    rw [← read.tokens,intervals]
    rfl
  have alone : others = [] ↔ (deliveredTokens life.callbacks).length = 1 := by
    rw [← read.tokens,intervals,List.length_cons,Nat.add_eq_right,List.length_eq_zero_iff]
  have stats := summarise_isSome below
  rw [alone,count] at stats
  rw [← read.first,← stats]
  unfold respond
  rw [finishes.rest,finishes.first,finishes.most]
  cases summarise others with
  | none => simp
  | some pair =>
    obtain ⟨summary,other⟩ := pair
    cases r.firstTokenTime with
    | none => simp
    | some time => cases other <;> simp

-- Every life, and every clock that its messages come in by: the call returns
-- exactly when a finished request had a prefill and a token.
theorem generate_returns_iff (requestId : RequestId) (useTopTokens : Bool) (times : EndTimes) (ext : External) (entry : Entry)
    (life : Life) (timeline : Timeline) (carries : timeline.messages = (life.serve ext entry).sent) :
    (generate requestId useTopTokens times timeline).isSome = true ↔ life.Tokened := by
  obtain ⟨front,last,split,before,after⟩ := timeline_parts carries
  obtain ⟨r,result,read⟩ := read_front times split before
  unfold generate
  rw [result]
  obtain ⟨callbacks,ending⟩ := life
  cases ending with
  | left =>
    have nothing : last = [] := List.map_eq_nil_iff.mp after
    subst nothing
    simp only [readStream,read.unset]
    exact iff_of_true rfl nofun
  | faulted =>
    obtain ⟨a,rfl,message⟩ := List.map_eq_singleton_iff.mp after
    have refused : a.message = .err (.generationError "Engine refused to serve!") := message
    simp only [readStream,refused]
    exact iff_of_true rfl nofun
  | finished =>
    obtain ⟨a,rfl,message⟩ := List.map_eq_singleton_iff.mp after
    have ended : a.message = .ok (.ending Token.default [] GeneratedText.default) := message
    simp only [readStream,ended]
    cases intervals : r.timeBetweenTokens with
    | nil =>
      have silent : deliveredTokens callbacks = [] := by
        have count := read.tokens
        rw [intervals] at count
        exact List.length_eq_zero_iff.mp count.symm
      rw [Results.finish,intervals]
      exact iff_of_false Bool.false_ne_true fun tokened => (tokened rfl).2.1 silent
    | cons head others =>
      have some_ : deliveredTokens callbacks ≠ [] := by
        intro silent
        have count := read.tokens
        rw [intervals,silent] at count
        cases count
      obtain ⟨r',finished,finishes⟩ := finish_cons times GeneratedText.default intervals
      rw [finished]
      simp only [Option.map_some,finishes.text,finishes.queued,finishes.start,Option.isSome_map]
      rw [read.respond_isSome intervals finishes]
      exact ⟨fun both _ => ⟨both.1,some_,both.2⟩,fun tokened => ⟨(tokened rfl).1,(tokened rfl).2.2⟩⟩

end Lives

-- The answer without its times, which is all that the HTTP handlers read.
def InferResponse.untimed (response : InferResponse) : BlitzRouter.InferResponse :=
  ⟨response.requestId,response.tokens,response.generatedText,response.topTokens,response.inputLength,response.outputLength⟩

section Untimed
variable {requestId : RequestId} {useTopTokens : Bool} {times : EndTimes} {timeline : Timeline}

-- How the loop over the stream ends, told by the loop without times.
def Follows (requestId : RequestId) (useTopTokens : Bool) (answer : Option (Except InferError BlitzRouter.InferResponse)) :
    Option (Except InferError Results) → Prop
  | none => True
  | some (.error error) => answer = some (.error error)
  | some (.ok r) => r.resultGeneratedText = none ∧ answer = some (.error .incompleteGeneration) ∨
      ∃ text queued start, r.resultGeneratedText = some text ∧ r.resultQueued = some queued ∧ r.resultStart = some start ∧
        (r.firstTokenTime.isSome = true → answer =
          some (.ok ⟨requestId,r.resultTokens,text,if useTopTokens then r.resultTopTokens else [],0,r.outputLength⟩))

theorem readStream_follows (s : Nat) (times : EndTimes) (arrivals : List Arrival) (r : Results)
    (paired : r.timeBetweenTokens.length = r.resultTokens.length) (unset : r.resultGeneratedText = none) :
    Follows requestId useTopTokens (collect requestId useTopTokens r.resultTokens r.resultTopTokens r.firstTokenTime.isSome
      (arrivals.map Arrival.message)) (readStream s times r arrivals) := by
  induction arrivals generalizing r with
  | nil => exact .inl ⟨unset,rfl⟩
  | cons a arrivals ih =>
    obtain ⟨message,elapsed,now⟩ := a
    rcases message with (_ | ⟨token,topTokens⟩ | ⟨token,topTokens,text⟩) | error
    · have later := ih {r with firstTokenTime := r.firstTokenTime.or (some (elapsed-s)),interval := now} paired unset
      have seen : (r.firstTokenTime.or (some (elapsed-s))).isSome = true := by simp
      simp only [seen] at later
      exact later
    · exact ih {r with resultTokens := r.resultTokens++[token],resultTopTokens := r.resultTopTokens++[topTokens],
                       timeBetweenTokens := r.timeBetweenTokens++[elapsed-r.interval],interval := now}
        (by simp [paired]) unset
    · cases intervals : r.timeBetweenTokens with
      | nil =>
        simp only [readStream,Results.finish,intervals]
        exact trivial
      | cons head others =>
        have filled : r.resultTokens.isEmpty = false := by
          rw [intervals] at paired
          cases tokens : r.resultTokens with
          | nil => rw [tokens] at paired; cases paired
          | cons token rest => rfl
        simp only [readStream,Results.finish,intervals]
        refine .inr ⟨text,_,_,rfl,rfl,rfl,fun seen => ?_⟩
        simp only [List.map_cons,collect,filled,Bool.false_eq_true,if_false]
        exact if_pos seen
    · exact rfl

theorem respond_parts {r : Results} {text : GeneratedText} {queued start : Nat} {response : InferResponse}
    (answered : respond requestId useTopTokens r text queued start = some response) : r.firstTokenTime.isSome = true ∧
      response.untimed = ⟨requestId,r.resultTokens,text,if useTopTokens then r.resultTopTokens else [],0,r.outputLength⟩ := by
  unfold respond at answered
  simp only [Option.bind_eq_bind,Option.bind_eq_some_iff] at answered
  obtain ⟨_,_,time,first,_,_,equal⟩ := answered
  cases equal
  exact ⟨by rw [first]; rfl,rfl⟩

-- Where the call returns, it answers what the call without times answers.
theorem generate_untimed {answer : Except InferError InferResponse}
    (returned : generate requestId useTopTokens times timeline = some answer) :
    BlitzRouter.generate useTopTokens (.ok (requestId,timeline.messages)) = some (answer.map InferResponse.untimed) := by
  have follows : Follows requestId useTopTokens (BlitzRouter.generate useTopTokens (.ok (requestId,timeline.messages)))
      (readStream timeline.start times (.new timeline.start) timeline.arrivals) :=
    readStream_follows timeline.start times timeline.arrivals (.new timeline.start) rfl rfl
  unfold generate at returned
  split at returned
  · cases returned
  · rename_i error read
    rw [read] at follows
    cases returned
    exact follows
  · rename_i r read
    rw [read] at follows
    rcases follows with ⟨unset,answered⟩ | ⟨text,queued,start,set,first,second,answers⟩
    · rw [unset] at returned
      cases returned
      exact answered
    · simp only [set,first,second] at returned
      obtain ⟨response,responds,rfl⟩ := Option.map_eq_some_iff.mp returned
      obtain ⟨seen,equal⟩ := respond_parts responds
      rw [answers seen,← equal]
      rfl

end Untimed

-- Messages that all come in at once.
def Timeline.still (messages : List Message) : Timeline where
  start := 0
  arrivals := messages.map fun message => ⟨message,0,0⟩
  ordered := by
    have zero : ∀ time ∈ 0::(messages.map fun message => (⟨message,0,0⟩ : Arrival)).flatMap (fun a => [a.elapsed,a.now]), time = 0 := by
      simp
    exact List.pairwise_iff_forall_sublist.mpr fun {a b} pair => by
      rw [zero a (pair.subset List.mem_cons_self),zero b (pair.subset (List.mem_cons_of_mem a List.mem_cons_self))]
  bounded := by simp

theorem still_messages (messages : List Message) : (Timeline.still messages).messages = messages := by
  simp [Timeline.still,Timeline.messages,Function.comp_def]

def prefillThenDecode : Life := ⟨[.onPrefill [5],.onDecode [6]],.finished⟩

theorem generate_returns_two :
    (generate 7 false ⟨0,0,0⟩ (.still (prefillThenDecode.serve spelling shortEntry).sent)).isSome = true :=
  (generate_returns_iff 7 false ⟨0,0,0⟩ spelling shortEntry prefillThenDecode _ (still_messages _)).mpr
    fun _ => ⟨rfl,by decide,.inr (by decide)⟩

-- A request whose prefill was not observed, and one that finishes without a token.
def decodeOnly : Life := ⟨[.onDecode [5]],.finished⟩
def withoutToken : Life := ⟨[.onPrefill []],.finished⟩

theorem generate_panics : generate 7 false ⟨0,0,0⟩ (.still (decodeOnly.serve spelling shortEntry).sent) = none ∧
    generate 7 false ⟨0,0,0⟩ (.still (withoutToken.serve spelling shortEntry).sent) = none := ⟨rfl,rfl⟩

end BlitzRouter.Infer
