import BlitzRouter.CounterRestoration
import BlitzRouter.Validation

namespace BlitzRouter
open Radix CompletionLoop

-- The number of tokens in each output of a request that goes on, in order.
abbrev TokenPlan := RequestId → Nat → Nat

-- What the counter of all tokens was given for a request: its prompt, when the
-- gateway tokenized it, and what its outputs carried.
def carried (plan : TokenPlan) (a : Account) : Int :=
  a.request.inputTokens.length+((List.range a.generatedTokenCnt).map (plan a.request.requestId)).sum

-- A last PREFILL output takes back the prompt only.
def owed (o : RequestStepOutput) (a : Account) : Int :=
  if o.state = .prefill then a.request.inputLength else a.request.inputLength+a.generatedTokenCnt

structure Backed (plan : TokenPlan) (o : RequestStepOutput) (a : Account) : Prop where
  planned : o.isFinished = false → o.newTokenIds.length = plan a.request.requestId a.generatedTokenCnt
  paid : o.isFinished = true → owed o a ≤ carried plan a

-- A request that leaves without a last output takes back its outputs as well.
def Paid (plan : TokenPlan) (a : Account) : Prop := (a.request.inputLength+a.generatedTokenCnt : Int) ≤ carried plan a

section Weight
variable {plan : TokenPlan} {o : RequestStepOutput} {a : Account}

theorem carried_nonneg (a : Account) : 0 ≤ carried plan a := by
  unfold carried
  omega

theorem carried_post : carried plan (a.post o) = carried plan a+plan a.request.requestId a.generatedTokenCnt := by
  have next : (a.post o).request = a.request ∧ (a.post o).generatedTokenCnt = a.generatedTokenCnt+1 := by
    unfold Account.post
    split <;> exact ⟨rfl,rfl⟩
  simp only [carried,next,List.range_succ,List.map_append,List.sum_append,List.map_cons,List.map_nil,List.sum_cons,List.sum_nil]
  push_cast
  omega

theorem drift_carried (backed : Backed plan o a) : drift (carried plan) (fun d => -d.allTokensInc) o a ≤ 0 := by
  unfold drift
  cases ends : o.isFinished with
  | true =>
    have paid := backed.paid ends
    unfold owed at paid
    cases state : o.state <;> simp [Account.charge,state,ends,LMetricDec.new] at paid ⊢ <;> omega
  | false =>
    have planned := backed.planned ends
    rw [if_neg Bool.false_ne_true,carried_post]
    cases state : o.state <;> simp [Account.charge,state,ends,LMetricDec.new,planned]

-- With a tokenizer outputs of one token and more pay for whatever is taken back.
theorem paid_of_accepted {v : Validation} {g : GenerateRequest} (tokenizer : v.sender.isSome = true)
    (accepted : v.validate a.request.requestId g = .ok a.request) (tokens : ∀ id k, 1 ≤ plan id k) : Paid plan a := by
  have prompt := (Validation.validate_length accepted).2
  rw [if_pos tokenizer] at prompt
  have each : a.generatedTokenCnt ≤ ((List.range a.generatedTokenCnt).map (plan a.request.requestId)).sum := by
    have least := List.length_le_sum_of_one_le ((List.range a.generatedTokenCnt).map (plan a.request.requestId)) fun n member => by
      obtain ⟨k,_,rfl⟩ := List.mem_map.mp member
      exact tokens _ k
    simpa using least
  unfold Paid carried
  omega

-- Without one a last PREFILL output is paid for only by the tokens of earlier outputs.
theorem owed_of_untokenized {v : Validation} {g : GenerateRequest} (untokenized : v.sender = none)
    (accepted : v.validate a.request.requestId g = .ok a.request) (fresh : a.generatedTokenCnt = 0) (first : o.state = .prefill) :
    owed o a ≤ carried plan a ↔ asU32 (g.parameters.truncate.getD v.maxInputLength) = 0 := by
  obtain ⟨_,lengths⟩ := Validation.validate_length accepted
  rw [untokenized,Option.isSome_none,if_neg Bool.false_ne_true] at lengths
  simp only [owed,if_pos first,carried,lengths,fresh,List.length_nil,List.range_zero,List.map_nil,List.sum_nil]
  omega

end Weight

namespace Audit
open Replica
variable {β : Type} {plan : TokenPlan} {base : LMetric} {x x' : Audit β} {a : Action} {m : EngineStepOutput}

-- What a step may do: outputs carry what is planned, and whoever is finished,
-- acknowledged or dropped has brought the tokens that are taken back for it.
def BackedBy (plan : TokenPlan) (x : Audit β) : Action → Prop
  | .meter => ∀ m ∈ x.replica.metering .meter, ∀ o ∈ m.outputs, ∀ entry ∈ x.replica.loop.find o.requestId, Backed plan o entry.account
  | .deliver => ∀ m ∈ stepOf x.replica.stage, ∀ id ∈ m.abortedRequests++x.replica.loop.dropReady,
      ∀ entry ∈ x.replica.loop.find id, Paid plan entry.account
  | _ => True

-- The gateway accepted what is committed.
def Accepted (v : Validation) : Action → Prop
  | .commit request _ _ => ∃ g, v.validate request.requestId g = .ok request
  | _ => True

structure BackedStep [BlockHash β] (v : Validation) (plan : TokenPlan) (ext : External) (blockSize : Nat) (x : Audit β) (a : Action) (x' : Audit β) : Prop where
  step : Step ext blockSize x a x'
  accepted : Accepted v a
  backed : BackedBy plan x a

-- The counter covers what it was given for the open requests.
structure Solvent (plan : TokenPlan) (base : LMetric) (x : Audit β) : Prop where
  placed : Placed x.committed x.replica
  covers : base.allTokens+books (carried plan) x.replica ≤ x.replica.context.lmetric.allTokens

theorem solvent_start (context : ScheduleContext β) : Solvent plan context.lmetric (start context) := by
  refine ⟨placed_start context,?_⟩
  have empty : books (carried plan) (start context).replica = 0 := rfl
  rw [empty,add_zero]
  rfl

-- What one iteration takes off is at most what its requests have brought.
theorem Solvent.room (solvent : Solvent plan base x) (stage : x.replica.stage = .received m) (backed : BackedBy plan x .meter)
    {d : LMetricDec} {left : Int} (moved : left+ -d.allTokensInc = books (carried plan) x.replica+
      (m.outputs.map (driftOf (carried plan) (fun d => -d.allTokensInc) x.replica.loop)).sum) :
    base.allTokens+left ≤ x.replica.context.lmetric.allTokens+d.allTokensInc := by
  have drifts : (m.outputs.map (driftOf (carried plan) (fun d => -d.allTokensInc) x.replica.loop)).sum ≤
      (m.outputs.map fun _ => (0 : Int)).sum := by
    refine List.sum_le_sum fun o output => ?_
    unfold driftOf
    split
    · exact Int.le_refl 0
    · rename_i entry found
      exact drift_carried (backed m (metering_meter stage) o output entry found)
  have none : (m.outputs.map fun _ => (0 : Int)).sum = 0 := by simp
  have covers := solvent.covers
  omega

theorem sum_paid {left : List Entry} (paid : ∀ entry ∈ left, Paid plan entry.account) :
    (left.map fun entry => (entry.request.inputLength+entry.generatedTokenCnt : Int)).sum ≤
      (left.map fun entry => carried plan entry.account).sum :=
  List.sum_le_sum fun entry member => paid entry member

variable [BlockHash β] {ext : External} {blockSize : Nat} {v : Validation}

theorem Solvent.meter (solvent : Solvent plan base x) (stage : x.replica.stage = .received m) (placed : Placed x'.committed x'.replica)
    (backed : BackedBy plan x .meter) (result : x.replica.perform ext blockSize .meter = .ok x'.replica) : Solvent plan base x' := by
  obtain ⟨s₁,d,_,charge⟩ := solvent.placed.charged stage result
  have moved := charge.books (carried plan) (fun d => -d.allTokensInc) linear_tokens
  rw [show -(startDelta m).allTokensInc = 0 from rfl,add_zero] at moved
  have room := solvent.room stage backed moved
  have open_ := books_nonneg (r := x'.replica) (w := carried plan) fun a => carried_nonneg a
  refine ⟨placed,?_⟩
  rw [charge.lmetric]
  simp only [LMetric.subAssign]
  rw [asUsize_cast (by omega)]
  exact room

theorem Solvent.deliver (solvent : Solvent plan base x) (stage : x.replica.stage = .metered m) (placed : Placed x'.committed x'.replica)
    (backed : BackedBy plan x .deliver) (result : x.replica.perform ext blockSize .deliver = .ok x'.replica) : Solvent plan base x' := by
  obtain ⟨left,passed,leave⟩ := solvent.placed.left stage result
  have accounts := solvent.placed.sound.left_accounts passed
  have taken : (left.map fun entry => (entry.request.inputLength+entry.generatedTokenCnt : Int)).sum ≤
      (left.map fun entry => carried plan entry.account).sum := sum_paid fun entry member => by
    obtain ⟨id,named,old,found,same⟩ := accounts entry member
    have paid := backed m (by rw [stage]; rfl) id named old found
    rwa [same] at paid
  have moved := leave.books (carried plan)
  have open_ := books_nonneg (r := x'.replica) (w := carried plan) fun a => carried_nonneg a
  have covers := solvent.covers
  refine ⟨placed,?_⟩
  rw [leave.lmetric,LeaveDec.apply]
  split
  · rename_i none
    rw [leaves_bsDec,Nat.zero_add,List.length_eq_zero_iff] at none
    rw [none,List.map_nil,List.sum_nil] at moved
    omega
  · simp only [leaves_allTokensInc]
    rw [saturatingAddSigned_cast (by omega)]
    omega

theorem Solvent.step (solvent : Solvent plan base x) (taken : BackedStep v plan ext blockSize x a x') : Solvent plan base x' := by
  have placed := placed_step solvent.placed taken.step
  obtain ⟨⟨⟨enabled,result⟩,_,_⟩,_,backed⟩ := taken
  have handed : Handed x.replica x'.replica → Solvent plan base x' := by
    intro handed
    refine ⟨placed,?_⟩
    rw [handed.frame.1,handed.books]
    exact solvent.covers
  cases a with
  | commit request reads cached =>
    obtain ⟨entry₀,hits,entry,_,_,done⟩ := commit_cases result
    have covers := solvent.covers
    have counted : x'.replica.context.lmetric.allTokens = x.replica.context.lmetric.allTokens+request.inputTokens.length := by rw [done.result]; rfl
    have brought : carried plan (opened blockSize hits request) = request.inputTokens.length := by simp [carried,opened]
    refine ⟨placed,?_⟩
    rw [done.books,brought,counted]
    omega
  | addRequest => exact handed (Except.ok.inj result ▸ handed_addRequest enabled.1)
  | send => exact handed (Except.ok.inj result ▸ handed_send)
  | notify id => exact handed (Except.ok.inj result ▸ handed_notify id)
  | recvStep m =>
    have same := Except.ok.inj result
    refine ⟨placed,?_⟩
    rw [← same,solvent.placed.books_recvStep enabled.1]
    exact solvent.covers
  | meter =>
    obtain ⟨m,stage⟩ := enabled
    exact solvent.meter stage placed backed result
  | deliver =>
    obtain ⟨m,stage⟩ := enabled
    exact solvent.deliver stage placed backed result

-- Nothing wraps in a run whose requests bring what is taken back for them.
theorem all_tokens_nonneg (v : Validation) (plan : TokenPlan) (context : ScheduleContext β) (history : List Action)
    (run : Run (BackedStep v plan ext blockSize) (start context) history x) (stage : x.replica.stage = .received m)
    (backed : BackedBy plan x .meter) {s : CompletionLoop} {d : LMetricDec} (metered : x.replica.loop.fastPath ext m = .ok (s,d)) :
    0 ≤ x.replica.context.lmetric.allTokens+d.allTokensInc := by
  have solvent : Solvent plan context.lmetric x :=
    run.invariant (I := fun _ x => Solvent plan context.lmetric x) (solvent_start context) fun _ _ _ _ before step => before.step step
  have metering := solvent.placed.sound.metering (solvent.placed.orderly m (by rw [stage]; rfl)) metered
  have moved := metering.balance (carried plan) (fun d => -d.allTokensInc) [] linear_tokens fun _ _ => List.not_mem_nil
  rw [show -(startDelta m).allTokensInc = 0 from rfl,add_zero] at moved
  -- the books as they would stand with the iteration done
  have after : books (carried plan) {x.replica with loop := s,stage := .metered m}+ -d.allTokensInc =
      books (carried plan) x.replica+(m.outputs.map (driftOf (carried plan) (fun d => -d.allTokensInc) x.replica.loop)).sum := by
    simp only [books,pending,stage,settledOf]
    omega
  have room := solvent.room stage backed after
  have open_ := books_nonneg (r := {x.replica with loop := s,stage := .metered m}) (w := carried plan) fun a => carried_nonneg a
  omega

instance (plan : TokenPlan) (o : RequestStepOutput) (a : Account) : Decidable (Backed plan o a) :=
  decidable_of_iff ((o.isFinished = false → o.newTokenIds.length = plan a.request.requestId a.generatedTokenCnt) ∧
      (o.isFinished = true → owed o a ≤ carried plan a))
    ⟨fun ⟨planned,paid⟩ => ⟨planned,paid⟩,fun backed => ⟨backed.planned,backed.paid⟩⟩

instance (plan : TokenPlan) (a : Account) : Decidable (Paid plan a) := inferInstanceAs (Decidable (_ ≤ _))

omit [BlockHash β] in
instance (plan : TokenPlan) (x : Audit β) (a : Action) : Decidable (BackedBy plan x a) :=
  match a with
  | .meter => inferInstanceAs (Decidable (∀ m ∈ x.replica.metering .meter, ∀ o ∈ m.outputs,
      ∀ entry ∈ x.replica.loop.find o.requestId, Backed plan o entry.account))
  | .deliver => inferInstanceAs (Decidable (∀ m ∈ stepOf x.replica.stage, ∀ id ∈ m.abortedRequests++x.replica.loop.dropReady,
      ∀ entry ∈ x.replica.loop.find id, Paid plan entry.account))
  | .commit .. | .addRequest | .send | .notify _ | .recvStep _ => .isTrue trivial

-- Steps whose action meets a condition on the state before it.
def execIf (ext : External) (blockSize : Nat) (P : Audit β → Action → Prop) [∀ x a, Decidable (P x a)] :
    Audit β → List Action → Option (Audit β)
  | x,[] => some x
  | x,a::rest =>
    if x.replica.Enabled a ∧ Orderly x.committed a ∧ P x a then
      match x.replica.perform ext blockSize a with
      | .ok r => execIf ext blockSize P (x.after ext a r) rest
      | .error _ => none
    else none

theorem run_execIf {P : Audit β → Action → Prop} [∀ x a, Decidable (P x a)] {from_ : Audit β} {past actions : List Action}
    (run : Run (fun x a x' => Step ext blockSize x a x' ∧ P x a) from_ past x) (executed : x.execIf ext blockSize P actions = some x') :
    Run (fun x a x' => Step ext blockSize x a x' ∧ P x a) from_ (past++actions) x' := by
  refine run.executed (fun _ => rfl) (fun x a rest t result => ?_) executed
  unfold execIf at result
  split at result
  · rename_i allowed
    split at result
    · rename_i r done
      exact ⟨x.after ext a r,⟨⟨⟨allowed.1,done⟩,allowed.2.1,rfl⟩,allowed.2.2⟩,result⟩
    · cases result
  · cases result

-- Code points for tokens, and requests for ten new ones.
def charTokenizer : TokenizerRender where
  render messages := .ok ((messages.head?.map ChatMessage.content).getD "")
  encode text := .ok (text.toList.map Char.toNat)
  decode tokens := .ok (String.ofList (tokens.map Char.ofNat))

def generateFrom (inputs : String) (truncate : Option Nat) : GenerateRequest :=
  ⟨inputs,⟨none,none,none,none,none,some 10,[],truncate,none,none⟩,none⟩

def gateway (sender : Option TokenizerRender) : Validation := ⟨4,5,1024,2048,sender⟩

-- A prompt of one token, computed in two parts, and one more output.
def chunkedPrefill : List Action :=
  [.commit ⟨1,1,[97]⟩ none ⟨0,0⟩,.addRequest,.send,.recvStep (plainStep 1 [plainOutput 1 .prefill false []] []),.meter,.deliver,
    .recvStep (plainStep 1 [plainOutput 1 .prefill false [5,6]] []),.meter,.deliver,.recvStep (plainStep 0 [plainOutput 1 .decode true [7]] [])]

def twoLater : TokenPlan := fun _ k => if k = 1 then 2 else 0

theorem all_tokens_nonneg_chunked : ∃ (x : Audit RadixTreeBlockHash) (s : CompletionLoop) (d : LMetricDec),
    x.replica.loop.fastPath plainExternal (plainStep 0 [plainOutput 1 .decode true [7]] []) = .ok (s,d) ∧
      0 ≤ x.replica.context.lmetric.allTokens+d.allTokensInc := by
  obtain ⟨x,executed⟩ : ∃ x, (start ⟨.empty,RadixTreeBlockHash.new 4⟩).execIf plainExternal 16 (BackedBy twoLater) chunkedPrefill = some x :=
    Option.isSome_iff_exists.mp (by decide)
  have facts : ((start ⟨.empty,RadixTreeBlockHash.new 4⟩).execIf plainExternal 16 (BackedBy twoLater) chunkedPrefill).map
      (fun x => (x.replica.stage,decide (BackedBy twoLater x .meter),
        (x.replica.loop.fastPath plainExternal (plainStep 0 [plainOutput 1 .decode true [7]] [])).isOk)) =
      some (.received (plainStep 0 [plainOutput 1 .decode true [7]] []),true,true) := by decide
  rw [executed] at facts
  simp only [Option.map_some,Option.some.injEq,Prod.mk.injEq,decide_eq_true_eq] at facts
  obtain ⟨stage,backed,ok⟩ := facts
  have run := run_execIf .start executed
  rw [List.nil_append] at run
  have accepted : ∀ a ∈ chunkedPrefill, Accepted (gateway (some charTokenizer)) a := by
    intro a member
    simp only [chunkedPrefill,List.mem_cons,List.not_mem_nil,or_false] at member
    rcases member with rfl | rfl | rfl | rfl | rfl | rfl | rfl | rfl | rfl | rfl
    · exact ⟨generateFrom "a" none,by decide⟩
    all_goals trivial
  have backedRun : Run (BackedStep (gateway (some charTokenizer)) twoLater plainExternal 16) (start ⟨.empty,RadixTreeBlockHash.new 4⟩) chunkedPrefill x :=
    run.weaken_of accepted fun _ _ _ allowed taken => ⟨taken.1,allowed,taken.2⟩
  cases metered : x.replica.loop.fastPath plainExternal (plainStep 0 [plainOutput 1 .decode true [7]] []) with
  | error panic =>
    rw [metered] at ok
    cases ok
  | ok pair => exact ⟨x,pair.1,pair.2,metered,all_tokens_nonneg _ twoLater _ chunkedPrefill backedRun stage backed metered⟩

-- Without a tokenizer ten tokens are taken back that never came.
def truncatedToTen : List Action :=
  [.commit ⟨1,10,[]⟩ none ⟨0,0⟩,.addRequest,.send,.recvStep (plainStep 0 [plainOutput 1 .prefill true [5]] [])]

theorem all_tokens_wrap : ∃ (x : Audit RadixTreeBlockHash) (m : EngineStepOutput) (s : CompletionLoop) (d : LMetricDec),
    Run (Step plainExternal 16) (start ⟨.empty,RadixTreeBlockHash.new 4⟩) truncatedToTen x ∧ (∀ a ∈ truncatedToTen, Accepted (gateway none) a) ∧
      x.replica.stage = .received m ∧ x.replica.loop.fastPath plainExternal m = .ok (s,d) ∧
      x.replica.context.lmetric.allTokens+d.allTokensInc < 0 := by
  obtain ⟨x,executed⟩ : ∃ x, (start ⟨.empty,RadixTreeBlockHash.new 4⟩).exec plainExternal 16 truncatedToTen = some x :=
    Option.isSome_iff_exists.mp (by decide)
  have facts : ((start ⟨.empty,RadixTreeBlockHash.new 4⟩).exec plainExternal 16 truncatedToTen).map
      (fun x => (x.replica.stage,(x.replica.loop.fastPath plainExternal (plainStep 0 [plainOutput 1 .prefill true [5]] [])).toOption.map fun pair =>
        (x.replica.context.lmetric.allTokens : Int)+pair.2.allTokensInc)) =
      some (.received (plainStep 0 [plainOutput 1 .prefill true [5]] []),some (-10)) := by decide
  rw [executed] at facts
  simp only [Option.map_some,Option.some.injEq,Prod.mk.injEq] at facts
  obtain ⟨stage,sum⟩ := facts
  have run := run_exec .start executed
  rw [List.nil_append] at run
  have accepted : ∀ a ∈ truncatedToTen, Accepted (gateway none) a := by
    intro a member
    simp only [truncatedToTen,List.mem_cons,List.not_mem_nil,or_false] at member
    rcases member with rfl | rfl | rfl | rfl
    · exact ⟨generateFrom "a" (some 10),by decide⟩
    all_goals trivial
  cases metered : x.replica.loop.fastPath plainExternal (plainStep 0 [plainOutput 1 .prefill true [5]] []) with
  | error panic =>
    rw [metered] at sum
    cases sum
  | ok pair =>
    rw [metered] at sum
    have negative := Option.some.inj sum
    exact ⟨x,_,pair.1,pair.2,run,accepted,stage,metered,by simp only at negative; omega⟩

end Audit
end BlitzRouter
