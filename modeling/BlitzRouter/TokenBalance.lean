import BlitzRouter.Audit

namespace BlitzRouter
open Radix CompletionLoop Replica

-- What is left of a step's delta when another delta is taken out of it.
def LMetricDec.less (d rest : LMetricDec) : LMetricDec :=
  ⟨d.bsDec-rest.bsDec,d.waitingReqsDec-rest.waitingReqsDec,d.prefillTokensDec-rest.prefillTokensDec,
    d.allTokensInc-rest.allTokensInc⟩

-- The share of one request in the delta of a step: what the step would not have
-- charged without the request's output and the prompt tokens computed for it.
inductive Served (ext : External) (s : CompletionLoop) (o : RequestStepOutput) (computed : Nat) (s' : CompletionLoop) :
    LMetricDec → Prop where
  | mk (m : EngineStepOutput) (before after : List RequestStepOutput) (s₀ : CompletionLoop) (d rest : LMetricDec) :
      s.Sound → (m.outputs.map RequestStepOutput.requestId).Nodup → m.outputs = before++o::after →
      computed ≤ m.prefillTokens → s.fastPath ext m = .ok (s',d) →
      s.fastPath ext {m with outputs := before++after,prefillTokens := m.prefillTokens-computed} = .ok (s₀,rest) →
      Served ext s o computed s' (d.less rest)

-- The steps that serve one request, from its account to its finish, with the
-- tokens computed for it and its shares. Other requests come and go in these
-- steps and between them; what the loop does there leaves the account alone.
inductive Life (ext : External) (id : RequestId) : Account → List (RequestStepOutput × Nat) → List LMetricDec → Prop where
  | last {s s' : CompletionLoop} {entry : Entry} {o : RequestStepOutput} {computed : Nat} {d : LMetricDec} :
      s.find id = some entry → o.requestId = id → o.isFinished = true → Served ext s o computed s' d →
      Life ext id entry.account [(o,computed)] [d]
  | more {s s' : CompletionLoop} {entry next : Entry} {o : RequestStepOutput} {computed : Nat} {d : LMetricDec}
      {steps : List (RequestStepOutput × Nat)} {deltas : List LMetricDec} :
      s.find id = some entry → o.requestId = id → o.isFinished = false → Served ext s o computed s' d →
      s'.find id = some next → Life ext id next.account steps deltas →
      Life ext id entry.account ((o,computed)::steps) (d::deltas)

section Shares
variable {ext : External} {s s' : CompletionLoop} {entry next : Entry} {o : RequestStepOutput} {computed : Nat}
  {d : LMetricDec}

theorem linear_prefill : Linear LMetricDec.prefillTokensDec := by
  intro a o d
  unfold Account.charge LMetricDec.new
  split <;> simp

theorem linear_all : Linear LMetricDec.allTokensInc := by
  intro a o d
  unfold Account.charge LMetricDec.new
  split <;> simp <;> ring

-- The share of an output is its charge, whoever else the step serves.
theorem Served.share (served : Served ext s o computed s' d) (found : s.find o.requestId = some entry) :
    d.prefillTokensDec = computed+(entry.account.charge o LMetricDec.new).prefillTokensDec ∧
      d.allTokensInc = (entry.account.charge o LMetricDec.new).allTokensInc := by
  cases served with
  | mk m before after s₀ d rest sound distinct outputs room fast other =>
    have apart : ((before++after).map RequestStepOutput.requestId).Nodup := by
      rw [outputs] at distinct
      exact distinct.sublist (((List.sublist_cons_self o after).append_left before).map _)
    have whole := sound.metering distinct fast
    have without := sound.metering apart other
    have charge : ∀ c : LMetricDec → Int, Linear c → driftOf (fun _ => 0) c s o = c (entry.account.charge o LMetricDec.new) := by
      intro c _
      simp [driftOf,found,drift]
    have split : ∀ c : LMetricDec → Int, Linear c →
        c d-c (startDelta m) = c rest-c (startDelta {m with prefillTokens := m.prefillTokens-computed})+
          c (entry.account.charge o LMetricDec.new) := by
      intro c linear
      have one := whole.balance (fun _ => 0) c [] linear fun _ _ => List.not_mem_nil
      have two := without.balance (fun _ => 0) c [] linear fun _ _ => List.not_mem_nil
      rw [balance_zero,balance_zero,outputs,List.map_append,List.map_cons,List.sum_append,List.sum_cons,charge c linear] at one
      rw [balance_zero,balance_zero,List.map_append,List.sum_append] at two
      have start : startDelta {m with outputs := before++after,prefillTokens := m.prefillTokens-computed} =
          startDelta {m with prefillTokens := m.prefillTokens-computed} := rfl
      rw [start] at two
      omega
    have prefill := split _ linear_prefill
    have all := split _ linear_all
    have computedFirst : (startDelta m).prefillTokensDec-
        (startDelta {m with prefillTokens := m.prefillTokens-computed}).prefillTokensDec = computed := by
      simp only [startDelta]
      omega
    have noTokens : ∀ m : EngineStepOutput, (startDelta m).allTokensInc = 0 := fun _ => rfl
    rw [noTokens,noTokens] at all
    simp only [LMetricDec.less]
    constructor <;> omega

theorem Served.posted (served : Served ext s o computed s' d) (found : s.find o.requestId = some entry)
    (goes : o.isFinished = false) (later : s'.find o.requestId = some next) : next.account = entry.account.post o := by
  cases served with
  | mk m before after s₀ d rest sound distinct outputs room fast other =>
    have member : o ∈ m.outputs := by rw [outputs]; simp
    obtain ⟨new,found',account⟩ := (sound.metering distinct fast).posted o member goes entry found
    rw [later] at found'
    cases found'
    exact account

end Shares

section Counters
variable {ext : External} {id : RequestId} {a : Account} {steps : List (RequestStepOutput × Nat)} {deltas : List LMetricDec}
  {counters : LMetric} {base : Nat}

-- Outputs that go on carry one token each.
def OneTokenEach (steps : List (RequestStepOutput × Nat)) : Prop :=
  ∀ step ∈ steps, step.1.isFinished = false → step.1.newTokenIds.length = 1

def OnlyDecodes (steps : List (RequestStepOutput × Nat)) : Prop :=
  ∀ step ∈ steps, step.1.state = .decode ∧ step.2 = 0

theorem subAssign_all {d : LMetricDec} {n : Nat} (sum : (counters.allTokens : Int)+d.allTokensInc = n) :
    (counters.subAssign d).allTokens = n := by
  have cast := asUsize_cast (by omega : 0 ≤ (counters.allTokens : Int)+d.allTokensInc)
  simp only [LMetric.subAssign]
  omega

-- While decoding the tokens counted for the request are its prompt and its
-- outputs so far, and the finish takes off just that.
theorem Life.decoding (life : Life ext id a steps deltas) (decode : OnlyDecodes steps) (tokens : OneTokenEach steps)
    (all : counters.allTokens = base+(a.request.inputLength+a.generatedTokenCnt)) :
    (deltas.foldl LMetric.subAssign counters).prefillTokens = counters.prefillTokens ∧
      (deltas.foldl LMetric.subAssign counters).allTokens = base := by
  induction life generalizing counters with
  | last found named ends served =>
    rename_i entry o computed d
    subst named
    obtain ⟨state,computedNone⟩ := decode _ (List.mem_singleton_self _)
    obtain ⟨prefill,owed⟩ := served.share found
    simp only at state computedNone
    simp only [Account.charge,state,ends,LMetricDec.new] at prefill owed
    rw [List.foldl_cons,List.foldl_nil]
    refine ⟨?_,subAssign_all ?_⟩
    · simp only [LMetric.subAssign]
      omega
    · push_cast [all]
      omega
  | more found named goes served later life ih =>
    rename_i entry next o computed d steps deltas
    subst named
    obtain ⟨state,computedNone⟩ := decode _ List.mem_cons_self
    have one := tokens _ List.mem_cons_self goes
    obtain ⟨prefill,owed⟩ := served.share found
    have posted := served.posted found goes later
    simp only at state computedNone one
    simp only [Account.charge,state,goes,LMetricDec.new,one] at prefill owed
    have step : (counters.subAssign d).allTokens = base+(next.account.request.inputLength+next.account.generatedTokenCnt) := by
      apply subAssign_all
      simp only [posted,Account.post,state,all]
      push_cast
      omega
    obtain ⟨prefill',all'⟩ := ih (fun s member => decode s (List.mem_cons_of_mem _ member))
      (fun s member => tokens s (List.mem_cons_of_mem _ member)) step
    rw [List.foldl_cons]
    refine ⟨?_,all'⟩
    rw [prefill']
    simp only [LMetric.subAssign]
    omega

end Counters

section Normal
variable {β : Type} [BlockHash β] {ext : External} {blockSize p h : Nat} {r r' : Replica β} {request : ValidGenerateRequest}
  {first : RequestStepOutput} {rest : List (RequestStepOutput × Nat)} {deltas : List LMetricDec}

-- A request is committed with p predicted hits.
def CommitsWith (ext : External) (blockSize p : Nat) (r : Replica β) (request : ValidGenerateRequest) (r' : Replica β) : Prop :=
  ∃ reads cached entry, Entry.new ext blockSize request reads = some entry ∧
    observedHits r.context.blockHash entry.blockHashState.blockHashes cached = some p ∧
    r.commit ext blockSize request reads cached = .ok r'

-- It is prefilled in one PREFILL output whose step computes what the h real hits
-- leave, and decoded to its finish, unless that output is the last one already.
structure NormalLife (ext : External) (blockSize p h : Nat) (r : Replica β) (request : ValidGenerateRequest) (r' : Replica β)
    (first : RequestStepOutput) (rest : List (RequestStepOutput × Nat)) (deltas : List LMetricDec) : Prop where
  committed : CommitsWith ext blockSize p r request r'
  validated : request.inputLength = request.inputTokens.length
  short : request.inputTokens.length < noneSentinel
  predicted : p*blockSize ≤ request.inputTokens.length
  real : h ≤ request.inputTokens.length
  whole : h%blockSize = 0
  life : Life ext request.requestId (opened blockSize p request) ((first,request.inputTokens.length-h)::rest) deltas
  prefill : first.state = .prefill
  hit : first.hitTokenCnt = h
  decode : OnlyDecodes rest
  tokens : OneTokenEach ((first,request.inputTokens.length-h)::rest)

def Restores (before after : LMetric) : Prop :=
  after.prefillTokens = before.prefillTokens ∧ after.allTokens = before.allTokens

-- The token counters are back where they were unless the PREFILL output is the
-- last one, which forgets to correct the prediction.
theorem normal_life_restores_iff (normal : NormalLife ext blockSize p h r request r' first rest deltas) :
    Restores r.context.lmetric (deltas.foldl LMetric.subAssign r'.context.lmetric) ↔
      (first.isFinished = true → h = p*blockSize) := by
  obtain ⟨⟨reads,cached,entry,made,observed,committed⟩,validated,short,predicted,real,whole,life,prefill,hit,decode,tokens⟩ := normal
  unfold Restores
  obtain ⟨entry₀,hits,entry',made',observed',done⟩ := commit_cases committed
  rw [made] at made'
  cases made'
  rw [observed] at observed'
  cases observed'
  have positive := done.positive
  have small : p%noneSentinel = p := by
    apply Nat.mod_eq_of_lt
    have less : p ≤ p*blockSize := Nat.le_mul_of_pos_right p positive
    omega
  have blocks : h/blockSize*blockSize = h := Nat.div_mul_cancel (Nat.dvd_of_mod_eq_zero whole)
  have lmetric : r'.context.lmetric = r.context.lmetric.addAssign
      ⟨1,1,request.inputTokens.length-p*blockSize,request.inputTokens.length⟩ := by rw [done.result]
  have opening : ∀ d : LMetricDec, (r'.context.lmetric.subAssign d).prefillTokens =
      r.context.lmetric.prefillTokens+(request.inputTokens.length-p*blockSize : Nat)-d.prefillTokensDec := by
    intro d
    rw [lmetric]
    rfl
  have held : r'.context.lmetric.allTokens = r.context.lmetric.allTokens+request.inputTokens.length := by rw [lmetric]; rfl
  generalize account : opened blockSize p request = a at life
  cases life with
  | last found named ends served =>
    rename_i entry d
    obtain ⟨prefilled,owed⟩ := served.share (named ▸ found)
    rw [← account] at prefilled owed
    simp only [Account.charge,prefill,ends,opened,LMetricDec.new] at prefilled owed
    have all : (r'.context.lmetric.subAssign d).allTokens = r.context.lmetric.allTokens := by
      apply subAssign_all
      push_cast [held]
      omega
    rw [List.foldl_cons,List.foldl_nil,opening]
    constructor
    · rintro ⟨same,_⟩ _
      omega
    · intro equal
      have same := equal ends
      exact ⟨by omega,all⟩
  | more found named goes served later life =>
    rename_i entry next d deltas
    have one := tokens _ List.mem_cons_self goes
    obtain ⟨prefilled,owed⟩ := served.share (named ▸ found)
    have posted := served.posted (named ▸ found) goes (named ▸ later)
    rw [← account] at prefilled owed posted
    simp only at one
    simp only [Account.charge,prefill,goes,opened,LMetricDec.new,one,hit,small] at prefilled owed
    have corrected : (((h/blockSize : Nat) : Int)-p)*blockSize = (h : Int)-(p*blockSize : Nat) := by
      rw [sub_mul,← Nat.cast_mul,← Nat.cast_mul,blocks]
    have all : (r'.context.lmetric.subAssign d).allTokens =
        r.context.lmetric.allTokens+(next.account.request.inputLength+next.account.generatedTokenCnt) := by
      apply subAssign_all
      simp only [posted,Account.post,prefill,opened,validated]
      push_cast [held]
      omega
    obtain ⟨prefill',all'⟩ := life.decoding decode (fun step member => tokens step (List.mem_cons_of_mem _ member)) all
    rw [List.foldl_cons]
    refine ⟨fun _ ends => (by rw [goes] at ends; cases ends),fun _ => ⟨?_,all'⟩⟩
    rw [prefill',opening]
    omega

end Normal

section Lives

-- A prompt of one block that is in the engine's cache but not in the view of the
-- router, answered by its first output.
def blockRequest : ValidGenerateRequest := ⟨1,16,List.replicate 16 7⟩

def cachedAnswer (isFinished : Bool) : RequestStepOutput := ⟨1,[5],.prefill,isFinished,16,0⟩

def blockEntry (realHitNblks : Option Nat) (generatedTokenCnt : Nat) : Entry :=
  ⟨blockRequest,⟨[],[],0,0,realHitNblks,16,defaultBlockHash,[],0⟩,⟨[],none⟩,generatedTokenCnt⟩

def loopWith (entry : Entry) : CompletionLoop := CompletionLoop.new.receive entry

theorem sound_loopWith (entry : Entry) : (loopWith entry).Sound :=
  (sound_new.receive (by simp [Known,CompletionLoop.new,ExtContext.new])).sound

theorem found_loopWith (entry : Entry) : (loopWith entry).find entry.request.requestId = some entry := by
  simp [loopWith,CompletionLoop.receive,find]

theorem commits_block : ∃ r', CommitsWith Audit.plainExternal 16 0 (start ⟨.empty,RadixTreeBlockHash.new 4⟩) blockRequest r' ∧
    r'.context.lmetric = ⟨1,1,16,16⟩ := by
  obtain ⟨r',committed⟩ : ∃ r', (start ⟨.empty,RadixTreeBlockHash.new 4⟩).commit Audit.plainExternal 16 blockRequest none ⟨0,0⟩ = .ok r' :=
    ⟨_,rfl⟩
  refine ⟨r',⟨none,⟨0,0⟩,_,rfl,by decide,committed⟩,?_⟩
  cases committed
  rfl

-- A step that serves nobody else: the whole delta is the share.
theorem served_alone {ext : External} {s s' : CompletionLoop} {o : RequestStepOutput} {computed : Nat} {d : LMetricDec}
    (sound : s.Sound) (fast : s.fastPath ext (Audit.plainStep computed [o] []) = .ok (s',d)) :
    Served ext s o computed s' (d.less LMetricDec.new) := by
  refine .mk (Audit.plainStep computed [o] []) [] [] s d LMetricDec.new sound (List.nodup_singleton _) rfl (Nat.le_refl _) fast ?_
  simp only [Audit.plainStep,Nat.sub_self]
  rfl

theorem life_finished_prefill :
    Life Audit.plainExternal 1 (opened 16 0 blockRequest) [(cachedAnswer true,0)] [⟨1,1,0,-16⟩] :=
  .last (found_loopWith (blockEntry none 0)) rfl rfl (served_alone (d := ⟨1,1,0,-16⟩) (sound_loopWith _) rfl)

theorem life_finish : Life Audit.plainExternal 1 (blockEntry (some 1) 1).account [(Audit.plainOutput 1 .decode true [6],0)]
    [⟨1,0,0,-17⟩] :=
  .last (found_loopWith (blockEntry (some 1) 1)) rfl rfl (served_alone (d := ⟨1,0,0,-17⟩) (sound_loopWith _) rfl)

theorem life_decoded :
    Life Audit.plainExternal 1 (opened 16 0 blockRequest) [(cachedAnswer false,0),(Audit.plainOutput 1 .decode true [6],0)]
      [⟨0,1,16,1⟩,⟨1,0,0,-17⟩] :=
  .more (found_loopWith (blockEntry none 0)) rfl rfl (served_alone (d := ⟨0,1,16,1⟩) (sound_loopWith _) rfl) rfl life_finish

theorem tokens_of_finished {steps : List (RequestStepOutput × Nat)} (one : ∀ step ∈ steps, step.1.newTokenIds.length = 1) :
    OneTokenEach steps := fun step member _ => one step member

-- Without a view of the cache the block is predicted as work, and the PREFILL
-- output that is also the last one never takes it off again.
theorem finished_prefill_leaks :
    ¬∀ (p h : Nat) (r r' : Replica RadixTreeBlockHash) (request : ValidGenerateRequest) (first : RequestStepOutput)
      (rest : List (RequestStepOutput × Nat)) (deltas : List LMetricDec),
      NormalLife Audit.plainExternal 16 p h r request r' first rest deltas →
      Restores r.context.lmetric (deltas.foldl LMetric.subAssign r'.context.lmetric) := by
  intro claimed
  obtain ⟨r',committed,lmetric⟩ := commits_block
  have restored := claimed 0 16 _ r' blockRequest (cachedAnswer true) [] [⟨1,1,0,-16⟩]
    ⟨committed,rfl,by decide,by decide,by decide,by decide,life_finished_prefill,rfl,rfl,(fun _ member => by cases member),
      tokens_of_finished (by simp [cachedAnswer])⟩
  rw [lmetric] at restored
  exact absurd restored.1 (by decide)

theorem normal_life_restores_decoded : ∃ r' : Replica RadixTreeBlockHash,
    Restores LMetric.empty ([⟨0,1,16,1⟩,⟨1,0,0,-17⟩].foldl LMetric.subAssign r'.context.lmetric) := by
  obtain ⟨r',committed,_⟩ := commits_block
  have normal : NormalLife Audit.plainExternal 16 0 16 (start ⟨.empty,RadixTreeBlockHash.new 4⟩) blockRequest r' (cachedAnswer false)
      [(Audit.plainOutput 1 .decode true [6],0)] [⟨0,1,16,1⟩,⟨1,0,0,-17⟩] := ⟨committed,rfl,by decide,by decide,by decide,by decide,life_decoded,rfl,rfl,by simp [OnlyDecodes,Audit.plainOutput],
      tokens_of_finished (by simp [cachedAnswer,Audit.plainOutput])⟩
  exact ⟨r',(normal_life_restores_iff normal).mpr fun ends => by cases ends⟩

end Lives
end BlitzRouter
