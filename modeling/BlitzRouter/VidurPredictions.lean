import Mathlib.Data.Rat.Cast.Order
import Mathlib.Tactic.Linarith
import Mathlib.Tactic.NormNum
import BlitzRouter.VidurFiles

namespace BlitzRouter.Vidur

section FullSteps
variable {τ ε : Type} [Zero τ] [RatCast τ]
variable {parseF32 : List Char → Option τ} {openFile : String → Except ε (Lines ε)} {config : SimulatorConfig τ} {p : VidurRfPredictor τ}

-- The predictor without the fast path.
def VidurRfPredictor.uncached (p : VidurRfPredictor τ) : VidurRfPredictor τ := {p with fullTokenCache := ∅}

theorem FromFiles.lookup_cached {op : Op} {v : τ} (held : FromFiles parseF32 openFile config p)
    (cached : p.fullTokenCache.lookup op = some v) : p.lookup op (config.tokenBudget,0) = v := by
  obtain ⟨grid,found,value⟩ := held.cache op v cached
  simp [VidurRfPredictor.lookup,found,value]

theorem lookupCount_uncached (held : FromFiles parseF32 openFile config p) (op : Op) {count : Nat} (small : count < 2^32) :
    p.uncached.lookupCount op count = p.lookupCount op count := by
  have plain : p.uncached.lookupCount op count = p.lookup op (count,0) := by
    have missed : (if VidurRfPredictor.asU32 count = p.uncached.config.tokenBudget then p.uncached.fullTokenCache.lookup op else none) =
        none := by split <;> rfl
    simp only [VidurRfPredictor.lookupCount,missed]
    rfl
  rw [plain,VidurRfPredictor.lookupCount,VidurRfPredictor.asU32,Nat.mod_eq_of_lt small,held.configured]
  by_cases full : count = config.tokenBudget
  · rw [if_pos full]
    cases cached : p.fullTokenCache.lookup op with
    | none => rfl
    | some v => exact full ▸ held.lookup_cached cached
  · rw [if_neg full]

end FullSteps

section Steps
variable {τ ε : Type} [Zero τ] [One τ] [Add τ] [Sub τ] [Mul τ] [NatCast τ] [RatCast τ] [LT τ] [DecidableLT τ]
variable {parseF32 : List Char → Option τ} {openFile : String → Except ε (Lines ε)} {config : SimulatorConfig τ}
variable {p q : VidurRfPredictor τ} {batch other : BatchForPredictor}

-- What a prediction is put together from.
open VidurRfPredictor in
theorem predict_congr (settings : p.config = q.config) (full : ∀ op, p.lookupFullOr batch op = q.lookupFullOr other op)
    (save : p.attnKvCacheSaveMs batch = q.attnKvCacheSaveMs other) (decode : p.attnDecodeMs batch = q.attnDecodeMs other)
    (prefill : p.attnPrefillMs batch = q.attnPrefillMs other)
    (comm : ∀ op, p.lookup op (batch.numTokensRounded,0) = q.lookup op (other.numTokensRounded,0))
    (cpu : ∀ op, p.lookup op (batch.size,0) = q.lookup op (other.size,0)) (powf : τ → τ → τ) :
    p.predict batch powf = q.predict other powf := by
  have tp : p.tpCommMs batch powf = q.tpCommMs other powf := by simp only [tpCommMs,settings,comm]
  have pp : p.ppCommMs batch = q.ppCommMs other := by simp only [ppCommMs,settings,comm]
  have overhead : p.cpuOverheadMs batch = q.cpuOverheadMs other := by simp only [cpuOverheadMs,scheduleMs,samplerE2eMs,settings,cpu]
  have norm : p.mlpNormMs batch = q.mlpNormMs other := by simp only [mlpNormMs,settings,full]
  have down : p.mlpDownProjMs batch = q.mlpDownProjMs other := by simp only [mlpDownProjMs,full]
  have block : p.blockMs batch powf = q.blockMs other powf := by
    simp only [blockMs,attnNormMs,addMs,attnRopeMs,attnPreProjMs,attnPostProjMs,mlpUpProjMs,mlpActMs,moeLinearMs,
      settings,full,save,decode,prefill,tp,norm,down]
  simp only [predict,modelMs,settings,block,pp,overhead]

theorem predict_uncached (loaded : VidurRfPredictor.new parseF32 openFile config = .ok p) (powf : τ → τ → τ)
    (batch : BatchForPredictor) (small : batch.numTokens < 2^32) (rounded : batch.numTokensRounded < 2^32) :
    p.predict batch powf = p.uncached.predict batch powf := by
  have held := new_fromFiles loaded
  have same : p.config = p.uncached.config := rfl
  refine predict_congr same (fun op => (lookupCount_uncached held op rounded).symm) ?_ ?_ ?_ (fun _ => rfl) (fun _ => rfl) powf
  · exact (lookupCount_uncached held .attnKvCacheSave small).symm
  · rfl
  · rfl

-- A full step against files of one row each.
def oneRow (_ : String) : Except Unit (Lines Unit) := .ok [.ok "num_tokens,batch_size,ms".toList,.ok "1024,0,7".toList]

theorem predict_uncached_full : ∃ p : VidurRfPredictor ℚ, VidurRfPredictor.new wholeMs oneRow .standard = .ok p ∧
    p.predict ⟨1020,1024,[1000],[0],List.replicate 20 50,21⟩ (fun x _ => x) =
      p.uncached.predict ⟨1020,1024,[1000],[0],List.replicate 20 50,21⟩ (fun x _ => x) := by
  obtain ⟨p,loaded⟩ := new_ok wholeMs oneRow .standard fun op => ⟨_,rfl,fun line member => ⟨_,List.mem_singleton.mp member⟩⟩
  exact ⟨p,loaded,predict_uncached loaded _ _ (by decide) (by decide)⟩

end Steps
section Order
variable {τ : Type} [Zero τ] [One τ] [Add τ] [Sub τ] [Mul τ] [NatCast τ] [RatCast τ] [LinearOrder τ]
variable {p : VidurRfPredictor τ} {batch other : BatchForPredictor} {prefills others : List PrefillPart} {decodes more : List DecodePart}

-- Two batches with the same requests, listed in two orders.
structure SameWork (batch other : BatchForPredictor) : Prop where
  numTokens : batch.numTokens = other.numTokens
  numTokensRounded : batch.numTokensRounded = other.numTokensRounded
  size : batch.size = other.size
  prefillCount : batch.numPrefillTokens.length = other.numPrefillTokens.length
  prefills : (batch.numPrefillTokens.zip batch.numPrefillComputedTokens).Perm (other.numPrefillTokens.zip other.numPrefillComputedTokens)
  decodes : batch.numDecodeComputedTokens.Perm other.numDecodeComputedTokens

omit [Sub τ] [NatCast τ] in
theorem SameWork.attnPrefillMs (same : SameWork batch other) : p.attnPrefillMs batch = p.attnPrefillMs other := by
  have larger (maxT : τ) (pair : Nat × Nat) :
      (if p.prefillPairMs pair > maxT then p.prefillPairMs pair else maxT) = max (p.prefillPairMs pair) maxT := by
    split
    · next more => exact (max_eq_left (le_of_lt more)).symm
    · next less => exact (max_eq_right (not_lt.mp less)).symm
  have folds := same.prefills.foldl_eq' (f := fun maxT pair => max (p.prefillPairMs pair) maxT)
    (fun first _ second _ maxT => max_left_comm _ _ _) 0
  have empty : batch.numPrefillTokens.isEmpty = other.numPrefillTokens.isEmpty := by
    rw [Bool.eq_iff_iff,List.isEmpty_iff_length_eq_zero,List.isEmpty_iff_length_eq_zero,same.prefillCount]
  simp only [VidurRfPredictor.attnPrefillMs,larger,folds,empty,same.prefillCount]

theorem SameWork.predict (same : SameWork batch other) (powf : τ → τ → τ) : p.predict batch powf = p.predict other powf := by
  refine predict_congr rfl ?_ ?_ ?_ same.attnPrefillMs ?_ ?_ powf
  · intro op
    simp only [VidurRfPredictor.lookupFullOr,same.numTokensRounded]
  · simp only [VidurRfPredictor.attnKvCacheSaveMs,same.numTokens]
  · simp only [VidurRfPredictor.attnDecodeMs,same.decodes.length_eq,same.decodes.sum_eq]
  · intro op
    rw [same.numTokensRounded]
  · intro op
    rw [same.size]

theorem batchOf_sameWork (limits : StepLimits) (sorted : prefills.Perm others) (shuffled : decodes.Perm more) :
    SameWork (batchOf limits prefills decodes) (batchOf limits others more) := by
  have pairs (parts : List PrefillPart) : (parts.map fun p => p.chunk).zip (parts.map fun p => p.computed) =
      parts.map fun p => (p.chunk,p.computed) := List.zip_map'
  have count := sorted.length_eq
  have waiting := shuffled.length_eq
  have tokens := (sorted.map fun p => p.chunk).sum_eq
  refine ⟨?_,?_,?_,?_,?_,?_⟩
  · simp only [batchOf,tokens,waiting]
  · simp only [batchOf,tokens,waiting]
  · simp only [batchOf,count,waiting]
  · simpa only [batchOf,List.length_map] using count
  · simpa only [batchOf,pairs] using sorted.map _
  · exact shuffled.map _

theorem predict_reordered (p : VidurRfPredictor τ) (powf : τ → τ → τ) (limits : StepLimits) (sorted : prefills.Perm others)
    (shuffled : decodes.Perm more) :
    p.predict (batchOf limits prefills decodes) powf = p.predict (batchOf limits others more) powf :=
  (batchOf_sameWork limits sorted shuffled).predict powf

-- Two prefill parts that the grid tells apart, and two decode parts.
def pairGrids : VidurRfPredictor ℚ where
  config := .standard
  grids :=
    let prefill : Grid ℚ := AList.insert (128,5120) 5 (AList.insert (0,2048) 3 ∅)
    let decode : Grid ℚ := AList.insert (2,128) 7 ∅
    AList.insert .attnDecode decode (AList.insert .attnPrefill prefill ∅)
  fullTokenCache := ∅

theorem predict_reordered_pair : pairGrids.prefillPairMs (64,0) ≠ pairGrids.prefillPairMs (32,128) ∧
    pairGrids.predict (batchOf (.new 16 1024) [⟨1,0,64⟩,⟨2,128,32⟩] [⟨3,50⟩,⟨4,100⟩]) (fun x _ => x) =
      pairGrids.predict (batchOf (.new 16 1024) [⟨2,128,32⟩,⟨1,0,64⟩] [⟨4,100⟩,⟨3,50⟩]) (fun x _ => x) :=
  ⟨by decide +kernel,predict_reordered _ _ _ (List.Perm.swap _ _ _) (List.Perm.swap _ _ _)⟩

end Order
section Sign
variable {τ ε : Type} [Field τ] [LinearOrder τ] [IsStrictOrderedRing τ]
variable {parseF32 : List Char → Option τ} {openFile : String → Except ε (Lines ε)} {config : SimulatorConfig τ}
variable {p : VidurRfPredictor τ} {batch : BatchForPredictor} {op : Op} {powf : τ → τ → τ}

-- No file and no setting takes time off a step.
structure CostsTime (parseF32 : List Char → Option τ) (openFile : String → Except ε (Lines ε)) (config : SimulatorConfig τ)
    (powf : τ → τ → τ) : Prop where
  cells : ∀ op lines, openFile (config.fileName op) = .ok lines → ∀ row ∈ rows parseF32 (lines.drop 1), 0 ≤ row.2
  prefillFraction : 0 ≤ config.attentionPrefillBatchingOverheadFraction
  decodeFraction : 0 ≤ config.attentionDecodeBatchingOverheadFraction
  launch : 0 ≤ config.ncclCpuLaunchOverheadMs.getD 0
  skew : 0 ≤ config.ncclCpuSkewOverheadPerDeviceMs.getD 0
  power : ∀ x y, 0 ≤ x → 0 ≤ powf x y

theorem fallbackMs_nonneg (op : Op) : 0 ≤ (fallbackMs op : τ) := by
  cases op <;> exact Rat.cast_nonneg.mpr (by norm_num)

omit [IsStrictOrderedRing τ] in
theorem FromFiles.nonneg (held : FromFiles parseF32 openFile config p) (costs : CostsTime parseF32 openFile config powf)
    {grid : Grid τ} {key : Nat × Nat} {v : τ} (found : p.grids.lookup op = some grid) (value : grid.lookup key = some v) : 0 ≤ v := by
  obtain ⟨lines,opened,done⟩ := loadCsv_lines (held.grids op grid found)
  rw [loadLines_lookup done,AList.lookup_empty,Option.or_none,Option.map_eq_some_iff] at value
  obtain ⟨row,last,rfl⟩ := value
  exact costs.cells op lines opened row (List.mem_reverse.mp (List.mem_of_find?_eq_some last))

theorem FromFiles.lookup_nonneg (held : FromFiles parseF32 openFile config p) (costs : CostsTime parseF32 openFile config powf)
    (op : Op) (key : Nat × Nat) : 0 ≤ p.lookup op key := by
  unfold VidurRfPredictor.lookup
  split
  · next v value =>
    obtain ⟨grid,found,value⟩ := Option.bind_eq_some_iff.mp value
    exact held.nonneg costs found value
  · exact fallbackMs_nonneg op

theorem FromFiles.lookupCount_nonneg (held : FromFiles parseF32 openFile config p) (costs : CostsTime parseF32 openFile config powf)
    (op : Op) (count : Nat) : 0 ≤ p.lookupCount op count := by
  unfold VidurRfPredictor.lookupCount
  split
  · next v value =>
    split at value
    · obtain ⟨grid,found,value⟩ := held.cache op v value
      exact held.nonneg costs found value
    · cases value
  · exact held.lookup_nonneg costs op _

theorem FromFiles.attnPrefillMs_nonneg (held : FromFiles parseF32 openFile config p) (costs : CostsTime parseF32 openFile config powf) :
    0 ≤ p.attnPrefillMs batch := by
  have largest : 0 ≤ (batch.numPrefillTokens.zip batch.numPrefillComputedTokens).foldl
      (fun maxT pair => if p.prefillPairMs pair > maxT then p.prefillPairMs pair else maxT) 0 := by
    refine List.foldlRecOn _ _ (motive := fun maxT => 0 ≤ maxT) le_rfl fun maxT positive pair _ => ?_
    split
    · exact held.lookup_nonneg costs _ _
    · exact positive
  have fraction := costs.prefillFraction
  simp only [VidurRfPredictor.attnPrefillMs,held.configured]
  split
  · exact le_rfl
  · split
    · exact mul_nonneg largest (by linarith)
    · exact largest

theorem FromFiles.attnDecodeMs_nonneg (held : FromFiles parseF32 openFile config p) (costs : CostsTime parseF32 openFile config powf) :
    0 ≤ p.attnDecodeMs batch := by
  have fraction := costs.decodeFraction
  simp only [VidurRfPredictor.attnDecodeMs,held.configured]
  split
  · exact le_rfl
  · refine mul_nonneg (held.lookup_nonneg costs _ _) ?_
    split <;> linarith

-- The discount on a slow down projection is less than what it is taken from.
theorem FromFiles.mlpDownProjMs_nonneg (held : FromFiles parseF32 openFile config p) (costs : CostsTime parseF32 openFile config powf) :
    0 ≤ p.mlpDownProjMs batch := by
  simp only [VidurRfPredictor.mlpDownProjMs]
  split
  · next slow =>
    have discount : ((1/8 : ℚ) : τ) ≤ ((25/32 : ℚ) : τ) := Rat.cast_le.mpr (by norm_num)
    exact sub_nonneg.mpr (discount.trans slow.le)
  · exact held.lookupCount_nonneg costs _ _

theorem FromFiles.tpCommMs_nonneg (held : FromFiles parseF32 openFile config p) (costs : CostsTime parseF32 openFile config powf) :
    0 ≤ p.tpCommMs batch powf := by
  simp only [VidurRfPredictor.tpCommMs,held.configured]
  split
  · exact le_rfl
  · have base := held.lookup_nonneg costs .allReduce (batch.numTokensRounded,0)
    have scaled := mul_nonneg costs.skew (costs.power config.tensorParallelSize ((5/4 : ℚ) : τ) (Nat.cast_nonneg _))
    exact add_nonneg (add_nonneg base costs.launch) scaled

open VidurRfPredictor in
theorem predict_nonneg (loaded : VidurRfPredictor.new parseF32 openFile config = .ok p) (costs : CostsTime parseF32 openFile config powf)
    (batch : BatchForPredictor) : 0 ≤ p.predict batch powf := by
  have held := new_fromFiles loaded
  have full (op : Op) : 0 ≤ p.lookupFullOr batch op := held.lookupCount_nonneg costs op _
  have save : 0 ≤ p.attnKvCacheSaveMs batch := held.lookupCount_nonneg costs _ _
  have decode : 0 ≤ p.attnDecodeMs batch := held.attnDecodeMs_nonneg costs
  have prefill : 0 ≤ p.attnPrefillMs batch := held.attnPrefillMs_nonneg costs
  have down : 0 ≤ p.mlpDownProjMs batch := held.mlpDownProjMs_nonneg costs
  have tp : 0 ≤ p.tpCommMs batch powf := held.tpCommMs_nonneg costs
  have norm : 0 ≤ p.mlpNormMs batch := by
    unfold mlpNormMs
    split
    · exact le_rfl
    · exact full _
  have cpu : 0 ≤ p.cpuOverheadMs batch := by
    unfold cpuOverheadMs
    split
    · exact le_rfl
    · exact add_nonneg (held.lookup_nonneg costs _ _) (held.lookup_nonneg costs _ _)
  have pp : 0 ≤ p.ppCommMs batch := by
    unfold ppCommMs
    split
    · exact le_rfl
    · exact held.lookup_nonneg costs _ _
  have pre := full .attnPreProj
  have post := full .attnPostProj
  have rope := full .attnRope
  have layer := full .inputLayernorm
  have residual := full .add
  have block : 0 ≤ p.blockMs batch powf := by
    simp only [blockMs,attnPreProjMs,attnPostProjMs,attnRopeMs,attnNormMs,addMs,mlpUpProjMs,mlpActMs,moeLinearMs]
    cases p.config.modelKind with
    | llama =>
      have up := full .mlpUpProj
      have act := full .mlpAct
      linarith
    | moe =>
      have moe := full .moeLinear
      linarith
  simp only [predict,modelMs]
  exact add_nonneg (add_nonneg (mul_nonneg block (Nat.cast_nonneg _)) pp) cpu

theorem oneRow_costs : CostsTime wholeMs oneRow .standard fun x _ => x := by
  have cells : rows wholeMs ([.ok "1024,0,7".toList] : Lines Unit) = [((1024,0),7)] := by decide +kernel
  refine ⟨?_,?_,?_,?_,?_,?_⟩
  · intro op lines opened row member
    cases opened
    rw [List.drop_one,List.tail_cons,cells,List.mem_singleton] at member
    subst member
    norm_num
  · norm_num [SimulatorConfig.standard]
  · norm_num [SimulatorConfig.standard]
  · exact le_rfl
  · exact le_rfl
  · exact fun x _ positive => positive

end Sign
end BlitzRouter.Vidur
