import BlitzRouter.Kvcache
import BlitzRouter.Runs

namespace BlitzRouter.BlockHashState
open Radix

-- The calls that the block hashes of a request go through.
inductive Operation where
  | setPredBlockHits (hitNblks : Nat)
  | setRealTokenHitsGetDiff (hitTokenCnt : Nat)
  | appendTokens (newTokens : List TokenId)
  | setBids (backendBids : List BlockId)
  | getOntoHashes (newBackendBids : List BlockId)

-- A call that panics is not a step. The blocks a backend reports as occupied are
-- full, distinct and not 0; a lookup that fails leaves the state as it was.
def Operates (ext : External) (state : BlockHashState) (op : Operation) (next : BlockHashState) : Prop :=
  match op with
  | .setPredBlockHits hitNblks => state.setPredBlockHits hitNblks = some next
  | .setRealTokenHitsGetDiff hitTokenCnt => ∃ diff, state.setRealTokenHitsGetDiff hitTokenCnt = some (next,diff)
  | .appendTokens newTokens => state.appendTokens ext newTokens = next
  | .setBids backendBids => backendBids.Nodup ∧ 0 ∉ backendBids ∧ backendBids.length ≤ state.blockHashes.length ∧
      state.setBids backendBids = some next
  | .getOntoHashes newBackendBids => (∃ hashes, state.getOntoHashes newBackendBids = some (.ok (next,hashes))) ∨
      ∃ held, state.getOntoHashes newBackendBids = some (.error held) ∧ next = state

-- Where some blocks stand among the occupied ones, side by side.
def StandsAt (state : BlockHashState) (bids : List BlockId) (begin : Nat) : Prop :=
  (state.blockIndices.drop begin).take bids.length = bids

-- The call returns the hashes of the one place where the new blocks stand and
-- moves the synchronised count to its end, or it returns the occupied blocks
-- where they stand nowhere.
def Extracts (state : BlockHashState) (bids : List BlockId) : Prop :=
  match state.getOntoHashes bids with
  | none => False
  | some (.ok (next,hashes)) => ∃ begin, state.StandsAt bids begin ∧ (∀ other, state.StandsAt bids other → other = begin) ∧
      slice state.blockHashes begin (begin+bids.length) = some hashes ∧ next = {state with syncNblks := begin+bids.length}
  | some (.error held) => held = state.blockIndices ∧ ∀ begin, ¬state.StandsAt bids begin

-- The synchronised count names an occupied block, and when the new blocks begin
-- with that one there are as many left from there.
def WithinOccupied (state : BlockHashState) (bids : List BlockId) : Prop :=
  state.syncNblks < state.blockIndices.length ∧
    (state.blockIndices[state.syncNblks]? = bids.head? → state.syncNblks+bids.length ≤ state.blockIndices.length)

-- The occupied blocks are distinct, and each has its hash.
structure Backed (state : BlockHashState) : Prop where
  distinct : state.blockIndices.Nodup
  hashed : state.blockIndices.length ≤ state.blockHashes.length

section
variable {ext : External} {state next : BlockHashState} {bids : List BlockId}

theorem hashBlocks_indices (ext : External) (blocks : List (List TokenId)) (state : BlockHashState) :
    (state.hashBlocks ext blocks).blockIndices = state.blockIndices := by
  induction blocks generalizing state with
  | nil => rfl
  | cons block rest ih =>
    unfold hashBlocks
    split
    · rfl
    · exact ih _

theorem new_backed {tokens : List TokenId} {size : Nat} (created : new ext tokens size = some state) : state.Backed := by
  unfold new at created
  split at created
  · cases created
  · cases created
    have nothing := hashBlocks_indices ext (chunks size tokens) ⟨[],[],0,noneSentinel,none,size,defaultBlockHash,[],0⟩
    exact ⟨by simp [nothing],by simp [nothing]⟩

-- Only a report of occupied blocks changes them, and hashes are only added.
theorem Backed.operates {op : Operation} (backed : state.Backed) (step : Operates ext state op next) : next.Backed := by
  cases op with
  | setPredBlockHits n =>
    rw [setPredBlockHits_eq step]
    exact ⟨backed.distinct,backed.hashed⟩
  | setRealTokenHitsGetDiff n =>
    obtain ⟨diff,real⟩ := step
    rw [(setRealTokenHitsGetDiff_eq real).1]
    exact ⟨backed.distinct,backed.hashed⟩
  | appendTokens tokens =>
    have same : next.blockIndices = state.blockIndices := by
      rw [← step,appendTokens]
      simp only
      split <;> rfl
    have longer : state.blockHashes.length ≤ next.blockHashes.length := by
      rw [← step]
      exact appendTokens_extends.length_le
    exact ⟨same ▸ backed.distinct,same ▸ Nat.le_trans backed.hashed longer⟩
  | setBids bids =>
    obtain ⟨distinct,_,full,set⟩ := step
    obtain ⟨_,synced,rfl⟩ := setBids_eq set
    exact ⟨distinct,full⟩
  | getOntoHashes bids =>
    rcases step with ⟨hashes,found⟩ | ⟨_,_,rfl⟩
    · obtain ⟨_,_,_,rfl⟩ := getOntoHashes_found found
      exact ⟨backed.distinct,backed.hashed⟩
    · exact backed

theorem run_backed {tokens : List TokenId} {size : Nat} {start : BlockHashState} {history : List Operation}
    (created : new ext tokens size = some start) (run : Run (Operates ext) start history state) : state.Backed :=
  run.invariant (I := fun _ state => state.Backed) (new_backed created) fun _ _ _ _ backed step => backed.operates step

theorem StandsAt.within {begin : Nat} (filled : bids ≠ []) (stands : state.StandsAt bids begin) :
    begin+bids.length ≤ state.blockIndices.length := by
  have count := congrArg List.length stands
  have some_ := List.length_pos_iff.mpr filled
  rw [List.length_take,List.length_drop] at count
  omega

theorem StandsAt.head {begin : Nat} (filled : bids ≠ []) (stands : state.StandsAt bids begin) :
    state.blockIndices[begin]? = bids.head? := by
  have some_ := List.length_pos_iff.mpr filled
  have first := congrArg List.head? stands
  rw [List.head?_take,if_neg (by omega),List.head?_drop] at first
  exact first

-- Distinct blocks stand at one place only.
theorem Backed.stands_once {begin other : Nat} (backed : state.Backed) (filled : bids ≠ [])
    (here : state.StandsAt bids begin) (there : state.StandsAt bids other) : other = begin := by
  have inside := here.within filled
  have some_ := List.length_pos_iff.mpr filled
  have same := (there.head filled).trans (here.head filled).symm
  exact ((List.getElem?_inj (by omega) backed.distinct).mp same.symm).symm

theorem windowPosition_none {xs run : List BlockId} (filled : run ≠ []) (nowhere : windowPosition xs run = none)
    (begin : Nat) : (xs.drop begin).take run.length ≠ run := by
  intro stands
  have count := congrArg List.length stands
  have some_ := List.length_pos_iff.mpr filled
  rw [List.length_take,List.length_drop] at count
  have inside : begin ∈ List.range (xs.length+1-run.length) := List.mem_range.mpr (by omega)
  exact List.find?_eq_none.mp nowhere begin inside (by simpa using stands)

-- What the slow path returns is always in order: its windows lie within the blocks.
theorem Backed.search_total (backed : state.Backed) (filled : bids ≠ []) : ∃ outcome, state.searchOntoHashes bids = some outcome ∧
    ∀ held, outcome = .error held → held = state.blockIndices ∧ ∀ begin, ¬state.StandsAt bids begin := by
  unfold searchOntoHashes
  rw [if_neg (by simpa using filled)]
  cases window : windowPosition state.blockIndices bids with
  | none =>
    refine ⟨_,rfl,?_⟩
    intro held same
    cases same
    exact ⟨rfl,windowPosition_none filled window⟩
  | some begin =>
    have stands : state.StandsAt bids begin := by simpa [StandsAt] using List.find?_some window
    have inside := stands.within filled
    have bounds : begin ≤ begin+bids.length ∧ begin+bids.length ≤ state.blockHashes.length :=
      ⟨Nat.le_add_right _ _,Nat.le_trans inside backed.hashed⟩
    simp only [slice,if_pos bounds,Option.map_some]
    exact ⟨_,rfl,fun _ same => by cases same⟩

-- The fast path gives up on its own comparison only; it then panics where the
-- blocks it compares with are not all there.
theorem Backed.total_iff (backed : state.Backed) (filled : bids ≠ []) :
    (∃ outcome, state.getOntoHashes bids = some outcome ∧
      ∀ held, outcome = .error held → held = state.blockIndices ∧ ∀ begin, ¬state.StandsAt bids begin) ↔ state.WithinOccupied bids := by
  obtain ⟨first,rest,rfl⟩ := List.exists_cons_of_ne_nil filled
  unfold getOntoHashes
  cases occupied : state.blockIndices[state.syncNblks]? with
  | none =>
    have beyond := List.getElem?_eq_none_iff.mp occupied
    simp only [WithinOccupied]
    constructor
    · rintro ⟨_,fault,_⟩
      cases fault
    · intro within
      omega
  | some held =>
    obtain ⟨inside,_⟩ := List.getElem?_eq_some_iff.mp occupied
    have within : state.WithinOccupied (first::rest) ↔
        (held = first → state.syncNblks+(first::rest).length ≤ state.blockIndices.length) := by
      simp only [WithinOccupied,occupied,List.head?_cons,Option.some.injEq]
      exact and_iff_right inside
    rw [within]
    simp only
    by_cases same : held = (first::rest).head?.getD 0
    · rw [if_pos same]
      by_cases fits : state.syncNblks+(first::rest).length ≤ state.blockIndices.length
      · have bounds : state.syncNblks ≤ state.syncNblks+(first::rest).length ∧
            state.syncNblks+(first::rest).length ≤ state.blockIndices.length := ⟨Nat.le_add_right _ _,fits⟩
        have hashed : state.syncNblks ≤ state.syncNblks+(first::rest).length ∧
            state.syncNblks+(first::rest).length ≤ state.blockHashes.length := ⟨bounds.1,Nat.le_trans fits backed.hashed⟩
        simp only [slice,if_pos bounds,if_pos hashed,Option.map_some]
        refine iff_of_true ?_ fun _ => fits
        split
        · exact ⟨_,rfl,fun _ wrong => by cases wrong⟩
        · exact backed.search_total filled
      · have outside : ¬(state.syncNblks ≤ state.syncNblks+(first::rest).length ∧
            state.syncNblks+(first::rest).length ≤ state.blockIndices.length) := fun both => fits both.2
        simp only [slice,if_neg outside]
        refine iff_of_false ?_ fun allowed => fits (allowed same)
        rintro ⟨_,fault,_⟩
        cases fault
    · rw [if_neg same]
      exact iff_of_true (backed.search_total filled) fun equal => absurd equal same

theorem Backed.extracts_iff (backed : state.Backed) (filled : bids ≠ []) : state.Extracts bids ↔ state.WithinOccupied bids := by
  rw [← backed.total_iff filled,Extracts]
  cases found : state.getOntoHashes bids with
  | none =>
    refine ⟨False.elim,?_⟩
    rintro ⟨_,fault,_⟩
    cases fault
  | some outcome =>
    cases outcome with
    | error held =>
      refine ⟨fun failed => ⟨_,rfl,fun _ same => by cases same; exact failed⟩,?_⟩
      rintro ⟨_,same,failed⟩
      cases same
      exact failed held rfl
    | ok pair =>
      obtain ⟨next,hashes⟩ := pair
      obtain ⟨begin,stands,part,moved⟩ := getOntoHashes_found found
      refine iff_of_true ⟨begin,stands,fun other there => backed.stands_once filled stands there,part,moved⟩ ⟨_,rfl,?_⟩
      intro held wrong
      cases wrong

end

-- In every state that the calls reach, a lookup does what it is for exactly when
-- it stays within the occupied blocks.
theorem getOntoHashes_extracts_iff {ext : External} {tokens : List TokenId} {size : Nat} {start state : BlockHashState}
    {history : List Operation} {bids : List BlockId} (created : new ext tokens size = some start)
    (run : Run (Operates ext) start history state) (filled : bids ≠ []) : state.Extracts bids ↔ state.WithinOccupied bids :=
  (run_backed created run).extracts_iff filled

-- Two hashed blocks, both of them occupied at the backend.
def counting : External := ⟨fun block seed => seed+block.length,none⟩
def occupied : BlockHashState := ⟨[58,74],[5,6],0,noneSentinel,none,16,74,[],0⟩

theorem occupied_reached : ∃ start, new counting (List.replicate 32 7) 16 = some start ∧
    Run (Operates counting) start [.setBids [5,6]] occupied := by
  refine ⟨_,rfl,.next .start ?_⟩
  exact ⟨by decide,by decide,by decide,rfl⟩

theorem getOntoHashes_extracts_iff_occupied : occupied.Extracts [6] ∧ ¬occupied.Extracts [5,6,7] := by
  obtain ⟨start,created,run⟩ := occupied_reached
  refine ⟨(getOntoHashes_extracts_iff created run (by decide)).mpr ⟨by decide,by decide⟩,?_⟩
  intro extracted
  have within := (getOntoHashes_extracts_iff created run (by decide)).mp extracted
  exact absurd (within.2 rfl) (by decide)

-- A third block that the backend did not report as occupied: the fast path sees
-- the first one and reads past the end.
theorem getOntoHashes_overruns : ¬∀ (ext : External) (tokens : List TokenId) (size : Nat) (start state : BlockHashState)
    (history : List Operation) (bids : List BlockId), new ext tokens size = some start → Run (Operates ext) start history state →
      (∃ reported, Operation.setBids reported ∈ history) → bids ≠ [] → state.Extracts bids := by
  intro always
  obtain ⟨start,created,run⟩ := occupied_reached
  exact always counting _ 16 start occupied _ [5,6,7] created run ⟨[5,6],List.mem_singleton_self _⟩ (by decide)

end BlitzRouter.BlockHashState
