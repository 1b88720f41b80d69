import BlitzRouter.RadixCore

namespace BlitzRouter
open Radix

abbrev TokenId := Nat

-- Code of other packages that the router calls: the block hash function, given
-- the tokens of a block and a seed, and the tokenizer, when one is configured.
structure External where
  xxh3WithSeed : List TokenId → Hash → Hash
  sharedTokenizer : Option (List TokenId → Bool → Option String)

def defaultBlockHash : Hash := 42

-- The top bit of the atomic word marks a hit count that was never set.
def noneSentinel : Nat := 2^63

structure BlockHashState where
  blockHashes : List Hash
  blockIndices : List BlockId
  syncNblks : Nat
  predHitNblks : Nat
  realHitNblks : Option Nat
  blockSize : Nat
  prevHash : Hash
  tokenInLastBlock : List TokenId
  decisionEpoch : Nat
deriving DecidableEq, Repr

def chunks (size : Nat) (tokens : List TokenId) : List (List TokenId) :=
  (List.range ((tokens.length+size-1)/size)).map fun i => (tokens.drop (i*size)).take size

def slice {α : Type} (xs : List α) (begin stop : Nat) : Option (List α) :=
  if begin ≤ stop ∧ stop ≤ xs.length then some ((xs.drop begin).take (stop-begin)) else none

def windowPosition (xs run : List BlockId) : Option Nat :=
  (List.range (xs.length+1-run.length)).find? fun begin => (xs.drop begin).take run.length == run

theorem slice_eq {α : Type} {xs ys : List α} {begin stop : Nat} (found : slice xs begin stop = some ys) :
    begin ≤ stop ∧ stop ≤ xs.length ∧ ys = (xs.drop begin).take (stop-begin) := by
  unfold slice at found
  split at found
  · rename_i bounds
    exact ⟨bounds.1,bounds.2,(Option.some.inj found).symm⟩
  · cases found

namespace BlockHashState
variable (ext : External)

-- A block shorter than 16 tokens ends the loop and is kept for later tokens; a
-- longer one is hashed even when it does not fill the block size.
def hashBlocks (state : BlockHashState) : List (List TokenId) → BlockHashState
  | [] => state
  | block::rest =>
    if block.length < 16 then {state with tokenInLastBlock := state.tokenInLastBlock++block}
    else
      let prevHash := ext.xxh3WithSeed block state.prevHash
      hashBlocks {state with prevHash := prevHash,blockHashes := state.blockHashes++[prevHash]} rest

-- `none` throughout is a panic: here, a division by a block size of zero.
def new (inputTokens : List TokenId) (blockSize : Nat) : Option BlockHashState :=
  if blockSize = 0 then none
  else some (hashBlocks ext ⟨[],[],0,noneSentinel,none,blockSize,defaultBlockHash,[],0⟩ (chunks blockSize inputTokens))

def setPredBlockHits (state : BlockHashState) (hitNblks : Nat) : Option BlockHashState :=
  if state.predHitNblks = noneSentinel then some {state with predHitNblks := hitNblks%noneSentinel} else none

def setRealTokenHitsGetDiff (state : BlockHashState) (hitTokenCnt : Nat) : Option (BlockHashState × Int) :=
  if state.blockSize = 0 ∨ hitTokenCnt%state.blockSize ≠ 0 then none
  else
    let blockHits := hitTokenCnt/state.blockSize
    if state.predHitNblks < noneSentinel then
      some ({state with syncNblks := max state.syncNblks blockHits,realHitNblks := some blockHits},
        (blockHits : Int)-state.predHitNblks)
    else none

-- At most one block is taken off the pending tokens, however many they are.
def appendTokens (state : BlockHashState) (newTokens : List TokenId) : BlockHashState :=
  let pending := state.tokenInLastBlock++newTokens
  if state.blockSize ≤ pending.length then
    let prevHash := ext.xxh3WithSeed (pending.take state.blockSize) state.prevHash
    {state with tokenInLastBlock := pending.drop state.blockSize,prevHash := prevHash,
                blockHashes := state.blockHashes++[prevHash]}
  else {state with tokenInLastBlock := pending}

def setBids (state : BlockHashState) (backendBids : List BlockId) : Option BlockHashState :=
  if backendBids.isEmpty then none
  else
    let old := state.blockIndices[state.syncNblks]?.getD 0
    let new := backendBids[state.syncNblks]?.getD 0
    some {state with syncNblks := if old ≠ new ∨ old = 0 then 0 else state.syncNblks,blockIndices := backendBids}

-- The slow path: any window of the occupied blocks that equals the new ones.
def searchOntoHashes (state : BlockHashState) (newBackendBids : List BlockId) :
    Option (Except (List BlockId) (BlockHashState × List Hash)) :=
  if newBackendBids.isEmpty then none
  else
    match windowPosition state.blockIndices newBackendBids with
    | none => some (.error state.blockIndices)
    | some begin =>
      let stop := begin+newBackendBids.length
      (slice state.blockHashes begin stop).map fun hashes => .ok ({state with syncNblks := stop},hashes)

def getOntoHashes (state : BlockHashState) (newBackendBids : List BlockId) :
    Option (Except (List BlockId) (BlockHashState × List Hash)) :=
  match state.blockIndices[state.syncNblks]? with
  | none => none
  | some occupied =>
    if occupied = newBackendBids.head?.getD 0 then
      let stop := state.syncNblks+newBackendBids.length
      match slice state.blockIndices state.syncNblks stop with
      | none => none
      | some run =>
        if run = newBackendBids then
          (slice state.blockHashes state.syncNblks stop).map fun hashes => .ok ({state with syncNblks := stop},hashes)
        else state.searchOntoHashes newBackendBids
    else state.searchOntoHashes newBackendBids

variable {ext} {state next : BlockHashState}

theorem hashBlocks_frame (ext : External) (blocks : List (List TokenId)) (state : BlockHashState) :
    (state.hashBlocks ext blocks).predHitNblks = state.predHitNblks ∧
      (state.hashBlocks ext blocks).realHitNblks = state.realHitNblks ∧ (state.hashBlocks ext blocks).blockSize = state.blockSize := by
  induction blocks generalizing state with
  | nil => exact ⟨rfl,rfl,rfl⟩
  | cons block rest ih =>
    unfold hashBlocks
    split
    · exact ⟨rfl,rfl,rfl⟩
    · exact ih _

theorem new_eq {tokens : List TokenId} {size : Nat} (found : new ext tokens size = some state) :
    0 < size ∧ state.predHitNblks = noneSentinel ∧ state.realHitNblks = none ∧ state.blockSize = size := by
  unfold new at found
  split at found
  · cases found
  · rename_i whole
    cases found
    obtain ⟨pred,real,blocks⟩ := hashBlocks_frame ext (chunks size tokens)
      ⟨[],[],0,noneSentinel,none,size,defaultBlockHash,[],0⟩
    exact ⟨Nat.pos_of_ne_zero whole,pred,real,blocks⟩

theorem setPredBlockHits_eq (found : state.setPredBlockHits n = some next) :
    next = {state with predHitNblks := n%noneSentinel} := by
  unfold setPredBlockHits at found
  split at found
  · exact (Option.some.inj found).symm
  · cases found

theorem setRealTokenHitsGetDiff_eq {diff : Int} (found : state.setRealTokenHitsGetDiff hits = some (next,diff)) :
    next = {state with syncNblks := max state.syncNblks (hits/state.blockSize),realHitNblks := some (hits/state.blockSize)} ∧
      diff = ((hits/state.blockSize : Nat) : Int)-state.predHitNblks ∧ hits%state.blockSize = 0 ∧ 0 < state.blockSize := by
  unfold setRealTokenHitsGetDiff at found
  split at found
  · cases found
  · rename_i whole
    simp only at found
    split at found
    · obtain ⟨rfl,rfl⟩ := Prod.mk.inj (Option.some.inj found)
      push Not at whole
      exact ⟨rfl,rfl,whole.2,Nat.pos_of_ne_zero whole.1⟩
    · cases found

theorem setBids_eq (found : state.setBids bids = some next) :
    bids ≠ [] ∧ ∃ synced, next = {state with syncNblks := synced,blockIndices := bids} := by
  unfold setBids at found
  split at found
  · cases found
  · rename_i filled
    exact ⟨by simpa using filled,_,(Option.some.inj found).symm⟩

-- Both paths return a chunk the same way: the new blocks stand somewhere among
-- the occupied ones, the hashes are cut out there, and the count moves to its end.
theorem getOntoHashes_found {hashes : List Hash} (found : state.getOntoHashes bids = some (.ok (next,hashes))) :
    ∃ begin, (state.blockIndices.drop begin).take bids.length = bids ∧
      slice state.blockHashes begin (begin+bids.length) = some hashes ∧ next = {state with syncNblks := begin+bids.length} := by
  have cut : ∀ begin, (state.blockIndices.drop begin).take bids.length = bids → (slice state.blockHashes begin (begin+bids.length)).map
      (fun hashes => (Except.ok ({state with syncNblks := begin+bids.length},hashes) : Except (List BlockId) _)) = some (Except.ok (next,hashes)) →
      ∃ begin, (state.blockIndices.drop begin).take bids.length = bids ∧
        slice state.blockHashes begin (begin+bids.length) = some hashes ∧ next = {state with syncNblks := begin+bids.length} := by
    intro begin stands equal
    obtain ⟨run,part,same⟩ := Option.map_eq_some_iff.mp equal
    simp only [Except.ok.injEq,Prod.mk.injEq] at same
    obtain ⟨rfl,rfl⟩ := same
    exact ⟨begin,stands,part,rfl⟩
  have searched : state.searchOntoHashes bids = some (.ok (next,hashes)) → ∃ begin,
      (state.blockIndices.drop begin).take bids.length = bids ∧
        slice state.blockHashes begin (begin+bids.length) = some hashes ∧ next = {state with syncNblks := begin+bids.length} := by
    intro searched
    unfold searchOntoHashes at searched
    split at searched
    · cases searched
    · split at searched
      · simp at searched
      · rename_i begin window
        have stands := List.find?_some window
        exact cut begin (by simpa using stands) searched
  unfold getOntoHashes at found
  split at found
  · cases found
  · split at found
    · simp only at found
      split at found
      · cases found
      · rename_i run part
        split at found
        · rename_i equal
          obtain ⟨_,_,whole⟩ := slice_eq part
          rw [Nat.add_sub_cancel_left,equal] at whole
          exact cut _ whole.symm found
        · exact searched found
    · exact searched found

theorem appendTokens_extends : state.blockHashes <+: (state.appendTokens ext tokens).blockHashes := by
  unfold appendTokens
  simp only
  split
  · exact List.prefix_append _ _
  · exact List.prefix_rfl

end BlockHashState
end BlitzRouter
