import BlitzRouter.Kvcache
import BlitzRouter.FullBlocks

namespace BlitzRouter.BlockHashState
open FullBlocks

variable {ext : External} {tokens : List TokenId} {size : Nat} {state : BlockHashState}

def fresh (blockSize : Nat) : BlockHashState := ⟨[],[],0,noneSentinel,none,blockSize,defaultBlockHash,[],0⟩

-- The state after some whole blocks were hashed in a row.
def hashed (ext : External) (state : BlockHashState) (blocks : List (List TokenId)) : BlockHashState :=
  {state with prevHash := lastDigest ext.xxh3WithSeed state.prevHash blocks,
              blockHashes := state.blockHashes++chain ext.xxh3WithSeed state.prevHash blocks}

theorem hashed_cons : state.hashed ext (block::rest) =
    hashed ext {state with prevHash := ext.xxh3WithSeed block state.prevHash,
                           blockHashes := state.blockHashes++[ext.xxh3WithSeed block state.prevHash]} rest := by
  simp [hashed,lastDigest,chain]

theorem hashBlocks_append (long : ∀ block ∈ blocks, 16 ≤ block.length) :
    state.hashBlocks ext (blocks++rest) = (state.hashed ext blocks).hashBlocks ext rest := by
  induction blocks generalizing state with
  | nil => simp [hashed,lastDigest,chain]
  | cons block blocks ih =>
    have enough : ¬block.length < 16 := Nat.not_lt.mpr (long block (List.mem_cons_self ..))
    rw [hashed_cons,List.cons_append,hashBlocks,if_neg enough]
    exact ih fun b member => long b (List.mem_cons_of_mem _ member)

-- The chunks of a token list: its full blocks, then what is left, if anything.
theorem chunks_eq (positive : 0 < size) : chunks size tokens =
    fullBlocks size tokens++if tokens.length%size = 0 then [] else [leftOver size tokens] := by
  have division := Nat.div_add_mod' tokens.length size
  have below := Nat.mod_lt tokens.length positive
  have ceiling : chunks size tokens = firstBlocks size ((tokens.length+size-1)/size) tokens := rfl
  rw [ceiling,fullBlocks]
  split
  · rename_i whole
    have count : (tokens.length+size-1)/size = tokens.length/size := by
      rw [Nat.div_eq_iff positive]
      omega
    rw [count,List.append_nil]
  · rename_i partly
    have count : (tokens.length+size-1)/size = tokens.length/size+1 := by
      rw [Nat.div_eq_iff positive,Nat.succ_mul]
      omega
    have short : (leftOver size tokens).length ≤ size := by
      rw [leftOver_length]
      omega
    rw [count,firstBlocks_succ]
    exact congrArg (fun last => _++[last]) (List.take_of_length_le short)

theorem new_ok (positive : 0 < size) : new ext tokens size = some ((fresh size).hashBlocks ext (chunks size tokens)) := by
  rw [new,if_neg (by omega)]
  rfl

-- A block size of at least 16: every full block is hashed, and so is what is
-- left when it has 16 tokens or more.
theorem new_long (long : 16 ≤ size) : new ext tokens size =
    some (if tokens.length%size < 16 then {(fresh size).hashed ext (fullBlocks size tokens) with
        tokenInLastBlock := leftOver size tokens}
      else (fresh size).hashed ext (fullBlocks size tokens++[leftOver size tokens])) := by
  have fits : tokens.length/size*size ≤ tokens.length := Nat.div_mul_le_self _ _
  have full : ∀ block ∈ fullBlocks size tokens, 16 ≤ block.length := fun block member => by
    rw [full_of_mem fits member]
    exact long
  rw [new_ok (by omega),chunks_eq (by omega)]
  by_cases whole : tokens.length%size = 0
  · have nothing : leftOver size tokens = [] := List.eq_nil_of_length_eq_zero (by rw [leftOver_length,whole])
    rw [if_pos whole,hashBlocks_append full,hashBlocks,if_pos (by omega),nothing]
    rfl
  · rw [if_neg whole]
    by_cases short : tokens.length%size < 16
    · rw [if_pos short,hashBlocks_append full,hashBlocks,leftOver_length,if_pos short]
      rfl
    · have enough : ∀ block ∈ fullBlocks size tokens++[leftOver size tokens], 16 ≤ block.length := by
        intro block member
        rcases List.mem_append.mp member with inside | last
        · exact full block inside
        · rw [List.mem_singleton.mp last,leftOver_length]
          omega
      have appended : (fresh size).hashBlocks ext ((fullBlocks size tokens++[leftOver size tokens])++[]) =
          ((fresh size).hashed ext (fullBlocks size tokens++[leftOver size tokens])).hashBlocks ext [] := hashBlocks_append enough
      rw [List.append_nil,hashBlocks] at appended
      rw [if_neg short,appended]

-- A smaller block size: the first chunk ends the loop, whether it is full or not.
theorem new_short (positive : 0 < size) (small : size < 16) :
    new ext tokens size = some {fresh size with tokenInLastBlock := tokens.take size} := by
  rw [new_ok positive,chunks]
  cases count : (tokens.length+size-1)/size with
  | zero =>
    have empty : tokens = [] := by
      rw [Nat.div_eq_zero_iff] at count
      exact List.eq_nil_of_length_eq_zero (by omega)
    simp [empty,hashBlocks,fresh]
  | succ n =>
    have brief : (tokens.take size).length < 16 := by
      rw [List.length_take]
      omega
    rw [List.range_succ_eq_map,List.map_cons,Nat.zero_mul,List.drop_zero,hashBlocks,if_pos brief]
    rfl

-- A state made from a token list hashes every full block, chained through the hash
-- of the block before, and keeps the tokens behind the last full block.
structure CoversFullBlocks (ext : External) (tokens : List TokenId) (size : Nat) (state : BlockHashState) : Prop where
  count : state.blockHashes.length = tokens.length/size
  chained : ∀ i, i < tokens.length/size → state.blockHashes[i]? =
    some (ext.xxh3WithSeed ((tokens.drop (i*size)).take size) (seedAt state.blockHashes defaultBlockHash i))
  kept : state.tokenInLastBlock = tokens.drop (tokens.length/size*size)

theorem covers_of_chain (hashes : state.blockHashes = chain ext.xxh3WithSeed defaultBlockHash (fullBlocks size tokens))
    (kept : state.tokenInLastBlock = leftOver size tokens) : CoversFullBlocks ext tokens size state := by
  refine ⟨?_,fun i inside => ?_,kept⟩
  · rw [hashes,chain_length,fullBlocks,firstBlocks_length]
  · rw [hashes]
    exact chain_linked (firstBlocks_getElem? inside)

theorem covers_full_blocks_iff (positive : 1 ≤ size) :
    (∃ state, new ext tokens size = some state ∧ CoversFullBlocks ext tokens size state) ↔
      if size < 16 then tokens.length < size else tokens.length%size < 16 := by
  have fits : tokens.length/size*size ≤ tokens.length := Nat.div_mul_le_self _ _
  by_cases small : size < 16
  · rw [if_pos small,new_short positive small]
    constructor
    · rintro ⟨state,found,covers⟩
      cases found
      -- No block was hashed, so none may have been full.
      have none_full : 0 = tokens.length/size := covers.count
      exact ((Nat.div_eq_zero_iff).mp none_full.symm).resolve_left (by omega)
    · intro short
      have none_full : tokens.length/size = 0 := Nat.div_eq_of_lt short
      refine ⟨_,rfl,covers_of_chain ?_ ?_⟩
      · simp [fresh,fullBlocks,none_full,chain]
      · simp [leftOver,none_full,List.take_of_length_le (Nat.le_of_lt short)]
  · rw [if_neg small,new_long (by omega)]
    by_cases short : tokens.length%size < 16
    · rw [if_pos short]
      refine iff_of_true ⟨_,rfl,covers_of_chain ?_ rfl⟩ short
      simp [hashed,fresh]
    · rw [if_neg short]
      refine iff_of_false ?_ short
      rintro ⟨state,found,covers⟩
      cases found
      have more := covers.count
      simp [hashed,fresh,fullBlocks] at more

theorem covers_one_of_two : ∃ state, new ⟨fun block seed => block.length+seed,none⟩ (List.replicate 20 7) 16 = some state ∧
    CoversFullBlocks ⟨fun block seed => block.length+seed,none⟩ (List.replicate 20 7) 16 state :=
  (covers_full_blocks_iff (by decide)).mpr (by decide)

-- Twenty tokens do not fill a block of 32, and are hashed as one.
theorem part_of_block_hashed :
    ¬∃ state, new ⟨fun block seed => block.length+seed,none⟩ (List.replicate 20 7) 32 = some state ∧
      CoversFullBlocks ⟨fun block seed => block.length+seed,none⟩ (List.replicate 20 7) 32 state := by
  rintro ⟨state,found,covers⟩
  cases found
  exact absurd covers.count (by decide)

section Append

-- The state has hashed the first `count` blocks of the tokens and holds the rest.
structure Holds (ext : External) (tokens : List TokenId) (size count : Nat) (state : BlockHashState) : Prop where
  blockSize : state.blockSize = size
  hashes : state.blockHashes = chain ext.xxh3WithSeed defaultBlockHash (firstBlocks size count tokens)
  last : state.prevHash = lastDigest ext.xxh3WithSeed defaultBlockHash (firstBlocks size count tokens)
  kept : state.tokenInLastBlock = tokens.drop (count*size)
  fits : count*size ≤ tokens.length

theorem new_holds (ext : External) (tokens : List TokenId) :
    ∃ state, new ext tokens 16 = some state ∧ Holds ext tokens 16 (tokens.length/16) state := by
  have short : tokens.length%16 < 16 := Nat.mod_lt _ (by decide)
  rw [new_long (Nat.le_refl 16),if_pos short]
  refine ⟨_,rfl,rfl,?_,rfl,rfl,Nat.div_mul_le_self _ _⟩
  simp [hashed,fresh,fullBlocks]

-- One call hashes one more block, unless the tokens do not fill it.
theorem Holds.append (holds : Holds ext tokens size count state) (positive : 0 < size) (more : List TokenId) :
    Holds ext (tokens++more) size (min (count+1) ((tokens++more).length/size)) (state.appendTokens ext more) := by
  have fits := holds.fits
  have kept : state.tokenInLastBlock++more = (tokens++more).drop (count*size) := by
    rw [holds.kept,List.drop_append_of_le_length fits]
  have earlier : firstBlocks size count (tokens++more) = firstBlocks size count tokens := firstBlocks_append fits
  have total : (tokens++more).length = tokens.length+more.length := List.length_append
  unfold appendTokens
  simp only [holds.blockSize,kept,List.length_drop,List.drop_drop]
  split
  · rename_i filled
    have reach : (count+1)*size ≤ (tokens++more).length := by
      rw [Nat.succ_mul]
      omega
    have taken : min (count+1) ((tokens++more).length/size) = count+1 :=
      Nat.min_eq_left ((Nat.le_div_iff_mul_le positive).mpr reach)
    rw [taken]
    refine ⟨rfl,?_,?_,?_,reach⟩
    · rw [firstBlocks_succ,chain_snoc,earlier,holds.hashes,holds.last]
    · rw [firstBlocks_succ,lastDigest_snoc,earlier,holds.last]
    · rw [Nat.succ_mul]
  · rename_i unfilled
    have whole : (tokens++more).length/size = count := by
      rw [Nat.div_eq_iff positive]
      omega
    rw [whole,Nat.min_eq_right (Nat.le_succ count)]
    refine ⟨rfl,?_,?_,rfl,by omega⟩
    · rw [earlier,holds.hashes]
    · rw [earlier,holds.last]

-- The calls after any of them complete at most one block each.
def KeepsUp (size : Nat) (tokens : List TokenId) (calls : List (List TokenId)) : Prop :=
  ∀ early late, calls = early++late →
    (tokens++calls.flatten).length/size ≤ (tokens++early.flatten).length/size+late.length

theorem Holds.appends (holds : Holds ext tokens size count state) (positive : 0 < size) (calls : List (List TokenId)) :
    ∃ blocks, Holds ext (tokens++calls.flatten) size blocks (calls.foldl (appendTokens ext) state) ∧
      ((tokens++calls.flatten).length/size ≤ blocks ↔ (tokens++calls.flatten).length/size ≤ count+calls.length ∧
        ∀ first early late, calls = first::(early++late) →
          (tokens++calls.flatten).length/size ≤ (tokens++(first::early).flatten).length/size+late.length) := by
  induction calls generalizing tokens count state with
  | nil =>
    refine ⟨count,by simpa using holds,?_⟩
    simp
  | cons call calls ih =>
    obtain ⟨blocks,held,reached⟩ := ih (holds.append positive call)
    have same : tokens++(call::calls).flatten = (tokens++call)++calls.flatten := by simp
    rw [same]
    refine ⟨blocks,held,reached.trans ?_⟩
    constructor
    · rintro ⟨room,later⟩
      refine ⟨by rw [List.length_cons]; omega,fun first early late split => ?_⟩
      obtain ⟨rfl,rest⟩ := List.cons.inj split
      cases early with
      | nil =>
        simp only [List.nil_append] at rest
        rw [List.flatten_singleton,←rest]
        omega
      | cons second early =>
        have bound := later second early late rest
        simpa using bound
    · rintro ⟨room,later⟩
      refine ⟨?_,fun first early late split => ?_⟩
      · have once := later call [] calls rfl
        rw [List.flatten_singleton] at once
        rw [List.length_cons] at room
        omega
      · have bound := later call (first::early) late (by rw [split]; rfl)
        simpa using bound

theorem Holds.whole_iff (holds : Holds ext tokens size count state) (whole : Holds ext tokens size (tokens.length/size) all)
    (positive : 0 < size) :
    (state.blockHashes = all.blockHashes ∧ state.prevHash = all.prevHash ∧ state.tokenInLastBlock = all.tokenInLastBlock) ↔
      tokens.length/size ≤ count := by
  constructor
  · rintro ⟨hashes,_,_⟩
    have lengths := congrArg List.length hashes
    rw [holds.hashes,whole.hashes,chain_length,chain_length,firstBlocks_length,firstBlocks_length] at lengths
    omega
  · intro reached
    have most : count ≤ tokens.length/size := (Nat.le_div_iff_mul_le positive).mpr holds.fits
    have same : count = tokens.length/size := by omega
    subst same
    exact ⟨by rw [holds.hashes,whole.hashes],by rw [holds.last,whole.last],by rw [holds.kept,whole.kept]⟩

-- Appending chunks gives the hashes of the concatenation exactly when the last
-- calls never complete more blocks than there are calls.
theorem append_tokens_iff (ext : External) (tokens : List TokenId) (calls : List (List TokenId)) :
    ∃ start all, new ext tokens 16 = some start ∧ new ext (tokens++calls.flatten) 16 = some all ∧
      (((calls.foldl (appendTokens ext) start).blockHashes = all.blockHashes ∧
        (calls.foldl (appendTokens ext) start).prevHash = all.prevHash ∧
        (calls.foldl (appendTokens ext) start).tokenInLastBlock = all.tokenInLastBlock) ↔ KeepsUp 16 tokens calls) := by
  obtain ⟨start,made,holds⟩ := new_holds ext tokens
  obtain ⟨all,madeAll,whole⟩ := new_holds ext (tokens++calls.flatten)
  obtain ⟨blocks,held,reached⟩ := holds.appends (by decide) calls
  refine ⟨start,all,made,madeAll,(held.whole_iff whole (by decide)).trans (reached.trans ?_)⟩
  constructor
  · rintro ⟨room,later⟩ early late split
    cases early with
    | nil =>
      rw [List.nil_append] at split
      rw [List.flatten_nil,List.append_nil,←split]
      exact room
    | cons first early => exact later first early late split
  · intro keeps
    have room := keeps [] calls rfl
    rw [List.flatten_nil,List.append_nil] at room
    exact ⟨room,fun first early late split => keeps (first::early) late split⟩

-- One call with two blocks leaves the second one unhashed.
theorem second_block_pending :
    ¬∀ start all, new ⟨fun block seed => block.length+seed,none⟩ [] 16 = some start →
      new ⟨fun block seed => block.length+seed,none⟩ ([]++[List.replicate 32 7].flatten) 16 = some all →
      ([List.replicate 32 7].foldl (appendTokens ⟨fun block seed => block.length+seed,none⟩) start).blockHashes =
        all.blockHashes := by
  intro equal
  exact absurd (equal _ _ rfl rfl) (by decide)

end Append
end BlitzRouter.BlockHashState
