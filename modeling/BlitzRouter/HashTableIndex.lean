import BlitzRouter.RadixRepresentation
import BlitzRouter.HashTable

namespace BlitzRouter
open Radix

namespace HashTableBlockHash
variable {t t' : HashTableBlockHash} {h : Hash} {bid : BlockId} {hashes : List Hash} {ids : List BlockId}

-- What a debug build asserts of one pair before it writes: an id the row names has
-- this hash, and an id that joins a row had none.
def insertBlockAsserts (t : HashTableBlockHash) (h : Hash) (bid : BlockId) : Bool :=
  bid < t.blockToHash.length &&
    match t.map.lookup h with
    | some bids => if bids.contains bid then t.tracked bid == some h else (t.tracked bid).isNone
    | none => (t.tracked bid).isNone

-- `debug_assert!(false)` where the hash of a tracked id has no row.
def removeBlockAsserts (t : HashTableBlockHash) (bid : BlockId) : Bool :=
  bid < t.blockToHash.length &&
    match t.tracked bid with
    | some h => (t.map.lookup h).isSome
    | none => true

-- The debug build: a failed assertion panics.
def insertBlockDebug (t : HashTableBlockHash) (h : Hash) (bid : BlockId) : Option (HashTableBlockHash × Nat) :=
  if t.insertBlockAsserts h bid then t.insertBlock h bid else none

def insertBlocksDebug (t : HashTableBlockHash) : List Hash → List BlockId → Option (HashTableBlockHash × Nat)
  | h::hashes,bid::bids => do
    let (t,n) ← t.insertBlockDebug h bid
    let (t,more) ← insertBlocksDebug t hashes bids
    return (t,n+more)
  | _,_ => some (t,0)

def insertDebug (t : HashTableBlockHash) (blockHashes : List Hash) (blockIndices : List BlockId) : Option (HashTableBlockHash × Nat) := do
  guard (blockHashes.length = blockIndices.length)
  let (t,n) ← t.insertBlocksDebug blockHashes blockIndices
  return ({t with epoch := t.epoch+1},n)

def removeBlockDebug (t : HashTableBlockHash) (bid : BlockId) : Option HashTableBlockHash :=
  if t.removeBlockAsserts bid then t.removeBlock bid else none

def removeDebug (t : HashTableBlockHash) (blockIndices : List BlockId) : Option HashTableBlockHash := do
  let t ← blockIndices.foldlM removeBlockDebug t
  return {t with epoch := t.epoch+1}

-- The pairs of a call that no row has yet.
def newPairs (t : HashTableBlockHash) (blockHashes : List Hash) (blockIndices : List BlockId) : List (Hash × BlockId) :=
  (blockHashes.zip blockIndices).filter fun pair => !((t.map.lookup pair.1).getD []).contains pair.2

-- The leading hashes of a query that some block id is registered to.
def leading (t : HashTableBlockHash) (query : List Hash) : Nat := (query.takeWhile fun h => t.blockToHash.contains (some h)).length

-- The two indexes are inverses of each other.
structure Consistent (t : HashTableBlockHash) : Prop where
  inverse : ∀ b h, t.blockToHash[b]? = some (some h) ↔ ∃ bids, t.map.lookup h = some bids ∧ b ∈ bids
  once : ∀ h bids, t.map.lookup h = some bids → bids.Nodup
  apart : ∀ h k bids others b, t.map.lookup h = some bids → t.map.lookup k = some others → b ∈ bids → b ∈ others → h = k
  filled : ∀ h bids, t.map.lookup h = some bids → bids ≠ []

theorem tracked_iff (t : HashTableBlockHash) (b : BlockId) (h : Hash) : t.tracked b = some h ↔ t.blockToHash[b]? = some (some h) := by
  rw [tracked,Option.join_eq_some_iff]

theorem Sound.consistent (sound : t.Sound) : Consistent t where
  inverse b h := (tracked_iff t b h).symm.trans (sound.reversed h b).symm
  once h bids found := (sound.filled h bids found).2
  apart h k bids others b one two left right := by
    have first := (sound.reversed h b).mp ⟨bids,one,left⟩
    have second := (sound.reversed k b).mp ⟨others,two,right⟩
    exact Option.some.inj (first.symm.trans second)
  filled h bids found := (sound.filled h bids found).1

theorem Sound.registered_iff (sound : t.Sound) (h : Hash) : t.blockToHash.contains (some h) = (t.map.lookup h).isSome := by
  rw [Bool.eq_iff_iff,List.contains_iff_mem,sound.lookup_isSome,List.mem_iff_getElem?]
  exact exists_congr fun b => (tracked_iff t b h).symm.trans (sound.reversed h b).symm

theorem Sound.get_leading (sound : t.Sound) (query : List Hash) : t.get query = t.leading query := by
  induction query with
  | nil => rfl
  | cons h rest ih =>
    rw [leading] at ih ⊢
    rw [get,List.takeWhile_cons,sound.registered_iff]
    split
    · rw [List.length_cons,ih]
    · rfl

-- Every pair still free of the indexes, or in both of them, passes the assertions.
theorem Sound.insertBlock_asserts (sound : t.Sound) (bound : bid < t.blockToHash.length)
    (placed : t.tracked bid = none ∨ t.tracked bid = some h) : t.insertBlockAsserts h bid = true := by
  rw [insertBlockAsserts,decide_eq_true bound,Bool.true_and]
  have held := sound.reversed h bid
  rcases placed with fresh | here
  · have absent : ¬t.Holds h bid := by rw [held,fresh]; exact Option.some_ne_none h |>.symm
    split
    · rename_i bids found
      rw [if_neg fun inside => absent ⟨bids,found,List.contains_iff_mem.mp inside⟩,fresh]
      rfl
    · rw [fresh]
      rfl
  · obtain ⟨bids,found,member⟩ := held.mpr here
    rw [found]
    simp only [List.contains_iff_mem.mpr member,if_true,here,beq_self_eq_true]

theorem Sound.removeBlock_asserts (sound : t.Sound) (bound : bid < t.blockToHash.length) : t.removeBlockAsserts bid = true := by
  rw [removeBlockAsserts,decide_eq_true bound,Bool.true_and]
  split
  · rename_i h known
    obtain ⟨bids,found,_⟩ := (sound.reversed h bid).mpr known
    rw [found]
    rfl
  · rfl

theorem insertBlock_count (result : t.insertBlock h bid = some (t',n)) :
    n = if ((t.map.lookup h).getD []).contains bid then 0 else 1 := by
  unfold insertBlock at result
  cases found : t.map.lookup h with
  | none =>
    simp only [found,Option.bind_eq_bind,Option.bind_eq_some_iff,Option.pure_def,Option.some.injEq,Prod.mk.injEq] at result
    obtain ⟨_,_,_,rfl⟩ := result
    rfl
  | some bids =>
    simp only [found] at result
    rw [Option.getD_some]
    split at result
    · rename_i inside
      cases result
      rw [if_pos inside]
    · rename_i outside
      simp only [Option.bind_eq_bind,Option.bind_eq_some_iff,Option.pure_def,Option.some.injEq,Prod.mk.injEq] at result
      obtain ⟨_,_,_,rfl⟩ := result
      rw [if_neg outside]

-- Each id is new, or registered to the hash it comes with.
def Placed (t : HashTableBlockHash) (hashes : List Hash) (ids : List BlockId) : Prop :=
  ∀ (i : Nat) b h, ids[i]? = some b → hashes[i]? = some h → t.tracked b = none ∨ t.tracked b = some h

theorem tracked_other (sound : t.Sound) (sound' : t'.Sound) (holds : ∀ k b, t'.Holds k b ↔ t.Holds k b ∨ (k = h ∧ b = bid))
    {b : BlockId} (differs : b ≠ bid) : t'.tracked b = t.tracked b := by
  refine Option.ext fun k => ?_
  rw [← sound'.reversed,← sound.reversed,holds]
  simp [differs]

theorem contains_row (t : HashTableBlockHash) (h : Hash) (b : BlockId) : ((t.map.lookup h).getD []).contains b = true ↔ t.Holds h b := by
  rw [List.contains_iff_mem,Holds]
  cases found : t.map.lookup h <;> simp

-- Induction on the pairs: the ids still to come are none of those already written.
theorem Sound.insertBlocks_run (sound : t.Sound) (aligned : hashes.length = ids.length) (distinct : ids.Nodup)
    (bound : ∀ b ∈ ids, b < t.blockToHash.length) (placed : t.Placed hashes ids) :
    ∃ t', t.insertBlocks hashes ids = some (t',(t.newPairs hashes ids).length) ∧
      t.insertBlocksDebug hashes ids = t.insertBlocks hashes ids ∧ t'.Sound ∧ t'.blockToHash.length = t.blockToHash.length := by
  induction hashes generalizing t ids with
  | nil => exact ⟨t,rfl,rfl,sound,rfl⟩
  | cons h hashes ih =>
    cases ids with
    | nil => cases aligned
    | cons bid ids =>
      obtain ⟨fresh,distinct⟩ := List.nodup_cons.mp distinct
      have here := placed 0 bid h rfl rfl
      have inside := bound bid List.mem_cons_self
      obtain ⟨⟨u,n⟩,first⟩ := insertBlock_total (h := h) inside
      obtain ⟨sound',size,_,holds⟩ := sound.insertBlock here first
      have differs : ∀ b ∈ ids, b ≠ bid := fun b member same => fresh (same ▸ member)
      obtain ⟨t',rest,debug,sound'',size'⟩ := ih sound' (Nat.succ.inj aligned) distinct
        (fun b member => size ▸ bound b (List.mem_cons_of_mem _ member)) fun i b k named hashed => by
          rw [tracked_other sound sound' holds (differs b (List.mem_of_getElem? named))]
          exact placed (i+1) b k named hashed
      have later : u.newPairs hashes ids = t.newPairs hashes ids := by
        refine List.filter_congr fun pair member => ?_
        have other := differs pair.2 (List.of_mem_zip member).2
        rw [Bool.not_inj_iff,Bool.eq_iff_iff,contains_row,contains_row,holds]
        simp [other]
      have count : (t.newPairs (h::hashes) (bid::ids)).length = n+(u.newPairs hashes ids).length := by
        rw [later,insertBlock_count first,newPairs,List.zip_cons_cons,List.filter_cons]
        cases ((t.map.lookup h).getD []).contains bid with
        | false => exact Nat.add_comm _ 1
        | true => exact (Nat.zero_add _).symm
      have whole : t.insertBlocks (h::hashes) (bid::ids) = some (t',n+(u.newPairs hashes ids).length) := by
        simp only [insertBlocks,first,rest,Option.bind_eq_bind,Option.bind_some,Option.pure_def]
      refine ⟨t',by rw [whole,count],?_,sound'',size'.trans size⟩
      rw [whole,insertBlocksDebug,insertBlockDebug,if_pos (sound.insertBlock_asserts inside here),first]
      simp only [Option.bind_eq_bind,Option.bind_some,debug,rest,Option.pure_def]

theorem Sound.insert_run (sound : t.Sound) (aligned : hashes.length = ids.length) (distinct : ids.Nodup)
    (bound : ∀ b ∈ ids, b < t.blockToHash.length) (placed : t.Placed hashes ids) :
    ∃ t', t.insert hashes ids = some (t',(t.newPairs hashes ids).length) ∧ t.insertDebug hashes ids = t.insert hashes ids ∧
      t'.Sound ∧ t'.blockToHash.length = t.blockToHash.length := by
  obtain ⟨u,result,debug,sound',size⟩ := sound.insertBlocks_run aligned distinct bound placed
  refine ⟨{u with epoch := u.epoch+1},?_,?_,⟨sound'.filled,sound'.reversed⟩,size⟩
  · simp only [insert,result,Option.bind_eq_bind,Option.bind_some,Option.pure_def]
  · simp only [insertDebug,insert,aligned,guard_true,debug,Option.bind_eq_bind,Option.pure_def,Option.bind_some]

theorem Sound.removeDebug_eq (sound : t.Sound) (bound : ∀ b ∈ ids, b < t.blockToHash.length) : t.removeDebug ids = t.remove ids := by
  suffices folded : ids.foldlM removeBlockDebug t = ids.foldlM HashTableBlockHash.removeBlock t by
    simp only [removeDebug,HashTableBlockHash.remove,folded]
  induction ids generalizing t with
  | nil => rfl
  | cons bid rest ih =>
    have inside := bound bid List.mem_cons_self
    rw [List.foldlM_cons,List.foldlM_cons,removeBlockDebug,if_pos (sound.removeBlock_asserts inside)]
    obtain ⟨u,first⟩ := sound.removeBlock_total inside
    obtain ⟨sound',size,_,_⟩ := sound.removeBlock first
    rw [first]
    exact ih sound' fun b member => size ▸ bound b (List.mem_cons_of_mem _ member)

end HashTableBlockHash

namespace Radix.Call
variable {t t' : HashTableBlockHash} {call : Call}

def applyDebug (t : HashTableBlockHash) : Call → Option HashTableBlockHash
  | .insert hashes bids => (t.insertDebug hashes bids).map Prod.fst
  | .remove bids => t.removeDebug bids
  | .get _ => some t

-- A call as the scheduler may make it.
def Proper (t : HashTableBlockHash) : Call → Prop
  | .insert hashes bids => hashes.length = bids.length ∧ bids.Nodup ∧ (∀ b ∈ bids, b < t.blockToHash.length) ∧ t.Placed hashes bids
  | .remove bids => ∀ b ∈ bids, b < t.blockToHash.length
  | .get _ => True

theorem Proper.step (proper : call.Proper t) (sound : t.Sound) :
    ∃ t', call.apply t = some t' ∧ call.applyDebug t = some t' ∧ t'.Sound := by
  cases call with
  | insert hashes bids =>
    obtain ⟨aligned,distinct,bound,placed⟩ := proper
    obtain ⟨t',result,debug,sound',_⟩ := sound.insert_run aligned distinct bound placed
    have step : BlockHash.insert t hashes bids = some (t',_) := result
    refine ⟨t',?_,?_,sound'⟩
    · rw [apply,step,Option.map_some]
    · rw [applyDebug,debug,result,Option.map_some]
  | remove bids =>
    obtain ⟨t',result⟩ := sound.remove_total proper
    exact ⟨t',result,(sound.removeDebug_eq proper).trans result,(sound.remove result).1⟩
  | get query => exact ⟨t,rfl,rfl,sound⟩

end Radix.Call

namespace HashTableBlockHash
variable {t t' : HashTableBlockHash}

def AllProper : HashTableBlockHash → List Call → Prop
  | _,[] => True
  | t,call::rest => call.Proper t ∧ ∀ t', call.apply t = some t' → AllProper t' rest

theorem Sound.run {early late : List Call} (sound : t.Sound) (proper : AllProper t (early++late)) :
    ∃ t', early.foldlM Call.apply t = some t' ∧ early.foldlM Call.applyDebug t = some t' ∧ t'.Sound := by
  induction early generalizing t with
  | nil => exact ⟨t,rfl,rfl,sound⟩
  | cons call early ih =>
    obtain ⟨u,step,debug,sound'⟩ := proper.1.step sound
    obtain ⟨t',ran,ranDebug,sound''⟩ := ih sound' (proper.2 u step)
    refine ⟨t',?_,?_,sound''⟩
    · rw [List.foldlM_cons,step]
      exact ran
    · rw [List.foldlM_cons,debug]
      exact ranDebug

-- After every call of a history: no branch marked unreachable was taken, no assertion
-- failed, the indexes are inverse, and a lookup counts the hashes still registered.
theorem index_consistent (numBlocks : Nat) (early late : List Call) (proper : AllProper (new numBlocks) (early++late)) :
    ∃ t, early.foldlM Call.applyDebug (new numBlocks) = some t ∧ early.foldlM Call.apply (new numBlocks) = some t ∧
      Consistent t ∧ ∀ query, t.get query = t.leading query := by
  obtain ⟨t,ran,debug,sound⟩ := (sound_new numBlocks).run proper
  exact ⟨t,debug,ran,sound.consistent,sound.get_leading⟩

-- One hash twice in one call, both ids given back in a list that repeats them.
theorem index_consistent_repeated : ∃ t,
    [.insert [6,6] [0,1],.remove [0,0,1]].foldlM Call.applyDebug (new 3) = some t ∧
      [.insert [6,6] [0,1],.remove [0,0,1]].foldlM Call.apply (new 3) = some t ∧ Consistent t ∧ ∀ query, t.get query = t.leading query := by
  refine index_consistent 3 [.insert [6,6] [0,1],.remove [0,0,1]] [] ⟨⟨rfl,by decide,by decide,?_⟩,fun t first => ⟨?_,fun _ _ => trivial⟩⟩
  · intro i b h named _
    exact .inl ((by decide : ∀ b ∈ [0,1], (new 3).tracked b = none) b (List.mem_of_getElem? named))
  · have blocks : (Call.apply (new 3) (.insert [6,6] [0,1])).map (fun t => t.blockToHash.length) = some 3 := by decide
    rw [first,Option.map_some,Option.some.injEq] at blocks
    change ∀ b ∈ [0,0,1], b < t.blockToHash.length
    rw [blocks]
    decide

end HashTableBlockHash
end BlitzRouter
