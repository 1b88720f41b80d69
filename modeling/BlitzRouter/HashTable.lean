import BlitzRouter.RadixCore
import BlitzRouter.Ledger

namespace BlitzRouter
open Radix

-- The other prefix matcher a build can select: one row a hash, whatever its prefix.
-- It counts its writes as the radix tree does, without the end of a `u64`.
structure HashTableBlockHash where
  map : Table Hash (List BlockId)
  blockToHash : List (Option Hash)
  epoch : Nat

namespace HashTableBlockHash

def new (numBlocks : Nat) : HashTableBlockHash := ⟨∅,List.replicate numBlocks none,0⟩

def len (t : HashTableBlockHash) : Nat := t.map.entries.length

def isEmpty (t : HashTableBlockHash) : Bool := t.map.entries.isEmpty

-- `block_to_hash[bid] = Some(h)`
def track (t : HashTableBlockHash) (h : Hash) (bid : BlockId) : Option (List (Option Hash)) :=
  if bid < t.blockToHash.length then some (t.blockToHash.set bid (some h)) else none

-- Release semantics: only a debug build looks at the hash an id had before.
def insertBlock (t : HashTableBlockHash) (h : Hash) (bid : BlockId) : Option (HashTableBlockHash × Nat) :=
  match t.map.lookup h with
  | some bids =>
    if bids.contains bid then some (t,0)
    else do
      let blockToHash ← t.track h bid
      return ({t with map := t.map.insert h (bids++[bid]),blockToHash := blockToHash},1)
  | none => do
    let blockToHash ← t.track h bid
    return ({t with map := t.map.insert h [bid],blockToHash := blockToHash},1)

def insertBlocks (t : HashTableBlockHash) : List Hash → List BlockId → Option (HashTableBlockHash × Nat)
  | h::hashes,bid::bids => do
    let (t,n) ← t.insertBlock h bid
    let (t,more) ← insertBlocks t hashes bids
    return (t,n+more)
  | _,_ => some (t,0)

def insert (t : HashTableBlockHash) (blockHashes : List Hash) (blockIndices : List BlockId) : Option (HashTableBlockHash × Nat) := do
  let (t,n) ← t.insertBlocks blockHashes blockIndices
  return ({t with epoch := t.epoch+1},n)

def get (t : HashTableBlockHash) : List Hash → Nat
  | [] => 0
  | h::rest => if (t.map.lookup h).isSome then get t rest+1 else 0

-- `unreachable!` when the row of the hash does not name the id.
def removeBlock (t : HashTableBlockHash) (bid : BlockId) : Option HashTableBlockHash := do
  let slot ← t.blockToHash[bid]?
  let taken := {t with blockToHash := t.blockToHash.set bid none}
  match slot with
  | none => return taken
  | some h =>
    match t.map.lookup h with
    | none => return taken
    | some bids =>
      if bids.contains bid then
        let kept := bids.erase bid
        return {taken with map := if kept.isEmpty then t.map.erase h else t.map.insert h kept}
      else none

def remove (t : HashTableBlockHash) (blockIndices : List BlockId) : Option HashTableBlockHash := do
  let t ← blockIndices.foldlM removeBlock t
  return {t with epoch := t.epoch+1}

end HashTableBlockHash

instance : BlockHash HashTableBlockHash where
  new := HashTableBlockHash.new
  len := HashTableBlockHash.len
  isEmpty := HashTableBlockHash.isEmpty
  insert := HashTableBlockHash.insert
  get := fun t query => some (t.get query)
  remove := HashTableBlockHash.remove
  epoch := fun t => t.epoch

namespace HashTableBlockHash
variable {t t' : HashTableBlockHash} {h : Hash} {bid : BlockId} {n : Nat}

def Holds (t : HashTableBlockHash) (h : Hash) (bid : BlockId) : Prop := ∃ bids, t.map.lookup h = some bids ∧ bid ∈ bids

def tracked (t : HashTableBlockHash) (bid : BlockId) : Option Hash := t.blockToHash[bid]?.join

-- Rows are not empty, name an id once, and the reverse index is theirs.
structure Sound (t : HashTableBlockHash) : Prop where
  filled : ∀ h bids, t.map.lookup h = some bids → bids ≠ [] ∧ bids.Nodup
  reversed : ∀ h bid, t.Holds h bid ↔ t.tracked bid = some h

theorem sound_new (numBlocks : Nat) : Sound (new numBlocks) := by
  refine ⟨fun h bids found => ?_,fun h bid => ?_⟩
  · cases found
  · constructor
    · rintro ⟨bids,found,_⟩
      cases found
    · intro found
      simp only [tracked,new,List.getElem?_replicate] at found
      split at found <;> cases found

theorem Sound.lookup_isSome (sound : t.Sound) (h : Hash) : (t.map.lookup h).isSome ↔ ∃ bid, t.Holds h bid := by
  constructor
  · intro known
    obtain ⟨bids,found⟩ := Option.isSome_iff_exists.mp known
    obtain ⟨bid,member⟩ := List.exists_mem_of_ne_nil _ (sound.filled h bids found).1
    exact ⟨bid,bids,found,member⟩
  · rintro ⟨bid,bids,found,_⟩
    rw [found]
    rfl

theorem Sound.held_bound (sound : t.Sound) (held : t.Holds h bid) : bid < t.blockToHash.length := by
  have known := (sound.reversed h bid).mp held
  apply Classical.byContradiction
  intro beyond
  rw [tracked,List.getElem?_eq_none (Nat.le_of_not_gt beyond)] at known
  cases known

theorem tracked_set (bound : bid < t.blockToHash.length) (slot : Option Hash) (other : BlockId) :
    (t.blockToHash.set bid slot)[other]?.join = if other = bid then slot else t.tracked other := by
  split
  · rename_i same
    rw [same,List.getElem?_set_self bound]
    rfl
  · rename_i differs
    rw [List.getElem?_set_ne (Ne.symm differs)]
    rfl

-- The id was new to every row: it joins the row of its hash and nothing else moves.
theorem Sound.grown {bids : List BlockId} {map : Table Hash (List BlockId)} (sound : t.Sound) (bound : bid < t.blockToHash.length)
    (fresh : t.tracked bid = none) (row : ∀ b, b ∈ bids ↔ t.Holds h b) (single : bids.Nodup)
    (written : map = t.map.insert h (bids++[bid])) (epoch : Nat) :
    Sound ⟨map,t.blockToHash.set bid (some h),epoch⟩ ∧
      ∀ k b, Holds ⟨map,t.blockToHash.set bid (some h),epoch⟩ k b ↔ t.Holds k b ∨ (k = h ∧ b = bid) := by
  subst written
  have absent : ∀ k, ¬t.Holds k bid := fun k held => by
    rw [(sound.reversed k bid).mp held] at fresh
    cases fresh
  have holds : ∀ k b, Holds ⟨t.map.insert h (bids++[bid]),t.blockToHash.set bid (some h),epoch⟩ k b ↔ t.Holds k b ∨ (k = h ∧ b = bid) := by
    intro k b
    by_cases here : k = h
    · subst here
      simp [Holds,AList.lookup_insert,List.mem_append,row]
    · simp [Holds,AList.lookup_insert_ne here,here]
  refine ⟨⟨fun k row' found => ?_,fun k b => ?_⟩,holds⟩
  · by_cases here : k = h
    · subst here
      change (t.map.insert k (bids++[bid])).lookup k = some row' at found
      rw [AList.lookup_insert] at found
      cases found
      refine ⟨by simp,List.nodup_append.mpr ⟨single,List.nodup_singleton _,?_⟩⟩
      rintro x inside y last rfl
      cases List.mem_singleton.mp last
      exact absent k ((row _).mp inside)
    · change (t.map.insert h (bids++[bid])).lookup k = some row' at found
      rw [AList.lookup_insert_ne here] at found
      exact sound.filled k row' found
  · rw [holds,sound.reversed]
    change _ ↔ (t.blockToHash.set bid (some h))[b]?.join = some k
    rw [tracked_set bound]
    split
    · rename_i same
      subst same
      constructor
      · rintro (held | ⟨rfl,_⟩)
        · rw [fresh] at held; cases held
        · rfl
      · intro equal
        exact .inr ⟨(Option.some.inj equal).symm,rfl⟩
    · rename_i differs
      simp [differs]

-- An id that is new, or sits in the row of this very hash, is in that row afterwards.
theorem Sound.insertBlock (sound : t.Sound) (placed : t.tracked bid = none ∨ t.tracked bid = some h)
    (result : t.insertBlock h bid = some (t',n)) :
    Sound t' ∧ t'.blockToHash.length = t.blockToHash.length ∧ bid < t.blockToHash.length ∧
      ∀ k b, t'.Holds k b ↔ t.Holds k b ∨ (k = h ∧ b = bid) := by
  have known : t.Holds h bid ∨ t.tracked bid = none := by
    rcases placed with fresh | here
    · exact .inr fresh
    · exact .inl ((sound.reversed h bid).mpr here)
  unfold HashTableBlockHash.insertBlock track at result
  cases found : t.map.lookup h with
  | some bids =>
    simp only [found] at result
    have row : ∀ b, b ∈ bids ↔ t.Holds h b := fun b => by simp [Holds,found]
    split at result
    · rename_i inside
      cases result
      have held : t.Holds h bid := (row bid).mp (List.contains_iff_mem.mp inside)
      refine ⟨sound,rfl,sound.held_bound held,fun k b => ⟨.inl,?_⟩⟩
      rintro (old | ⟨rfl,rfl⟩)
      · exact old
      · exact held
    · rename_i outside
      have fresh : t.tracked bid = none := known.resolve_left fun held => outside (List.contains_iff_mem.mpr ((row bid).mpr held))
      simp only [Option.bind_eq_bind,Option.bind_eq_some_iff,Option.pure_def,Option.some.injEq,Prod.mk.injEq] at result
      obtain ⟨index,tracked,rfl,_⟩ := result
      split at tracked
      · rename_i bound
        cases tracked
        obtain ⟨sound',holds⟩ := sound.grown bound fresh row (sound.filled h bids found).2 rfl t.epoch
        exact ⟨sound',List.length_set,bound,holds⟩
      · cases tracked
  | none =>
    simp only [found,Option.bind_eq_bind,Option.bind_eq_some_iff,Option.pure_def,Option.some.injEq,Prod.mk.injEq] at result
    have row : ∀ b, b ∈ ([] : List BlockId) ↔ t.Holds h b := fun b => by simp [Holds,found]
    have fresh : t.tracked bid = none := known.resolve_left fun held => List.not_mem_nil ((row bid).mpr held)
    obtain ⟨index,tracked,rfl,_⟩ := result
    split at tracked
    · rename_i bound
      cases tracked
      obtain ⟨sound',holds⟩ := sound.grown bound fresh row List.nodup_nil rfl t.epoch
      exact ⟨sound',List.length_set,bound,holds⟩
    · cases tracked

theorem Sound.removeBlock (sound : t.Sound) (result : t.removeBlock bid = some t') :
    Sound t' ∧ t'.blockToHash.length = t.blockToHash.length ∧ bid < t.blockToHash.length ∧
      ∀ k b, t'.Holds k b ↔ t.Holds k b ∧ b ≠ bid := by
  simp only [HashTableBlockHash.removeBlock,Option.bind_eq_bind,Option.bind_eq_some_iff] at result
  obtain ⟨slot,cell,result⟩ := result
  have bound : bid < t.blockToHash.length := (List.getElem?_eq_some_iff.mp cell).1
  have here : t.tracked bid = slot := by rw [tracked,cell]; rfl
  -- what every outcome shares: the id is in no row any more, the other rows are as they were
  have finish : ∀ map : Table Hash (List BlockId), (∀ k row, map.lookup k = some row → row ≠ [] ∧ row.Nodup) →
      (∀ k b, (∃ row, map.lookup k = some row ∧ b ∈ row) ↔ t.Holds k b ∧ b ≠ bid) →
      t' = ⟨map,t.blockToHash.set bid none,t.epoch⟩ → Sound t' ∧ t'.blockToHash.length = t.blockToHash.length ∧
        bid < t.blockToHash.length ∧ ∀ k b, t'.Holds k b ↔ t.Holds k b ∧ b ≠ bid := by
    rintro map filled holds rfl
    refine ⟨⟨filled,fun k b => ?_⟩,List.length_set,bound,holds⟩
    rw [show Holds ⟨map,t.blockToHash.set bid none,t.epoch⟩ k b ↔ _ from holds k b,sound.reversed]
    change _ ↔ (t.blockToHash.set bid none)[b]?.join = some k
    rw [tracked_set bound]
    split
    · rename_i same
      simp [same]
    · rename_i differs
      simp [differs]
  have unheld : (∀ k, t.tracked bid = some k → t.map.lookup k = none) → ∀ k b, t.Holds k b ↔ t.Holds k b ∧ b ≠ bid := by
    intro missing k b
    refine ⟨fun held => ⟨held,?_⟩,fun held => held.1⟩
    rintro rfl
    have lost := missing k ((sound.reversed k b).mp held)
    obtain ⟨row,found,_⟩ := held
    rw [lost] at found
    cases found
  cases slot with
  | none =>
    cases result
    exact finish t.map sound.filled (unheld fun k known => by rw [here] at known; cases known) rfl
  | some h =>
    simp only at result
    cases found : t.map.lookup h with
    | none =>
      simp only [found] at result
      cases result
      refine finish t.map sound.filled (unheld fun k known => ?_) rfl
      rw [here] at known
      cases known
      exact found
    | some bids =>
      simp only [found] at result
      obtain ⟨filled,single⟩ := sound.filled h bids found
      have elsewhere : ∀ k, k ≠ h → ∀ b, t.Holds k b → b ≠ bid := by
        rintro k differs b held rfl
        have known := (sound.reversed k b).mp held
        rw [here] at known
        exact differs (Option.some.inj known).symm
      split at result
      · cases result
        refine finish _ ?_ ?_ rfl
        · intro k row kept
          split at kept
          · by_cases same : k = h
            · subst same
              rw [AList.lookup_erase] at kept
              cases kept
            · rw [AList.lookup_erase_ne same] at kept
              exact sound.filled k row kept
          · rename_i more
            by_cases same : k = h
            · subst same
              rw [AList.lookup_insert] at kept
              cases kept
              exact ⟨fun empty => more (by rw [empty]; rfl),single.erase bid⟩
            · rw [AList.lookup_insert_ne same] at kept
              exact sound.filled k row kept
        · intro k b
          by_cases same : k = h
          · subst same
            have member : b ∈ bids.erase bid ↔ t.Holds k b ∧ b ≠ bid := by
              rw [single.mem_erase_iff]
              simp [Holds,found,and_comm]
            rw [← member]
            split
            · rename_i empty
              rw [List.isEmpty_iff.mp empty]
              simp [AList.lookup_erase]
            · simp [AList.lookup_insert]
          · have kept : (if (bids.erase bid).isEmpty then t.map.erase h else t.map.insert h (bids.erase bid)).lookup k = t.map.lookup k := by
              split
              · exact AList.lookup_erase_ne same
              · exact AList.lookup_insert_ne same
            rw [kept]
            exact ⟨fun held => ⟨held,elsewhere k same b held⟩,fun held => held.1⟩
      · cases result

theorem Sound.remove {bids : List BlockId} (sound : t.Sound) (result : t.remove bids = some t') :
    Sound t' ∧ t'.blockToHash.length = t.blockToHash.length ∧ (∀ b ∈ bids, b < t.blockToHash.length) ∧
      ∀ k b, t'.Holds k b ↔ t.Holds k b ∧ b ∉ bids := by
  simp only [HashTableBlockHash.remove,Option.bind_eq_bind,Option.bind_eq_some_iff,Option.pure_def,Option.some.injEq] at result
  obtain ⟨last,folded,rfl⟩ := result
  suffices all : Sound last ∧ last.blockToHash.length = t.blockToHash.length ∧ (∀ b ∈ bids, b < t.blockToHash.length) ∧
      ∀ k b, last.Holds k b ↔ t.Holds k b ∧ b ∉ bids from ⟨⟨all.1.filled,all.1.reversed⟩,all.2⟩
  induction bids generalizing t with
  | nil =>
    cases folded
    simp [sound]
  | cons bid rest ih =>
    simp only [List.foldlM_cons,Option.bind_eq_bind,Option.bind_eq_some_iff] at folded
    obtain ⟨u,first,folded⟩ := folded
    obtain ⟨sound₁,size₁,bound,holds₁⟩ := sound.removeBlock first
    obtain ⟨sound₂,size₂,bounds,holds₂⟩ := ih sound₁ folded
    refine ⟨sound₂,size₂.trans size₁,?_,fun k b => ?_⟩
    · intro b member
      rcases List.mem_cons.mp member with rfl | later
      · exact bound
      · exact size₁ ▸ bounds b later
    · rw [holds₂,holds₁,List.mem_cons,not_or]
      exact and_assoc

theorem insertBlock_total (bound : bid < t.blockToHash.length) : ∃ result, t.insertBlock h bid = some result := by
  unfold HashTableBlockHash.insertBlock track
  rw [if_pos bound]
  cases t.map.lookup h with
  | none => exact ⟨_,rfl⟩
  | some bids =>
    simp only
    split
    · exact ⟨_,rfl⟩
    · exact ⟨_,rfl⟩

theorem insertBlock_length (result : t.insertBlock h bid = some (t',n)) : t'.blockToHash.length = t.blockToHash.length := by
  unfold HashTableBlockHash.insertBlock track at result
  split at result
  · split at result
    · cases result
      rfl
    · split at result
      · cases result
        exact List.length_set
      · cases result
  · split at result
    · cases result
      exact List.length_set
    · cases result

theorem insert_total (hashes : List Hash) {bids : List BlockId} (bound : ∀ b ∈ bids, b < t.blockToHash.length) :
    ∃ result, t.insert hashes bids = some result := by
  suffices all : ∃ result, t.insertBlocks hashes bids = some result by
    obtain ⟨⟨last,n⟩,all⟩ := all
    exact ⟨({last with epoch := last.epoch+1},n),by simp [HashTableBlockHash.insert,all]⟩
  induction hashes generalizing t bids with
  | nil => exact ⟨_,rfl⟩
  | cons h hashes ih =>
    cases bids with
    | nil => exact ⟨_,rfl⟩
    | cons bid bids =>
      obtain ⟨⟨u,n⟩,first⟩ := insertBlock_total (h := h) (bound bid List.mem_cons_self)
      have size := insertBlock_length first
      obtain ⟨⟨last,m⟩,rest⟩ := ih fun b member => size ▸ bound b (List.mem_cons_of_mem _ member)
      exact ⟨(last,n+m),by simp [insertBlocks,first,rest]⟩

-- A tracked id is in the row of its hash, so the arm marked unreachable is not taken.
theorem Sound.removeBlock_total (sound : t.Sound) (bound : bid < t.blockToHash.length) : ∃ t', t.removeBlock bid = some t' := by
  have cell : t.blockToHash[bid]? = some (t.tracked bid) := by
    rw [tracked,List.getElem?_eq_getElem bound]
    rfl
  unfold HashTableBlockHash.removeBlock
  simp only [cell,Option.bind_eq_bind,Option.bind_some]
  cases known : t.tracked bid with
  | none => exact ⟨_,rfl⟩
  | some h =>
    obtain ⟨bids,found,member⟩ := (sound.reversed h bid).mpr known
    simp only [found,List.contains_iff_mem.mpr member,if_true]
    exact ⟨_,rfl⟩

theorem Sound.remove_total {bids : List BlockId} (sound : t.Sound) (bound : ∀ b ∈ bids, b < t.blockToHash.length) :
    ∃ t', t.remove bids = some t' := by
  suffices folded : ∃ t', bids.foldlM HashTableBlockHash.removeBlock t = some t' by
    obtain ⟨last,folded⟩ := folded
    exact ⟨{last with epoch := last.epoch+1},by simp [HashTableBlockHash.remove,folded]⟩
  induction bids generalizing t with
  | nil => exact ⟨t,rfl⟩
  | cons bid rest ih =>
    obtain ⟨u,first⟩ := sound.removeBlock_total (bound bid List.mem_cons_self)
    obtain ⟨sound',size,_,_⟩ := sound.removeBlock first
    obtain ⟨last,folded⟩ := ih sound' fun b member => size ▸ bound b (List.mem_cons_of_mem _ member)
    exact ⟨last,by rw [List.foldlM_cons,first]; exact folded⟩

-- The count stops at the first hash without a row.
theorem get_le (t : HashTableBlockHash) (query : List Hash) : t.get query ≤ query.length := by
  induction query with
  | nil => exact Nat.le_refl _
  | cons h rest ih =>
    unfold get
    split
    · exact Nat.succ_le_succ ih
    · exact Nat.zero_le _

theorem get_spec (t : HashTableBlockHash) (query : List Hash) :
    (∀ (i : Nat) h, i < t.get query → query[i]? = some h → (t.map.lookup h).isSome) ∧
      ∀ h, query[t.get query]? = some h → t.map.lookup h = none := by
  induction query with
  | nil => exact ⟨fun i h less => absurd less (Nat.not_lt_zero i),fun h found => by cases found⟩
  | cons first rest ih =>
    unfold get
    split
    · rename_i known
      refine ⟨fun i h less found => ?_,fun h found => ih.2 h (by simpa using found)⟩
      cases i with
      | zero =>
        cases found
        exact known
      | succ i => exact ih.1 i h (Nat.lt_of_succ_lt_succ less) (by simpa using found)
    · rename_i unknown
      refine ⟨fun i h less => absurd less (Nat.not_lt_zero i),fun h found => ?_⟩
      cases found
      simpa using unknown

end HashTableBlockHash
end BlitzRouter
