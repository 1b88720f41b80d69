import BlitzRouter.BackendAgreement
import BlitzRouter.HashTableIndex
import BlitzRouter.RadixSize

namespace BlitzRouter
open Radix PrefixTrie HashTableBlockHash

variable {family : Set (List Hash)} {T : Trie Hash BlockId} {tree : RadixTreeBlockHash} {table table' : HashTableBlockHash}
  {hashes : List Hash} {bids : List BlockId}

namespace Radix.Call

-- Both count the pairs an insertion is the first to register.
def Alike (tree : RadixTreeBlockHash) (table : HashTableBlockHash) : Call → Prop
  | .insert hashes bids => (tree.insert hashes bids).map Prod.snd = some (table.newPairs hashes bids).length ∧
      (table.insert hashes bids).map Prod.snd = some (table.newPairs hashes bids).length
  | _ => True

end Radix.Call

-- A history made on both of them, one call after the other.
def AllAlike : RadixTreeBlockHash → HashTableBlockHash → List Call → Prop
  | _,_,[] => True
  | tree,table,call::rest => call.Alike tree table ∧
      ∀ tree' table', call.apply tree = some tree' → call.apply table = some table' → AllAlike tree' table' rest

-- A pair that fits is new when its id has no hash yet.
theorem newPairs_length (sound : table.Sound) (aligned : hashes.length = bids.length) (placed : table.Placed hashes bids) :
    (table.newPairs hashes bids).length = (bids.filter fun b => table.tracked b = none).length := by
  have same : table.newPairs hashes bids = (hashes.zip bids).filter ((fun b => decide (table.tracked b = none)) ∘ Prod.snd) := by
    refine List.filter_congr fun pair member => ?_
    obtain ⟨i,found⟩ := List.mem_iff_getElem?.mp member
    obtain ⟨hashed,named⟩ := List.getElem?_zip_eq_some.mp found
    have row := (contains_row table pair.1 pair.2).trans (sound.reversed pair.1 pair.2)
    rcases placed i pair.2 pair.1 named hashed with fresh | here
    · have absent : ((table.map.lookup pair.1).getD []).contains pair.2 = false := by
        rw [← Bool.not_eq_true,row,fresh]
        exact Option.some_ne_none _ |>.symm
      rw [absent]
      simp [fresh]
    · rw [row.mpr here]
      simp [here]
  rw [same,← List.length_map Prod.snd,← List.filter_map,← List.unzip_snd,List.unzip_zip aligned]

namespace Agreeing

theorem tracked_none (agreeing : Agreeing family tree T table) (b : BlockId) : table.tracked b = none ↔ tree.slot b = none := by
  obtain ⟨pre,standing⟩ := agreeing.refines
  have known : (∃ h, table.tracked b = some h) ↔ Registered T b := by
    constructor
    · rintro ⟨h,found⟩
      obtain ⟨path,_,member⟩ := (agreeing.coupled.held h b).mp ((agreeing.sound.reversed h b).mpr found)
      exact ⟨path,member⟩
    · rintro ⟨path,member⟩
      obtain ⟨h,last⟩ := Option.isSome_iff_exists.mp (List.getLast?_isSome.mpr (agreeing.coupled.placed path b member).1)
      exact ⟨h,(agreeing.sound.reversed h b).mp ((agreeing.coupled.held h b).mpr ⟨path,last,member⟩)⟩
  rw [← not_iff_not,← standing.unregistered,not_not,← known]
  exact Option.ne_none_iff_exists'

-- The table counts what is new. The tree counts what lies past the matched prefix,
-- and an id it takes up as an alias does not.
theorem insert_alike (agreeing : Agreeing family tree T table) (chained : Chained family)
    (fits : (Call.insert hashes bids).Fits family table) (result : (Call.insert hashes bids).apply table = some table') :
    (Call.insert hashes bids).Alike tree table ↔ (Call.insert hashes bids).NoAlias tree := by
  obtain ⟨inside,aligned,distinct,placed⟩ := fits
  have legal := agreeing.coupled.insertable chained agreeing.sound inside aligned distinct placed
  obtain ⟨⟨u,n⟩,inserted,_⟩ := Option.map_eq_some_iff.mp result
  change table.insert hashes bids = some (u,n) at inserted
  have bound : ∀ b ∈ bids, b < table.blockToHash.length := by
    simp only [HashTableBlockHash.insert,Option.bind_eq_bind,Option.bind_eq_some_iff] at inserted
    obtain ⟨⟨last,m⟩,blocks,_⟩ := inserted
    exact (agreeing.coupled.insertBlocks agreeing.sound legal inside (List.prefix_refl _) blocks).2.2.2
  obtain ⟨table₁,counted,_,_,_⟩ := agreeing.sound.insert_run aligned distinct bound placed
  obtain ⟨tree₁,grown,_,_⟩ := agreeing.refines.insert_spec legal (agreeing.blocks ▸ bound)
  have pairs := newPairs_length agreeing.sound aligned placed
  simp only [agreeing.tracked_none] at pairs
  obtain ⟨pre,standing⟩ := agreeing.refines
  have unknown := standing.unknown_count legal
  rw [standing.noAlias_iff,Call.Alike,counted,grown]
  simp only [Option.map_some,Option.some.injEq,and_true]
  omega

theorem alike_iff {calls : List Call} (agreeing : Agreeing family tree T table) (chained : Chained family)
    (fitting : Fitting family table calls) (applied : calls.foldlM Call.apply table = some table') :
    AllAlike tree table calls ↔ Along Call.NoAlias tree calls := by
  induction calls generalizing tree T table with
  | nil => exact Iff.rfl
  | cons call rest ih =>
    simp only [List.foldlM_cons,Option.bind_eq_bind,Option.bind_eq_some_iff] at applied
    obtain ⟨next,first,applied⟩ := applied
    obtain ⟨⟨tree₁,T₁,step,agreeing₁⟩,_⟩ := agreeing.step chained fitting.1 first
    have here : call.Alike tree table ↔ call.NoAlias tree := by
      cases call with
      | insert hashes bids => exact agreeing.insert_alike chained fitting.1 first
      | remove bids => exact Iff.rfl
      | get query => exact Iff.rfl
    have later := ih agreeing₁ (fitting.2 next first) applied
    refine and_congr here ⟨fun alike u reached => ?_,fun along u v reached also => ?_⟩
    · cases Option.some.inj (step.symm.trans reached)
      exact later.mp (alike tree₁ next step first)
    · cases Option.some.inj (step.symm.trans reached)
      cases Option.some.inj (first.symm.trans also)
      exact later.mpr (along tree₁ step)

end Agreeing

-- The back ends count a history of insertions alike exactly when no insertion brings
-- an unregistered id for a hash of its cached prefix.
theorem insert_counts_iff (numBlocks : Nat) (family : Set (List Hash)) (chained : Chained family) (calls : List Call)
    (fitting : Fitting family (HashTableBlockHash.new numBlocks) calls) (table : HashTableBlockHash)
    (applied : calls.foldlM Call.apply (HashTableBlockHash.new numBlocks) = some table) :
    AllAlike (RadixTreeBlockHash.new numBlocks) (HashTableBlockHash.new numBlocks) calls ↔
      Along Call.NoAlias (RadixTreeBlockHash.new numBlocks) calls :=
  (Agreeing.new family numBlocks).alike_iff chained fitting applied

theorem chained_single (h : Hash) : Chained {[h]} := by
  intro s inside s' within i j k one two
  cases inside
  cases within
  obtain rfl : 0 = i := by
    have bound := (List.getElem?_eq_some_iff.mp one).1
    rw [List.length_singleton] at bound
    omega
  obtain rfl : 0 = j := by
    have bound := (List.getElem?_eq_some_iff.mp two).1
    rw [List.length_singleton] at bound
    omega
  rfl

theorem fitting_second : Fitting {[7]} (HashTableBlockHash.new 2) [.insert [7] [0],.insert [7] [1]] := by
  refine ⟨⟨rfl,rfl,by decide,?_⟩,fun t first => ⟨⟨rfl,rfl,by decide,?_⟩,fun _ _ => trivial⟩⟩
  · intro i b h named _
    exact .inl ((by decide : ∀ b ∈ [0], (HashTableBlockHash.new 2).tracked b = none) b (List.mem_of_getElem? named))
  · intro i b h named _
    have free : (Call.apply (HashTableBlockHash.new 2) (.insert [7] [0])).map (fun t => t.tracked 1) = some none := by decide
    rw [first,Option.map_some,Option.some.injEq] at free
    obtain rfl := List.mem_singleton.mp (List.mem_of_getElem? named)
    exact .inl free

theorem insert_counts_iff_second : ∃ table, [.insert [7] [0],.insert [7] [1]].foldlM Call.apply (HashTableBlockHash.new 2) = some table ∧
    (AllAlike (RadixTreeBlockHash.new 2) (HashTableBlockHash.new 2) [.insert [7] [0],.insert [7] [1]] ↔
      Along Call.NoAlias (RadixTreeBlockHash.new 2) [.insert [7] [0],.insert [7] [1]]) := by
  obtain ⟨table,applied⟩ := (Agreeing.new {[7]} 2).applied (chained_single 7) fitting_second (by decide)
  exact ⟨table,applied,insert_counts_iff 2 {[7]} (chained_single 7) _ fitting_second table applied⟩

-- The second id of a cached hash: the table counts it and the tree does not.
theorem second_id_uncounted : Chained {[7]} ∧ Fitting {[7]} (HashTableBlockHash.new 2) [.insert [7] [0],.insert [7] [1]] ∧
    ¬AllAlike (RadixTreeBlockHash.new 2) (HashTableBlockHash.new 2) [.insert [7] [0],.insert [7] [1]] := by
  refine ⟨chained_single 7,fitting_second,fun alike => ?_⟩
  have trees : ((Call.apply (RadixTreeBlockHash.new 2) (.insert [7] [0])).bind fun t => (t.insert [7] [1]).map Prod.snd) = some 0 := by decide
  have tables : ((Call.apply (HashTableBlockHash.new 2) (.insert [7] [0])).bind fun t => (t.insert [7] [1]).map Prod.snd) = some 1 := by decide
  obtain ⟨tree,first,zero⟩ := Option.bind_eq_some_iff.mp trees
  obtain ⟨table,second,one⟩ := Option.bind_eq_some_iff.mp tables
  obtain ⟨left,right⟩ := (alike.2 tree table first second).1
  rw [zero,← right,one] at left
  cases left

end BlitzRouter
