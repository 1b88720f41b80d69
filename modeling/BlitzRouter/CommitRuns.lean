import BlitzRouter.BackendAgreement
import BlitzRouter.CompletionBlocks

namespace BlitzRouter
open Radix PrefixTrie

-- One chunk of blocks that a step reports committed, as it reaches the block
-- hash: `begin` is its place in the chain of the request.
structure Commit where
  requestId : RequestId
  begin : Nat
  hashes : List Hash
  bids : List BlockId
deriving DecidableEq,Repr

namespace CompletionLoop

section Found
variable {s : CompletionLoop} {rid : RequestId} {entry new : Entry}

theorem find_replaceFirst (new : Entry) (rows : List (RequestId × Entry)) (key : RequestId)
    (found : (rows.find? fun row => row.1 == rid).map Prod.snd = some entry) :
    ((replaceFirst rid new rows).find? fun row => row.1 == key).map Prod.snd =
      if key = rid then some new else (rows.find? fun row => row.1 == key).map Prod.snd := by
  induction rows with
  | nil => cases found
  | cons row rest ih =>
    unfold replaceFirst
    by_cases here : row.1 = rid
    · rw [if_pos here]
      by_cases same : key = rid
      · simp [same,here]
      · have differs : (row.1 == key) = false := by simpa [here] using Ne.symm same
        simp [same,differs]
    · rw [if_neg here]
      rw [List.find?_cons_of_neg (by simpa using here)] at found
      by_cases same : row.1 = key
      · have other : key ≠ rid := same ▸ here
        simp [same,other]
      · have differs : (row.1 == key) = false := by simpa using same
        simp only [List.find?_cons,differs]
        exact ih found

theorem findBlocks_storeBlocks (found : s.findBlocks rid = some entry) (key : RequestId) :
    (s.storeBlocks rid new).findBlocks key = if key = rid then some new else s.findBlocks key := by
  cases tracked : s.find rid with
  | some held =>
    simp only [storeBlocks,tracked,Option.isSome_some,if_true]
    by_cases same : key = rid
    · subst same
      simp [findBlocks,find_store]
    · simp [findBlocks,find_store_ne same,same]
  | none =>
    rw [findBlocks_leaving tracked] at found
    simp only [storeBlocks,tracked,Option.isSome_none,Bool.false_eq_true,if_false]
    have rows := find_replaceFirst new s.tempLeavingEntries key found
    by_cases same : key = rid
    · subst same
      rw [if_pos rfl] at rows ⊢
      simp only [findBlocks]
      rw [show CompletionLoop.find {s with tempLeavingEntries := replaceFirst key new s.tempLeavingEntries} key = none from tracked,
        Option.none_or]
      exact rows
    · rw [if_neg same] at rows ⊢
      simp only [findBlocks,rows]
      rfl

end Found
-- The chunks that `insertNewBlocks` reads off the entries, row by row.
def commits (s : CompletionLoop) : List (RequestId × List BlockId) → List Commit
  | [] => []
  | (rid,blockIndices)::rest =>
    if blockIndices.isEmpty then commits s rest
    else
      match s.findBlocks rid with
      | none => []
      | some entry =>
        match entry.blockHashState.getOntoHashes blockIndices with
        | some (.ok (state,ontoHashes)) =>
          ⟨rid,state.syncNblks-blockIndices.length,ontoHashes,blockIndices⟩::
            commits (s.storeBlocks rid {entry with blockHashState := state}) rest
        | _ => []

-- The chunks of one run of the section.
def commitsOf (s : CompletionLoop) (m : EngineStepOutput) : List Commit :=
  match s.setCurUsed m.curUsedBlockIds with
  | .ok s => s.commits m.newBlockHashesIds
  | .error _ => []

-- One block hash through the sections of a run; what the entries are at each of
-- them is the other steps' business.
def cacheUpdates {β : Type} [BlockHash β] : β → List (CompletionLoop × EngineStepOutput) → Except Panic β
  | blockHash,[] => .ok blockHash
  | blockHash,(s,m)::rest => do
    let (_,blockHash) ← s.cacheUpdate blockHash m
    cacheUpdates blockHash rest

def committed (sections : List (CompletionLoop × EngineStepOutput)) : List Commit := sections.flatMap fun section_ => section_.1.commitsOf section_.2

-- Every tracked chain is the beginning of the chain of its request.
def Follows (chain : RequestId → List Hash) (s : CompletionLoop) : Prop :=
  ∀ rid entry, s.findBlocks rid = some entry → entry.blockHashState.blockHashes <+: chain rid

end CompletionLoop

def Commit.Extracted (chain : RequestId → List Hash) (c : Commit) : Prop :=
  c.bids ≠ [] ∧ c.begin+c.bids.length ≤ (chain c.requestId).length ∧ c.hashes = ((chain c.requestId).drop c.begin).take c.bids.length

theorem BlockHashState.getOntoHashes_slice {state next : BlockHashState} {bids : List BlockId} {hashes : List Hash}
    (found : state.getOntoHashes bids = some (.ok (next,hashes))) :
    next.blockHashes = state.blockHashes ∧ bids.length ≤ next.syncNblks ∧ next.syncNblks ≤ state.blockHashes.length ∧
      hashes = (state.blockHashes.drop (next.syncNblks-bids.length)).take bids.length := by
  obtain ⟨begin,_,part,rfl⟩ := getOntoHashes_found found
  obtain ⟨_,bound,rfl⟩ := slice_eq part
  refine ⟨rfl,Nat.le_add_left _ _,bound,?_⟩
  simp only [Nat.add_sub_cancel_left,Nat.add_sub_cancel]

-- The chunk stands where the synchronised count ends up, less its own length.
theorem BlockHashState.getOntoHashes_place {state next : BlockHashState} {bids : List BlockId} {hashes : List Hash}
    (found : state.getOntoHashes bids = some (.ok (next,hashes))) :
    next.blockIndices = state.blockIndices ∧ (state.blockIndices.drop (next.syncNblks-bids.length)).take bids.length = bids := by
  obtain ⟨begin,stands,_,rfl⟩ := getOntoHashes_found found
  exact ⟨rfl,by rwa [Nat.add_sub_cancel]⟩

namespace CompletionLoop
variable {chain : RequestId → List Hash} {s s' : CompletionLoop}

theorem Follows.storeBlocks {rid : RequestId} {entry : Entry} {state : BlockHashState} (follows : Follows chain s)
    (found : s.findBlocks rid = some entry) (same : state.blockHashes = entry.blockHashState.blockHashes) :
    Follows chain (s.storeBlocks rid {entry with blockHashState := state}) := by
  intro key held tracked
  rw [findBlocks_storeBlocks found] at tracked
  split at tracked
  · rename_i here
    cases tracked
    rw [here]
    exact same ▸ follows rid entry found
  · exact follows key held tracked

theorem Follows.setCurUsed {reports : List (RequestId × List BlockId)} (follows : Follows chain s) (result : s.setCurUsed reports = .ok s') :
    Follows chain s' :=
  setCurUsed_induct follows (fun _ _ _ _ _ _ before found equal => before.storeBlocks found (by rw [equal])) result

-- Each row that is processed gives one chunk of the chain of its request.
theorem Follows.extracted (follows : Follows chain s) (reports : List (RequestId × List BlockId)) :
    ∀ c ∈ s.commits reports, c.Extracted chain := by
  induction reports generalizing s with
  | nil => exact fun c member => absurd member List.not_mem_nil
  | cons report rest ih =>
    obtain ⟨rid,bids⟩ := report
    unfold commits
    split
    · exact ih follows
    · rename_i filled
      split
      · exact fun c member => absurd member List.not_mem_nil
      · rename_i entry found
        split
        · rename_i state hashes onto
          obtain ⟨same,short,bound,cut⟩ := BlockHashState.getOntoHashes_slice onto
          intro c member
          rcases List.mem_cons.mp member with rfl | later
          · obtain ⟨more,whole⟩ := follows rid entry found
            refine ⟨by simpa using filled,?_,?_⟩
            · rw [← whole,List.length_append]
              simp only
              omega
            · rw [← whole,cut]
              simp only
              rw [List.drop_append_of_le_length (by omega),List.take_append_of_le_length (by rw [List.length_drop]; omega)]
          · exact ih (follows.storeBlocks found same) c later
        · exact fun c member => absurd member List.not_mem_nil

-- Every reported chunk is found at the first block of its request and nowhere
-- later among the block ids that the request holds. Empty rows are skipped.
def FirstChunks (s : CompletionLoop) (reports : List (RequestId × List BlockId)) : Prop :=
  ∀ report ∈ reports, report.2 ≠ [] → ∀ entry, s.findBlocks report.1 = some entry →
    ∀ begin, (entry.blockHashState.blockIndices.drop begin).take report.2.length = report.2 → begin = 0

theorem FirstChunks.commits {reports : List (RequestId × List BlockId)} (first : FirstChunks s reports) :
    ∀ c ∈ s.commits reports, c.begin = 0 := by
  induction reports generalizing s with
  | nil => exact fun c member => absurd member List.not_mem_nil
  | cons report rest ih =>
    have later : FirstChunks s rest := fun row member => first row (List.mem_cons_of_mem _ member)
    obtain ⟨rid,bids⟩ := report
    unfold CompletionLoop.commits
    split
    · exact ih later
    · rename_i filled
      have some_ : bids ≠ [] := fun bare => filled (by rw [bare]; rfl)
      split
      · exact fun c member => absurd member List.not_mem_nil
      · rename_i entry found
        split
        · rename_i state hashes onto
          obtain ⟨same,stands⟩ := BlockHashState.getOntoHashes_place onto
          intro c member
          rcases List.mem_cons.mp member with rfl | after
          · exact first _ List.mem_cons_self some_ entry found _ stands
          · refine ih (fun row inside filled held tracked => ?_) c after
            rw [findBlocks_storeBlocks found] at tracked
            split at tracked
            · rename_i here
              cases tracked
              rw [same]
              exact later row inside filled entry (here ▸ found)
            · exact later row inside filled held tracked
        · exact fun c member => absurd member List.not_mem_nil

section Insertions
variable {β : Type} [BlockHash β] {blockHash blockHash' : β} {reports : List (RequestId × List BlockId)}

def insertCommit (blockHash : β) (c : Commit) : Option β := (BlockHash.insert blockHash c.hashes c.bids).map Prod.fst

-- The rows run into the block hash exactly as their chunks do, one by one.
theorem insertNewBlocks_commits (s : CompletionLoop) (blockHash : β) (reports : List (RequestId × List BlockId)) :
    (∃ s' blockHash', s.insertNewBlocks blockHash reports = .ok (s',blockHash') ∧
      (s.commits reports).foldlM insertCommit blockHash = some blockHash') ∨
    (s.insertNewBlocks blockHash reports = .error .blockHash ∧ (s.commits reports).foldlM insertCommit blockHash = none) ∨
    ∃ panic, panic ≠ .blockHash ∧ s.insertNewBlocks blockHash reports = .error panic := by
  induction reports generalizing s blockHash with
  | nil => exact .inl ⟨s,blockHash,rfl,rfl⟩
  | cons report rest ih =>
    obtain ⟨rid,bids⟩ := report
    unfold insertNewBlocks commits
    by_cases bare : bids.isEmpty
    · simp only [if_pos bare]
      exact ih s blockHash
    · simp only [if_neg bare]
      cases found : s.findBlocks rid with
      | none => exact .inr (.inr ⟨.blocksNotTracked rid,by simp,rfl⟩)
      | some entry =>
        cases onto : entry.blockHashState.getOntoHashes bids with
        | none => exact .inr (.inr ⟨.bidsOutOfRange rid,by simp,by simp only [onto]⟩)
        | some answer =>
          cases answer with
          | error occupied => exact .inr (.inr ⟨.inconsistentBid rid,by simp,by simp only [onto]⟩)
          | ok pair =>
            obtain ⟨state,hashes⟩ := pair
            simp only [onto,List.foldlM_cons,insertCommit]
            cases inserted : BlockHash.insert blockHash hashes bids with
            | none => exact .inr (.inl ⟨rfl,rfl⟩)
            | some answer => exact ih _ answer.1

end Insertions
end CompletionLoop

-- No block id stands for two hashes.
def OneHash (commits : List Commit) : Prop :=
  ∀ c ∈ commits, ∀ c' ∈ commits, ∀ (i j : Nat) b, c.bids[i]? = some b → c'.bids[j]? = some b → c.hashes[i]? = c'.hashes[j]?

structure Commit.Whole (chain : RequestId → List Hash) (c : Commit) : Prop where
  extracted : c.Extracted chain
  first : c.begin = 0

-- The trie of chunks that all start at the first block of their request.
structure Holding (chain : RequestId → List Hash) (past : List Commit) (T : Trie Hash BlockId) : Prop where
  whole : ∀ c ∈ past, c.Whole chain
  placed : ∀ path b, b ∈ T path → ∃ c ∈ past, ∃ i : Nat, c.bids[i]? = some b ∧ path = (chain c.requestId).take (i+1)
  present : ∀ c ∈ past, ∀ i < c.bids.length, Present T ((chain c.requestId).take (i+1))

section Holding
variable {chain : RequestId → List Hash} {past : List Commit} {c : Commit} {T : Trie Hash BlockId} {tree : RadixTreeBlockHash}

theorem Commit.Whole.hashes_take (whole : c.Whole chain) {i : Nat} (bound : i < c.bids.length) :
    c.hashes.take (i+1) = (chain c.requestId).take (i+1) := by
  rw [whole.extracted.2.2,whole.first,List.drop_zero,List.take_take,Nat.min_eq_left (by omega)]

theorem Commit.Whole.hash_at (whole : c.Whole chain) {i : Nat} (bound : i < c.bids.length) :
    c.hashes[i]? = (chain c.requestId)[i]? := by
  rw [whole.extracted.2.2,whole.first,List.drop_zero,List.getElem?_take_of_lt bound]

-- A block id leads to its one hash, and the hash to one path.
theorem same_path {c c' : Commit} (chained : Chained (Set.range chain)) (once : OneHash past) (member : c ∈ past) (member' : c' ∈ past)
    (whole : c.Whole chain) (whole' : c'.Whole chain) {i j : Nat} {b : BlockId} (left : c.bids[i]? = some b) (right : c'.bids[j]? = some b) :
    (chain c.requestId).take (i+1) = (chain c'.requestId).take (j+1) := by
  have inside := (List.getElem?_eq_some_iff.mp left).1
  have inside' := (List.getElem?_eq_some_iff.mp right).1
  have long := whole.extracted.2.1
  rw [whole.first] at long
  obtain ⟨h,found⟩ : ∃ h, (chain c.requestId)[i]? = some h := ⟨_,List.getElem?_eq_getElem (by omega)⟩
  have same := once c member c' member' i j b left right
  rw [whole.hash_at inside,whole'.hash_at inside',found] at same
  exact chained _ ⟨c.requestId,rfl⟩ _ ⟨c'.requestId,rfl⟩ i j h found same.symm

theorem Holding.insertable (holding : Holding chain past T) (chained : Chained (Set.range chain)) (whole : c.Whole chain)
    (once : OneHash (past++[c])) : Insertable T [] c.hashes c.bids := by
  have here : c ∈ past++[c] := List.mem_append_right _ (List.mem_singleton_self _)
  obtain ⟨_,long,cut⟩ := whole.extracted
  refine ⟨?_,?_,fun i b path found held => ?_⟩
  · rw [cut,List.length_take,List.length_drop]
    omega
  · rw [List.nodup_iff_getElem?_ne_getElem?]
    intro i j less bound same
    have found : c.bids[j]? = some c.bids[j] := List.getElem?_eq_getElem bound
    have size := congrArg List.length (same_path chained once here here whole whole (same.trans found) found)
    rw [whole.first] at long
    rw [List.length_take,List.length_take] at size
    omega
  · obtain ⟨c',member,j,there,rfl⟩ := holding.placed path b held
    rw [List.nil_append,whole.hashes_take (List.getElem?_eq_some_iff.mp found).1]
    exact same_path chained once (List.mem_append_left _ member) here (holding.whole c' member) whole there found

theorem Holding.insert (holding : Holding chain past T) (chained : Chained (Set.range chain)) (whole : c.Whole chain)
    (once : OneHash (past++[c])) : Holding chain (past++[c]) (PrefixTrie.insert T c.hashes c.bids) := by
  have legal := holding.insertable chained whole once
  refine ⟨fun other member => ?_,fun path b held => ?_,fun other member i bound => ?_⟩
  · rcases List.mem_append.mp member with earlier | last
    · exact holding.whole other earlier
    · cases List.mem_singleton.mp last
      exact whole
  · rcases (mem_insert legal b path).mp held with old | ⟨i,found,rfl⟩
    · obtain ⟨other,member,placed⟩ := holding.placed path b old
      exact ⟨other,List.mem_append_left _ member,placed⟩
    · exact ⟨c,List.mem_append_right _ (List.mem_singleton_self _),i,found,whole.hashes_take (List.getElem?_eq_some_iff.mp found).1⟩
  · rw [present_insert legal]
    rcases List.mem_append.mp member with earlier | last
    · exact .inl (holding.present other earlier i bound)
    · cases List.mem_singleton.mp last
      exact .inr ⟨i,legal.aligned ▸ bound,(whole.hashes_take bound).symm⟩

theorem Holding.insert_all (chained : Chained (Set.range chain)) {more : List Commit} (holding : Holding chain past T) (refines : Refines tree T)
    (whole : ∀ c ∈ more, c.Whole chain) (once : OneHash (past++more)) (bound : ∀ c ∈ more, ∀ b ∈ c.bids, b < tree.blockToNode.length) :
    ∃ tree' T', more.foldlM CompletionLoop.insertCommit tree = some tree' ∧ Refines tree' T' ∧ Holding chain (past++more) T' ∧
      tree'.blockToNode.length = tree.blockToNode.length := by
  induction more generalizing past T tree with
  | nil => exact ⟨tree,T,rfl,refines,by simpa using holding,rfl⟩
  | cons c more ih =>
    have own := whole c List.mem_cons_self
    have first : OneHash (past++[c]) := fun c₁ member₁ c₂ member₂ =>
      once c₁ (by simp only [List.mem_append,List.mem_cons,List.not_mem_nil,or_false] at member₁ ⊢; tauto) c₂
        (by simp only [List.mem_append,List.mem_cons,List.not_mem_nil,or_false] at member₂ ⊢; tauto)
    obtain ⟨next,inserted,blocks,refines'⟩ := refines.insert_spec (holding.insertable chained own first) (bound c List.mem_cons_self)
    obtain ⟨tree',T',done,last,held,size⟩ := ih (holding.insert chained own first) refines' (fun other member => whole other (List.mem_cons_of_mem _ member))
      (by rwa [List.append_assoc]) (fun other member b inside => blocks ▸ bound other (List.mem_cons_of_mem _ member) b inside)
    refine ⟨tree',T',?_,last,by rwa [List.append_assoc] at held,size.trans blocks⟩
    have step : CompletionLoop.insertCommit tree c = some next := congrArg (Option.map Prod.fst) inserted
    rw [List.foldlM_cons,step]
    exact done

-- The law a replica's view should keep: leading blocks reported committed are found.
def Viewed (chain : RequestId → List Hash) (commits : List Commit) (tree : RadixTreeBlockHash) : Prop :=
  ∀ rid query n, query <+: chain rid → n ≤ query.length →
    (∀ i < n, ∃ c ∈ commits, c.requestId = rid ∧ c.begin ≤ i ∧ i < c.begin+c.bids.length) → ∃ k, tree.get query = some k ∧ n ≤ k

theorem Holding.viewed (holding : Holding chain past T) (refines : Refines tree T) : Viewed chain past tree := by
  intro rid query n before long reported
  refine ⟨PrefixTrie.get T query,refines.get_spec query,?_⟩
  cases n with
  | zero => exact Nat.zero_le _
  | succ n =>
    obtain ⟨c,member,rfl,_,inside⟩ := reported n (Nat.lt_succ_self n)
    rw [(holding.whole c member).first,Nat.zero_add] at inside
    have present := holding.present c member n inside
    obtain ⟨_,standing⟩ := refines
    rw [← (present_take_get standing.valid query (n+1) (Nat.succ_pos n) long)]
    have same : query.take (n+1) = (chain c.requestId).take (n+1) := by
      rw [List.prefix_iff_eq_take.mp before,List.take_take,Nat.min_eq_left long]
    rwa [same]

end Holding

-- A run of the section as the engine may drive it.
structure Committing (numBlocks : Nat) (chain : RequestId → List Hash) (sections : List (CompletionLoop × EngineStepOutput)) : Prop where
  chained : Chained (Set.range chain)
  follows : ∀ section_ ∈ sections, CompletionLoop.Follows chain section_.1
  unevicted : ∀ section_ ∈ sections, section_.2.evictedBlockIds = []
  once : OneHash (CompletionLoop.committed sections)
  inside : ∀ c ∈ CompletionLoop.committed sections, ∀ b ∈ c.bids, b < numBlocks

namespace CompletionLoop
variable {chain : RequestId → List Hash}

theorem setCurUsed_panic {s : CompletionLoop} {reports : List (RequestId × List BlockId)} : s.setCurUsed reports ≠ .error .blockHash := by
  induction reports generalizing s with
  | nil => exact fun result => by cases result
  | cons report rest ih =>
    intro result
    unfold setCurUsed at result
    split at result
    · exact ih result
    · split at result
      · cases result
      · split at result
        · cases result
        · exact ih result

theorem section_spec {s : CompletionLoop} {m : EngineStepOutput} {past : List Commit} {T : Trie Hash BlockId} {tree : RadixTreeBlockHash}
    (chained : Chained (Set.range chain)) (holding : Holding chain past T) (refines : Refines tree T) (follows : Follows chain s)
    (unevicted : m.evictedBlockIds = []) (first : ∀ c ∈ s.commitsOf m, c.begin = 0) (once : OneHash (past++s.commitsOf m))
    (bound : ∀ c ∈ s.commitsOf m, ∀ b ∈ c.bids, b < tree.blockToNode.length) :
    s.cacheUpdate tree m ≠ .error .blockHash ∧ ∀ s' tree', s.cacheUpdate tree m = .ok (s',tree') →
      ∃ T', Refines tree' T' ∧ Holding chain (past++s.commitsOf m) T' ∧ tree'.blockToNode.length = tree.blockToNode.length := by
  obtain ⟨kept,removed,blocks,refines'⟩ : ∃ kept, tree.remove [] = some kept ∧ kept.blockToNode.length = tree.blockToNode.length ∧
      Refines kept T := refines.remove_spec nofun
  have nothing : BlockHash.remove tree m.evictedBlockIds = some kept := by
    rw [unevicted]
    exact removed
  unfold cacheUpdate
  unfold commitsOf at first once bound ⊢
  simp only [nothing]
  cases used : s.setCurUsed m.curUsedBlockIds with
  | error panic =>
    refine ⟨fun result => ?_,nofun⟩
    cases result
    exact setCurUsed_panic used
  | ok s₁ =>
    simp only [used] at first once bound
    have extracted := (follows.setCurUsed used).extracted m.newBlockHashesIds
    obtain ⟨tree₁,T₁,inserted,last,held,size⟩ := holding.insert_all chained refines' (fun c member => ⟨extracted c member,first c member⟩) once
      (fun c member b inside => blocks ▸ bound c member b inside)
    simp only [bind,Except.bind]
    rcases insertNewBlocks_commits s₁ kept m.newBlockHashesIds with ⟨s₂,tree₂,result,done⟩ | ⟨_,stuck⟩ | ⟨panic,other,result⟩
    · rw [inserted] at done
      cases done
      refine ⟨fun stopped => ?_,fun s' tree' ran => ?_⟩
      · rw [result] at stopped
        cases stopped
      · rw [result] at ran
        cases ran
        exact ⟨T₁,last,held,size.trans blocks⟩
    · rw [inserted] at stuck
      cases stuck
    · refine ⟨fun stopped => ?_,fun s' tree' ran => ?_⟩
      · rw [result] at stopped
        exact other (Except.error.inj stopped)
      · rw [result] at ran
        cases ran

theorem cacheUpdates_spec {past : List Commit} {T : Trie Hash BlockId} {tree : RadixTreeBlockHash}
    {sections : List (CompletionLoop × EngineStepOutput)} (chained : Chained (Set.range chain)) (holding : Holding chain past T)
    (refines : Refines tree T) (follows : ∀ section_ ∈ sections, Follows chain section_.1)
    (unevicted : ∀ section_ ∈ sections, section_.2.evictedBlockIds = []) (first : ∀ c ∈ committed sections, c.begin = 0)
    (once : OneHash (past++committed sections)) (bound : ∀ c ∈ committed sections, ∀ b ∈ c.bids, b < tree.blockToNode.length) :
    cacheUpdates tree sections ≠ .error .blockHash ∧ ∀ tree', cacheUpdates tree sections = .ok tree' →
      ∃ T', Refines tree' T' ∧ Holding chain (past++committed sections) T' := by
  induction sections generalizing past T tree with
  | nil =>
    refine ⟨nofun,fun tree' result => ?_⟩
    cases result
    exact ⟨T,refines,by simpa [committed] using holding⟩
  | cons section_ rest ih =>
    obtain ⟨s,m⟩ := section_
    have split_ : committed ((s,m)::rest) = s.commitsOf m++committed rest := List.flatMap_cons
    rw [split_] at first once bound
    rw [split_,← List.append_assoc]
    obtain ⟨safe,done⟩ := section_spec chained holding refines (follows _ List.mem_cons_self) (unevicted _ List.mem_cons_self)
      (fun c member => first c (List.mem_append_left _ member))
      (fun c member c' member' => once c (List.append_assoc _ _ _ ▸ List.mem_append_left _ member) c' (List.append_assoc _ _ _ ▸ List.mem_append_left _ member'))
      (fun c member => bound c (List.mem_append_left _ member))
    unfold cacheUpdates
    cases result : s.cacheUpdate tree m with
    | error panic =>
      refine ⟨fun stopped => ?_,nofun⟩
      cases stopped
      exact safe result
    | ok pair =>
      obtain ⟨s',tree'⟩ := pair
      obtain ⟨T',refines',holding',size⟩ := done s' tree' result
      exact ih holding' refines' (fun x member => follows x (List.mem_cons_of_mem _ member)) (fun x member => unevicted x (List.mem_cons_of_mem _ member))
        (fun c member => first c (List.mem_append_right _ member)) (by rwa [List.append_assoc])
        (fun c member b inside => size ▸ bound c (List.mem_append_right _ member) b inside)

theorem committed_first {sections : List (CompletionLoop × EngineStepOutput)}
    (first : ∀ section_ ∈ sections, ∀ s, section_.1.setCurUsed section_.2.curUsedBlockIds = .ok s → FirstChunks s section_.2.newBlockHashesIds) :
    ∀ c ∈ committed sections, c.begin = 0 := by
  intro c member
  obtain ⟨section_,inside,chunk⟩ := List.mem_flatMap.mp member
  unfold commitsOf at chunk
  split at chunk
  · rename_i s used
    exact (first section_ inside s used).commits c chunk
  · exact absurd chunk List.not_mem_nil

-- Under the condition the view holds after every section, and the block hash never panics.
theorem view_of_first_chunks (numBlocks : Nat) (chain : RequestId → List Hash) (sections : List (CompletionLoop × EngineStepOutput))
    (committing : Committing numBlocks chain sections)
    (first : ∀ section_ ∈ sections, ∀ s, section_.1.setCurUsed section_.2.curUsedBlockIds = .ok s → FirstChunks s section_.2.newBlockHashesIds) :
    ∀ past, past <+: sections → cacheUpdates (RadixTreeBlockHash.new numBlocks) past ≠ .error .blockHash ∧
      ∀ tree, cacheUpdates (RadixTreeBlockHash.new numBlocks) past = .ok tree → Viewed chain (committed past) tree := by
  rintro past ⟨rest,rfl⟩
  have split_ : committed (past++rest) = committed past++committed rest := List.flatMap_append
  obtain ⟨chained,follows,unevicted,once,inside⟩ := committing
  have begins := committed_first first
  rw [split_] at once inside begins
  have empty : Holding chain [] PrefixTrie.empty := ⟨nofun,fun path b held => absurd held (Set.notMem_empty b),nofun⟩
  have blocks : (RadixTreeBlockHash.new numBlocks).blockToNode.length = numBlocks := List.length_replicate ..
  obtain ⟨safe,done⟩ := cacheUpdates_spec chained empty (refines_new numBlocks) (fun x member => follows x (List.mem_append_left _ member))
    (fun x member => unevicted x (List.mem_append_left _ member)) (fun c member => begins c (List.mem_append_left _ member))
    (fun c member c' member' => once c (List.mem_append_left _ member) c' (List.mem_append_left _ member'))
    (fun c member b held => blocks.symm ▸ inside c (List.mem_append_left _ member) b held)
  refine ⟨safe,fun tree result => ?_⟩
  obtain ⟨T,refines,holding⟩ := done tree result
  exact holding.viewed refines

def loneLoop (entry : Entry) : CompletionLoop :=
  {CompletionLoop.new with entries := (∅ : Table RequestId Entry).insert entry.request.requestId entry}

theorem findBlocks_lone (entry : Entry) (rid : RequestId) :
    (loneLoop entry).findBlocks rid = if rid = entry.request.requestId then some entry else none := by
  by_cases same : rid = entry.request.requestId
  · have kept : AList.lookup rid ((∅ : Table RequestId Entry).insert entry.request.requestId entry) = some entry := by
      rw [same]
      exact AList.lookup_insert _
    simp only [findBlocks,CompletionLoop.find,loneLoop,kept,same,if_true,Option.some_or]
  · have absent : AList.lookup rid ((∅ : Table RequestId Entry).insert entry.request.requestId entry) = none := by
      rw [AList.lookup_insert_ne same]
      rfl
    simp only [findBlocks,CompletionLoop.find,loneLoop,absent,same,if_false]
    rfl

-- Request 7 with two blocks, the first `synced` of them reported before.
def pairEntry (synced : Nat) : Entry := ⟨⟨7,32,[]⟩,⟨[11,12],[1,2],synced,0,none,16,12,[],0⟩,⟨[],none⟩,0⟩

def pairStep (bids : List BlockId) : EngineStepOutput := ⟨0,0,[],[],[],[],[(7,bids)],[],[],0⟩

def pairChain (rid : RequestId) : List Hash := if rid = 7 then [11,12] else []

theorem pair_chained : Chained (Set.range pairChain) := by
  rintro _ ⟨rid,rfl⟩ _ ⟨rid',rfl⟩ i j h left right
  unfold pairChain at left right ⊢
  split at left
  · split at right
    · rename_i here there
      rw [if_pos here,if_pos there]
      rcases i with _ | _ | i <;> rcases j with _ | _ | j <;> cases left <;> cases right <;> rfl
    · simp at right
  · simp at left

theorem pair_committing {sections : List (CompletionLoop × EngineStepOutput)}
    (shaped : ∀ section_ ∈ sections, ∃ synced bids, section_ = (loneLoop (pairEntry synced),pairStep bids))
    (once : OneHash (committed sections)) (inside : ∀ c ∈ committed sections, ∀ b ∈ c.bids, b < 4) : Committing 4 pairChain sections := by
  refine ⟨pair_chained,fun section_ member rid entry found => ?_,fun section_ member => ?_,once,inside⟩
  · obtain ⟨synced,bids,rfl⟩ := shaped section_ member
    rw [findBlocks_lone] at found
    split at found
    · rename_i here
      cases found
      rw [here]
      exact List.prefix_rfl
    · cases found
  · obtain ⟨synced,bids,rfl⟩ := shaped section_ member
    rfl

def wholeRun : List (CompletionLoop × EngineStepOutput) := [(loneLoop (pairEntry 0),pairStep [1,2])]

def chunkedRun : List (CompletionLoop × EngineStepOutput) :=
  [(loneLoop (pairEntry 0),pairStep [1]),(loneLoop (pairEntry 1),pairStep [2])]

theorem wholeRun_committing : Committing 4 pairChain wholeRun := by
  have chunks : committed wholeRun = [⟨7,0,[11,12],[1,2]⟩] := by decide
  refine pair_committing (fun section_ member => ?_) ?_ (by rw [chunks]; decide)
  · exact ⟨0,[1,2],List.mem_singleton.mp member⟩
  · intro c member c' member' i j b left right
    rw [chunks,List.mem_singleton] at member member'
    subst member member'
    rcases i with _ | _ | i <;> rcases j with _ | _ | j <;> cases left <;> cases right <;> rfl

theorem wholeRun_first : ∀ section_ ∈ wholeRun, ∀ s, section_.1.setCurUsed section_.2.curUsedBlockIds = .ok s →
    FirstChunks s section_.2.newBlockHashesIds := by
  intro section_ member s used report row _ entry found begin stands
  cases List.mem_singleton.mp member
  cases used
  cases List.mem_singleton.mp row
  rw [findBlocks_lone] at found
  cases found
  rcases begin with _ | _ | begin
  · rfl
  · cases stands
  · simp [pairEntry] at stands

theorem view_of_first_chunks_pair : cacheUpdates (RadixTreeBlockHash.new 4) wholeRun ≠ .error .blockHash ∧
    ∀ tree, cacheUpdates (RadixTreeBlockHash.new 4) wholeRun = .ok tree → Viewed pairChain (committed wholeRun) tree :=
  view_of_first_chunks 4 pairChain wholeRun wholeRun_committing wholeRun_first wholeRun List.prefix_rfl

-- The second chunk hangs below the root, where no lookup of the request passes.
theorem second_chunk_lost : Committing 4 pairChain chunkedRun ∧
    ∃ tree, cacheUpdates (RadixTreeBlockHash.new 4) chunkedRun = .ok tree ∧ ¬Viewed pairChain (committed chunkedRun) tree := by
  have chunks : committed chunkedRun = [⟨7,0,[11],[1]⟩,⟨7,1,[12],[2]⟩] := by decide
  refine ⟨pair_committing (fun section_ member => ?_) ?_ (by rw [chunks]; decide),?_⟩
  · rcases List.mem_cons.mp member with rfl | later
    · exact ⟨0,[1],rfl⟩
    · exact ⟨1,[2],List.mem_singleton.mp later⟩
  · intro c member c' member' i j b left right
    rw [chunks] at member member'
    simp only [List.mem_cons,List.not_mem_nil,or_false] at member member'
    rcases member with rfl | rfl <;> rcases member' with rfl | rfl <;> rcases i with _ | i <;> rcases j with _ | j <;>
      cases left <;> cases right <;> rfl
  · have found : (cacheUpdates (RadixTreeBlockHash.new 4) chunkedRun).toOption.map (fun tree => tree.get [11,12]) = some (some 1) := by decide
    obtain ⟨tree,result,one⟩ := Option.map_eq_some_iff.mp found
    refine ⟨tree,?_,fun viewed => ?_⟩
    · cases run : cacheUpdates (RadixTreeBlockHash.new 4) chunkedRun with
      | error panic =>
        rw [run] at result
        cases result
      | ok tree' =>
        rw [run] at result
        cases result
        rfl
    · obtain ⟨k,held,long⟩ := viewed 7 [11,12] 2 List.prefix_rfl (by decide) (fun i less => by
        rw [chunks]
        rcases i with _ | _ | i
        · exact ⟨_,List.mem_cons_self,rfl,Nat.zero_le _,Nat.zero_lt_one⟩
        · exact ⟨_,List.mem_cons_of_mem _ List.mem_cons_self,rfl,Nat.le_refl _,Nat.lt_succ_self _⟩
        · omega)
      rw [one] at held
      cases held
      omega

end CompletionLoop
end BlitzRouter
