import BlitzRouter.MirrorExact

namespace BlitzRouter
open Radix

-- What a caller may do with the tree of claims, in any order.
inductive ReqIdCall where
  | insertHashes (hashes : List Hash) (rid : RequestId)
  | removeByHashes (hashes : List Hash) (rid : RequestId)
  | evictOrphanHash (hash : Hash)
deriving DecidableEq

def ReqIdCall.apply (t : RadixTreeReqIdHash) : ReqIdCall → RadixTreeReqIdHash
  | .insertHashes hashes rid => t.insertHashes hashes rid
  | .removeByHashes hashes rid => t.removeByHashes hashes rid
  | .evictOrphanHash hash => t.evictOrphanHash hash

namespace TrieNode
variable {n m : TrieNode} {hashes path : List Hash} {rid : RequestId}

@[simp] theorem ownersAt_nil (n : TrieNode) : n.ownersAt [] = some n.owners := rfl

theorem ownersAt_child {c : TrieNode} {h : Hash} (found : n.child h = some c) (rest : List Hash) : n.ownersAt (h::rest) = c.ownersAt rest := by
  rw [ownersAt,found,Option.bind_some]

theorem ownersAt_missing {h : Hash} (missing : n.child h = none) (rest : List Hash) : n.ownersAt (h::rest) = none := by
  rw [ownersAt,missing,Option.bind_none]

-- The lookup sees which paths are there, not who owns them.
theorem get_congr (same : ∀ path, (m.ownersAt path).isSome = (n.ownersAt path).isSome) (query : List Hash) : m.get query = n.get query := by
  obtain ⟨bound,here,most⟩ := n.get_spec query
  obtain ⟨bound',here',most'⟩ := m.get_spec query
  refine Nat.le_antisymm ?_ ?_
  · have reach := most _ (List.take_prefix _ _) ((same _).symm.trans here')
    rwa [List.length_take_of_le bound'] at reach
  · have reach := most' _ (List.take_prefix _ _) ((same _).trans here)
    rwa [List.length_take_of_le bound] at reach

theorem get_take (n : TrieNode) (query : List Hash) : n.get (query.take (n.get query)) = n.get query := by
  obtain ⟨bound,here,_⟩ := n.get_spec query
  obtain ⟨limit,_,most⟩ := n.get_spec (query.take (n.get query))
  have reach := most _ (List.prefix_refl _) here
  rw [List.length_take_of_le bound] at limit reach
  omega

-- A node with neither owner nor child.
def Bare (n : TrieNode) : Prop := n.owners = [] ∧ ∀ h, n.child h = none

theorem isEmpty_iff (n : TrieNode) : n.isEmpty = true ↔ n.Bare := by
  rw [isEmpty,Bool.and_eq_true,List.isEmpty_iff,List.isEmpty_iff,children_empty]
  rfl

-- The sequence leaves the trie at a node that nothing holds.
def Barren (n : TrieNode) (hashes : List Hash) : Prop :=
  n.get hashes ≠ 0 ∧ n.ownersAt (hashes.take (n.get hashes)) = some [] ∧
    ∀ h, n.ownersAt (hashes.take (n.get hashes)++[h]) = none

theorem get_child {c : TrieNode} {h : Hash} (found : n.child h = some c) (rest : List Hash) : n.get (h::rest) = c.get rest+1 := by
  rw [get,found]

theorem get_missing {h : Hash} (missing : n.child h = none) (rest : List Hash) : n.get (h::rest) = 0 := by
  rw [get,missing]

theorem ownersAt_single (n : TrieNode) (h : Hash) : n.ownersAt [h] = none ↔ n.child h = none := by
  rw [ownersAt]
  cases n.child h with
  | none => simp
  | some c => simp

theorem barren_child {c : TrieNode} {h : Hash} (found : n.child h = some c) (rest : List Hash) :
    n.Barren (h::rest) ↔ c.get rest = 0 ∧ c.Bare ∨ c.Barren rest := by
  rw [Barren,get_child found,List.take_succ_cons,ownersAt_child found]
  simp only [List.cons_append,ownersAt_child found]
  by_cases zero : c.get rest = 0
  · rw [Barren,zero]
    simp only [List.take_zero,List.nil_append,ownersAt_nil,Option.some.injEq,ownersAt_single,Bare]
    simp
  · rw [Barren]
    simp [zero]

theorem pruneEmpty_missing {h : Hash} (missing : n.child h = none) (rest : List Hash) : pruneEmpty n (h::rest) = n := by
  rw [pruneEmpty,missing]

theorem pruneEmpty_child {c : TrieNode} {h : Hash} (found : n.child h = some c) (rest : List Hash) :
    pruneEmpty n (h::rest) = if (pruneEmpty c rest).isEmpty then n.removeChild h else n.setChild h (pruneEmpty c rest) := by
  rw [pruneEmpty,found]

-- Pruning stops where the sequence leaves the trie unless that node is bare.
theorem pruneEmpty_kept (held : ¬n.Barren hashes) (path : List Hash) : (pruneEmpty n hashes).ownersAt path = n.ownersAt path := by
  induction hashes generalizing n path with
  | nil => rfl
  | cons h rest ih =>
    cases found : n.child h with
    | none => rw [pruneEmpty_missing found]
    | some c =>
      rw [barren_child found,not_or] at held
      have below := ih held.2
      have children : (∀ k, (pruneEmpty c rest).child k = none) ↔ ∀ k, c.child k = none :=
        forall_congr' fun k => by rw [← ownersAt_single,← ownersAt_single,below]
      -- a child that turned bare was bare, and then the sequence left the trie at it
      have filled : ¬(pruneEmpty c rest).isEmpty = true := by
        rw [isEmpty_iff,Bare,owners_pruneEmpty,children]
        intro bare
        refine held.1 ⟨?_,bare⟩
        cases rest with
        | nil => rfl
        | cons k rest => exact get_missing (bare.2 k) rest
      rw [pruneEmpty_child found,if_neg filled]
      cases path with
      | nil => rfl
      | cons other path =>
        rw [ownersAt_setChild]
        split
        · rename_i same
          rw [same,ownersAt_child found,below]
        · rfl

theorem pruneEmpty_dropped (barren : n.Barren hashes) : (pruneEmpty n hashes).ownersAt (hashes.take (n.get hashes)) = none := by
  induction hashes generalizing n with
  | nil => exact absurd rfl barren.1
  | cons h rest ih =>
    cases found : n.child h with
    | none => exact absurd (get_missing found rest) barren.1
    | some c =>
      rw [get_child found,List.take_succ_cons,pruneEmpty_child found]
      split
      · rw [ownersAt_removeChild,if_pos rfl]
      · rename_i filled
        rw [ownersAt_setChild,if_pos rfl]
        rcases (barren_child found rest).mp barren with ⟨zero,bare⟩ | below
        · refine absurd ((isEmpty_iff _).mpr ?_) filled
          have apart : ¬c.Barren rest := fun below => below.1 zero
          have kept := pruneEmpty_kept apart
          refine ⟨(owners_pruneEmpty c rest).trans bare.1,fun k => (ownersAt_single _ k).mp ?_⟩
          rw [kept,ownersAt_single]
          exact bare.2 k
        · exact ih below

-- Off the sequence, a node without owners has a child.
def Tended (n : TrieNode) (hashes : List Hash) : Prop :=
  ∀ path, path ≠ [] → ¬path <+: hashes → n.ownersAt path = some [] → ∃ h, (n.ownersAt (path++[h])).isSome

theorem Tended.child {c : TrieNode} {h : Hash} (tended : n.Tended (h::hashes)) (found : n.child h = some c) : c.Tended hashes := by
  intro path proper apart none_
  rw [← ownersAt_child found] at none_
  obtain ⟨k,below⟩ := tended (h::path) (List.cons_ne_nil _ _) (fun above => apart (List.cons_prefix_cons.mp above).2) none_
  exact ⟨k,by rwa [List.cons_append,ownersAt_child found] at below⟩

theorem isSome_child {c : TrieNode} {h : Hash} (found : n.child h = some c) : (n.ownersAt [h]).isSome := by
  rw [ownersAt_child found]
  rfl

-- Pruning tends the sequence itself: what it leaves there without owners has a child.
theorem Tended.pruneEmpty (tended : n.Tended hashes) : (TrieNode.pruneEmpty n hashes).Tended [] := by
  induction hashes generalizing n with
  | nil => exact tended
  | cons h rest ih =>
    intro path proper _ none_
    obtain ⟨other,path,rfl⟩ := List.exists_cons_of_ne_nil proper
    have elsewhere : other ≠ h → n.ownersAt (other::path) = some [] → ∃ k, (n.ownersAt (other::path++[k])).isSome := fun differs =>
      tended _ proper fun above => differs (List.cons_prefix_cons.mp above).1
    cases found : n.child h with
    | none =>
      rw [pruneEmpty_missing found] at none_ ⊢
      refine elsewhere (fun here => ?_) none_
      rw [here,ownersAt_missing found] at none_
      cases none_
    | some c =>
      rw [pruneEmpty_child found] at none_ ⊢
      by_cases bare : (TrieNode.pruneEmpty c rest).isEmpty = true
      · rw [if_pos bare,ownersAt_removeChild] at none_
        rw [if_pos bare]
        split at none_
        · cases none_
        · rename_i differs
          simpa only [List.cons_append,ownersAt_removeChild,if_neg differs] using elsewhere differs none_
      · rw [if_neg bare,ownersAt_setChild] at none_
        rw [if_neg bare]
        split at none_
        · rename_i here
          simp only [List.cons_append,ownersAt_setChild,if_pos here]
          cases path with
          | nil =>
            -- no owners and not bare
            rw [isEmpty_iff,Bare] at bare
            have owners : (TrieNode.pruneEmpty c rest).owners = [] := Option.some.inj none_
            have children : ¬∀ k, (TrieNode.pruneEmpty c rest).child k = none := fun none => bare ⟨owners,none⟩
            push Not at children
            obtain ⟨k,child⟩ := children
            obtain ⟨d,below⟩ := Option.ne_none_iff_exists'.mp child
            exact ⟨k,isSome_child below⟩
          | cons next path => exact ih (tended.child found) (next::path) (List.cons_ne_nil _ _) (by simp) none_
        · rename_i differs
          simpa only [List.cons_append,ownersAt_setChild,if_neg differs] using elsewhere differs none_

theorem Tended.strip (tended : n.Tended []) : (stripOwnerAlongPath rid n hashes).Tended hashes := by
  intro path proper apart none_
  rw [ownersAt_strip rid n hashes proper,if_neg apart] at none_
  obtain ⟨h,below⟩ := tended path proper (fun above => proper (List.prefix_nil.mp above)) none_
  refine ⟨h,?_⟩
  rw [ownersAt_strip rid n hashes (by simp),if_neg fun above => apart ((List.prefix_append path [h]).trans above)]
  exact below

theorem Tended.claim (tended : n.Tended []) : (TrieNode.claim rid n hashes).Tended [] := by
  intro path proper apart none_
  rw [ownersAt_claim rid n hashes proper] at none_
  split at none_
  · have member : rid ∈ ((n.ownersAt path).getD []).insert rid := List.mem_insert_self
    rw [Option.some.inj none_] at member
    cases member
  · obtain ⟨h,below⟩ := tended path proper apart none_
    refine ⟨h,?_⟩
    rw [ownersAt_claim rid n hashes (by simp)]
    split
    · rfl
    · exact below

theorem Tended.removeChild (tended : n.Tended []) (key : Hash) : (n.removeChild key).Tended [] := by
  intro path proper apart none_
  obtain ⟨h,rest,rfl⟩ := List.exists_cons_of_ne_nil proper
  rw [ownersAt_removeChild] at none_
  split at none_
  · cases none_
  · rename_i differs
    simpa only [List.cons_append,ownersAt_removeChild,if_neg differs] using tended _ proper apart none_

end TrieNode

-- What every history keeps: no owner at the root, no bare node below it, and the
-- sets of the index are sets.
structure RadixTreeReqIdHash.Kept (t : RadixTreeReqIdHash) : Prop where
  root : t.root.owners = []
  tended : t.root.Tended []
  sets : ∀ h set, t.hashOwners.lookup h = some set → set.Nodup

namespace RadixTreeReqIdHash
variable {t : RadixTreeReqIdHash} {hashes path : List Hash} {rid : RequestId}

theorem kept_new : new.Kept := by
  refine ⟨rfl,fun path proper _ none_ => ?_,nofun⟩
  change TrieNode.empty.ownersAt path = some [] at none_
  rw [TrieNode.ownersAt_empty path proper] at none_
  cases none_

theorem Kept.apply (kept : t.Kept) (call : ReqIdCall) : (call.apply t).Kept := by
  cases call with
  | insertHashes hashes rid =>
    rw [ReqIdCall.apply,insertHashes]
    split
    · exact kept
    · exact ⟨(TrieNode.owners_claim rid t.root hashes).trans kept.root,kept.tended.claim,(enroll_all rid kept.sets hashes).1⟩
  | removeByHashes hashes rid =>
    rw [ReqIdCall.apply,removeByHashes]
    split
    · exact kept
    · refine ⟨?_,kept.tended.strip.pruneEmpty,(disown_all rid kept.sets hashes).1⟩
      rw [TrieNode.owners_pruneEmpty,TrieNode.owners_strip]
      exact kept.root
  | evictOrphanHash hash =>
    rw [ReqIdCall.apply,evictOrphanHash]
    split
    · exact kept
    · refine ⟨kept.root,kept.tended.removeChild hash,fun h set held => ?_⟩
      by_cases same : h = hash
      · subst same
        rw [AList.lookup_erase] at held
        cases held
      · rw [AList.lookup_erase_ne same] at held
        exact kept.sets h set held

def ran (calls : List ReqIdCall) : RadixTreeReqIdHash := calls.foldl ReqIdCall.apply new

theorem kept_ran (calls : List ReqIdCall) : (ran calls).Kept :=
  List.foldlRecOn calls ReqIdCall.apply kept_new fun _ kept call _ => kept.apply call

end RadixTreeReqIdHash
end BlitzRouter
