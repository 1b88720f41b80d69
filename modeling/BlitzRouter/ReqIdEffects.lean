import BlitzRouter.ReqIdHistory

namespace BlitzRouter.RadixTreeReqIdHash
open Radix TrieNode

variable {t t' : RadixTreeReqIdHash} {hashes : List Hash} {rid : RequestId} {hash : Hash}

section Eviction

theorem ownersAt_evict (t : RadixTreeReqIdHash) (hash other : Hash) (rest : List Hash) :
    (t.evictOrphanHash hash).root.ownersAt (other::rest) = if other = hash then none else t.root.ownersAt (other::rest) := by
  unfold evictOrphanHash
  cases found : t.root.child hash with
  | none =>
    simp only
    split
    · rename_i same
      rw [same,ownersAt_missing found]
    · rfl
  | some c => exact ownersAt_removeChild t.root hash other rest

theorem owners_evict (t : RadixTreeReqIdHash) (hash : Hash) : (t.evictOrphanHash hash).root.owners = t.root.owners := by
  unfold evictOrphanHash
  split
  · rfl
  · rfl

theorem ownersOf_evict (t : RadixTreeReqIdHash) (hash : Hash) :
    (t.evictOrphanHash hash).ownersOf hash = if (t.root.child hash).isSome then [] else t.ownersOf hash := by
  unfold evictOrphanHash
  cases t.root.child hash with
  | none => rfl
  | some c =>
    simp only [ownersOf,AList.lookup_erase]
    rfl

-- The hash is gone from `t'`, and only what it stood on changed.
structure Evicted (t t' : RadixTreeReqIdHash) (hash : Hash) : Prop where
  unpathed : ∀ path, hash ∈ path → t'.root.ownersAt path = none
  shallow : ∀ query, t'.get query ≤ query.idxOf hash
  unowned : t'.ownersOf hash = []
  others : ∀ path, hash ∉ path → t'.root.ownersAt path = t.root.ownersAt path

-- The hash opens every path it is on, and is on one if the index names an owner.
structure Surfaced (t : RadixTreeReqIdHash) (hash : Hash) : Prop where
  opening : ∀ path, hash ∈ path → (t.root.ownersAt path).isSome → path.head? = some hash
  owned : t.ownersOf hash ≠ [] → (t.root.child hash).isSome

theorem Surfaced.unpathed (surfaced : t.Surfaced hash) {path : List Hash} (inside : hash ∈ path) :
    (t.evictOrphanHash hash).root.ownersAt path = none := by
  obtain ⟨other,rest,rfl⟩ := List.exists_cons_of_ne_nil (List.ne_nil_of_mem inside)
  rw [ownersAt_evict]
  split
  · rfl
  · rename_i differs
    refine Option.not_isSome_iff_eq_none.mp fun there => differs ?_
    exact Option.some.inj (surfaced.opening _ inside there)

theorem Surfaced.evicted (surfaced : t.Surfaced hash) : Evicted t (t.evictOrphanHash hash) hash := by
  refine ⟨fun path => surfaced.unpathed,fun query => ?_,?_,fun path outside => ?_⟩
  · obtain ⟨bound,here,_⟩ := (t.evictOrphanHash hash).root.get_spec query
    have absent : hash ∉ query.take ((t.evictOrphanHash hash).root.get query) := fun inside => by
      rw [surfaced.unpathed inside] at here
      cases here
    by_contra deeper
    have found : query.idxOf hash < query.length := (Nat.lt_of_not_le deeper).trans_le bound
    refine absent (List.mem_take_iff_getElem.mpr ⟨query.idxOf hash,?_,List.getElem_idxOf found⟩)
    exact Nat.lt_min.mpr ⟨Nat.lt_of_not_le deeper,found⟩
  · rw [ownersOf_evict]
    split
    · rfl
    · rename_i missing
      by_contra named
      exact missing (surfaced.owned named)
  · cases path with
    | nil => rw [ownersAt_nil,ownersAt_nil,owners_evict]
    | cons other rest => rw [ownersAt_evict,if_neg fun same : other = hash => outside (same ▸ List.mem_cons_self)]

theorem Evicted.surfaced (evicted : Evicted t (t.evictOrphanHash hash) hash) : t.Surfaced hash := by
  refine ⟨fun path inside there => ?_,fun named => ?_⟩
  · obtain ⟨other,rest,rfl⟩ := List.exists_cons_of_ne_nil (List.ne_nil_of_mem inside)
    have gone := evicted.unpathed _ inside
    rw [ownersAt_evict] at gone
    split at gone
    · rename_i same
      rw [List.head?_cons,same]
    · rw [gone] at there
      cases there
  · by_contra missing
    have kept := evicted.unowned
    rw [ownersOf_evict,if_neg missing] at kept
    exact named kept

-- Whatever came before, an eviction reaches the hash everywhere exactly when it is
-- nowhere below the first place.
theorem evict_everywhere_iff (calls : List ReqIdCall) (hash : Hash) :
    Evicted (ran calls) ((ran calls).evictOrphanHash hash) hash ↔ (ran calls).Surfaced hash :=
  ⟨Evicted.surfaced,Surfaced.evicted⟩

theorem deeper_hash_stays : ¬∀ calls hash, Evicted (ran calls) ((ran calls).evictOrphanHash hash) hash := by
  intro always
  have shallow := (always [.insertHashes [1,2] 5] 2).shallow [1,2]
  have stays : ((ran [.insertHashes [1,2] 5]).evictOrphanHash 2).get [1,2] = 2 := by decide
  rw [stays] at shallow
  exact absurd shallow (by decide)

end Eviction

section Withdrawal

-- What the two lookups of the tree answer.
structure Unaffected (t t' : RadixTreeReqIdHash) : Prop where
  matched : ∀ query, t'.get query = t.get query
  owned : ∀ hash other, other ∈ t'.ownersOf hash ↔ other ∈ t.ownersOf hash

-- The sequence leaves the trie at a leaf that this request alone holds.
def SoleLeaf (t : RadixTreeReqIdHash) (hashes : List Hash) (rid : RequestId) : Prop :=
  t.root.ownersAt (hashes.take (t.get hashes)) = some [rid] ∧
    ∀ h, t.root.ownersAt (hashes.take (t.get hashes)++[h]) = none

structure Unclaimed (t : RadixTreeReqIdHash) (hashes : List Hash) (rid : RequestId) : Prop where
  unlisted : ∀ h ∈ hashes, rid ∉ t.ownersOf h
  shared : ¬t.SoleLeaf hashes rid

theorem isSome_strip (n : TrieNode) (hashes path : List Hash) :
    ((stripOwnerAlongPath rid n hashes).ownersAt path).isSome = (n.ownersAt path).isSome := by
  cases path with
  | nil => rfl
  | cons h rest =>
    rw [ownersAt_strip rid n hashes (List.cons_ne_nil h rest)]
    split
    · exact Option.isSome_map
    · rfl

theorem get_strip (n : TrieNode) (hashes query : List Hash) : (stripOwnerAlongPath rid n hashes).get query = n.get query :=
  get_congr (isSome_strip n hashes) query

-- The strip bares the leaf the sequence ends at only where nobody else holds it.
theorem Kept.barren_iff (kept : t.Kept) (hashes : List Hash) (rid : RequestId) :
    (stripOwnerAlongPath rid t.root hashes).Barren hashes ↔ t.SoleLeaf hashes rid := by
  have same : (stripOwnerAlongPath rid t.root hashes).get hashes = t.get hashes := get_strip t.root hashes hashes
  have leaf : (∀ h, (stripOwnerAlongPath rid t.root hashes).ownersAt (hashes.take (t.get hashes)++[h]) = none) ↔
      ∀ h, t.root.ownersAt (hashes.take (t.get hashes)++[h]) = none :=
    forall_congr' fun h => by rw [← Option.not_isSome_iff_eq_none,isSome_strip,Option.not_isSome_iff_eq_none]
  rw [Barren,same,leaf,SoleLeaf]
  by_cases zero : t.get hashes = 0
  · simp [zero,kept.root]
  · have bound : t.get hashes ≤ hashes.length := (t.root.get_spec hashes).1
    have proper : hashes.take (t.get hashes) ≠ [] := fun none => by
      have size := congrArg List.length none
      rw [List.length_take_of_le bound] at size
      exact zero size
    rw [ownersAt_strip rid t.root hashes proper,if_pos (List.take_prefix _ _)]
    refine ⟨fun barren => ⟨?_,barren.2.2⟩,fun sole => ⟨zero,by rw [sole.1]; simp,sole.2⟩⟩
    obtain ⟨owners,found,left⟩ := Option.map_eq_some_iff.mp barren.2.1
    rcases List.erase_eq_nil_iff.mp left with none | only
    · -- a leaf has an owner
      obtain ⟨h,below⟩ := kept.tended _ proper (fun above => proper (List.prefix_nil.mp above)) (none ▸ found)
      rw [barren.2.2 h] at below
      cases below
    · rw [found,only]

theorem Kept.ownersOf_remove (kept : t.Kept) (hashes : List Hash) (rid : RequestId) (h : Hash) (other : RequestId) :
    other ∈ (t.removeByHashes hashes rid).ownersOf h ↔ other ∈ t.ownersOf h ∧ ¬(h ∈ hashes ∧ other = rid) := by
  unfold removeByHashes
  split
  · rename_i none
    simp [none]
  · exact (disown_all rid kept.sets hashes).2 h other

theorem Kept.remove_unaffected (kept : t.Kept) (hashes : List Hash) (rid : RequestId) :
    Unaffected t (t.removeByHashes hashes rid) ↔ t.Unclaimed hashes rid := by
  have index := kept.ownersOf_remove hashes rid
  constructor
  · intro unaffected
    refine ⟨fun h inside member => ?_,fun sole => ?_⟩
    · have still := (unaffected.owned h rid).mpr member
      exact ((index h rid).mp still).2 ⟨inside,rfl⟩
    · have barren := (kept.barren_iff hashes rid).mpr sole
      have dropped := pruneEmpty_dropped barren
      rw [get_strip] at dropped
      change ((stripOwnerAlongPath rid t.root hashes).pruneEmpty hashes).ownersAt (hashes.take (t.get hashes)) = none at dropped
      have present : hashes ≠ [] := by
        rintro rfl
        exact barren.1 rfl
      have whole : t.get (hashes.take (t.get hashes)) = t.get hashes := get_take t.root hashes
      have matched := unaffected.matched (hashes.take (t.get hashes))
      rw [whole,removeByHashes,if_neg present] at matched
      change ((stripOwnerAlongPath rid t.root hashes).pruneEmpty hashes).get (hashes.take (t.get hashes)) = t.get hashes at matched
      -- what the lookup answers now would be a path that was dropped
      obtain ⟨_,here,_⟩ := ((stripOwnerAlongPath rid t.root hashes).pruneEmpty hashes).get_spec (hashes.take (t.get hashes))
      rw [matched,List.take_take,Nat.min_self,dropped] at here
      cases here
  · intro unclaimed
    refine ⟨fun query => ?_,fun h other => (index h other).trans ⟨And.left,fun member => ⟨member,?_⟩⟩⟩
    · rw [removeByHashes]
      split
      · rfl
      · refine get_congr (fun path => ?_) query
        rw [pruneEmpty_kept (fun barren => unclaimed.shared ((kept.barren_iff hashes rid).mp barren)),isSome_strip]
    · rintro ⟨inside,rfl⟩
      exact unclaimed.unlisted h inside member

-- Whatever came before, a removal changes no answer exactly when the index lists the
-- request under no hash of the sequence and no leaf of its own lies at its end.
theorem remove_unaffected_iff (calls : List ReqIdCall) (hashes : List Hash) (rid : RequestId) :
    Unaffected (ran calls) ((ran calls).removeByHashes hashes rid) ↔ (ran calls).Unclaimed hashes rid :=
  (kept_ran calls).remove_unaffected hashes rid

-- The request holds [1,2]; a removal of [1,2,3] takes that away.
theorem longer_claim_taken : ¬∀ calls hashes rid, (∀ call ∈ calls, call ≠ .insertHashes hashes rid) →
    Unaffected (ran calls) ((ran calls).removeByHashes hashes rid) := by
  intro always
  have matched := (always [.insertHashes [1,2] 5] [1,2,3] 5 (by decide)).matched [1,2]
  have before : (ran [.insertHashes [1,2] 5]).get [1,2] = 2 := by decide
  have after : ((ran [.insertHashes [1,2] 5]).removeByHashes [1,2,3] 5).get [1,2] = 0 := by decide
  rw [before,after] at matched
  cases matched

end Withdrawal
end BlitzRouter.RadixTreeReqIdHash
