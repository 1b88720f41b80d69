import BlitzRouter.CommonPrefix
import BlitzRouter.IncrementalMirror

namespace BlitzRouter
open Radix CommonPrefix

namespace TrieNode

-- The owners of the node a path leads to.
def ownersAt (n : TrieNode) : List Hash → Option (List RequestId)
  | [] => some n.owners
  | h::rest => (n.child h).bind fun c => c.ownersAt rest

@[simp] theorem owners_setChild (n : TrieNode) (h : Hash) (c : TrieNode) : (n.setChild h c).owners = n.owners := rfl

@[simp] theorem owners_removeChild (n : TrieNode) (h : Hash) : (n.removeChild h).owners = n.owners := rfl

@[simp] theorem owners_setOwners (n : TrieNode) (owners : List RequestId) : (n.setOwners owners).owners = owners := rfl

@[simp] theorem child_setOwners (n : TrieNode) (owners : List RequestId) (h : Hash) : (n.setOwners owners).child h = n.child h := rfl

theorem lookup_filter_ne (rows : List (Hash × TrieNode)) (h other : Hash) :
    (rows.filter fun row => row.1 != h).lookup other = if other = h then none else rows.lookup other := by
  induction rows with
  | nil => simp
  | cons row rest ih =>
    obtain ⟨key,c⟩ := row
    by_cases same : key = h
    · subst same
      by_cases here : other = key
      · subst here
        simpa using ih
      · have differs : (other == key) = false := by simpa using here
        simpa [here,List.lookup_cons,differs] using ih
    · have kept : (key != h) = true := by simpa using same
      simp only [List.filter_cons,kept,if_true,List.lookup_cons]
      by_cases here : other = key
      · subst here
        simp [same]
      · have differs : (other == key) = false := by simpa using here
        simpa [differs] using ih

theorem child_removeChild (n : TrieNode) (h other : Hash) : (n.removeChild h).child other = if other = h then none else n.child other :=
  lookup_filter_ne n.children h other

theorem child_setChild (n c : TrieNode) (h other : Hash) : (n.setChild h c).child other = if other = h then some c else n.child other := by
  have below := child_removeChild n h other
  by_cases here : other = h
  · subst here
    simp [setChild,child,children]
  · have differs : (other == h) = false := by simpa using here
    rw [if_neg here] at below ⊢
    rw [← below]
    simp [setChild,child,children,List.lookup_cons,differs]

theorem children_empty (n : TrieNode) : n.children = [] ↔ ∀ h, n.child h = none := by
  obtain ⟨children,owners⟩ := n
  constructor
  · intro none h
    simp only [TrieNode.children] at none
    simp [child,TrieNode.children,none]
  · intro none
    cases children with
    | nil => rfl
    | cons row rest =>
      have first := none row.1
      simp [child,TrieNode.children] at first

theorem ownersAt_empty (path : List Hash) (proper : path ≠ []) : empty.ownersAt path = none := by
  cases path with
  | nil => exact absurd rfl proper
  | cons h rest => rfl

theorem ownersAt_setOwners (n : TrieNode) (owners : List RequestId) {path : List Hash} (proper : path ≠ []) :
    (n.setOwners owners).ownersAt path = n.ownersAt path := by
  cases path with
  | nil => exact absurd rfl proper
  | cons h rest => rfl

theorem ownersAt_setChild (n c : TrieNode) (h other : Hash) (rest : List Hash) :
    (n.setChild h c).ownersAt (other::rest) = if other = h then c.ownersAt rest else n.ownersAt (other::rest) := by
  simp only [ownersAt,child_setChild]
  split
  · rfl
  · rfl

theorem ownersAt_removeChild (n : TrieNode) (h other : Hash) (rest : List Hash) :
    (n.removeChild h).ownersAt (other::rest) = if other = h then none else n.ownersAt (other::rest) := by
  simp only [ownersAt,child_removeChild]
  split
  · rfl
  · rfl

@[simp] theorem owners_claim (rid : RequestId) (n : TrieNode) (hashes : List Hash) : (claim rid n hashes).owners = n.owners := by
  cases hashes with
  | nil => rfl
  | cons h rest => rfl

-- The claim reaches exactly the nodes on the path, made where they were missing.
theorem ownersAt_claim (rid : RequestId) (n : TrieNode) (hashes : List Hash) {path : List Hash} (proper : path ≠ []) :
    (claim rid n hashes).ownersAt path =
      if path <+: hashes then some (((n.ownersAt path).getD []).insert rid) else n.ownersAt path := by
  induction hashes generalizing n path with
  | nil =>
    have apart : ¬path <+: [] := fun above => proper (List.prefix_nil.mp above)
    rw [if_neg apart]
    rfl
  | cons h hashes ih =>
    obtain ⟨other,rest,rfl⟩ := List.exists_cons_of_ne_nil proper
    simp only [claim,ownersAt_setChild]
    by_cases here : other = h
    · subst here
      simp only [if_true,List.prefix_cons_inj,ownersAt]
      cases rest with
      | nil =>
        simp only [ownersAt,owners_claim,owners_setOwners,List.nil_prefix,if_true]
        cases n.child other with
        | none => rfl
        | some c => rfl
      | cons next rest =>
        rw [ih _ (List.cons_ne_nil next rest),ownersAt_setOwners _ _ (List.cons_ne_nil next rest)]
        cases n.child other with
        | none => simp [ownersAt_empty]
        | some c => rfl
    · have apart : ¬other::rest <+: h::hashes := fun above => here (List.cons_prefix_cons.mp above).1
      rw [if_neg here,if_neg apart]

@[simp] theorem owners_strip (rid : RequestId) (n : TrieNode) (hashes : List Hash) : (stripOwnerAlongPath rid n hashes).owners = n.owners := by
  cases hashes with
  | nil => rfl
  | cons h rest =>
    unfold stripOwnerAlongPath
    split
    · rfl
    · rfl

theorem ownersAt_strip (rid : RequestId) (n : TrieNode) (hashes : List Hash) {path : List Hash} (proper : path ≠ []) :
    (stripOwnerAlongPath rid n hashes).ownersAt path =
      if path <+: hashes then (n.ownersAt path).map (·.erase rid) else n.ownersAt path := by
  induction hashes generalizing n path with
  | nil =>
    have apart : ¬path <+: [] := fun above => proper (List.prefix_nil.mp above)
    rw [if_neg apart]
    rfl
  | cons h hashes ih =>
    obtain ⟨other,rest,rfl⟩ := List.exists_cons_of_ne_nil proper
    unfold stripOwnerAlongPath
    cases found : n.child h with
    | none =>
      by_cases here : other = h
      · subst here
        simp [ownersAt,found]
      · have apart : ¬other::rest <+: h::hashes := fun above => here (List.cons_prefix_cons.mp above).1
        rw [if_neg apart]
    | some c =>
      simp only [ownersAt_setChild]
      by_cases here : other = h
      · subst here
        simp only [if_true,List.cons_prefix_cons,true_and,ownersAt,found,Option.bind_some]
        cases rest with
        | nil => simp [ownersAt]
        | cons next rest =>
          rw [ih _ (List.cons_ne_nil next rest),ownersAt_setOwners _ _ (List.cons_ne_nil next rest)]
      · have apart : ¬other::rest <+: h::hashes := fun above => here (List.cons_prefix_cons.mp above).1
        rw [if_neg here,if_neg apart]

-- Below a node without owners there are none, and none stand off the path.
structure Stripped (n : TrieNode) (hashes : List Hash) : Prop where
  off : ∀ path, path ≠ [] → ¬path <+: hashes → n.ownersAt path ≠ some []
  below : ∀ path more owners, path ≠ [] → n.ownersAt path = some [] → n.ownersAt (path++more) = some owners → owners = []

@[simp] theorem owners_pruneEmpty (n : TrieNode) (hashes : List Hash) : (pruneEmpty n hashes).owners = n.owners := by
  cases hashes with
  | nil => rfl
  | cons h rest =>
    unfold pruneEmpty
    split
    · rfl
    · simp only
      split
      · rfl
      · rfl

theorem Stripped.child {n c : TrieNode} {h : Hash} {hashes : List Hash} (stripped : n.Stripped (h::hashes)) (found : n.child h = some c) :
    c.Stripped hashes := by
  have down : ∀ path, n.ownersAt (h::path) = c.ownersAt path := fun path => by simp [ownersAt,found]
  refine ⟨fun path proper apart => ?_,fun path more owners proper none some_ => ?_⟩
  · rw [← down]
    exact stripped.off _ (List.cons_ne_nil _ _) fun above => apart (List.cons_prefix_cons.mp above).2
  · exact stripped.below (h::path) more owners (List.cons_ne_nil _ _) ((down path).trans none) ((down (path++more)).trans some_)

theorem Stripped.kept {n : TrieNode} {hashes path : List Hash} (stripped : n.Stripped hashes) (proper : path ≠ []) (apart : ¬path <+: hashes) :
    n.ownersAt path = (n.ownersAt path).filter (· ≠ []) := by
  have filled := stripped.off path proper apart
  cases found : n.ownersAt path with
  | none => rfl
  | some owners =>
    rw [found] at filled
    have owned : owners ≠ [] := fun none => filled (by rw [none])
    rw [Option.filter_some_pos (by simpa using owned)]

-- Pruning takes the ownerless nodes and nothing else.
theorem ownersAt_pruneEmpty {n : TrieNode} {hashes : List Hash} (stripped : n.Stripped hashes) {path : List Hash} (proper : path ≠ []) :
    (pruneEmpty n hashes).ownersAt path = (n.ownersAt path).filter (· ≠ []) := by
  induction hashes generalizing n path with
  | nil =>
    have apart : ¬path <+: [] := fun above => proper (List.prefix_nil.mp above)
    rw [← stripped.kept proper apart]
    rfl
  | cons h hashes ih =>
    obtain ⟨other,rest,rfl⟩ := List.exists_cons_of_ne_nil proper
    unfold pruneEmpty
    cases found : n.child h with
    | none =>
      by_cases here : other = h
      · subst here
        simp [ownersAt,found]
      · exact stripped.kept proper fun above => here (List.cons_prefix_cons.mp above).1
    | some c =>
      simp only
      by_cases here : other = h
      swap
      · rw [← stripped.kept proper fun above => here (List.cons_prefix_cons.mp above).1]
        split
        · rw [ownersAt_removeChild,if_neg here]
        · rw [ownersAt_setChild,if_neg here]
      subst here
      have inside := stripped.child found
      have down : ∀ path, n.ownersAt (other::path) = c.ownersAt path := fun path => by simp [ownersAt,found]
      rw [down]
      split
      · rename_i bare
        simp only [isEmpty,owners_pruneEmpty,Bool.and_eq_true,List.isEmpty_iff] at bare
        rw [ownersAt_removeChild,if_pos rfl]
        cases rest with
        | nil => simp [ownersAt,bare.1,Option.filter]
        | cons next rest =>
          rw [← ih inside (List.cons_ne_nil next rest)]
          simp only [ownersAt,(children_empty _).mp bare.2 next,Option.bind_none]
      · rename_i filled
        simp only [isEmpty,owners_pruneEmpty,Bool.and_eq_true,List.isEmpty_iff] at filled
        rw [ownersAt_setChild,if_pos rfl]
        cases rest with
        | nil =>
          -- children that survive have owners, and then so does the node
          have owned : c.owners ≠ [] := fun none => by
            refine filled ⟨none,(children_empty _).mpr fun next => ?_⟩
            cases survivor : (pruneEmpty c hashes).child next with
            | none => rfl
            | some d =>
              have held := ih inside (List.cons_ne_nil next [])
              simp only [ownersAt,survivor,Option.bind_some] at held
              obtain ⟨below,owned⟩ := Option.filter_eq_some_iff.mp held.symm
              have empty := stripped.below [other] [next] d.owners (List.cons_ne_nil _ _) (by simp [ownersAt,found,none]) ((down [next]).trans below)
              simp [empty] at owned
          simp only [ownersAt,owners_pruneEmpty]
          rw [Option.filter_some_pos (by simpa using owned)]
        | cons next rest => exact ih inside (List.cons_ne_nil next rest)

theorem get_spec (n : TrieNode) (query : List Hash) :
    n.get query ≤ query.length ∧ (n.ownersAt (query.take (n.get query))).isSome ∧
      ∀ path, path <+: query → (n.ownersAt path).isSome → path.length ≤ n.get query := by
  induction query generalizing n with
  | nil =>
    refine ⟨Nat.le_refl _,rfl,fun path above _ => ?_⟩
    rw [List.prefix_nil.mp above]
    exact Nat.zero_le _
  | cons h rest ih =>
    unfold get
    cases found : n.child h with
    | none =>
      refine ⟨Nat.zero_le _,rfl,fun path above held => ?_⟩
      cases path with
      | nil => exact Nat.le_refl _
      | cons other path =>
        obtain ⟨rfl,_⟩ := List.cons_prefix_cons.mp above
        simp [ownersAt,found] at held
    | some c =>
      obtain ⟨bound,here,most⟩ := ih c
      refine ⟨Nat.succ_le_succ bound,by simpa [ownersAt,found] using here,fun path above held => ?_⟩
      cases path with
      | nil => exact Nat.zero_le _
      | cons other path =>
        obtain ⟨rfl,below⟩ := List.cons_prefix_cons.mp above
        exact Nat.succ_le_succ (most path below (by simpa [ownersAt,found] using held))

end TrieNode

-- `rid` claims a sequence that starts with `path`.
def Claims (R : RequestId → Option (List Hash)) (path : List Hash) (rid : RequestId) : Prop := ∃ seq, R rid = some seq ∧ path <+: seq

section Claims
variable {R : RequestId → Option (List Hash)} {path seq : List Hash} {rid other : RequestId}

theorem Claims.shorter {more : List Hash} (claims : Claims R (path++more) rid) : Claims R path rid := by
  obtain ⟨seq,held,above⟩ := claims
  exact ⟨seq,held,(List.prefix_append path more).trans above⟩

theorem claims_insert (fresh : R rid = none) :
    Claims (Function.update R rid (some seq)) path other ↔ other = rid ∧ path <+: seq ∨ Claims R path other := by
  by_cases same : other = rid
  · subst same
    simp [Claims,fresh]
  · simp [Claims,same]

theorem claims_erase : Claims (Function.update R rid none) path other ↔ other ≠ rid ∧ Claims R path other := by
  by_cases same : other = rid
  · subst same
    simp [Claims]
  · simp [Claims,same]

end Claims

-- The trie over the claims `R`, less the subtrees of the hashes in `gone`.
structure TrieNode.Tracks (R : RequestId → Option (List Hash)) (gone : List Hash) (n : TrieNode) : Prop where
  owned : ∀ path owners, path ≠ [] → n.ownersAt path = some owners →
    owners.Nodup ∧ owners ≠ [] ∧ ∀ rid, rid ∈ owners ↔ Claims R path rid
  present : ∀ h rest rid, h ∉ gone → Claims R (h::rest) rid → (n.ownersAt (h::rest)).isSome
  dropped : ∀ h rest, h ∈ gone → n.ownersAt (h::rest) = none

namespace TrieNode
variable {R : RequestId → Option (List Hash)} {n : TrieNode} {rid : RequestId} {seq gone : List Hash}

theorem tracks_empty : Tracks (fun _ => none) [] empty := by
  refine ⟨fun path owners proper held => ?_,fun h rest rid _ claims => ?_,fun h rest out => absurd out List.not_mem_nil⟩
  · rw [ownersAt_empty path proper] at held
    cases held
  · obtain ⟨seq,held,_⟩ := claims
    cases held

theorem Tracks.claim (tracks : n.Tracks R []) (fresh : R rid = none) :
    (TrieNode.claim rid n seq).Tracks (Function.update R rid (some seq)) [] := by
  refine ⟨fun path owners proper held => ?_,fun h rest other _ claims => ?_,fun h rest out => absurd out List.not_mem_nil⟩
  · rw [ownersAt_claim rid n seq proper] at held
    simp only [claims_insert fresh]
    split at held
    · rename_i above
      cases held
      cases found : n.ownersAt path with
      | none =>
        refine ⟨by simp,by simp,fun other => ?_⟩
        have nobody : ¬Claims R path other := fun claims => by
          obtain ⟨h,rest,rfl⟩ := List.exists_cons_of_ne_nil proper
          have held := tracks.present h rest other List.not_mem_nil claims
          rw [found] at held
          cases held
        simp [above,nobody]
      | some owners =>
        obtain ⟨nodup,_,listed⟩ := tracks.owned path owners proper found
        refine ⟨nodup.insert,fun none => ?_,fun other => ?_⟩
        · have member : rid ∈ owners.insert rid := List.mem_insert_self
          simp only [Option.getD_some] at none
          rw [none] at member
          cases member
        · simp [List.mem_insert_iff,listed,above]
    · rename_i apart
      obtain ⟨nodup,some_,listed⟩ := tracks.owned path owners proper held
      exact ⟨nodup,some_,fun other => by simp [listed,apart]⟩
  · rw [ownersAt_claim rid n seq (List.cons_ne_nil h rest)]
    split
    · rfl
    · rename_i apart
      rcases (claims_insert fresh).mp claims with ⟨_,above⟩ | older
      · exact absurd above apart
      · exact tracks.present h rest other List.not_mem_nil older

-- After the owner is stripped the lists are right; pruning makes the shape right.
theorem Tracks.strip (tracks : n.Tracks R gone) (held : R rid = some seq) {path : List Hash} {owners : List RequestId} (proper : path ≠ [])
    (left : (stripOwnerAlongPath rid n seq).ownersAt path = some owners) :
    owners.Nodup ∧ ∀ other, other ∈ owners ↔ Claims (Function.update R rid none) path other := by
  rw [ownersAt_strip rid n seq proper] at left
  simp only [claims_erase]
  split at left
  · obtain ⟨before,found,rfl⟩ := Option.map_eq_some_iff.mp left
    obtain ⟨nodup,_,listed⟩ := tracks.owned path before proper found
    exact ⟨nodup.erase rid,fun other => by rw [nodup.mem_erase_iff,listed]⟩
  · rename_i apart
    obtain ⟨nodup,_,listed⟩ := tracks.owned path owners proper left
    refine ⟨nodup,fun other => (listed other).trans ⟨fun claims => ⟨?_,claims⟩,And.right⟩⟩
    rintro rfl
    obtain ⟨own,found,above⟩ := claims
    rw [held] at found
    cases found
    exact apart above

theorem Tracks.stripped (tracks : n.Tracks R gone) (held : R rid = some seq) : (stripOwnerAlongPath rid n seq).Stripped seq := by
  refine ⟨fun path proper apart none => ?_,fun path more owners proper none left => ?_⟩
  · rw [ownersAt_strip rid n seq proper,if_neg apart] at none
    exact (tracks.owned path [] proper none).2.1 rfl
  · apply List.eq_nil_iff_forall_not_mem.mpr
    intro other member
    have longer : path++more ≠ [] := by simp [proper]
    have claims := ((tracks.strip held longer left).2 other).mp member
    exact absurd (((tracks.strip held proper none).2 other).mpr claims.shorter) List.not_mem_nil

theorem Tracks.remove (tracks : n.Tracks R gone) (held : R rid = some seq) :
    ((stripOwnerAlongPath rid n seq).pruneEmpty seq).Tracks (Function.update R rid none) gone := by
  have stripped := tracks.stripped held
  refine ⟨fun path owners proper left => ?_,fun h rest other inside claims => ?_,fun h rest out => ?_⟩
  · rw [ownersAt_pruneEmpty stripped proper] at left
    obtain ⟨left,some_⟩ := Option.filter_eq_some_iff.mp left
    obtain ⟨nodup,listed⟩ := tracks.strip held proper left
    exact ⟨nodup,by simpa using some_,listed⟩
  · have proper := List.cons_ne_nil h rest
    obtain ⟨before,found⟩ := Option.isSome_iff_exists.mp (tracks.present h rest other inside (claims_erase.mp claims).2)
    have left : ∃ owners, (stripOwnerAlongPath rid n seq).ownersAt (h::rest) = some owners := by
      rw [ownersAt_strip rid n seq proper,found]
      split
      · exact ⟨_,rfl⟩
      · exact ⟨_,rfl⟩
    obtain ⟨owners,left⟩ := left
    have member := ((tracks.strip held proper left).2 other).mpr claims
    rw [ownersAt_pruneEmpty stripped proper,left,Option.filter_some_pos (by simpa using List.ne_nil_of_mem member)]
    rfl
  · have proper := List.cons_ne_nil h rest
    rw [ownersAt_pruneEmpty stripped proper,ownersAt_strip rid n seq proper,tracks.dropped h rest out]
    simp

theorem Tracks.evict (tracks : n.Tracks R gone) (key : Hash) : (n.removeChild key).Tracks R (key::gone) := by
  refine ⟨fun path owners proper held => ?_,fun h rest rid inside claims => ?_,fun h rest out => ?_⟩
  · obtain ⟨h,rest,rfl⟩ := List.exists_cons_of_ne_nil proper
    rw [ownersAt_removeChild] at held
    split at held
    · cases held
    · exact tracks.owned _ owners proper held
  · rw [ownersAt_removeChild,if_neg fun same : h = key => inside (same ▸ List.mem_cons_self)]
    exact tracks.present h rest rid (fun out => inside (List.mem_cons_of_mem _ out)) claims
  · rw [ownersAt_removeChild]
    split
    · rfl
    · rename_i other
      exact tracks.dropped h rest ((List.mem_cons.mp out).resolve_left other)

-- A dropped subtree that no claim needs is as good as never dropped.
theorem Tracks.settle (tracks : n.Tracks R gone) (unneeded : ∀ h ∈ gone, ∀ rid seq, R rid = some seq → h ∉ seq) : n.Tracks R [] := by
  refine ⟨tracks.owned,fun h rest rid _ claims => ?_,fun h rest out => absurd out List.not_mem_nil⟩
  obtain ⟨seq,held,above⟩ := claims
  exact tracks.present h rest rid (fun out => unneeded h out rid seq held (above.subset List.mem_cons_self)) ⟨seq,held,above⟩

-- The lookup is the longest common prefix with a claim.
theorem Tracks.get_exact (tracks : n.Tracks R []) (query : List Hash) :
    (∀ rid seq, R rid = some seq → commonLen query seq ≤ n.get query) ∧
      (n.get query = 0 ∨ ∃ rid seq, R rid = some seq ∧ commonLen query seq = n.get query) := by
  obtain ⟨bound,here,most⟩ := n.get_spec query
  have upper : ∀ rid seq, R rid = some seq → commonLen query seq ≤ n.get query := fun rid seq held => by
    have above : query.take (commonLen query seq) <+: seq := take_commonLen query seq ▸ List.take_prefix _ _
    have size : (query.take (commonLen query seq)).length = commonLen query seq :=
      List.length_take_of_le (commonLen_le_left query seq)
    rw [← size]
    refine most _ (List.take_prefix _ _) ?_
    cases shared : query.take (commonLen query seq) with
    | nil => rfl
    | cons h rest =>
      rw [shared] at above
      exact tracks.present h rest rid List.not_mem_nil ⟨seq,held,above⟩
  refine ⟨upper,?_⟩
  by_cases zero : n.get query = 0
  · exact .inl zero
  · obtain ⟨owners,found⟩ := Option.isSome_iff_exists.mp here
    have size : (query.take (n.get query)).length = n.get query := List.length_take_of_le bound
    have proper : query.take (n.get query) ≠ [] := fun none => zero (by rw [← size,none]; rfl)
    obtain ⟨_,some_,listed⟩ := tracks.owned _ owners proper found
    obtain ⟨rid,member⟩ := List.exists_mem_of_ne_nil owners some_
    obtain ⟨seq,held,above⟩ := (listed rid).mp member
    refine .inr ⟨rid,seq,held,Nat.le_antisymm (upper rid seq held) ?_⟩
    have fits := above.length_le
    rw [size] at fits
    have agree : query.take (n.get query) = seq.take (n.get query) := by
      have equal := List.prefix_iff_eq_take.mp above
      rwa [size] at equal
    exact commonLen_maximal bound fits agree

end TrieNode
end BlitzRouter
