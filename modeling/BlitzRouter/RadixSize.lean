import BlitzRouter.RadixRepresentation

namespace BlitzRouter.Radix
open PrefixTrie RadixTreeBlockHash

variable {t t' : RadixTreeBlockHash} {pre : Ptr → List Hash} {T : Trie Hash BlockId}

theorem sized_stable (size : Nat) : Stable fun t => t.size = size where
  write same _ _ _ := same
  table same _ := same
  newNode same := same
  lazyGc {t t' p} same result := by
    simp only [RadixTreeBlockHash.lazyGc,Option.bind_eq_bind,Option.bind_eq_some_iff,Option.pure_def,Option.some.injEq] at result
    obtain ⟨n,_,rfl⟩ := result
    exact same

-- The block ids whose slot is not null.
def RadixTreeBlockHash.registered (t : RadixTreeBlockHash) : Finset BlockId :=
  (Finset.range t.blockToNode.length).filter fun b => t.slot b ≠ none

theorem mem_registered : b ∈ t.registered ↔ t.slot b ≠ none := by
  rw [RadixTreeBlockHash.registered,Finset.mem_filter,Finset.mem_range]
  constructor
  · exact fun both => both.2
  · intro held
    obtain ⟨p,at_⟩ := Option.ne_none_iff_exists'.mp held
    exact ⟨slot_bound at_,held⟩

-- Each id of a payload is there once and has its slot at that node.
structure Indexed (t : RadixTreeBlockHash) : Prop where
  distinct : ∀ p n, t.heap.read p = some n → n.payload.flatten.Nodup
  home : ∀ p n b, t.heap.read p = some n → b ∈ n.payload.flatten → t.slot b = some p

theorem Standing.indexed (standing : Standing t pre T) : Indexed t := by
  refine ⟨fun p n found => standing.payload_nodup found,fun p n b found member => ?_⟩
  obtain ⟨i,held,located⟩ := mem_payload standing.stored found member
  exact (standing.stored.indexed b p).mpr ⟨_,i,held,located⟩

-- Forgetting some ids of a node together with their slots takes exactly as many ids away.
theorem Indexed.forget (indexed : Indexed t) {p : Ptr} {n m : Node} {ids : List BlockId} {index : List (Option Ptr)}
    (found : t.heap.read p = some n) (parts : n.payload.flatten.Perm (ids++m.payload.flatten))
    (forgotten : unregister ids t.blockToNode = some index) :
    Indexed {t with heap := t.heap.write p m,blockToNode := index} ∧
      ({t with heap := t.heap.write p m,blockToNode := index} : RadixTreeBlockHash).registered.card+ids.length =
        t.registered.card := by
  have heap : (t.heap.write p m).read = Function.update t.heap.read p (some m) := Arena.read_write _ found
  obtain ⟨idsNodup,_,apart⟩ := List.nodup_append.mp (parts.nodup_iff.mp (indexed.distinct p n found))
  have own : ∀ b, b ∈ ids ∨ b ∈ m.payload.flatten → t.slot b = some p := fun b member =>
    indexed.home p n b found (parts.mem_iff.mpr (List.mem_append.mpr member))
  have known : ∀ b ∈ ids, b ∈ t.registered := fun b member => mem_registered.mpr (by rw [own b (.inl member)]; simp)
  obtain ⟨index',result,_,slots⟩ := unregister_spec fun b member => slot_bound (own b (.inl member))
  cases Option.some.inj (forgotten.symm.trans result)
  have slot : ∀ b, ({t with heap := t.heap.write p m,blockToNode := index} : RadixTreeBlockHash).slot b =
      if b ∈ ids then none else t.slot b := slots
  refine ⟨⟨?_,?_⟩,?_⟩
  · intro q k read
    simp only [heap] at read
    by_cases here : q = p
    · subst here
      rw [Function.update_self] at read
      cases read
      exact (List.nodup_append.mp (parts.nodup_iff.mp (indexed.distinct q n found))).2.1
    · rw [Function.update_of_ne here] at read
      exact indexed.distinct q k read
  · intro q k b read member
    simp only [heap] at read
    rw [slot]
    by_cases here : q = p
    · subst here
      rw [Function.update_self] at read
      cases read
      rw [if_neg fun inside => apart b inside b member rfl]
      exact own b (.inr member)
    · rw [Function.update_of_ne here] at read
      have there := indexed.home q k b read member
      rw [if_neg fun inside => here (Option.some.inj (there.symm.trans (own b (.inl inside))))]
      exact there
  · have left : ({t with heap := t.heap.write p m,blockToNode := index} : RadixTreeBlockHash).registered =
        t.registered \ ids.toFinset := by
      ext b
      rw [Finset.mem_sdiff,mem_registered,mem_registered,slot,List.mem_toFinset]
      by_cases inside : b ∈ ids <;> simp [inside]
    have part : ids.toFinset ⊆ t.registered := fun b member => known b (List.mem_toFinset.mp member)
    have size := Finset.card_sdiff_add_card_eq_card part
    rw [List.toFinset_card_of_nodup idsNodup] at size
    rw [left]
    exact size

theorem Indexed.lazyGc (indexed : Indexed t) (result : t.lazyGc p = some t') :
    Indexed t' ∧ t'.registered = t.registered := by
  simp only [RadixTreeBlockHash.lazyGc,Option.bind_eq_bind,Option.bind_eq_some_iff,Option.pure_def,Option.some.injEq] at result
  obtain ⟨n,_,rfl⟩ := result
  have still : ∀ q k, (t.heap.free p).read q = some k → t.heap.read q = some k := by
    intro q k read
    rw [Arena.read_free] at read
    by_cases here : q = p
    · rw [here,Function.update_self] at read
      cases read
    · rwa [Function.update_of_ne here] at read
  exact ⟨⟨fun q k read => indexed.distinct q k (still q k read),fun q k b read => indexed.home q k b (still q k read)⟩,rfl⟩

theorem Indexed.setChildren {children : Children} (indexed : Indexed t) (result : t.setChildren p children = some t') :
    Indexed t' ∧ t'.registered = t.registered := by
  simp only [RadixTreeBlockHash.setChildren,Option.bind_eq_bind,Option.bind_eq_some_iff,Option.pure_def,Option.some.injEq] at result
  obtain ⟨n,found,rfl⟩ := result
  have parts : n.payload.flatten.Perm ([]++({n with children} : Node).payload.flatten) := List.Perm.refl _
  obtain ⟨kept,_⟩ := indexed.forget found parts rfl
  exact ⟨kept,rfl⟩

-- A tree with a running count: what was counted is gone from the index.
def Spends (total : Nat) (x : RadixTreeBlockHash × Nat) : Prop := Indexed x.1 ∧ x.1.registered.card+x.2 = total

theorem Spends.clearInner {fuel total start : Nat} {c : Nat} (spends : Spends total (t,start))
    (result : RadixTreeBlockHash.clearInner fuel t p true = some (t',c)) : Spends total (t',start+c) := by
  induction fuel generalizing t t' p c total start with
  | zero => cases result
  | succ fuel ih =>
    obtain ⟨indexed,count⟩ := spends
    simp only [RadixTreeBlockHash.clearInner,Option.bind_eq_bind,Option.bind_eq_some_iff,if_true] at result
    obtain ⟨n,found,result⟩ := result
    split at result
    · simp only [Option.bind_eq_some_iff] at result
      obtain ⟨u,freed,rfl,rfl⟩ := result
      obtain ⟨kept,same⟩ := indexed.lazyGc freed
      exact ⟨kept,by rw [same]; exact count⟩
    · simp only [Option.bind_eq_some_iff] at result
      obtain ⟨index,forgotten,⟨u,cleared⟩,folded,v,freed,rfl,rfl⟩ := result
      obtain ⟨emptied,fewer⟩ := indexed.forget (m := {n with value := [],payload := []}) found (by simp) forgotten
      have first : Spends t.registered.card
          ({t with heap := t.heap.write p {n with value := [],payload := []},blockToNode := index},n.payload.flatten.length) :=
        ⟨emptied,fewer⟩
      have rest : Spends t.registered.card (u,cleared) := by
        refine fold_kept ?_ first folded
        intro x x' child spends step
        simp only [Option.bind_eq_some_iff,Option.pure_def,Option.some.injEq] at step
        obtain ⟨⟨y,more⟩,cleared,rfl⟩ := step
        exact ih spends cleared
      obtain ⟨kept,same⟩ := rest.1.lazyGc freed
      have spent := rest.2
      exact ⟨kept,by rw [same]; simp only at count spent ⊢; omega⟩

theorem Spends.clearChildren {total c : Nat} {children : List Ptr} (spends : Spends total (t,0))
    (result : t.clearChildren children = some (t',c)) : Spends total (t',c) := by
  refine fold_kept ?_ spends result
  intro x x' child spends step
  simp only [Option.bind_eq_bind,Option.bind_eq_some_iff,Option.pure_def,Option.some.injEq] at step
  obtain ⟨⟨y,more⟩,cleared,rfl⟩ := step
  exact spends.clearInner cleared

theorem cut_perm (payload : List Bids) (pos : Nat) :
    (payload.set pos []).flatten.Perm ((payload.drop (pos+1)).flatten++(payload.take pos).flatten) := by
  by_cases inside : pos < payload.length
  · rw [List.set_eq_take_append_cons_drop,if_pos inside]
    simp only [List.flatten_append,List.flatten_cons,List.nil_append]
    exact List.perm_append_comm
  · rw [List.set_eq_of_length_le (by omega),List.drop_eq_nil_of_le (by omega),List.take_of_length_le (by omega)]
    rfl

theorem erase_perm {payload : List Bids} {pos : Nat} {bids : Bids} {b : BlockId} (place : payload[pos]? = some bids) (member : b ∈ bids) :
    payload.flatten.Perm ([b]++(payload.set pos (bids.erase b)).flatten) := by
  have inside := (List.getElem?_eq_some_iff.mp place).1
  have whole : payload = payload.take pos++bids::payload.drop (pos+1) := by
    rw [← (List.getElem?_eq_some_iff.mp place).2,List.getElem_cons_drop,List.take_append_drop]
  rw [List.set_eq_take_append_cons_drop,if_pos inside]
  conv_lhs => rw [whole]
  simp only [List.flatten_append,List.flatten_cons,List.singleton_append]
  refine (List.Perm.append_left _ ((List.perm_cons_erase member).append_right _)).trans ?_
  exact List.perm_middle

theorem Spends.removeBlock {total start c : Nat} (spends : Spends total (t,start)) (result : t.removeBlock b = some (t',c)) :
    Spends total (t',start+c) := by
  obtain ⟨indexed,count⟩ := spends
  simp only [RadixTreeBlockHash.removeBlock,Option.bind_eq_bind,Option.bind_eq_some_iff] at result
  obtain ⟨slot,known,result⟩ := result
  cases slot with
  | none =>
    cases result
    exact ⟨indexed,count⟩
  | some node =>
    simp only [Option.bind_eq_some_iff] at result
    obtain ⟨n,found,pos,position,bids,place,result⟩ := result
    have member : b ∈ bids := by
      obtain ⟨inside,here,_⟩ := List.findIdx?_eq_some_iff_getElem.mp position
      rw [(List.getElem?_eq_some_iff.mp place).2] at here
      simpa using here
    have one : unregister [b] t.blockToNode = some (t.blockToNode.set b none) := by simp [unregister,known]
    obtain ⟨shorter,fewer⟩ := indexed.forget (m := {n with payload := n.payload.set pos (bids.erase b)}) found
      (erase_perm place member) one
    split at result
    · cases result
      exact ⟨shorter,by simp only [List.length_singleton] at fewer count ⊢; omega⟩
    · rename_i last
      simp only [Option.bind_eq_some_iff,Option.pure_def,Option.some.injEq,Prod.mk.injEq] at result
      obtain ⟨⟨u,more⟩,cut,rfl,rfl⟩ := result
      have none_left : bids.erase b = [] := not_not.mp last
      rw [none_left] at shorter fewer cut
      simp only [RadixTreeBlockHash.truncateAt,Option.bind_eq_bind,Option.bind_eq_some_iff] at cut
      obtain ⟨index,forgotten,cut⟩ := cut
      have present : (t.heap.write node {n with payload := n.payload.set pos []}).read node = some {n with payload := n.payload.set pos []} := by
        rw [Arena.read_write _ found,Function.update_self]
      obtain ⟨stump,tail⟩ := shorter.forget (m := {n with value := n.value.take pos,payload := n.payload.take pos}) present
        (cut_perm n.payload pos) forgotten
      simp only [List.length_singleton] at fewer
      split at cut
      · cases cut
        exact ⟨stump,by simp only at tail count ⊢; omega⟩
      · simp only [Option.bind_eq_some_iff,Option.pure_def,Option.some.injEq,Prod.mk.injEq] at cut
        obtain ⟨⟨v,cleared⟩,evicted,w,hung,rfl,rfl⟩ := cut
        have rest := Spends.clearChildren ⟨stump,rfl⟩ evicted
        obtain ⟨kept,same⟩ := rest.1.setChildren hung
        have spent := rest.2
        exact ⟨kept,by rw [same]; simp only at spent tail count ⊢; omega⟩

-- Removals count the ids they take off the index, evicted ones included.
theorem Indexed.removeInner {ids : List BlockId} {removed : Nat} (indexed : Indexed t) (done : t.removeInner ids = some (t',removed)) :
    t'.registered.card+removed = t.registered.card := by
  have start : Spends t.registered.card (t,0) := ⟨indexed,rfl⟩
  rw [removeInner_eq] at done
  refine (fold_kept ?_ start done).2
  intro x x' child spends step
  simp only [removeStep,Option.bind_eq_bind,Option.bind_eq_some_iff,Option.some.injEq,Option.pure_def] at step
  obtain ⟨⟨y,more⟩,removed,rfl⟩ := step
  exact spends.removeBlock removed

theorem Indexed.remove {ids : List BlockId} (indexed : Indexed t) (result : t.remove ids = some t') :
    t'.registered.card ≤ t.registered.card ∧ t'.size = t.size-(t.registered.card-t'.registered.card) := by
  simp only [RadixTreeBlockHash.remove,Option.bind_eq_bind,Option.bind_eq_some_iff,Option.pure_def,Option.some.injEq] at result
  obtain ⟨⟨u,removed⟩,done,rfl⟩ := result
  have size : u.size = t.size := (sized_stable t.size).removeInner (by rfl) done
  have bumped : Indexed {t with epoch := t.epoch+1} := ⟨indexed.distinct,indexed.home⟩
  have spent : u.registered.card+removed = t.registered.card := bumped.removeInner done
  have left : u.size-removed = t.size-(t.registered.card-u.registered.card) := by omega
  exact ⟨(by omega : u.registered.card ≤ t.registered.card),left⟩

section Insert
variable {keys : List Hash} {ids : List BlockId}

theorem registered_insert (legal : Insertable T [] keys ids) (x : BlockId) :
    Registered (PrefixTrie.insert T keys ids) x ↔ Registered T x ∨ x ∈ ids := by
  constructor
  · rintro ⟨path,member⟩
    rcases (mem_insert legal x path).mp member with old | ⟨i,named,_⟩
    · exact .inl ⟨path,old⟩
    · exact .inr (List.mem_of_getElem? named)
  · rintro (⟨path,old⟩ | new)
    · exact ⟨path,(mem_insert legal x path).mpr (.inl old)⟩
    · obtain ⟨i,named⟩ := List.mem_iff_getElem?.mp new
      exact ⟨_,(mem_insert legal x _).mpr (.inr ⟨i,named,rfl⟩)⟩

-- Past the matched prefix no id is known yet.
theorem Standing.unknown_past (standing : Standing t pre T) (legal : Insertable T [] keys ids) (member : b ∈ ids.drop (PrefixTrie.get T keys)) :
    t.slot b = none := by
  obtain ⟨j,later⟩ := List.mem_iff_getElem?.mp member
  rw [List.getElem?_drop] at later
  have inside := (List.getElem?_eq_some_iff.mp later).1
  rw [← legal.aligned] at inside
  refine (standing.unregistered b).mp ?_
  rintro ⟨path,held⟩
  have place := legal.placed _ b path later held
  rw [List.nil_append] at place
  have here : Present T (keys.take (PrefixTrie.get T keys+j+1)) := ⟨b,place ▸ held⟩
  have reached := (present_take_get standing.valid keys (PrefixTrie.get T keys+j+1) (by omega) (by omega)).mp here
  omega

-- The unknown ids of a call: all of those past the matched prefix, and some of it.
theorem Standing.unknown_count (standing : Standing t pre T) (legal : Insertable T [] keys ids) :
    (ids.filter fun b => t.slot b = none).length =
      ((ids.take (PrefixTrie.get T keys)).filter fun b => t.slot b = none).length+created T keys ids := by
  have past : ((ids.drop (PrefixTrie.get T keys)).filter fun b => t.slot b = none) = ids.drop (PrefixTrie.get T keys) :=
    List.filter_eq_self.mpr fun b member => by simpa using standing.unknown_past legal member
  conv_lhs => rw [← List.take_append_drop (PrefixTrie.get T keys) ids]
  rw [List.filter_append,List.length_append,past,List.length_drop,created_eq standing.valid legal,legal.aligned]

-- An insertion registers every id it creates a path for, and every other id that was unknown.
theorem Refines.insert_size (refines : Refines t T) (legal : Insertable T [] keys ids) (bound : ∀ b ∈ ids, b < t.blockToNode.length)
    (done : t.insert keys ids = some (t',c)) : Refines t' (PrefixTrie.insert T keys ids) ∧ t'.size = t.size+c ∧
      t'.registered.card = t.registered.card+c+((ids.take (PrefixTrie.get T keys)).filter fun b => t.slot b = none).length := by
  obtain ⟨u,result,_,refined⟩ := refines.insert_spec legal bound
  obtain ⟨pre,standing⟩ := refines
  rw [done,Option.some.injEq,Prod.mk.injEq] at result
  obtain ⟨rfl,rfl⟩ := result
  refine ⟨refined,?_,?_⟩
  · simp only [RadixTreeBlockHash.insert,Option.bind_eq_bind,Option.bind_eq_some_iff,Option.pure_def,Option.some.injEq,Prod.mk.injEq] at done
    obtain ⟨⟨u,n⟩,inner,rfl,same⟩ := done
    have size : u.size = t.size := (sized_stable t.size).insertInner rfl inner
    rw [← same,← size]
  · obtain ⟨pre',standing'⟩ := refined
    have all : t'.registered = t.registered ∪ ids.toFinset := by
      ext x
      have later := (registered_insert legal x).symm.trans ((standing'.registered_iff x).trans Option.ne_none_iff_exists'.symm)
      rw [Finset.mem_union,List.mem_toFinset,mem_registered,mem_registered,← later,standing.registered_iff,Option.ne_none_iff_exists']
    have unknown : ids.toFinset \ t.registered = (ids.filter fun b => t.slot b = none).toFinset := by
      ext x
      rw [Finset.mem_sdiff,List.mem_toFinset,mem_registered,List.mem_toFinset,List.mem_filter]
      simp
    have count : (ids.toFinset \ t.registered).card = (ids.filter fun b => t.slot b = none).length := by
      rw [unknown,List.toFinset_card_of_nodup (legal.distinct.filter _)]
    rw [standing.unknown_count legal] at count
    have union := Finset.card_union_add_card_inter t.registered ids.toFinset
    have parts := Finset.card_sdiff_add_card_inter ids.toFinset t.registered
    rw [Finset.inter_comm] at parts
    rw [all]
    omega

end Insert

-- What the interface promises of `len` and `is_empty`.
def Sized (t : RadixTreeBlockHash) : Prop :=
  t.len = t.registered.card ∧ (t.isEmpty = true ↔ ∀ b, t.slot b = none)

theorem sized_iff : Sized t ↔ t.size = t.registered.card := by
  refine ⟨fun sized => sized.1,fun exact_ => ⟨exact_,?_⟩⟩
  rw [RadixTreeBlockHash.isEmpty,beq_iff_eq,exact_,Finset.card_eq_zero,Finset.eq_empty_iff_forall_notMem]
  exact forall_congr' fun b => by rw [mem_registered,not_not]

namespace Call

def LegalInsert (t : RadixTreeBlockHash) : Call → Prop
  | .insert hashes bids => (Call.insert hashes bids).Allowed t
  | _ => True

-- Nothing is aliased: every id of the matched prefix is registered already.
def NoAlias (t : RadixTreeBlockHash) : Call → Prop
  | .insert hashes bids => ∀ n, t.get hashes = some n → ∀ b ∈ bids.take n, t.slot b ≠ none
  | _ => True

end Call

theorem Standing.noAlias_iff (standing : Standing t pre T) (hashes : List Hash) (bids : List BlockId) :
    Call.NoAlias t (.insert hashes bids) ↔ ((bids.take (PrefixTrie.get T hashes)).filter fun b => t.slot b = none).length = 0 := by
  have reached : t.get hashes = some (PrefixTrie.get T hashes) := standing.get_eq hashes
  rw [List.length_eq_zero_iff,List.filter_eq_nil_iff]
  simp only [Call.NoAlias,reached,Option.some.injEq,forall_eq',decide_eq_true_eq,ne_eq]

-- A property of every call of a history, in terms of the tree the call meets.
def Along (P : RadixTreeBlockHash → Call → Prop) : RadixTreeBlockHash → List Call → Prop
  | _,[] => True
  | t,call::rest => P t call ∧ ∀ t', call.apply t = some t' → Along P t' rest

theorem Refines.sized_step {call : Call} (refines : Refines t T) (legal : call.LegalInsert t) (done : call.apply t = some t') :
    (∃ T', Refines t' T') ∧ (Sized t → (Sized t' ↔ call.NoAlias t)) := by
  cases call with
  | insert hashes bids =>
    obtain ⟨aligned,distinct,bound,placed⟩ := legal
    obtain ⟨pre,standing⟩ := refines
    have insertable := standing.insertable aligned distinct placed
    obtain ⟨⟨u,c⟩,inserted,same⟩ := Option.map_eq_some_iff.mp done
    obtain rfl : u = t' := same
    obtain ⟨refined,size,card⟩ := Refines.insert_size ⟨pre,standing⟩ insertable bound inserted
    refine ⟨⟨_,refined⟩,fun sized => ?_⟩
    rw [sized_iff] at sized
    rw [standing.noAlias_iff,sized_iff]
    omega
  | remove bids =>
    have removed : t.remove bids = some t' := done
    have bound : ∀ b ∈ bids, b < t.blockToNode.length := by
      intro b member
      apply Classical.byContradiction
      intro outside
      rw [refines.remove_outside ⟨b,member,Nat.le_of_not_lt outside⟩] at removed
      cases removed
    obtain ⟨u,result,_,refined⟩ := refines.remove_spec bound
    cases Option.some.inj (removed.symm.trans result)
    refine ⟨⟨_,refined⟩,fun sized => iff_of_true ?_ trivial⟩
    obtain ⟨pre,standing⟩ := refines
    obtain ⟨fewer,size⟩ := standing.indexed.remove removed
    rw [sized_iff] at sized ⊢
    omega
  | get query =>
    obtain ⟨n,_,same⟩ := Option.map_eq_some_iff.mp done
    obtain rfl : t = t' := same
    exact ⟨⟨T,refines⟩,fun sized => iff_of_true sized trivial⟩

-- Induction on the history: the first call that aliases an id makes the size wrong.
theorem Refines.sized_run {calls : List Call} (refines : Refines t T) (legal : Along Call.LegalInsert t calls) (sized : Sized t) :
    (∀ early late t', calls = early++late → early.foldlM Call.apply t = some t' → Sized t') ↔ Along Call.NoAlias t calls := by
  induction calls generalizing t T with
  | nil =>
    refine iff_of_true ?_ trivial
    rintro early late t' split done
    obtain ⟨rfl,rfl⟩ := List.append_eq_nil_iff.mp split.symm
    cases done
    exact sized
  | cons call rest ih =>
    constructor
    · intro always
      cases result : call.apply t with
      | none =>
        refine ⟨?_,fun t' done => by rw [result] at done; cases done⟩
        cases call with
        | insert hashes bids =>
          obtain ⟨pre,standing⟩ := refines
          obtain ⟨aligned,distinct,bound,placed⟩ := legal.1
          obtain ⟨u,inserted,_,_⟩ := Refines.insert_spec ⟨pre,standing⟩ (standing.insertable aligned distinct placed) bound
          have step : BlockHash.insert t hashes bids = some (u,_) := inserted
          rw [Call.apply,step] at result
          cases result
        | remove => trivial
        | get => trivial
      | some u =>
        obtain ⟨⟨T',refined⟩,exact_⟩ := refines.sized_step legal.1 result
        have next : Sized u := always [call] rest u rfl (by simp [result])
        refine ⟨(exact_ sized).mp next,fun t' done => ?_⟩
        cases Option.some.inj (result.symm.trans done)
        refine (ih refined (legal.2 u result) next).mp fun early late t' split done => ?_
        exact always (call::early) late t' (by rw [split]; rfl) (by rw [List.foldlM_cons,result]; exact done)
    · rintro ⟨first,later⟩ early late t' split done
      cases early with
      | nil =>
        cases done
        exact sized
      | cons head early =>
        obtain ⟨rfl,rest_eq⟩ := List.cons.inj split
        rw [List.foldlM_cons,Option.bind_eq_bind,Option.bind_eq_some_iff] at done
        obtain ⟨u,result,done⟩ := done
        obtain ⟨⟨T',refined⟩,exact_⟩ := refines.sized_step legal.1 result
        exact (ih refined (legal.2 u result) ((exact_ sized).mpr first)).mpr (later u result) early late t' rest_eq done

theorem size_exact_iff (numBlocks : Nat) (calls : List Call) (legal : Along Call.LegalInsert (RadixTreeBlockHash.new numBlocks) calls) :
    (∀ early late t, calls = early++late → early.foldlM Call.apply (RadixTreeBlockHash.new numBlocks) = some t → Sized t) ↔
      Along Call.NoAlias (RadixTreeBlockHash.new numBlocks) calls := by
  refine (refines_new numBlocks).sized_run legal (sized_iff.mpr ?_)
  have none_registered : (RadixTreeBlockHash.new numBlocks).registered = ∅ := by
    rw [Finset.eq_empty_iff_forall_notMem]
    intro b member
    refine mem_registered.mp member ?_
    rw [RadixTreeBlockHash.slot,RadixTreeBlockHash.new,List.getElem?_replicate]
    split <;> rfl
  rw [none_registered]
  rfl

theorem legal_new {numBlocks : Nat} {hash : Hash} {bid : BlockId} (inside : bid < numBlocks) :
    Call.LegalInsert (RadixTreeBlockHash.new numBlocks) (.insert [hash] [bid]) := by
  refine ⟨rfl,by simp,by simpa [RadixTreeBlockHash.new] using inside,fun i b _ => .inl ?_⟩
  rw [RadixTreeBlockHash.slot,RadixTreeBlockHash.new,List.getElem?_replicate]
  split <;> rfl

theorem size_exact_evicted : Along Call.LegalInsert (RadixTreeBlockHash.new 1) [.insert [7] [0],.remove [0]] ∧
    ∀ early late t, [.insert [7] [0],.remove [0]] = early++late →
      early.foldlM Call.apply (RadixTreeBlockHash.new 1) = some t → Sized t := by
  have legal : Along Call.LegalInsert (RadixTreeBlockHash.new 1) [.insert [7] [0],.remove [0]] :=
    ⟨legal_new (by decide),fun t _ => ⟨trivial,fun _ _ => trivial⟩⟩
  refine ⟨legal,(size_exact_iff 1 _ legal).mpr ⟨?_,fun t _ => ⟨trivial,fun _ _ => trivial⟩⟩⟩
  intro n reached b member
  obtain rfl : 0 = n := by
    have none_held : (RadixTreeBlockHash.new 1).get [7] = some 0 := by decide
    exact Option.some.inj (none_held.symm.trans reached)
  cases member

-- Two ids of one hash: the second adds an id, not a path.
theorem alias_not_counted : ¬∀ numBlocks calls, Along Call.LegalInsert (RadixTreeBlockHash.new numBlocks) calls →
    ∀ early late t, calls = early++late → early.foldlM Call.apply (RadixTreeBlockHash.new numBlocks) = some t → Sized t := by
  intro always
  have legal : Along Call.LegalInsert (RadixTreeBlockHash.new 2) [.insert [7] [0],.insert [7] [1]] := by
    refine ⟨legal_new (by decide),fun t first => ⟨⟨rfl,by simp,?_,?_⟩,fun _ _ => trivial⟩⟩
    · have blocks : (Call.apply (RadixTreeBlockHash.new 2) (.insert [7] [0])).map (fun t => t.blockToNode.length) = some 2 := by decide
      rw [first,Option.map_some,Option.some.injEq] at blocks
      simp [blocks]
    · intro i b named
      have free : (Call.apply (RadixTreeBlockHash.new 2) (.insert [7] [0])).map (fun t => t.slot 1) = some none := by decide
      rw [first,Option.map_some,Option.some.injEq] at free
      have inside : b ∈ [1] := List.mem_of_getElem? named
      rw [List.mem_singleton.mp inside]
      exact .inl free
  have sizes : ([.insert [7] [0],.insert [7] [1]].foldlM Call.apply (RadixTreeBlockHash.new 2)).map
      (fun t => (t.size,t.registered.card)) = some (1,2) := by decide
  cases done : [.insert [7] [0],.insert [7] [1]].foldlM Call.apply (RadixTreeBlockHash.new 2) with
  | none =>
    rw [done] at sizes
    cases sizes
  | some t =>
    rw [done,Option.map_some,Option.some.injEq,Prod.mk.injEq] at sizes
    have same := sized_iff.mp (always 2 _ legal _ [] t (List.append_nil _).symm done)
    omega

end BlitzRouter.Radix
