import BlitzRouter.RadixCore

namespace BlitzRouter.Radix

-- What every step of a fold keeps, the fold keeps.
theorem fold_kept {σ α : Type} {P : σ → Prop} {step : σ → α → Option σ} {xs : List α} {x x' : σ}
    (kept : ∀ {u u' : σ} {a : α}, P u → step u a = some u' → P u') (holds : P x) (result : xs.foldlM step x = some x') : P x' := by
  induction xs generalizing x with
  | nil =>
    cases result
    exact holds
  | cons a rest ih =>
    simp only [List.foldlM_cons,Option.bind_eq_bind,Option.bind_eq_some_iff] at result
    obtain ⟨u,first,result⟩ := result
    exact ih (kept holds first) result

namespace RadixTreeBlockHash

-- A property of trees that no write to a node or to the table can break, no
-- allocation and no collection: then no call on the tree breaks it either.
structure Stable (P : RadixTreeBlockHash → Prop) : Prop where
  write : ∀ {t : RadixTreeBlockHash} {p n}, P t → t.heap.read p = some n → ∀ m index,
    P {t with heap := t.heap.write p m,blockToNode := index}
  table : ∀ {t : RadixTreeBlockHash}, P t → ∀ index, P {t with blockToNode := index}
  newNode : ∀ {t : RadixTreeBlockHash} {n}, P t → P (t.newNode n).1
  lazyGc : ∀ {t t' : RadixTreeBlockHash} {p}, P t → t.lazyGc p = some t' → P t'

section Stable
variable {P : RadixTreeBlockHash → Prop} {t t' : RadixTreeBlockHash} {p : Ptr} (stable : Stable P)
include stable

theorem Stable.setChildren {children : Children} (holds : P t) (result : t.setChildren p children = some t') :
    P t' := by
  simp only [RadixTreeBlockHash.setChildren,Option.bind_eq_bind,Option.bind_eq_some_iff,Option.pure_def,Option.some.injEq] at result
  obtain ⟨n,found,rfl⟩ := result
  exact stable.write holds found _ _

theorem Stable.aliasAt {i : Nat} {bid : BlockId} (holds : P t) (result : t.aliasAt p i bid = some t') : P t' := by
  simp only [RadixTreeBlockHash.aliasAt,Option.bind_eq_bind,Option.bind_eq_some_iff,Option.pure_def] at result
  obtain ⟨slot,_,result⟩ := result
  cases slot with
  | some q =>
    cases result
    exact holds
  | none =>
    simp only [Option.bind_eq_some_iff,Option.some.injEq] at result
    obtain ⟨n,found,bids,_,rfl⟩ := result
    exact stable.write holds found _ _

theorem Stable.aliasFrom {i : Nat} {bids : List BlockId} (holds : P t) (result : t.aliasFrom p i bids = some t') :
    P t' := by
  induction bids generalizing t i with
  | nil =>
    cases result
    exact holds
  | cons bid rest ih =>
    simp only [RadixTreeBlockHash.aliasFrom,Option.bind_eq_bind,Option.bind_eq_some_iff] at result
    obtain ⟨u,step,result⟩ := result
    exact ih (stable.aliasAt holds step) result

theorem Stable.splitNodeAtInsert {common : Nat} {hashes : List Hash} {bids : List BlockId} (holds : P t)
    (result : t.splitNodeAtInsert p common hashes bids = some t') : P t' := by
  unfold RadixTreeBlockHash.splitNodeAtInsert at result
  split at result
  · simp only [Option.bind_eq_bind,Option.bind_eq_some_iff] at result
    obtain ⟨n,found,result⟩ := result
    split at result
    · simp only [Option.bind_eq_some_iff,Option.pure_def,Option.some.injEq] at result
      obtain ⟨u,aliased,v,hung,index,_,index',_,rfl⟩ := result
      have cut := stable.write holds found ⟨.small [],n.value.take common,n.payload.take common⟩ t.blockToNode
      exact stable.table (stable.setChildren (stable.aliasFrom (stable.newNode (stable.newNode cut)) aliased) hung) index'
    · cases result
  · cases result

theorem Stable.scanSmall {key : List Hash} {v kept : List Ptr} {hit : Option CommonPrefixInner} (holds : P t)
    (result : t.scanSmall key v = some (t',kept,hit)) : P t' := by
  induction v generalizing t kept with
  | nil =>
    cases result
    exact holds
  | cons child rest ih =>
    simp only [RadixTreeBlockHash.scanSmall,Option.bind_eq_bind,Option.bind_eq_some_iff] at result
    obtain ⟨n,_,result⟩ := result
    split at result
    · simp only [Option.bind_eq_some_iff] at result
      obtain ⟨u,freed,result⟩ := result
      exact ih (stable.lazyGc holds freed) result
    · simp only [Option.bind_eq_some_iff] at result
      obtain ⟨found,_,result⟩ := result
      split at result
      · simp only [Option.bind_eq_some_iff,Option.pure_def,Option.some.injEq,Prod.mk.injEq] at result
        obtain ⟨⟨u,kept',hit'⟩,step,rfl,_,rfl⟩ := result
        exact ih holds step
      · cases result
        exact holds

theorem Stable.commonPrefixFullCombo {fuel : Nat} {key key' : List Hash} {hit : CommonPrefixInner} (holds : P t)
    (result : RadixTreeBlockHash.commonPrefixFullCombo fuel t p key = some (t',hit,key')) : P t' := by
  induction fuel generalizing t p key with
  | zero => cases result
  | succ fuel ih =>
    cases key with
    | nil =>
      cases result
      exact holds
    | cons first rest =>
      simp only [RadixTreeBlockHash.commonPrefixFullCombo,Option.bind_eq_bind,Option.bind_eq_some_iff] at result
      obtain ⟨n,_,result⟩ := result
      split at result
      · simp only [Option.bind_eq_some_iff] at result
        obtain ⟨⟨u,kept,found⟩,scanned,v,hung,result⟩ := result
        have tidy := stable.setChildren (stable.scanSmall holds scanned) hung
        split at result
        · simp only [Option.bind_eq_some_iff] at result
          obtain ⟨c,_,result⟩ := result
          exact ih tidy result
        all_goals
          cases result
          try exact tidy
      · split at result
        · cases result
          exact holds
        · simp only [Option.bind_eq_some_iff] at result
          obtain ⟨c,_,result⟩ := result
          split at result
          · simp only [Option.bind_eq_some_iff,Option.pure_def,Option.some.injEq,Prod.mk.injEq] at result
            obtain ⟨u,hung,v,freed,rfl,_,_⟩ := result
            exact stable.lazyGc (stable.setChildren holds hung) freed
          · simp only [Option.bind_eq_some_iff] at result
            obtain ⟨found,_,result⟩ := result
            split at result
            · exact ih holds result
            all_goals
              cases result
              try exact holds

theorem Stable.insertAsChild {hashes : List Hash} {bids : List BlockId} (holds : P t)
    (result : t.insertAsChild p hashes bids = some t') : P t' := by
  simp only [RadixTreeBlockHash.insertAsChild,Option.bind_eq_bind,Option.bind_eq_some_iff,Option.pure_def,Option.some.injEq] at result
  obtain ⟨n,_,children,_,u,hung,index,_,rfl⟩ := result
  exact stable.table (stable.setChildren (stable.newNode holds) hung) index

theorem Stable.aliasNode {i : Nat} {value key key' : List Hash} {aliases aliases' : List BlockId} (holds : P t)
    (result : t.aliasNode p i value key aliases = some (t',key',aliases')) : P t' := by
  induction value generalizing t i key aliases with
  | nil =>
    cases key <;> cases result <;> exact holds
  | cons v value ih =>
    cases key with
    | nil =>
      cases result
      exact holds
    | cons k key =>
      unfold RadixTreeBlockHash.aliasNode at result
      split at result
      · simp only [Option.bind_eq_bind,Option.bind_eq_some_iff] at result
        obtain ⟨bid,_,u,step,result⟩ := result
        exact ih (stable.aliasAt holds step) result
      · cases result
        exact holds

theorem Stable.aliasWalk {fuel : Nat} {key : List Hash} {aliases : List BlockId} (holds : P t)
    (result : RadixTreeBlockHash.aliasWalk fuel t p key aliases = some t') : P t' := by
  induction fuel generalizing t p key aliases with
  | zero => cases result
  | succ fuel ih =>
    cases key with
    | nil =>
      cases result
      exact holds
    | cons first rest =>
      simp only [RadixTreeBlockHash.aliasWalk,Option.bind_eq_bind,Option.bind_eq_some_iff] at result
      obtain ⟨n,_,child,_,result⟩ := result
      split at result
      · cases result
        exact holds
      · simp only [Option.bind_eq_some_iff] at result
        obtain ⟨c,_,⟨u,key,aliases⟩,step,result⟩ := result
        exact ih (stable.aliasNode holds step) result

theorem Stable.scanRoot {key : List Hash} {v kept : List Ptr} {hit : CommonPrefixInner} (holds : P t)
    (result : t.scanRoot key v = some (t',kept,hit)) : P t' := by
  induction v generalizing t kept hit with
  | nil =>
    cases result
    exact holds
  | cons child rest ih =>
    simp only [RadixTreeBlockHash.scanRoot,Option.bind_eq_bind,Option.bind_eq_some_iff] at result
    obtain ⟨n,_,result⟩ := result
    split at result
    · simp only [Option.bind_eq_some_iff] at result
      obtain ⟨u,freed,result⟩ := result
      exact ih (stable.lazyGc holds freed) result
    · simp only [Option.bind_eq_some_iff] at result
      obtain ⟨first,_,result⟩ := result
      split at result
      · simp only [Option.bind_eq_some_iff,Option.pure_def,Option.some.injEq,Prod.mk.injEq] at result
        obtain ⟨found,_,rfl,_,_⟩ := result
        exact holds
      · simp only [Option.bind_eq_some_iff,Option.pure_def,Option.some.injEq,Prod.mk.injEq] at result
        obtain ⟨⟨u,kept',hit'⟩,step,rfl,_,_⟩ := result
        exact ih holds step

theorem Stable.rootMatch {key : List Hash} {hit : CommonPrefixInner} (holds : P t)
    (result : t.rootMatch key = some (t',hit)) : P t' := by
  simp only [RadixTreeBlockHash.rootMatch,Option.bind_eq_bind,Option.bind_eq_some_iff] at result
  obtain ⟨n,_,result⟩ := result
  split at result
  · simp only [Option.bind_eq_some_iff,Option.pure_def,Option.some.injEq,Prod.mk.injEq] at result
    obtain ⟨⟨u,kept,found⟩,scanned,v,hung,rfl,_⟩ := result
    exact stable.setChildren (stable.scanRoot holds scanned) hung
  · simp only [Option.bind_eq_some_iff] at result
    obtain ⟨first,_,result⟩ := result
    split at result
    · cases result
      exact holds
    · simp only [Option.bind_eq_some_iff] at result
      obtain ⟨c,_,result⟩ := result
      split at result
      · simp only [Option.bind_eq_some_iff,Option.pure_def,Option.some.injEq,Prod.mk.injEq] at result
        obtain ⟨u,freed,v,hung,rfl,_⟩ := result
        exact stable.setChildren (stable.lazyGc holds freed) hung
      · simp only [Option.bind_eq_some_iff,Option.pure_def,Option.some.injEq,Prod.mk.injEq] at result
        obtain ⟨found,_,rfl,_⟩ := result
        exact holds

theorem Stable.extendLeaf {key1 : List Hash} {remain : List BlockId} (holds : P t)
    (result : t.extendLeaf p key1 remain = some t') : P t' := by
  simp only [RadixTreeBlockHash.extendLeaf,Option.bind_eq_bind,Option.bind_eq_some_iff,Option.pure_def,Option.some.injEq] at result
  obtain ⟨n,found,index,_,rfl⟩ := result
  exact stable.write holds found _ _

theorem Stable.insertBelow {key key1 : List Hash} {value : List BlockId} {hit : CommonPrefixInner} {c : Nat}
    (holds : P t) (result : t.insertBelow key value key1 hit = some (t',c)) : P t' := by
  cases hit with
  | noMatch node => cases result
  | fullMatch node =>
    simp only [RadixTreeBlockHash.insertBelow] at result
    split at result
    · simp only [Option.bind_eq_bind,Option.bind_eq_some_iff,Option.pure_def,Option.some.injEq,Prod.mk.injEq] at result
      obtain ⟨u,walked,rfl,_⟩ := result
      exact stable.aliasWalk holds walked
    · split at result
      · simp only [Option.bind_eq_bind,Option.bind_eq_some_iff] at result
        obtain ⟨u,walked,n,_,result⟩ := result
        split at result
        all_goals
          simp only [Option.bind_eq_some_iff,Option.pure_def,Option.some.injEq,Prod.mk.injEq] at result
          obtain ⟨v,grown,rfl,_⟩ := result
        · exact stable.extendLeaf (stable.aliasWalk holds walked) grown
        · exact stable.insertAsChild (stable.aliasWalk holds walked) grown
      · cases result
  | partialMatch node common =>
    simp only [RadixTreeBlockHash.insertBelow] at result
    split at result
    · simp only [Option.bind_eq_bind,Option.bind_eq_some_iff,Option.pure_def,Option.some.injEq,Prod.mk.injEq] at result
      obtain ⟨u,walked,rfl,_⟩ := result
      exact stable.aliasWalk holds walked
    · split at result
      · simp only [Option.bind_eq_bind,Option.bind_eq_some_iff,Option.pure_def,Option.some.injEq,Prod.mk.injEq] at result
        obtain ⟨u,walked,v,cut,rfl,_⟩ := result
        exact stable.splitNodeAtInsert (stable.aliasWalk holds walked) cut
      · cases result

theorem Stable.insertInner {key : List Hash} {value : List BlockId} {c : Nat} (holds : P t)
    (result : t.insertInner key value = some (t',c)) : P t' := by
  unfold RadixTreeBlockHash.insertInner at result
  split at result
  · cases result
    exact holds
  · simp only [Option.bind_eq_bind,Option.bind_eq_some_iff] at result
    obtain ⟨⟨u,hit⟩,matched,result⟩ := result
    have top := stable.rootMatch holds matched
    split at result
    · simp only [Option.bind_eq_some_iff] at result
      obtain ⟨k,_,⟨v,inner,key1⟩,walked,result⟩ := result
      exact stable.insertBelow (stable.commonPrefixFullCombo top walked) result
    · split at result
      all_goals
        simp only [Option.bind_eq_some_iff,Option.pure_def,Option.some.injEq,Prod.mk.injEq] at result
        obtain ⟨v,step,rfl,_⟩ := result
      · exact stable.aliasWalk top step
      · exact stable.splitNodeAtInsert top step
    · split at result
      · simp only [Option.bind_eq_some_iff,Option.pure_def,Option.some.injEq,Prod.mk.injEq] at result
        obtain ⟨v,step,rfl,_⟩ := result
        exact stable.insertAsChild top step
      · cases result

theorem Stable.clearInner {fuel : Nat} {toDrop : Bool} {c : Nat} (holds : P t)
    (result : RadixTreeBlockHash.clearInner fuel t p toDrop = some (t',c)) : P t' := by
  induction fuel generalizing t t' p c with
  | zero => cases result
  | succ fuel ih =>
    have last : ∀ {u : RadixTreeBlockHash} {cleared : Nat}, P u → (if toDrop = true then (u.lazyGc p).bind fun v => some (v,cleared)
        else (some u).bind fun v => some (v,cleared)) = some (t',c) → P t' := by
      intro u cleared holds result
      split at result
      · simp only [Option.bind_eq_some_iff,Option.some.injEq,Prod.mk.injEq] at result
        obtain ⟨v,freed,rfl,_⟩ := result
        exact stable.lazyGc holds freed
      · cases result
        exact holds
    simp only [RadixTreeBlockHash.clearInner,Option.bind_eq_bind,Option.bind_eq_some_iff] at result
    obtain ⟨n,found,result⟩ := result
    split at result
    · exact last holds result
    · simp only [Option.bind_eq_some_iff] at result
      obtain ⟨index,_,⟨u,cleared⟩,folded,result⟩ := result
      refine last (fold_kept (P := fun x => P x.1) ?_ (stable.write holds found _ index) folded) result
      intro x x' child holds step
      simp only [Option.bind_eq_some_iff,Option.pure_def,Option.some.injEq] at step
      obtain ⟨⟨y,more⟩,cleared,rfl⟩ := step
      exact ih holds cleared

theorem Stable.removeBlock {blockId : BlockId} {c : Nat} (holds : P t)
    (result : t.removeBlock blockId = some (t',c)) : P t' := by
  simp only [RadixTreeBlockHash.removeBlock,Option.bind_eq_bind,Option.bind_eq_some_iff] at result
  obtain ⟨slot,_,result⟩ := result
  cases slot with
  | none =>
    cases result
    exact holds
  | some node =>
    simp only [Option.bind_eq_some_iff] at result
    obtain ⟨n,found,pos,_,bids,_,result⟩ := result
    -- the node is written once more while it is cut
    have shorter := stable.write holds found {n with payload := n.payload.set pos (bids.erase blockId)} (t.blockToNode.set blockId none)
    split at result
    · cases result
      exact shorter
    · simp only [Option.bind_eq_some_iff,Option.pure_def,Option.some.injEq,Prod.mk.injEq] at result
      obtain ⟨⟨u,more⟩,cut,rfl,_⟩ := result
      simp only [RadixTreeBlockHash.truncateAt,Option.bind_eq_bind,Option.bind_eq_some_iff] at cut
      obtain ⟨index,_,cut⟩ := cut
      have present : (t.heap.write node {n with payload := n.payload.set pos (bids.erase blockId)}).read node =
          some {n with payload := n.payload.set pos (bids.erase blockId)} := by
        rw [Arena.read_write _ found,Function.update_self]
      have stump := stable.write shorter present {n with value := n.value.take pos,payload := n.payload.take pos} index
      split at cut
      · cases cut
        exact stump
      · simp only [RadixTreeBlockHash.clearChildren,Option.bind_eq_bind,Option.bind_eq_some_iff,Option.pure_def,Option.some.injEq,
          Prod.mk.injEq] at cut
        obtain ⟨⟨v,cleared⟩,folded,w,hung,rfl,_⟩ := cut
        refine stable.setChildren (fold_kept (P := fun x => P x.1) ?_ stump folded) hung
        intro x x' child holds step
        simp only [Option.bind_eq_some_iff,Option.some.injEq] at step
        obtain ⟨⟨y,more⟩,cleared,rfl⟩ := step
        exact stable.clearInner holds cleared

theorem Stable.removeInner {bids : List BlockId} {c : Nat} (holds : P t) (result : t.removeInner bids = some (t',c)) : P t' := by
  simp only [RadixTreeBlockHash.removeInner] at result
  refine fold_kept (P := fun x => P x.1) ?_ holds result
  intro x x' blockId holds step
  simp only [Option.bind_eq_bind,Option.bind_eq_some_iff,Option.pure_def,Option.some.injEq] at step
  obtain ⟨⟨y,more⟩,removed,rfl⟩ := step
  exact stable.removeBlock holds removed

end Stable

-- The counter of the source against the allocations that exist.
def Counted (t : RadixTreeBlockHash) : Prop := t.heap.live = t.nodes

theorem counted_stable : Stable Counted where
  write counted found _ _ := (Arena.live_write _ found).trans counted
  table counted _ := counted
  newNode counted := by
    unfold Counted at counted ⊢
    simp only [RadixTreeBlockHash.newNode,Arena.live_alloc,counted]
  lazyGc {t t' p} counted result := by
    simp only [RadixTreeBlockHash.lazyGc,Option.bind_eq_bind,Option.bind_eq_some_iff,Option.pure_def,Option.some.injEq] at result
    obtain ⟨n,found,rfl⟩ := result
    unfold Counted at counted ⊢
    have freed := t.heap.live_free found
    change (t.heap.free p).live = t.nodes-1
    omega

variable {t t' : RadixTreeBlockHash}

theorem Counted.insert {hashes : List Hash} {bids : List BlockId} {c : Nat} (counted : Counted t)
    (result : t.insert hashes bids = some (t',c)) : Counted t' := by
  simp only [RadixTreeBlockHash.insert,Option.bind_eq_bind,Option.bind_eq_some_iff,Option.pure_def,Option.some.injEq,Prod.mk.injEq] at result
  obtain ⟨⟨u,n⟩,done,rfl,_⟩ := result
  have inner : Counted u := counted_stable.insertInner counted done
  exact inner

theorem Counted.remove {bids : List BlockId} (counted : Counted t) (result : t.remove bids = some t') : Counted t' := by
  simp only [RadixTreeBlockHash.remove,Option.bind_eq_bind,Option.bind_eq_some_iff,Option.pure_def,Option.some.injEq] at result
  obtain ⟨⟨u,removed⟩,done,rfl⟩ := result
  have bumped : Counted {t with epoch := t.epoch+1} := counted
  have inner : Counted u := counted_stable.removeInner bumped done
  exact inner

theorem counted_new (numBlocks : Nat) : Counted (new numBlocks) := rfl

end RadixTreeBlockHash
end BlitzRouter.Radix
