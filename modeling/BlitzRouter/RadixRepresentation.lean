import BlitzRouter.RadixRefine
import BlitzRouter.RadixCount

namespace BlitzRouter.Radix
open PrefixTrie

namespace RadixTreeBlockHash

def walkChildren (t : RadixTreeBlockHash) : List Ptr → Option Unit
  | [] => some ()
  | child::rest => do
    let c ← t.heap.read child
    if c.value.isEmpty && c.payload.isEmpty && c.children.isEmpty then t.walkChildren rest else none

def assertDrainedToOneLayer (t : RadixTreeBlockHash) : Option Unit := do
  let n ← t.heap.read t.root
  if n.value.isEmpty && n.payload.isEmpty then t.walkChildren n.children.ptrs else none

end RadixTreeBlockHash

variable {t t' : RadixTreeBlockHash} {pre : Ptr → List Hash} {T : Trie Hash BlockId} {p : Ptr} {label : List Hash}

-- The nodes that child pointers lead to, with the hashes on the way.
inductive Reached (t : RadixTreeBlockHash) : Ptr → List Hash → Prop where
  | root : Reached t t.root []
  | child {p c : Ptr} {n : Node} {label : List Hash} : Reached t p label → t.heap.read p = some n → c ∈ n.children.ptrs →
      Reached t c (label++n.value)

def Reachable (t : RadixTreeBlockHash) (p : Ptr) : Prop := ∃ label, Reached t p label

def Occurs (t : RadixTreeBlockHash) (b : BlockId) (p : Ptr) (i : Nat) : Prop :=
  Reachable t p ∧ ∃ n bids, t.heap.read p = some n ∧ n.payload[i]? = some bids ∧ b ∈ bids

-- The hash path of the position an id sits in.
def RegisteredAt (t : RadixTreeBlockHash) (b : BlockId) (path : List Hash) : Prop :=
  ∃ p label n, ∃ i : Nat, ∃ bids, Reached t p label ∧ t.heap.read p = some n ∧ n.payload[i]? = some bids ∧ b ∈ bids ∧
    path = label++n.value.take (i+1)

structure Represents (t : RadixTreeBlockHash) : Prop where
  allocated : ∀ p, Reachable t p → ∃ n, t.heap.read p = some n
  indexed : ∀ b, (∃ p, t.slot b = some p) ↔ ∃! place : Ptr × Nat, Occurs t b place.1 place.2
  pointed : ∀ b p, t.slot b = some p → ∃ i, Occurs t b p i
  aligned : ∀ p n, Reachable t p → t.heap.read p = some n → n.payload.length = n.value.length
  filled : ∀ p n, Reachable t p → t.heap.read p = some n → ∀ bids ∈ n.payload, bids ≠ [] ∧ bids.Nodup
  heads : ∀ p n c d k l, Reachable t p → t.heap.read p = some n → c ∈ n.children.ptrs → d ∈ n.children.ptrs → c ≠ d →
    t.heap.read c = some k → t.heap.read d = some l → k.value ≠ [] → l.value ≠ [] → k.value.head? ≠ l.value.head?
  keyed : ∀ p n m first c k, Reachable t p → t.heap.read p = some n → n.children = .large m → m.lookup first = some c →
    t.heap.read c = some k → k.value ≠ [] → k.value.head? = some first
  bare : ∀ p n, Reachable t p → p ≠ t.root → t.heap.read p = some n → n.value = [] → n.children.isEmpty = true
  drained : (∀ b, t.slot b = none) → t.assertDrainedToOneLayer = some ()
  nodes : t.nodes = {p | Reachable t p}.ncard

namespace Standing

-- Induction on the walk one way, on the length of the label the other way.
theorem reached_iff (standing : Standing t pre T) : Reached t p label ↔ (∃ n, t.heap.read p = some n) ∧ pre p = label := by
  have shape := standing.skeleton
  constructor
  · intro walk
    induction walk with
    | root =>
      obtain ⟨n,found,_⟩ := shape.rootNode
      exact ⟨⟨n,found⟩,shape.rootPre⟩
    | child _ found member ih =>
      obtain ⟨live,_,below⟩ := shape.child_live found member
      exact ⟨live,by rw [below,ih.2]⟩
  · rintro ⟨⟨n,found⟩,rfl⟩
    generalize size : (pre p).length = depth
    induction depth using Nat.strong_induction_on generalizing p n with
    | _ depth ih =>
      by_cases top : p = t.root
      · rw [top,shape.rootPre]
        exact .root
      · obtain ⟨q,m,above,proper,joined⟩ := shape.parent p n found top
        have member := (shape.edge q m above proper p).mpr ⟨⟨n,found⟩,top,joined⟩
        rw [joined]
        refine Reached.child ?_ above member
        rcases proper with rfl | inner
        · rw [shape.rootPre]
          exact .root
        · have positive := List.length_pos_of_ne_nil inner
          have longer := congrArg List.length joined
          rw [List.length_append] at longer
          exact ih _ (by omega) m above rfl

theorem reachable_iff (standing : Standing t pre T) : Reachable t p ↔ ∃ n, t.heap.read p = some n :=
  ⟨fun ⟨_,walk⟩ => (standing.reached_iff.mp walk).1,fun live => ⟨pre p,standing.reached_iff.mpr ⟨live,rfl⟩⟩⟩

theorem registeredAt_iff (standing : Standing t pre T) (b : BlockId) (path : List Hash) : RegisteredAt t b path ↔ b ∈ T path := by
  constructor
  · rintro ⟨p,label,n,i,bids,walk,found,slot,member,rfl⟩
    obtain ⟨_,rfl⟩ := standing.reached_iff.mp walk
    exact (mem_slot standing.stored found slot member).1
  · intro member
    obtain ⟨p,i,n,found,bound,rfl⟩ := standing.stored.covered path b member
    have inside : i < n.payload.length := (standing.stored.slots p n found).symm ▸ bound
    have slot := List.getElem?_eq_getElem inside
    exact ⟨p,pre p,n,i,_,standing.reached_iff.mpr ⟨⟨n,found⟩,rfl⟩,found,slot,(standing.stored.ids p n i _ found slot b).mpr member,rfl⟩

-- An id sits where its path is located, so in one position only.
theorem occurs_iff (standing : Standing t pre T) (b : BlockId) (p : Ptr) (i : Nat) :
    Occurs t b p i ↔ ∃ path, b ∈ T path ∧ At t.heap.read pre p i path := by
  constructor
  · rintro ⟨_,n,bids,found,slot,member⟩
    exact ⟨_,mem_slot standing.stored found slot member⟩
  · rintro ⟨path,member,n,found,bound,rfl⟩
    have inside : i < n.payload.length := (standing.stored.slots p n found).symm ▸ bound
    have slot := List.getElem?_eq_getElem inside
    exact ⟨standing.reachable_iff.mpr ⟨n,found⟩,n,_,found,slot,(standing.stored.ids p n i _ found slot b).mpr member⟩

theorem occurs_unique (standing : Standing t pre T) {b : BlockId} {p q : Ptr} {i j : Nat} (left : Occurs t b p i)
    (right : Occurs t b q j) : p = q ∧ i = j := by
  obtain ⟨one,here,atP⟩ := (standing.occurs_iff b p i).mp left
  obtain ⟨two,there,atQ⟩ := (standing.occurs_iff b q j).mp right
  obtain rfl := standing.valid.single b one two here there
  exact standing.skeleton.at_unique atP atQ

theorem slot_iff (standing : Standing t pre T) (b : BlockId) (p : Ptr) : t.slot b = some p ↔ ∃ i, Occurs t b p i := by
  rw [standing.stored.indexed]
  constructor
  · rintro ⟨path,i,located⟩
    exact ⟨i,(standing.occurs_iff b p i).mpr ⟨path,located⟩⟩
  · rintro ⟨i,occurs⟩
    obtain ⟨path,located⟩ := (standing.occurs_iff b p i).mp occurs
    exact ⟨path,i,located⟩

-- Without ids no position is left, and a node without positions has no hashes.
theorem blank (standing : Standing t pre T) (free : ∀ b, t.slot b = none) {n : Node} (found : t.heap.read p = some n) :
    n.value = [] ∧ n.payload = [] := by
  have none : n.payload = [] := by
    cases positions : n.payload with
    | nil => rfl
    | cons bids rest =>
      have slot : n.payload[0]? = some bids := by rw [positions]; rfl
      obtain ⟨b,member⟩ := List.exists_mem_of_ne_nil _ (standing.stored.filled p n 0 bids found slot).1
      have held := (standing.slot_iff b p).mpr ⟨0,standing.reachable_iff.mpr ⟨n,found⟩,n,bids,found,slot,member⟩
      rw [free b] at held
      cases held
  have same := standing.stored.slots p n found
  rw [none] at same
  exact ⟨List.length_eq_zero_iff.mp same.symm,none⟩

theorem walkChildren_blank (standing : Standing t pre T) (free : ∀ b, t.slot b = none) {v : List Ptr}
    (live : ∀ c ∈ v, (∃ k, t.heap.read c = some k) ∧ c ≠ t.root) : t.walkChildren v = some () := by
  induction v with
  | nil => rfl
  | cons child rest ih =>
    obtain ⟨⟨c,found⟩,proper⟩ := live child List.mem_cons_self
    obtain ⟨value,payload⟩ := standing.blank free found
    have children := (children_isEmpty c.children).mpr (standing.skeleton.bare child c found proper value)
    simp only [RadixTreeBlockHash.walkChildren,found,Option.bind_eq_bind,Option.bind_some,value,payload,children]
    exact ih fun d member => live d (List.mem_cons_of_mem _ member)

theorem drains (standing : Standing t pre T) (free : ∀ b, t.slot b = none) : t.assertDrainedToOneLayer = some () := by
  obtain ⟨n,found,_⟩ := standing.skeleton.rootNode
  obtain ⟨value,payload⟩ := standing.blank free found
  simp only [RadixTreeBlockHash.assertDrainedToOneLayer,found,Option.bind_eq_bind,Option.bind_some,value,payload]
  refine standing.walkChildren_blank free fun c member => ?_
  obtain ⟨live,proper,_⟩ := standing.skeleton.child_live found member
  exact ⟨live,proper⟩

theorem represents (standing : Standing t pre T) (counted : t.Counted) : Represents t where
  allocated _ reach := standing.reachable_iff.mp reach
  indexed b := by
    constructor
    · rintro ⟨p,held⟩
      obtain ⟨i,occurs⟩ := (standing.slot_iff b p).mp held
      refine ⟨(p,i),occurs,?_⟩
      rintro ⟨q,j⟩ other
      obtain ⟨rfl,rfl⟩ := standing.occurs_unique occurs other
      rfl
    · rintro ⟨⟨p,i⟩,occurs,_⟩
      exact ⟨p,(standing.slot_iff b p).mpr ⟨i,occurs⟩⟩
  pointed b p held := (standing.slot_iff b p).mp held
  aligned p n _ found := standing.stored.slots p n found
  filled p n _ found bids member := by
    obtain ⟨i,slot⟩ := List.mem_iff_getElem?.mp member
    exact standing.stored.filled p n i bids found slot
  heads p n c d k l _ found left right differs one two filled _ same := by
    obtain ⟨_,properC,labelC⟩ := standing.skeleton.child_live found left
    obtain ⟨_,properD,labelD⟩ := standing.skeleton.child_live found right
    exact differs (standing.skeleton.heads c d k l one two properC properD (labelC.trans labelD.symm) filled same)
  keyed p n m first c k _ found large entry live filled := standing.skeleton.keyed p n m found large first c k entry live filled
  bare p n _ proper found empty := (children_isEmpty n.children).mpr (standing.skeleton.bare p n found proper empty)
  drained free := standing.drains free
  nodes := by
    have same : {p | Reachable t p} = {p | ∃ n, t.heap.read p = some n} := Set.ext fun p => standing.reachable_iff
    rw [same,t.heap.ncard_live]
    exact counted.symm

end Standing

def Call.apply {β : Type} [BlockHash β] (t : β) : Call → Option β
  | .insert hashes bids => (BlockHash.insert t hashes bids).map Prod.fst
  | .remove bids => BlockHash.remove t bids
  | .get query => (BlockHash.get t query).map fun _ => t

-- What a caller may pass, in terms of the tree the call meets.
def Call.Allowed (t : RadixTreeBlockHash) : Call → Prop
  | .insert hashes bids => hashes.length = bids.length ∧ bids.Nodup ∧ (∀ b ∈ bids, b < t.blockToNode.length) ∧
      ∀ (i : Nat) b, bids[i]? = some b → t.slot b = none ∨ RegisteredAt t b (hashes.take (i+1))
  | .remove bids => ∀ b ∈ bids, b < t.blockToNode.length
  | .get _ => True

-- A history every call of which is allowed where it is made.
def Admissible : RadixTreeBlockHash → List Call → Prop
  | _,[] => True
  | t,call::rest => call.Allowed t ∧ ∀ t', call.apply t = some t' → Admissible t' rest

theorem Standing.insertable (standing : Standing t pre T) {hashes : List Hash} {bids : List BlockId} (aligned : hashes.length = bids.length)
    (distinct : bids.Nodup) (placed : ∀ (i : Nat) b, bids[i]? = some b → t.slot b = none ∨ RegisteredAt t b (hashes.take (i+1))) :
    Insertable T [] hashes bids := by
  refine ⟨aligned,distinct,fun i b path named held => ?_⟩
  rcases placed i b named with free | registered
  · exact absurd ⟨path,held⟩ ((standing.unregistered b).mpr free)
  · exact standing.valid.single b path _ held ((standing.registeredAt_iff b _).mp registered)

theorem apply_represents {call : Call} (refines : Refines t T) (counted : t.Counted) (allowed : call.Allowed t) :
    ∃ t' T', call.apply t = some t' ∧ Refines t' T' ∧ t'.Counted := by
  cases call with
  | insert hashes bids =>
    obtain ⟨aligned,distinct,bound,placed⟩ := allowed
    obtain ⟨pre,standing⟩ := refines
    have legal := standing.insertable aligned distinct placed
    obtain ⟨t',result,_,refines'⟩ := Refines.insert_spec ⟨pre,standing⟩ legal bound
    have step : BlockHash.insert t hashes bids = some (t',_) := result
    exact ⟨t',_,by simp only [Call.apply,step,Option.map_some],refines',counted.insert result⟩
  | remove bids =>
    obtain ⟨t',result,_,refines'⟩ := refines.remove_spec allowed
    exact ⟨t',_,result,refines',counted.remove result⟩
  | get query =>
    have step : BlockHash.get t query = some (PrefixTrie.get T query) := refines.get_spec query
    exact ⟨t,T,by simp only [Call.apply,step,Option.map_some],refines,counted⟩

-- Induction on the history: no call panics, and the invariant holds where it ends.
theorem run_represents {calls : List Call} (refines : Refines t T) (counted : t.Counted) (admissible : Admissible t calls) :
    ∃ t', calls.foldlM Call.apply t = some t' ∧ Represents t' := by
  induction calls generalizing t T with
  | nil =>
    obtain ⟨pre,standing⟩ := refines
    exact ⟨t,rfl,standing.represents counted⟩
  | cons call rest ih =>
    obtain ⟨t',T',step,refines',counted'⟩ := apply_represents refines counted admissible.1
    obtain ⟨last,run,represents⟩ := ih refines' counted' (admissible.2 t' step)
    exact ⟨last,by rw [List.foldlM_cons,step]; exact run,represents⟩

theorem representation_invariant (numBlocks : Nat) (calls : List Call)
    (admissible : Admissible (RadixTreeBlockHash.new numBlocks) calls) :
    ∃ t, calls.foldlM Call.apply (RadixTreeBlockHash.new numBlocks) = some t ∧ Represents t :=
  run_represents (refines_new numBlocks) (RadixTreeBlockHash.counted_new numBlocks) admissible

-- The second insertion splits the node of the first, the removal cuts one of the halves.
theorem representation_invariant_split :
    ∃ t, [.insert [1,2] [0,1],.insert [1,3] [2,3],.remove [1],.get [1,2]].foldlM Call.apply (RadixTreeBlockHash.new 4) = some t ∧
      Represents t := by
  refine representation_invariant 4 _ ⟨⟨rfl,by decide,by decide,?_⟩,fun t₁ first => ⟨⟨rfl,by decide,?_,?_⟩,fun t₂ second => ⟨?_,fun _ _ =>
    ⟨trivial,fun _ _ => trivial⟩⟩⟩⟩
  · intro i b named
    have inside : b ∈ [0,1] := List.mem_of_getElem? named
    exact .inl ((by decide : ∀ b ∈ [0,1], (RadixTreeBlockHash.new 4).slot b = none) b inside)
  · have size : (Call.apply (RadixTreeBlockHash.new 4) (.insert [1,2] [0,1])).map (fun t => t.blockToNode.length) = some 4 := by decide
    rw [first,Option.map_some,Option.some.injEq] at size
    rw [size]
    decide
  · intro i b named
    have inside : b ∈ [2,3] := List.mem_of_getElem? named
    have free : (Call.apply (RadixTreeBlockHash.new 4) (.insert [1,2] [0,1])).map (fun t => (t.slot 2,t.slot 3)) = some (none,none) := by
      decide
    rw [first,Option.map_some,Option.some.injEq,Prod.mk.injEq] at free
    rcases List.mem_pair.mp inside with rfl | rfl
    · exact .inl free.1
    · exact .inl free.2
  · have size : ((Call.apply (RadixTreeBlockHash.new 4) (.insert [1,2] [0,1])).bind fun t =>
        (Call.apply t (.insert [1,3] [2,3])).map fun t => t.blockToNode.length) = some 4 := by decide
    rw [first,Option.bind_some,second,Option.map_some,Option.some.injEq] at size
    change ∀ b ∈ [1],b < t₂.blockToNode.length
    rw [size]
    decide

end BlitzRouter.Radix
