import BlitzRouter.RadixAlias

namespace BlitzRouter.Radix
open PrefixTrie RadixTreeBlockHash

variable {t t' : RadixTreeBlockHash} {pre : Ptr → List Hash} {T : Trie Hash BlockId}

-- A node with everything that hangs below it.
def Under (read : Ptr → Option Node) (root : Ptr) (pre : Ptr → List Hash) (c d : Ptr) : Prop :=
  d = c ∨ (∃ k, read c = some k ∧ k.value ≠ [] ∧ Below root pre (pre c++k.value) d) ∧ ∃ l, read d = some l

section Forest
variable {read : Ptr → Option Node} {root : Ptr} {p : Ptr} {n : Node}

theorem Skeleton.below_iff (shape : Skeleton read root pre) (parent : read p = some n) (proper : p = root ∨ n.value ≠ [])
    (live : read d = some l) : Below root pre (pre p++n.value) d ↔ ∃ c ∈ n.children.ptrs, Under read root pre c d := by
  constructor
  · rintro ⟨inner,suffix,equal⟩
    cases suffix with
    | nil =>
      rw [List.append_nil] at equal
      exact ⟨d,(shape.edge p n parent proper d).mpr ⟨⟨l,live⟩,inner,equal.symm⟩,.inl rfl⟩
    | cons x rest =>
      -- the child on the way to `d`
      rcases shape.label_at live inner with top | ⟨q,m,above,joined,located⟩
      · rw [top] at equal
        exact absurd equal (by simp)
      · have longer : pre p++n.value++[x] <+: pre d := ⟨rest,by simpa using equal⟩
        obtain ⟨r,i,short⟩ := shape.at_prefix located longer (by simp)
        obtain ⟨rfl,member,k,found,first⟩ := shape.at_child parent proper short
        have filled : k.value ≠ [] := by
          intro blank
          rw [blank] at first
          cases first
        refine ⟨r,member,.inr ⟨⟨k,found,filled,inner,?_⟩,l,live⟩⟩
        rcases shape.prefix_at short found located longer with rfl | deeper
        · cases Option.some.inj (found.symm.trans above)
          exact joined ▸ List.prefix_refl _
        · exact deeper.trans (joined ▸ List.prefix_append _ _)
  · rintro ⟨c,member,below⟩
    obtain ⟨_,inner,label⟩ := shape.child_live parent member
    rcases below with rfl | ⟨⟨k,_,_,proper',longer⟩,_⟩
    · exact ⟨inner,label ▸ List.prefix_refl _⟩
    · have own : pre c <+: pre c++k.value := List.prefix_append _ _
      exact ⟨proper',label ▸ own.trans longer⟩

-- Siblings have nothing below them in common.
theorem Skeleton.under_disjoint (shape : Skeleton read root pre) (parent : read p = some n) (left : c ∈ n.children.ptrs)
    (right : d ∈ n.children.ptrs) (one : Under read root pre c e) (two : Under read root pre d e) : c = d := by
  obtain ⟨_,innerC,labelC⟩ := shape.child_live parent left
  obtain ⟨_,innerD,labelD⟩ := shape.child_live parent right
  have same := labelC.trans labelD.symm
  have strict : ∀ {k : Node} {a b : Ptr}, k.value ≠ [] → pre a = pre b → ¬pre a++k.value <+: pre b := by
    intro k a b filled equal longer
    have le := longer.length_le
    rw [equal,List.length_append] at le
    have positive := List.length_pos_of_ne_nil filled
    omega
  rcases one with rfl | ⟨⟨k,foundC,filledC,_,longC⟩,_⟩ <;> rcases two with rfl | ⟨⟨l,foundD,filledD,_,longD⟩,_⟩
  · rfl
  · exact absurd longD (strict filledD same.symm)
  · exact absurd longC (strict filledC same)
  · refine shape.heads c d k l foundC foundD innerC innerD same filledC ?_
    obtain ⟨x,xs,valueC⟩ := List.exists_cons_of_ne_nil filledC
    obtain ⟨y,ys,valueD⟩ := List.exists_cons_of_ne_nil filledD
    obtain ⟨restC,equalC⟩ := longC
    obtain ⟨restD,equalD⟩ := longD
    rw [← equalD,same,List.append_assoc,List.append_assoc] at equalC
    have heads := List.append_cancel_left equalC
    rw [valueC,valueD] at heads ⊢
    simp only [List.cons_append,List.cons.injEq] at heads
    rw [heads.1]
    rfl

end Forest

theorem unregister_spec {ids : List BlockId} {table : List (Option Ptr)} (bound : ∀ b ∈ ids, b < table.length) :
    ∃ table', unregister ids table = some table' ∧ table'.length = table.length ∧
      ∀ b, table'[b]?.join = if b ∈ ids then none else table[b]?.join := by
  induction ids generalizing table with
  | nil => exact ⟨table,rfl,rfl,fun b => by simp⟩
  | cons x rest ih =>
    have inside := bound x (by simp)
    have bound' : ∀ b ∈ rest, b < (table.set x none).length := fun b member => by
      rw [List.length_set]; exact bound b (by simp [member])
    obtain ⟨table',result,size,slots⟩ := ih bound'
    refine ⟨table',?_,size.trans (List.length_set ..),fun b => ?_⟩
    · simp only [unregister,List.getElem?_eq_getElem inside,Option.bind_eq_bind,Option.bind_some,result]
    · have step : (table.set x none)[b]?.join = _ := congrFun (slot_set inside none) b
      rw [slots b]
      by_cases same : b = x
      · subst same
        rw [step,Function.update_self]
        simp
      · rw [step,Function.update_of_ne same]
        simp [same]

-- Cells in `S` are freed and the ids they held in `read` forgotten; nothing else changes.
structure Cleared (read : Ptr → Option Node) (t t' : RadixTreeBlockHash) (S : Ptr → Prop) : Prop where
  root : t'.root = t.root
  blocks : t'.blockToNode.length = t.blockToNode.length
  gone : ∀ d, S d → t'.heap.read d = none
  stays : ∀ d, ¬S d → t'.heap.read d = t.heap.read d
  dropped : ∀ b d n, S d → read d = some n → b ∈ n.payload.flatten → t'.slot b = none
  kept : ∀ b, (∀ d n, S d → read d = some n → b ∉ n.payload.flatten) → t'.slot b = t.slot b

-- The spec of one call: it needs the cells below the node as they were in `read`.
def Clears (read : Ptr → Option Node) (root : Ptr) (pre : Ptr → List Hash) (limit fuel : Nat) (c : Ptr) : Prop :=
  ∀ t : RadixTreeBlockHash, t.blockToNode.length = limit → (∀ d, Under read root pre c d → t.heap.read d = read d) →
    ∃ t' cleared, clearInner fuel t c true = some (t',cleared) ∧ Cleared read t t' (Under read root pre c)

def clearStep (fuel : Nat) (acc : RadixTreeBlockHash × Nat) (child : Ptr) : Option (RadixTreeBlockHash × Nat) := do
  let (t,more) ← clearInner fuel acc.1 child true
  return (t,acc.2+more)

theorem clear_list {read : Ptr → Option Node} {root : Ptr} {limit fuel : Nat} {cs : List Ptr} (distinct : cs.Nodup)
    (disjoint : ∀ c ∈ cs, ∀ d ∈ cs, ∀ e, Under read root pre c e → Under read root pre d e → c = d)
    (spec : ∀ c ∈ cs, Clears read root pre limit fuel c) (size : t.blockToNode.length = limit)
    (agree : ∀ c ∈ cs, ∀ d, Under read root pre c d → t.heap.read d = read d) (start : Nat) :
    ∃ t' cleared, cs.foldlM (clearStep fuel) (t,start) = some (t',cleared) ∧
      Cleared read t t' (fun d => ∃ c ∈ cs, Under read root pre c d) := by
  induction cs generalizing t start with
  | nil => exact ⟨t,start,rfl,rfl,rfl,by simp,fun _ _ => rfl,by simp,fun _ _ => rfl⟩
  | cons c rest ih =>
    obtain ⟨outside,distinct⟩ := List.nodup_cons.mp distinct
    obtain ⟨t₁,more,step,first⟩ := spec c (by simp) t size (agree c (by simp))
    have apart : ∀ d ∈ rest, ∀ e, Under read root pre d e → ¬Under read root pre c e := by
      intro d member e below both
      have same := disjoint c (by simp) d (by simp [member]) e both below
      exact outside (same ▸ member)
    obtain ⟨t',cleared,result,later⟩ := ih distinct (fun a left b right => disjoint a (by simp [left]) b (by simp [right]))
      (fun d member => spec d (by simp [member])) (first.blocks.trans size)
      (fun d member e below => (first.stays e (apart d member e below)).trans (agree d (by simp [member]) e below)) (start+more)
    refine ⟨t',cleared,?_,later.root.trans first.root,later.blocks.trans first.blocks,?_,?_,?_,?_⟩
    · simp only [List.foldlM_cons,clearStep,step,Option.bind_eq_bind,Option.bind_some]
      exact result
    · rintro d ⟨a,member,below⟩
      by_cases again : ∃ b ∈ rest, Under read root pre b d
      · exact later.gone d again
      · rw [later.stays d again]
        rcases List.mem_cons.mp member with rfl | member
        · exact first.gone d below
        · exact absurd ⟨a,member,below⟩ again
    · intro d outside'
      have here : ¬Under read root pre c d := fun below => outside' ⟨c,by simp,below⟩
      have there : ¬∃ b ∈ rest, Under read root pre b d := fun ⟨b,member,below⟩ => outside' ⟨b,by simp [member],below⟩
      rw [later.stays d there,first.stays d here]
    · rintro b d n ⟨a,member,below⟩ found held
      by_cases again : ∃ d n, (∃ a ∈ rest, Under read root pre a d) ∧ read d = some n ∧ b ∈ n.payload.flatten
      · obtain ⟨e,m,place,read',inside⟩ := again
        exact later.dropped b e m place read' inside
      · rw [later.kept b fun e m place read' inside => again ⟨e,m,place,read',inside⟩]
        rcases List.mem_cons.mp member with rfl | member
        · exact first.dropped b d n below found held
        · exact absurd ⟨d,n,⟨a,member,below⟩,found,held⟩ again
    · intro b free
      rw [later.kept b fun d n ⟨a,member,below⟩ => free d n ⟨a,by simp [member],below⟩,
        first.kept b fun d n below => free d n ⟨c,by simp,below⟩]

theorem mem_payload {read : Ptr → Option Node} {index : BlockId → Option Ptr} {n : Node} (stored : Stored read pre index T)
    (found : read p = some n) (member : b ∈ n.payload.flatten) :
    ∃ i, b ∈ T (pre p++n.value.take (i+1)) ∧ At read pre p i (pre p++n.value.take (i+1)) := by
  obtain ⟨bids,listed,here⟩ := List.mem_flatten.mp member
  obtain ⟨i,slot⟩ := List.mem_iff_getElem?.mp listed
  exact ⟨i,mem_slot stored found slot here⟩

theorem clearInner_step (fuel : Nat) (c : Ptr) {n : Node} (found : t.heap.read c = some n) (full : n.isEmpty = false)
    {table : List (Option Ptr)} (forgotten : unregister n.payload.flatten t.blockToNode = some table) :
    clearInner (fuel+1) t c true = do
      let acc ← n.children.ptrs.foldlM (clearStep fuel)
        ({t with heap := t.heap.write c {n with value := [],payload := []},blockToNode := table},n.payload.flatten.length)
      let t ← acc.1.lazyGc c
      return (t,acc.2) := by
  have same : (fun (acc : RadixTreeBlockHash × Nat) child => match acc with
      | (t,cleared) => do
        let (t,more) ← clearInner fuel t child true
        return (t,cleared+more)) = clearStep fuel := by
    funext ⟨t,cleared⟩ child
    rfl
  rw [← same]
  simp only [clearInner,found,full,Bool.false_eq_true,if_false,forgotten,if_true,Option.bind_eq_bind,Option.bind_some]

-- Every level below holds at least one more hash, so the fuel outlasts the longest path.
theorem clearInner_spec {read : Ptr → Option Node} {root : Ptr} {index : BlockId → Option Ptr} {limit fuel : Nat}
    (shape : Shape read root index pre T) (bound : ∀ x q, x ∈ T q → x < limit) {c : Ptr} (live : ∃ k, read c = some k)
    (proper : c ≠ root) (enough : limit+2 ≤ fuel+(pre c).length) : Clears read root pre limit fuel c := by
  induction fuel generalizing c with
  | zero =>
    obtain ⟨k,found⟩ := live
    have short : (pre c).length ≤ limit := by
      rcases shape.skeleton.label_at found proper with top | ⟨q,m,_,_,located⟩
      · rw [top]; exact Nat.zero_le _
      · exact length_le_of_ids shape.valid ((shape.present_iff _).mpr ⟨q,_,located⟩) bound
    omega
  | succ fuel ih =>
    obtain ⟨k,found⟩ := live
    intro t size agree
    have here : t.heap.read c = some k := (agree c (.inl rfl)).trans found
    have empty := shape.skeleton.isEmpty_iff found proper (shape.stored.slots c k found)
    by_cases blank : k.value = []
    · have alone : ∀ d, Under read root pre c d → d = c := by
        rintro d (same | ⟨⟨l,again,filled,_⟩,_⟩)
        · exact same
        · cases Option.some.inj (found.symm.trans again)
          exact absurd blank filled
      have none : k.payload = [] := List.eq_nil_of_length_eq_zero (by rw [shape.stored.slots c k found,blank]; rfl)
      have heap : ({t with heap := t.heap.free c,nodes := t.nodes-1} : RadixTreeBlockHash).heap.read =
          Function.update t.heap.read c Option.none := Arena.read_free _ c
      refine ⟨{t with heap := t.heap.free c,nodes := t.nodes-1},0,?_,rfl,rfl,?_,?_,?_,fun _ _ => rfl⟩
      · simp [clearInner,here,empty.mpr blank,lazyGc_eq here]
      · intro d below
        rw [heap,alone d below,Function.update_self]
      · intro d outside
        rw [heap,Function.update_of_ne fun same => outside (.inl same)]
      · intro b d n below again held
        rw [alone d below] at again
        cases Option.some.inj (found.symm.trans again)
        rw [none] at held
        cases held
    · have full : k.isEmpty = false := by
        rw [← Bool.not_eq_true,empty]; exact blank
      have filled : c = root ∨ k.value ≠ [] := .inr blank
      have inTable : ∀ b ∈ k.payload.flatten, b < t.blockToNode.length := by
        intro b member
        obtain ⟨i,held,_⟩ := mem_payload shape.stored found member
        exact size ▸ bound b _ held
      obtain ⟨table,forgotten,length,slots⟩ := unregister_spec inTable
      set t₁ : RadixTreeBlockHash := {t with heap := t.heap.write c {k with value := [],payload := []},blockToNode := table} with t₁Def
      have heap₁ : t₁.heap.read = Function.update t.heap.read c (some {k with value := [],payload := []}) :=
        Arena.read_write _ here
      have child : ∀ d ∈ k.children.ptrs, _ := fun d member => shape.skeleton.child_live (c := d) found member
      have lower : ∀ d e, d ∈ k.children.ptrs → Under read root pre d e → Under read root pre c e ∧ e ≠ c := by
        intro d e member below
        have liveE : ∃ l, read e = some l := by
          rcases below with rfl | ⟨_,live⟩
          · exact (child e member).1
          · exact live
        have belowC := (shape.skeleton.below_iff found filled liveE.choose_spec).mpr ⟨d,member,below⟩
        refine ⟨.inr ⟨⟨k,found,blank,belowC⟩,liveE⟩,?_⟩
        rintro rfl
        have le := belowC.2.length_le
        rw [List.length_append] at le
        have positive := List.length_pos_of_ne_nil blank
        omega
      obtain ⟨t₂,cleared,result,done⟩ := clear_list (shape.skeleton.distinct c k found)
        (fun d left e right f => shape.skeleton.under_disjoint found left right)
        (fun d member => ih (child d member).1 (child d member).2.1 (by
          rw [(child d member).2.2,List.length_append]
          have positive := List.length_pos_of_ne_nil blank
          omega))
        (length.trans size : t₁.blockToNode.length = limit)
        (fun d member e below => by
          obtain ⟨inside,apart⟩ := lower d e member below
          rw [heap₁,Function.update_of_ne apart]
          exact agree e inside) k.payload.flatten.length
      have notC : ¬∃ d ∈ k.children.ptrs, Under read root pre d c := fun ⟨d,member,below⟩ => (lower d c member below).2 rfl
      have stays : t₂.heap.read c = some {k with value := [],payload := []} := by
        rw [done.stays c notC,heap₁,Function.update_self]
      set t' : RadixTreeBlockHash := {t₂ with heap := t₂.heap.free c,nodes := t₂.nodes-1} with t'Def
      have heap' : t'.heap.read = Function.update t₂.heap.read c Option.none := Arena.read_free _ c
      have slot₁ : ∀ b, t₁.slot b = if b ∈ k.payload.flatten then Option.none else t.slot b := slots
      have split : ∀ d, Under read root pre c d → d = c ∨ ∃ e ∈ k.children.ptrs, Under read root pre e d := by
        rintro d (same | ⟨⟨l,again,_,belowC⟩,liveD⟩)
        · exact .inl same
        · cases Option.some.inj (found.symm.trans again)
          exact .inr ((shape.skeleton.below_iff found filled liveD.choose_spec).mp belowC)
      refine ⟨t',cleared,?_,done.root,done.blocks.trans length,?_,?_,?_,?_⟩
      · rw [clearInner_step fuel c here full forgotten]
        simp only [← t₁Def,result,Option.bind_eq_bind,Option.bind_some,lazyGc_eq stays]
        rfl
      · intro d below
        rw [heap']
        by_cases same : d = c
        · rw [same,Function.update_self]
        · rw [Function.update_of_ne same]
          exact done.gone d ((split d below).resolve_left same)
      · intro d outside
        have apart : d ≠ c := fun same => outside (.inl same)
        have free : ¬∃ e ∈ k.children.ptrs, Under read root pre e d := fun ⟨e,member,below⟩ => outside (lower e d member below).1
        rw [heap',Function.update_of_ne apart,done.stays d free,heap₁,Function.update_of_ne apart]
      · intro b d n below again held
        rcases split d below with rfl | inside
        · cases Option.some.inj (found.symm.trans again)
          show t₂.slot b = Option.none
          by_cases also : ∃ d n, (∃ e ∈ k.children.ptrs, Under read root pre e d) ∧ read d = some n ∧ b ∈ n.payload.flatten
          · obtain ⟨e,m,place,read',inside⟩ := also
            exact done.dropped b e m place read' inside
          · rw [done.kept b fun e m place read' inside => also ⟨e,m,place,read',inside⟩,slot₁,if_pos held]
        · exact done.dropped b d n inside again held
      · intro b free
        show t₂.slot b = t.slot b
        rw [done.kept b fun d n ⟨e,member,below⟩ => free d n (lower e d member below).1,slot₁,
          if_neg (free c k (.inl rfl) found)]

theorem Standing.clearChildren_spec {n : Node} (standing : Standing t pre T) (found : t.heap.read p = some n)
    (filled : n.value ≠ []) (blocks : t'.blockToNode.length = t.blockToNode.length)
    (agree : ∀ q, q ≠ p → t'.heap.read q = t.heap.read q) :
    ∃ t'' cleared, t'.clearChildren n.children.ptrs = some (t'',cleared) ∧
      Cleared t.heap.read t' t'' (fun d => ∃ c ∈ n.children.ptrs, Under t.heap.read t.root pre c d) := by
  have bound : ∀ x q, x ∈ T q → x < t.blockToNode.length := by
    intro x q held
    obtain ⟨p,at_⟩ := (standing.registered_iff x).mp ⟨q,held⟩
    exact slot_bound at_
  have below : ∀ c ∈ n.children.ptrs, ∀ d, Under t.heap.read t.root pre c d → d ≠ p := by
    rintro c member d under rfl
    obtain ⟨_,longer⟩ := (standing.skeleton.below_iff found (.inr filled) found).mpr ⟨c,member,under⟩
    have le := longer.length_le
    rw [List.length_append] at le
    have positive := List.length_pos_of_ne_nil filled
    omega
  obtain ⟨t'',cleared,result,done⟩ := clear_list (standing.skeleton.distinct p n found)
    (fun c left d right e => standing.skeleton.under_disjoint found left right)
    (fun c member => clearInner_spec standing bound (standing.skeleton.child_live found member).1
      (standing.skeleton.child_live found member).2.1 (Nat.le_add_right _ _))
    blocks (fun c member d under => agree d (below c member d under)) 0
  refine ⟨t'',cleared,?_,done⟩
  have same : (fun (acc : RadixTreeBlockHash × Nat) child => match acc with
      | (u,cleared) => do
        let (u,more) ← clearInner t'.clearFuel u child true
        return (u,cleared+more)) = clearStep (t.blockToNode.length+2) := by
    funext ⟨u,cleared⟩ child
    rw [clearFuel,blocks]
    rfl
  rw [clearChildren,same]
  exact result

theorem findIdx?_slot {payload : List Bids} {i : Nat} {bids : Bids} (place : payload[i]? = some bids) (member : b ∈ bids)
    (unique : ∀ j others, payload[j]? = some others → b ∈ others → j = i) :
    payload.findIdx? (fun bids => bids.contains b) = some i := by
  obtain ⟨bound,rfl⟩ := List.getElem?_eq_some_iff.mp place
  rw [List.findIdx?_eq_some_iff_getElem]
  refine ⟨bound,by simpa using member,?_⟩
  intro j less held
  have same := unique j _ (List.getElem?_eq_getElem (by omega)) (by simpa using held)
  omega

theorem Standing.below_ids {n : Node} {i : Nat} (standing : Standing t pre T) (below : Below t.root pre (pre p++n.value) q) (read : t.heap.read q = some m)
    (inside : x ∈ m.payload.flatten) : ∃ path, x ∈ T path ∧ pre p++n.value.take (i+1) <+: path := by
  obtain ⟨j,inJ,_⟩ := mem_payload standing.stored read inside
  have upper : pre p++n.value.take (i+1) <+: pre p++n.value := (List.prefix_append_right_inj _).mpr (List.take_prefix _ _)
  exact ⟨_,inJ,(upper.trans below.2).trans (List.prefix_append _ _)⟩

section Truncate
variable {p : Ptr} {n : Node} {i : Nat} (standing : Standing t pre T) (found : t.heap.read p = some n)
include standing found

theorem Standing.tail_ids (inTail : x ∈ (n.payload.drop (i+1)).flatten) :
    ∃ j, i < j ∧ x ∈ T (pre p++n.value.take (j+1)) := by
  obtain ⟨others,listed,here⟩ := List.mem_flatten.mp inTail
  obtain ⟨j,slot⟩ := List.mem_iff_getElem?.mp listed
  rw [List.getElem?_drop] at slot
  exact ⟨i+1+j,by omega,(mem_slot standing.stored found slot here).1⟩

-- An id past the cut sits at the cut, after it in the node, or below the node.
theorem Standing.cut_ids (inside : i < n.value.length) (inPath : x ∈ T path) (longer : pre p++n.value.take (i+1) <+: path) :
    x ∈ T (pre p++n.value.take (i+1)) ∨ x ∈ (n.payload.drop (i+1)).flatten ∨
      ∃ q m, Below t.root pre (pre p++n.value) q ∧ t.heap.read q = some m ∧ x ∈ m.payload.flatten := by
  obtain ⟨q,j,m,read,bound,rfl⟩ := standing.stored.covered path x inPath
  have slot := List.getElem?_eq_getElem (standing.stored.slots q m read ▸ bound : j < m.payload.length)
  have here := (standing.stored.ids q m j _ read slot x).mpr inPath
  rcases standing.skeleton.prefix_at ⟨n,found,inside,rfl⟩ found ⟨m,read,bound,rfl⟩ longer with rfl | deeper
  · cases Option.some.inj (found.symm.trans read)
    have le := longer.length_le
    simp only [List.length_append,List.length_take] at le
    rcases Nat.eq_or_lt_of_le (show i ≤ j by omega) with rfl | above
    · exact .inl inPath
    · refine .inr (.inl (List.mem_flatten.mpr ⟨_,List.mem_iff_getElem?.mpr ⟨j-(i+1),?_⟩,here⟩))
      rw [List.getElem?_drop,Nat.add_sub_cancel' above,slot]
  · exact .inr (.inr ⟨q,m,⟨standing.skeleton.ne_root read (List.ne_nil_of_length_pos (by omega)),deeper⟩,read,
      List.mem_flatten.mpr ⟨_,List.mem_of_getElem? slot,here⟩⟩)

-- `u` is the tree once the last id of the position is off: only that node and that slot differ.
theorem Standing.truncateAt_spec {u : RadixTreeBlockHash} {cell : Node} (inside : i < n.value.length)
    (only : T (pre p++n.value.take (i+1)) = {b}) (root : u.root = t.root) (blocks : u.blockToNode.length = t.blockToNode.length)
    (heap : u.heap.read = Function.update t.heap.read p (some cell)) (slots : u.slot = Function.update t.slot b none) :
    ∃ t' removed children, u.truncateAt p n i = some (t',removed) ∧ t'.root = t.root ∧
      t'.blockToNode.length = t.blockToNode.length ∧
      CutAt t.heap.read t'.heap.read t.root t.slot t'.slot pre T p n i children := by
  have filled : n.value ≠ [] := List.ne_nil_of_length_pos (by omega)
  have inT : b ∈ T (pre p++n.value.take (i+1)) := only ▸ rfl
  have inTable : ∀ x ∈ (n.payload.drop (i+1)).flatten, x < u.blockToNode.length := by
    intro x inTail
    obtain ⟨j,_,inJ⟩ := standing.tail_ids found inTail
    obtain ⟨q,at_⟩ := (standing.registered_iff x).mp ⟨_,inJ⟩
    rw [blocks]
    exact slot_bound at_
  obtain ⟨table,forgotten,length,tableSlots⟩ := unregister_spec inTable
  set half : Node := {n with value := n.value.take i,payload := n.payload.take i} with halfDef
  set v : RadixTreeBlockHash := {u with heap := u.heap.write p half,blockToNode := table} with vDef
  have foundU : u.heap.read p = some cell := by rw [heap,Function.update_self]
  have heapV : v.heap.read = Function.update t.heap.read p (some half) := by
    have written : v.heap.read = Function.update u.heap.read p (some half) := Arena.read_write _ foundU
    rw [written,heap,Function.update_idem]
  have slotV : ∀ x, v.slot x = if x ∈ (n.payload.drop (i+1)).flatten then none else if x = b then none else t.slot x := by
    intro x
    have now : v.slot x = if x ∈ (n.payload.drop (i+1)).flatten then none else u.slot x := tableSlots x
    rw [now,slots]
    by_cases same : x = b <;> simp [same]
  have cutSlot : ∀ x, x ∈ T (pre p++n.value.take (i+1)) ∨ x ∈ (n.payload.drop (i+1)).flatten → v.slot x = none := by
    rintro x (inCut | inTail)
    · rw [only] at inCut
      cases inCut
      rw [slotV]
      split <;> simp
    · rw [slotV,if_pos inTail]
  have keptSlot : ∀ x, (∀ path, x ∈ T path → ¬pre p++n.value.take (i+1) <+: path) → v.slot x = t.slot x := by
    intro x outside
    have notTail : x ∉ (n.payload.drop (i+1)).flatten := by
      intro inTail
      obtain ⟨j,less,inJ⟩ := standing.tail_ids found inTail
      exact outside _ inJ ((List.prefix_append_right_inj _).mpr (List.take_prefix_take_left (by omega)))
    have notB : x ≠ b := by
      rintro rfl
      exact outside _ inT (List.prefix_refl _)
    rw [slotV,if_neg notTail,if_neg notB]
  have otherV : ∀ q, q ≠ p → v.heap.read q = t.heap.read q := fun q apart => by rw [heapV,Function.update_of_ne apart]
  have start : u.truncateAt p n i = if n.children.isEmpty then some (v,(n.payload.drop (i+1)).flatten.length) else do
      let (t,cleared) ← v.clearChildren n.children.ptrs
      let t ← t.setChildren p n.children.clear
      return (t,(n.payload.drop (i+1)).flatten.length+cleared) := by
    simp only [truncateAt,forgotten,Option.bind_eq_bind,Option.bind_some,Option.pure_def]
    rfl
  have under_iff : ∀ q m, t.heap.read q = some m → (Below t.root pre (pre p++n.value) q ↔
      ∃ c ∈ n.children.ptrs, Under t.heap.read t.root pre c q) :=
    fun q m read => standing.skeleton.below_iff found (.inr filled) read
  by_cases leaf : n.children.isEmpty = true
  · have none := (children_isEmpty _).mp leaf
    have nothing : ∀ q m, Below t.root pre (pre p++n.value) q → t.heap.read q ≠ some m := by
      intro q m below read
      obtain ⟨c,member,_⟩ := (under_iff q m read).mp below
      rw [none] at member
      cases member
    refine ⟨v,_,n.children,by rw [start,if_pos leaf],root,length.trans blocks,found,inside,none,?_,?_,?_,?_,keptSlot⟩
    · rw [heapV,Function.update_self]
    · intro q apart below
      rw [otherV q apart]
      exact Option.eq_none_iff_forall_ne_some.mpr fun m => nothing q m below
    · exact fun q apart _ => otherV q apart
    · intro x path inPath longer
      rcases standing.cut_ids found inside inPath longer with inCut | inTail | ⟨q,m,below,read,_⟩
      · exact cutSlot x (.inl inCut)
      · exact cutSlot x (.inr inTail)
      · exact absurd read (nothing q m below)
  · obtain ⟨w,cleared,result,done⟩ := standing.clearChildren_spec found filled (length.trans blocks : v.blockToNode.length = _) otherV
    have notP : ¬∃ c ∈ n.children.ptrs, Under t.heap.read t.root pre c p := by
      intro under
      have le := ((under_iff p n found).mpr under).2.length_le
      rw [List.length_append] at le
      have positive := List.length_pos_of_ne_nil filled
      omega
    have foundW : w.heap.read p = some half := by rw [done.stays p notP,heapV,Function.update_self]
    set t' : RadixTreeBlockHash := {w with heap := w.heap.write p {half with children := n.children.clear}} with t'Def
    have heap' : t'.heap.read = Function.update w.heap.read p (some {half with children := n.children.clear}) :=
      Arena.read_write _ foundW
    refine ⟨t',(n.payload.drop (i+1)).flatten.length+cleared,n.children.clear,?_,done.root.trans root,
      done.blocks.trans (length.trans blocks),found,inside,ptrs_clear _,?_,?_,?_,?_,?_⟩
    · rw [start,if_neg leaf]
      simp only [result,setChildren_eq foundW,Option.bind_eq_bind,Option.bind_some]
      rfl
    · rw [heap',Function.update_self]
    · intro q apart below
      rw [heap',Function.update_of_ne apart]
      by_cases under : ∃ c ∈ n.children.ptrs, Under t.heap.read t.root pre c q
      · exact done.gone q under
      · rw [done.stays q under,otherV q apart]
        exact Option.eq_none_iff_forall_ne_some.mpr fun m read => under ((under_iff q m read).mp below)
    · intro q apart outside
      have free : ¬∃ c ∈ n.children.ptrs, Under t.heap.read t.root pre c q := by
        rintro ⟨c,member,under⟩
        have live : ∃ m, t.heap.read q = some m := by
          rcases under with rfl | ⟨_,live⟩
          · exact (standing.skeleton.child_live found member).1
          · exact live
        exact outside ((under_iff q _ live.choose_spec).mpr ⟨c,member,under⟩)
      rw [heap',Function.update_of_ne apart,done.stays q free,otherV q apart]
    · intro x path inPath longer
      show w.slot x = none
      by_cases also : ∃ d m, (∃ c ∈ n.children.ptrs, Under t.heap.read t.root pre c d) ∧ t.heap.read d = some m ∧
          x ∈ m.payload.flatten
      · obtain ⟨d,m,under,read,held⟩ := also
        exact done.dropped x d m under read held
      · rw [done.kept x fun d m under read held => also ⟨d,m,under,read,held⟩]
        rcases standing.cut_ids found inside inPath longer with inCut | inTail | ⟨q,m,below,read,held⟩
        · exact cutSlot x (.inl inCut)
        · exact cutSlot x (.inr inTail)
        · exact absurd ⟨q,m,(under_iff q m read).mp below,read,held⟩ also
    · intro x outside
      show w.slot x = t.slot x
      rw [done.kept x fun d m under read held => ?_,keptSlot x outside]
      obtain ⟨path,inPath,longer⟩ := standing.below_ids ((under_iff d m read).mpr under) read held
      exact outside path inPath longer

end Truncate

theorem Standing.removeBlock_spec (standing : Standing t pre T) (b : BlockId) (bound : b < t.blockToNode.length) :
    ∃ t' removed, t.removeBlock b = some (t',removed) ∧ t'.root = t.root ∧
      t'.blockToNode.length = t.blockToNode.length ∧ Standing t' pre (removeAt T b) := by
  cases held : t.slot b with
  | none =>
    refine ⟨t,0,?_,rfl,rfl,?_⟩
    · simp [removeBlock,slot_read bound,held]
    · rw [removeAt_absent ((standing.unregistered b).mpr held)]
      exact standing
  | some p =>
    obtain ⟨n,i,bids,found,place,member,inT⟩ := standing.slot_of held
    obtain ⟨_,located⟩ := mem_slot standing.stored found place member
    have inside := (List.getElem?_eq_some_iff.mp place).1
    have slots := standing.stored.slots p n found
    obtain ⟨_,nodup⟩ := standing.stored.filled p n i bids found place
    have position : n.payload.findIdx? (fun bids => bids.contains b) = some i := by
      refine findIdx?_slot place member fun j others again here => ?_
      obtain ⟨inJ,atJ⟩ := mem_slot standing.stored found again here
      rw [standing.valid.single b _ _ inT inJ] at located
      exact (standing.skeleton.at_unique atJ located).2
    set u : RadixTreeBlockHash := {t with
      heap := t.heap.write p {n with payload := n.payload.set i (bids.erase b)}
      blockToNode := t.blockToNode.set b none} with uDef
    have heapU : u.heap.read = Function.update t.heap.read p (some {n with payload := n.payload.set i (bids.erase b)}) :=
      Arena.read_write _ found
    have slotU : u.slot = Function.update t.slot b none := slot_set bound none
    by_cases more : bids.erase b = []
    · -- `b` was the last id of its position
      have only : T (pre p++n.value.take (i+1)) = {b} := by
        ext x
        rw [← standing.stored.ids p n i bids found place x,Set.mem_singleton_iff]
        constructor
        · intro here
          apply Classical.byContradiction
          intro differs
          have left : x ∈ bids.erase b := nodup.mem_erase_iff.mpr ⟨differs,here⟩
          rw [more] at left
          cases left
        · rintro rfl; exact member
      obtain ⟨t',removed,children,result,root,blocks,cut⟩ := standing.truncateAt_spec found (slots ▸ inside) only
        (rfl : u.root = t.root) (List.length_set ..) heapU slotU
      refine ⟨t',1+removed,?_,root,blocks,Standing.of_shape (Shape.cut standing cut only) root rfl rfl⟩
      simp only [removeBlock,slot_read bound,held,found,position,place,Option.bind_eq_bind,Option.bind_some,Option.pure_def,
        more,ne_eq,not_true,if_false]
      rw [more] at uDef
      rw [← uDef,result]
      rfl
    · refine ⟨u,1,?_,rfl,List.length_set ..,?_⟩
      · simp only [removeBlock,slot_read bound,held,found,position,place,Option.bind_eq_bind,Option.bind_some,Option.pure_def,
          ne_eq,more,not_false_eq_true,if_true]
        rfl
      · exact Standing.of_shape (Shape.shed standing found place member more) rfl heapU slotU

def removeStep (acc : RadixTreeBlockHash × Nat) (b : BlockId) : Option (RadixTreeBlockHash × Nat) := do
  let (t,removed) ← acc.1.removeBlock b
  return (t,acc.2+removed)

theorem removeInner_eq (ids : List BlockId) : t.removeInner ids = ids.reverse.foldlM removeStep (t,0) := by
  have same : (fun (acc : RadixTreeBlockHash × Nat) b => match acc with
      | (u,canary) => do
        let (u,removed) ← u.removeBlock b
        return (u,canary+removed)) = removeStep := by
    funext ⟨u,canary⟩ b
    rfl
  rw [← same]
  rfl

theorem remove_list {ids : List BlockId} (refines : Refines t T) (bound : ∀ b ∈ ids, b < t.blockToNode.length) (canary : Nat) :
    ∃ t' removed, ids.foldlM removeStep (t,canary) = some (t',removed) ∧ t'.blockToNode.length = t.blockToNode.length ∧
      Refines t' (ids.foldl removeAt T) := by
  induction ids generalizing t T canary with
  | nil => exact ⟨t,canary,rfl,rfl,refines⟩
  | cons b rest ih =>
    obtain ⟨pre,standing⟩ := refines
    obtain ⟨t₁,removed,step,_,blocks,standing₁⟩ := standing.removeBlock_spec b (bound b (by simp))
    obtain ⟨t',total,result,blocks',refines'⟩ := ih ⟨pre,standing₁⟩
      (fun x member => by rw [blocks]; exact bound x (by simp [member])) (canary+removed)
    refine ⟨t',total,?_,blocks'.trans blocks,refines'⟩
    simp only [List.foldlM_cons,removeStep,step,Option.bind_eq_bind,Option.bind_some]
    exact result

-- An id past the table is an index out of bounds, whatever was removed before it.
theorem remove_list_outside {ids : List BlockId} (refines : Refines t T) (outside : ∃ b ∈ ids, t.blockToNode.length ≤ b)
    (canary : Nat) : ids.foldlM removeStep (t,canary) = none := by
  induction ids generalizing t T canary with
  | nil => obtain ⟨b,member,_⟩ := outside; cases member
  | cons b rest ih =>
    by_cases bound : b < t.blockToNode.length
    · obtain ⟨pre,standing⟩ := refines
      obtain ⟨t₁,removed,step,_,blocks,standing₁⟩ := standing.removeBlock_spec b bound
      have later : ∃ x ∈ rest, t₁.blockToNode.length ≤ x := by
        obtain ⟨x,member,high⟩ := outside
        rcases List.mem_cons.mp member with rfl | member
        · exact absurd bound (Nat.not_lt_of_le high)
        · exact ⟨x,member,blocks ▸ high⟩
      simp only [List.foldlM_cons,removeStep,step,Option.bind_eq_bind,Option.bind_some]
      exact ih ⟨pre,standing₁⟩ later (canary+removed)
    · have missing : t.blockToNode[b]? = none := List.getElem?_eq_none (Nat.le_of_not_gt bound)
      simp [removeStep,removeBlock,missing]

-- The ids are taken from last to first.
theorem Refines.removeInner_spec {ids : List BlockId} (refines : Refines t T) (bound : ∀ b ∈ ids, b < t.blockToNode.length) :
    ∃ t' removed, t.removeInner ids = some (t',removed) ∧ t'.blockToNode.length = t.blockToNode.length ∧
      Refines t' (PrefixTrie.remove T ids) := by
  obtain ⟨t',removed,result,blocks,refines'⟩ := remove_list refines
    (fun b member => bound b (List.mem_reverse.mp member) : ∀ b ∈ ids.reverse, b < t.blockToNode.length) 0
  refine ⟨t',removed,by rw [removeInner_eq,result],blocks,?_⟩
  rw [PrefixTrie.remove,List.foldr_eq_foldl_reverse]
  exact refines'

end BlitzRouter.Radix
