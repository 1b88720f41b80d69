import BlitzRouter.RadixDescent

namespace BlitzRouter.Radix
open PrefixTrie CommonPrefix RadixTreeBlockHash

variable {t t' : RadixTreeBlockHash} {pre : Ptr → List Hash} {T : Trie Hash BlockId}

theorem slot_set {table : List (Option Ptr)} {b : BlockId} (bound : b < table.length) (value : Option Ptr) :
    (fun x => (table.set b value)[x]?.join) = Function.update (fun x => table[x]?.join) b value := by
  funext x
  by_cases same : x = b
  · subst same; simp [bound]
  · simp [Function.update_of_ne same,List.getElem?_set_ne (Ne.symm same)]

theorem slot_read (bound : b < t.blockToNode.length) : t.blockToNode[b]? = some (t.slot b) := by
  rw [slot,List.getElem?_eq_getElem bound]; rfl

theorem slot_bound (held : t.slot b = some p) : b < t.blockToNode.length := by
  apply Classical.byContradiction
  intro outside
  rw [slot,List.getElem?_eq_none (Nat.le_of_not_gt outside)] at held
  cases held

-- Aliases change payloads and the table; the forest stays.
structure SameForest (t t' : RadixTreeBlockHash) : Prop where
  root : t'.root = t.root
  blocks : t'.blockToNode.length = t.blockToNode.length
  core : ∀ q, (t'.heap.read q).map core = (t.heap.read q).map core

theorem SameForest.refl (t : RadixTreeBlockHash) : SameForest t t := ⟨rfl,rfl,fun _ => rfl⟩

theorem SameForest.trans (one : SameForest t t') (two : SameForest t' t'') : SameForest t t'' :=
  ⟨two.root.trans one.root,two.blocks.trans one.blocks,fun q => (two.core q).trans (one.core q)⟩

theorem SameForest.node {n : Node} (same : SameForest t t') (found : t.heap.read p = some n) :
    ∃ m, t'.heap.read p = some m ∧ m.children = n.children ∧ m.value = n.value :=
  core_some (same.core p).symm found

theorem SameForest.ends (same : SameForest t t') (end_ : Ends t.heap.read t.root pre p path) :
    Ends t'.heap.read t'.root pre p path := by
  obtain ⟨n,found,proper,rfl⟩ := end_
  obtain ⟨m,here,_,value⟩ := same.node found
  exact ⟨m,here,by rw [value,same.root]; exact proper,by rw [value]⟩

theorem SameForest.ready (same : SameForest t t') (ready : Ready t p first) : Ready t' p first := by
  obtain ⟨n,found,free⟩ := ready
  obtain ⟨m,here,children,_⟩ := same.node found
  refine ⟨m,here,?_⟩
  rw [children]
  cases shape : n.children with
  | small v =>
    rw [shape] at free
    intro c member
    obtain ⟨k,child,filled,differs⟩ := free c member
    obtain ⟨l,again,_,value⟩ := same.node child
    exact ⟨l,again,by rw [value]; exact filled,by rw [value]; exact differs⟩
  | large table =>
    rw [shape] at free
    exact free

theorem Standing.aliasAt_spec {n : Node} {i : Nat} (standing : Standing t pre T) (found : t.heap.read p = some n)
    (position : i < n.value.length) (bound : b < t.blockToNode.length) :
    ∃ t', t.aliasAt p i b = some t' ∧ Standing t' pre (insertAt T (pre p++n.value.take (i+1)) b) ∧ SameForest t t' := by
  have inside : i < n.payload.length := (standing.stored.slots p n found).symm ▸ position
  have place := List.getElem?_eq_getElem inside
  cases held : t.slot b with
  | some q =>
    have known : Registered T b := (standing.registered_iff b).mpr ⟨q,held⟩
    refine ⟨t,?_,by rw [insertAt_known known]; exact standing,SameForest.refl t⟩
    simp [aliasAt,slot_read bound,held]
  | none =>
    refine ⟨{t with
      heap := t.heap.write p {n with payload := n.payload.set i (n.payload[i]++[b])}
      blockToNode := t.blockToNode.set b (some p)},?_,?_,rfl,List.length_set ..,?_⟩
    · simp [aliasAt,slot_read bound,held,found,place]
    · exact Standing.of_shape (Shape.alias standing found place held) rfl (Arena.read_write _ found) (slot_set bound _)
    · intro q
      simp only [Arena.read_write _ found]
      by_cases self : q = p
      · subst self; rw [Function.update_self,found]; rfl
      · rw [Function.update_of_ne self]

theorem Standing.aliasFrom_spec {n : Node} (standing : Standing t pre T) (found : t.heap.read p = some n)
    (ids : List BlockId) (i : Nat) (positions : i+ids.length ≤ n.value.length)
    (bound : ∀ b ∈ ids, b < t.blockToNode.length) :
    ∃ t', t.aliasFrom p i ids = some t' ∧ SameForest t t' ∧
      Standing t' pre (insertFrom (pre p++n.value.take i) ((n.value.drop i).take ids.length) ids T) := by
  induction ids generalizing t T n i with
  | nil => exact ⟨t,rfl,SameForest.refl t,by simpa [insertFrom] using standing⟩
  | cons b rest ih =>
    simp only [List.length_cons] at positions
    obtain ⟨t₁,step,standing₁,same₁⟩ := standing.aliasAt_spec found (show i < n.value.length by omega) (bound b (by simp))
    obtain ⟨m,found₁,_,value⟩ := same₁.node found
    obtain ⟨t',result,same,standing'⟩ := ih standing₁ found₁ (i+1) (by rw [value]; omega) fun x member => by
      rw [same₁.blocks]; exact bound x (by simp [member])
    refine ⟨t',by simp [aliasFrom,step,result],same₁.trans same,?_⟩
    rw [value] at standing'
    have head : (n.value.drop i).take (rest.length+1) = n.value[i]::(n.value.drop (i+1)).take rest.length := by
      rw [List.drop_eq_getElem_cons (by omega),List.take_succ_cons]
    rw [List.length_cons,head,insertFrom,List.append_assoc,← List.take_succ_eq_append_getElem (by omega)]
    exact standing'

-- Walking one node stops where the key does or leaves the node.
theorem aliasNode_eq (c : Ptr) {aliases : List BlockId} {v key : List Hash} (enough : key.length = aliases.length) (i : Nat) :
    t.aliasNode c i v key aliases = (t.aliasFrom c i (aliases.take (commonLen v key))).map
      fun t => (t,key.drop (commonLen v key),aliases.drop (commonLen v key)) := by
  induction v generalizing t key aliases i with
  | nil => simp [aliasNode,aliasFrom]
  | cons x v ih =>
    cases key with
    | nil => simp [aliasNode,aliasFrom]
    | cons k key =>
      cases aliases with
      | nil => simp at enough
      | cons b aliases =>
        by_cases same : x = k
        · simp only [aliasNode,same,if_true,commonLen,List.head?_cons,List.tail_cons,List.take_succ_cons,aliasFrom,
            List.drop_succ_cons,Option.bind_eq_bind,Option.bind_some]
          cases t.aliasAt c i b with
          | none => rfl
          | some t₁ => simpa using ih (by simpa using enough) (i+1)
        · simp [aliasNode,aliasFrom,same,commonLen]

theorem findHead_spec {v : List Ptr} (live : ∀ c ∈ v, ∃ k, t.heap.read c = some k) {first : Hash} {c : Ptr} {k : Node}
    (member : c ∈ v) (found : t.heap.read c = some k) (head : k.value.head? = some first)
    (unique : ∀ d ∈ v, ∀ l, t.heap.read d = some l → l.value.head? = some first → d = c) :
    t.findHead first v = some (some c) := by
  induction v with
  | nil => cases member
  | cons d rest ih =>
    obtain ⟨l,read⟩ := live d (by simp)
    by_cases hit : l.value.head? = some first
    · obtain rfl := unique d (by simp) l read hit
      simp [findHead,read,hit]
    · have inside : c ∈ rest := by
        rcases List.mem_cons.mp member with rfl | inside
        · cases Option.some.inj (found.symm.trans read)
          exact absurd head hit
        · exact inside
      simp only [findHead,read,hit,Option.bind_eq_bind,Option.bind_some,if_false]
      exact ih (fun e here => live e (by simp [here])) inside fun e here => unique e (by simp [here])

theorem Standing.childAt_spec {n k : Node} (standing : Standing t pre T) (parent : t.heap.read p = some n)
    (member : c ∈ n.children.ptrs) (found : t.heap.read c = some k) (head : k.value.head? = some first) :
    t.childAt first n.children = some (some c) := by
  cases shape : n.children with
  | small v =>
    rw [shape] at member
    have child : ∀ d ∈ v, _ := fun d inside => standing.skeleton.child_live (c := d) parent (by rw [shape]; exact inside)
    refine findHead_spec (fun d inside => (child d inside).1) member found head ?_
    intro d inside l read same
    have filled : l.value ≠ [] := by
      intro blank
      rw [blank] at same
      cases same
    obtain ⟨_,left,labelD⟩ := child d inside
    obtain ⟨_,right,labelC⟩ := child c member
    exact standing.skeleton.heads d c l k read found left right (labelD.trans labelC.symm) filled (same.trans head.symm)
  | large m =>
    have entry := standing.skeleton.large_lookup parent shape member found head
    simp [childAt,entry]

theorem Standing.aliasWalk_spec {cur : Ptr} {done key : List Hash} {aliases : List BlockId} {fuel : Nat}
    (standing : Standing t pre T) (end_ : Ends t.heap.read t.root pre cur done) (aligned : key.length = aliases.length)
    (bound : ∀ b ∈ aliases, b < t.blockToNode.length) (present : key = [] ∨ Present T (done++key))
    (enough : key.length < fuel) :
    ∃ t', aliasWalk fuel t cur key aliases = some t' ∧ SameForest t t' ∧ Standing t' pre (insertFrom done key aliases T) := by
  induction fuel generalizing t T cur done key aliases with
  | zero => omega
  | succ fuel ih =>
    cases key with
    | nil => exact ⟨t,rfl,SameForest.refl t,by simpa [insertFrom] using standing⟩
    | cons first rest =>
      set key := first::rest with keyDef
      replace present := present.resolve_left (by simp [keyDef])
      obtain ⟨n,parent,proper,rfl⟩ := end_
      -- the node that holds the next hash is a child of the current one
      have next : Present T (pre cur++n.value++[first]) :=
        standing.valid.closed _ _ ⟨rest,by simp [keyDef]⟩ (by simp) present
      obtain ⟨c,i,located⟩ := (standing.present_iff _).mp next
      obtain ⟨rfl,member,k,found,head⟩ := standing.skeleton.at_child parent proper located
      obtain ⟨_,inner,label⟩ := standing.skeleton.child_live parent member
      have filled : k.value ≠ [] := by
        intro blank
        rw [blank] at head
        cases head
      have left := commonLen_le_left k.value key
      have right := commonLen_le_right k.value key
      have agree := take_commonLen k.value key
      have positive : 0 < commonLen k.value key :=
        Nat.pos_of_ne_zero ((commonLen_ne_zero (by simp [keyDef])).mpr ⟨filled,head⟩)
      have leaves := standing.leaves_inside found positive
      set m := commonLen k.value key with mDef
      obtain ⟨t₁,walked,same,standing₁⟩ := standing.aliasFrom_spec found (aliases.take m) 0
        (by rw [List.length_take]; omega) fun b inside => bound b (List.mem_of_mem_take inside)
      have taken : (aliases.take m).length = m := by rw [List.length_take]; omega
      rw [taken,List.take_zero,List.append_nil,List.drop_zero,agree,label] at standing₁
      have step : aliasWalk (fuel+1) t cur key aliases = aliasWalk fuel t₁ c (key.drop m) (aliases.drop m) := by
        rw [keyDef,aliasWalk]
        simp only [parent,standing.childAt_spec parent member found head,found,Option.bind_eq_bind,Option.bind_some]
        rw [← keyDef,aliasNode_eq c aligned,walked]
        rfl
      have whole : insertFrom (pre cur++n.value) key aliases T =
          insertFrom (pre cur++n.value++key.take m) (key.drop m) (aliases.drop m)
            (insertFrom (pre cur++n.value) (key.take m) (aliases.take m) T) := by
        rw [← insertFrom_append _ (by rw [taken,List.length_take]; omega),List.take_append_drop,List.take_append_drop]
      rw [step,whole]
      by_cases all : m = key.length
      · refine ⟨t₁,?_,same,?_⟩
        · rw [all,List.drop_length]
          cases fuel with
          | zero => omega
          | succ fuel => rfl
        · rw [all,List.drop_length]
          rw [all] at standing₁
          exact standing₁
      · -- a key that leaves a node early would leave the trie
        have full : m = k.value.length := by
          apply Classical.byContradiction
          intro partial_
          apply leaves (by omega) (by omega)
          refine standing.valid.closed _ _ ?_ (by simp) present
          rw [label]
          exact (List.prefix_append_right_inj _).mpr (List.take_prefix _ _)
        have end' : Ends t.heap.read t.root pre c (pre cur++n.value++key.take m) :=
          ⟨k,found,.inr filled,by rw [label,← agree,full,List.take_length]⟩
        have size : (key.drop m).length = (aliases.drop m).length := by simp [aligned]
        have held : Present (insertFrom (pre cur++n.value) (key.take m) (aliases.take m) T)
            (pre cur++n.value++key.take m++key.drop m) := by
          rw [List.append_assoc,List.take_append_drop]
          obtain ⟨x,member⟩ := present
          exact ⟨x,insertFrom_mono member _ _ _⟩
        obtain ⟨t',result,same',standing'⟩ := ih standing₁ (same.ends end') size
          (fun b inside => by rw [same.blocks]; exact bound b (List.mem_of_mem_drop inside)) (.inr held)
          (by rw [List.length_drop]; omega)
        exact ⟨t',result,same.trans same',standing'⟩

theorem Standing.aliasPath_spec {key : List Hash} {aliases : List BlockId} (standing : Standing t pre T)
    (aligned : key.length = aliases.length) (bound : ∀ b ∈ aliases, b < t.blockToNode.length)
    (present : key = [] ∨ Present T key) :
    ∃ t', t.aliasPath key aliases = some t' ∧ SameForest t t' ∧ Standing t' pre (insert T key aliases) :=
  standing.aliasWalk_spec standing.skeleton.ends_root aligned bound (by simpa using present) (Nat.lt_succ_self _)

end BlitzRouter.Radix
