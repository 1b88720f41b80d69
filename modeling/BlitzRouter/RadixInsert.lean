import BlitzRouter.RadixAlias
import BlitzRouter.RadixSplit

namespace BlitzRouter.Radix
open PrefixTrie CommonPrefix RadixTreeBlockHash

variable {t t' : RadixTreeBlockHash} {pre : Ptr → List Hash} {T : Trie Hash BlockId}

theorem repoint_spec (expected : Option Ptr → Bool) (target : Ptr) {ids : List BlockId} {table : List (Option Ptr)}
    (distinct : ids.Nodup) (bound : ∀ b ∈ ids, b < table.length) (held : ∀ b ∈ ids, expected (table[b]?.join) = true) :
    ∃ table', repoint expected target ids table = some table' ∧ table'.length = table.length ∧
      ∀ b, table'[b]?.join = if b ∈ ids then some target else table[b]?.join := by
  induction ids generalizing table with
  | nil => exact ⟨table,rfl,rfl,fun b => by simp⟩
  | cons x rest ih =>
    obtain ⟨outside,distinct⟩ := List.nodup_cons.mp distinct
    have inside := bound x (by simp)
    have here : expected table[x] = true := by
      have held := held x (by simp)
      rw [List.getElem?_eq_getElem inside] at held
      exact held
    have moved := slot_set inside (some target)
    have later : ∀ b ∈ rest, (table.set x (some target))[b]?.join = table[b]?.join := by
      intro b member
      have apart : b ≠ x := fun same => outside (same ▸ member)
      exact (congrFun moved b).trans (Function.update_of_ne apart ..)
    have bound' : ∀ b ∈ rest, b < (table.set x (some target)).length := fun b member => by
      rw [List.length_set]; exact bound b (by simp [member])
    have held' : ∀ b ∈ rest, expected ((table.set x (some target))[b]?.join) = true := fun b member => by
      rw [later b member]; exact held b (by simp [member])
    obtain ⟨table',result,size,slots⟩ := ih distinct bound' held'
    refine ⟨table',?_,size.trans (List.length_set ..),fun b => ?_⟩
    · simp only [repoint,List.getElem?_eq_getElem inside,Option.bind_eq_bind,Option.bind_some]
      rw [if_pos here,result]
    · rw [slots b]
      have step : (table.set x (some target))[b]?.join = _ := congrFun moved b
      by_cases same : b = x
      · subst same
        rw [step,Function.update_self]
        simp
      · rw [step,Function.update_of_ne same]
        simp [same]

-- Children that start with different hashes all get an entry of their own.
theorem collectHeads_spec {v : List Ptr} (distinct : v.Nodup) (live : ∀ c ∈ v, ∃ k, t.heap.read c = some k ∧ k.value ≠ [])
    (unique : ∀ c ∈ v, ∀ d ∈ v, ∀ k l, t.heap.read c = some k → t.heap.read d = some l →
      k.value.head? = l.value.head? → c = d) {m : AList fun _ : Hash => Ptr}
    (apart : ∀ c ∈ v, ∀ k first, t.heap.read c = some k → k.value.head? = some first → m.lookup first = none) :
    ∃ m', t.collectHeads v m = some m' ∧ ∀ x c, m'.lookup x = some c ↔
      m.lookup x = some c ∨ (c ∈ v ∧ ∃ k, t.heap.read c = some k ∧ k.value.head? = some x) := by
  induction v generalizing m with
  | nil => exact ⟨m,rfl,fun x c => by simp⟩
  | cons p rest ih =>
    obtain ⟨outside,distinct⟩ := List.nodup_cons.mp distinct
    obtain ⟨n,found,filled⟩ := live p (by simp)
    obtain ⟨first,tail,value⟩ := List.exists_cons_of_ne_nil filled
    have head : n.value.head? = some first := by rw [value]; rfl
    have free := apart p (by simp) n first found head
    have lookup : ∀ x c, (m.insert first p).lookup x = some c ↔ m.lookup x = some c ∨ (c = p ∧ x = first) := by
      intro x c
      by_cases same : x = first
      · subst same
        simp only [AList.lookup_insert,free,Option.some.injEq,and_true,reduceCtorEq,false_or]
        exact eq_comm
      · simp [AList.lookup_insert_ne same,same]
    have apart' : ∀ c ∈ rest, ∀ k x, t.heap.read c = some k → k.value.head? = some x → (m.insert first p).lookup x = none := by
      intro c member k x read head'
      have other : x ≠ first := by
        rintro rfl
        have same := unique c (by simp [member]) p (by simp) k n read found (head'.trans head.symm)
        exact outside (same ▸ member)
      rw [AList.lookup_insert_ne other]
      exact apart c (by simp [member]) k x read head'
    obtain ⟨m',result,entries⟩ := ih distinct (fun c member => live c (by simp [member]))
      (fun c left d right => unique c (by simp [left]) d (by simp [right])) apart'
    refine ⟨m',by simp [collectHeads,found,head,result],fun x c => ?_⟩
    rw [entries,lookup]
    constructor
    · rintro ((old | ⟨rfl,rfl⟩) | ⟨member,rest⟩)
      · exact .inl old
      · exact .inr ⟨by simp,n,found,head⟩
      · exact .inr ⟨by simp [member],rest⟩
    · rintro (old | ⟨member,k,read,head'⟩)
      · exact .inl (.inl old)
      · rcases List.mem_cons.mp member with rfl | member
        · cases Option.some.inj (found.symm.trans read)
          exact .inl (.inr ⟨rfl,Option.some.inj (head'.symm.trans head)⟩)
        · exact .inr ⟨member,k,read,head'⟩

-- The children of a node with one more, as a vector or as a map.
theorem Standing.withChild_spec {n : Node} {first : Hash} {rest : List Hash} {fresh : Node} {added : Ptr} (standing : Standing t pre T)
    (parent : t.heap.read p = some n) (ready : Ready t p first) (unused : t.heap.read added = none)
    (heap : t'.heap.read = Function.update t.heap.read added (some fresh)) (value : fresh.value = first::rest) :
    ∃ children, t'.withChild added (first::rest) n.children = some children ∧
      (∀ d, d ∈ children.ptrs ↔ d ∈ n.children.ptrs ∨ d = added) ∧ children.ptrs.Nodup ∧
      (∀ m x, children = .large m → m.lookup x = some added → x = first) ∧
      ∀ m, children = .large m → ∀ x d k, m.lookup x = some d → t.heap.read d = some k → k.value ≠ [] →
        k.value.head? = some x := by
  have outside : added ∉ n.children.ptrs := by
    intro member
    obtain ⟨⟨k,found⟩,_⟩ := standing.skeleton.child_live parent member
    rw [unused] at found
    cases found
  have nodup := standing.skeleton.distinct p n parent
  obtain ⟨m,again,free⟩ := ready
  cases Option.some.inj (parent.symm.trans again)
  have reads : ∀ c k, t.heap.read c = some k → t'.heap.read c = some k := by
    intro c k found
    have apart : c ≠ added := by
      rintro rfl
      rw [unused] at found
      cases found
    rw [heap,Function.update_of_ne apart,found]
  have here : t'.heap.read added = some fresh := by rw [heap,Function.update_self]
  cases shape : n.children with
  | small v =>
    rw [shape] at free outside nodup
    have whole : (v++[added]).Nodup :=
      List.nodup_append.mpr ⟨nodup,by simp,by rintro x member y last rfl; exact outside (List.mem_singleton.mp last ▸ member)⟩
    by_cases large : (v++[added]).length > smallMax
    · have child : ∀ c ∈ v, _ := fun c inside =>
        standing.skeleton.child_live (c := c) parent (by rw [shape]; exact inside)
      have live : ∀ c ∈ v++[added], ∃ k, t'.heap.read c = some k ∧ k.value ≠ [] := by
        intro c member
        rcases List.mem_append.mp member with old | last
        · obtain ⟨k,found,filled,_⟩ := free c old
          exact ⟨k,reads c k found,filled⟩
        · obtain rfl := List.mem_singleton.mp last
          exact ⟨fresh,here,by rw [value]; simp⟩
      -- the old children differ in their first hash, and none of them starts like the new one
      have other : ∀ c ∈ v, ∀ k, t'.heap.read c = some k → k.value.head? ≠ some first ∧ t.heap.read c = some k ∧ k.value ≠ [] := by
        intro c old k found
        obtain ⟨l,again,filled,differs⟩ := free c old
        cases Option.some.inj (found.symm.trans (reads c l again))
        exact ⟨differs,again,filled⟩
      have headFresh : fresh.value.head? = some first := by rw [value]; rfl
      have unique : ∀ c ∈ v++[added], ∀ d ∈ v++[added], ∀ k l, t'.heap.read c = some k → t'.heap.read d = some l →
          k.value.head? = l.value.head? → c = d := by
        intro c left d right k l one two same
        rcases List.mem_append.mp left with oldC | lastC <;> rcases List.mem_append.mp right with oldD | lastD
        · obtain ⟨_,readC,filled⟩ := other c oldC k one
          obtain ⟨_,readD,_⟩ := other d oldD l two
          obtain ⟨_,properC,labelC⟩ := child c oldC
          obtain ⟨_,properD,labelD⟩ := child d oldD
          exact standing.skeleton.heads c d k l readC readD properC properD (labelC.trans labelD.symm) filled same
        · obtain rfl := List.mem_singleton.mp lastD
          cases Option.some.inj (here.symm.trans two)
          exact absurd (same.trans headFresh) (other c oldC k one).1
        · obtain rfl := List.mem_singleton.mp lastC
          cases Option.some.inj (here.symm.trans one)
          exact absurd (same.symm.trans headFresh) (other d oldD l two).1
        · rw [List.mem_singleton.mp lastC,List.mem_singleton.mp lastD]
      obtain ⟨table,result,entries⟩ := collectHeads_spec whole live unique
        (show ∀ c ∈ v++[added], ∀ k x, t'.heap.read c = some k → k.value.head? = some x →
          (∅ : AList fun _ : Hash => Ptr).lookup x = none by simp)
      have entry : ∀ x c, table.lookup x = some c ↔ c ∈ v++[added] ∧ ∃ k, t'.heap.read c = some k ∧ k.value.head? = some x := by
        intro x c
        rw [entries]
        simp
      refine ⟨.large table,by rw [withChild,if_pos large,result]; rfl,?_,?_,?_,?_⟩
      · intro d
        rw [mem_large_ptrs,ptrs_small]
        simp only [entry]
        constructor
        · rintro ⟨_,member,_⟩
          simpa using member
        · intro member
          have inside : d ∈ v++[added] := by simpa using member
          obtain ⟨k,found,filled⟩ := live d inside
          obtain ⟨x,tail,equal⟩ := List.exists_cons_of_ne_nil filled
          exact ⟨x,inside,k,found,by rw [equal]; rfl⟩
      · refine List.Nodup.map_on ?_ table.nodupKeys.nodup
        rintro ⟨x,c⟩ left ⟨y,d⟩ right same
        obtain rfl : c = d := same
        obtain ⟨_,k,found,headX⟩ := (entry x c).mp (AList.mem_lookup_iff.mpr left)
        obtain ⟨_,l,again,headY⟩ := (entry y c).mp (AList.mem_lookup_iff.mpr right)
        cases Option.some.inj (found.symm.trans again)
        cases Option.some.inj (headX.symm.trans headY)
        rfl
      · intro m' x equal lookup
        cases equal
        obtain ⟨_,l,again,head⟩ := (entry x added).mp lookup
        cases Option.some.inj (here.symm.trans again)
        exact Option.some.inj (head.symm.trans headFresh)
      · intro m' equal x d k lookup found _
        cases equal
        obtain ⟨_,l,again,head⟩ := (entry x d).mp lookup
        cases Option.some.inj (again.symm.trans (reads d k found))
        exact head
    · refine ⟨.small (v++[added]),by rw [withChild,if_neg large],?_,whole,?_,?_⟩
      · intro d; simp
      · intro m' x equal; cases equal
      · intro m' equal; cases equal
  | large m =>
    rw [shape] at free outside nodup
    have lookup : ∀ x d, (m.insert first added).lookup x = some d ↔ m.lookup x = some d ∨ (d = added ∧ x = first) := by
      intro x d
      by_cases same : x = first
      · subst same
        have none : m.lookup x = none := free
        simp only [AList.lookup_insert,none,Option.some.injEq,and_true,reduceCtorEq,false_or]
        exact eq_comm
      · simp [AList.lookup_insert_ne same,same]
    have none : m.lookup first = none := free
    refine ⟨.large (m.insert first added),by simp [withChild,none],?_,?_,?_,?_⟩
    · intro d
      simp only [mem_large_ptrs,lookup]
      constructor
      · rintro ⟨x,old | ⟨rfl,_⟩⟩
        · exact .inl ⟨x,old⟩
        · exact .inr rfl
      · rintro (⟨x,old⟩ | rfl)
        · exact ⟨x,.inl old⟩
        · exact ⟨first,.inr ⟨rfl,rfl⟩⟩
    · have absent : first ∉ m := by rw [← AList.lookup_eq_none]; exact none
      simp only [Children.ptrs] at nodup ⊢
      rw [AList.entries_insert_of_notMem absent]
      exact List.nodup_cons.mpr ⟨outside,nodup⟩
    · intro m' x equal inside
      cases equal
      rcases (lookup x added).mp inside with old | ⟨_,same⟩
      · exact absurd (mem_large_ptrs.mpr ⟨x,old⟩) outside
      · exact same
    · intro m' equal x d k inside found filled
      cases equal
      rcases (lookup x d).mp inside with old | ⟨rfl,_⟩
      · exact standing.skeleton.keyed p n m parent shape x d k old found filled
      · rw [unused] at found
        cases found

-- A leaf takes the rest of the key.
theorem Standing.extendLeaf_spec {n : Node} {first : Hash} {rest : List Hash} {ids : List BlockId}
    (standing : Standing t pre T) (found : t.heap.read p = some n) (filled : n.value ≠ [])
    (leaf : n.children.ptrs = []) (legal : Insertable T (pre p++n.value) (first::rest) ids)
    (absent : ¬Present T (pre p++n.value++[first])) (bound : ∀ b ∈ ids, b < t.blockToNode.length) :
    ∃ t', t.extendLeaf p (first::rest) ids = some t' ∧ t'.root = t.root ∧ t'.blockToNode.length = t.blockToNode.length ∧
      Standing t' pre (insertFrom (pre p++n.value) (first::rest) ids T) := by
  have fresh : ∀ b ∈ ids, t.slot b = none := fun b member =>
    (standing.unregistered b).mp (fresh_of_absent standing.valid legal absent member)
  obtain ⟨table',result,size,slots⟩ := repoint_spec (fun slot => slot == none || slot == some p) p
    legal.distinct bound fun b member => by
      have none := fresh b member
      rw [slot] at none
      simp [none]
  refine ⟨{t with
    heap := t.heap.write p ⟨n.children,n.value++first::rest,n.payload++singles ids⟩
    blockToNode := table'},?_,rfl,size,?_⟩
  · simp only [extendLeaf,found,Option.bind_eq_bind,Option.bind_some]
    rw [result]
    rfl
  · refine Standing.of_shape (Shape.extend standing ⟨found,standing.skeleton.ne_root found filled,leaf,by simp,
      Arena.read_write _ found,legal,fresh,slots,?_,?_⟩) rfl rfl rfl
    · intro x head
      cases Option.some.inj (head : some first = some x)
      exact absent
    · intro _ _ _ _ _ _ _ blank
      exact absurd blank filled

-- A new child comes into being blank and then takes its hashes.
theorem Shape.addChild {read read₁ read₂ : Ptr → Option Node} {root : Ptr} {index index' : BlockId → Option Ptr}
    {n : Node} {children : Children} {c : Ptr} {first : Hash} {rest : List Hash} {ids : List BlockId}
    (shape : Shape read root index pre T) (hung : Hung read read₁ root p n children c)
    (named : ∀ m x, children = .large m → m.lookup x = some c → x = first)
    (heap : read₂ = Function.update read₁ c (some ⟨.small [],first::rest,singles ids⟩))
    (legal : Insertable T (pre p++n.value) (first::rest) ids) (absent : ¬Present T (pre p++n.value++[first]))
    (slots : ∀ b, index' b = if b ∈ ids then some c else index b) :
    Shape read₂ root index' (Function.update pre c (pre p++n.value)) (insertFrom (pre p++n.value) (first::rest) ids T) := by
  set pre' := Function.update pre c (pre p++n.value) with preDef
  have hanging : Shape read₁ root index pre' T := shape.hang hung
  have label : pre' c = pre p++n.value := Function.update_self ..
  obtain ⟨r,rootRead,_⟩ := shape.skeleton.rootNode
  have apart : c ≠ p := Ne.symm (hung.forth hung.parent).1
  have blank : read₁ c = some ⟨.small [],[],[]⟩ := by
    rw [hung.heap,Function.update_of_ne apart,Function.update_self]
  have fresh : ∀ b ∈ ids, index b = none := fun b member =>
    (shape.unregistered b).mp (fresh_of_absent shape.valid legal absent member)
  have grown : Extended read₁ read₂ root index index' pre' T c ⟨.small [],[],[]⟩ (first::rest) ids := by
    refine ⟨blank,Ne.symm (hung.forth rootRead).1,rfl,by simp,heap,?_,fresh,slots,?_,?_⟩
    · rw [label,List.append_nil]
      exact legal
    · intro x head
      cases Option.some.inj (head : some first = some x)
      rw [label,List.append_nil]
      exact absent
    · intro q m table x found large entry _
      have member : c ∈ m.children.ptrs := large ▸ mem_large_ptrs.mpr ⟨x,entry⟩
      rcases hung.back found with ⟨_,rfl⟩ | ⟨_,rfl⟩ | ⟨_,_,old⟩
      · cases member
      · rw [named table x large entry]; rfl
      · obtain ⟨⟨k,live⟩,_⟩ := shape.skeleton.child_live old member
        rw [hung.unused] at live
        cases live
  have done := hanging.extend grown
  rw [label,List.append_nil] at done
  exact done

theorem singles_eq (ids : List BlockId) : (ids.map fun b => [b]) = singles ids := rfl

theorem Standing.insertAsChild_spec {n : Node} {first : Hash} {rest : List Hash} {ids : List BlockId}
    (standing : Standing t pre T) (parent : t.heap.read p = some n) (proper : p = t.root ∨ n.value ≠ [])
    (ready : Ready t p first) (legal : Insertable T (pre p++n.value) (first::rest) ids)
    (bound : ∀ b ∈ ids, b < t.blockToNode.length) :
    ∃ t' pre', t.insertAsChild p (first::rest) ids = some t' ∧ t'.root = t.root ∧
      t'.blockToNode.length = t.blockToNode.length ∧
      Standing t' pre' (insertFrom (pre p++n.value) (first::rest) ids T) := by
  have absent : ¬Present T (pre p++n.value++[first]) :=
    standing.not_present_child parent proper (standing.headless ready parent)
  have unused : t.heap.read t.heap.next = none := t.heap.read_next
  have apart : p ≠ t.heap.next := by
    rintro rfl
    rw [unused] at parent
    cases parent
  set fresh : Node := ⟨.small [],first::rest,singles ids⟩ with freshDef
  set t₁ : RadixTreeBlockHash := {t with heap := t.heap.alloc fresh,nodes := t.nodes+1} with t₁Def
  have heap₁ : t₁.heap.read = Function.update t.heap.read t.heap.next (some fresh) := Arena.read_alloc _ fresh
  have parent₁ : t₁.heap.read p = some n := by rw [heap₁,Function.update_of_ne apart,parent]
  obtain ⟨children,stored,ptrs,distinct,named,keyed⟩ :=
    standing.withChild_spec parent ready unused heap₁ rfl
  obtain ⟨table',moved,size,slots⟩ := repoint_spec (· == none) t.heap.next legal.distinct bound fun b member => by
    have none := (standing.unregistered b).mp (fresh_of_absent standing.valid legal absent member)
    rw [slot] at none
    simp [none]
  refine ⟨{t₁ with heap := t₁.heap.write p {n with children},blockToNode := table'},
    Function.update pre t.heap.next (pre p++n.value),?_,rfl,size,?_⟩
  · have allocated : t.newNode fresh = (t₁,t.heap.next) := rfl
    have table : t₁.blockToNode = t.blockToNode := rfl
    simp only [insertAsChild,singles_eq,← freshDef,allocated,parent₁,stored,setChildren_eq parent₁,flatten_singles,
      table,moved,Option.bind_eq_bind,Option.bind_some,Option.pure_def]
  · have hung : Hung t.heap.read (Function.update (Function.update t.heap.read t.heap.next (some ⟨.small [],[],[]⟩)) p
        (some {n with children})) t.root p n children t.heap.next :=
      ⟨parent,proper,unused,rfl,ptrs,distinct,keyed⟩
    refine Standing.of_shape (Shape.addChild standing hung named rfl legal absent slots) rfl ?_ rfl
    have written : (t₁.heap.write p {n with children}).read = Function.update t₁.heap.read p (some {n with children}) :=
      Arena.read_write _ parent₁
    simp only [written,heap₁]
    rw [Function.update_comm apart,Function.update_idem,Function.update_comm (Ne.symm apart)]

-- Aliases below `common` come out alike for a node and for its upper half.
theorem aliasFrom_half {u : RadixTreeBlockHash} {n : Node} {children : Children} {value : List Hash} {ids : List BlockId}
    (found : t.heap.read p = some n) (half : u.heap.read p = some ⟨children,value,n.payload.take common⟩)
    (table : u.blockToNode = t.blockToNode) (positions : i+ids.length ≤ common) (result : t.aliasFrom p i ids = some t') :
    ∃ u' n', u.aliasFrom p i ids = some u' ∧ u'.blockToNode = t'.blockToNode ∧ u'.root = u.root ∧
      t'.heap.read = Function.update t.heap.read p (some n') ∧
      u'.heap.read = Function.update u.heap.read p (some ⟨children,value,n'.payload.take common⟩) ∧
      n'.children = n.children ∧ n'.value = n.value ∧ n'.payload.drop common = n.payload.drop common := by
  induction ids generalizing t u n i with
  | nil =>
    cases Option.some.inj result
    refine ⟨u,n,rfl,table,rfl,?_,?_,rfl,rfl,rfl⟩
    · rw [← found,Function.update_eq_self]
    · rw [← half,Function.update_eq_self]
  | cons b rest ih =>
    simp only [List.length_cons] at positions
    have low : i < common := by omega
    simp only [aliasFrom,Option.bind_eq_bind,Option.bind_eq_some_iff] at result
    obtain ⟨t₁,step,result⟩ := result
    simp only [aliasAt,Option.bind_eq_bind,Option.bind_eq_some_iff] at step
    obtain ⟨slot,here,step⟩ := step
    cases slot with
    | some q =>
      cases Option.some.inj step
      obtain ⟨u',n',again,rest⟩ := ih found half table (by omega) result
      refine ⟨u',n',?_,rest⟩
      simp only [aliasFrom,aliasAt,table,here,Option.bind_eq_bind,Option.bind_some,Option.pure_def]
      exact again
    | none =>
      simp only [found,Option.bind_some,Option.bind_eq_some_iff] at step
      obtain ⟨bids,place,step⟩ := step
      cases Option.some.inj step
      have place' : (n.payload.take common)[i]? = some bids := by
        rw [List.getElem?_take_of_lt low]; exact place
      set m : Node := {n with payload := n.payload.set i (bids++[b])} with mDef
      set u₁ : RadixTreeBlockHash := {u with
        heap := u.heap.write p ⟨children,value,m.payload.take common⟩
        blockToNode := t.blockToNode.set b (some p)} with u₁Def
      set t₁ : RadixTreeBlockHash := {t with
        heap := t.heap.write p m
        blockToNode := t.blockToNode.set b (some p)} with t₁Def
      have heapT : t₁.heap.read = Function.update t.heap.read p (some m) := Arena.read_write _ found
      have heapU : u₁.heap.read = Function.update u.heap.read p (some ⟨children,value,m.payload.take common⟩) :=
        Arena.read_write _ half
      have stepU : u.aliasAt p i b = some u₁ := by
        simp only [aliasAt,table,here,half,place',Option.bind_eq_bind,Option.bind_some,Option.pure_def]
        rw [u₁Def,mDef,List.take_set]
      have foundT : t₁.heap.read p = some m := by rw [heapT,Function.update_self]
      have halfU : u₁.heap.read p = some ⟨children,value,m.payload.take common⟩ := by rw [heapU,Function.update_self]
      obtain ⟨u',n',again,tables,roots,readT,readU,child,hashes,lower⟩ := ih foundT halfU rfl (by omega) result
      refine ⟨u',n',by simp [aliasFrom,stepU,again],tables,roots,?_,?_,child,hashes,?_⟩
      · rw [readT,heapT,Function.update_idem]
      · rw [readU,heapU,Function.update_idem]
      · rw [lower,mDef]
        exact List.drop_set_of_lt low

-- Cutting a node and hanging a new child beside its lower half.
theorem Shape.splitChild {read : Ptr → Option Node} {root : Ptr} {index index' : BlockId → Option Ptr} {p s c : Ptr}
    {n : Node} {common : Nat} {first : Hash} {rest : List Hash} {ids : List BlockId} (shape : Shape read root index pre T)
    (found : read p = some n) (unusedS : read s = none) (unusedC : read c = none) (apart : c ≠ s) (lower : 0 < common)
    (upper : common < n.value.length) (legal : Insertable T (pre p++n.value.take common) (first::rest) ids)
    (absent : ¬Present T (pre p++n.value.take common++[first]))
    (slots : ∀ b, index' b = if b ∈ ids then some c
      else if index b = some p ∧ b ∈ (n.payload.drop common).flatten then some s else index b) :
    ∃ pre', Shape (Function.update (Function.update
      (Function.update read s (some ⟨n.children,n.value.drop common,n.payload.drop common⟩))
      p (some ⟨.small [s,c],n.value.take common,n.payload.take common⟩)) c (some ⟨.small [],first::rest,singles ids⟩))
      root index' pre' (insertFrom (pre p++n.value.take common) (first::rest) ids T) := by
  have sP : s ≠ p := by
    rintro rfl
    rw [unusedS] at found
    cases found
  have cP : c ≠ p := by
    rintro rfl
    rw [unusedC] at found
    cases found
  set lowerHalf : Node := ⟨n.children,n.value.drop common,n.payload.drop common⟩
  set upperHalf : Node := ⟨.small [s],n.value.take common,n.payload.take common⟩
  set mid := Function.update (Function.update read s (some lowerHalf)) p (some upperHalf)
  have cut : SplitAt read mid index (fun b => if index b = some p ∧ b ∈ (n.payload.drop common).flatten then some s
      else index b) p n common s := ⟨found,unusedS,lower,upper,rfl,fun _ => rfl⟩
  have shapeS := shape.split cut
  set preS := Function.update pre s (pre p++n.value.take common)
  have label : preS p = pre p := Function.update_of_ne (Ne.symm sP) _ _
  have hung : Hung mid (Function.update (Function.update mid c (some ⟨.small [],[],[]⟩)) p
      (some {upperHalf with children := .small [s,c]})) root p upperHalf (.small [s,c]) c := by
    refine ⟨cut.top,.inr ?_,?_,rfl,?_,?_,?_⟩
    · exact List.ne_nil_of_length_pos (by rw [List.length_take]; omega)
    · rw [cut.other apart cP,unusedC]
    · intro d; simp [upperHalf]
    · simp [Ne.symm apart]
    · intro m equal; cases equal
  have done := shapeS.addChild hung (fun m x equal => by cases equal) rfl (by rw [label]; exact legal)
    (by rw [label]; exact absent) slots
  rw [label] at done
  have heap : Function.update (Function.update (Function.update mid c (some ⟨.small [],[],[]⟩)) p
      (some {upperHalf with children := .small [s,c]})) c (some ⟨.small [],first::rest,singles ids⟩) =
      Function.update (Function.update (Function.update read s (some lowerHalf)) p
        (some ⟨.small [s,c],n.value.take common,n.payload.take common⟩)) c (some ⟨.small [],first::rest,singles ids⟩) := by
    rw [Function.update_comm cP,Function.update_idem]
    simp only [mid,Function.update_idem]
    rfl
  rw [heap] at done
  exact ⟨_,done⟩

theorem Standing.split_spec {n : Node} {key : List Hash} {ids : List BlockId} {common : Nat} (standing : Standing t pre T)
    (found : t.heap.read p = some n) (shared : commonLen n.value key = common) (lower : 0 < common)
    (upper : common < n.value.length) (more : common < key.length) (legal : Insertable T (pre p) key ids)
    (bound : ∀ b ∈ ids, b < t.blockToNode.length) :
    ∃ t' pre', t.splitNodeAtInsert p common key ids = some t' ∧ t'.root = t.root ∧
      t'.blockToNode.length = t.blockToNode.length ∧ Standing t' pre' (insertFrom (pre p) key ids T) := by
  have aligned := legal.aligned
  have agree : n.value.take common = key.take common := shared ▸ take_commonLen n.value key
  have payloads : n.payload.length = n.value.length := standing.stored.slots p n found
  have halves : Insertable T (pre p) (key.take common++key.drop common) (ids.take common++ids.drop common) := by
    rw [List.take_append_drop,List.take_append_drop]; exact legal
  obtain ⟨_,legal₂⟩ := insertable_append halves (by simp [aligned])
  -- the aliases are registered as if on the node before it was cut
  obtain ⟨ta,aliased,same,standing₂⟩ := standing.aliasFrom_spec found (ids.take common) 0
    (by rw [List.length_take]; omega) fun b member => bound b (List.mem_of_mem_take member)
  have taken : (ids.take common).length = common := by rw [List.length_take]; omega
  rw [taken,List.take_zero,List.append_nil,List.drop_zero,agree] at standing₂
  set T₂ := insertFrom (pre p) (key.take common) (ids.take common) T
  -- the two new nodes of the code
  set s := t.heap.next
  have unusedS : t.heap.read s = none := t.heap.read_next
  have unusedC : t.heap.read (s+1) = none := by
    apply Classical.byContradiction
    intro live
    obtain ⟨k,held⟩ := Option.ne_none_iff_exists'.mp live
    have inside : s+1 < s := Arena.read_bound held
    omega
  have sP : s ≠ p := fun equal => by
    rw [equal,found] at unusedS
    cases unusedS
  have cP : s+1 ≠ p := fun equal => by
    rw [equal,found] at unusedC
    cases unusedC
  set bottom : Node := ⟨n.children,n.value.drop common,n.payload.drop common⟩ with bottomDef
  set fresh : Node := ⟨.small [],key.drop common,singles (ids.drop common)⟩ with freshDef
  set top : Node := ⟨.small [],n.value.take common,n.payload.take common⟩ with topDef
  set w : RadixTreeBlockHash := {t with heap := t.heap.write p top} with wDef
  set w₁ : RadixTreeBlockHash := {w with heap := w.heap.alloc bottom,nodes := w.nodes+1} with w₁Def
  set u : RadixTreeBlockHash := {w₁ with heap := w₁.heap.alloc fresh,nodes := w₁.nodes+1} with uDef
  have heapW : w.heap.read = Function.update t.heap.read p (some top) := Arena.read_write _ found
  have nextW : w.heap.next = s := Arena.next_write ..
  have nextW₁ : w₁.heap.next = s+1 := (Arena.next_alloc ..).trans (by rw [nextW])
  have heapU : u.heap.read = Function.update (Function.update w.heap.read s (some bottom)) (s+1) (some fresh) := by
    have one : w₁.heap.read = Function.update w.heap.read w.heap.next (some bottom) := Arena.read_alloc ..
    have two : u.heap.read = Function.update w₁.heap.read w₁.heap.next (some fresh) := Arena.read_alloc ..
    rw [two,one,nextW,nextW₁]
  have half : u.heap.read p = some ⟨.small [],n.value.take common,n.payload.take common⟩ := by
    rw [heapU,Function.update_of_ne (Ne.symm cP),Function.update_of_ne (Ne.symm sP),heapW,Function.update_self]
  obtain ⟨u₂,n',aliasedU,tableU,rootU,readA,readU,child,hashes,kept⟩ :=
    aliasFrom_half found half rfl (show 0+(ids.take common).length ≤ common by omega) aliased
  have foundA : ta.heap.read p = some n' := by rw [readA,Function.update_self]
  have lowerHalf : bottom.payload.flatten = (n'.payload.drop common).flatten := by rw [kept]
  have slotU : ∀ b, u₂.blockToNode[b]?.join = ta.slot b := fun b => by rw [tableU]; rfl
  -- the lower half is repointed, then the new node takes the rest of the ids
  have owned : ∀ b ∈ bottom.payload.flatten, ta.slot b = some p := by
    intro b member
    rw [lowerHalf] at member
    obtain ⟨bids,listed,here⟩ := List.mem_flatten.mp member
    obtain ⟨i,place⟩ := List.mem_iff_getElem?.mp (List.mem_of_mem_drop listed)
    obtain ⟨held,located⟩ := mem_slot standing₂.stored foundA place here
    exact (standing₂.stored.indexed b p).mpr ⟨_,i,held,located⟩
  have distinct : bottom.payload.flatten.Nodup := by
    have whole := standing₂.payload_nodup foundA
    rw [lowerHalf]
    rw [← List.take_append_drop common n'.payload,List.flatten_append] at whole
    exact (List.nodup_append.mp whole).2.1
  have inTable : ∀ b ∈ bottom.payload.flatten, b < u₂.blockToNode.length := fun b member => by
    rw [tableU]
    exact slot_bound (owned b member)
  obtain ⟨table₃,moved₃,size₃,slots₃⟩ := repoint_spec (· == some p) s distinct inTable fun b member => by
    rw [slotU,owned b member]; simp
  obtain ⟨first,rest,keyRest⟩ : ∃ first rest, key.drop common = first::rest :=
    List.exists_cons_of_ne_nil (List.ne_nil_of_length_pos (by rw [List.length_drop]; omega))
  have absent : ¬Present T₂ (pre p++key.take common++[first]) := by
    have leaves : ¬Present T₂ (pre p++key.take (commonLen n'.value key+1)) :=
      standing₂.leaves_inside foundA (by rw [hashes]; omega) (by rw [hashes]; omega) (by rw [hashes]; omega)
    rw [hashes,shared,List.take_succ_eq_append_getElem more] at leaves
    have head : key[common] = first := by
      have drop := List.drop_eq_getElem_cons more
      rw [keyRest] at drop
      exact (List.cons.inj drop).1.symm
    rwa [head,← List.append_assoc] at leaves
  rw [keyRest] at legal₂
  have vacant : ∀ b ∈ ids.drop common, ta.slot b = none := fun b member =>
    (standing₂.unregistered b).mp (fresh_of_absent standing₂.valid legal₂ absent member)
  have inTable₃ : ∀ b ∈ ids.drop common, b < table₃.length := fun b member => by
    rw [size₃,tableU,same.blocks]; exact bound b (List.mem_of_mem_drop member)
  obtain ⟨table₄,moved₄,size₄,slots₄⟩ := repoint_spec (· == none) (s+1) legal₂.distinct inTable₃ fun b member => by
    have none := vacant b member
    have outside : b ∉ bottom.payload.flatten := fun inside => by
      have held := owned b inside
      rw [none] at held
      cases held
    rw [slots₃,slotU,none,if_neg outside]
    rfl
  have foundU : u₂.heap.read p = some ⟨.small [],n.value.take common,n'.payload.take common⟩ := by
    rw [readU,Function.update_self]
  have final : ∀ b, (fun b => table₄[b]?.join) b = if b ∈ ids.drop common then some (s+1)
      else if ta.slot b = some p ∧ b ∈ (n'.payload.drop common).flatten then some s else ta.slot b := by
    intro b
    rw [← lowerHalf]
    simp only [slots₄,slots₃,slotU]
    by_cases inside : b ∈ bottom.payload.flatten
    · simp [inside,owned b inside]
    · simp [inside]
  obtain ⟨pre',shape⟩ := Shape.splitChild standing₂ foundA
    (by rw [readA,Function.update_of_ne sP,unusedS]) (by rw [readA,Function.update_of_ne cP,unusedC])
    (Nat.succ_ne_self s) lower (by rw [hashes]; exact upper) (by rw [hashes,agree]; exact legal₂)
    (by rw [hashes,agree]; exact absent) final
  refine ⟨{u₂ with
    heap := u₂.heap.write p ⟨.small [s,s+1],n.value.take common,n'.payload.take common⟩
    blockToNode := table₄},pre',?_,?_,?_,?_⟩
  · have allocS : w.newNode bottom = (w₁,s) := by rw [newNode,nextW]
    have allocC : w₁.newNode fresh = (u,s+1) := by rw [newNode,nextW₁]
    have room : common < key.length ∧ common ≤ ids.length := by omega
    have room' : common ≤ n.value.length ∧ common ≤ n.payload.length := by omega
    simp only [splitNodeAtInsert,singles_eq,if_pos room,found,if_pos room',Option.bind_eq_bind,Option.bind_some,
      ← bottomDef,← freshDef,← topDef,← wDef,allocS,allocC,aliasedU,setChildren_eq foundU]
    have lowerMoved : repoint (· == some p) s (n.payload.drop common).flatten u₂.blockToNode = some table₃ := moved₃
    simp only [lowerMoved,flatten_singles,moved₄,Option.bind_some,Option.pure_def]
  · exact rootU
  · rw [size₄,size₃,tableU,same.blocks]
  · have whole : insertFrom (pre p) key ids T = insertFrom (pre p++n'.value.take common) (first::rest) (ids.drop common) T₂ := by
      rw [hashes,agree,← keyRest,← insertFrom_append _ (by simp [aligned]),List.take_append_drop,List.take_append_drop]
    rw [whole]
    refine Standing.of_shape shape (rootU.trans same.root.symm) ?_ rfl
    have written : (u₂.heap.write p ⟨.small [s,s+1],n.value.take common,n'.payload.take common⟩).read =
        Function.update u₂.heap.read p (some ⟨.small [s,s+1],n.value.take common,n'.payload.take common⟩) :=
      Arena.read_write _ foundU
    simp only [written,readU,Function.update_idem,heapU,heapW,readA,hashes,child,kept,freshDef,keyRest]
    funext q
    by_cases one : q = p
    · subst one; simp [Ne.symm cP]
    · by_cases two : q = s+1
      · subst two; simp [cP]
      · by_cases three : q = s
        · subst three; simp [sP,bottomDef]
        · simp [one,two,three]

end BlitzRouter.Radix
