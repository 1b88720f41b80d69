import BlitzRouter.RadixCut
import BlitzRouter.RadixLookup

namespace BlitzRouter.Radix
open PrefixTrie CommonPrefix RadixTreeBlockHash

variable {t t' : RadixTreeBlockHash} {pre : Ptr → List Hash} {T : Trie Hash BlockId}

-- Scans touch neither the root pointer nor the table of ids.
structure SameTable (t t' : RadixTreeBlockHash) : Prop where
  root : t'.root = t.root
  table : t'.blockToNode = t.blockToNode

theorem SameTable.slot (same : SameTable t t') : t'.slot = t.slot := by
  funext b
  simp only [RadixTreeBlockHash.slot,same.table]

theorem SameTable.trans (one : SameTable t t') (two : SameTable t' t'') : SameTable t t'' :=
  ⟨two.root.trans one.root,two.table.trans one.table⟩

theorem Standing.swept {p : Ptr} {n : Node} {children : Children} (standing : Standing t pre T) (same : SameTable t t')
    (swept : Swept t.heap.read t'.heap.read p n children) : Standing t' pre T := by
  have shape : Shape t'.heap.read t.root t.slot pre T := Shape.sweep standing swept
  rw [Standing,same.root,same.slot]
  exact shape

theorem lazyGc_eq {n : Node} (found : t.heap.read p = some n) :
    t.lazyGc p = some {t with heap := t.heap.free p,nodes := t.nodes-1} := by
  simp [lazyGc,found]

theorem setChildren_eq {n : Node} (found : t.heap.read p = some n) (children : Children) :
    t.setChildren p children = some {t with heap := t.heap.write p {n with children}} := by
  simp [setChildren,found]

theorem commonPrefix_eq {n : Node} (found : t.heap.read c = some n) {key : List Hash} (shared : commonLen n.value key ≠ 0) :
    t.commonPrefix c key = some (if commonLen n.value key = n.value.length then .fullMatch c
      else .partialMatch c (commonLen n.value key)) := by
  simp [commonPrefix,found,shared]

-- A placeholder is empty in every field; a node with hashes is not.
def Sound (t : RadixTreeBlockHash) (v : List Ptr) : Prop :=
  ∀ c ∈ v, ∃ k, t.heap.read c = some k ∧ (k.isEmpty = true ↔ k.value = [])

theorem Standing.sound {n : Node} {v : List Ptr} (standing : Standing t pre T) (parent : t.heap.read p = some n)
    (small : n.children = .small v) : Sound t v ∧ v.Nodup := by
  refine ⟨?_,by simpa [small] using standing.skeleton.distinct p n parent⟩
  intro c member
  obtain ⟨⟨k,found⟩,proper,_⟩ := standing.skeleton.child_live parent (by simpa [small] using member)
  exact ⟨k,found,standing.skeleton.isEmpty_iff found proper (standing.stored.slots c k found)⟩

-- A scan frees the placeholders it meets and leaves every other cell alone.
structure Scanned (t t' : RadixTreeBlockHash) (v kept : List Ptr) : Prop where
  same : SameTable t t'
  sublist : kept.Sublist v
  gone : ∀ c ∈ v, c ∉ kept → t'.heap.read c = none ∧ ∃ k, t.heap.read c = some k ∧ k.value = []
  stays : ∀ c, c ∉ v ∨ c ∈ kept → t'.heap.read c = t.heap.read c

theorem Scanned.refl (t : RadixTreeBlockHash) (v : List Ptr) : Scanned t t v v :=
  ⟨⟨rfl,rfl⟩,List.Sublist.refl v,fun _ member absent => absurd member absent,fun _ _ => rfl⟩

theorem Scanned.cons_kept {child : Ptr} (scanned : Scanned t t' v kept) (outside : child ∉ v) :
    Scanned t t' (child::v) (child::kept) := by
  refine ⟨scanned.same,scanned.sublist.cons_cons child,?_,?_⟩
  · intro c member absent
    simp only [List.mem_cons,not_or] at member absent
    exact scanned.gone c (member.resolve_left absent.1) absent.2
  · intro c place
    by_cases self : c = child
    · exact self ▸ scanned.stays child (.inl outside)
    · refine scanned.stays c ?_
      simp only [List.mem_cons,self,false_or] at place
      exact place

theorem Scanned.cons_freed {child : Ptr} {k : Node} (found : t.heap.read child = some k) (blank : k.value = [])
    (scanned : Scanned {t with heap := t.heap.free child,nodes := t.nodes-1} t' v kept) (outside : child ∉ v) :
    Scanned t t' (child::v) kept := by
  have dropped : child ∉ kept := fun member => outside (scanned.sublist.subset member)
  have apart : ∀ c, c ≠ child → (t.heap.free child).read c = t.heap.read c := fun c differs => by
    rw [Arena.read_free,Function.update_of_ne differs]
  refine ⟨⟨scanned.same.root,scanned.same.table⟩,scanned.sublist.cons child,?_,?_⟩
  · intro c member absent
    by_cases self : c = child
    · subst self
      refine ⟨(scanned.stays c (.inl outside)).trans ?_,k,found,blank⟩
      exact (congrFun (Arena.read_free _ c) c).trans (Function.update_self ..)
    · have inside := (List.mem_cons.mp member).resolve_left self
      obtain ⟨empty,l,old,none⟩ := scanned.gone c inside absent
      exact ⟨empty,l,(apart c self).symm.trans old,none⟩
  · intro c place
    have self : c ≠ child := by
      rintro rfl
      rcases place with other | member
      · exact other (by simp)
      · exact dropped member
    refine (scanned.stays c ?_).trans (apart c self)
    simp only [List.mem_cons,self,false_or] at place
    exact place

def Missed (t : RadixTreeBlockHash) (kept : List Ptr) (key : List Hash) : Prop :=
  ∀ c ∈ kept, ∃ k, t.heap.read c = some k ∧ k.value ≠ [] ∧ k.value.head? ≠ key.head?

structure Caught (t : RadixTreeBlockHash) (kept : List Ptr) (key : List Hash) (c : Ptr) (k : Node) : Prop where
  member : c ∈ kept
  found : t.heap.read c = some k
  filled : k.value ≠ []
  first : k.value.head? = key.head?

def classify (c : Ptr) (k : Node) (key : List Hash) : CommonPrefixInner :=
  if commonLen k.value key = k.value.length then .fullMatch c else .partialMatch c (commonLen k.value key)

theorem Sound.tail {child : Ptr} (sound : Sound t (child::v)) : Sound t v := fun c member => sound c (by simp [member])

theorem Sound.freed {child : Ptr} (sound : Sound t v) (outside : child ∉ v) :
    Sound {t with heap := t.heap.free child,nodes := t.nodes-1} v := by
  intro c member
  have self : c ≠ child := fun equal => outside (equal ▸ member)
  obtain ⟨k,found,empty⟩ := sound c member
  refine ⟨k,?_,empty⟩
  exact ((congrFun (Arena.read_free _ child) c).trans (Function.update_of_ne self ..)).trans found

-- Both scans end in the same two ways; `scanRoot` reports a miss as `noMatch root`.
theorem scanSmall_spec {key : List Hash} (nonempty : key ≠ []) {v : List Ptr} (sound : Sound t v) (nodup : v.Nodup) :
    ∃ t' kept, Scanned t t' v kept ∧
      ((t.scanSmall key v = some (t',kept,none) ∧ Missed t' kept key) ∨
        ∃ c k, t.scanSmall key v = some (t',kept,some (classify c k key)) ∧ Caught t' kept key c k) := by
  induction v generalizing t with
  | nil => exact ⟨t,[],Scanned.refl t [],.inl ⟨rfl,by simp [Missed]⟩⟩
  | cons child rest ih =>
    obtain ⟨outside,nodup⟩ := List.nodup_cons.mp nodup
    obtain ⟨n,found,empty⟩ := sound child (by simp)
    by_cases blank : n.value = []
    · have step : t.scanSmall key (child::rest) =
          scanSmall {t with heap := t.heap.free child,nodes := t.nodes-1} key rest := by
        rw [scanSmall]
        simp [found,empty.mpr blank,lazyGc_eq found]
      obtain ⟨t',kept,scanned,outcome⟩ := ih (sound.tail.freed outside) nodup
      rw [step]
      exact ⟨t',kept,scanned.cons_freed found blank outside,outcome⟩
    · have full : n.isEmpty = false := by
        rw [← Bool.not_eq_true,empty]; exact blank
      by_cases shared : commonLen n.value key = 0
      · have step : t.scanSmall key (child::rest) =
            (t.scanSmall key rest).map fun rest => (rest.1,child::rest.2.1,rest.2.2) := by
          rw [scanSmall]
          simp only [found,full,commonPrefix,shared,Option.bind_eq_bind,Option.bind_some,Option.pure_def,
            if_true,Bool.false_eq_true,if_false]
          cases scanSmall t key rest <;> rfl
        obtain ⟨t',kept,scanned,outcome⟩ := ih sound.tail nodup
        have scanned' := scanned.cons_kept outside
        have here : t'.heap.read child = some n := (scanned.stays child (.inl outside)).trans found
        refine ⟨t',child::kept,scanned',?_⟩
        rcases outcome with ⟨result,missed⟩ | ⟨c,k,result,caught⟩
        · refine .inl ⟨by rw [step,result]; rfl,?_⟩
          intro c member
          rcases List.mem_cons.mp member with rfl | member
          · exact ⟨n,here,blank,(commonLen_eq_zero blank nonempty).mp shared⟩
          · exact missed c member
        · exact .inr ⟨c,k,by rw [step,result]; rfl,by simp [caught.member],caught.found,caught.filled,caught.first⟩
      · refine ⟨t,child::rest,Scanned.refl t _,.inr ⟨child,n,?_,by simp,found,blank,((commonLen_ne_zero nonempty).mp shared).2⟩⟩
        rw [scanSmall]
        by_cases whole : commonLen n.value key = n.value.length <;>
          simp only [found,full,commonPrefix_eq found shared,whole,Option.bind_eq_bind,Option.bind_some,
            Option.pure_def,Bool.false_eq_true,if_false,if_true,classify]

theorem scanRoot_spec {key : List Hash} (nonempty : key ≠ []) {v : List Ptr} (sound : Sound t v) (nodup : v.Nodup) :
    ∃ t' kept, Scanned t t' v kept ∧
      ((t.scanRoot key v = some (t',kept,.noMatch t.root) ∧ Missed t' kept key) ∨
        ∃ c k, t.scanRoot key v = some (t',kept,classify c k key) ∧ Caught t' kept key c k) := by
  induction v generalizing t with
  | nil => exact ⟨t,[],Scanned.refl t [],.inl ⟨rfl,by simp [Missed]⟩⟩
  | cons child rest ih =>
    obtain ⟨outside,nodup⟩ := List.nodup_cons.mp nodup
    obtain ⟨n,found,empty⟩ := sound child (by simp)
    by_cases blank : n.value = []
    · have step : t.scanRoot key (child::rest) =
          scanRoot {t with heap := t.heap.free child,nodes := t.nodes-1} key rest := by
        rw [scanRoot]
        simp [found,empty.mpr blank,lazyGc_eq found]
      obtain ⟨t',kept,scanned,outcome⟩ := ih (sound.tail.freed outside) nodup
      rw [step]
      exact ⟨t',kept,scanned.cons_freed found blank outside,outcome⟩
    · have full : n.isEmpty = false := by
        rw [← Bool.not_eq_true,empty]; exact blank
      obtain ⟨first,tail,value⟩ := List.exists_cons_of_ne_nil blank
      have head : n.value.head? = some first := by rw [value]; rfl
      by_cases same : some first = key.head?
      · refine ⟨t,child::rest,Scanned.refl t _,.inr ⟨child,n,?_,by simp,found,blank,head.trans same⟩⟩
        have shared := (commonLen_ne_zero nonempty).mpr ⟨blank,head.trans same⟩
        rw [scanRoot]
        simp only [found,full,head,commonPrefix_eq found shared,Option.bind_eq_bind,Option.bind_some,
          Option.pure_def,Bool.false_eq_true,if_false,if_pos same,classify]
      · have step : t.scanRoot key (child::rest) =
            (t.scanRoot key rest).map fun rest => (rest.1,child::rest.2.1,rest.2.2) := by
          rw [scanRoot]
          simp only [found,full,head,if_neg same,Option.bind_eq_bind,Option.bind_some,Option.pure_def,
            Bool.false_eq_true,if_false]
          cases scanRoot t key rest <;> rfl
        obtain ⟨t',kept,scanned,outcome⟩ := ih sound.tail nodup
        have here : t'.heap.read child = some n := (scanned.stays child (.inl outside)).trans found
        refine ⟨t',child::kept,scanned.cons_kept outside,?_⟩
        rcases outcome with ⟨result,missed⟩ | ⟨c,k,result,caught⟩
        · refine .inl ⟨by rw [step,result]; rfl,?_⟩
          intro c member
          rcases List.mem_cons.mp member with rfl | member
          · exact ⟨n,here,blank,by rw [head]; exact same⟩
          · exact missed c member
        · exact .inr ⟨c,k,by rw [step,result]; rfl,by simp [caught.member],caught.found,caught.filled,caught.first⟩

theorem Standing.selfless {n : Node} (standing : Standing t pre T) (parent : t.heap.read p = some n)
    (member : c ∈ n.children.ptrs) : c ≠ p := by
  rintro rfl
  obtain ⟨_,inner,label⟩ := standing.skeleton.child_live parent member
  have blank : n.value = [] := by simpa using label
  rw [standing.skeleton.bare c n parent inner blank] at member
  cases member

-- Storing what a scan kept leaves the same forest without the placeholders.
theorem Standing.small_level {n : Node} (standing : Standing t pre T) (parent : t.heap.read p = some n)
    (small : n.children = .small v) (scanned : Scanned t t' v kept) :
    ∃ t'', t'.setChildren p (.small kept) = some t'' ∧ Standing t'' pre T ∧ SameTable t t'' ∧
      t''.heap.read p = some {n with children := .small kept} ∧ ∀ q, q ≠ p → t''.heap.read q = t'.heap.read q := by
  have apart : ∀ c ∈ v, c ≠ p := fun c member => standing.selfless parent (by simpa [small] using member)
  have parent' : t'.heap.read p = some n :=
    (scanned.stays p (.inl fun member => apart p member rfl)).trans parent
  refine ⟨_,setChildren_eq parent' _,?_⟩
  set t'' := {t' with heap := t'.heap.write p {n with children := .small kept}} with written
  have heap : t''.heap.read = Function.update t'.heap.read p (some {n with children := .small kept}) :=
    Arena.read_write _ parent'
  have here : t''.heap.read p = some {n with children := .small kept} := by rw [heap,Function.update_self]
  have other : ∀ q, q ≠ p → t''.heap.read q = t'.heap.read q := fun q differs => by
    rw [heap,Function.update_of_ne differs]
  have same : SameTable t t'' := ⟨scanned.same.root,scanned.same.table⟩
  refine ⟨standing.swept same ⟨parent,here,?_,?_,?_,?_,?_⟩,same,here,other⟩
  · intro c member
    have inside := scanned.sublist.subset member
    rw [small,ptrs_small]
    exact ⟨inside,(other c (apart c inside)).trans (scanned.stays c (.inr member))⟩
  · intro c member absent
    rw [small,ptrs_small] at member
    rw [other c (apart c member)]
    exact scanned.gone c member absent
  · intro q self outside
    rw [small,ptrs_small] at outside
    exact (other q self).trans (scanned.stays q (.inl outside))
  · have nodup := standing.skeleton.distinct p n parent
    rw [small] at nodup
    exact nodup.sublist scanned.sublist
  · intro m large
    cases large

-- An empty entry of a map is dropped together with its key.
theorem Standing.large_level {n c : Node} {m : AList fun _ : Hash => Ptr} (standing : Standing t pre T)
    (parent : t.heap.read p = some n) (large : n.children = .large m) (entry : m.lookup first = some child)
    (found : t.heap.read child = some c) (blank : c.value = []) (same : SameTable t t')
    (heap : ∀ q, t'.heap.read q = if q = child then none else if q = p then some {n with children := .large (m.erase first)}
      else t.heap.read q) : Standing t' pre T := by
  have member : child ∈ n.children.ptrs := large ▸ mem_large_ptrs.mpr ⟨first,entry⟩
  have apart := standing.selfless parent member
  have nodup := standing.skeleton.distinct p n parent
  have lookup : ∀ y d, (m.erase first).lookup y = some d ↔ y ≠ first ∧ m.lookup y = some d := by
    intro y d
    by_cases equal : y = first
    · subst equal; simp
    · simp [equal,AList.lookup_erase_ne equal]
  -- one key leads to one child
  have ptrs : ∀ d, d ∈ (Children.large (m.erase first)).ptrs ↔ d ∈ n.children.ptrs ∧ d ≠ child := by
    intro d
    rw [large,mem_large_ptrs,mem_large_ptrs]
    simp only [lookup]
    constructor
    · rintro ⟨y,other,inside⟩
      refine ⟨⟨y,inside⟩,?_⟩
      rintro rfl
      rw [large] at nodup
      have one := AList.mem_lookup_iff.mp entry
      have two := AList.mem_lookup_iff.mp inside
      have equal := List.inj_on_of_nodup_map nodup two one rfl
      exact other (congrArg Sigma.fst equal)
    · rintro ⟨⟨y,inside⟩,differs⟩
      refine ⟨y,?_,inside⟩
      rintro rfl
      exact differs (Option.some.inj (inside.symm.trans entry))
  suffices swept : Swept t.heap.read t'.heap.read p n (.large (m.erase first)) from standing.swept same swept
  refine ⟨parent,?_,?_,?_,?_,?_,?_⟩
  · rw [heap,if_neg (Ne.symm apart),if_pos rfl]
  · intro d inside
    obtain ⟨before,differs⟩ := (ptrs d).mp inside
    exact ⟨before,by rw [heap,if_neg differs,if_neg (standing.selfless parent before)]⟩
  · intro d inside absent
    have self : d = child := Classical.byContradiction fun differs => absent ((ptrs d).mpr ⟨inside,differs⟩)
    subst self
    exact ⟨by rw [heap,if_pos rfl],c,found,blank⟩
  · intro q self outside
    have differs : q ≠ child := fun equal => outside (equal ▸ member)
    rw [heap,if_neg differs,if_neg self]
  · rw [large] at nodup
    have fewer : (Children.large (m.erase first)).ptrs.Sublist (Children.large m).ptrs := by
      simp only [Children.ptrs]
      exact (List.kerase_sublist first m.entries).map _
    exact nodup.sublist fewer
  · intro m' equal
    cases equal
    exact ⟨m,large,fun y d inside => ((lookup y d).mp inside).2⟩

-- No child of the node starts with this hash, and a new one may be stored under it.
def Ready (t : RadixTreeBlockHash) (p : Ptr) (first : Hash) : Prop :=
  ∃ n, t.heap.read p = some n ∧ match n.children with
    | .small v => ∀ c ∈ v, ∃ k, t.heap.read c = some k ∧ k.value ≠ [] ∧ k.value.head? ≠ some first
    | .large m => m.lookup first = none

theorem Standing.headless {n : Node} (standing : Standing t pre T) (ready : Ready t p first)
    (parent : t.heap.read p = some n) : ∀ c ∈ n.children.ptrs, ∀ k, t.heap.read c = some k → k.value.head? ≠ some first := by
  obtain ⟨m,found,free⟩ := ready
  cases Option.some.inj (found.symm.trans parent)
  intro c member k live head
  cases shape : n.children with
  | small v =>
    rw [shape] at free member
    obtain ⟨l,again,_,differs⟩ := free c member
    cases Option.some.inj (live.symm.trans again)
    exact differs head
  | large m =>
    have entry := standing.skeleton.large_lookup parent shape member live head
    rw [shape] at free
    cases free.symm.trans entry

-- Where the descent for a key stops.
inductive Landing (t : RadixTreeBlockHash) (pre : Ptr → List Hash) (whole : List Hash) :
    CommonPrefixInner → List Hash → Prop where
  | full {q n key1} (found : t.heap.read q = some n) (filled : n.value ≠ []) (path : pre q++n.value++key1 = whole)
      (ready : ∀ first, key1.head? = some first → Ready t q first) : Landing t pre whole (.fullMatch q) key1
  | inside {q n key1} (found : t.heap.read q = some n) (path : pre q++key1 = whole)
      (lower : 0 < commonLen n.value key1) (upper : commonLen n.value key1 < n.value.length) :
      Landing t pre whole (.partialMatch q (commonLen n.value key1)) key1

-- One level: the scan misses, or it catches a child that shares the next hash.
inductive Level (t : RadixTreeBlockHash) (p : Ptr) (n : Node) (key : List Hash) : Option (Ptr × Node) → Prop where
  | miss {children} (parent : t.heap.read p = some {n with children})
      (ready : ∀ first, key.head? = some first → Ready t p first) : Level t p n key none
  | hit {c k children} (parent : t.heap.read p = some {n with children}) (member : c ∈ children.ptrs)
      (found : t.heap.read c = some k) (shared : commonLen k.value key ≠ 0) : Level t p n key (some (c,k))

theorem Standing.scan_level {n : Node} {key : List Hash} (standing : Standing t pre T) (parent : t.heap.read p = some n)
    (nonempty : key ≠ []) (small : n.children = .small v) (scanned : Scanned t t' v kept) (hit : Option (Ptr × Node))
    (outcome : (hit = none ∧ Missed t' kept key) ∨ ∃ c k, hit = some (c,k) ∧ Caught t' kept key c k) :
    ∃ t'', t'.setChildren p (.small kept) = some t'' ∧ Standing t'' pre T ∧ SameTable t t'' ∧ Level t'' p n key hit := by
  obtain ⟨t'',result,standing',same,here,other⟩ := standing.small_level parent small scanned
  have reads : ∀ c ∈ kept, t''.heap.read c = t'.heap.read c := fun c member =>
    other c (standing.selfless parent (small ▸ scanned.sublist.subset member))
  refine ⟨t'',result,standing',same,?_⟩
  rcases outcome with ⟨rfl,missed⟩ | ⟨c,k,rfl,caught⟩
  · refine .miss here fun first head => ⟨_,here,fun c member => ?_⟩
    obtain ⟨k,found,filled,differs⟩ := missed c member
    exact ⟨k,(reads c member).trans found,filled,head ▸ differs⟩
  · exact .hit here caught.member ((reads c caught.member).trans caught.found)
      ((commonLen_ne_zero nonempty).mpr ⟨caught.filled,caught.first⟩)

-- The level's hit is where the descent lands or goes on.
theorem Level.inside {c : Ptr} {k n : Node} {key : List Hash} (standing : Standing t pre T)
    (level : Level t p n key (some (c,k))) : t.heap.read c = some k ∧ pre c = pre p++n.value ∧ c ≠ t.root ∧
      0 < commonLen k.value key := by
  cases level with
  | hit parent member found shared =>
    obtain ⟨_,proper,label⟩ := standing.skeleton.child_live parent member
    exact ⟨found,label,proper,Nat.pos_of_ne_zero shared⟩

end BlitzRouter.Radix
