import BlitzRouter.RadixCore
import BlitzRouter.PrefixTrie

namespace BlitzRouter.Radix
open PrefixTrie

theorem mem_large_ptrs {m : AList fun _ : Hash => Ptr} {c : Ptr} :
    c ∈ (Children.large m).ptrs ↔ ∃ first, m.lookup first = some c := by
  simp only [Children.ptrs,List.mem_map]
  constructor
  · rintro ⟨⟨first,p⟩,member,rfl⟩
    exact ⟨first,AList.mem_lookup_iff.mpr member⟩
  · rintro ⟨first,found⟩
    exact ⟨⟨first,c⟩,AList.mem_lookup_iff.mp found,rfl⟩

@[simp] theorem ptrs_small (v : List Ptr) : (Children.small v).ptrs = v := rfl

theorem children_isEmpty (children : Children) : children.isEmpty = true ↔ children.ptrs = [] := by
  cases children <;> simp [Children.isEmpty,Children.ptrs,List.isEmpty_iff]

@[simp] theorem ptrs_clear (children : Children) : children.clear.ptrs = [] := by
  cases children <;> rfl

-- `pre` labels a node with the hashes above it. It is a ghost: the code stores
-- no such thing, and every label below is read off the heap it belongs to.
def At (read : Ptr → Option Node) (pre : Ptr → List Hash) (p : Ptr) (i : Nat) (path : List Hash) : Prop :=
  ∃ n, read p = some n ∧ i < n.value.length ∧ path = pre p++n.value.take (i+1)

-- Only the root and nodes with hashes can have children; an emptied node is a placeholder.
def Ends (read : Ptr → Option Node) (root : Ptr) (pre : Ptr → List Hash) (p : Ptr) (path : List Hash) : Prop :=
  ∃ n, read p = some n ∧ (p = root ∨ n.value ≠ []) ∧ path = pre p++n.value

-- The children and the hashes of all nodes make a forest with these labels.
structure Skeleton (read : Ptr → Option Node) (root : Ptr) (pre : Ptr → List Hash) : Prop where
  rootNode : ∃ n, read root = some n ∧ n.value = []
  rootPre : pre root = []
  bare : ∀ p n, read p = some n → p ≠ root → n.value = [] → n.children.ptrs = []
  edge : ∀ p n, read p = some n → (p = root ∨ n.value ≠ []) →
    ∀ c, c ∈ n.children.ptrs ↔ (∃ k, read c = some k) ∧ c ≠ root ∧ pre c = pre p++n.value
  parent : ∀ c k, read c = some k → c ≠ root → ∃ p, Ends read root pre p (pre c)
  distinct : ∀ p n, read p = some n → n.children.ptrs.Nodup
  heads : ∀ c d k l, read c = some k → read d = some l → c ≠ root → d ≠ root → pre c = pre d →
    k.value ≠ [] → k.value.head? = l.value.head? → c = d
  keyed : ∀ p n m, read p = some n → n.children = .large m →
    ∀ first c k, m.lookup first = some c → read c = some k → k.value ≠ [] → k.value.head? = some first

-- The payloads hold exactly the ids of the trie `T`, and the index finds each of them.
structure Stored (read : Ptr → Option Node) (pre : Ptr → List Hash) (index : BlockId → Option Ptr)
    (T : Trie Hash BlockId) : Prop where
  slots : ∀ p n, read p = some n → n.payload.length = n.value.length
  filled : ∀ p n (i : Nat) bids, read p = some n → n.payload[i]? = some bids → bids ≠ [] ∧ bids.Nodup
  ids : ∀ p n (i : Nat) bids, read p = some n → n.payload[i]? = some bids →
    ∀ b, b ∈ bids ↔ b ∈ T (pre p++n.value.take (i+1))
  covered : ∀ path b, b ∈ T path → ∃ p i, At read pre p i path
  indexed : ∀ b p, index b = some p ↔ ∃ path i, b ∈ T path ∧ At read pre p i path

structure Shape (read : Ptr → Option Node) (root : Ptr) (index : BlockId → Option Ptr)
    (pre : Ptr → List Hash) (T : Trie Hash BlockId) : Prop where
  skeleton : Skeleton read root pre
  stored : Stored read pre index T
  valid : WellFormed T

variable {read : Ptr → Option Node} {root : Ptr} {index : BlockId → Option Ptr}
  {pre : Ptr → List Hash} {T : Trie Hash BlockId}

theorem take_singleton {value : List Hash} (bound : 0 < value.length) : value.take (0+1) = [value[0]] := by
  rw [List.take_succ_eq_append_getElem bound]; simp

theorem At.ne_nil (located : At read pre p i path) : path ≠ [] := by
  obtain ⟨n,_,bound,rfl⟩ := located
  intro nothing
  have size := congrArg List.length nothing
  simp only [List.length_append,List.length_take,List.length_nil] at size
  omega

theorem at_zero {k : Node} (found : read c = some k) (first : k.value.head? = some x) :
    At read pre c 0 (pre c++[x]) := by
  obtain ⟨rest,same⟩ := List.head?_eq_some_iff.mp first
  exact ⟨k,found,by simp [same],by simp [same]⟩

namespace Skeleton

theorem ne_root (shape : Skeleton read root pre) (found : read p = some n) (filled : n.value ≠ []) :
    p ≠ root := by
  rintro rfl
  obtain ⟨m,same,blank⟩ := shape.rootNode
  cases Option.some.inj (found.symm.trans same)
  exact filled blank

theorem at_ne_root (shape : Skeleton read root pre) (located : At read pre p i path) : p ≠ root := by
  obtain ⟨n,found,bound,_⟩ := located
  exact shape.ne_root found (List.ne_nil_of_length_pos (by omega))

theorem ends_root (shape : Skeleton read root pre) : Ends read root pre root [] := by
  obtain ⟨n,found,blank⟩ := shape.rootNode
  exact ⟨n,found,.inl rfl,by rw [shape.rootPre,blank]; rfl⟩

-- A node that ends below the root is located at its last symbol.
theorem ends_at (shape : Skeleton read root pre) (end_ : Ends read root pre p path) (nonempty : path ≠ []) :
    ∃ n, read p = some n ∧ n.value ≠ [] ∧ path = pre p++n.value ∧ At read pre p (n.value.length-1) path := by
  obtain ⟨n,found,proper,rfl⟩ := end_
  have filled : n.value ≠ [] := by
    intro blank
    rcases proper with rfl | filled
    · rw [shape.rootPre,blank] at nonempty
      exact nonempty rfl
    · exact filled blank
  have positive := List.length_pos_of_ne_nil filled
  exact ⟨n,found,filled,rfl,n,found,by omega,by rw [Nat.sub_add_cancel positive,List.take_length]⟩

-- One symbol up: inside the same node, or its label when the symbol is the first.
theorem at_up (located : At read pre p i (path++[last])) :
    (∃ j, i = j+1 ∧ At read pre p j path) ∨
      (i = 0 ∧ pre p = path ∧ ∃ n, read p = some n ∧ n.value.head? = some last) := by
  obtain ⟨n,found,bound,equal⟩ := located
  cases i with
  | succ i =>
    refine .inl ⟨i,rfl,n,found,by omega,?_⟩
    rw [List.take_succ_eq_append_getElem bound,← List.append_assoc] at equal
    exact (List.append_inj_left' equal rfl)
  | zero =>
    rw [take_singleton bound] at equal
    refine .inr ⟨rfl,(List.append_inj_left' equal rfl).symm,n,found,?_⟩
    have symbol := List.append_inj_right' equal rfl
    rw [List.head?_eq_getElem?,List.getElem?_eq_getElem bound]
    simpa using symbol.symm

-- The node above a first symbol, unless that symbol hangs from the root.
theorem label_at (shape : Skeleton read root pre) (found : read p = some n) (proper : p ≠ root) :
    pre p = [] ∨ ∃ q m, read q = some m ∧ pre p = pre q++m.value ∧ At read pre q (m.value.length-1) (pre p) := by
  obtain ⟨q,end_⟩ := shape.parent p n found proper
  by_cases nonempty : pre p = []
  · exact .inl nonempty
  · obtain ⟨m,parent,_,label,located⟩ := shape.ends_at end_ nonempty
    exact .inr ⟨q,m,parent,label,located⟩

-- Induction on the path; siblings are told apart by their first symbol.
theorem at_unique (shape : Skeleton read root pre) (left : At read pre p i path)
    (right : At read pre q j path) : p = q ∧ i = j := by
  induction path using List.reverseRecOn generalizing p q i j with
  | nil => exact absurd rfl left.ne_nil
  | append_singleton path last ih =>
    -- a first symbol and an inner one at the same path would share the node above
    have clash : ∀ {a b : Ptr} {x : Nat}, a ≠ root → (∃ n, read a = some n) → pre a = path →
        At read pre b (x+1) (path++[last]) → At read pre b x path → False := by
      intro a b x proper ⟨n,found⟩ label deep above
      rcases shape.label_at found proper with top | ⟨u,m,parent,_,located⟩
      · exact above.ne_nil (label.symm.trans top)
      · obtain ⟨rfl,same⟩ := ih (label ▸ located) above
        obtain ⟨k,again,bound,_⟩ := deep
        cases Option.some.inj (parent.symm.trans again)
        omega
    have leftProper := shape.at_ne_root left
    have rightProper := shape.at_ne_root right
    rcases at_up left with ⟨x,rfl,above⟩ | ⟨rfl,label,n,found,first⟩ <;>
      rcases at_up right with ⟨y,rfl,upper⟩ | ⟨rfl,same,m,again,second⟩
    · obtain ⟨rfl,rfl⟩ := ih above upper
      exact ⟨rfl,rfl⟩
    · exact (clash rightProper ⟨m,again⟩ same left above).elim
    · exact (clash leftProper ⟨n,found⟩ label right upper).elim
    · refine ⟨shape.heads p q n m found again leftProper rightProper (label.trans same.symm) ?_
        (first.trans second.symm),rfl⟩
      intro blank
      rw [blank] at first
      cases first

theorem at_prefix (shape : Skeleton read root pre) (located : At read pre q j path) (before : above <+: path)
    (nonempty : above ≠ []) : ∃ p i, At read pre p i above := by
  obtain ⟨suffix,rfl⟩ := before
  induction suffix using List.reverseRecOn generalizing q j with
  | nil => exact ⟨q,j,by simpa using located⟩
  | append_singleton suffix last ih =>
    rw [← List.append_assoc] at located
    have proper := shape.at_ne_root located
    rcases at_up located with ⟨x,_,upper⟩ | ⟨_,label,n,found,_⟩
    · exact ih upper
    · rcases shape.label_at found proper with top | ⟨u,m,_,_,upper⟩
      · rw [label] at top
        exact absurd (List.append_eq_nil_iff.mp top).1 nonempty
      · exact ih (label ▸ upper)

-- A longer path stays inside the node of a shorter one or starts past its end.
theorem prefix_at (shape : Skeleton read root pre) (short : At read pre p i above) (found : read p = some n)
    (long : At read pre q j path) (before : above <+: path) : p = q ∨ pre p++n.value <+: pre q := by
  obtain ⟨suffix,rfl⟩ := before
  induction suffix using List.reverseRecOn generalizing q j with
  | nil => exact .inl (shape.at_unique short (by simpa using long)).1
  | append_singleton suffix last ih =>
    rw [← List.append_assoc] at long
    have proper := shape.at_ne_root long
    rcases at_up long with ⟨x,_,upper⟩ | ⟨_,label,m,again,_⟩
    · exact ih upper
    · rcases shape.label_at again proper with top | ⟨u,k,parent,joined,upper⟩
      · rw [label] at top
        exact absurd (List.append_eq_nil_iff.mp top).1 short.ne_nil
      · rcases ih (label ▸ upper) with rfl | deeper
        · cases Option.some.inj (found.symm.trans parent)
          exact .inr (joined ▸ List.prefix_refl _)
        · exact .inr (deeper.trans (joined ▸ List.prefix_append _ _))

theorem ends_unique (shape : Skeleton read root pre) (left : Ends read root pre p path)
    (right : Ends read root pre q path) : p = q := by
  by_cases nonempty : path = []
  · subst nonempty
    have top : ∀ {a : Ptr}, Ends read root pre a [] → a = root := by
      rintro a ⟨n,_,proper | filled,empty⟩
      · exact proper
      · exact absurd (List.append_eq_nil_iff.mp empty.symm).2 filled
    rw [top left,top right]
  · obtain ⟨_,_,_,_,one⟩ := shape.ends_at left nonempty
    obtain ⟨_,_,_,_,two⟩ := shape.ends_at right nonempty
    exact (shape.at_unique one two).1

-- What lies one symbol past the end of a node is the head of one of its children.
theorem at_child (shape : Skeleton read root pre) (parent : read p = some n) (proper : p = root ∨ n.value ≠ [])
    (located : At read pre c i (pre p++n.value++[x])) :
    i = 0 ∧ c ∈ n.children.ptrs ∧ ∃ k, read c = some k ∧ k.value.head? = some x := by
  have inner := shape.at_ne_root located
  have end_ : Ends read root pre p (pre p++n.value) := ⟨n,parent,proper,rfl⟩
  rcases at_up located with ⟨y,rfl,above⟩ | ⟨rfl,label,k,found,first⟩
  · obtain ⟨m,same,filled,_,last⟩ := shape.ends_at end_ above.ne_nil
    obtain ⟨rfl,rfl⟩ := shape.at_unique last above
    obtain ⟨u,again,bound,_⟩ := located
    cases Option.some.inj (again.symm.trans same)
    have positive := List.length_pos_of_ne_nil filled
    omega
  · exact ⟨rfl,(shape.edge p n parent proper c).mpr ⟨⟨k,found⟩,inner,label⟩,k,found,first⟩

-- Nothing hangs below a node none of whose children starts with the symbol.
theorem no_label (shape : Skeleton read root pre) (parent : read p = some n) (proper : p = root ∨ n.value ≠ [])
    (headless : ∀ c ∈ n.children.ptrs, ∀ k, read c = some k → k.value.head? ≠ some x)
    (longer : pre p++n.value++[x] <+: path) (located : At read pre q j path) : False := by
  obtain ⟨c,i,child⟩ := shape.at_prefix located longer (by simp)
  obtain ⟨_,member,k,found,first⟩ := shape.at_child parent proper child
  exact headless c member k found first

-- Labels stand at the ends of nodes, never strictly inside one.
theorem label_not_inside (shape : Skeleton read root pre) (found : read p = some n) (lower : 0 < i)
    (upper : i < n.value.length) (other : read d = some k) (proper : d ≠ root) : pre d ≠ pre p++n.value.take i := by
  intro label
  have here : At read pre p (i-1) (pre p++n.value.take i) := ⟨n,found,by omega,by rw [Nat.sub_add_cancel lower]⟩
  rcases shape.label_at other proper with top | ⟨q,m,parent,_,located⟩
  · exact here.ne_nil (label.symm.trans top)
  · obtain ⟨rfl,same⟩ := shape.at_unique (label ▸ located) here
    cases Option.some.inj (found.symm.trans parent)
    omega

theorem isEmpty_iff {c : Ptr} {k : Node} (shape : Skeleton read root pre) (found : read c = some k) (proper : c ≠ root)
    (slots : k.payload.length = k.value.length) : k.isEmpty = true ↔ k.value = [] := by
  simp only [Node.isEmpty,Bool.and_eq_true,children_isEmpty,List.isEmpty_iff]
  constructor
  · exact fun all => all.1.2
  · intro blank
    refine ⟨⟨shape.bare c k found proper blank,blank⟩,?_⟩
    rw [blank] at slots
    exact List.eq_nil_of_length_eq_zero slots

-- A map finds every child by its first hash.
theorem large_lookup {n : Node} {m : AList fun _ : Hash => Ptr} (shape : Skeleton read root pre)
    (parent : read p = some n) (large : n.children = .large m) (member : d ∈ n.children.ptrs)
    (live : read d = some l) (first : l.value.head? = some x) : m.lookup x = some d := by
  rw [large,mem_large_ptrs] at member
  obtain ⟨y,entry⟩ := member
  have filled : l.value ≠ [] := by
    intro blank
    rw [blank] at first
    cases first
  have same := shape.keyed p n m parent large y d l entry live filled
  cases Option.some.inj (first.symm.trans same)
  exact entry

theorem child_live (shape : Skeleton read root pre) (parent : read p = some n) (member : c ∈ n.children.ptrs) :
    (∃ k, read c = some k) ∧ c ≠ root ∧ pre c = pre p++n.value := by
  have proper : p = root ∨ n.value ≠ [] := by
    apply Classical.byContradiction
    intro neither
    push Not at neither
    rw [shape.bare p n parent neither.1 neither.2] at member
    cases member
  exact (shape.edge p n parent proper c).mp member

end Skeleton

theorem mem_slot {i : Nat} (stored : Stored read pre index T) (found : read p = some n)
    (slot : n.payload[i]? = some bids) (member : b ∈ bids) : b ∈ T (pre p++n.value.take (i+1)) ∧
      At read pre p i (pre p++n.value.take (i+1)) := by
  have bound := (List.getElem?_eq_some_iff.mp slot).1
  exact ⟨(stored.ids p n i bids found slot b).mp member,n,found,stored.slots p n found ▸ bound,rfl⟩

namespace Shape

theorem present_iff (shape : Shape read root index pre T) (path : List Hash) :
    Present T path ↔ ∃ p i, At read pre p i path := by
  constructor
  · rintro ⟨b,member⟩
    exact shape.stored.covered path b member
  · rintro ⟨p,i,n,found,bound,rfl⟩
    have inside : i < n.payload.length := (shape.stored.slots p n found).symm ▸ bound
    have slot := List.getElem?_eq_getElem inside
    obtain ⟨b,member⟩ := List.exists_mem_of_ne_nil _ (shape.stored.filled p n i _ found slot).1
    exact ⟨b,(mem_slot shape.stored found slot member).1⟩

theorem registered_iff (shape : Shape read root index pre T) (b : BlockId) :
    Registered T b ↔ ∃ p, index b = some p := by
  constructor
  · rintro ⟨path,member⟩
    obtain ⟨p,i,located⟩ := shape.stored.covered path b member
    exact ⟨p,(shape.stored.indexed b p).mpr ⟨path,i,member,located⟩⟩
  · rintro ⟨p,at_⟩
    obtain ⟨path,i,member,_⟩ := (shape.stored.indexed b p).mp at_
    exact ⟨path,member⟩

theorem unregistered (shape : Shape read root index pre T) (b : BlockId) :
    ¬Registered T b ↔ index b = none := by
  rw [shape.registered_iff,Option.eq_none_iff_forall_ne_some]
  simp

theorem payload_nodup (shape : Shape read root index pre T) (found : read p = some n) : n.payload.flatten.Nodup := by
  rw [List.nodup_flatten]
  refine ⟨?_,?_⟩
  · intro bids listed
    obtain ⟨i,slot⟩ := List.mem_iff_getElem?.mp listed
    exact (shape.stored.filled p n i bids found slot).2
  · rw [List.pairwise_iff_getElem]
    intro i j iBound jBound less b left right
    -- one id cannot sit at two positions
    obtain ⟨one,atI⟩ := mem_slot shape.stored found (List.getElem?_eq_getElem iBound) left
    obtain ⟨two,atJ⟩ := mem_slot shape.stored found (List.getElem?_eq_getElem jBound) right
    have same := shape.valid.single b _ _ one two
    rw [same] at atI
    exact Nat.ne_of_lt less (shape.skeleton.at_unique atI atJ).2

-- The slot an id sits in, given the node the index names.
theorem slot_of (shape : Shape read root index pre T) (at_ : index b = some p) :
    ∃ n, ∃ i : Nat, ∃ bids, read p = some n ∧ n.payload[i]? = some bids ∧ b ∈ bids ∧ b ∈ T (pre p++n.value.take (i+1)) := by
  obtain ⟨path,i,member,n,found,bound,rfl⟩ := (shape.stored.indexed b p).mp at_
  have inside : i < n.payload.length := (shape.stored.slots p n found).symm ▸ bound
  have slot := List.getElem?_eq_getElem inside
  exact ⟨n,i,_,found,slot,(shape.stored.ids p n i _ found slot b).mpr member,member⟩

end Shape

-- The slot of an id; ids past the end of the table have none.
def RadixTreeBlockHash.slot (t : RadixTreeBlockHash) (b : BlockId) : Option Ptr := t.blockToNode[b]?.join

-- The state of a tree together with the labels of its nodes.
def Standing (t : RadixTreeBlockHash) (pre : Ptr → List Hash) (T : Trie Hash BlockId) : Prop :=
  Shape t.heap.read t.root t.slot pre T

theorem Standing.of_shape {t' : RadixTreeBlockHash} (shape : Shape read root index pre T) (top : t'.root = root)
    (heap : t'.heap.read = read) (slots : t'.slot = index) : Standing t' pre T := by
  rw [Standing,top,heap,slots]
  exact shape

-- A tree stands for a trie when some labels make its heap a forest with that trie.
def Refines (t : RadixTreeBlockHash) (T : Trie Hash BlockId) : Prop := ∃ pre, Standing t pre T

end BlitzRouter.Radix
