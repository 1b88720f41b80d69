import BlitzRouter.RadixEdit

namespace BlitzRouter.Radix
open PrefixTrie

variable {read read' : Ptr → Option Node} {root : Ptr} {index index' : BlockId → Option Ptr}
  {pre pre' : Ptr → List Hash} {T : Trie Hash BlockId}

def singles (ids : List BlockId) : List Bids := ids.map fun b => [b]

@[simp] theorem singles_length (ids : List BlockId) : (singles ids).length = ids.length := List.length_map ..

theorem singles_getElem? {ids : List BlockId} {i : Nat} (slot : (singles ids)[i]? = some bids) :
    ∃ b, ids[i]? = some b ∧ bids = [b] := by
  rw [singles,List.getElem?_map,Option.map_eq_some_iff] at slot
  obtain ⟨b,found,rfl⟩ := slot
  exact ⟨b,found,rfl⟩

@[simp] theorem flatten_singles (ids : List BlockId) : (singles ids).flatten = ids := by
  induction ids with
  | nil => rfl
  | cons b ids ih => simpa [singles] using ih

-- Hashes are appended to a node without children, one new id at each position.
structure Extended (read read' : Ptr → Option Node) (root : Ptr) (index index' : BlockId → Option Ptr)
    (pre : Ptr → List Hash) (T : Trie Hash BlockId) (p : Ptr) (n : Node) (keys : List Hash) (ids : List BlockId) :
    Prop where
  found : read p = some n
  proper : p ≠ root
  leaf : n.children.ptrs = []
  keys_ne : keys ≠ []
  heap : read' = Function.update read p (some ⟨n.children,n.value++keys,n.payload++singles ids⟩)
  legal : Insertable T (pre p++n.value) keys ids
  fresh : ∀ b ∈ ids, index b = none
  ids : ∀ b, index' b = if b ∈ ids then some p else index b
  absent : ∀ first, keys.head? = some first → ¬Present T (pre p++n.value++[first])
  keyed : ∀ q m table first, read q = some m → m.children = .large table → table.lookup first = some p →
    n.value = [] → keys.head? = some first

theorem Extended.at_iff {p : Ptr} {n : Node} {keys : List Hash} {ids : List BlockId}
    (grown : Extended read read' root index index' pre T p n keys ids) (q : Ptr) (j : Nat) (path : List Hash) : At read' pre q j path ↔
    At read pre q j path ∨ ∃ i < keys.length, q = p ∧ j = n.value.length+i ∧ path = pre p++n.value++keys.take (i+1) := by
  rw [At,grown.heap]
  by_cases self : q = p
  · subst self
    simp only [Function.update_self,Option.some.injEq,exists_eq_left']
    simp only [List.length_append]
    constructor
    · rintro ⟨bound,rfl⟩
      by_cases inner : j < n.value.length
      · exact .inl ⟨n,grown.found,inner,by rw [List.take_append_of_le_length (by omega)]⟩
      · refine .inr ⟨j-n.value.length,by omega,trivial,by omega,?_⟩
        rw [List.take_append,List.take_of_length_le (by omega),List.append_assoc]
        congr 3
        omega
    · rintro (⟨m,found,bound,rfl⟩ | ⟨i,bound,_,rfl,rfl⟩)
      · cases Option.some.inj (grown.found.symm.trans found)
        exact ⟨by omega,by rw [List.take_append_of_le_length (by omega)]⟩
      · refine ⟨by omega,?_⟩
        rw [Nat.add_assoc,List.take_length_add_append,List.append_assoc]
  · rw [Function.update_of_ne self]
    constructor
    · exact .inl
    · rintro (old | ⟨_,_,equal,_⟩)
      · exact old
      · exact absurd equal self

section Extend
variable {p : Ptr} {n : Node} {keys : List Hash} {ids : List BlockId} (shape : Shape read root index pre T) (grown : Extended read read' root index index' pre T p n keys ids)
include shape grown

theorem Extended.beyond (path : List Hash) (longer : pre p++n.value <+: path) (more : path ≠ pre p++n.value) (taken : path <+: pre p++n.value++keys)
    (located : At read pre q j path) : False := by
  obtain ⟨suffix,rfl⟩ := longer
  cases suffix with
  | nil => simp at more
  | cons first suffix =>
    obtain ⟨rest,equal⟩ := taken
    rw [List.append_assoc] at equal
    have head : keys.head? = some first := by
      rw [← List.append_cancel_left equal]; rfl
    apply grown.absent first head
    apply shape.valid.closed _ (pre p++n.value++first::suffix) ⟨suffix,by simp⟩ (by simp)
    exact (shape.present_iff _).mpr ⟨q,j,located⟩

theorem Skeleton.extend : Skeleton read' root pre := by
  have skeleton := shape.skeleton
  obtain ⟨first,rest,keysEq⟩ := List.exists_cons_of_ne_nil grown.keys_ne
  have here : read' p = some ⟨n.children,n.value++keys,n.payload++singles ids⟩ := by
    rw [grown.heap,Function.update_self]
  have other : ∀ q, q ≠ p → read' q = read q := fun q apart => by rw [grown.heap,Function.update_of_ne apart]
  have live : ∀ d, (∃ k, read' d = some k) ↔ ∃ k, read d = some k := by
    intro d
    by_cases self : d = p
    · subst self; exact ⟨fun _ => ⟨n,grown.found⟩,fun _ => ⟨_,here⟩⟩
    · rw [other d self]
  -- no node hangs from the new end
  have bottom : ∀ d k, read d = some k → d ≠ root → pre d ≠ pre p++(n.value++keys) := by
    intro d k found inner label
    rcases skeleton.label_at found inner with top | ⟨q,m,_,_,located⟩
    · rw [label] at top
      simp [keysEq] at top
    · rw [label] at located
      exact grown.beyond shape (pre p++(n.value++keys)) ⟨keys,by simp⟩ (by simp [keysEq]) (by simp) located
  -- a sibling of the node does not start with the first new hash
  have sibling : ∀ d k, read d = some k → n.value = [] → pre d = pre p → k.value.head? ≠ some first := by
    intro d k found blank label head
    have located : At read pre d 0 (pre d++[first]) := at_zero found head
    rw [label] at located
    refine grown.beyond shape (pre p++[first]) (by simp [blank]) (by simp [blank]) ?_ located
    exact ⟨rest,by simp [blank,keysEq]⟩
  refine ⟨?_,skeleton.rootPre,?_,?_,?_,?_,?_,?_⟩
  · obtain ⟨r,top,blank⟩ := skeleton.rootNode
    exact ⟨r,(other root (Ne.symm grown.proper)).trans top,blank⟩
  · intro q m found proper blank
    by_cases self : q = p
    · subst self
      cases Option.some.inj (here.symm.trans found)
      exact grown.leaf
    · exact skeleton.bare q m (other q self ▸ found) proper blank
  · intro q m found proper d
    rw [live]
    by_cases self : q = p
    · subst self
      cases Option.some.inj (here.symm.trans found)
      simp only [grown.leaf,List.not_mem_nil,false_iff]
      rintro ⟨⟨k,old⟩,inner,label⟩
      exact bottom d k old inner label
    · exact skeleton.edge q m (other q self ▸ found) proper d
  · intro d k found proper
    obtain ⟨l,old⟩ := (live d).mp ⟨k,found⟩
    obtain ⟨q,m,parent,filled,label⟩ := skeleton.parent d l old proper
    have apart : q ≠ p := by
      rintro rfl
      have member := (skeleton.edge q m parent filled d).mpr ⟨⟨l,old⟩,proper,label⟩
      cases Option.some.inj (grown.found.symm.trans parent)
      rw [grown.leaf] at member
      cases member
    exact ⟨q,m,(other q apart).trans parent,filled,label⟩
  · intro q m found
    by_cases self : q = p
    · subst self
      cases Option.some.inj (here.symm.trans found)
      exact skeleton.distinct q n grown.found
    · exact skeleton.distinct q m (other q self ▸ found)
  · -- the head of the node changes only when it had none
    have headP : n.value ≠ [] → (n.value++keys).head? = n.value.head? := by
      intro filled
      obtain ⟨x,xs,equal⟩ := List.exists_cons_of_ne_nil filled
      simp [equal]
    have new : n.value = [] → (n.value++keys).head? = some first := by
      intro blank
      simp [blank,keysEq]
    intro d e k l one two left right label filled head
    by_cases selfD : d = p <;> by_cases selfE : e = p
    · rw [selfD,selfE]
    · subst selfD
      cases Option.some.inj (here.symm.trans one)
      rw [other e selfE] at two
      by_cases blank : n.value = []
      · exact absurd (head.symm.trans (new blank)) (sibling e l two blank label.symm)
      · exact skeleton.heads d e n l grown.found two left right label blank ((headP blank).symm.trans head)
    · subst selfE
      cases Option.some.inj (here.symm.trans two)
      rw [other d selfD] at one
      by_cases blank : n.value = []
      · exact absurd (head.trans (new blank)) (sibling d k one blank label)
      · exact skeleton.heads d e k n one grown.found left right label filled (head.trans (headP blank))
    · rw [other d selfD] at one
      rw [other e selfE] at two
      exact skeleton.heads d e k l one two left right label filled head
  · intro q m table found large symbol c k entry child filled
    have parent : ∃ m', read q = some m' ∧ m'.children = .large table := by
      by_cases self : q = p
      · subst self
        cases Option.some.inj (here.symm.trans found)
        exact ⟨n,grown.found,large⟩
      · exact ⟨m,other q self ▸ found,large⟩
    obtain ⟨m',old,large'⟩ := parent
    by_cases self : c = p
    · subst self
      cases Option.some.inj (here.symm.trans child)
      by_cases blank : n.value = []
      · simpa [blank] using grown.keyed q m' table symbol old large' entry blank
      · obtain ⟨x,xs,equal⟩ := List.exists_cons_of_ne_nil blank
        have before := skeleton.keyed q m' table old large' symbol c n entry grown.found blank
        simpa [equal] using before
    · exact skeleton.keyed q m' table old large' symbol c k entry (other c self ▸ child) filled

theorem Shape.extend : Shape read' root index' pre (insertFrom (pre p++n.value) keys ids T) := by
  set done := pre p++n.value with doneDef
  have legal : Insertable T done keys ids := grown.legal
  have at_iff := grown.at_iff
  have unknown : ∀ b ∈ ids, ∀ path, b ∉ T path := fun b member path held =>
    (shape.unregistered b).mpr (grown.fresh b member) ⟨path,held⟩
  -- the new paths held nothing
  have vacant : ∀ i < keys.length, ∀ b, b ∉ T (done++keys.take (i+1)) := by
    intro i bound b held
    obtain ⟨q,j,located⟩ := shape.stored.covered _ b held
    refine grown.beyond shape _ (List.prefix_append _ _) ?_ ?_ located
    · intro equal
      have size := congrArg List.length equal
      simp only [List.length_append,List.length_take] at size
      omega
    · exact (List.prefix_append_right_inj done).mpr (List.take_prefix _ _)
  -- old positions keep their ids
  have kept : ∀ q j path, At read pre q j path → ∀ b, b ∈ insertFrom done keys ids T path ↔ b ∈ T path := by
    intro q j path located b
    rw [mem_insertFrom legal]
    refine ⟨?_,.inl⟩
    rintro (old | ⟨i,found,rfl⟩)
    · exact old
    · have bound := (List.getElem?_eq_some_iff.mp found).1
      obtain ⟨x,held⟩ := (shape.present_iff _).mpr ⟨q,j,located⟩
      exact absurd held (vacant i (legal.aligned ▸ bound) x)
  have slots : ∀ q m, read' q = some m → (q = p ∧ m = ⟨n.children,n.value++keys,n.payload++singles ids⟩) ∨
      (q ≠ p ∧ read q = some m) := by
    intro q m found
    rw [grown.heap] at found
    by_cases self : q = p
    · subst self
      rw [Function.update_self] at found
      exact .inl ⟨rfl,(Option.some.inj found).symm⟩
    · rw [Function.update_of_ne self] at found
      exact .inr ⟨self,found⟩
  have size := shape.stored.slots p n grown.found
  -- a slot is an old one or holds exactly one new id
  have places : ∀ q m (j : Nat) bids, read' q = some m → m.payload[j]? = some bids →
      (∃ k, read q = some k ∧ k.payload[j]? = some bids ∧ k.value.take (j+1) = m.value.take (j+1)) ∨
      ∃ i b, ids[i]? = some b ∧ bids = [b] ∧ pre q++m.value.take (j+1) = done++keys.take (i+1) := by
    intro q m j bids found slot
    rcases slots q m found with ⟨rfl,rfl⟩ | ⟨_,old⟩
    · by_cases inner : j < n.payload.length
      · rw [List.getElem?_append_left inner] at slot
        exact .inl ⟨n,grown.found,slot,by rw [List.take_append_of_le_length (by omega)]⟩
      · rw [List.getElem?_append_right (by omega)] at slot
        obtain ⟨b,held,rfl⟩ := singles_getElem? slot
        refine .inr ⟨_,b,held,rfl,?_⟩
        rw [List.take_append,List.take_of_length_le (by omega),doneDef,List.append_assoc,size]
        congr 3
        omega
    · exact .inl ⟨m,old,slot,rfl⟩
  have anchored : done = [] ∨ Present T done := by
    by_cases blank : n.value = []
    · rw [doneDef,blank,List.append_nil]
      rcases shape.skeleton.label_at grown.found grown.proper with top | ⟨q,m,_,_,located⟩
      · exact .inl top
      · exact .inr ((shape.present_iff _).mpr ⟨q,_,located⟩)
    · have end_ : Ends read root pre p done := ⟨n,grown.found,.inr blank,rfl⟩
      by_cases nothing : done = []
      · exact .inl nothing
      · obtain ⟨_,_,_,_,located⟩ := shape.skeleton.ends_at end_ nothing
        exact .inr ((shape.present_iff _).mpr ⟨p,_,located⟩)
  refine ⟨Skeleton.extend shape grown,⟨?_,?_,?_,?_,?_⟩,wellFormed_insertFrom shape.valid legal anchored⟩
  · intro q m found
    rcases slots q m found with ⟨rfl,rfl⟩ | ⟨_,old⟩
    · simp [size,legal.aligned]
    · exact shape.stored.slots q m old
  · intro q m j bids found slot
    rcases places q m j bids found slot with ⟨k,old,before,_⟩ | ⟨_,b,_,rfl,_⟩
    · exact shape.stored.filled q k j bids old before
    · exact ⟨by simp,by simp⟩
  · intro q m j bids found slot b
    rcases places q m j bids found slot with ⟨k,old,before,value⟩ | ⟨i,x,held,rfl,path⟩
    · have inside := (List.getElem?_eq_some_iff.mp before).1
      rw [← value,kept q j _ ⟨k,old,shape.stored.slots q k old ▸ inside,rfl⟩]
      exact shape.stored.ids q k j bids old before b
    · have bound := (List.getElem?_eq_some_iff.mp held).1
      rw [path,mem_insertFrom legal,List.mem_singleton]
      constructor
      · rintro rfl
        exact .inr ⟨i,held,rfl⟩
      · rintro (old | ⟨j',again,equal⟩)
        · exact absurd old (vacant i (legal.aligned ▸ bound) b)
        · have bound' := (List.getElem?_eq_some_iff.mp again).1
          have lengths := congrArg List.length (List.append_cancel_left equal)
          simp only [List.length_take] at lengths
          have aligned := legal.aligned
          obtain rfl : i = j' := by omega
          exact Option.some.inj (again.symm.trans held)
  · intro path b member
    rcases (mem_insertFrom legal b path).mp member with old | ⟨i,found,rfl⟩
    · obtain ⟨q,j,located⟩ := shape.stored.covered path b old
      exact ⟨q,j,(at_iff q j path).mpr (.inl located)⟩
    · have bound := (List.getElem?_eq_some_iff.mp found).1
      exact ⟨p,_,(at_iff p _ _).mpr (.inr ⟨i,legal.aligned ▸ bound,rfl,rfl,rfl⟩)⟩
  · intro b q
    rw [grown.ids]
    by_cases member : b ∈ ids
    · rw [if_pos member]
      obtain ⟨i,bound,rfl⟩ := List.mem_iff_getElem.mp member
      have held := List.getElem?_eq_getElem bound
      constructor
      · intro equal
        cases Option.some.inj equal
        exact ⟨_,_,(mem_insertFrom legal _ _).mpr (.inr ⟨i,held,rfl⟩),
          (at_iff p _ _).mpr (.inr ⟨i,legal.aligned ▸ bound,rfl,rfl,rfl⟩)⟩
      · rintro ⟨path,j,inside,located⟩
        rcases (mem_insertFrom legal _ path).mp inside with old | ⟨k,again,rfl⟩
        · exact absurd old (unknown _ member path)
        · rcases (at_iff q j _).mp located with old | ⟨_,_,rfl,_⟩
          · obtain ⟨x,there⟩ := (shape.present_iff _).mpr ⟨q,j,old⟩
            have limit := (List.getElem?_eq_some_iff.mp again).1
            exact absurd there (vacant k (legal.aligned ▸ limit) x)
          · rfl
    · rw [if_neg member,shape.stored.indexed]
      constructor
      · rintro ⟨path,j,old,located⟩
        exact ⟨path,j,(kept q j path located b).mpr old,(at_iff q j path).mpr (.inl located)⟩
      · rintro ⟨path,j,inside,located⟩
        rcases (mem_insertFrom legal _ path).mp inside with old | ⟨i,found,_⟩
        · rcases (at_iff q j path).mp located with before | ⟨i,bound,_,_,rfl⟩
          · exact ⟨path,j,old,before⟩
          · exact absurd old (vacant i bound b)
        · exact absurd (List.mem_of_getElem? found) member

end Extend

end BlitzRouter.Radix
