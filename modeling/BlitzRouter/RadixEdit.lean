import BlitzRouter.RadixShape

namespace BlitzRouter.Radix
open PrefixTrie

variable {read read' : Ptr → Option Node} {root : Ptr} {index index' : BlockId → Option Ptr}
  {pre pre' : Ptr → List Hash} {T : Trie Hash BlockId}

-- Each lemma is about one edit of the heap seen as a function from pointers to nodes.

def core (n : Node) : Children × List Hash := (n.children,n.value)

theorem core_some (same : (read' q).map core = (read q).map core) (found : read' q = some m) :
    ∃ n, read q = some n ∧ n.children = m.children ∧ n.value = m.value := by
  rw [found] at same
  cases h : read q with
  | none => rw [h] at same; cases same
  | some n =>
    rw [h] at same
    have equal := Option.some.inj same
    exact ⟨n,rfl,(congrArg Prod.fst equal).symm,(congrArg Prod.snd equal).symm⟩

-- Payloads carry no structure.
theorem Skeleton.congr (shape : Skeleton read root pre) (same : ∀ q, (read' q).map core = (read q).map core) :
    Skeleton read' root pre := by
  have back : ∀ {q m}, read' q = some m → ∃ n, read q = some n ∧ n.children = m.children ∧ n.value = m.value :=
    fun found => core_some (same _) found
  have forth : ∀ {q n}, read q = some n → ∃ m, read' q = some m ∧ m.children = n.children ∧ m.value = n.value :=
    fun found => core_some (same _).symm found
  refine ⟨?_,shape.rootPre,?_,?_,?_,?_,?_,?_⟩
  · obtain ⟨n,found,blank⟩ := shape.rootNode
    obtain ⟨m,again,_,value⟩ := forth found
    exact ⟨m,again,value.trans blank⟩
  · intro p m found proper blank
    obtain ⟨n,old,children,value⟩ := back found
    rw [← children]
    exact shape.bare p n old proper (value.trans blank)
  · intro p m found proper c
    obtain ⟨n,old,children,value⟩ := back found
    rw [← children,shape.edge p n old (by rw [value]; exact proper) c,value]
    constructor
    · rintro ⟨⟨k,live⟩,rest⟩
      obtain ⟨l,here,_⟩ := forth live
      exact ⟨⟨l,here⟩,rest⟩
    · rintro ⟨⟨k,live⟩,rest⟩
      obtain ⟨l,here,_⟩ := back live
      exact ⟨⟨l,here⟩,rest⟩
  · intro c k found proper
    obtain ⟨l,old,_⟩ := back found
    obtain ⟨p,n,parent,filled,label⟩ := shape.parent c l old proper
    obtain ⟨m,again,_,value⟩ := forth parent
    exact ⟨p,m,again,by rw [value]; exact filled,by rw [value]; exact label⟩
  · intro p m found
    obtain ⟨n,old,children,_⟩ := back found
    exact children ▸ shape.distinct p n old
  · intro c d k l one two left right label filled first
    obtain ⟨k',oldC,_,valueC⟩ := back one
    obtain ⟨l',oldD,_,valueD⟩ := back two
    exact shape.heads c d k' l' oldC oldD left right label (by rw [valueC]; exact filled)
      (by rw [valueC,valueD]; exact first)
  · intro p n m found large first c k entry live filled
    obtain ⟨n',old,children,_⟩ := back found
    obtain ⟨k',oldC,_,value⟩ := back live
    rw [← value] at filled ⊢
    exact shape.keyed p n' m old (children.trans large) first c k' entry oldC filled

theorem at_congr (same : ∀ q n, read q = some n → n.value ≠ [] →
    ∃ m, read' q = some m ∧ m.value = n.value ∧ pre' q = pre q)
    (located : At read pre p i path) : At read' pre' p i path := by
  obtain ⟨n,found,bound,rfl⟩ := located
  obtain ⟨m,again,value,label⟩ := same p n found (List.ne_nil_of_length_pos (by omega))
  exact ⟨m,again,by rw [value]; exact bound,by rw [value,label]⟩

-- The ids stay where they are when values, payloads and labels do.
theorem Stored.congr (stored : Stored read pre index T)
    (forth : ∀ q n, read q = some n → n.value ≠ [] → ∃ m, read' q = some m ∧ m.value = n.value ∧ pre' q = pre q)
    (back : ∀ q m, read' q = some m → (m.value = [] ∧ m.payload = []) ∨
      ∃ n, read q = some n ∧ n.value = m.value ∧ n.payload = m.payload ∧ pre' q = pre q) :
    Stored read' pre' index T := by
  have at_iff : ∀ p i path, At read' pre' p i path ↔ At read pre p i path := by
    intro p i path
    refine ⟨at_congr ?_,at_congr forth⟩
    intro q m found filled
    rcases back q m found with ⟨blank,_⟩ | ⟨n,old,value,_,label⟩
    · exact absurd blank filled
    · exact ⟨n,old,value,label.symm⟩
  refine ⟨?_,?_,?_,?_,?_⟩
  · intro p m found
    rcases back p m found with ⟨blank,none⟩ | ⟨n,old,value,payload,_⟩
    · rw [blank,none]; rfl
    · rw [← value,← payload]
      exact stored.slots p n old
  · intro p m i bids found slot
    rcases back p m found with ⟨_,none⟩ | ⟨n,old,_,payload,_⟩
    · rw [none] at slot; cases slot
    · exact stored.filled p n i bids old (payload ▸ slot)
  · intro p m i bids found slot
    rcases back p m found with ⟨_,none⟩ | ⟨n,old,value,payload,label⟩
    · rw [none] at slot; cases slot
    · rw [← value,label]
      exact stored.ids p n i bids old (payload ▸ slot)
  · intro path b member
    obtain ⟨p,i,located⟩ := stored.covered path b member
    exact ⟨p,i,(at_iff p i path).mpr located⟩
  · intro b p
    rw [stored.indexed]
    simp only [at_iff]

-- Empty placeholders are taken off the children of one node and freed.
structure Swept (read read' : Ptr → Option Node) (p : Ptr) (n : Node) (children : Children) : Prop where
  parent : read p = some n
  here : read' p = some {n with children}
  kept : ∀ c ∈ children.ptrs, c ∈ n.children.ptrs ∧ read' c = read c
  gone : ∀ c ∈ n.children.ptrs, c ∉ children.ptrs → read' c = none ∧ ∃ k, read c = some k ∧ k.value = []
  same : ∀ q, q ≠ p → q ∉ n.children.ptrs → read' q = read q
  distinct : children.ptrs.Nodup
  keyed : ∀ m, children = .large m → ∃ old, n.children = .large old ∧
    ∀ first c, m.lookup first = some c → old.lookup first = some c

theorem Swept.back (swept : Swept read read' p n children) (found : read' q = some m) :
    ∃ k, read q = some k ∧ k.value = m.value ∧ k.payload = m.payload ∧ (q ≠ p → k = m) := by
  by_cases self : q = p
  · subst self
    cases Option.some.inj (swept.here.symm.trans found)
    exact ⟨n,swept.parent,rfl,rfl,fun other => absurd rfl other⟩
  · by_cases member : q ∈ n.children.ptrs
    · by_cases stays : q ∈ children.ptrs
      · exact ⟨m,(swept.kept q stays).2 ▸ found,rfl,rfl,fun _ => rfl⟩
      · rw [(swept.gone q member stays).1] at found
        cases found
    · exact ⟨m,swept.same q self member ▸ found,rfl,rfl,fun _ => rfl⟩

theorem Swept.forth (swept : Swept read read' p n children) (found : read q = some k) (filled : q = p ∨ k.value ≠ []) :
    ∃ m, read' q = some m ∧ m.value = k.value := by
  by_cases self : q = p
  · subst self
    cases Option.some.inj (swept.parent.symm.trans found)
    exact ⟨_,swept.here,rfl⟩
  · by_cases member : q ∈ n.children.ptrs
    · by_cases stays : q ∈ children.ptrs
      · exact ⟨k,(swept.kept q stays).2.trans found,rfl⟩
      · obtain ⟨_,l,again,blank⟩ := swept.gone q member stays
        cases Option.some.inj (again.symm.trans found)
        exact absurd blank (filled.resolve_left self)
    · exact ⟨k,(swept.same q self member).trans found,rfl⟩

theorem Skeleton.sweep (shape : Skeleton read root pre) (swept : Swept read read' p n children) :
    Skeleton read' root pre := by
  have selfless : p ∉ n.children.ptrs := by
    intro loop
    obtain ⟨_,inner,label⟩ := shape.child_live swept.parent loop
    have blank : n.value = [] := by simpa using label
    rw [shape.bare p n swept.parent inner blank] at loop
    cases loop
  -- a child that is not swept away is live in both heaps
  have alive : ∀ c, c ∉ n.children.ptrs → ((∃ k, read' c = some k) ↔ ∃ k, read c = some k) := by
    intro c outside
    by_cases self : c = p
    · subst self
      exact ⟨fun _ => ⟨n,swept.parent⟩,fun _ => ⟨_,swept.here⟩⟩
    · rw [swept.same c self outside]
  have rootSame : ∀ m, read' root = some m → m.value = [] := by
    intro m found
    obtain ⟨r,old,blank⟩ := shape.rootNode
    obtain ⟨k,again,value,_⟩ := swept.back found
    cases Option.some.inj (old.symm.trans again)
    exact value.symm.trans blank
  refine ⟨?_,shape.rootPre,?_,?_,?_,?_,?_,?_⟩
  · obtain ⟨r,old,_⟩ := shape.rootNode
    have top : root = p ∨ root ∉ n.children.ptrs :=
      .inr fun member => (shape.child_live swept.parent member).2.1 rfl
    have live : ∃ m, read' root = some m := by
      rcases top with rfl | outside
      · exact ⟨_,swept.here⟩
      · exact (alive root outside).mpr ⟨r,old⟩
    obtain ⟨m,found⟩ := live
    exact ⟨m,found,rootSame m found⟩
  · intro q m found proper blank
    obtain ⟨k,old,value,_,whole⟩ := swept.back found
    have none := shape.bare q k old proper (value.trans blank)
    by_cases self : q = p
    · subst self
      cases Option.some.inj (swept.parent.symm.trans old)
      cases Option.some.inj (swept.here.symm.trans found)
      apply List.eq_nil_iff_forall_not_mem.mpr
      intro c member
      have earlier := (swept.kept c member).1
      rw [none] at earlier
      cases earlier
    · exact whole self ▸ none
  · intro q m found proper c
    obtain ⟨k,old,value,_,whole⟩ := swept.back found
    have edge := shape.edge q k old (by rw [value]; exact proper) c
    by_cases self : q = p
    · subst self
      cases Option.some.inj (swept.parent.symm.trans old)
      cases Option.some.inj (swept.here.symm.trans found)
      constructor
      · intro member
        obtain ⟨earlier,same⟩ := swept.kept c member
        obtain ⟨live,rest⟩ := edge.mp earlier
        exact ⟨same ▸ live,rest⟩
      · rintro ⟨⟨l,live⟩,rest⟩
        obtain ⟨j,before,_⟩ := swept.back live
        apply Classical.byContradiction
        intro dropped
        rw [(swept.gone c (edge.mpr ⟨⟨j,before⟩,rest⟩) dropped).1] at live
        cases live
    · rw [← whole self,edge]
      constructor
      · rintro ⟨live,inner,label⟩
        refine ⟨(alive c ?_).mpr live,inner,label⟩
        intro shared
        have mine := (shape.child_live swept.parent shared).2.2
        have atQ : Ends read root pre q (pre c) := ⟨k,old,by rw [value]; exact proper,label⟩
        have atP : Ends read root pre p (pre c) := by
          refine ⟨n,swept.parent,?_,mine⟩
          apply Classical.byContradiction
          intro neither
          push Not at neither
          rw [shape.bare p n swept.parent neither.1 neither.2] at shared
          cases shared
        exact self (shape.ends_unique atQ atP)
      · rintro ⟨⟨l,live⟩,rest⟩
        obtain ⟨j,before,_⟩ := swept.back live
        exact ⟨⟨j,before⟩,rest⟩
  · intro c k found proper
    obtain ⟨j,old,_⟩ := swept.back found
    obtain ⟨q,m,parent,filled,label⟩ := shape.parent c j old proper
    have survives : q = p ∨ m.value ≠ [] ∨ q = root := by
      rcases filled with top | filled
      · exact .inr (.inr top)
      · exact .inr (.inl filled)
    have here : ∃ m', read' q = some m' ∧ m'.value = m.value := by
      rcases survives with self | filled | rfl
      · exact swept.forth parent (.inl self)
      · exact swept.forth parent (.inr filled)
      · by_cases self : q = p
        · exact swept.forth parent (.inl self)
        · have outside : q ∉ n.children.ptrs := fun member => (shape.child_live swept.parent member).2.1 rfl
          exact ⟨m,(swept.same q self outside).trans parent,rfl⟩
    obtain ⟨m',again,value⟩ := here
    exact ⟨q,m',again,by rw [value]; exact filled,by rw [value]; exact label⟩
  · intro q m found
    by_cases self : q = p
    · subst self
      cases Option.some.inj (swept.here.symm.trans found)
      exact swept.distinct
    · obtain ⟨k,old,_,_,whole⟩ := swept.back found
      exact whole self ▸ shape.distinct q k old
  · intro c d k l one two left right label filled first
    obtain ⟨k',oldC,valueC,_⟩ := swept.back one
    obtain ⟨l',oldD,valueD,_⟩ := swept.back two
    exact shape.heads c d k' l' oldC oldD left right label (by rw [valueC]; exact filled)
      (by rw [valueC,valueD]; exact first)
  · intro q m table found large first c k entry live filled
    obtain ⟨k',oldC,valueC,_⟩ := swept.back live
    rw [← valueC] at filled ⊢
    by_cases self : q = p
    · subst self
      cases Option.some.inj (swept.here.symm.trans found)
      obtain ⟨old,large',sub⟩ := swept.keyed table large
      exact shape.keyed q n old swept.parent large' first c k' (sub first c entry) oldC filled
    · obtain ⟨m',old,_,_,whole⟩ := swept.back found
      obtain rfl := whole self
      exact shape.keyed q m' table old large first c k' entry oldC filled

theorem Shape.sweep (shape : Shape read root index pre T) (swept : Swept read read' p n children) :
    Shape read' root index pre T := by
  refine ⟨shape.skeleton.sweep swept,shape.stored.congr ?_ ?_,shape.valid⟩
  · intro q k found filled
    obtain ⟨m,here,value⟩ := swept.forth found (.inr filled)
    exact ⟨m,here,value,rfl⟩
  · intro q m found
    obtain ⟨k,old,value,payload,_⟩ := swept.back found
    exact .inr ⟨k,old,value,payload,rfl⟩

-- The ids of one position change and those of every other position stay.
theorem Shape.reslot (shape : Shape read root index pre T) (found : read p = some n) {i : Nat}
    (slot : n.payload[i]? = some bids) (valid : WellFormed T') (filled : bids' ≠ [] ∧ bids'.Nodup)
    (here : ∀ x, x ∈ bids' ↔ x ∈ T' (pre p++n.value.take (i+1)))
    (elsewhere : ∀ path, path ≠ pre p++n.value.take (i+1) → T' path = T path)
    (indexed : ∀ b q, index' b = some q ↔ ∃ path j, b ∈ T' path ∧ At read pre q j path) :
    Shape (Function.update read p (some {n with payload := n.payload.set i bids'})) root index' pre T' := by
  set path := pre p++n.value.take (i+1) with pathDef
  set read' := Function.update read p (some {n with payload := n.payload.set i bids'}) with readDef
  have bound : i < n.payload.length := (List.getElem?_eq_some_iff.mp slot).1
  have located : At read pre p i path := ⟨n,found,shape.stored.slots p n found ▸ bound,rfl⟩
  have same : ∀ q, (read' q).map core = (read q).map core := by
    intro q
    by_cases self : q = p
    · subst self; rw [readDef,Function.update_self,found]; rfl
    · rw [readDef,Function.update_of_ne self]
  have at_iff : ∀ q j other, At read' pre q j other ↔ At read pre q j other := by
    intro q j other
    constructor
    · exact at_congr fun q m again _ => by
        obtain ⟨k,old,_,value⟩ := core_some (same q) again
        exact ⟨k,old,value,rfl⟩
    · exact at_congr fun q m again _ => by
        obtain ⟨k,old,_,value⟩ := core_some (same q).symm again
        exact ⟨k,old,value,rfl⟩
  -- every slot but the one at `path` is as before
  have slots : ∀ q m (j : Nat) others, read' q = some m → m.payload[j]? = some others →
      (q = p ∧ j = i ∧ m.value = n.value ∧ others = bids') ∨
        ∃ k, read q = some k ∧ k.value = m.value ∧ k.payload[j]? = some others ∧ pre q++m.value.take (j+1) ≠ path := by
    intro q m j others again place
    have unique : ∀ k, read q = some k → k.payload[j]? = some others → pre q++k.value.take (j+1) = path → q = p ∧ j = i := by
      intro k old before equal
      have inside := (List.getElem?_eq_some_iff.mp before).1
      have spot : At read pre q j path := ⟨k,old,shape.stored.slots q k old ▸ inside,equal.symm⟩
      exact shape.skeleton.at_unique spot located
    by_cases self : q = p
    · subst self
      rw [readDef,Function.update_self] at again
      cases Option.some.inj again
      by_cases spot : j = i
      · subst spot
        rw [List.getElem?_set_self bound] at place
        exact .inl ⟨rfl,rfl,rfl,(Option.some.inj place).symm⟩
      · rw [List.getElem?_set_ne (Ne.symm spot)] at place
        exact .inr ⟨n,found,rfl,place,fun equal => spot (unique n found place equal).2⟩
    · rw [readDef,Function.update_of_ne self] at again
      exact .inr ⟨m,again,rfl,place,fun equal => self (unique m again place equal).1⟩
  refine ⟨shape.skeleton.congr same,⟨?_,?_,?_,?_,?_⟩,valid⟩
  · intro q m again
    by_cases self : q = p
    · subst self
      rw [readDef,Function.update_self] at again
      cases Option.some.inj again
      rw [List.length_set]
      exact shape.stored.slots q n found
    · rw [readDef,Function.update_of_ne self] at again
      exact shape.stored.slots q m again
  · intro q m j others again place
    rcases slots q m j others again place with ⟨rfl,rfl,_,rfl⟩ | ⟨k,old,_,before,_⟩
    · exact filled
    · exact shape.stored.filled q k j others old before
  · intro q m j others again place x
    rcases slots q m j others again place with ⟨rfl,rfl,value,rfl⟩ | ⟨k,old,value,before,apart⟩
    · rw [value]
      exact here x
    · rw [elsewhere _ apart,← value]
      exact shape.stored.ids q k j others old before x
  · intro other x member
    by_cases equal : other = path
    · exact ⟨p,i,(at_iff p i other).mpr (equal ▸ located)⟩
    · rw [elsewhere other equal] at member
      obtain ⟨q,j,spot⟩ := shape.stored.covered other x member
      exact ⟨q,j,(at_iff q j other).mpr spot⟩
  · intro x q
    rw [indexed]
    simp only [at_iff]

-- One more id at a position that exists.
theorem Shape.alias (shape : Shape read root index pre T) (found : read p = some n) {i : Nat}
    (slot : n.payload[i]? = some bids) (fresh : index b = none) :
    Shape (Function.update read p (some {n with payload := n.payload.set i (bids++[b])})) root
      (Function.update index b (some p)) pre (insertAt T (pre p++n.value.take (i+1)) b) := by
  have unknown : ¬Registered T b := (shape.unregistered b).mpr fresh
  have bound : i < n.payload.length := (List.getElem?_eq_some_iff.mp slot).1
  have located : At read pre p i (pre p++n.value.take (i+1)) := ⟨n,found,shape.stored.slots p n found ▸ bound,rfl⟩
  have old := shape.stored.ids p n i bids found slot
  refine shape.reslot found slot (wellFormed_insertAt shape.valid ((shape.present_iff _).mpr ⟨p,i,located⟩) b)
    ⟨by simp,?_⟩ ?_ ?_ ?_
  · refine List.nodup_append.mpr ⟨(shape.stored.filled p n i bids found slot).2,by simp,?_⟩
    rintro x member y last rfl
    obtain rfl := List.mem_singleton.mp last
    exact unknown ⟨_,(old x).mp member⟩
  · intro x
    rw [List.mem_append,List.mem_singleton,old x]
    constructor
    · rintro (member | rfl)
      · exact .inl member
      · exact .inr ⟨rfl,rfl,unknown⟩
    · rintro (member | ⟨_,rfl,_⟩)
      · exact .inl member
      · exact .inr rfl
  · intro path apart
    ext x
    exact ⟨fun held => held.resolve_right fun new => apart new.1,.inl⟩
  · intro x q
    by_cases self : x = b
    · subst self
      rw [Function.update_self]
      constructor
      · intro equal
        cases Option.some.inj equal
        exact ⟨_,i,.inr ⟨rfl,rfl,unknown⟩,located⟩
      · rintro ⟨path,j,member | ⟨rfl,_⟩,spot⟩
        · exact absurd ⟨path,member⟩ unknown
        · rw [(shape.skeleton.at_unique located spot).1]
    · rw [Function.update_of_ne self,shape.stored.indexed]
      constructor
      · rintro ⟨path,j,member,spot⟩
        exact ⟨path,j,.inl member,spot⟩
      · rintro ⟨path,j,member | ⟨_,equal,_⟩,spot⟩
        · exact ⟨path,j,member,spot⟩
        · exact absurd equal self

-- One id less at a position that keeps another.
theorem Shape.shed (shape : Shape read root index pre T) (found : read p = some n) {i : Nat}
    (slot : n.payload[i]? = some bids) (member : b ∈ bids) (more : bids.erase b ≠ []) :
    Shape (Function.update read p (some {n with payload := n.payload.set i (bids.erase b)})) root
      (Function.update index b none) pre (removeAt T b) := by
  have old := shape.stored.ids p n i bids found slot
  have nodup := (shape.stored.filled p n i bids found slot).2
  obtain ⟨other,stays⟩ := List.exists_mem_of_ne_nil _ more
  obtain ⟨differs,there⟩ := nodup.mem_erase_iff.mp stays
  have held := (old b).mp member
  have removed : ∀ x q, x ∈ removeAt T b q ↔ x ∈ T q ∧ x ≠ b :=
    mem_removeAt_shared shape.valid held ((old other).mp there) differs
  refine shape.reslot found slot (wellFormed_removeAt shape.valid b) ⟨more,nodup.erase b⟩ ?_ ?_ ?_
  · intro x
    rw [nodup.mem_erase_iff,removed,old x]
    exact and_comm
  · intro path apart
    ext x
    rw [removed]
    refine ⟨And.left,fun inside => ⟨inside,?_⟩⟩
    rintro rfl
    exact apart (shape.valid.single x path _ inside held)
  · intro x q
    simp only [removed]
    by_cases self : x = b
    · subst self
      rw [Function.update_self]
      constructor
      · intro equal; cases equal
      · rintro ⟨_,_,⟨_,apart⟩,_⟩
        exact absurd rfl apart
    · rw [Function.update_of_ne self,shape.stored.indexed]
      simp [self]

-- A blank child is hung below a node.
structure Hung (read read' : Ptr → Option Node) (root : Ptr) (p : Ptr) (n : Node) (children : Children) (c : Ptr) :
    Prop where
  parent : read p = some n
  proper : p = root ∨ n.value ≠ []
  unused : read c = none
  heap : read' = Function.update (Function.update read c (some ⟨.small [],[],[]⟩)) p (some {n with children})
  ptrs : ∀ d, d ∈ children.ptrs ↔ d ∈ n.children.ptrs ∨ d = c
  distinct : children.ptrs.Nodup
  keyed : ∀ m, children = .large m → ∀ first d k, m.lookup first = some d → read d = some k → k.value ≠ [] →
    k.value.head? = some first

theorem Hung.back (hung : Hung read read' root p n children c) (found : read' q = some m) :
    (q = c ∧ m = ⟨.small [],[],[]⟩) ∨ (q = p ∧ m = {n with children}) ∨ (q ≠ c ∧ q ≠ p ∧ read q = some m) := by
  rw [hung.heap] at found
  by_cases self : q = p
  · subst self
    rw [Function.update_self] at found
    exact .inr (.inl ⟨rfl,(Option.some.inj found).symm⟩)
  · rw [Function.update_of_ne self] at found
    by_cases new : q = c
    · subst new
      rw [Function.update_self] at found
      exact .inl ⟨rfl,(Option.some.inj found).symm⟩
    · rw [Function.update_of_ne new] at found
      exact .inr (.inr ⟨new,self,found⟩)

theorem Hung.forth (hung : Hung read read' root p n children c) (found : read q = some m) :
    q ≠ c ∧ ∃ k, read' q = some k ∧ k.value = m.value ∧ k.payload = m.payload ∧ (q ≠ p → k = m) := by
  have apart : q ≠ c := by
    rintro rfl
    rw [hung.unused] at found
    cases found
  refine ⟨apart,?_⟩
  rw [hung.heap]
  by_cases self : q = p
  · subst self
    cases Option.some.inj (hung.parent.symm.trans found)
    exact ⟨_,Function.update_self ..,rfl,rfl,fun other => absurd rfl other⟩
  · exact ⟨m,by rw [Function.update_of_ne self,Function.update_of_ne apart,found],rfl,rfl,fun _ => rfl⟩

theorem Skeleton.hang (shape : Skeleton read root pre) (hung : Hung read read' root p n children c) :
    Skeleton read' root (Function.update pre c (pre p++n.value)) := by
  set pre' := Function.update pre c (pre p++n.value) with preDef
  have label : ∀ q, q ≠ c → pre' q = pre q := fun q other => Function.update_of_ne other _ _
  have fresh : pre' c = pre p++n.value := Function.update_self ..
  obtain ⟨r,top,blank⟩ := shape.rootNode
  have rootC : root ≠ c := (hung.forth top).1
  have pC : p ≠ c := (hung.forth hung.parent).1
  have live : ∀ d, d ≠ c → ((∃ k, read' d = some k) ↔ ∃ k, read d = some k) := by
    intro d other
    constructor
    · rintro ⟨k,found⟩
      rcases hung.back found with ⟨rfl,_⟩ | ⟨rfl,_⟩ | ⟨_,_,old⟩
      · exact absurd rfl other
      · exact ⟨n,hung.parent⟩
      · exact ⟨k,old⟩
    · rintro ⟨k,found⟩
      obtain ⟨_,l,here,_⟩ := hung.forth found
      exact ⟨l,here⟩
  have newLive : ∃ k, read' c = some k :=
    ⟨_,by rw [hung.heap,Function.update_of_ne (Ne.symm pC),Function.update_self]⟩
  -- the old node at a live address other than `c`
  have values : ∀ d k, read' d = some k → d ≠ c → ∃ l, read d = some l ∧ l.value = k.value := by
    intro d k found other
    rcases hung.back found with ⟨rfl,_⟩ | ⟨rfl,rfl⟩ | ⟨_,_,old⟩
    · exact absurd rfl other
    · exact ⟨n,hung.parent,rfl⟩
    · exact ⟨k,old,rfl⟩
  refine ⟨?_,(label root rootC).trans shape.rootPre,?_,?_,?_,?_,?_,?_⟩
  · obtain ⟨_,m,here,value,_⟩ := hung.forth top
    exact ⟨m,here,value.trans blank⟩
  · intro q m found proper none
    rcases hung.back found with ⟨_,rfl⟩ | ⟨rfl,rfl⟩ | ⟨_,_,old⟩
    · rfl
    · exact absurd none (hung.proper.resolve_left proper)
    · exact shape.bare q m old proper none
  · intro q m found proper d
    rcases hung.back found with ⟨rfl,rfl⟩ | ⟨rfl,rfl⟩ | ⟨newQ,otherQ,old⟩
    · rcases proper with top | filled
      · exact absurd top (Ne.symm rootC)
      · exact absurd rfl filled
    · rw [label q pC,hung.ptrs]
      by_cases new : d = c
      · subst new
        exact ⟨fun _ => ⟨newLive,Ne.symm rootC,fresh⟩,fun _ => .inr rfl⟩
      · rw [live d new,label d new,← shape.edge q n hung.parent hung.proper d]
        simp [new]
    · rw [label q newQ]
      by_cases new : d = c
      · subst new
        rw [fresh]
        constructor
        · intro member
          obtain ⟨⟨k,here⟩,_⟩ := shape.child_live old member
          exact absurd rfl (hung.forth here).1
        · rintro ⟨_,_,equal⟩
          have atQ : Ends read root pre q (pre p++n.value) := ⟨m,old,proper,equal⟩
          exact absurd (shape.ends_unique atQ ⟨n,hung.parent,hung.proper,rfl⟩) otherQ
      · rw [live d new,label d new]
        exact shape.edge q m old proper d
  · intro d k found proper
    by_cases new : d = c
    · subst new
      obtain ⟨_,m,here,value,_⟩ := hung.forth hung.parent
      exact ⟨p,m,here,by rw [value]; exact hung.proper,by rw [value,fresh,label p pC]⟩
    · obtain ⟨l,old,_⟩ := values d k found new
      obtain ⟨q,m,parent,filled,equal⟩ := shape.parent d l old proper
      obtain ⟨otherQ,m',here,value,_⟩ := hung.forth parent
      exact ⟨q,m',here,by rw [value]; exact filled,by rw [value,label d new,label q otherQ]; exact equal⟩
  · intro q m found
    rcases hung.back found with ⟨_,rfl⟩ | ⟨rfl,rfl⟩ | ⟨_,_,old⟩
    · exact List.nodup_nil
    · exact hung.distinct
    · exact shape.distinct q m old
  · intro d e k l one two left right equal filled first
    have apart : ∀ a m, read' a = some m → m.value ≠ [] → a ≠ c := by
      rintro a m found filled rfl
      rcases hung.back found with ⟨_,rfl⟩ | ⟨same,_⟩ | ⟨other,_⟩
      · exact filled rfl
      · exact pC same.symm
      · exact other rfl
    have filledE : l.value ≠ [] := by
      intro none
      rw [none] at first
      exact filled (List.head?_eq_none_iff.mp first)
    have newD := apart d k one filled
    have newE := apart e l two filledE
    obtain ⟨k',oldD,valueD⟩ := values d k one newD
    obtain ⟨l',oldE,valueE⟩ := values e l two newE
    rw [label d newD,label e newE] at equal
    exact shape.heads d e k' l' oldD oldE left right equal (by rw [valueD]; exact filled)
      (by rw [valueD,valueE]; exact first)
  · intro q m table found large first d k entry here filled
    have newD : d ≠ c := by
      rintro rfl
      rcases hung.back here with ⟨_,rfl⟩ | ⟨same,_⟩ | ⟨other,_⟩
      · exact filled rfl
      · exact pC same.symm
      · exact other rfl
    obtain ⟨k',old,value⟩ := values d k here newD
    rw [← value] at filled ⊢
    rcases hung.back found with ⟨_,rfl⟩ | ⟨rfl,rfl⟩ | ⟨_,_,oldQ⟩
    · cases large
    · exact hung.keyed table large first d k' entry old filled
    · exact shape.keyed q m table oldQ large first d k' entry old filled

theorem Shape.hang (shape : Shape read root index pre T) (hung : Hung read read' root p n children c) :
    Shape read' root index (Function.update pre c (pre p++n.value)) T := by
  refine ⟨shape.skeleton.hang hung,shape.stored.congr ?_ ?_,shape.valid⟩
  · intro q m found _
    obtain ⟨other,k,here,value,_⟩ := hung.forth found
    exact ⟨k,here,value,Function.update_of_ne other _ _⟩
  · intro q m found
    rcases hung.back found with ⟨_,rfl⟩ | ⟨rfl,rfl⟩ | ⟨other,_,old⟩
    · exact .inl ⟨rfl,rfl⟩
    · exact .inr ⟨n,hung.parent,rfl,rfl,Function.update_of_ne (hung.forth hung.parent).1 _ _⟩
    · exact .inr ⟨m,old,rfl,rfl,Function.update_of_ne other _ _⟩

end BlitzRouter.Radix
