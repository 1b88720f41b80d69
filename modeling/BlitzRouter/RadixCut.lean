import BlitzRouter.RadixEdit

namespace BlitzRouter.Radix
open PrefixTrie

variable {read read' : Ptr → Option Node} {root : Ptr} {index index' : BlockId → Option Ptr}
  {pre pre' : Ptr → List Hash} {T : Trie Hash BlockId}

-- Everything hanging past the end of a node.
def Below (root : Ptr) (pre : Ptr → List Hash) (path : List Hash) (q : Ptr) : Prop := q ≠ root ∧ path <+: pre q

-- A node is cut at `pos` and what hangs below it is freed.
structure CutAt (read read' : Ptr → Option Node) (root : Ptr) (index index' : BlockId → Option Ptr)
    (pre : Ptr → List Hash) (T : Trie Hash BlockId) (p : Ptr) (n : Node) (pos : Nat) (children : Children) :
    Prop where
  found : read p = some n
  bound : pos < n.value.length
  none : children.ptrs = []
  here : read' p = some ⟨children,n.value.take pos,n.payload.take pos⟩
  freed : ∀ q, q ≠ p → Below root pre (pre p++n.value) q → read' q = Option.none
  same : ∀ q, q ≠ p → ¬Below root pre (pre p++n.value) q → read' q = read q
  dropped : ∀ b path, b ∈ T path → pre p++n.value.take (pos+1) <+: path → index' b = Option.none
  kept : ∀ b, (∀ path, b ∈ T path → ¬pre p++n.value.take (pos+1) <+: path) → index' b = index b

section Cut
variable {p : Ptr} {n : Node} {pos : Nat} {children : Children}

theorem CutAt.back (cut : CutAt read read' root index index' pre T p n pos children) (found : read' q = some m) :
    (q = p ∧ m = ⟨children,n.value.take pos,n.payload.take pos⟩) ∨
      (q ≠ p ∧ ¬Below root pre (pre p++n.value) q ∧ read q = some m) := by
  by_cases self : q = p
  · subst self
    exact .inl ⟨rfl,(Option.some.inj (cut.here.symm.trans found)).symm⟩
  · by_cases below : Below root pre (pre p++n.value) q
    · rw [cut.freed q self below] at found
      cases found
    · exact .inr ⟨self,below,cut.same q self below ▸ found⟩

theorem Skeleton.cut (shape : Skeleton read root pre) (cut : CutAt read read' root index index' pre T p n pos children) :
    Skeleton read' root pre := by
  have bound := cut.bound
  have filled : n.value ≠ [] := List.ne_nil_of_length_pos (by omega)
  have inner : p ≠ root := shape.ne_root cut.found filled
  have end_ : Ends read root pre p (pre p++n.value) := ⟨n,cut.found,.inr filled,rfl⟩
  have size : (pre p).length < (pre p++n.value).length := by
    rw [List.length_append]; omega
  have whole : ∀ {path}, pre p++n.value <+: path → path ≠ [] := by
    rintro path longer rfl
    have le := longer.length_le
    rw [List.length_nil] at le
    omega
  have stays : ∀ q m, q ≠ p → read q = some m → ¬Below root pre (pre p++n.value) q → read' q = some m :=
    fun q m self found outside => (cut.same q self outside).trans found
  have old : ∀ q m, read' q = some m → ∃ k, read q = some k := by
    intro q m found
    rcases cut.back found with ⟨rfl,_⟩ | ⟨_,_,before⟩
    · exact ⟨n,cut.found⟩
    · exact ⟨m,before⟩
  -- a node above something that hangs below the cut is the cut node or hangs there itself
  have above : ∀ q path, Ends read root pre q path → pre p++n.value <+: path → q = p ∨ Below root pre (pre p++n.value) q := by
    intro q path top longer
    obtain ⟨m,found,filled',_,located⟩ := shape.ends_at top (whole longer)
    have full : pre p++n.value ≠ [] := by simp [filled]
    obtain ⟨k,again,_,_,here⟩ := shape.ends_at end_ full
    cases Option.some.inj (cut.found.symm.trans again)
    rcases shape.prefix_at here cut.found located longer with same | deeper
    · exact .inl same.symm
    · exact .inr ⟨shape.ne_root found filled',deeper⟩
  have values : ∀ d k, read' d = some k → k.value ≠ [] → ∃ l, read d = some l ∧ l.value.head? = k.value.head? := by
    intro d k found nonempty
    rcases cut.back found with ⟨rfl,rfl⟩ | ⟨_,_,before⟩
    · refine ⟨n,cut.found,?_⟩
      have positive : pos ≠ 0 := by
        rintro rfl
        exact nonempty (by simp)
      simp only [List.head?_take,positive,if_false]
    · exact ⟨k,before,rfl⟩
  have filled_iff : ∀ {l k : List Hash}, l.head? = k.head? → k ≠ [] → l ≠ [] := by
    intro l k same filled none
    rw [none] at same
    exact filled (List.head?_eq_none_iff.mp same.symm)
  refine ⟨?_,shape.rootPre,?_,?_,?_,?_,?_,?_⟩
  · obtain ⟨r,found,blank⟩ := shape.rootNode
    exact ⟨r,stays root r (Ne.symm inner) found (fun below => below.1 rfl),blank⟩
  · intro q m found proper blank
    rcases cut.back found with ⟨rfl,rfl⟩ | ⟨_,_,before⟩
    · exact cut.none
    · exact shape.bare q m before proper blank
  · intro q m found proper c
    rcases cut.back found with ⟨rfl,rfl⟩ | ⟨self,outside,before⟩
    · simp only [cut.none,List.not_mem_nil,false_iff]
      rintro ⟨⟨k,live⟩,proper',label⟩
      obtain ⟨l,before⟩ := old c k live
      have positive : 0 < pos := by
        apply Nat.pos_of_ne_zero
        rintro rfl
        exact (proper.resolve_left inner) (by simp)
      exact shape.label_not_inside cut.found positive cut.bound before proper' label
    · rw [shape.edge q m before proper c]
      constructor
      · rintro ⟨⟨k,live⟩,proper',label⟩
        refine ⟨?_,proper',label⟩
        by_cases self' : c = p
        · subst self'
          exact ⟨_,cut.here⟩
        · refine ⟨k,stays c k self' live ?_⟩
          rintro ⟨_,longer⟩
          rcases above q (pre c) ⟨m,before,proper,label⟩ longer with same | below
          · exact self same
          · exact outside below
      · rintro ⟨⟨k,live⟩,rest⟩
        exact ⟨old c k live,rest⟩
  · intro c k found proper
    obtain ⟨l,before⟩ := old c k found
    obtain ⟨q,m,parent,filled',label⟩ := shape.parent c l before proper
    have survives : q ≠ p ∧ ¬Below root pre (pre p++n.value) q := by
      rcases cut.back found with ⟨rfl,_⟩ | ⟨self,outside,_⟩
      · constructor
        · rintro rfl
          have len := congrArg List.length label
          cases Option.some.inj (cut.found.symm.trans parent)
          rw [List.length_append] at len
          omega
        · rintro ⟨_,longer⟩
          have le := (longer.trans (label ▸ List.prefix_append _ _)).length_le
          omega
      · constructor
        · rintro rfl
          cases Option.some.inj (cut.found.symm.trans parent)
          exact outside ⟨proper,label ▸ List.prefix_refl _⟩
        · rintro ⟨_,longer⟩
          exact outside ⟨proper,longer.trans (label ▸ List.prefix_append _ _)⟩
    exact ⟨q,m,stays q m survives.1 parent survives.2,filled',label⟩
  · intro q m found
    rcases cut.back found with ⟨rfl,rfl⟩ | ⟨_,_,before⟩
    · rw [cut.none]; exact List.nodup_nil
    · exact shape.distinct q m before
  · intro c d k l one two left right label nonempty first
    have other : l.value ≠ [] := filled_iff first.symm nonempty
    obtain ⟨k',oldC,headC⟩ := values c k one nonempty
    obtain ⟨l',oldD,headD⟩ := values d l two other
    exact shape.heads c d k' l' oldC oldD left right label (filled_iff headC nonempty)
      (headC.trans (first.trans headD.symm))
  · intro q m table found large first c k entry live nonempty
    obtain ⟨k',oldC,head⟩ := values c k live nonempty
    rcases cut.back found with ⟨rfl,rfl⟩ | ⟨_,_,before⟩
    · obtain rfl : children = .large table := large
      have member := mem_large_ptrs.mpr ⟨first,entry⟩
      rw [cut.none] at member
      cases member
    · rw [← head]
      exact shape.keyed q m table before large first c k' entry oldC (filled_iff head nonempty)

theorem CutAt.at_iff (shape : Skeleton read root pre) (cut : CutAt read read' root index index' pre T p n pos children)
    (q : Ptr) (i : Nat) (path : List Hash) :
    At read' pre q i path ↔ At read pre q i path ∧ ¬pre p++n.value.take (pos+1) <+: path := by
  have bound := cut.bound
  have here : At read pre p pos (pre p++n.value.take (pos+1)) := ⟨n,cut.found,bound,rfl⟩
  constructor
  · rintro ⟨m,found,inside,rfl⟩
    rcases cut.back found with ⟨rfl,rfl⟩ | ⟨self,outside,before⟩
    · rw [List.length_take] at inside
      have low : i < pos := by omega
      rw [List.take_take,Nat.min_eq_left (by omega)]
      refine ⟨⟨n,cut.found,by omega,rfl⟩,fun longer => ?_⟩
      have le := longer.length_le
      simp only [List.length_append,List.length_take] at le
      omega
    · refine ⟨⟨m,before,inside,rfl⟩,fun longer => ?_⟩
      rcases shape.prefix_at here cut.found ⟨m,before,inside,rfl⟩ longer with same | deeper
      · exact self same.symm
      · exact outside ⟨shape.ne_root before (List.ne_nil_of_length_pos (by omega)),deeper⟩
  · rintro ⟨⟨m,found,inside,rfl⟩,outside⟩
    by_cases self : q = p
    · subst self
      cases Option.some.inj (cut.found.symm.trans found)
      have low : i < pos := by
        apply Classical.byContradiction
        intro high
        exact outside ((List.prefix_append_right_inj _).mpr (List.take_prefix_take_left (by omega)))
      refine ⟨_,cut.here,?_,?_⟩
      · rw [List.length_take]; omega
      · rw [List.take_take,Nat.min_eq_left (by omega)]
    · refine ⟨m,(cut.same q self ?_).trans found,inside,rfl⟩
      rintro ⟨_,deeper⟩
      apply outside
      exact (((List.prefix_append_right_inj _).mpr (List.take_prefix _ _)).trans deeper).trans (List.prefix_append _ _)

theorem Shape.cut (shape : Shape read root index pre T)
    (cut : CutAt read read' root index index' pre T p n pos children)
    (only : T (pre p++n.value.take (pos+1)) = {b}) : Shape read' root index' pre (removeAt T b) := by
  have at_iff := cut.at_iff shape.skeleton
  set path := pre p++n.value.take (pos+1) with pathDef
  have removed : ∀ x q, x ∈ removeAt T b q ↔ x ∈ T q ∧ ¬path <+: q := mem_removeAt_last shape.valid only
  have slots : ∀ q m (i : Nat) bids, read' q = some m → m.payload[i]? = some bids →
      ∃ k, read q = some k ∧ k.payload[i]? = some bids ∧ k.value.take (i+1) = m.value.take (i+1) ∧
        (k.payload.length = k.value.length → At read' pre q i (pre q++m.value.take (i+1))) := by
    intro q m i bids found slot
    have inside := (List.getElem?_eq_some_iff.mp slot).1
    rcases cut.back found with ⟨rfl,rfl⟩ | ⟨_,_,before⟩
    · have low : i < pos := by rw [List.length_take] at inside; omega
      rw [List.getElem?_take,if_pos low] at slot
      refine ⟨n,cut.found,slot,by rw [List.take_take,Nat.min_eq_left (by omega)],fun _ => ?_⟩
      exact ⟨_,found,by rw [List.length_take]; have := cut.bound; omega,rfl⟩
    · exact ⟨m,before,slot,rfl,fun equal => ⟨m,found,equal ▸ inside,rfl⟩⟩
  refine ⟨shape.skeleton.cut cut,⟨?_,?_,?_,?_,?_⟩,wellFormed_removeAt shape.valid b⟩
  · intro q m found
    rcases cut.back found with ⟨rfl,rfl⟩ | ⟨_,_,before⟩
    · simp [shape.stored.slots q n cut.found]
    · exact shape.stored.slots q m before
  · intro q m i bids found slot
    obtain ⟨k,old,before,_⟩ := slots q m i bids found slot
    exact shape.stored.filled q k i bids old before
  · intro q m i bids found slot x
    obtain ⟨k,old,before,value,located⟩ := slots q m i bids found slot
    have outside := ((at_iff q i _).mp (located (shape.stored.slots q k old))).2
    rw [shape.stored.ids q k i bids old before x,removed,value]
    simp [outside]
  · intro other x member
    obtain ⟨held,outside⟩ := (removed x other).mp member
    obtain ⟨q,i,located⟩ := shape.stored.covered other x held
    exact ⟨q,i,(at_iff q i other).mpr ⟨located,outside⟩⟩
  · intro x q
    by_cases gone : ∃ other, x ∈ T other ∧ path <+: other
    · obtain ⟨other,held,longer⟩ := gone
      rw [cut.dropped x other held longer]
      constructor
      · intro equal; cases equal
      · rintro ⟨again,i,member,_⟩
        obtain ⟨held',outside⟩ := (removed x again).mp member
        exact absurd (shape.valid.single x other again held held' ▸ longer) outside
    · have stays : ∀ other, x ∈ T other → ¬path <+: other := fun other held longer => gone ⟨other,held,longer⟩
      rw [cut.kept x stays,shape.stored.indexed]
      constructor
      · rintro ⟨other,i,held,located⟩
        exact ⟨other,i,(removed x other).mpr ⟨held,stays other held⟩,(at_iff q i other).mpr ⟨located,stays other held⟩⟩
      · rintro ⟨other,i,member,located⟩
        exact ⟨other,i,((removed x other).mp member).1,((at_iff q i other).mp located).1⟩

end Cut

end BlitzRouter.Radix
