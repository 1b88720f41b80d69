import BlitzRouter.RadixGrow

namespace BlitzRouter.Radix
open PrefixTrie

variable {read read' : Ptr → Option Node} {root : Ptr} {index index' : BlockId → Option Ptr}
  {pre pre' : Ptr → List Hash} {T : Trie Hash BlockId}

-- A node keeps its first `common` hashes; the rest moves to a new only child with its children.
structure SplitAt (read read' : Ptr → Option Node) (index index' : BlockId → Option Ptr)
    (p : Ptr) (n : Node) (common : Nat) (s : Ptr) : Prop where
  found : read p = some n
  unused : read s = none
  lower : 0 < common
  upper : common < n.value.length
  heap : read' = Function.update
    (Function.update read s (some ⟨n.children,n.value.drop common,n.payload.drop common⟩))
    p (some ⟨.small [s],n.value.take common,n.payload.take common⟩)
  ids : ∀ b, index' b = if index b = some p ∧ b ∈ (n.payload.drop common).flatten then some s else index b

section Split
variable {p s : Ptr} {n : Node} {common : Nat}

theorem SplitAt.apart (cut : SplitAt read read' index index' p n common s) (found : read q = some m) : q ≠ s := by
  rintro rfl
  rw [cut.unused] at found
  cases found

theorem SplitAt.back (cut : SplitAt read read' index index' p n common s) (found : read' q = some m) :
    (q = s ∧ m = ⟨n.children,n.value.drop common,n.payload.drop common⟩) ∨
      (q = p ∧ m = ⟨.small [s],n.value.take common,n.payload.take common⟩) ∨
      (q ≠ s ∧ q ≠ p ∧ read q = some m) := by
  rw [cut.heap] at found
  by_cases self : q = p
  · subst self
    rw [Function.update_self] at found
    exact .inr (.inl ⟨rfl,(Option.some.inj found).symm⟩)
  · rw [Function.update_of_ne self] at found
    by_cases new : q = s
    · subst new
      rw [Function.update_self] at found
      exact .inl ⟨rfl,(Option.some.inj found).symm⟩
    · rw [Function.update_of_ne new] at found
      exact .inr (.inr ⟨new,self,found⟩)

theorem SplitAt.top (cut : SplitAt read read' index index' p n common s) :
    read' p = some ⟨.small [s],n.value.take common,n.payload.take common⟩ := by
  rw [cut.heap,Function.update_self]

theorem SplitAt.bottom (cut : SplitAt read read' index index' p n common s) :
    read' s = some ⟨n.children,n.value.drop common,n.payload.drop common⟩ := by
  rw [cut.heap,Function.update_of_ne (Ne.symm (cut.apart cut.found)),Function.update_self]

theorem SplitAt.other (cut : SplitAt read read' index index' p n common s) (new : q ≠ s) (self : q ≠ p) :
    read' q = read q := by
  rw [cut.heap,Function.update_of_ne self,Function.update_of_ne new]

theorem Skeleton.split (shape : Skeleton read root pre) (cut : SplitAt read read' index index' p n common s) :
    Skeleton read' root (Function.update pre s (pre p++n.value.take common)) := by
  have lower := cut.lower
  have upper := cut.upper
  set pre' := Function.update pre s (pre p++n.value.take common) with preDef
  have label : ∀ q, q ≠ s → pre' q = pre q := fun q other => Function.update_of_ne other _ _
  have fresh : pre' s = pre p++n.value.take common := Function.update_self ..
  have inner : p ≠ root := shape.ne_root cut.found (List.ne_nil_of_length_pos (by omega))
  have pS := cut.apart cut.found
  obtain ⟨r,rootRead,blank⟩ := shape.rootNode
  have rootS := cut.apart rootRead
  have whole : pre p++n.value = pre' s++n.value.drop common := by
    rw [fresh,List.append_assoc,List.take_append_drop]
  have live : ∀ d, d ≠ s → ((∃ k, read' d = some k) ↔ ∃ k, read d = some k) := by
    intro d new
    by_cases self : d = p
    · subst self
      exact ⟨fun _ => ⟨n,cut.found⟩,fun _ => ⟨_,cut.top⟩⟩
    · rw [cut.other new self]
  have filledTop : n.value.take common ≠ [] := List.ne_nil_of_length_pos (by rw [List.length_take]; omega)
  have filledP : n.value ≠ [] := List.ne_nil_of_length_pos (by omega)
  -- old nodes keep their first hash
  have heads : ∀ d k, d ≠ s → read' d = some k → ∃ l, read d = some l ∧ l.value.head? = k.value.head? := by
    intro d k new found
    rcases cut.back found with ⟨rfl,_⟩ | ⟨rfl,rfl⟩ | ⟨_,_,old⟩
    · exact absurd rfl new
    · refine ⟨n,cut.found,?_⟩
      simp only [List.head?_take,Nat.ne_of_gt lower,if_false]
    · exact ⟨k,old,rfl⟩
  have filled_iff : ∀ {l k : List Hash}, l.head? = k.head? → k ≠ [] → l ≠ [] := by
    intro l k same filled none
    rw [none] at same
    exact filled (List.head?_eq_none_iff.mp same.symm)
  refine ⟨⟨r,(cut.other rootS (Ne.symm inner)).trans rootRead,blank⟩,(label root rootS).trans shape.rootPre,
    ?_,?_,?_,?_,?_,?_⟩
  · intro q m found proper none
    rcases cut.back found with ⟨rfl,rfl⟩ | ⟨rfl,rfl⟩ | ⟨_,_,old⟩
    · have size := congrArg List.length none
      simp only [List.length_drop,List.length_nil] at size
      omega
    · exact absurd none filledTop
    · exact shape.bare q m old proper none
  · intro q m found proper d
    rcases cut.back found with ⟨rfl,rfl⟩ | ⟨rfl,rfl⟩ | ⟨newQ,otherQ,old⟩
    · rw [shape.edge p n cut.found (.inr filledP) d,whole]
      by_cases new : d = q
      · subst new
        constructor
        · rintro ⟨⟨k,here⟩,_⟩
          exact absurd rfl (cut.apart here)
        · rintro ⟨_,_,equal⟩
          have size := congrArg List.length equal
          simp only [List.length_append,List.length_drop] at size
          omega
      · rw [live d new,label d new]
    · rw [label q pS,ptrs_small,List.mem_singleton]
      constructor
      · rintro rfl
        exact ⟨⟨_,cut.bottom⟩,Ne.symm rootS,fresh⟩
      · rintro ⟨here,proper',equal⟩
        apply Classical.byContradiction
        intro new
        obtain ⟨k,old⟩ := (live d new).mp here
        rw [label d new] at equal
        exact shape.label_not_inside cut.found lower upper old proper' equal
    · rw [label q newQ]
      by_cases new : d = s
      · subst new
        rw [fresh]
        constructor
        · intro member
          obtain ⟨⟨k,here⟩,_⟩ := shape.child_live old member
          exact absurd rfl (cut.apart here)
        · rintro ⟨_,_,equal⟩
          have here : At read pre p (common-1) (pre p++n.value.take common) :=
            ⟨n,cut.found,by omega,by rw [Nat.sub_add_cancel lower]⟩
          have end_ : Ends read root pre q (pre p++n.value.take common) := ⟨m,old,proper,equal⟩
          obtain ⟨_,_,_,_,located⟩ := shape.ends_at end_ here.ne_nil
          exact absurd (shape.at_unique located here).1 otherQ
      · rw [live d new,label d new]
        exact shape.edge q m old proper d
  · intro d k found proper
    by_cases new : d = s
    · subst new
      exact ⟨p,_,cut.top,.inr filledTop,by rw [fresh,label p pS]⟩
    · obtain ⟨l,old⟩ := (live d new).mp ⟨k,found⟩
      obtain ⟨q,m,parent,filled,equal⟩ := shape.parent d l old proper
      rw [label d new]
      by_cases self : q = p
      · subst self
        cases Option.some.inj (cut.found.symm.trans parent)
        refine ⟨s,_,cut.bottom,.inr ?_,equal.trans whole⟩
        exact List.ne_nil_of_length_pos (by rw [List.length_drop]; omega)
      · have apart := cut.apart parent
        exact ⟨q,m,(cut.other apart self).trans parent,filled,by rw [label q apart]; exact equal⟩
  · intro q m found
    rcases cut.back found with ⟨rfl,rfl⟩ | ⟨rfl,rfl⟩ | ⟨_,_,old⟩
    · exact shape.distinct p n cut.found
    · exact List.nodup_singleton s
    · exact shape.distinct q m old
  · intro d e k l one two left right equal filled first
    by_cases newD : d = s <;> by_cases newE : e = s
    · rw [newD,newE]
    · subst newD
      obtain ⟨l',old,_⟩ := heads e l newE two
      rw [fresh,label e newE] at equal
      exact absurd equal.symm (shape.label_not_inside cut.found lower upper old right)
    · subst newE
      obtain ⟨k',old,_⟩ := heads d k newD one
      rw [fresh,label d newD] at equal
      exact absurd equal (shape.label_not_inside cut.found lower upper old left)
    · obtain ⟨k',oldD,headD⟩ := heads d k newD one
      obtain ⟨l',oldE,headE⟩ := heads e l newE two
      rw [label d newD,label e newE] at equal
      exact shape.heads d e k' l' oldD oldE left right equal (filled_iff headD filled)
        (headD.trans (first.trans headE.symm))
  · intro q m table found large first c k entry here filled
    have parent : ∃ a m', read a = some m' ∧ m'.children = .large table := by
      rcases cut.back found with ⟨_,rfl⟩ | ⟨_,rfl⟩ | ⟨_,_,old⟩
      · exact ⟨p,n,cut.found,large⟩
      · cases large
      · exact ⟨q,m,old,large⟩
    obtain ⟨a,m',old,large'⟩ := parent
    have member : c ∈ m'.children.ptrs := large' ▸ mem_large_ptrs.mpr ⟨first,entry⟩
    obtain ⟨⟨k',oldC⟩,_⟩ := shape.child_live old member
    obtain ⟨l,again,head⟩ := heads c k (cut.apart oldC) here
    rw [← head]
    exact shape.keyed a m' table old large' first c l entry again (filled_iff head filled)

theorem SplitAt.at_iff (cut : SplitAt read read' index index' p n common s) (q : Ptr) (i : Nat) (path : List Hash) :
    At read' (Function.update pre s (pre p++n.value.take common)) q i path ↔
      (q = s ∧ At read pre p (common+i) path) ∨ (q = p ∧ i < common ∧ At read pre p i path) ∨
      (q ≠ s ∧ q ≠ p ∧ At read pre q i path) := by
  have upper := cut.upper
  have pS := cut.apart cut.found
  by_cases new : q = s
  · subst new
    simp only [true_and,Ne.symm pS,false_and,or_false,not_true,ne_eq]
    simp only [At,cut.bottom,cut.found,Option.some.injEq,exists_eq_left',Function.update_self,List.length_drop]
    rw [List.append_assoc,← List.take_add,← Nat.add_assoc]
    exact and_congr_left fun _ => by omega
  · by_cases self : q = p
    · subst self
      simp only [new,false_and,true_and,false_or,not_true,ne_eq,and_false,or_false]
      simp only [At,cut.top,cut.found,Option.some.injEq,exists_eq_left',Function.update_of_ne new,List.length_take]
      constructor
      · rintro ⟨bound,rfl⟩
        exact ⟨by omega,by omega,by rw [List.take_take,Nat.min_eq_left (by omega)]⟩
      · rintro ⟨low,bound,rfl⟩
        exact ⟨by omega,by rw [List.take_take,Nat.min_eq_left (by omega)]⟩
    · simp only [new,self,false_and,false_or,not_false_eq_true,true_and,ne_eq]
      simp only [At,cut.other new self,Function.update_of_ne new]

theorem Shape.split (shape : Shape read root index pre T) (cut : SplitAt read read' index index' p n common s) :
    Shape read' root index' (Function.update pre s (pre p++n.value.take common)) T := by
  set pre' := Function.update pre s (pre p++n.value.take common) with preDef
  have at_iff : ∀ q i path, At read' pre' q i path ↔ (q = s ∧ At read pre p (common+i) path) ∨
      (q = p ∧ i < common ∧ At read pre p i path) ∨ (q ≠ s ∧ q ≠ p ∧ At read pre q i path) :=
    fun q i path => cut.at_iff q i path
  have upper := cut.upper
  have pS := cut.apart cut.found
  have size := shape.stored.slots p n cut.found
  -- every slot was a slot before, at the same path
  have slots : ∀ q m (i : Nat) bids, read' q = some m → m.payload[i]? = some bids →
      ∃ a k, ∃ j : Nat, read a = some k ∧ k.payload[j]? = some bids ∧
        pre' q++m.value.take (i+1) = pre a++k.value.take (j+1) := by
    intro q m i bids found slot
    rcases cut.back found with ⟨rfl,rfl⟩ | ⟨rfl,rfl⟩ | ⟨new,_,old⟩
    · rw [List.getElem?_drop] at slot
      refine ⟨p,n,common+i,cut.found,slot,?_⟩
      rw [preDef,Function.update_self,List.append_assoc,← List.take_add,Nat.add_assoc]
    · rw [List.getElem?_take] at slot
      split at slot
      · rename_i low
        refine ⟨q,n,i,cut.found,slot,?_⟩
        rw [preDef,Function.update_of_ne pS,List.take_take,Nat.min_eq_left (by omega)]
      · cases slot
    · exact ⟨q,m,i,old,slot,by rw [preDef,Function.update_of_ne new]⟩
  have lowered : ∀ b, b ∈ (n.payload.drop common).flatten ↔
      ∃ i path, b ∈ T path ∧ At read pre p (common+i) path := by
    intro b
    constructor
    · intro member
      obtain ⟨bids,listed,here⟩ := List.mem_flatten.mp member
      obtain ⟨i,slot⟩ := List.mem_iff_getElem?.mp listed
      rw [List.getElem?_drop] at slot
      obtain ⟨held,located⟩ := mem_slot shape.stored cut.found slot here
      exact ⟨i,_,held,located⟩
    · rintro ⟨i,path,held,k,found,bound,rfl⟩
      cases Option.some.inj (cut.found.symm.trans found)
      have inside : common+i < n.payload.length := size ▸ bound
      have slot := List.getElem?_eq_getElem inside
      refine List.mem_flatten.mpr ⟨_,?_,(shape.stored.ids p n _ _ cut.found slot b).mpr held⟩
      exact List.mem_of_getElem? ((List.getElem?_drop ..).trans slot)
  have one : ∀ {b path other}, b ∈ T path → b ∈ T other → path = other :=
    fun left right => shape.valid.single _ _ _ left right
  refine ⟨shape.skeleton.split cut,⟨?_,?_,?_,?_,?_⟩,shape.valid⟩
  · intro q m found
    rcases cut.back found with ⟨rfl,rfl⟩ | ⟨rfl,rfl⟩ | ⟨_,_,old⟩
    · simp [size]
    · simp [size]
    · exact shape.stored.slots q m old
  · intro q m i bids found slot
    obtain ⟨a,k,j,old,before,_⟩ := slots q m i bids found slot
    exact shape.stored.filled a k j bids old before
  · intro q m i bids found slot b
    obtain ⟨a,k,j,old,before,path⟩ := slots q m i bids found slot
    rw [path]
    exact shape.stored.ids a k j bids old before b
  · intro path b member
    obtain ⟨q,i,located⟩ := shape.stored.covered path b member
    by_cases self : q = p
    · subst self
      by_cases low : i < common
      · exact ⟨q,i,(at_iff q i path).mpr (.inr (.inl ⟨rfl,low,located⟩))⟩
      · refine ⟨s,i-common,(at_iff s _ path).mpr (.inl ⟨rfl,?_⟩)⟩
        rw [Nat.add_sub_cancel' (by omega)]
        exact located
    · have new : q ≠ s := by
        obtain ⟨m,found,_⟩ := located
        exact cut.apart found
      exact ⟨q,i,(at_iff q i path).mpr (.inr (.inr ⟨new,self,located⟩))⟩
  · intro b q
    rw [cut.ids b]
    by_cases moved : index b = some p ∧ b ∈ (n.payload.drop common).flatten
    · rw [if_pos moved]
      obtain ⟨i,path,held,located⟩ := (lowered b).mp moved.2
      constructor
      · intro equal
        cases Option.some.inj equal
        exact ⟨path,i,held,(at_iff s i path).mpr (.inl ⟨rfl,located⟩)⟩
      · rintro ⟨other,j,again,spot⟩
        obtain rfl := one held again
        rcases (at_iff q j path).mp spot with ⟨rfl,_⟩ | ⟨_,low,above⟩ | ⟨_,self,elsewhere⟩
        · rfl
        · have same := (shape.skeleton.at_unique located above).2
          omega
        · exact absurd (shape.skeleton.at_unique elsewhere located).1 self
    · rw [if_neg moved,shape.stored.indexed]
      constructor
      · rintro ⟨path,i,held,located⟩
        refine ⟨path,i,held,(at_iff q i path).mpr ?_⟩
        by_cases self : q = p
        · subst self
          refine .inr (.inl ⟨rfl,?_,located⟩)
          apply Classical.byContradiction
          intro high
          refine moved ⟨(shape.stored.indexed b q).mpr ⟨path,i,held,located⟩,(lowered b).mpr ⟨i-common,path,held,?_⟩⟩
          rw [Nat.add_sub_cancel' (by omega)]
          exact located
        · have new : q ≠ s := by
            obtain ⟨m,found,_⟩ := located
            exact cut.apart found
          exact .inr (.inr ⟨new,self,located⟩)
      · rintro ⟨path,i,held,spot⟩
        rcases (at_iff q i path).mp spot with ⟨_,below⟩ | ⟨rfl,_,above⟩ | ⟨_,_,elsewhere⟩
        · exact absurd ⟨(shape.stored.indexed b p).mpr ⟨path,_,held,below⟩,(lowered b).mpr ⟨i,path,held,below⟩⟩ moved
        · exact ⟨path,i,held,above⟩
        · exact ⟨path,i,held,elsewhere⟩

end Split

end BlitzRouter.Radix
