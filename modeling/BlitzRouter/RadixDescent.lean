import BlitzRouter.RadixScan

namespace BlitzRouter.Radix
open PrefixTrie CommonPrefix RadixTreeBlockHash

variable {t t' : RadixTreeBlockHash} {pre : Ptr → List Hash} {T : Trie Hash BlockId}

-- A map answers a level with one lookup; an empty entry counts as a miss once it is dropped.
theorem Standing.map_level {p : Ptr} {n : Node} {m : AList fun _ : Hash => Ptr} (first : Hash) (rest : List Hash)
    (standing : Standing t pre T) (parent : t.heap.read p = some n) (large : n.children = .large m) :
    (m.lookup first = none ∧ Level t p n (first::rest) none) ∨
    (∃ child c, m.lookup first = some child ∧ t.heap.read child = some c ∧ c.isEmpty = true ∧ child ≠ p ∧
      ∀ t', SameTable t t' → (∀ q, t'.heap.read q = if q = child then none
        else if q = p then some {n with children := .large (m.erase first)} else t.heap.read q) →
        Standing t' pre T ∧ Level t' p n (first::rest) none) ∨
    ∃ child c, m.lookup first = some child ∧ t.heap.read child = some c ∧ c.isEmpty = false ∧
      Level t p n (first::rest) (some (child,c)) := by
  cases entry : m.lookup first with
  | none =>
    refine .inl ⟨rfl,.miss parent fun x head => ⟨n,parent,?_⟩⟩
    cases Option.some.inj (head : some first = some x)
    rw [large]
    exact entry
  | some child =>
    have member : child ∈ n.children.ptrs := large ▸ mem_large_ptrs.mpr ⟨first,entry⟩
    obtain ⟨⟨c,found⟩,proper,_⟩ := standing.skeleton.child_live parent member
    have empty := standing.skeleton.isEmpty_iff found proper (standing.stored.slots child c found)
    have apart := standing.selfless parent member
    by_cases blank : c.value = []
    · refine .inr (.inl ⟨child,c,rfl,found,empty.mpr blank,apart,fun t' same heap => ?_⟩)
      have here : t'.heap.read p = some {n with children := .large (m.erase first)} := by
        rw [heap,if_neg (Ne.symm apart),if_pos rfl]
      refine ⟨standing.large_level parent large entry found blank same heap,.miss here fun x head => ⟨_,here,?_⟩⟩
      cases Option.some.inj (head : some first = some x)
      simp
    · have full : c.isEmpty = false := by
        rw [← Bool.not_eq_true,empty]; exact blank
      have head := standing.skeleton.keyed p n m parent large first child c entry found blank
      exact .inr (.inr ⟨child,c,rfl,found,full,.hit parent member found
        ((commonLen_ne_zero (by simp)).mpr ⟨blank,head⟩)⟩)

theorem Standing.combo_step {p : Ptr} {n : Node} (standing : Standing t pre T) (parent : t.heap.read p = some n)
    (first : Hash) (rest : List Hash) (fuel : Nat) :
    ∃ t' hit, Standing t' pre T ∧ SameTable t t' ∧ Level t' p n (first::rest) hit ∧
      commonPrefixFullCombo (fuel+1) t p (first::rest) = match hit with
        | none => some (t',.fullMatch p,first::rest)
        | some (c,k) =>
          if commonLen k.value (first::rest) = k.value.length then
            commonPrefixFullCombo fuel t' c ((first::rest).drop k.value.length)
          else some (t',.partialMatch c (commonLen k.value (first::rest)),first::rest) := by
  set key := first::rest with keyDef
  have nonempty : key ≠ [] := by simp [keyDef]
  cases shape : n.children with
  | small v =>
    obtain ⟨sound,nodup⟩ := standing.sound parent shape
    obtain ⟨t₁,kept,scanned,⟨result,missed⟩ | ⟨c,k,result,caught⟩⟩ := scanSmall_spec nonempty sound nodup
    · obtain ⟨t',stored,standing',same,level⟩ :=
        standing.scan_level parent nonempty shape scanned none (.inl ⟨rfl,missed⟩)
      refine ⟨t',none,standing',same,level,?_⟩
      simp only [commonPrefixFullCombo,keyDef,parent,shape,Option.bind_eq_bind,Option.bind_some]
      simp only [← keyDef,result,stored,Option.bind_some,Option.pure_def]
    · obtain ⟨t',stored,standing',same,level⟩ :=
        standing.scan_level parent nonempty shape scanned (some (c,k)) (.inr ⟨c,k,rfl,caught⟩)
      obtain ⟨found,_⟩ := level.inside standing'
      refine ⟨t',some (c,k),standing',same,level,?_⟩
      simp only [commonPrefixFullCombo,keyDef,parent,shape,Option.bind_eq_bind,Option.bind_some]
      simp only [← keyDef,result,stored,Option.bind_some,Option.pure_def,classify]
      by_cases whole : commonLen k.value key = k.value.length
      · simp only [whole,if_true,found,Option.bind_some]
      · simp only [whole,if_false]
  | large m =>
    rcases standing.map_level first rest parent shape with ⟨entry,level⟩ |
      ⟨child,c,entry,found,empty,apart,after⟩ | ⟨child,c,entry,found,full,level⟩
    · refine ⟨t,none,standing,⟨rfl,rfl⟩,level,?_⟩
      simp [commonPrefixFullCombo,keyDef,parent,shape,entry]
    · -- the entry is removed from the map first and the node freed after it
      set t₁ : RadixTreeBlockHash := {t with heap := t.heap.write p {n with children := .large (m.erase first)}} with t₁Def
      have heap₁ : t₁.heap.read = Function.update t.heap.read p (some {n with children := .large (m.erase first)}) :=
        Arena.read_write _ parent
      have found₁ : t₁.heap.read child = some c := by rw [heap₁,Function.update_of_ne apart,found]
      set t' : RadixTreeBlockHash := {t₁ with heap := t₁.heap.free child,nodes := t₁.nodes-1} with t'Def
      have heap : ∀ q, t'.heap.read q = if q = child then none
          else if q = p then some {n with children := .large (m.erase first)} else t.heap.read q := by
        intro q
        have freed : t'.heap.read = Function.update t₁.heap.read child none := Arena.read_free _ child
        rw [freed,heap₁]
        by_cases one : q = child
        · subst one; simp
        · by_cases two : q = p
          · subst two; simp [one]
          · simp [one,two]
      obtain ⟨standing',level⟩ := after t' ⟨rfl,rfl⟩ heap
      refine ⟨t',none,standing',⟨rfl,rfl⟩,level,?_⟩
      simp only [commonPrefixFullCombo,keyDef,parent,shape,entry,found,empty,if_true,setChildren_eq parent,
        Option.bind_eq_bind,Option.bind_some,Option.pure_def,t₁Def,t'Def]
      rw [← t₁Def,lazyGc_eq found₁]
      rfl
    · refine ⟨t,some (child,c),standing,⟨rfl,rfl⟩,level,?_⟩
      obtain ⟨_,_,_,shared⟩ := level.inside standing
      simp only [commonPrefixFullCombo,keyDef,parent,shape,entry,found,full,Bool.false_eq_true,if_false,
        Option.bind_eq_bind,Option.bind_some,Option.pure_def]
      rw [commonPrefix_eq found (Nat.ne_of_gt shared)]
      by_cases whole : commonLen c.value (first::rest) = c.value.length <;> simp [whole]

theorem take_commonLen_full {k : Node} {key : List Hash} (whole : commonLen k.value key = k.value.length) :
    key = k.value++key.drop k.value.length := by
  have agree := take_commonLen k.value key
  rw [whole,List.take_length] at agree
  calc key = key.take k.value.length++key.drop k.value.length := (List.take_append_drop ..).symm
    _ = k.value++key.drop k.value.length := by rw [← agree]

-- The descent goes on below every child that the key matches in full.
theorem Standing.combo_spec {p : Ptr} {done key : List Hash} {fuel : Nat} (standing : Standing t pre T)
    (end_ : Ends t.heap.read t.root pre p done) (proper : p ≠ t.root) (enough : key.length < fuel) :
    ∃ t' inner key1, commonPrefixFullCombo fuel t p key = some (t',inner,key1) ∧ Standing t' pre T ∧ SameTable t t' ∧
      Landing t' pre (done++key) inner key1 := by
  induction fuel generalizing t p done key with
  | zero => omega
  | succ fuel ih =>
    obtain ⟨n,parent,filled,rfl⟩ := end_
    replace filled := filled.resolve_left proper
    cases key with
    | nil => exact ⟨t,.fullMatch p,[],rfl,standing,⟨rfl,rfl⟩,.full parent filled rfl (by simp)⟩
    | cons first rest =>
      obtain ⟨t',hit,standing',same,level,step⟩ := standing.combo_step parent first rest fuel
      rw [step]
      cases hit with
      | none =>
        cases level with
        | miss here ready => exact ⟨t',.fullMatch p,first::rest,rfl,standing',same,.full here filled rfl ready⟩
      | some found =>
        obtain ⟨c,k⟩ := found
        obtain ⟨found,label,inner,shared⟩ := level.inside standing'
        have limit := commonLen_le_left k.value (first::rest)
        dsimp only
        by_cases whole : commonLen k.value (first::rest) = k.value.length
        · rw [if_pos whole]
          have split := take_commonLen_full whole
          have end' : Ends t'.heap.read t'.root pre c (pre p++n.value++k.value) :=
            ⟨k,found,.inr (List.ne_nil_of_length_pos (by omega)),by rw [label]⟩
          have shorter : ((first::rest).drop k.value.length).length < fuel := by
            have nonempty : 0 < (first::rest).length := by simp
            rw [List.length_drop]; omega
          obtain ⟨t'',inner',key1,result,standing'',same',landing⟩ := ih standing' end' inner shorter
          refine ⟨t'',inner',key1,result,standing'',same.trans same',?_⟩
          rw [List.append_assoc,← split] at landing
          exact landing
        · rw [if_neg whole]
          exact ⟨t',_,_,rfl,standing',same,.inside found (by rw [label]) shared (by omega)⟩

-- The first level indexes the head of each child; it stops at the same child the other scan would.
theorem Standing.root_step (standing : Standing t pre T) (first : Hash) (rest : List Hash) :
    ∃ t' n hit, Standing t' pre T ∧ SameTable t t' ∧ n.value = [] ∧ Level t' t.root n (first::rest) hit ∧
      t.rootMatch (first::rest) = some (t',match hit with
        | none => .noMatch t.root
        | some (c,k) => classify c k (first::rest)) := by
  obtain ⟨n,parent,blank⟩ := standing.skeleton.rootNode
  set key := first::rest with keyDef
  have nonempty : key ≠ [] := by simp [keyDef]
  cases shape : n.children with
  | small v =>
    obtain ⟨sound,nodup⟩ := standing.sound parent shape
    obtain ⟨t₁,kept,scanned,⟨result,missed⟩ | ⟨c,k,result,caught⟩⟩ := scanRoot_spec nonempty sound nodup
    · obtain ⟨t',stored,standing',same,level⟩ := standing.scan_level parent nonempty shape scanned none (.inl ⟨rfl,missed⟩)
      refine ⟨t',n,none,standing',same,blank,level,?_⟩
      simp only [rootMatch,parent,shape,result,Option.bind_eq_bind,Option.bind_some]
      rw [scanned.same.root,stored]
      rfl
    · obtain ⟨t',stored,standing',same,level⟩ :=
        standing.scan_level parent nonempty shape scanned (some (c,k)) (.inr ⟨c,k,rfl,caught⟩)
      refine ⟨t',n,some (c,k),standing',same,blank,level,?_⟩
      simp only [rootMatch,parent,shape,result,Option.bind_eq_bind,Option.bind_some]
      rw [scanned.same.root,stored]
      rfl
  | large m =>
    rcases standing.map_level first rest parent shape with ⟨entry,level⟩ |
      ⟨child,c,entry,found,empty,apart,after⟩ | ⟨child,c,entry,found,full,level⟩
    · refine ⟨t,n,none,standing,⟨rfl,rfl⟩,blank,level,?_⟩
      simp [rootMatch,keyDef,parent,shape,entry]
    · -- here the node is freed before its entry is removed
      set t₁ : RadixTreeBlockHash := {t with heap := t.heap.free child,nodes := t.nodes-1} with t₁Def
      have heap₁ : t₁.heap.read = Function.update t.heap.read child none := Arena.read_free _ child
      have parent₁ : t₁.heap.read t.root = some n := by
        rw [heap₁,Function.update_of_ne (Ne.symm apart),parent]
      set t' : RadixTreeBlockHash := {t₁ with heap := t₁.heap.write t.root {n with children := .large (m.erase first)}} with t'Def
      have heap : ∀ q, t'.heap.read q = if q = child then none
          else if q = t.root then some {n with children := .large (m.erase first)} else t.heap.read q := by
        intro q
        have written : t'.heap.read = Function.update t₁.heap.read t.root (some {n with children := .large (m.erase first)}) :=
          Arena.read_write _ parent₁
        rw [written,heap₁]
        by_cases one : q = child
        · subst one; simp [apart]
        · by_cases two : q = t.root
          · subst two; simp [one]
          · simp [one,two]
      obtain ⟨standing',level⟩ := after t' ⟨rfl,rfl⟩ heap
      refine ⟨t',n,none,standing',⟨rfl,rfl⟩,blank,level,?_⟩
      simp only [rootMatch,keyDef,parent,shape,entry,found,empty,if_true,List.head?_cons,lazyGc_eq found,
        Option.bind_eq_bind,Option.bind_some,Option.pure_def]
      rw [← t₁Def,setChildren_eq parent₁]
      rfl
    · refine ⟨t,n,some (child,c),standing,⟨rfl,rfl⟩,blank,level,?_⟩
      obtain ⟨_,_,_,shared⟩ := level.inside standing
      simp only [rootMatch,keyDef,parent,shape,entry,found,full,Bool.false_eq_true,if_false,List.head?_cons,
        commonPrefix_eq found (Nat.ne_of_gt shared),Option.bind_eq_bind,Option.bind_some,Option.pure_def,classify]

end BlitzRouter.Radix
