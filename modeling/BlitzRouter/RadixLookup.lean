import BlitzRouter.RadixShape

namespace BlitzRouter.Radix
open PrefixTrie CommonPrefix

variable {t : RadixTreeBlockHash} {pre : Ptr → List Hash} {T : Trie Hash BlockId}

-- A child that starts with the next hash of the key shares at least that hash with it.
theorem commonLen_ne_zero {k : Node} {key : List Hash} (nonempty : key ≠ []) :
    commonLen k.value key ≠ 0 ↔ k.value ≠ [] ∧ k.value.head? = key.head? := by
  by_cases blank : k.value = []
  · simp [blank]
  · have zero := commonLen_eq_zero blank nonempty
    constructor
    · intro shared
      refine ⟨blank,Classical.byContradiction fun differs => shared (zero.mpr differs)⟩
    · rintro ⟨_,same⟩ none
      exact zero.mp none same

namespace Standing

-- No path leaves a node at the hash where the key does.
theorem leaves_inside (standing : Standing t pre T) {c : Ptr} {k : Node} (found : t.heap.read c = some k) {key : List Hash}
    (lower : 0 < commonLen k.value key) (upper : commonLen k.value key < k.value.length)
    (more : commonLen k.value key < key.length) : ¬Present T (pre c++key.take (commonLen k.value key+1)) := by
  set i := commonLen k.value key with iDef
  intro present
  obtain ⟨q,j,located⟩ := (standing.present_iff _).mp present
  have agree : k.value.take i = key.take i := take_commonLen k.value key
  have here : At t.heap.read pre c (i-1) (pre c++key.take i) :=
    ⟨k,found,by omega,by rw [Nat.sub_add_cancel lower,agree]⟩
  rw [List.take_succ_eq_append_getElem more,← List.append_assoc] at located
  rcases Skeleton.at_up located with ⟨x,rfl,above⟩ | ⟨_,label,m,again,_⟩
  · obtain ⟨rfl,same⟩ := standing.skeleton.at_unique here above
    obtain ⟨m,again,_,equal⟩ := located
    cases Option.some.inj (found.symm.trans again)
    rw [List.append_assoc,← List.take_succ_eq_append_getElem more] at equal
    have taken := List.append_cancel_left equal
    rw [show x+1+1 = i+1 by omega] at taken
    have longer := commonLen_maximal (by omega) (by omega) taken.symm
    omega
  · have inner := standing.skeleton.at_ne_root located
    rw [← agree] at label
    exact standing.skeleton.label_not_inside found lower upper again inner label

theorem not_present_child (standing : Standing t pre T) {p : Ptr} {n : Node} (parent : t.heap.read p = some n)
    (proper : p = t.root ∨ n.value ≠ []) {x : Hash}
    (headless : ∀ c ∈ n.children.ptrs, ∀ k, t.heap.read c = some k → k.value.head? ≠ some x) :
    ¬Present T (pre p++n.value++[x]) := by
  intro present
  obtain ⟨q,j,located⟩ := (standing.present_iff _).mp present
  exact standing.skeleton.no_label parent proper headless (List.prefix_refl _) located

end Standing

theorem getChild_spec (key : List Hash) {v : List Ptr} (live : ∀ c ∈ v, ∃ k, t.heap.read c = some k) :
    (t.getChild key v = some none ∧ ∀ c ∈ v, ∀ k, t.heap.read c = some k → commonLen k.value key = 0) ∨
      ∃ c k, t.getChild key v = some (some (c,commonLen k.value key)) ∧ c ∈ v ∧ t.heap.read c = some k ∧
        commonLen k.value key ≠ 0 := by
  induction v with
  | nil => exact .inl ⟨rfl,by simp⟩
  | cons child rest ih =>
    obtain ⟨n,found⟩ := live child (by simp)
    by_cases zero : commonLen n.value key = 0
    · have step : t.getChild key (child::rest) = t.getChild key rest := by
        simp [RadixTreeBlockHash.getChild,found,zero]
      rw [step]
      rcases ih fun c member => live c (by simp [member]) with ⟨none,headless⟩ | ⟨c,k,hit,member,read,shared⟩
      · refine .inl ⟨none,?_⟩
        intro c member k read
        rcases List.mem_cons.mp member with rfl | inside
        · cases Option.some.inj (found.symm.trans read)
          exact zero
        · exact headless c inside k read
      · exact .inr ⟨c,k,hit,by simp [member],read,shared⟩
    · exact .inr ⟨child,n,by simp [RadixTreeBlockHash.getChild,found,zero],by simp,found,zero⟩

namespace Standing

theorem nextChild_spec (standing : Standing t pre T) {p : Ptr} {n : Node} (parent : t.heap.read p = some n)
    (first : Hash) (rest : List Hash) :
    (t.nextChild (first::rest) first n.children = some none ∧
      ∀ c ∈ n.children.ptrs, ∀ k, t.heap.read c = some k → k.value.head? ≠ some first) ∨
    ∃ c k, t.nextChild (first::rest) first n.children = some (some (c,commonLen k.value (first::rest))) ∧
      c ∈ n.children.ptrs ∧ t.heap.read c = some k ∧ commonLen k.value (first::rest) ≠ 0 := by
  have shared : ∀ k : Node, commonLen k.value (first::rest) ≠ 0 ↔ k.value ≠ [] ∧ k.value.head? = some first :=
    fun k => commonLen_ne_zero (by simp)
  cases shape : n.children with
  | small v =>
    have live : ∀ c ∈ v, ∃ k, t.heap.read c = some k := fun c member =>
      (standing.skeleton.child_live parent (shape ▸ member)).1
    rcases getChild_spec (first::rest) live with ⟨none,headless⟩ | hit
    · refine .inl ⟨none,fun c member k read head => ?_⟩
      have filled : k.value ≠ [] := by
        intro blank
        rw [blank] at head
        cases head
      exact (shared k).mpr ⟨filled,head⟩ (headless c member k read)
    · exact .inr hit
  | large m =>
    have unique : ∀ c ∈ (Children.large m).ptrs, ∀ k, t.heap.read c = some k → k.value.head? = some first →
        m.lookup first = some c := fun c member k read head =>
      standing.skeleton.large_lookup parent shape (shape ▸ member) read head
    cases entry : m.lookup first with
    | none =>
      refine .inl ⟨by simp [RadixTreeBlockHash.nextChild,entry],fun c member k read head => ?_⟩
      rw [unique c member k read head] at entry
      cases entry
    | some child =>
      have member : child ∈ (Children.large m).ptrs := mem_large_ptrs.mpr ⟨first,entry⟩
      obtain ⟨⟨c,found⟩,proper,_⟩ := standing.skeleton.child_live parent (shape ▸ member)
      have empty := standing.skeleton.isEmpty_iff found proper (standing.stored.slots child c found)
      by_cases blank : c.value = []
      · refine .inl ⟨by simp [RadixTreeBlockHash.nextChild,entry,found,empty.mpr blank],fun d inside k read head => ?_⟩
        cases Option.some.inj (entry.symm.trans (unique d inside k read head))
        cases Option.some.inj (found.symm.trans read)
        rw [blank] at head
        cases head
      · have full : c.isEmpty = false := by
          rw [← Bool.not_eq_true,empty]
          exact blank
        have head := standing.skeleton.keyed p n m parent shape first child c entry found blank
        exact .inr ⟨child,c,by simp [RadixTreeBlockHash.nextChild,entry,found,full],member,found,(shared c).mpr ⟨blank,head⟩⟩

theorem getLoop_spec (standing : Standing t pre T) {cur : Ptr} {done : List Hash} {fuel : Nat}
    (end_ : Ends t.heap.read t.root pre cur done) (key : List Hash) (enough : key.length < fuel) :
    ∃ m, t.getLoop fuel cur key = some m ∧ m ≤ key.length ∧ (m = 0 ∨ Present T (done++key.take m)) ∧
      (m < key.length → ¬Present T (done++key.take (m+1))) := by
  induction fuel generalizing cur done key with
  | zero => omega
  | succ fuel ih =>
    obtain ⟨n,parent,proper,rfl⟩ := end_
    cases key with
    | nil => exact ⟨0,by simp [RadixTreeBlockHash.getLoop,parent],by simp,.inl rfl,by simp⟩
    | cons first rest =>
      set key := first::rest with keyDef
      rcases standing.nextChild_spec parent first rest with ⟨none,headless⟩ | ⟨c,k,hit,member,found,shared⟩
      · refine ⟨0,?_,by omega,.inl rfl,fun _ => ?_⟩
        · simp only [RadixTreeBlockHash.getLoop,keyDef,parent,none,Option.bind_eq_bind,Option.bind_some,Option.pure_def]
        · exact standing.not_present_child parent proper headless
      · obtain ⟨_,inner,label⟩ := standing.skeleton.child_live parent member
        have limit := commonLen_le_left k.value key
        have limit' := commonLen_le_right k.value key
        have agree := take_commonLen k.value key
        set i := commonLen k.value key with iDef
        have here : Present T (pre c++key.take i) :=
          (standing.present_iff _).mpr ⟨c,i-1,k,found,by omega,by rw [Nat.sub_add_cancel (by omega),agree]⟩
        have step : t.getLoop (fuel+1) cur key =
            if i < k.value.length then some i else (t.getLoop fuel c (key.drop i)).map (i+·) := by
          simp only [RadixTreeBlockHash.getLoop,keyDef,parent,hit,found,Option.bind_eq_bind,Option.bind_some]
          split
          · rfl
          · cases t.getLoop fuel c (key.drop i) <;> rfl
        rw [step,← label]
        by_cases partial_ : i < k.value.length
        · rw [if_pos partial_]
          exact ⟨i,rfl,limit',.inr here,fun more => standing.leaves_inside found (by omega) partial_ more⟩
        · rw [if_neg partial_]
          have full : k.value = key.take i := by rw [← agree,List.take_of_length_le (by omega)]
          have lower : Ends t.heap.read t.root pre c (pre c++key.take i) :=
            ⟨k,found,.inr (List.ne_nil_of_length_pos (by omega)),by rw [full]⟩
          obtain ⟨m,result,bound,reached,stopped⟩ := ih lower (key.drop i) (by rw [List.length_drop]; omega)
          rw [List.length_drop] at bound stopped
          refine ⟨i+m,by rw [result]; rfl,by omega,.inr ?_,fun more => ?_⟩
          · rcases reached with rfl | reached
            · simpa using here
            · rwa [List.append_assoc,← List.take_add] at reached
          · have missing := stopped (by omega)
            rwa [List.append_assoc,← List.take_add] at missing

theorem get_eq (standing : Standing t pre T) (query : List Hash) : t.get query = some (get T query) := by
  obtain ⟨m,result,bound,reached,stopped⟩ :=
    standing.getLoop_spec standing.skeleton.ends_root query (Nat.lt_succ_self query.length)
  simp only [List.nil_append] at reached stopped
  rw [RadixTreeBlockHash.get,RadixTreeBlockHash.getInner,result,get_eq_of standing.valid bound reached stopped]

end Standing

end BlitzRouter.Radix
