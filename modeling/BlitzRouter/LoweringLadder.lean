import BlitzRouter.LoweringHeaps

namespace BlitzRouter.Lowering

-- A sorted vector stands for a map: its positions are the symbols in order.
def SortedPtrs (v : List Ptr) (child : Key → Option Ptr) : Prop :=
  ∃ keys : List Key, keys.Pairwise (· < ·) ∧ v.map some = keys.map child ∧ ∀ k, child k ≠ none → k ∈ keys

section
variable {χ : Type} {heap : Heap χ} {v : List Ptr} {keys : List Key} {child : Key → Option Ptr} {k : Key} {c : Ptr}

theorem ptr_at (aligned : v.map some = keys.map child) (i : Nat) : v[i]?.map some = keys[i]?.map child := by
  simpa only [List.getElem?_map] using congrArg (fun l => l[i]?) aligned

theorem probe_at (headed : Headed heap child) (aligned : v.map some = keys.map child) (i : Nat) : v[i]?.bind heap.headOf = keys[i]? := by
  have same := ptr_at aligned i
  cases left : v[i]? with
  | none =>
    rw [left] at same
    cases right : keys[i]? with
    | none => rfl
    | some key => rw [right] at same; cases same
  | some p =>
    rw [left] at same
    cases right : keys[i]? with
    | none => rw [right] at same; cases same
    | some key =>
      rw [right] at same
      exact headed key p (Option.some.inj same).symm

theorem searchPtrs_located (headed : Headed heap child) (sorted : keys.Pairwise (· < ·)) (aligned : v.map some = keys.map child)
    (target : Key) : ∃ result, searchPtrs heap v target = some result ∧ Located keys target result := by
  have lengths : v.length = keys.length := by simpa using congrArg List.length aligned
  rw [searchPtrs,lengths]
  exact binarySearch_located sorted (fun i _ => probe_at headed aligned i) target

-- What the search tells of the map.
def SearchedPtrs (v : List Ptr) (child : Key → Option Ptr) (target : Key) : Except Nat Nat → Prop
  | .ok idx => ∃ c, v[idx]? = some c ∧ child target = some c
  | .error ins => child target = none ∧ ins ≤ v.length ∧
      ∀ c, SortedPtrs (v.insertIdx ins c) (Function.update child target (some c))

theorem SortedPtrs.searched (stands : SortedPtrs v child) (headed : Headed heap child) (target : Key) :
    ∃ result, searchPtrs heap v target = some result ∧ SearchedPtrs v child target result := by
  obtain ⟨keys,sorted,aligned,whole⟩ := stands
  have lengths : v.length = keys.length := by simpa using congrArg List.length aligned
  obtain ⟨result,searched,located⟩ := searchPtrs_located headed sorted aligned target
  refine ⟨result,searched,?_⟩
  cases result with
  | ok idx =>
    have same := ptr_at aligned idx
    rw [show keys[idx]? = some target from located] at same
    obtain ⟨c,here,there⟩ := Option.map_eq_some_iff.mp same
    exact ⟨c,here,there.symm⟩
  | error ins =>
    have absent := located.absent
    have unknown : child target = none := by
      apply Classical.byContradiction
      intro known
      exact absent target (whole target known) rfl
    refine ⟨unknown,lengths ▸ located.1,fun c => ⟨keys.insertIdx ins target,located.sorted_insertIdx sorted,?_,fun k known => ?_⟩⟩
    · have others : keys.map (Function.update child target (some c)) = keys.map child :=
        List.map_congr_left fun key member => Function.update_of_ne (absent key member) _ _
      rw [List.map_insertIdx,List.map_insertIdx,aligned,others,Function.update_self]
    · rw [List.mem_insertIdx located.1]
      by_cases here : k = target
      · exact .inl here
      · rw [Function.update_of_ne here] at known
        exact .inr (whole k known)

theorem sortedPtrs_nil : SortedPtrs [] fun _ => none := ⟨[],List.Pairwise.nil,rfl,fun _ known => absurd rfl known⟩

theorem sortedPtrs_single (first : Key) (suffix : Ptr) : SortedPtrs [suffix] (Function.update (fun _ => none) first (some suffix)) := by
  refine ⟨[first],List.pairwise_singleton _ _,by rw [List.map_singleton,List.map_singleton,Function.update_self],fun k known => ?_⟩
  by_cases here : k = first
  · rw [here]
    exact List.mem_singleton_self _
  · rw [Function.update_of_ne here] at known
    exact absurd rfl known

end

theorem L2.both_sorted {heap : Heap (List Ptr)} {suffix leaf : Ptr} {first k : Key} (begins : heap.headOf suffix = some first)
    (starts : heap.headOf leaf = some k) (apart : first ≠ k) :
    ∃ children, L2.both heap suffix leaf = some children ∧
      SortedPtrs children (Function.update (Function.update (fun _ => none) first (some suffix)) k (some leaf)) := by
  have whole : ∀ key, Function.update (Function.update (fun _ => none) first (some suffix)) k (some leaf) key ≠ none → key = first ∨ key = k := by
    intro key known
    by_cases second : key = k
    · exact .inr second
    · rw [Function.update_of_ne second] at known
      by_cases here : key = first
      · exact .inl here
      · rw [Function.update_of_ne here] at known
        exact absurd rfl known
  have upper : Function.update (Function.update (fun _ => none) first (some suffix)) k (some leaf) first = some suffix := by
    rw [Function.update_of_ne apart,Function.update_self]
  rw [L2.both,begins,starts]
  by_cases less : first < k
  · refine ⟨[suffix,leaf],by simp [less],[first,k],by simpa using less,?_,fun key known => by simpa using whole key known⟩
    simp only [List.map_cons,List.map_nil,upper,Function.update_self]
  · refine ⟨[leaf,suffix],by simp [less],[k,first],by simpa using lt_of_le_of_ne (le_of_not_gt less) (Ne.symm apart),?_,
      fun key known => by simpa [or_comm] using whole key known⟩
    simp only [List.map_cons,List.map_nil,upper,Function.update_self]

theorem L2.level_correct : L2.level.Correct SortedPtrs where
  fresh := sortedPtrs_nil
  finds := fun stands headed k => by
    obtain ⟨result,searched,told⟩ := stands.searched headed k
    cases result with
    | ok idx =>
      obtain ⟨c,here,known⟩ := told
      refine ⟨.ok c,?_,known⟩
      simp only [L2.level,L2.findChild,searched,here,Option.bind_eq_bind,Option.bind_some,Option.pure_def]
    | error ins =>
      refine ⟨.error ins,?_,told.1⟩
      simp only [L2.level,L2.findChild,searched,Option.bind_eq_bind,Option.bind_some,Option.pure_def]
  grown := fun {_ _ _ _ k ins c} stands headed missed _ => by
    obtain ⟨result,searched,told⟩ := stands.searched headed k
    cases result with
    | ok idx =>
      obtain ⟨c,here,known⟩ := told
      simp only [L2.level,L2.findChild,searched,here,Option.bind_eq_bind,Option.bind_some,Option.pure_def] at missed
      cases missed
    | error ins' =>
      simp only [L2.level,L2.findChild,searched,Option.bind_eq_bind,Option.bind_some,Option.pure_def] at missed
      cases missed
      exact ⟨_,if_pos told.2.1,told.2.2 c⟩
  only := fun _ => ⟨_,rfl,sortedPtrs_single _ _⟩
  both := L2.both_sorted

namespace L3
variable {heap : Heap Children} {v : List Ptr} {children : Children} {child : Key → Option Ptr} {k : Key} {c : Ptr}

def Stands : Children → (Key → Option Ptr) → Prop
  | .small v,child => SortedPtrs v child
  | .large m,child => ∀ k, m.lookup k = child k

-- Induction on the vector: what is inserted reads back as the map has it.
theorem upgrade_lookup (headed : Headed heap child) {keys : List Key} (aligned : v.map some = keys.map child)
    (map : AList fun _ : Key => Ptr) :
    ∃ m, v.foldlM (fun map ptr => (heap.headOf ptr).map fun key => map.insert key ptr) map = some m ∧
      ∀ k, m.lookup k = if k ∈ keys then child k else map.lookup k := by
  induction v generalizing keys map with
  | nil =>
    cases keys with
    | nil => exact ⟨map,rfl,fun k => by simp⟩
    | cons key keys => cases aligned
  | cons p v ih =>
    cases keys with
    | nil => cases aligned
    | cons key keys =>
      rw [List.map_cons,List.map_cons,List.cons.injEq] at aligned
      obtain ⟨here,rest⟩ := aligned
      obtain ⟨m,folded,reads⟩ := ih rest (map.insert key p)
      refine ⟨m,?_,fun k => ?_⟩
      · rw [List.foldlM_cons,headed key p here.symm]
        exact folded
      · rw [reads]
        by_cases later : k ∈ keys
        · rw [if_pos later,if_pos (List.mem_cons_of_mem key later)]
        · rw [if_neg later]
          by_cases same : k = key
          · subst same
            rw [AList.lookup_insert,if_pos List.mem_cons_self,← here]
          · rw [AList.lookup_insert_ne same,if_neg (fun member => (List.mem_cons.mp member).elim same later)]

theorem upgrade_stands (stands : SortedPtrs v child) (headed : Headed heap child) :
    ∃ m, upgrade heap v = some m ∧ ∀ k, m.lookup k = child k := by
  obtain ⟨keys,_,aligned,whole⟩ := stands
  obtain ⟨m,folded,reads⟩ := upgrade_lookup headed aligned ∅
  refine ⟨m,folded,fun k => ?_⟩
  rw [reads]
  split
  · rfl
  · rename_i absent
    apply Classical.byContradiction
    intro differs
    exact absent (whole k fun unknown => differs (by rw [unknown]; rfl))

theorem lookup_insert {m : AList fun _ : Key => Ptr} (reads : ∀ k, m.lookup k = child k) (k : Key) (c : Ptr) :
    ∀ other, (m.insert k c).lookup other = Function.update child k (some c) other := by
  intro other
  by_cases here : other = k
  · subst here
    rw [AList.lookup_insert,Function.update_self]
  · rw [AList.lookup_insert_ne here,Function.update_of_ne here,reads]

theorem insertChild_stands (stands : Stands children child) (unknown : child k = none)
    (headed : Headed heap (Function.update child k (some c))) :
    ∃ children', insertChild heap children c = some children' ∧ Stands children' (Function.update child k (some c)) := by
  have begins : heap.headOf c = some k := headed k c (Function.update_self ..)
  have before : Headed heap child := fun k' p known => by
    have other : k' ≠ k := fun same => by rw [same,unknown] at known; cases known
    exact headed k' p (by rw [Function.update_of_ne other,known])
  rw [insertChild,begins]
  cases children with
  | large m => exact ⟨_,rfl,lookup_insert stands k c⟩
  | small v =>
    simp only [Option.bind_eq_bind,Option.bind_some]
    by_cases full : smallMax ≤ v.length
    · obtain ⟨m,upgraded,reads⟩ := upgrade_stands stands before
      rw [if_pos full,upgraded]
      exact ⟨_,rfl,lookup_insert reads k c⟩
    · obtain ⟨result,searched,told⟩ := SortedPtrs.searched stands before k
      rw [if_neg full,searched]
      cases result with
      | ok idx =>
        obtain ⟨_,_,known⟩ := told
        rw [unknown] at known
        cases known
      | error ins => exact ⟨_,rfl,told.2.2 c⟩

theorem findChild_stands (stands : Stands children child) (headed : Headed heap child) (k : Key) :
    ∃ result, findChild heap children k = some result ∧ FindsAt child k result := by
  cases children with
  | small v =>
    obtain ⟨result,searched,told⟩ := SortedPtrs.searched stands headed k
    cases result with
    | ok idx =>
      obtain ⟨c,here,known⟩ := told
      exact ⟨.ok c,by simp only [findChild,searched,here,Option.bind_eq_bind,Option.bind_some,Option.pure_def],known⟩
    | error ins => exact ⟨.error (),by simp only [findChild,searched,Option.bind_eq_bind,Option.bind_some,Option.pure_def],told.1⟩
  | large m =>
    have reads : m.lookup k = child k := stands k
    cases known : child k with
    | none => exact ⟨.error (),by simp only [findChild,reads,known],known⟩
    | some c => exact ⟨.ok c,by simp only [findChild,reads,known],known⟩

theorem stands_new : Stands (.small []) fun _ => none := sortedPtrs_nil

theorem headed_only {suffix : Ptr} {first : Key} (begins : heap.headOf suffix = some first) :
    Headed heap (Function.update (fun _ => none) first (some suffix)) := by
  intro k p known
  by_cases here : k = first
  · subst here
    rw [Function.update_self] at known
    cases known
    exact begins
  · rw [Function.update_of_ne here] at known
    cases known

theorem level_correct : level.Correct Stands where
  fresh := stands_new
  finds := findChild_stands
  grown := fun {heap _ children child k ins c} stands headed missed headed' => by
    obtain ⟨result,searched,finds⟩ := findChild_stands stands headed k
    rw [show findChild heap children k = some (.error ins) from missed] at searched
    cases Option.some.inj searched
    exact insertChild_stands stands finds headed'
  only := fun begins => insertChild_stands stands_new rfl (headed_only begins)
  both := fun {heap suffix leaf first k} begins starts apart => by
    obtain ⟨one,first_in,stands⟩ := insertChild_stands stands_new rfl (headed_only begins)
    have unknown : Function.update (fun _ => none) first (some suffix) k = none := Function.update_of_ne (Ne.symm apart) _ _
    have headed : Headed heap (Function.update (Function.update (fun _ => none) first (some suffix)) k (some leaf)) := by
      intro key p known
      by_cases here : key = k
      · subst here
        rw [Function.update_self] at known
        cases known
        exact starts
      · rw [Function.update_of_ne here] at known
        exact headed_only begins key p known
    obtain ⟨two,second_in,stands'⟩ := insertChild_stands stands unknown headed
    refine ⟨two,?_,stands'⟩
    simp only [level,first_in,second_in,Option.bind_eq_bind,Option.bind_some]

end L3

def Pointed {χ : Type} (indexes : χ → (Key → Option Ptr) → Prop) (heap : Heap χ) (roots : χ) (F : Forest Key Key) : Prop :=
  ∃ R, OwnedForest indexes heap roots F R

theorem L2.refines : Refines L2.RadixTreeMap fun tree => Pointed SortedPtrs tree.heap tree.roots where
  new := ⟨_,owned_empty sortedPtrs_nil _⟩
  insert := by
    rintro ⟨heap,roots⟩ F key payload ⟨R,owned⟩ valid filled paired
    obtain ⟨heap',roots',R',inserted,after⟩ := L2.level_correct.insert_refines owned valid filled paired
    exact ⟨⟨heap',roots'⟩,by rw [RadixTree.insert]; exact congrArg (Option.map _) inserted,R',after⟩
  prefixLen := fun ⟨_,owned⟩ valid query => L2.level_correct.prefixLen_refines owned valid query

theorem L3.refines : Refines L3.RadixTreeMap fun tree => Pointed L3.Stands tree.heap tree.roots where
  new := ⟨_,owned_empty L3.stands_new _⟩
  insert := by
    rintro ⟨heap,roots⟩ F key payload ⟨R,owned⟩ valid filled paired
    obtain ⟨heap',roots',R',inserted,after⟩ := L3.level_correct.insert_refines owned valid filled paired
    exact ⟨⟨heap',roots'⟩,by rw [RadixTree.insert]; exact congrArg (Option.map _) inserted,R',after⟩
  prefixLen := fun ⟨_,owned⟩ valid query => L3.level_correct.prefixLen_refines owned valid query

-- Every level answers with the largest prefix the query shares with an inserted
-- key, and so all of them answer alike.
theorem ladder_longest_match (entries : List (List Key × List Key))
    (legal : ∀ entry ∈ entries, entry.1 ≠ [] ∧ entry.2.length = entry.1.length) :
    LongestMatch L0.RadixTreeMap entries (longest (entries.map Prod.fst)) ∧
      LongestMatch Verified.RadixTreeMap entries (longest (entries.map Prod.fst)) ∧
      LongestMatch L1.RadixTreeMap entries (longest (entries.map Prod.fst)) ∧
      LongestMatch L2.RadixTreeMap entries (longest (entries.map Prod.fst)) ∧
      LongestMatch L3.RadixTreeMap entries (longest (entries.map Prod.fst)) :=
  ⟨L0.refines.longestMatch legal,Verified.refines.longestMatch legal,L1.refines.longestMatch legal,L2.refines.longestMatch legal,
    L3.refines.longestMatch legal⟩

def splitEntries : List (List Key × List Key) := [([4,1,2],[0,0,0]),([3,1],[0,0]),([4,1,7,8],[0,0,0,0]),([4],[0])]

theorem ladder_longest_match_split : longest (splitEntries.map Prod.fst) [4,1,7,9] = 3 ∧
    LongestMatch L3.RadixTreeMap splitEntries (longest (splitEntries.map Prod.fst)) :=
  ⟨by decide,(ladder_longest_match splitEntries (by decide)).2.2.2.2⟩

end BlitzRouter.Lowering
