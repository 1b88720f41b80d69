import BlitzRouter.LoweringBoxes
import BlitzRouter.LoweringPointers

namespace BlitzRouter.Lowering
open CommonPrefix

def FindsAt {ι : Type} (child : Key → Option Ptr) (k : Key) : Except ι Ptr → Prop
  | .ok c => child k = some c
  | .error _ => child k = none

-- The cells of the children begin with the symbol they are filed under.
def Headed {χ : Type} (heap : Heap χ) (child : Key → Option Ptr) : Prop := ∀ k c, child k = some c → heap.headOf c = some k

-- What a level must do for the trie to come out right, with how its store of
-- children stands for a map from first symbols.
structure CellLevel.Correct {χ ι : Type} (level : CellLevel χ ι) (indexes : χ → (Key → Option Ptr) → Prop) : Prop where
  fresh : indexes level.fresh fun _ => none
  finds : ∀ {heap children child}, indexes children child → Headed heap child → ∀ k,
    ∃ result, level.findChild heap children k = some result ∧ FindsAt child k result
  grown : ∀ {heap heap' children child k ins c}, indexes children child → Headed heap child →
    level.findChild heap children k = some (.error ins) → Headed heap' (Function.update child k (some c)) →
    ∃ children', level.insertChild heap' children ins c = some children' ∧ indexes children' (Function.update child k (some c))
  only : ∀ {heap suffix first}, heap.headOf suffix = some first →
    ∃ children, level.only heap suffix = some children ∧ indexes children (Function.update (fun _ => none) first (some suffix))
  both : ∀ {heap suffix leaf first k}, heap.headOf suffix = some first → heap.headOf leaf = some k → first ≠ k →
    ∃ children, level.both heap suffix leaf = some children ∧
      indexes children (Function.update (Function.update (fun _ => none) first (some suffix)) k (some leaf))

namespace CellLevel.Correct
variable {χ ι : Type} {level : CellLevel χ ι} {indexes : χ → (Key → Option Ptr) → Prop} {heap : Heap χ} {key payload : List Key}

mutual
theorem forestPrefixLen_refines (correct : level.Correct indexes) {children : χ} {F : Forest Key Key} {R : Set Nat}
    (owned : OwnedForest indexes heap children F R) (valid : F.Valid) (query : List Key) (offset : Nat) :
    level.forestPrefixLen heap children query offset = some (offset+F.prefixLen (query.drop offset)) := by
  rw [CellLevel.forestPrefixLen]
  by_cases inside : offset < query.length
  · have head : (query.drop offset).head? = some (query[offset]) := by rw [List.head?_drop,List.getElem?_eq_getElem inside]
    obtain ⟨child,region,indexed,filed,_⟩ := owned
    obtain ⟨result,searched,finds⟩ := correct.finds indexed (fun k c known => filed.headed valid known) (query[offset])
    rw [dif_pos inside,searched,Option.bind_eq_bind,Option.bind_some]
    cases result with
    | error ins =>
      rw [Forest.prefixLen_absent head (filed.missing finds)]
      rfl
    | ok c =>
      obtain ⟨t,found,below⟩ := filed.found finds
      simp only
      rw [nodePrefixLen_refines correct below (valid _ _ found) inside head,Forest.prefixLen,head]
      simp only [found]
  · rw [dif_neg inside,List.drop_eq_nil_of_le (Nat.le_of_not_lt inside),Forest.prefixLen_nil]
    rfl
termination_by (query.length-offset,1)

theorem nodePrefixLen_refines (correct : level.Correct indexes) {p : Ptr} {t : Branch Key Key} {R : Set Nat} {k : Key}
    (owned : OwnedAt indexes heap p t R) (valid : t.Valid k) {query : List Key} {offset : Nat} (inside : offset < query.length)
    (head : (query.drop offset).head? = some k) :
    level.nodePrefixLen heap p query offset inside = some (offset+t.prefixLen (query.drop offset)) := by
  obtain ⟨children,R',here,below,_⟩ := owned.cell
  have shared := agreeFrom_one t.value query offset
  have moved := le_agreeFrom t.value query offset 1
  have bounds := sharedLen_eq valid.head head
  have left := commonLen_le_left t.value (query.drop offset)
  have right := commonLen_le_right t.value (query.drop offset)
  rw [← bounds,← shared] at left right
  rw [List.length_drop] at right
  rw [CellLevel.nodePrefixLen,here,Option.bind_eq_bind,Option.bind_some,Branch.prefixLen,← shared,List.drop_drop,List.length_drop]
  by_cases stops : agreeFrom t.value query offset 1 < t.value.length
  · rw [if_pos stops,if_neg (by omega)]
    rfl
  · have deeper := forestPrefixLen_refines correct below valid.beneath query (offset+agreeFrom t.value query offset 1)
    rw [if_neg stops,deeper]
    by_cases more : agreeFrom t.value query offset 1 < query.length-offset
    · rw [if_pos ⟨Nat.le_of_not_lt stops,more⟩,Nat.add_assoc]
    · rw [if_neg (fun both => more both.2),List.drop_eq_nil_of_le (by omega),Forest.prefixLen_nil]
      rfl
termination_by (query.length-offset,0)
decreasing_by
  refine Prod.Lex.left _ _ ?_
  omega
end

-- The rest of `node_insert` once the cell is read and the shared length known.
def insertAfter (level : CellLevel χ ι) (heap : Heap χ) (p : Ptr) (cell : Cell Key Key χ) (key payload : List Key) (offset common : Nat) :
    Option (Heap χ) :=
  if common = cell.value.length ∧ offset+common = key.length then do
    return heap.write p {cell with payload := ← copyPayload payload offset cell.value.length cell.payload}
  else if common = cell.value.length then do
    let (heap,children) ← level.forestInsert heap cell.children key payload (offset+common)
    let n ← heap.read p
    return heap.write p {n with children := children}
  else do
    let lower : Cell Key Key χ := ⟨← sliceFrom cell.value common,← sliceFrom cell.payload common,cell.children⟩
    let upper : Cell Key Key χ := ⟨cell.value.take common,cell.payload.take common,level.fresh⟩
    let halved := (heap.write p upper).alloc lower
    if offset+common < key.length then
      let (heap',leaf) ← level.allocLeaf halved key payload (offset+common)
      return heap'.write p {upper with children := ← level.both heap' heap.next leaf}
    else return halved.write p {upper with children := ← level.only halved heap.next}

theorem nodeInsert_eq {p : Ptr} {cell : Cell Key Key χ} (here : heap.read p = some cell) {offset : Nat} (inside : offset < key.length) :
    level.nodeInsert heap p key payload offset inside =
      insertAfter level heap p cell key payload offset (agreeFrom cell.value key offset 1) := by
  rw [CellLevel.nodeInsert,here]
  rfl

-- A heap after a node was cut: its own cell, the cell of its lower half, and
-- the rest as it was.
structure Cut (heap final : Heap χ) (p : Ptr) (upper lower : Cell Key Key χ) : Prop where
  grows : heap.next ≤ final.next
  top : final.read p = some upper
  bottom : final.read heap.next = some lower
  kept : ∀ q, q < heap.next → q ≠ p → final.read q = heap.read q

variable {final : Heap χ} {p : Ptr} {upper lower : Cell Key Key χ}

theorem Cut.halved {cell : Cell Key Key χ} (here : heap.read p = some cell) (upper lower : Cell Key Key χ) :
    Cut heap ((heap.write p upper).alloc lower) p upper lower := by
  have bound := Arena.read_bound here
  refine ⟨by rw [Arena.next_alloc,Arena.next_write]; exact Nat.le_succ _,?_,?_,fun q before other => ?_⟩
  · rw [Arena.read_alloc,Arena.next_write,Function.update_of_ne (Nat.ne_of_lt bound),Arena.read_write _ here,Function.update_self]
  · rw [Arena.read_alloc,Arena.next_write,Function.update_self]
  · rw [Arena.read_alloc,Arena.next_write,Function.update_of_ne (Nat.ne_of_lt before),heap.read_write_ne here other]

theorem Cut.alloc (cut : Cut heap final p upper lower) (bound : p < heap.next) (more : heap.next < final.next) (leaf : Cell Key Key χ) :
    Cut heap (final.alloc leaf) p upper lower := by
  refine ⟨by rw [Arena.next_alloc]; exact Nat.le_succ_of_le cut.grows,?_,?_,fun q before other => ?_⟩
  · rw [Arena.read_alloc,Function.update_of_ne (Nat.ne_of_lt (Nat.lt_trans bound more)),cut.top]
  · rw [Arena.read_alloc,Function.update_of_ne (Nat.ne_of_lt more),cut.bottom]
  · rw [Arena.read_alloc,Function.update_of_ne (Nat.ne_of_lt (Nat.lt_trans before more)),cut.kept q before other]

theorem Cut.write (cut : Cut heap final p upper lower) (bound : p < heap.next) (upper' : Cell Key Key χ) :
    Cut heap (final.write p upper') p upper' lower := by
  refine ⟨by rw [Arena.next_write]; exact cut.grows,?_,?_,fun q before other => ?_⟩
  · rw [Arena.read_write _ cut.top,Function.update_self]
  · rw [final.read_write_ne cut.top (Nat.ne_of_gt bound),cut.bottom]
  · rw [final.read_write_ne cut.top other,cut.kept q before other]

theorem Cut.head_bottom (cut : Cut heap final p upper lower) {k : Key} (head : lower.value.head? = some k) :
    final.headOf heap.next = some k := by
  rw [Arena.headOf,cut.bottom]
  exact head

-- The lower half keeps what the node owned.
theorem Cut.filed {R₀ : Set Nat} {children : χ} (suffix : Branch Key Key) (cut : Cut heap final p upper ⟨suffix.value,suffix.payload,children⟩)
    (below : OwnedForest indexes heap children suffix.children R₀) (outside : p ∉ R₀) (first : Key) :
    ∃ region, Filed indexes final (Forest.empty.push first suffix) (Function.update (fun _ => none) first (some heap.next)) region ∧
      ∀ q ∈ ⋃ k, region k, q ∈ R₀ ∨ q = heap.next := by
  have unowned : heap.next ∉ R₀ := fun member => Nat.lt_irrefl _ (below.bounded _ member)
  have still := below.frame fun q member => cut.kept q (below.bounded q member) fun same => outside (same ▸ member)
  refine ⟨_,(filed_empty final).placed (OwnedAt.of cut.bottom still unowned) (fun _ _ _ member => nomatch member)
    (fun _ _ => Set.disjoint_empty _),fun q member => ?_⟩
  rcases mem_iUnion_update member with here | nowhere
  · exact (Set.mem_insert_iff.mp here).symm
  · rw [Set.iUnion_empty] at nowhere
    cases nowhere

-- The node owns its two halves with what was allocated.
theorem Cut.owned {R₀ : Set Nat} {value old : List Key} {children : χ} {F : Forest Key Key} {child : Key → Option Ptr} {region : Key → Set Nat}
    (cut : Cut heap final p ⟨value,old,children⟩ lower) (bound : p < heap.next) (outside : p ∉ R₀) (indexed : indexes children child)
    (filed : Filed indexes final F child region) (within : ∀ q ∈ ⋃ k, region k, q ∈ R₀ ∨ heap.next ≤ q) :
    ∃ R', OwnedAt indexes final p (.node value old F) R' ∧ Touches heap final (Insert.insert p R₀) R' := by
  have unowned : p ∉ ⋃ k, region k := fun member => (within p member).elim outside fun fresh => Nat.lt_irrefl _ (Nat.lt_of_lt_of_le bound fresh)
  refine ⟨_,OwnedAt.of (t := .node value old F) cut.top ⟨child,region,indexed,filed,rfl⟩ unowned,cut.grows,fun q before away => ?_,fun q member => ?_⟩
  · exact cut.kept q before fun same => away (same ▸ Set.mem_insert ..)
  · rcases Set.mem_insert_iff.mp member with rfl | deeper
    · exact .inl (Set.mem_insert ..)
    · exact (within q deeper).imp_left (Set.mem_insert_of_mem _)

mutual
theorem forestInsert_refines (correct : level.Correct indexes) {heap : Heap χ} {children : χ} {F : Forest Key Key} {R : Set Nat}
    (owned : OwnedForest indexes heap children F R) (valid : F.Valid) (paired : payload.length = key.length) {offset : Nat}
    (inside : offset < key.length) :
    ∃ heap' children' R', level.forestInsert heap children key payload offset = some (heap',children') ∧
      OwnedForest indexes heap' children' (F.insert (key.drop offset) (payload.drop offset)) R' ∧ Touches heap heap' R R' := by
  have head : (key.drop offset).head? = some (key[offset]) := by rw [List.head?_drop,List.getElem?_eq_getElem inside]
  have lengths : (payload.drop offset).length = (key.drop offset).length := by rw [List.length_drop,List.length_drop,paired]
  obtain ⟨child,region,indexed,filed,rfl⟩ := owned
  have headed : Headed heap child := fun k c known => filed.headed valid known
  obtain ⟨result,searched,finds⟩ := correct.finds indexed headed (key[offset])
  rw [CellLevel.forestInsert,dif_pos inside,searched,Option.bind_eq_bind,Option.bind_some,Forest.insert,head]
  cases result with
  | error ins =>
    have unknown : child (key[offset]) = none := finds
    have grown : (heap.alloc ⟨key.drop offset,payload.drop offset,level.fresh⟩).read heap.next =
        some ⟨key.drop offset,payload.drop offset,level.fresh⟩ := by
      rw [Arena.read_alloc,Function.update_self]
    have touches : Touches heap (heap.alloc ⟨key.drop offset,payload.drop offset,level.fresh⟩) (region (key[offset])) (Insert.insert heap.next ∅) := by
      refine ⟨by rw [Arena.next_alloc]; exact Nat.le_succ _,fun q bound _ => ?_,fun q member => .inr ?_⟩
      · rw [Arena.read_alloc,Function.update_of_ne (Nat.ne_of_lt bound)]
      · rcases Set.mem_insert_iff.mp member with rfl | nothing
        · exact Nat.le_refl _
        · cases nothing
    have leaf : OwnedAt indexes (heap.alloc ⟨key.drop offset,payload.drop offset,level.fresh⟩) heap.next
        (.leaf (key.drop offset) (payload.drop offset)) (Insert.insert heap.next ∅) :=
      OwnedAt.of grown (owned_empty correct.fresh _) (Set.notMem_empty _)
    have pushed := filed.pushed touches leaf
    have stands := valid.push (Branch.valid_leaf head lengths)
    obtain ⟨children',added,indexed'⟩ := correct.grown indexed headed searched fun k c known => pushed.headed stands known
    simp only [CellLevel.allocLeaf,sliceFrom_eq (Nat.le_of_lt inside),sliceFrom_eq (show offset ≤ payload.length by omega),
      Option.bind_eq_bind,Option.bind_some,Option.pure_def,added,filed.missing unknown]
    exact ⟨_,_,_,rfl,⟨_,_,indexed',pushed,rfl⟩,touches.update⟩
  | ok c =>
    obtain ⟨t,found,below⟩ := filed.found finds
    obtain ⟨heap',R',inserted,after,touches⟩ := nodeInsert_refines correct below ⟨valid _ _ found,head,lengths⟩ paired inside
    have pushed := filed.pushed touches after
    have same : Function.update child (key[offset]) (some c) = child := by
      rw [← show child (key[offset]) = some c from finds,Function.update_eq_self]
    rw [same] at pushed
    simp only [inserted,found,Option.bind_eq_bind,Option.bind_some,Option.pure_def]
    exact ⟨_,_,_,rfl,⟨_,_,indexed,pushed,rfl⟩,touches.update⟩
termination_by (key.length-offset,1)

theorem nodeInsert_refines (correct : level.Correct indexes) {heap : Heap χ} {p : Ptr} {t : Branch Key Key} {R : Set Nat} {k : Key}
    {offset : Nat} (owned : OwnedAt indexes heap p t R) (meets : t.Meets k (key.drop offset) (payload.drop offset))
    (paired : payload.length = key.length) (inside : offset < key.length) :
    ∃ heap' R', level.nodeInsert heap p key payload offset inside = some heap' ∧
      OwnedAt indexes heap' p (t.insert (key.drop offset) (payload.drop offset)) R' ∧ Touches heap heap' R R' := by
  obtain ⟨children,R₀,here,below,outside,rfl⟩ := owned.cell
  obtain ⟨value,old,kids⟩ := t
  have moved := le_agreeFrom value key offset 1
  have shared : agreeFrom value key offset 1 = commonLen value (key.drop offset) := (agreeFrom_one value key offset).trans meets.shared
  have left : commonLen value (key.drop offset) ≤ value.length := commonLen_le_left _ _
  have right : commonLen value (key.drop offset) ≤ (key.drop offset).length := commonLen_le_right _ _
  have width : old.length = value.length := meets.valid.paired
  have bound := Arena.read_bound here
  rw [List.length_drop] at right
  rw [nodeInsert_eq here,Branch.insert,meets.shared]
  simp only [Branch.value,Branch.payload,Branch.children,List.drop_drop,List.length_drop]
  rw [← shared] at left right ⊢
  generalize agreeFrom value key offset 1 = common at moved shared left right ⊢
  by_cases cut : common < value.length
  · obtain ⟨first,lower⟩ := meets.suffix (by simpa only [Branch.value,← shared] using cut)
    have apart := parted lower.head
    simp only [Branch.value,Branch.payload,Branch.children,List.drop_drop,← shared] at lower apart
    rw [insertAfter,if_neg (show ¬(common = value.length ∧ offset+common = key.length) by omega),
      if_neg (show ¬common = value.length by omega),if_pos cut,sliceFrom_eq left,sliceFrom_eq (show common ≤ old.length by omega)]
    simp only [Option.bind_eq_bind,Option.bind_some]
    have halved := Cut.halved here (⟨value.take common,old.take common,level.fresh⟩ : Cell Key Key χ) ⟨value.drop common,old.drop common,children⟩
    by_cases more : offset+common < key.length
    · have started : (key.drop (offset+common)).head? = some (key[offset+common]) := by
        rw [List.head?_drop,List.getElem?_eq_getElem more]
      have differs : first ≠ key[offset+common] := fun same => apart (by rw [started,same])
      let leafCell : Cell Key Key χ := ⟨key.drop (offset+common),payload.drop (offset+common),level.fresh⟩
      let halvedHeap := (heap.write p ⟨value.take common,old.take common,level.fresh⟩).alloc ⟨value.drop common,old.drop common,children⟩
      have next : halvedHeap.next = heap.next+1 := by rw [Arena.next_alloc,Arena.next_write]
      have grown := halved.alloc bound (by rw [next]; exact Nat.lt_succ_self _) leafCell
      have leafRead : (halvedHeap.alloc leafCell).read halvedHeap.next = some leafCell := by rw [Arena.read_alloc,Function.update_self]
      have leafHead : (halvedHeap.alloc leafCell).headOf halvedHeap.next = some (key[offset+common]) := by
        rw [Arena.headOf,leafRead]
        exact started
      obtain ⟨children',made,indexed⟩ := correct.both (grown.head_bottom lower.head) leafHead differs
      have cut' := grown.write bound ⟨value.take common,old.take common,children'⟩
      have leafStill : ((halvedHeap.alloc leafCell).write p ⟨value.take common,old.take common,children'⟩).read halvedHeap.next = some leafCell :=
        ((halvedHeap.alloc leafCell).read_write_ne grown.top (show halvedHeap.next ≠ p by omega)).trans leafRead
      obtain ⟨region,filed,within⟩ := Cut.filed (.node _ _ kids) cut' below outside first
      have leaf := OwnedAt.of (t := .leaf (key.drop (offset+common)) (payload.drop (offset+common))) leafStill (owned_empty correct.fresh _)
        (Set.notMem_empty _)
      have both := filed.placed (k := key[offset+common]) leaf (fun _ _ _ _ => rfl) fun k' _ => Set.disjoint_left.mpr fun q isLeaf member => by
        rcases Set.mem_insert_iff.mp isLeaf with rfl | nothing
        · rcases within _ (Set.mem_iUnion.mpr ⟨k',member⟩) with old | same
          · have := below.bounded _ old
            omega
          · omega
        · cases nothing
      obtain ⟨R',owned',touches⟩ := cut'.owned bound outside indexed both fun q member => by
        rcases mem_iUnion_update member with isLeaf | upper
        · rcases Set.mem_insert_iff.mp isLeaf with rfl | nothing
          · exact .inr (by omega)
          · cases nothing
        · exact (within q upper).imp_right fun same => Nat.le_of_eq same.symm
      refine ⟨_,R',?_,?_,touches⟩
      · rw [if_pos more,CellLevel.allocLeaf,sliceFrom_eq (Nat.le_of_lt more),sliceFrom_eq (show offset+common ≤ payload.length by omega)]
        simp only [Option.bind_eq_bind,Option.bind_some,Option.pure_def]
        rw [show level.both _ _ _ = _ from made]
        rfl
      · rw [Forest.pair,started,lower.head]
        exact owned'
    · have ends : key.drop (offset+common) = [] := List.drop_eq_nil_of_le (Nat.le_of_not_lt more)
      have rest : payload.drop (offset+common) = [] := List.drop_eq_nil_of_le (by omega)
      obtain ⟨children',made,indexed⟩ := correct.only (halved.head_bottom lower.head)
      have cut' := halved.write bound ⟨value.take common,old.take common,children'⟩
      obtain ⟨region,filed,within⟩ := Cut.filed (.node _ _ kids) cut' below outside first
      obtain ⟨R',owned',touches⟩ := cut'.owned bound outside indexed filed fun q member => (within q member).imp_right (fun same => Nat.le_of_eq same.symm)
      refine ⟨_,R',by rw [if_neg more,made]; rfl,?_,touches⟩
      rw [Forest.pair,ends,rest,lower.head]
      exact owned'
  · have whole : common = value.length := by omega
    by_cases more : offset+common < key.length
    · obtain ⟨heap₁,children',R₁,inserted,after,touches⟩ := forestInsert_refines correct below meets.valid.beneath paired more
      have still := (touches.kept p bound outside).trans here
      have unowned : p ∉ R₁ := fun member => (touches.inside p member).elim outside fun fresh => Nat.lt_irrefl _ (Nat.lt_of_lt_of_le bound fresh)
      rw [insertAfter,if_neg (show ¬(common = value.length ∧ offset+common = key.length) by omega),if_pos whole,if_neg cut,
        if_pos (show common < key.length-offset by omega)]
      simp only [inserted,still,Option.bind_eq_bind,Option.bind_some]
      refine ⟨_,_,rfl,OwnedAt.of (by rw [Arena.read_write _ still,Function.update_self]; rfl) (after.frame fun q member => ?_) unowned,?_⟩
      · exact heap₁.read_write_ne still fun same => unowned (same ▸ member)
      · refine ⟨Nat.le_trans touches.grows (Nat.le_of_eq (Arena.next_write _ _ _).symm),fun q before away => ?_,fun q member => ?_⟩
        · rw [heap₁.read_write_ne still fun same => away (same ▸ Set.mem_insert ..)]
          exact touches.kept q before fun owned => away (Set.mem_insert_of_mem _ owned)
        · rcases Set.mem_insert_iff.mp member with rfl | deeper
          · exact .inl (Set.mem_insert ..)
          · exact (touches.inside q deeper).imp_left (Set.mem_insert_of_mem _)
    · rw [insertAfter,if_pos (show common = value.length ∧ offset+common = key.length by omega),if_neg cut,
        if_neg (show ¬common < key.length-offset by omega),copyPayload_eq width (by omega)]
      refine ⟨_,_,rfl,OwnedAt.of (by rw [Arena.read_write _ here,Function.update_self]; rfl) (below.frame fun q member => ?_) outside,
        touches_write here _ _⟩
      exact heap.read_write_ne here fun same => outside (same ▸ member)
termination_by (key.length-offset,0)
decreasing_by
  refine Prod.Lex.left _ _ ?_
  omega
end

theorem insert_refines (correct : level.Correct indexes) {heap : Heap χ} {roots : χ} {F : Forest Key Key} {R : Set Nat}
    (owned : OwnedForest indexes heap roots F R) (valid : F.Valid) (filled : key ≠ []) (paired : payload.length = key.length) :
    ∃ heap' roots' R', level.insert heap roots key payload = some (heap',roots') ∧ OwnedForest indexes heap' roots' (F.insert key payload) R' := by
  obtain ⟨heap',roots',R',inserted,after,_⟩ := forestInsert_refines correct owned valid paired (List.length_pos_of_ne_nil filled)
  rw [CellLevel.insert,if_pos ⟨filled,paired.symm⟩]
  exact ⟨heap',roots',R',inserted,after⟩

theorem prefixLen_refines (correct : level.Correct indexes) {heap : Heap χ} {roots : χ} {F : Forest Key Key} {R : Set Nat}
    (owned : OwnedForest indexes heap roots F R) (valid : F.Valid) (query : List Key) :
    level.forestPrefixLen heap roots query 0 = some (F.prefixLen query) := by
  simpa using forestPrefixLen_refines correct owned valid query 0

end CellLevel.Correct

end BlitzRouter.Lowering
