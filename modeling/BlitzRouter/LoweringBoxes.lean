import BlitzRouter.LoweringLevels
import Mathlib.Data.List.InsertIdx

namespace BlitzRouter.Lowering
open CommonPrefix

theorem agreeFrom_eq (value key : List Key) (offset i : Nat) :
    agreeFrom value key offset i = i+commonLen (value.drop i) (key.drop (offset+i)) := by
  fun_induction agreeFrom value key offset i with
  | case1 i inside same ih =>
    obtain ⟨left,right⟩ := inside
    rw [List.getElem?_eq_getElem left,List.getElem?_eq_getElem right] at same
    rw [ih,show offset+(i+1) = offset+i+1 from rfl,List.drop_eq_getElem_cons left,List.drop_eq_getElem_cons right,commonLen,if_pos (Option.some.inj same)]
    omega
  | case2 i inside differs =>
    obtain ⟨left,right⟩ := inside
    rw [List.getElem?_eq_getElem left,List.getElem?_eq_getElem right] at differs
    rw [List.drop_eq_getElem_cons left,List.drop_eq_getElem_cons right,commonLen,if_neg (fun same => differs (congrArg some same))]
    rfl
  | case3 i outside =>
    by_cases left : i < value.length
    · have ends : key.drop (offset+i) = [] := List.drop_eq_nil_of_le (Nat.le_of_not_lt fun right => outside ⟨left,right⟩)
      rw [ends,commonLen_nil_right,Nat.add_zero]
    · rw [List.drop_eq_nil_of_le (Nat.le_of_not_lt left),commonLen_nil_left,Nat.add_zero]

theorem agreeFrom_one (value key : List Key) (offset : Nat) : agreeFrom value key offset 1 = sharedLen value (key.drop offset) := by
  rw [agreeFrom_eq,sharedLen,List.drop_one,List.tail_drop,Nat.add_comm]

theorem copyPayload_eq {payload old : List Key} {offset vlen : Nat} (same : old.length = vlen) (ends : payload.length = offset+vlen) :
    copyPayload payload offset vlen old = some (payload.drop offset) := by
  have prefixes : ∀ n, n ≤ vlen → copyPayload payload offset n old = some ((payload.drop offset).take n++old.drop n) := by
    intro n
    induction n with
    | zero => exact fun _ => rfl
    | succ n ih =>
      intro bound
      have inside : n < old.length := by omega
      have source : offset+n < payload.length := by omega
      have width : ((payload.drop offset).take n).length = n := by
        rw [List.length_take,List.length_drop]
        omega
      have step := ih (by omega)
      rw [copyPayload] at step ⊢
      rw [List.range_succ,List.foldlM_append,step]
      simp only [Option.bind_eq_bind,Option.bind_some,List.foldlM_cons,List.foldlM_nil,List.length_append,width,List.length_drop]
      rw [if_pos (by omega),List.getElem?_eq_getElem source]
      refine congrArg some ?_
      rw [List.set_append_right _ _ (Nat.le_of_eq width),width,Nat.sub_self,List.drop_eq_getElem_cons inside,List.set_cons_zero,
        List.take_add_one,List.getElem?_drop,List.getElem?_eq_getElem source,List.append_assoc]
      rfl
  rw [prefixes vlen (Nat.le_refl _),List.drop_eq_nil_of_le (Nat.le_of_eq same),List.append_nil,List.take_of_length_le]
  rw [List.length_drop]
  omega

theorem sliceFrom_eq {source : List Key} {start : Nat} (bound : start ≤ source.length) : sliceFrom source start = some (source.drop start) := by
  rw [sliceFrom,if_pos bound]

theorem pushRange_eq {source : List Key} {start stop : Nat} (ends : stop = source.length) (bound : start ≤ stop) :
    pushRange source start stop = some (source.drop start) := by
  have pushed : ∀ n start, start+n = source.length → ((List.range' start n).mapM fun j => source[j]?) = some (source.drop start) := by
    intro n
    induction n with
    | zero =>
      intro start reached
      rw [List.drop_eq_nil_of_le (by omega)]
      rfl
    | succ n ih =>
      intro start reached
      have inside : start < source.length := by omega
      rw [List.range'_succ,List.mapM_cons,List.getElem?_eq_getElem inside,ih (start+1) (by omega),List.drop_eq_getElem_cons inside]
      rfl
  rw [pushRange]
  exact pushed _ _ (by omega)

-- The owned nodes as a value; among children that begin alike the first counts.
mutual
def Node.branch : Node → Branch Key Key
  | ⟨value,payload,children⟩ => .node value payload (branches children)
termination_by structural node => node

def branches : List Node → Forest Key Key
  | [],_ => none
  | c::rest,k => if c.value.head? = some k then some c.branch else branches rest k
termination_by structural forest => forest
end

@[simp] theorem branch_value (node : Node) : node.branch.value = node.value := by
  cases node
  rfl

@[simp] theorem branch_payload (node : Node) : node.branch.payload = node.payload := by
  cases node
  rfl

@[simp] theorem branch_children (node : Node) : node.branch.children = branches node.children := by
  cases node
  rfl

theorem children_valid {node : Node} {k : Key} (valid : node.branch.Valid k) : (branches node.children).Valid := by
  rw [← branch_children]
  exact valid.beneath

def Missing (forest : List Node) (k : Key) : Prop := ∀ c ∈ forest, c.value.head? ≠ some k

structure FirstAt (forest : List Node) (k : Key) (idx : Nat) (node : Node) : Prop where
  here : forest[idx]? = some node
  head : node.value.head? = some k
  earlier : Missing (forest.take idx) k

variable {forest : List Node} {k : Key} {idx : Nat} {node : Node}

theorem branches_missing (missing : Missing forest k) : branches forest k = none := by
  induction forest with
  | nil => rfl
  | cons c rest ih =>
    rw [branches,if_neg (missing c List.mem_cons_self)]
    exact ih fun d member => missing d (List.mem_cons_of_mem c member)

theorem branches_first (first : FirstAt forest k idx node) : branches forest k = some node.branch := by
  induction forest generalizing idx with
  | nil => cases first.here
  | cons c rest ih =>
    cases idx with
    | zero =>
      cases first.here
      rw [branches,if_pos first.head]
    | succ idx =>
      rw [branches,if_neg (first.earlier c List.mem_cons_self)]
      exact ih ⟨first.here,first.head,fun d member => first.earlier d (List.mem_cons_of_mem c member)⟩

theorem branches_set {new : Node} (first : FirstAt forest k idx node) (head : new.value.head? = some k) :
    branches (forest.set idx new) = (branches forest).push k new.branch := by
  funext other
  induction forest generalizing idx with
  | nil => cases first.here
  | cons c rest ih =>
    cases idx with
    | zero =>
      cases first.here
      rw [List.set_cons_zero,branches]
      by_cases same : other = k
      · subst same
        rw [if_pos head,Forest.push,Function.update_self]
      · rw [if_neg (fun claim => same (by rw [head] at claim; exact (Option.some.inj claim).symm)),Forest.push,
          Function.update_of_ne same,branches,if_neg (fun claim => same (by rw [first.head] at claim; exact (Option.some.inj claim).symm))]
    | succ idx =>
      have differs := first.earlier c List.mem_cons_self
      have behind := ih ⟨first.here,first.head,fun d member => first.earlier d (List.mem_cons_of_mem c member)⟩
      rw [List.set_cons_succ,branches,behind]
      by_cases same : other = k
      · subst same
        rw [if_neg differs,Forest.push,Function.update_self,Forest.push,Function.update_self]
      · rw [Forest.push,Function.update_of_ne same,Forest.push,Function.update_of_ne same,branches]

theorem branches_insertIdx {new : Node} (missing : Missing forest k) (bound : idx ≤ forest.length) (head : new.value.head? = some k) :
    branches (forest.insertIdx idx new) = (branches forest).push k new.branch := by
  funext other
  have here : ∀ forest : List Node, branches (new::forest) other = (branches forest).push k new.branch other := by
    intro forest
    rw [branches]
    by_cases same : other = k
    · subst same
      rw [if_pos head,Forest.push,Function.update_self]
    · rw [if_neg (fun claim => same (by rw [head] at claim; exact (Option.some.inj claim).symm)),Forest.push,Function.update_of_ne same]
  induction forest generalizing idx with
  | nil =>
    have zero : idx = 0 := Nat.le_zero.mp bound
    subst zero
    exact here []
  | cons c rest ih =>
    cases idx with
    | zero => exact here _
    | succ idx =>
      have differs := missing c List.mem_cons_self
      have behind := ih (fun d member => missing d (List.mem_cons_of_mem c member)) (Nat.le_of_succ_le_succ bound)
      rw [List.insertIdx_succ_cons,branches,behind]
      by_cases same : other = k
      · subst same
        rw [if_neg differs,Forest.push,Function.update_self,Forest.push,Function.update_self]
      · rw [Forest.push,Function.update_of_ne same,Forest.push,Function.update_of_ne same,branches]

def Finds (forest : List Node) (k : Key) : Except Nat Nat → Prop
  | .ok idx => ∃ node, FirstAt forest k idx node
  | .error ins => ins ≤ forest.length ∧ Missing forest k

-- What a level must do for the trie to come out right, with the order it keeps
-- its children in.
structure BoxLevel.Correct (level : BoxLevel) (Shape : List Node → Prop) : Prop where
  fresh : Shape []
  finds : ∀ {forest}, Shape forest → ∀ k, ∃ result, level.findChild forest k = some result ∧ Finds forest k result
  kept : ∀ {forest idx old new}, Shape forest → forest[idx]? = some old → new.value.head? = old.value.head? →
    level.putBack forest idx new = forest.set idx new ∧ Shape (forest.set idx new)
  grown : ∀ {forest k ins leaf}, Shape forest → level.findChild forest k = some (.error ins) → leaf.value.head? = some k →
    Shape (forest.insertIdx ins leaf)
  single : ∀ {suffix first}, suffix.value.head? = some first → Shape [suffix]
  arranged : ∀ {suffix leaf first k}, suffix.value.head? = some first → leaf.value.head? = some k → first ≠ k →
    ∃ children, level.arrange suffix leaf = some children ∧ Shape children ∧ (children = [suffix,leaf] ∨ children = [leaf,suffix])
  leafValue : ∀ {key offset}, offset ≤ key.length → level.leafValue key offset = some (key.drop offset)
  leafPayload : ∀ {key payload offset}, payload.length = key.length → offset ≤ key.length →
    level.leafPayload key payload offset = some (payload.drop offset)
  suffixOf : ∀ {source common vlen}, source.length = vlen → common ≤ vlen → level.suffixOf source common vlen = some (source.drop common)

-- The order holds among the children of every node.
inductive Node.Shaped (Shape : List Node → Prop) : Node → Prop where
  | node {value payload : List Key} {children : List Node} (order : Shape children) (deeper : ∀ c ∈ children, Shaped Shape c) :
      Shaped Shape ⟨value,payload,children⟩

structure Ordered (Shape : List Node → Prop) (forest : List Node) : Prop where
  order : Shape forest
  deeper : ∀ c ∈ forest, c.Shaped Shape

theorem Node.Shaped.children {Shape : List Node → Prop} (shaped : node.Shaped Shape) : Ordered Shape node.children := by
  cases shaped with
  | node order deeper => exact ⟨order,deeper⟩

theorem Ordered.shaped {Shape : List Node → Prop} (ordered : Ordered Shape forest) (value payload : List Key) :
    Node.Shaped Shape ⟨value,payload,forest⟩ :=
  .node ordered.order ordered.deeper

namespace BoxLevel.Correct
variable {level : BoxLevel} {Shape : List Node → Prop} {key payload : List Key} {offset : Nat}

theorem makeLeaf (correct : level.Correct Shape) (paired : payload.length = key.length) (inside : offset < key.length) :
    level.makeLeaf key payload offset = some ⟨key.drop offset,payload.drop offset,[]⟩ := by
  rw [BoxLevel.makeLeaf,correct.leafValue (Nat.le_of_lt inside),correct.leafPayload paired (Nat.le_of_lt inside)]
  rfl

theorem leaf_shaped (correct : level.Correct Shape) (value payload : List Key) : Node.Shaped Shape ⟨value,payload,[]⟩ :=
  .node correct.fresh nofun

theorem leaf_branch (value payload : List Key) : (⟨value,payload,[]⟩ : Node).branch = .leaf value payload := rfl

-- Both orders of two children that begin differently say the same.
theorem branches_pair {suffix : Node} {first : Key} (begins : suffix.value.head? = some first) (apart : key.head? ≠ some first)
    (started : key ≠ []) (payload : List Key) {children : List Node}
    (order : children = [suffix,⟨key,payload,[]⟩] ∨ children = [⟨key,payload,[]⟩,suffix]) :
    branches children = Forest.pair suffix.branch key payload := by
  obtain ⟨k,rest,spelled⟩ := List.exists_cons_of_ne_nil started
  subst spelled
  have differs : k ≠ first := fun same => apart (congrArg some same)
  rw [Forest.pair,branch_value,begins]
  funext other
  rcases order with rfl | rfl
  all_goals
    simp only [branches,begins,List.head?_cons,Option.some.injEq,leaf_branch,Forest.push,Function.update_apply,Forest.empty]
    by_cases leafward : other = k
    · subst leafward
      simp [Ne.symm differs]
    · by_cases suffixward : other = first
      · subst suffixward
        simp [differs,Ne.symm differs]
      · simp [leafward,suffixward,Ne.symm leafward,Ne.symm suffixward]

theorem branches_single {suffix : Node} {first : Key} (begins : suffix.value.head? = some first) :
    branches [suffix] = Forest.pair suffix.branch [] [] := by
  rw [Forest.pair,branch_value,begins]
  funext other
  simp only [branches,begins,Option.some.injEq,List.head?_nil,Forest.push,Function.update_apply,Forest.empty,eq_comm]

-- One step down moves the offset by what was matched.
mutual
theorem forestPrefixLen_refines (correct : level.Correct Shape) {forest : List Node} (ordered : Ordered Shape forest)
    (valid : (branches forest).Valid) (query : List Key) (offset : Nat) :
    level.forestPrefixLen forest query offset = some (offset+(branches forest).prefixLen (query.drop offset)) := by
  rw [BoxLevel.forestPrefixLen]
  by_cases inside : offset < query.length
  · have head : (query.drop offset).head? = some (query[offset]) := by rw [List.head?_drop,List.getElem?_eq_getElem inside]
    obtain ⟨result,searched,finds⟩ := correct.finds ordered.order (query[offset])
    rw [dif_pos inside,searched,Option.bind_eq_bind,Option.bind_some]
    cases result with
    | error ins =>
      rw [Forest.prefixLen_absent head (branches_missing finds.2)]
      rfl
    | ok idx =>
      obtain ⟨child,first⟩ := finds
      have found := branches_first first
      have shaped := ordered.deeper child (List.mem_of_getElem? first.here)
      have below := valid _ _ found
      simp only [first.here,Option.bind_eq_bind,Option.bind_some]
      rw [nodePrefixLen_refines correct shaped below inside head,Forest.prefixLen,head]
      simp only [found]
  · rw [dif_neg inside,List.drop_eq_nil_of_le (Nat.le_of_not_lt inside),Forest.prefixLen_nil]
    rfl
termination_by (query.length-offset,1)

theorem nodePrefixLen_refines (correct : level.Correct Shape) {node : Node} {k : Key} (shaped : node.Shaped Shape)
    (valid : node.branch.Valid k) {query : List Key} {offset : Nat} (inside : offset < query.length)
    (head : (query.drop offset).head? = some k) :
    level.nodePrefixLen node query offset inside = some (offset+node.branch.prefixLen (query.drop offset)) := by
  have shared := agreeFrom_one node.value query offset
  have moved := le_agreeFrom node.value query offset 1
  have bounds := sharedLen_eq valid.head head
  have left := commonLen_le_left node.branch.value (query.drop offset)
  have right := commonLen_le_right node.branch.value (query.drop offset)
  rw [← bounds,branch_value] at left right
  rw [List.length_drop] at right
  rw [BoxLevel.nodePrefixLen,Branch.prefixLen,branch_value,branch_children,← shared,List.drop_drop,List.length_drop]
  rw [← shared] at left right
  by_cases stops : agreeFrom node.value query offset 1 < node.value.length
  · rw [if_pos stops,if_neg (by omega)]
  · have deeper := forestPrefixLen_refines correct shaped.children (children_valid valid) query (offset+agreeFrom node.value query offset 1)
    rw [if_neg stops,deeper]
    by_cases more : agreeFrom node.value query offset 1 < query.length-offset
    · rw [if_pos ⟨Nat.le_of_not_lt stops,more⟩,Nat.add_assoc]
    · rw [if_neg (fun both => more both.2),List.drop_eq_nil_of_le (by omega),Forest.prefixLen_nil]
      rfl
termination_by (query.length-offset,0)
decreasing_by
  refine Prod.Lex.left _ _ ?_
  omega
end

mutual
theorem forestInsert_refines (correct : level.Correct Shape) {forest : List Node} (ordered : Ordered Shape forest)
    (valid : (branches forest).Valid) (paired : payload.length = key.length) {offset : Nat} (inside : offset < key.length) :
    ∃ forest', level.forestInsert forest key payload offset = some forest' ∧ Ordered Shape forest' ∧
      branches forest' = (branches forest).insert (key.drop offset) (payload.drop offset) := by
  have head : (key.drop offset).head? = some (key[offset]) := by rw [List.head?_drop,List.getElem?_eq_getElem inside]
  obtain ⟨result,searched,finds⟩ := correct.finds ordered.order (key[offset])
  rw [BoxLevel.forestInsert,dif_pos inside,searched,Option.bind_eq_bind,Option.bind_some,Forest.insert,head]
  cases result with
  | error ins =>
    obtain ⟨bound,missing⟩ := finds
    simp only [correct.makeLeaf paired inside,Option.bind_eq_bind,Option.bind_some,branches_missing missing]
    refine ⟨_,rfl,⟨correct.grown ordered.order searched head,fun c member => ?_⟩,branches_insertIdx missing bound head⟩
    rcases (List.mem_insertIdx bound).mp member with rfl | old
    · exact correct.leaf_shaped _ _
    · exact ordered.deeper c old
  | ok idx =>
    obtain ⟨node,first⟩ := finds
    have found := branches_first first
    have meets : node.branch.Meets (key[offset]) (key.drop offset) (payload.drop offset) :=
      ⟨valid _ _ found,head,by rw [List.length_drop,List.length_drop,paired]⟩
    obtain ⟨new,inserted,shaped,same⟩ := nodeInsert_refines correct (ordered.deeper node (List.mem_of_getElem? first.here)) meets paired inside
    have kept : new.value.head? = some (key[offset]) := by
      rw [← branch_value,same]
      exact (Branch.valid_insert meets).head
    obtain ⟨put,order⟩ := correct.kept ordered.order first.here (kept.trans first.head.symm)
    simp only [first.here,inserted,put,found,Option.bind_eq_bind,Option.bind_some]
    refine ⟨_,rfl,⟨order,fun c member => ?_⟩,?_⟩
    · rcases List.mem_or_eq_of_mem_set member with old | rfl
      · exact ordered.deeper c old
      · exact shaped
    · rw [branches_set first kept,same]
termination_by (key.length-offset,1)

theorem nodeInsert_refines (correct : level.Correct Shape) {node : Node} {k : Key} (shaped : node.Shaped Shape) {offset : Nat}
    (meets : node.branch.Meets k (key.drop offset) (payload.drop offset)) (paired : payload.length = key.length)
    (inside : offset < key.length) :
    ∃ new, level.nodeInsert node key payload offset inside = some new ∧ new.Shaped Shape ∧
      new.branch = node.branch.insert (key.drop offset) (payload.drop offset) := by
  obtain ⟨value,old,children⟩ := node
  have moved := le_agreeFrom value key offset 1
  have shared : agreeFrom value key offset 1 = commonLen value (key.drop offset) := (agreeFrom_one value key offset).trans meets.shared
  have left : commonLen value (key.drop offset) ≤ value.length := commonLen_le_left _ _
  have right : commonLen value (key.drop offset) ≤ (key.drop offset).length := commonLen_le_right _ _
  have width : old.length = value.length := meets.valid.paired
  rw [List.length_drop] at right
  rw [BoxLevel.nodeInsert,Branch.insert,meets.shared]
  simp only [Node.branch,Branch.value,Branch.payload,Branch.children,List.drop_drop,List.length_drop]
  rw [← shared] at left right ⊢
  by_cases cut : agreeFrom value key offset 1 < value.length
  · obtain ⟨first,lower⟩ := meets.suffix (by simpa only [Node.branch,Branch.value,← shared] using cut)
    have apart := parted lower.head
    simp only [Node.branch,Branch.value,Branch.payload,Branch.children,List.drop_drop,← shared] at lower apart
    have begins : (⟨value.drop (agreeFrom value key offset 1),old.drop (agreeFrom value key offset 1),children⟩ : Node).value.head? =
      some first := lower.head
    have below : Node.Shaped Shape ⟨value.drop (agreeFrom value key offset 1),old.drop (agreeFrom value key offset 1),children⟩ :=
      shaped.children.shaped _ _
    rw [if_neg (by omega),if_neg (by omega),if_pos cut,correct.suffixOf rfl left,correct.suffixOf width left]
    by_cases more : offset+agreeFrom value key offset 1 < key.length
    · have started : (key.drop (offset+agreeFrom value key offset 1)).head? = some (key[offset+agreeFrom value key offset 1]) := by
        rw [List.head?_drop,List.getElem?_eq_getElem more]
      obtain ⟨both,arranged,order,either⟩ := correct.arranged begins (show (⟨key.drop (offset+agreeFrom value key offset 1),
        payload.drop (offset+agreeFrom value key offset 1),[]⟩ : Node).value.head? = _ from started) (fun same => apart (by rw [started,same]))
      have pair := branches_pair begins apart (fun ends => by rw [ends] at started; cases started) _ either
      have deeper : ∀ c ∈ both, c.Shaped Shape := fun c member => by
        have leaf := correct.leaf_shaped (key.drop (offset+agreeFrom value key offset 1)) (payload.drop (offset+agreeFrom value key offset 1))
        rcases either with rfl | rfl <;> simp only [List.mem_cons,List.not_mem_nil,or_false] at member <;>
          rcases member with rfl | rfl <;> assumption
      simp only [correct.makeLeaf paired more,arranged,more,Option.bind_eq_bind,Option.bind_some,if_true]
      refine ⟨_,rfl,.node order deeper,?_⟩
      rw [Node.branch,pair]
      rfl
    · have ends : key.drop (offset+agreeFrom value key offset 1) = [] := List.drop_eq_nil_of_le (Nat.le_of_not_lt more)
      have rest : payload.drop (offset+agreeFrom value key offset 1) = [] := List.drop_eq_nil_of_le (by omega)
      simp only [more,if_false,Option.bind_eq_bind,Option.bind_some]
      refine ⟨_,rfl,.node (correct.single begins) (fun c member => ?_),?_⟩
      · rw [List.mem_singleton.mp member]
        exact below
      · rw [Node.branch,branches_single begins,ends,rest]
        rfl
  · have whole : agreeFrom value key offset 1 = value.length := by omega
    by_cases more : offset+agreeFrom value key offset 1 < key.length
    · obtain ⟨children',inserted,ordered,same⟩ := forestInsert_refines correct shaped.children (children_valid meets.valid) paired more
      rw [if_neg (by omega),if_pos whole,if_neg cut,if_pos (by omega),inserted,← same]
      exact ⟨_,rfl,ordered.shaped _ _,rfl⟩
    · rw [if_pos ⟨whole,by omega⟩,if_neg cut,if_neg (by omega),copyPayload_eq width (by omega)]
      exact ⟨_,rfl,shaped.children.shaped _ _,rfl⟩
termination_by (key.length-offset,0)
decreasing_by
  refine Prod.Lex.left _ _ ?_
  omega
end

theorem insert_refines (correct : level.Correct Shape) {roots : List Node} (ordered : Ordered Shape roots)
    (valid : (branches roots).Valid) (filled : key ≠ []) (paired : payload.length = key.length) :
    ∃ roots', level.insert roots key payload = some roots' ∧ Ordered Shape roots' ∧ branches roots' = (branches roots).insert key payload := by
  rw [BoxLevel.insert,if_pos ⟨filled,paired.symm⟩]
  exact forestInsert_refines correct ordered valid paired (List.length_pos_of_ne_nil filled)

theorem prefixLen_refines (correct : level.Correct Shape) {roots : List Node} (ordered : Ordered Shape roots)
    (valid : (branches roots).Valid) (query : List Key) :
    level.forestPrefixLen roots query 0 = some ((branches roots).prefixLen query) := by
  simpa using correct.forestPrefixLen_refines ordered valid query 0

end BoxLevel.Correct

theorem findIdx_finds (forest : List Node) (k : Key) : ∃ result, L0.findChild forest k = some result ∧ Finds forest k result := by
  cases searched : forest.findIdx? fun child => child.value.head? = some k with
  | none =>
    refine ⟨.error forest.length,by rw [L0.findChild,searched],Nat.le_refl _,fun c member => ?_⟩
    simpa using List.findIdx?_eq_none_iff.mp searched c member
  | some idx =>
    obtain ⟨bound,matching,earlier⟩ := List.findIdx?_eq_some_iff_getElem.mp searched
    refine ⟨.ok idx,by rw [L0.findChild,searched],forest[idx],List.getElem?_eq_getElem bound,by simpa using matching,fun c member => ?_⟩
    obtain ⟨j,before,found⟩ := List.mem_take_iff_getElem.mp member
    have differs := earlier j (by omega)
    rw [found] at differs
    simpa using differs

theorem removed_and_reinserted {forest : List Node} {idx : Nat} {old : Node} (here : forest[idx]? = some old) (new : Node) :
    (forest.eraseIdx idx).insertIdx idx new = forest.set idx new := by
  obtain ⟨bound,_⟩ := List.getElem?_eq_some_iff.mp here
  exact List.insertIdx_eraseIdx_self (Nat.ne_of_lt bound) new

theorem L0.level_correct : L0.level.Correct fun _ => True where
  fresh := trivial
  finds := fun _ k => findIdx_finds _ k
  kept := fun _ here _ => ⟨removed_and_reinserted here _,trivial⟩
  grown := fun _ _ _ => trivial
  single := fun _ => trivial
  arranged := fun _ _ _ => ⟨_,rfl,trivial,.inl rfl⟩
  leafValue := sliceFrom_eq
  leafPayload := fun paired bound => sliceFrom_eq (by omega)
  suffixOf := fun width bound => sliceFrom_eq (by omega)

theorem Verified.level_correct : Verified.level.Correct fun _ => True where
  fresh := trivial
  finds := fun _ k => findIdx_finds _ k
  kept := fun _ here _ => ⟨removed_and_reinserted here _,trivial⟩
  grown := fun _ _ _ => trivial
  single := fun _ => trivial
  arranged := fun _ _ _ => ⟨_,rfl,trivial,.inl rfl⟩
  leafValue := pushRange_eq rfl
  leafPayload := fun paired bound => pushRange_eq paired.symm bound
  suffixOf := fun width bound => pushRange_eq width.symm bound

-- The order L1 keeps: first symbols exist and go up.
def Ascending (forest : List Node) : Prop :=
  ∃ keys : List Key, (forest.map fun c => c.value.head?) = keys.map some ∧ keys.Pairwise (· < ·)

theorem heads_at {forest : List Node} {keys : List Key} (heads : (forest.map fun c => c.value.head?) = keys.map some) (i : Nat) :
    (forest[i]?.bind fun c => c.value.head?) = keys[i]? := by
  have same := congrArg (fun l => l[i]?) heads
  simp only [List.getElem?_map] at same
  cases here : forest[i]? with
  | none =>
    rw [here] at same
    cases there : keys[i]? with
    | none => rfl
    | some key => rw [there] at same; cases same
  | some c =>
    rw [here] at same
    cases there : keys[i]? with
    | none => rw [there] at same; cases same
    | some key =>
      rw [there] at same
      exact Option.some.inj same

theorem heads_length {forest : List Node} {keys : List Key} (heads : (forest.map fun c => c.value.head?) = keys.map some) :
    forest.length = keys.length := by
  simpa using congrArg List.length heads

theorem missing_of_keys {forest : List Node} {keys : List Key} {k : Key} (heads : (forest.map fun c => c.value.head?) = keys.map some)
    (absent : ∀ key ∈ keys, key ≠ k) : Missing forest k := by
  intro c member claimed
  have known : some k ∈ keys.map some := by
    rw [← heads,← claimed]
    exact List.mem_map_of_mem member
  obtain ⟨key,there,same⟩ := List.mem_map.mp known
  exact absent key there (Option.some.inj same)

theorem Ascending.set {forest : List Node} {idx : Nat} {old new : Node} (order : Ascending forest) (here : forest[idx]? = some old)
    (same : new.value.head? = old.value.head?) : Ascending (forest.set idx new) := by
  obtain ⟨keys,heads,sorted⟩ := order
  obtain ⟨bound,found⟩ := List.getElem?_eq_some_iff.mp here
  refine ⟨keys,?_,sorted⟩
  calc (forest.set idx new).map (fun c => c.value.head?) = (forest.set idx old).map fun c => c.value.head? := by
        rw [List.map_set,same,← List.map_set]
    _ = keys.map some := by rw [← found,List.set_getElem_self,heads]

theorem L1.findChild_located {forest : List Node} {keys : List Key} (heads : (forest.map fun c => c.value.head?) = keys.map some)
    (sorted : keys.Pairwise (· < ·)) (target : Key) : ∃ result, L1.findChild forest target = some result ∧ Located keys target result := by
  rw [L1.findChild,heads_length heads]
  exact binarySearch_located sorted (fun i _ => heads_at heads i) target

theorem L1.finds {forest : List Node} (order : Ascending forest) (k : Key) :
    ∃ result, L1.findChild forest k = some result ∧ Finds forest k result := by
  obtain ⟨keys,heads,sorted⟩ := order
  obtain ⟨result,searched,located⟩ := L1.findChild_located heads sorted k
  refine ⟨result,searched,?_⟩
  cases result with
  | error ins => exact ⟨heads_length heads ▸ located.1,missing_of_keys heads located.absent⟩
  | ok idx =>
    have found : (forest[idx]?.bind fun c => c.value.head?) = some k := (heads_at heads idx).trans located
    obtain ⟨node,here,head⟩ := Option.bind_eq_some_iff.mp found
    have front : ((forest.take idx).map fun c => c.value.head?) = (keys.take idx).map some := by
      rw [List.map_take,heads,List.map_take]
    refine ⟨node,here,head,missing_of_keys front fun key member same => ?_⟩
    obtain ⟨j,before,there⟩ := List.mem_take_iff_getElem.mp member
    have less := sorted_at sorted (show j < idx by omega) (by rw [List.getElem?_eq_getElem (by omega),there]) located
    exact Nat.lt_irrefl _ (same ▸ less)

theorem L1.arranged {suffix leaf : Node} {first k : Key} (begins : suffix.value.head? = some first) (starts : leaf.value.head? = some k)
    (apart : first ≠ k) : ∃ children, L1.arrange suffix leaf = some children ∧ Ascending children ∧
      (children = [suffix,leaf] ∨ children = [leaf,suffix]) := by
  rw [L1.arrange,begins,starts]
  by_cases less : first < k
  · refine ⟨[suffix,leaf],by simp [less],⟨[first,k],by simp [begins,starts],?_⟩,.inl rfl⟩
    simpa using less
  · refine ⟨[leaf,suffix],by simp [less],⟨[k,first],by simp [begins,starts],?_⟩,.inr rfl⟩
    simpa using lt_of_le_of_ne (le_of_not_gt less) (Ne.symm apart)

theorem L1.level_correct : L1.level.Correct Ascending where
  fresh := ⟨[],rfl,List.Pairwise.nil⟩
  finds := fun order k => L1.finds order k
  kept := fun order here same => ⟨rfl,order.set here same⟩
  grown := fun order searched head => by
    obtain ⟨keys,heads,sorted⟩ := order
    obtain ⟨result,again,located⟩ := L1.findChild_located heads sorted _
    rw [show L1.findChild _ _ = _ from searched] at again
    cases Option.some.inj again
    exact ⟨_,by rw [List.map_insertIdx,heads,head,List.map_insertIdx],located.sorted_insertIdx sorted⟩
  single := fun {_ first} begins => ⟨[first],by rw [List.map_singleton,begins]; rfl,List.pairwise_singleton _ _⟩
  arranged := L1.arranged
  leafValue := sliceFrom_eq
  leafPayload := fun paired bound => sliceFrom_eq (by omega)
  suffixOf := fun width bound => sliceFrom_eq (by omega)

def Boxed (Shape : List Node → Prop) (roots : List Node) (F : Forest Key Key) : Prop := Ordered Shape roots ∧ branches roots = F

theorem L0.refines : Refines L0.RadixTreeMap fun tree => Boxed (fun _ => True) tree.roots where
  new := ⟨⟨trivial,nofun⟩,rfl⟩
  insert := by
    rintro ⟨roots⟩ F key payload ⟨ordered,rfl⟩ valid filled paired
    obtain ⟨roots',inserted,after⟩ := L0.level_correct.insert_refines ordered valid filled paired
    exact ⟨⟨roots'⟩,by rw [RadixTree.insert]; exact congrArg (Option.map _) inserted,after⟩
  prefixLen := by
    rintro ⟨roots⟩ F ⟨ordered,rfl⟩ valid query
    exact L0.level_correct.prefixLen_refines ordered valid query

theorem Verified.refines : Refines Verified.RadixTreeMap fun tree => Boxed (fun _ => True) tree.roots where
  new := ⟨⟨trivial,nofun⟩,rfl⟩
  insert := by
    rintro ⟨roots⟩ F key payload ⟨ordered,rfl⟩ valid filled paired
    obtain ⟨roots',inserted,after⟩ := Verified.level_correct.insert_refines ordered valid filled paired
    exact ⟨⟨roots'⟩,by rw [RadixTree.insert]; exact congrArg (Option.map _) inserted,after⟩
  prefixLen := by
    rintro ⟨roots⟩ F ⟨ordered,rfl⟩ valid query
    exact Verified.level_correct.prefixLen_refines ordered valid query

theorem L1.refines : Refines L1.RadixTreeMap fun tree => Boxed Ascending tree.roots where
  new := ⟨⟨L1.level_correct.fresh,nofun⟩,rfl⟩
  insert := by
    rintro ⟨roots⟩ F key payload ⟨ordered,rfl⟩ valid filled paired
    obtain ⟨roots',inserted,after⟩ := L1.level_correct.insert_refines ordered valid filled paired
    exact ⟨⟨roots'⟩,by rw [RadixTree.insert]; exact congrArg (Option.map _) inserted,after⟩
  prefixLen := by
    rintro ⟨roots⟩ F ⟨ordered,rfl⟩ valid query
    exact L1.level_correct.prefixLen_refines ordered valid query

end BlitzRouter.Lowering
