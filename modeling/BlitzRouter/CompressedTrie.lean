import BlitzRouter.CommonPrefix
import Mathlib.Logic.Function.Basic
import Mathlib.Order.Lattice

namespace BlitzRouter
open CommonPrefix

-- A compressed trie as a value: a branch carries a whole edge, and its children
-- are told apart by their first symbol.
inductive Branch (κ π : Type) where
  | node (value : List κ) (payload : List π) (children : κ → Option (Branch κ π))

abbrev Forest (κ π : Type) := κ → Option (Branch κ π)

namespace Branch
variable {κ π : Type}

def value : Branch κ π → List κ
  | .node value _ _ => value

def payload : Branch κ π → List π
  | .node _ payload _ => payload

def children : Branch κ π → Forest κ π
  | .node _ _ children => children

def leaf (key : List κ) (payload : List π) : Branch κ π := .node key payload fun _ => none

-- The edge is filed under its first symbol and has one payload a symbol.
inductive Valid : κ → Branch κ π → Prop where
  | node {first : κ} {value : List κ} {payload : List π} {children : Forest κ π} (head : value.head? = some first)
      (paired : payload.length = value.length) (below : ∀ k t, children k = some t → Valid k t) :
      Valid first (.node value payload children)

theorem Valid.head {k : κ} {t : Branch κ π} (valid : t.Valid k) : t.value.head? = some k := by
  cases valid
  assumption

theorem Valid.paired {k : κ} {t : Branch κ π} (valid : t.Valid k) : t.payload.length = t.value.length := by
  cases valid
  assumption

theorem Valid.beneath {k : κ} {t : Branch κ π} (valid : t.Valid k) : ∀ k' t', t.children k' = some t' → Valid k' t' := by
  cases valid
  assumption

theorem Valid.filled {k : κ} {t : Branch κ π} (valid : t.Valid k) : 0 < t.value.length := by
  have head := valid.head
  cases value : t.value with
  | nil => rw [value] at head; cases head
  | cons first rest => exact Nat.succ_pos _

theorem valid_leaf {k : κ} {key : List κ} {payload : List π} (head : key.head? = some k) (paired : payload.length = key.length) :
    Valid k (leaf key payload) :=
  .node head paired nofun

-- What `insert` knows of a branch and a key that begin alike.
structure Meets (t : Branch κ π) (k : κ) (key : List κ) (payload : List π) : Prop where
  valid : t.Valid k
  head : key.head? = some k
  paired : payload.length = key.length

namespace Meets
variable {t : Branch κ π} {k : κ} {key : List κ} {payload : List π}

theorem rest_paired (meets : t.Meets k key payload) (n : Nat) : (payload.drop n).length = (key.drop n).length := by
  rw [List.length_drop,List.length_drop,meets.paired]

theorem head_take {n : Nat} (meets : t.Meets k key payload) (positive : 0 < n) : (t.value.take n).head? = some k := by
  rw [List.head?_take,if_neg (Nat.pos_iff_ne_zero.mp positive),meets.valid.head]

end Meets
end Branch

namespace Forest
variable {κ π : Type}

def Valid (F : Forest κ π) : Prop := ∀ k t, F k = some t → t.Valid k

def empty : Forest κ π := fun _ => none

theorem valid_empty : Valid (empty : Forest κ π) := nofun

variable [DecidableEq κ]

def push (F : Forest κ π) (k : κ) (t : Branch κ π) : Forest κ π := Function.update F k (some t)

theorem Valid.push {F : Forest κ π} {k : κ} {t : Branch κ π} (valid : F.Valid) (fits : t.Valid k) : (F.push k t).Valid := by
  intro k' t' found
  by_cases here : k' = k
  · subst here
    rw [Forest.push,Function.update_self] at found
    cases found
    exact fits
  · rw [Forest.push,Function.update_of_ne here] at found
    exact valid k' t' found

-- The lower half of a cut edge, and the rest of the new key beside it.
def pair (suffix : Branch κ π) (key : List κ) (payload : List π) : Forest κ π :=
  let alone := match suffix.value.head? with
    | some k => (empty : Forest κ π).push k suffix
    | none => empty
  match key.head? with
  | some k => alone.push k (.leaf key payload)
  | none => alone

end Forest

section
variable {κ π : Type} [DecidableEq κ]

-- How far the edge and the key run together; their first symbols are known to agree.
def sharedLen (value key : List κ) : Nat := commonLen value.tail key.tail+1

mutual
def Forest.insert (F : Forest κ π) (key : List κ) (payload : List π) : Forest κ π :=
  match key.head? with
  | none => F
  | some k =>
    F.push k (match F k with
      | none => .leaf key payload
      | some t => t.insert key payload)
termination_by (key.length,1)

def Branch.insert (t : Branch κ π) (key : List κ) (payload : List π) : Branch κ π :=
  let common := sharedLen t.value key
  if common < t.value.length then
    .node (t.value.take common) (t.payload.take common)
      (Forest.pair (.node (t.value.drop common) (t.payload.drop common) t.children) (key.drop common) (payload.drop common))
  else if common < key.length then
    .node t.value t.payload (Forest.insert t.children (key.drop common) (payload.drop common))
  else .node t.value payload t.children
termination_by (key.length,0)
decreasing_by
  have moved : 0 < sharedLen t.value key := Nat.succ_pos _
  refine Prod.Lex.left _ _ ?_
  rw [List.length_drop]
  omega
end

mutual
def Forest.prefixLen (F : Forest κ π) (query : List κ) : Nat :=
  match query.head? with
  | none => 0
  | some k =>
    match F k with
    | none => 0
    | some t => t.prefixLen query
termination_by (query.length,1)

def Branch.prefixLen (t : Branch κ π) (query : List κ) : Nat :=
  let common := sharedLen t.value query
  if t.value.length ≤ common ∧ common < query.length then common+Forest.prefixLen t.children (query.drop common) else common
termination_by (query.length,0)
decreasing_by
  have moved : 0 < sharedLen t.value query := Nat.succ_pos _
  refine Prod.Lex.left _ _ ?_
  rw [List.length_drop]
  omega
end

theorem sharedLen_eq {value key : List κ} {k : κ} (left : value.head? = some k) (right : key.head? = some k) :
    sharedLen value key = commonLen value key := by
  cases value with
  | nil => cases left
  | cons x xs =>
    cases key with
    | nil => cases right
    | cons y ys =>
      cases left
      cases right
      simp [sharedLen,commonLen]

-- Past the shared symbols the edge and the key part.
theorem parted {value key : List κ} {first : κ} (below : (value.drop (commonLen value key)).head? = some first) :
    (key.drop (commonLen value key)).head? ≠ some first := by
  intro same
  have agree := take_commonLen value key
  have inside : value.drop (commonLen value key) ≠ [] := fun ends => by rw [ends] at below; cases below
  have more : key.drop (commonLen value key) ≠ [] := fun ends => by rw [ends] at same; cases same
  have parts : commonLen value key = (value.take (commonLen value key)).length+
      commonLen (value.drop (commonLen value key)) (key.drop (commonLen value key)) := by
    calc commonLen value key
        = commonLen (value.take (commonLen value key)++value.drop (commonLen value key))
            (value.take (commonLen value key)++key.drop (commonLen value key)) := by
          rw [List.take_append_drop,agree,List.take_append_drop]
      _ = _ := commonLen_append _
  rw [List.length_take,Nat.min_eq_left (commonLen_le_left _ _)] at parts
  exact (commonLen_eq_zero inside more).mp (by omega) (by rw [below,same])

-- A walk along one edge: the symbols it spells, and what `rest` finds behind
-- the edge when the query spells all of it.
def along (value : List κ) (rest : List κ → Nat) (query : List κ) : Nat :=
  if commonLen value query < value.length then commonLen value query else value.length+rest (query.drop value.length)

theorem along_nil (rest : List κ → Nat) (query : List κ) : along [] rest query = rest query := by
  simp [along]

theorem along_append (u w : List κ) (rest : List κ → Nat) (query : List κ) :
    along (u++w) rest query = along u (along w rest) query := by
  by_cases short : commonLen u query < u.length
  · have same := commonLen_append_short short w
    have inside : commonLen (u++w) query < (u++w).length := by
      rw [same,List.length_append]
      omega
    rw [along,if_pos inside,along,if_pos short,same]
  · have whole : commonLen u query = u.length := by
      have bound := commonLen_le_left u query
      omega
    have spelled := prefix_of_commonLen whole
    have sum : commonLen (u++w) query = u.length+commonLen w (query.drop u.length) := by
      calc commonLen (u++w) query = commonLen (u++w) (u++query.drop u.length) := by rw [← spelled]
        _ = u.length+commonLen w (query.drop u.length) := commonLen_append w
    rw [along,sum,along,if_neg short,along,List.length_append,List.drop_drop]
    by_cases cut : commonLen w (query.drop u.length) < w.length
    · rw [if_pos (by omega),if_pos cut]
    · rw [if_neg (by omega),if_neg cut]
      omega

theorem along_max (value : List κ) (f g : List κ → Nat) (query : List κ) :
    max (along value f query) (along value g query) = along value (fun q => max (f q) (g q)) query := by
  by_cases short : commonLen value query < value.length
  · rw [along,if_pos short,along,if_pos short,along,if_pos short,max_self]
  · rw [along,if_neg short,along,if_neg short,along,if_neg short]
    omega

-- A key is spelled as an edge with nothing behind it.
theorem along_zero (key query : List κ) : along key (fun _ => 0) query = commonLen key query := by
  have bound := commonLen_le_left key query
  rw [along]
  split <;> omega

theorem along_apart {value query : List κ} (filled : value ≠ []) (rest : List κ → Nat) (apart : value.head? ≠ query.head?) :
    along value rest query = 0 := by
  have none_shared : commonLen value query = 0 := by
    cases query with
    | nil => exact commonLen_nil_right value
    | cons y ys => exact (commonLen_eq_zero filled (List.cons_ne_nil y ys)).mpr apart
  have nonempty : 0 < value.length := List.length_pos_of_ne_nil filled
  rw [along,none_shared,if_pos nonempty]

namespace Forest
variable {F : Forest κ π}

theorem prefixLen_nil (F : Forest κ π) : F.prefixLen [] = 0 := by
  rw [Forest.prefixLen]
  rfl

theorem prefixLen_absent {query : List κ} {k : κ} (head : query.head? = some k) (absent : F k = none) : F.prefixLen query = 0 := by
  rw [Forest.prefixLen,head]
  simp only [absent]

theorem prefixLen_found {query : List κ} {k : κ} {t : Branch κ π} (head : query.head? = some k) (found : F k = some t)
    (valid : t.Valid k) : F.prefixLen query = along t.value t.children.prefixLen query := by
  have opened : F.prefixLen query = t.prefixLen query := by
    rw [Forest.prefixLen,head]
    simp only [found]
  have left := commonLen_le_left t.value query
  have right := commonLen_le_right t.value query
  rw [opened,Branch.prefixLen]
  simp only [sharedLen_eq valid.head head]
  by_cases short : commonLen t.value query < t.value.length
  · rw [along,if_neg (by omega),if_pos short]
  · have whole : commonLen t.value query = t.value.length := by omega
    rw [along,if_neg short,whole]
    by_cases more : t.value.length < query.length
    · rw [if_pos ⟨Nat.le_refl _,more⟩]
    · rw [if_neg (fun both => more both.2),List.drop_eq_nil_of_le (Nat.le_of_not_lt more),prefixLen_nil]
      rfl

-- The answer depends on the branch under the first symbol alone.
theorem prefixLen_push (F : Forest κ π) (k : κ) (t : Branch κ π) (query : List κ) (valid : t.Valid k) :
    (F.push k t).prefixLen query =
      if query.head? = some k then along t.value t.children.prefixLen query else F.prefixLen query := by
  by_cases here : query.head? = some k
  · rw [if_pos here,prefixLen_found here (show F.push k t k = some t from Function.update_self ..) valid]
  · rw [if_neg here,Forest.prefixLen,Forest.prefixLen]
    cases head : query.head? with
    | none => rfl
    | some other =>
      have differs : other ≠ k := fun same => here (by rw [head,same])
      simp only [Forest.push,Function.update_of_ne differs]

theorem prefixLen_empty (query : List κ) : (empty : Forest κ π).prefixLen query = 0 := by
  cases head : query.head? with
  | none => rw [Forest.prefixLen,head]
  | some k => exact prefixLen_absent head rfl

theorem leaf_along (key query : List κ) (payload : List π) :
    along (Branch.leaf key payload).value (Branch.leaf key payload).children.prefixLen query = commonLen key query := by
  have none_behind : (Branch.leaf key payload).children.prefixLen = fun _ : List κ => 0 := by
    funext rest
    exact prefixLen_empty rest
  rw [none_behind]
  exact along_zero key query

-- What the cut edge leads to: the lower half of it, or the rest of the new key.
theorem prefixLen_pair {suffix : Branch κ π} {first : κ} {key : List κ} {payload : List π} (valid : suffix.Valid first)
    (paired : payload.length = key.length) (apart : key.head? ≠ some first) (query : List κ) :
    (pair suffix key payload).prefixLen query = max (along suffix.value suffix.children.prefixLen query) (commonLen key query) := by
  have filled : suffix.value ≠ [] := List.ne_nil_of_length_pos valid.filled
  rw [pair,valid.head]
  cases head : key.head? with
  | none =>
    have ends : key = [] := List.head?_eq_none_iff.mp head
    subst ends
    simp only [prefixLen_push _ _ _ _ valid,prefixLen_empty,commonLen_nil_left,Nat.max_zero]
    split
    · rfl
    · rename_i elsewhere
      exact (along_apart filled _ (fun same => elsewhere (by rw [← same,valid.head]))).symm
  | some k =>
    have begun : key ≠ [] := fun ends => by rw [ends] at head; cases head
    have other : k ≠ first := fun same => apart (by rw [head,same])
    simp only [prefixLen_push _ _ _ _ (Branch.valid_leaf head paired),prefixLen_push _ _ _ _ valid,leaf_along,prefixLen_empty]
    by_cases leafward : query.head? = some k
    · have missed := along_apart filled suffix.children.prefixLen (show suffix.value.head? ≠ query.head? by
        rw [valid.head,leafward]
        exact fun same => other (Option.some.inj same).symm)
      rw [if_pos leafward,missed,Nat.zero_max]
    · have missed := along_apart begun (fun _ => 0) (show key.head? ≠ query.head? by
        rw [head]
        exact fun same => leafward same.symm)
      rw [along_zero] at missed
      rw [if_neg leafward,missed,Nat.max_zero]
      split
      · rfl
      · rename_i elsewhere
        exact (along_apart filled _ (fun same => elsewhere (by rw [← same,valid.head]))).symm

theorem valid_pair {suffix : Branch κ π} {first : κ} {key : List κ} {payload : List π} (valid : suffix.Valid first)
    (paired : payload.length = key.length) : (pair suffix key payload).Valid := by
  rw [pair,valid.head]
  cases head : key.head? with
  | none => exact valid_empty.push valid
  | some k => exact (valid_empty.push valid).push (Branch.valid_leaf head paired)

end Forest

namespace Branch.Meets
variable {t : Branch κ π} {k : κ} {key : List κ} {payload : List π}

theorem shared (meets : t.Meets k key payload) : sharedLen t.value key = commonLen t.value key :=
  sharedLen_eq meets.valid.head meets.head

theorem positive (meets : t.Meets k key payload) : 0 < commonLen t.value key := by
  rw [← meets.shared]
  exact Nat.succ_pos _

theorem bounds (meets : t.Meets k key payload) : commonLen t.value key ≤ t.value.length ∧ commonLen t.value key ≤ key.length ∧
    t.payload.length = t.value.length :=
  ⟨commonLen_le_left _ _,commonLen_le_right _ _,meets.valid.paired⟩

-- The lower half of a cut edge.
theorem suffix (meets : t.Meets k key payload) (cut : commonLen t.value key < t.value.length) :
    ∃ first, (Branch.node (t.value.drop (commonLen t.value key)) (t.payload.drop (commonLen t.value key)) t.children).Valid first := by
  have first : (t.value.drop (commonLen t.value key)).head? = some (t.value[commonLen t.value key]) := by
    rw [List.head?_drop,List.getElem?_eq_getElem cut]
  refine ⟨_,.node first ?_ meets.valid.beneath⟩
  rw [List.length_drop,List.length_drop,meets.valid.paired]

end Branch.Meets

mutual
theorem Forest.valid_insert {F : Forest κ π} {key : List κ} {payload : List π} (valid : F.Valid)
    (paired : payload.length = key.length) : (F.insert key payload).Valid := by
  rw [Forest.insert]
  cases head : key.head? with
  | none => exact valid
  | some k =>
    cases found : F k with
    | none =>
      simp only [found]
      exact valid.push (Branch.valid_leaf head paired)
    | some t =>
      simp only [found]
      exact valid.push (Branch.valid_insert ⟨valid k t found,head,paired⟩)
termination_by (key.length,1)

theorem Branch.valid_insert {t : Branch κ π} {k : κ} {key : List κ} {payload : List π} (meets : t.Meets k key payload) :
    (t.insert key payload).Valid k := by
  have positive := meets.positive
  have paired := meets.valid.paired
  rw [Branch.insert,meets.shared]
  split
  · rename_i cut
    obtain ⟨first,lower⟩ := meets.suffix cut
    refine .node (meets.head_take positive) ?_ (Forest.valid_pair lower (meets.rest_paired _))
    rw [List.length_take,List.length_take,paired]
  · split
    · exact .node meets.valid.head paired (Forest.valid_insert meets.valid.beneath (meets.rest_paired _))
    · refine .node meets.valid.head ?_ meets.valid.beneath
      obtain ⟨left,right,_⟩ := meets.bounds
      rw [meets.paired]
      omega
termination_by (key.length,0)
decreasing_by
  refine Prod.Lex.left _ _ ?_
  rw [List.length_drop]
  omega
end

mutual
theorem Forest.prefixLen_insert {F : Forest κ π} {key : List κ} {payload : List π} (valid : F.Valid)
    (paired : payload.length = key.length) (query : List κ) :
    (F.insert key payload).prefixLen query = max (F.prefixLen query) (commonLen key query) := by
  rw [Forest.insert]
  cases head : key.head? with
  | none =>
    have nothing : key = [] := List.head?_eq_none_iff.mp head
    rw [nothing,commonLen_nil_left,Nat.max_zero]
  | some k =>
    have begun : key ≠ [] := fun ends => by rw [ends] at head; cases head
    cases found : F k with
    | none =>
      simp only [found]
      rw [Forest.prefixLen_push _ _ _ _ (Branch.valid_leaf head paired),Forest.leaf_along]
      split
      · rename_i here
        rw [Forest.prefixLen_absent here found,Nat.zero_max]
      · rename_i elsewhere
        have missed := along_apart begun (fun _ => 0) (show key.head? ≠ query.head? from fun same => elsewhere (by rw [← same,head]))
        rw [along_zero] at missed
        rw [missed,Nat.max_zero]
    | some t =>
      have meets : t.Meets k key payload := ⟨valid k t found,head,paired⟩
      simp only [found]
      rw [Forest.prefixLen_push _ _ _ _ (Branch.valid_insert meets)]
      split
      · rename_i here
        rw [Branch.along_insert meets,Forest.prefixLen_found here found meets.valid]
      · rename_i elsewhere
        have missed := along_apart begun (fun _ => 0) (show key.head? ≠ query.head? from fun same => elsewhere (by rw [← same,head]))
        rw [along_zero] at missed
        rw [missed,Nat.max_zero]
termination_by (key.length,1)

-- The edge and the key share `u`; the two rests are compared behind it.
theorem Branch.along_insert {t : Branch κ π} {k : κ} {key : List κ} {payload : List π} (meets : t.Meets k key payload) (query : List κ) :
    along (t.insert key payload).value (t.insert key payload).children.prefixLen query =
      max (along t.value t.children.prefixLen query) (commonLen key query) := by
  have positive := meets.positive
  obtain ⟨left,right,_⟩ := meets.bounds
  have agree := take_commonLen t.value key
  have edge : along t.value t.children.prefixLen query =
      along (t.value.take (commonLen t.value key)) (along (t.value.drop (commonLen t.value key)) t.children.prefixLen) query := by
    rw [← along_append,List.take_append_drop]
  have other : commonLen key query =
      along (t.value.take (commonLen t.value key)) (commonLen (key.drop (commonLen t.value key))) query := by
    have behind : commonLen (key.drop (commonLen t.value key)) = along (key.drop (commonLen t.value key)) fun _ => 0 := by
      funext rest
      rw [along_zero]
    rw [behind,← along_append,agree,List.take_append_drop,along_zero]
  rw [edge,other,along_max,Branch.insert,meets.shared]
  split
  · rename_i cut
    obtain ⟨first,lower⟩ := meets.suffix cut
    have split := Forest.prefixLen_pair lower (meets.rest_paired _) (parted lower.head)
    exact congrArg (fun rest => along (t.value.take (commonLen t.value key)) rest query) (funext split)
  · have whole : commonLen t.value key = t.value.length := by omega
    rw [whole,List.drop_length,List.take_length]
    split
    · have deeper := Forest.prefixLen_insert meets.valid.beneath (meets.rest_paired (commonLen t.value key))
      rw [whole] at deeper
      refine congrArg (fun rest => along t.value rest query) (funext fun rest => ?_)
      rw [along_nil]
      exact deeper rest
    · have ends : key.drop t.value.length = [] := List.drop_eq_nil_of_le (by omega)
      rw [ends]
      refine congrArg (fun rest => along t.value rest query) (funext fun rest => ?_)
      rw [along_nil,commonLen_nil_left,Nat.max_zero]
      rfl
termination_by (key.length,0)
decreasing_by
  refine Prod.Lex.left _ _ ?_
  rw [List.length_drop]
  omega
end

-- The largest prefix `query` shares with one of the keys, and 0 without keys.
def longest (keys : List (List κ)) (query : List κ) : Nat := keys.foldl (fun best key => max best (commonLen key query)) 0

theorem foldl_max (keys : List (List κ)) (query : List κ) (best : Nat) :
    keys.foldl (fun best key => max best (commonLen key query)) best = max best (longest keys query) := by
  induction keys generalizing best with
  | nil => exact (Nat.max_zero best).symm
  | cons key keys ih =>
    rw [longest,List.foldl_cons,List.foldl_cons,ih,ih,Nat.zero_max,Nat.max_assoc]

theorem longest_cons (key : List κ) (keys : List (List κ)) (query : List κ) :
    longest (key::keys) query = max (commonLen key query) (longest keys query) := by
  rw [longest,List.foldl_cons,foldl_max,Nat.zero_max]

theorem longest_spec (keys : List (List κ)) (query : List κ) : (∀ key ∈ keys, commonLen key query ≤ longest keys query) ∧
    (longest keys query = 0 ∨ ∃ key ∈ keys, commonLen key query = longest keys query) := by
  induction keys with
  | nil => exact ⟨nofun,.inl rfl⟩
  | cons key keys ih =>
    obtain ⟨bound,attained⟩ := ih
    rw [longest_cons]
    refine ⟨fun other member => ?_,?_⟩
    · rcases List.mem_cons.mp member with here | there
      · subst here
        exact Nat.le_max_left ..
      · exact Nat.le_trans (bound other there) (Nat.le_max_right ..)
    · by_cases larger : longest keys query ≤ commonLen key query
      · exact .inr ⟨key,List.mem_cons_self,(Nat.max_eq_left larger).symm⟩
      · rw [Nat.max_eq_right (Nat.le_of_not_le larger)]
        rcases attained with zero | ⟨other,member,same⟩
        · exact .inl zero
        · exact .inr ⟨other,List.mem_cons_of_mem key member,same⟩

end
end BlitzRouter
