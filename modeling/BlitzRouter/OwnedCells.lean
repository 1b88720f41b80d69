import BlitzRouter.Arena
import BlitzRouter.CompressedTrie
import Mathlib.Data.Set.Lattice
import Mathlib.Order.CompletePartialOrder

namespace BlitzRouter

-- A branch of a compressed trie in a cell of its own; `χ` is how a cell keeps
-- the addresses of its children.
structure Cell (κ π χ : Type) where
  value : List κ
  payload : List π
  children : χ

section
variable {κ π χ : Type}

-- The first symbol of the edge stored at an address.
def Arena.headOf (heap : Arena (Cell κ π χ)) (p : Nat) : Option κ := (heap.read p).bind fun c => c.value.head?

-- `region k` is what the branch under `k` owns. No two branches own a cell in
-- common and none is owned by a branch below it.
inductive OwnedAt (indexes : χ → (κ → Option Nat) → Prop) (heap : Arena (Cell κ π χ)) : Nat → Branch κ π → Set Nat → Prop where
  | node {p : Nat} {value : List κ} {payload : List π} {children : χ} {kids : Forest κ π} (child : κ → Option Nat) (region : κ → Set Nat)
      (here : heap.read p = some ⟨value,payload,children⟩) (indexed : indexes children child)
      (present : ∀ k, (child k).isSome = (kids k).isSome)
      (below : ∀ k c t, child k = some c → kids k = some t → OwnedAt indexes heap c t (region k))
      (vacant : ∀ k, child k = none → region k = ∅) (apart : ∀ k k', k ≠ k' → Disjoint (region k) (region k'))
      (outside : p ∉ ⋃ k, region k) :
      OwnedAt indexes heap p (.node value payload kids) (insert p (⋃ k, region k))

variable {indexes : χ → (κ → Option Nat) → Prop} {heap heap' : Arena (Cell κ π χ)}

-- The children of one cell, whatever they are kept in.
structure Filed (indexes : χ → (κ → Option Nat) → Prop) (heap : Arena (Cell κ π χ)) (F : Forest κ π) (child : κ → Option Nat)
    (region : κ → Set Nat) : Prop where
  present : ∀ k, (child k).isSome = (F k).isSome
  below : ∀ k c t, child k = some c → F k = some t → OwnedAt indexes heap c t (region k)
  vacant : ∀ k, child k = none → region k = ∅
  apart : ∀ k k', k ≠ k' → Disjoint (region k) (region k')

def OwnedForest (indexes : χ → (κ → Option Nat) → Prop) (heap : Arena (Cell κ π χ)) (children : χ) (F : Forest κ π) (R : Set Nat) : Prop :=
  ∃ child region, indexes children child ∧ Filed indexes heap F child region ∧ R = ⋃ k, region k

theorem OwnedAt.of {p : Nat} {t : Branch κ π} {children : χ} {R : Set Nat} (here : heap.read p = some ⟨t.value,t.payload,children⟩)
    (owned : OwnedForest indexes heap children t.children R) (outside : p ∉ R) : OwnedAt indexes heap p t (insert p R) := by
  obtain ⟨value,payload,kids⟩ := t
  obtain ⟨child,region,indexed,filed,rfl⟩ := owned
  exact .node child region here indexed filed.present filed.below filed.vacant filed.apart outside

theorem OwnedAt.cell {p : Nat} {t : Branch κ π} {R : Set Nat} (owned : OwnedAt indexes heap p t R) :
    ∃ children R', heap.read p = some ⟨t.value,t.payload,children⟩ ∧ OwnedForest indexes heap children t.children R' ∧ p ∉ R' ∧ R = insert p R' := by
  cases owned with
  | node child region here indexed present below vacant apart outside =>
    exact ⟨_,_,here,⟨child,region,indexed,⟨present,below,vacant,apart⟩,rfl⟩,outside,rfl⟩

-- Induction on the branch: only the cells it owns are read.
theorem OwnedAt.frame {p : Nat} {t : Branch κ π} {R : Set Nat} (owned : OwnedAt indexes heap p t R)
    (same : ∀ q ∈ R, heap'.read q = heap.read q) : OwnedAt indexes heap' p t R := by
  induction owned with
  | node child region here indexed present _ vacant apart outside ih =>
    refine .node child region ((same _ (Set.mem_insert ..)).trans here) indexed present (fun k c t known found => ?_) vacant apart outside
    exact ih k c t known found fun q member => same q (Set.mem_insert_of_mem _ (Set.mem_iUnion.mpr ⟨k,member⟩))

theorem Filed.frame {F : Forest κ π} {child : κ → Option Nat} {region : κ → Set Nat} (filed : Filed indexes heap F child region)
    (same : ∀ q ∈ ⋃ k, region k, heap'.read q = heap.read q) : Filed indexes heap' F child region :=
  ⟨filed.present,fun k c t known found => (filed.below k c t known found).frame fun q member => same q (Set.mem_iUnion.mpr ⟨k,member⟩),
    filed.vacant,filed.apart⟩

theorem OwnedForest.frame {children : χ} {F : Forest κ π} {R : Set Nat} (owned : OwnedForest indexes heap children F R)
    (same : ∀ q ∈ R, heap'.read q = heap.read q) : OwnedForest indexes heap' children F R := by
  obtain ⟨child,region,indexed,filed,rfl⟩ := owned
  exact ⟨child,region,indexed,filed.frame same,rfl⟩

theorem OwnedAt.bounded {p : Nat} {t : Branch κ π} {R : Set Nat} (owned : OwnedAt indexes heap p t R) : ∀ q ∈ R, q < heap.next := by
  induction owned with
  | node child region here indexed present _ vacant apart outside ih =>
    intro q member
    rcases Set.mem_insert_iff.mp member with rfl | deeper
    · exact Arena.read_bound here
    · obtain ⟨k,inside⟩ := Set.mem_iUnion.mp deeper
      cases known : child k with
      | none =>
        rw [vacant k known] at inside
        cases inside
      | some c =>
        obtain ⟨t,found⟩ := Option.isSome_iff_exists.mp ((present k).symm.trans (by rw [known]; rfl))
        exact ih k c t known found q inside

theorem Filed.bounded {F : Forest κ π} {child : κ → Option Nat} {region : κ → Set Nat} (filed : Filed indexes heap F child region) :
    ∀ k, ∀ q ∈ region k, q < heap.next := by
  intro k q inside
  cases known : child k with
  | none =>
    rw [filed.vacant k known] at inside
    cases inside
  | some c =>
    obtain ⟨t,found⟩ := Option.isSome_iff_exists.mp ((filed.present k).symm.trans (by rw [known]; rfl))
    exact (filed.below k c t known found).bounded q inside

theorem OwnedForest.bounded {children : χ} {F : Forest κ π} {R : Set Nat} (owned : OwnedForest indexes heap children F R) : ∀ q ∈ R, q < heap.next := by
  obtain ⟨child,region,_,filed,rfl⟩ := owned
  intro q member
  obtain ⟨k,inside⟩ := Set.mem_iUnion.mp member
  exact filed.bounded k q inside

theorem Filed.found {F : Forest κ π} {child : κ → Option Nat} {region : κ → Set Nat} (filed : Filed indexes heap F child region)
    {k : κ} {c : Nat} (known : child k = some c) : ∃ t, F k = some t ∧ OwnedAt indexes heap c t (region k) := by
  obtain ⟨t,found⟩ := Option.isSome_iff_exists.mp ((filed.present k).symm.trans (by rw [known]; rfl))
  exact ⟨t,found,filed.below k c t known found⟩

theorem Filed.missing {F : Forest κ π} {child : κ → Option Nat} {region : κ → Set Nat} (filed : Filed indexes heap F child region)
    {k : κ} (unknown : child k = none) : F k = none := by
  have same := filed.present k
  rw [unknown] at same
  cases found : F k with
  | none => rfl
  | some t => rw [found] at same; cases same

-- The cells a search of the children reads begin with the symbol they are filed under.
theorem Filed.headed {F : Forest κ π} {child : κ → Option Nat} {region : κ → Set Nat} (filed : Filed indexes heap F child region)
    (valid : F.Valid) {k : κ} {c : Nat} (known : child k = some c) : heap.headOf c = some k := by
  obtain ⟨t,found,owned⟩ := filed.found known
  obtain ⟨children,_,here,_⟩ := owned.cell
  rw [Arena.headOf,here]
  exact (valid k t found).head

-- What an operation on the cells of `R` may do: it writes these only, and what
-- it leaves owned are these and new ones.
structure Touches (heap heap' : Arena (Cell κ π χ)) (R R' : Set Nat) : Prop where
  grows : heap.next ≤ heap'.next
  kept : ∀ q, q < heap.next → q ∉ R → heap'.read q = heap.read q
  inside : ∀ q ∈ R', q ∈ R ∨ heap.next ≤ q

theorem Touches.read {R R' S : Set Nat} (touches : Touches heap heap' R R') (bounded : ∀ q ∈ S, q < heap.next) (apart : Disjoint R S) :
    ∀ q ∈ S, heap'.read q = heap.read q :=
  fun q member => touches.kept q (bounded q member) fun owned => Set.disjoint_left.mp apart owned member

theorem Touches.disjoint {R R' S : Set Nat} (touches : Touches heap heap' R R') (bounded : ∀ q ∈ S, q < heap.next) (apart : Disjoint R S) :
    Disjoint R' S := by
  refine Set.disjoint_left.mpr fun q after member => ?_
  rcases touches.inside q after with old | fresh
  · exact Set.disjoint_left.mp apart old member
  · exact Nat.lt_irrefl _ (Nat.lt_of_lt_of_le (bounded q member) fresh)

theorem touches_write {p : Nat} {old : Cell κ π χ} (here : heap.read p = some old) (new : Cell κ π χ) (R : Set Nat) :
    Touches heap (heap.write p new) (insert p R) (insert p R) := by
  refine ⟨Nat.le_of_eq (Arena.next_write _ _ _).symm,fun q _ outside => ?_,fun q member => .inl member⟩
  exact heap.read_write_ne here fun same => outside (same ▸ Set.mem_insert ..)

theorem filed_empty (heap : Arena (Cell κ π χ)) : Filed indexes heap (Forest.empty : Forest κ π) (fun _ => none) (fun _ => ∅) :=
  ⟨fun _ => rfl,nofun,fun _ _ => rfl,fun _ _ _ => Set.disjoint_empty _⟩

theorem owned_empty {children : χ} (indexed : indexes children fun _ => none) (heap : Arena (Cell κ π χ)) :
    OwnedForest indexes heap children (Forest.empty : Forest κ π) ∅ :=
  ⟨_,_,indexed,filed_empty heap,Set.iUnion_empty.symm⟩

variable [DecidableEq κ]

-- One branch is worked on, or a new one comes in; the others stand still.
theorem Filed.placed {F : Forest κ π} {child : κ → Option Nat} {region : κ → Set Nat} (filed : Filed indexes heap F child region)
    {k : κ} {c : Nat} {t : Branch κ π} {R' : Set Nat} (owned : OwnedAt indexes heap' c t R')
    (still : ∀ k', k' ≠ k → ∀ q ∈ region k', heap'.read q = heap.read q) (clear : ∀ k', k' ≠ k → Disjoint R' (region k')) :
    Filed indexes heap' (F.push k t) (Function.update child k (some c)) (Function.update region k R') := by
  refine ⟨fun k' => ?_,fun k' c' t' known found => ?_,fun k' unknown => ?_,fun k₁ k₂ differ => ?_⟩
  · by_cases here : k' = k
    · subst here
      rw [Function.update_self,Forest.push,Function.update_self]
      rfl
    · rw [Function.update_of_ne here,Forest.push,Function.update_of_ne here]
      exact filed.present k'
  · by_cases here : k' = k
    · subst here
      rw [Function.update_self] at known
      rw [Forest.push,Function.update_self] at found
      rw [Function.update_self]
      cases known
      cases found
      exact owned
    · rw [Function.update_of_ne here] at known
      rw [Forest.push,Function.update_of_ne here] at found
      rw [Function.update_of_ne here]
      exact (filed.below k' c' t' known found).frame (still k' here)
  · by_cases here : k' = k
    · subst here
      rw [Function.update_self] at unknown
      cases unknown
    · rw [Function.update_of_ne here] at unknown ⊢
      exact filed.vacant k' unknown
  · by_cases first : k₁ = k
    · subst first
      rw [Function.update_self,Function.update_of_ne (Ne.symm differ)]
      exact clear k₂ (Ne.symm differ)
    · by_cases second : k₂ = k
      · subst second
        rw [Function.update_self,Function.update_of_ne first]
        exact (clear k₁ first).symm
      · rw [Function.update_of_ne first,Function.update_of_ne second]
        exact filed.apart k₁ k₂ differ

theorem Filed.pushed {F : Forest κ π} {child : κ → Option Nat} {region : κ → Set Nat} (filed : Filed indexes heap F child region)
    {k : κ} {c : Nat} {t : Branch κ π} {R' : Set Nat} (touches : Touches heap heap' (region k) R') (owned : OwnedAt indexes heap' c t R') :
    Filed indexes heap' (F.push k t) (Function.update child k (some c)) (Function.update region k R') :=
  filed.placed owned (fun k' other => touches.read (filed.bounded k') (filed.apart k k' (Ne.symm other)))
    fun k' other => touches.disjoint (filed.bounded k') (filed.apart k k' (Ne.symm other))

theorem mem_iUnion_update {region : κ → Set Nat} {k : κ} {R' : Set Nat} {q : Nat} (member : q ∈ ⋃ k', Function.update region k R' k') :
    q ∈ R' ∨ q ∈ ⋃ k', region k' := by
  obtain ⟨k',inside⟩ := Set.mem_iUnion.mp member
  by_cases here : k' = k
  · subst here
    rw [Function.update_self] at inside
    exact .inl inside
  · rw [Function.update_of_ne here] at inside
    exact .inr (Set.mem_iUnion.mpr ⟨k',inside⟩)

theorem Touches.update {region : κ → Set Nat} {k : κ} {R' : Set Nat} (touches : Touches heap heap' (region k) R') :
    Touches heap heap' (⋃ k, region k) (⋃ k', Function.update region k R' k') := by
  refine ⟨touches.grows,fun q bound outside => ?_,fun q member => ?_⟩
  · exact touches.kept q bound fun inside => outside (Set.mem_iUnion.mpr ⟨k,inside⟩)
  · rcases mem_iUnion_update member with worked | old
    · exact (touches.inside q worked).imp_left fun old => Set.mem_iUnion.mpr ⟨k,old⟩
    · exact .inl old

end
end BlitzRouter
