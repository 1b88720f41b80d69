import BlitzRouter.LoweringLevels
import BlitzRouter.OwnedCells
import Mathlib.Data.List.AList

namespace BlitzRouter.Lowering

abbrev Ptr := Nat
abbrev Heap (χ : Type) := Arena (Cell Key Key χ)

-- What the levels with raw pointers do differently. `ι` is what a failed
-- search hands to the insertion; `only` and `both` are the children of a cut node.
structure CellLevel (χ ι : Type) where
  fresh : χ
  findChild : Heap χ → χ → Key → Option (Except ι Ptr)
  insertChild : Heap χ → χ → ι → Ptr → Option χ
  only : Heap χ → Ptr → Option χ
  both : Heap χ → Ptr → Ptr → Option χ

namespace CellLevel
variable {χ ι : Type} (level : CellLevel χ ι)

mutual
def forestPrefixLen (heap : Heap χ) (forest : χ) (query : List Key) (offset : Nat) : Option Nat :=
  if inside : offset < query.length then do
    match ← level.findChild heap forest (query[offset]) with
    | .ok node => nodePrefixLen heap node query offset inside
    | .error _ => return offset
  else some offset
termination_by (query.length-offset,1)

def nodePrefixLen (heap : Heap χ) (node : Ptr) (query : List Key) (offset : Nat) (_ : offset < query.length) : Option Nat := do
  let n ← heap.read node
  let matched := agreeFrom n.value query offset 1
  if matched < n.value.length then return offset+matched else forestPrefixLen heap n.children query (offset+matched)
termination_by (query.length-offset,0)
decreasing_by
  have moved := le_agreeFrom n.value query offset 1
  refine Prod.Lex.left _ _ ?_
  omega
end

-- `Node::alloc(key[offset..].to_vec(), payload[offset..].to_vec())`
def allocLeaf (heap : Heap χ) (key payload : List Key) (offset : Nat) : Option (Heap χ × Ptr) := do
  return (heap.alloc ⟨← sliceFrom key offset,← sliceFrom payload offset,level.fresh⟩,heap.next)

-- The recursion gives back the children; they are stored in the node they came from.
mutual
def forestInsert (heap : Heap χ) (forest : χ) (key payload : List Key) (offset : Nat) : Option (Heap χ × χ) :=
  if inside : offset < key.length then do
    match ← level.findChild heap forest (key[offset]) with
    | .error ins =>
      let (heap,node) ← level.allocLeaf heap key payload offset
      return (heap,← level.insertChild heap forest ins node)
    | .ok node => return (← nodeInsert heap node key payload offset inside,forest)
  else none
termination_by (key.length-offset,1)

def nodeInsert (heap : Heap χ) (node : Ptr) (key payload : List Key) (offset : Nat) (_ : offset < key.length) : Option (Heap χ) := do
  let n ← heap.read node
  let vlen := n.value.length
  let common := agreeFrom n.value key offset 1
  if common = vlen ∧ offset+common = key.length then
    return heap.write node {n with payload := ← copyPayload payload offset vlen n.payload}
  else if common = vlen then
    let (heap,children) ← forestInsert heap n.children key payload (offset+common)
    let n ← heap.read node
    return heap.write node {n with children := children}
  else
    -- `split_off(common)` and `mem::swap` leave the node its upper half without children
    let suffix := heap.next
    let lower : Cell Key Key χ := ⟨← sliceFrom n.value common,← sliceFrom n.payload common,n.children⟩
    let upper : Cell Key Key χ := ⟨n.value.take common,n.payload.take common,level.fresh⟩
    let heap := (heap.write node upper).alloc lower
    if offset+common < key.length then
      let (heap,leaf) ← level.allocLeaf heap key payload (offset+common)
      return heap.write node {upper with children := ← level.both heap suffix leaf}
    else return heap.write node {upper with children := ← level.only heap suffix}
termination_by (key.length-offset,0)
decreasing_by
  have moved := le_agreeFrom n.value key offset 1
  refine Prod.Lex.left _ _ ?_
  omega
end

def insert (heap : Heap χ) (roots : χ) (key payload : List Key) : Option (Heap χ × χ) :=
  if key ≠ [] ∧ key.length = payload.length then level.forestInsert heap roots key payload 0 else none

end CellLevel

-- The binary search over child pointers reads every node it compares with.
def searchPtrs {χ : Type} (heap : Heap χ) (children : List Ptr) (target : Key) : Option (Except Nat Nat) :=
  binarySearch (fun i => children[i]?.bind heap.headOf) target children.length

-- L2: a sorted vector of raw pointers.
namespace L2

def findChild (heap : Heap (List Ptr)) (children : List Ptr) (target : Key) : Option (Except Nat Ptr) := do
  match ← searchPtrs heap children target with
  | .ok idx => return .ok (← children[idx]?)
  | .error ins => return .error ins

def both (heap : Heap (List Ptr)) (suffix leaf : Ptr) : Option (List Ptr) := do
  let suffixKey ← heap.headOf suffix
  let leafKey ← heap.headOf leaf
  return if suffixKey < leafKey then [suffix,leaf] else [leaf,suffix]

def level : CellLevel (List Ptr) Nat where
  fresh := []
  findChild := findChild
  insertChild := fun _ forest ins node => if ins ≤ forest.length then some (forest.insertIdx ins node) else none
  only := fun _ suffix => some [suffix]
  both := both

structure RadixTreeMap where
  heap : Heap (List Ptr)
  roots : List Ptr

def forestPrefixLen := level.forestPrefixLen
def forestInsert := level.forestInsert

instance : RadixTree RadixTreeMap where
  new := ⟨⟨[]⟩,[]⟩
  insert := fun tree key payload => (level.insert tree.heap tree.roots key payload).map fun (heap,roots) => ⟨heap,roots⟩
  prefixLen := fun tree query => forestPrefixLen tree.heap tree.roots query 0

end L2

-- L3: a sorted vector up to 64 children, a hash map beyond.
namespace L3

def smallMax : Nat := 64

inductive Children where
  | small (v : List Ptr)
  | large (m : AList fun _ : Key => Ptr)

def findChild (heap : Heap Children) (children : Children) (target : Key) : Option (Except Unit Ptr) :=
  match children with
  | .small v => do
    match ← searchPtrs heap v target with
    | .ok idx => return .ok (← v[idx]?)
    | .error _ => return .error ()
  | .large m =>
    match m.lookup target with
    | some node => some (.ok node)
    | none => some (.error ())

def upgrade (heap : Heap Children) (v : List Ptr) : Option (AList fun _ : Key => Ptr) :=
  v.foldlM (fun map ptr => (heap.headOf ptr).map fun key => map.insert key ptr) ∅

def insertChild (heap : Heap Children) (children : Children) (node : Ptr) : Option Children := do
  let key ← heap.headOf node
  match children with
  | .small v =>
    if smallMax ≤ v.length then
      let map ← upgrade heap v
      return .large (map.insert key node)
    else
      match ← searchPtrs heap v key with
      | .ok idx => return .small (v.set idx node)
      | .error idx => return .small (v.insertIdx idx node)
  | .large m => return .large (m.insert key node)

def level : CellLevel Children Unit where
  fresh := .small []
  findChild := findChild
  insertChild := fun heap children _ node => insertChild heap children node
  only := fun heap suffix => insertChild heap (.small []) suffix
  both := fun heap suffix leaf => do insertChild heap (← insertChild heap (.small []) suffix) leaf

structure RadixTreeMap where
  heap : Heap Children
  roots : Children

def childrenPrefixLen := level.forestPrefixLen
def childrenInsert := level.forestInsert

instance : RadixTree RadixTreeMap where
  new := ⟨⟨[]⟩,.small []⟩
  insert := fun tree key payload => (level.insert tree.heap tree.roots key payload).map fun (heap,roots) => ⟨heap,roots⟩
  prefixLen := fun tree query => childrenPrefixLen tree.heap tree.roots query 0

end L3
end BlitzRouter.Lowering
