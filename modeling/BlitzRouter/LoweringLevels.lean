import BlitzRouter.CompressedTrie
import BlitzRouter.SortedSearch

namespace BlitzRouter.Lowering

-- Symbols and payloads are u64 in the source; they are only compared, hashed
-- and copied.
abbrev Key := Nat

-- The trait the four levels share. `none` is a panic: a failed assertion, a
-- read out of bounds or a dead pointer.
class RadixTree (τ : Type) where
  new : τ
  insert : τ → List Key → List Key → Option τ
  prefixLen : τ → List Key → Option Nat

def insertAll {τ : Type} [RadixTree τ] (entries : List (List Key × List Key)) (tree : τ) : Option τ :=
  entries.foldlM (fun tree entry => RadixTree.insert tree entry.1 entry.2) tree

-- A level refines the trie as a value when its calls follow it one by one.
structure Refines (τ : Type) [RadixTree τ] (Represents : τ → Forest Key Key → Prop) : Prop where
  new : Represents RadixTree.new Forest.empty
  insert : ∀ {tree F key payload}, Represents tree F → F.Valid → key ≠ [] → payload.length = key.length →
    ∃ tree', RadixTree.insert tree key payload = some tree' ∧ Represents tree' (F.insert key payload)
  prefixLen : ∀ {tree F}, Represents tree F → F.Valid → ∀ query, RadixTree.prefixLen tree query = some (F.prefixLen query)

-- Induction on the inserts from any tree that stands for a valid trie.
theorem Refines.run {τ : Type} [RadixTree τ] {Represents : τ → Forest Key Key → Prop} (refines : Refines τ Represents)
    {entries : List (List Key × List Key)} (legal : ∀ entry ∈ entries, entry.1 ≠ [] ∧ entry.2.length = entry.1.length)
    {tree : τ} {F : Forest Key Key} (stands : Represents tree F) (valid : F.Valid) :
    ∃ tree', insertAll entries tree = some tree' ∧
      ∀ query, RadixTree.prefixLen tree' query = some (max (F.prefixLen query) (longest (entries.map Prod.fst) query)) := by
  induction entries generalizing tree F with
  | nil =>
    refine ⟨tree,rfl,fun query => ?_⟩
    rw [refines.prefixLen stands valid]
    exact congrArg some (Nat.max_zero _).symm
  | cons entry entries ih =>
    obtain ⟨filled,paired⟩ := legal entry List.mem_cons_self
    obtain ⟨next,inserted,follows⟩ := refines.insert stands valid filled paired
    obtain ⟨tree',rest,answers⟩ := ih (fun other member => legal other (List.mem_cons_of_mem entry member)) follows
      (Forest.valid_insert valid paired)
    refine ⟨tree',?_,fun query => ?_⟩
    · rw [insertAll,List.foldlM_cons,inserted]
      exact rest
    · rw [answers,Forest.prefixLen_insert valid paired,List.map_cons,longest_cons,Nat.max_assoc]

-- Every query is answered with the largest prefix it shares with an inserted key.
def LongestMatch (τ : Type) [RadixTree τ] (entries : List (List Key × List Key)) (answer : List Key → Nat) : Prop :=
  ∃ tree : τ, insertAll entries (RadixTree.new : τ) = some tree ∧ ∀ query, RadixTree.prefixLen tree query = some (answer query)

theorem Refines.longestMatch {τ : Type} [RadixTree τ] {Represents : τ → Forest Key Key → Prop} (refines : Refines τ Represents)
    {entries : List (List Key × List Key)} (legal : ∀ entry ∈ entries, entry.1 ≠ [] ∧ entry.2.length = entry.1.length) :
    LongestMatch τ entries (longest (entries.map Prod.fst)) := by
  obtain ⟨tree,inserted,answers⟩ := refines.run legal refines.new Forest.valid_empty
  refine ⟨tree,inserted,fun query => ?_⟩
  rw [answers,Forest.prefixLen_empty,Nat.zero_max]

-- The loops of `node_prefix_len` and of `node_insert`: the first position from
-- `i` on where the edge and the key differ or one of them ends.
def agreeFrom (value key : List Key) (offset i : Nat) : Nat :=
  if i < value.length ∧ offset+i < key.length then
    if value[i]? = key[offset+i]? then agreeFrom value key offset (i+1) else i
  else i
termination_by value.length-i

theorem le_agreeFrom (value key : List Key) (offset i : Nat) : i ≤ agreeFrom value key offset i := by
  fun_induction agreeFrom value key offset i with
  | case1 i inside same ih => exact Nat.le_trans (Nat.le_succ i) ih
  | case2 => exact Nat.le_refl _
  | case3 => exact Nat.le_refl _

-- `for j in 0..vlen { node.payload[j] = payload[offset + j] }`
def copyPayload (payload : List Key) (offset vlen : Nat) (old : List Key) : Option (List Key) :=
  (List.range vlen).foldlM (fun old j => if j < old.length then payload[offset+j]?.map (old.set j) else none) old

-- `source[from..]`
def sliceFrom (source : List Key) (start : Nat) : Option (List Key) :=
  if start ≤ source.length then some (source.drop start) else none

-- The loops of the Verus program that push one element a turn.
def pushRange (source : List Key) (start stop : Nat) : Option (List Key) := (List.range' start (stop-start)).mapM fun j => source[j]?

-- A node of the levels that own their children.
structure Node where
  value : List Key
  payload : List Key
  children : List Node

-- What these levels do differently. A failed search hands over the position the
-- new child goes to.
structure BoxLevel where
  findChild : List Node → Key → Option (Except Nat Nat)
  putBack : List Node → Nat → Node → List Node
  leafValue : List Key → Nat → Option (List Key)
  leafPayload : List Key → List Key → Nat → Option (List Key)
  suffixOf : List Key → Nat → Nat → Option (List Key)
  arrange : Node → Node → Option (List Node)

namespace BoxLevel
variable (level : BoxLevel)

mutual
def forestPrefixLen (forest : List Node) (query : List Key) (offset : Nat) : Option Nat :=
  if inside : offset < query.length then do
    match ← level.findChild forest (query[offset]) with
    | .ok idx => nodePrefixLen (← forest[idx]?) query offset inside
    | .error _ => return offset
  else some offset
termination_by (query.length-offset,1)

def nodePrefixLen (node : Node) (query : List Key) (offset : Nat) (_ : offset < query.length) : Option Nat :=
  let matched := agreeFrom node.value query offset 1
  if matched < node.value.length then some (offset+matched) else forestPrefixLen node.children query (offset+matched)
termination_by (query.length-offset,0)
decreasing_by
  have moved := le_agreeFrom node.value query offset 1
  refine Prod.Lex.left _ _ ?_
  omega
end

def makeLeaf (key payload : List Key) (offset : Nat) : Option Node := do
  return ⟨← level.leafValue key offset,← level.leafPayload key payload offset,[]⟩

mutual
def forestInsert (forest : List Node) (key payload : List Key) (offset : Nat) : Option (List Node) :=
  if inside : offset < key.length then do
    match ← level.findChild forest (key[offset]) with
    | .error ins => return forest.insertIdx ins (← level.makeLeaf key payload offset)
    | .ok idx =>
      let boxed ← nodeInsert (← forest[idx]?) key payload offset inside
      return level.putBack forest idx boxed
  else none
termination_by (key.length-offset,1)

def nodeInsert (node : Node) (key payload : List Key) (offset : Nat) (_ : offset < key.length) : Option Node :=
  let vlen := node.value.length
  let common := agreeFrom node.value key offset 1
  if common = vlen ∧ offset+common = key.length then do
    return {node with payload := ← copyPayload payload offset vlen node.payload}
  else if common = vlen then do
    return {node with children := ← forestInsert node.children key payload (offset+common)}
  else do
    let suffix : Node := ⟨← level.suffixOf node.value common vlen,← level.suffixOf node.payload common vlen,node.children⟩
    let children ← if offset+common < key.length then do level.arrange suffix (← level.makeLeaf key payload (offset+common))
      else some [suffix]
    return ⟨node.value.take common,node.payload.take common,children⟩
termination_by (key.length-offset,0)
decreasing_by
  have moved := le_agreeFrom node.value key offset 1
  refine Prod.Lex.left _ _ ?_
  omega
end

def insert (roots : List Node) (key payload : List Key) : Option (List Node) :=
  if key ≠ [] ∧ key.length = payload.length then level.forestInsert roots key payload 0 else none

end BoxLevel

-- L0: children in the order of their insertion, found by a linear scan; the
-- child is removed, modified and inserted again.
namespace L0

def findChild (forest : List Node) (target : Key) : Option (Except Nat Nat) :=
  some (match forest.findIdx? fun child => child.value.head? = some target with
    | some idx => .ok idx
    | none => .error forest.length)

def level : BoxLevel where
  findChild := findChild
  putBack := fun forest idx boxed => (forest.eraseIdx idx).insertIdx idx boxed
  leafValue := sliceFrom
  leafPayload := fun _ payload offset => sliceFrom payload offset
  suffixOf := fun source common _ => sliceFrom source common
  arrange := fun suffix leaf => some [suffix,leaf]

structure RadixTreeMap where
  roots : List Node

def forestPrefixLen := level.forestPrefixLen
def forestInsert := level.forestInsert

instance : RadixTree RadixTreeMap where
  new := ⟨[]⟩
  insert := fun tree key payload => (level.insert tree.roots key payload).map RadixTreeMap.mk
  prefixLen := fun tree query => forestPrefixLen tree.roots query 0

end L0

-- The Verus program: as L0, with every slice copied element by element.
namespace Verified

def level : BoxLevel where
  findChild := L0.findChild
  putBack := fun forest idx boxed => (forest.eraseIdx idx).insertIdx idx boxed
  leafValue := fun key offset => pushRange key offset key.length
  leafPayload := fun key payload offset => pushRange payload offset key.length
  suffixOf := pushRange
  arrange := fun suffix leaf => some [suffix,leaf]

structure RadixTreeMap where
  roots : List Node

def forestPrefixLen := level.forestPrefixLen
def forestInsert := level.forestInsert

instance : RadixTree RadixTreeMap where
  new := ⟨[]⟩
  insert := fun tree key payload => (level.insert tree.roots key payload).map RadixTreeMap.mk
  prefixLen := fun tree query => forestPrefixLen tree.roots query 0

end Verified

-- L1: children sorted by their first symbol and found by binary search.
namespace L1

def findChild (children : List Node) (target : Key) : Option (Except Nat Nat) :=
  binarySearch (fun i => children[i]?.bind fun c => c.value.head?) target children.length

def arrange (suffix leaf : Node) : Option (List Node) := do
  let suffixKey ← suffix.value.head?
  let leafKey ← leaf.value.head?
  return if suffixKey < leafKey then [suffix,leaf] else [leaf,suffix]

def level : BoxLevel where
  findChild := findChild
  putBack := List.set
  leafValue := sliceFrom
  leafPayload := fun _ payload offset => sliceFrom payload offset
  suffixOf := fun source common _ => sliceFrom source common
  arrange := arrange

structure RadixTreeMap where
  roots : List Node

def forestPrefixLen := level.forestPrefixLen
def forestInsert := level.forestInsert

instance : RadixTree RadixTreeMap where
  new := ⟨[]⟩
  insert := fun tree key payload => (level.insert tree.roots key payload).map RadixTreeMap.mk
  prefixLen := fun tree query => forestPrefixLen tree.roots query 0

end L1
end BlitzRouter.Lowering
