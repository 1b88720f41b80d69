import BlitzRouter.Arena
import BlitzRouter.CommonPrefix
import Mathlib.Data.List.AList

namespace BlitzRouter.Radix

-- Hashes and block ids are u64 in the source; they are only compared, hashed
-- and used as indices, so naturals carry them.
abbrev Hash := Nat
abbrev BlockId := Nat
abbrev Ptr := Nat
abbrev Bids := List BlockId

def smallMax : Nat := 32

inductive Children where
  | small (v : List Ptr)
  | large (m : AList fun _ : Hash => Ptr)

structure Node where
  children : Children
  value : List Hash
  payload : List Bids

inductive CommonPrefixInner where
  | noMatch (node : Ptr)
  | partialMatch (node : Ptr) (common : Nat)
  | fullMatch (node : Ptr)

-- The stored child pointers; the order in which a map hands them out is unspecified.
def Children.ptrs : Children → List Ptr
  | .small v => v
  | .large m => m.entries.map Sigma.snd

def Children.isEmpty : Children → Bool
  | .small v => v.isEmpty
  | .large m => m.entries.isEmpty

def Children.clear : Children → Children
  | .small _ => .small []
  | .large _ => .large ∅

def Node.isEmpty (n : Node) : Bool :=
  n.children.isEmpty && n.value.isEmpty && n.payload.isEmpty

-- Allocations live in `heap`; a null pointer is `none`. The spin lock and the
-- reader threads it serialises are outside this model.
structure RadixTreeBlockHash where
  heap : Arena Node
  root : Ptr
  size : Nat
  nodes : Nat
  blockToNode : List (Option Ptr)
  epoch : Nat

-- The interface every prefix matcher of the router implements. The epoch is a `u64`
-- in the source: no run makes the 2^64 writes after which it would come back. `none` is a
-- panic: a failed assertion, an index out of bounds or a dead pointer.
class BlockHash (β : Type) where
  new : Nat → β
  len : β → Nat
  isEmpty : β → Bool
  insert : β → List Hash → List BlockId → Option (β × Nat)
  get : β → List Hash → Option Nat
  remove : β → List BlockId → Option β
  epoch : β → Nat

namespace RadixTreeBlockHash

def setChildren (t : RadixTreeBlockHash) (p : Ptr) (children : Children) : Option RadixTreeBlockHash := do
  let n ← t.heap.read p
  return {t with heap := t.heap.write p {n with children}}

-- `drop(Box::from_raw(node))`; freeing a cell twice is not defined.
def lazyGc (t : RadixTreeBlockHash) (p : Ptr) : Option RadixTreeBlockHash := do
  let _ ← t.heap.read p
  return {t with heap := t.heap.free p,nodes := t.nodes-1}

def newNode (t : RadixTreeBlockHash) (node : Node) : RadixTreeBlockHash × Ptr :=
  ({t with heap := t.heap.alloc node,nodes := t.nodes+1},t.heap.next)

-- Points every listed id at `target` after asserting what its slot held.
def repoint (expected : Option Ptr → Bool) (target : Ptr) :
    List BlockId → List (Option Ptr) → Option (List (Option Ptr))
  | [],index => some index
  | id::rest,index => do
    let slot ← index[id]?
    if expected slot then repoint expected target rest (index.set id (some target)) else none

-- Sets the slots of the listed ids to null.
def unregister : List BlockId → List (Option Ptr) → Option (List (Option Ptr))
  | [],index => some index
  | id::rest,index => do
    let _ ← index[id]?
    unregister rest (index.set id none)

-- Registers one alias at a position unless the id already has a node.
def aliasAt (t : RadixTreeBlockHash) (p : Ptr) (i : Nat) (aliasBid : BlockId) : Option RadixTreeBlockHash := do
  let slot ← t.blockToNode[aliasBid]?
  match slot with
  | some _ => return t
  | none =>
    let n ← t.heap.read p
    let bids ← n.payload[i]?
    return {t with
      heap := t.heap.write p {n with payload := n.payload.set i (bids++[aliasBid])}
      blockToNode := t.blockToNode.set aliasBid (some p)}

def aliasFrom (t : RadixTreeBlockHash) (p : Ptr) (i : Nat) : List BlockId → Option RadixTreeBlockHash
  | [] => some t
  | aliasBid::rest => do
    let t ← t.aliasAt p i aliasBid
    aliasFrom t p (i+1) rest

def splitNodeAtInsert (t : RadixTreeBlockHash) (node : Ptr) (common : Nat) (blockHashes : List Hash)
    (blockIndices : List BlockId) : Option RadixTreeBlockHash := do
  if common < blockHashes.length ∧ common ≤ blockIndices.length then
    let n ← t.heap.read node
    if common ≤ n.value.length ∧ common ≤ n.payload.length then
      let split : Node := ⟨n.children,n.value.drop common,n.payload.drop common⟩
      let fresh : Node := ⟨.small [],blockHashes.drop common,(blockIndices.drop common).map fun b => [b]⟩
      let t := {t with heap := t.heap.write node ⟨.small [],n.value.take common,n.payload.take common⟩}
      let (t,splitNewNode) := t.newNode split
      let (t,insertNewNode) := t.newNode fresh
      let t ← t.aliasFrom node 0 (blockIndices.take common)
      let t ← t.setChildren node (.small [splitNewNode,insertNewNode])
      let index ← repoint (· == some node) splitNewNode split.payload.flatten t.blockToNode
      let index ← repoint (· == none) insertNewNode fresh.payload.flatten index
      return {t with blockToNode := index}
    else none
  else none

def commonPrefix (t : RadixTreeBlockHash) (node : Ptr) (key : List Hash) : Option CommonPrefixInner := do
  let n ← t.heap.read node
  let i := CommonPrefix.commonLen n.value key
  return if i = 0 then .noMatch node
    else if i = n.value.length then .fullMatch node
    else .partialMatch node i

-- The scan over a `Small` child vector: empty placeholders are collected, the
-- first child that shares a symbol with `key` stops it.
def scanSmall (t : RadixTreeBlockHash) (key : List Hash) :
    List Ptr → Option (RadixTreeBlockHash × List Ptr × Option CommonPrefixInner)
  | [] => some (t,[],none)
  | child::rest => do
    let n ← t.heap.read child
    if n.isEmpty then
      let t ← t.lazyGc child
      scanSmall t key rest
    else
      match ← t.commonPrefix child key with
      | .noMatch _ =>
        let (t,kept,hit) ← scanSmall t key rest
        return (t,child::kept,hit)
      | hit => return (t,child::rest,some hit)

def commonPrefixFullCombo : Nat → RadixTreeBlockHash → Ptr → List Hash →
    Option (RadixTreeBlockHash × CommonPrefixInner × List Hash)
  | 0,_,_,_ => none
  | fuel+1,t,subroot,key =>
    match key with
    | [] => some (t,.fullMatch subroot,[])
    | first::_ => do
      let n ← t.heap.read subroot
      match n.children with
      | .small v =>
        let (t,kept,hit) ← t.scanSmall key v
        let t ← t.setChildren subroot (.small kept)
        match hit with
        | some (.fullMatch child) =>
          let c ← t.heap.read child
          commonPrefixFullCombo fuel t child (key.drop c.value.length)
        | some (.partialMatch child common) => return (t,.partialMatch child common,key)
        | some (.noMatch _) => none
        | none => return (t,.fullMatch subroot,key)
      | .large m =>
        match m.lookup first with
        | none => return (t,.fullMatch subroot,key)
        | some child =>
          let c ← t.heap.read child
          if c.isEmpty then
            let t ← t.setChildren subroot (.large (m.erase first))
            let t ← t.lazyGc child
            return (t,.fullMatch subroot,key)
          else
            match ← t.commonPrefix child key with
            | .fullMatch _ => commonPrefixFullCombo fuel t child (key.drop c.value.length)
            | .partialMatch _ common => return (t,.partialMatch child common,key)
            | .noMatch _ => none

-- `collect` into a map: a later pair replaces an earlier one of the same key.
def collectHeads (t : RadixTreeBlockHash) : List Ptr → (AList fun _ : Hash => Ptr) →
    Option (AList fun _ : Hash => Ptr)
  | [],m => some m
  | p::rest,m => do
    let n ← t.heap.read p
    let first ← n.value.head?
    collectHeads t rest (m.insert first p)

-- A full vector becomes a map; a map must not hold the first hash yet.
def withChild (t : RadixTreeBlockHash) (newNode : Ptr) (blockHashes : List Hash) : Children → Option Children
  | .small v =>
    if (v++[newNode]).length > smallMax then (t.collectHeads (v++[newNode]) ∅).map .large
    else some (.small (v++[newNode]))
  | .large m => do
    let first ← blockHashes.head?
    match m.lookup first with
    | some _ => none
    | none => some (.large (m.insert first newNode))

def insertAsChild (t : RadixTreeBlockHash) (node : Ptr) (blockHashes : List Hash)
    (blockIndices : List BlockId) : Option RadixTreeBlockHash := do
  let fresh : Node := ⟨.small [],blockHashes,blockIndices.map fun b => [b]⟩
  let (t,newNode) := t.newNode fresh
  let n ← t.heap.read node
  let children ← t.withChild newNode blockHashes n.children
  let t ← t.setChildren node children
  let index ← repoint (· == none) newNode fresh.payload.flatten t.blockToNode
  return {t with blockToNode := index}

def aliasNode (t : RadixTreeBlockHash) (child : Ptr) (i : Nat) :
    List Hash → List Hash → List BlockId → Option (RadixTreeBlockHash × List Hash × List BlockId)
  | v::value,k::key,aliases =>
    if v = k then do
      let aliasBid ← aliases.head?
      let t ← t.aliasAt child i aliasBid
      aliasNode t child (i+1) value key aliases.tail
    else some (t,k::key,aliases)
  | _,key,aliases => some (t,key,aliases)

def findHead (t : RadixTreeBlockHash) (first : Hash) : List Ptr → Option (Option Ptr)
  | [] => some none
  | p::rest => do
    let n ← t.heap.read p
    if n.value.head? = some first then return some p else findHead t first rest

def childAt (t : RadixTreeBlockHash) (first : Hash) : Children → Option (Option Ptr)
  | .small v => t.findHead first v
  | .large m => some (m.lookup first)

def aliasWalk : Nat → RadixTreeBlockHash → Ptr → List Hash → List BlockId → Option RadixTreeBlockHash
  | 0,_,_,_,_ => none
  | fuel+1,t,cur,key,aliases =>
    match key with
    | [] => some t
    | first::_ => do
      let n ← t.heap.read cur
      match ← t.childAt first n.children with
      | none => return t
      | some child =>
        let c ← t.heap.read child
        let (t,key,aliases) ← t.aliasNode child 0 c.value key aliases
        aliasWalk fuel t child key aliases

def aliasPath (t : RadixTreeBlockHash) (key : List Hash) (aliases : List BlockId) : Option RadixTreeBlockHash :=
  aliasWalk (key.length+1) t t.root key aliases

-- The `Small` arm of the first-level match; it indexes `value[0]` of every
-- child that is not an empty placeholder.
def scanRoot (t : RadixTreeBlockHash) (key : List Hash) :
    List Ptr → Option (RadixTreeBlockHash × List Ptr × CommonPrefixInner)
  | [] => some (t,[],.noMatch t.root)
  | child::rest => do
    let n ← t.heap.read child
    if n.isEmpty then
      let t ← t.lazyGc child
      scanRoot t key rest
    else
      let first ← n.value.head?
      if some first = key.head? then
        let hit ← t.commonPrefix child key
        return (t,child::rest,hit)
      else
        let (t,kept,hit) ← scanRoot t key rest
        return (t,child::kept,hit)

def rootMatch (t : RadixTreeBlockHash) (key : List Hash) : Option (RadixTreeBlockHash × CommonPrefixInner) := do
  let n ← t.heap.read t.root
  match n.children with
  | .small v =>
    let (t,kept,hit) ← t.scanRoot key v
    let t ← t.setChildren t.root (.small kept)
    return (t,hit)
  | .large m =>
    let first ← key.head?
    match m.lookup first with
    | none => return (t,.noMatch t.root)
    | some child =>
      let c ← t.heap.read child
      if c.isEmpty then
        let t ← t.lazyGc child
        let t ← t.setChildren t.root (.large (m.erase first))
        return (t,.noMatch t.root)
      else return (t,← t.commonPrefix child key)

-- The leaf grows in place: its suffix gets one position per remaining hash.
def extendLeaf (t : RadixTreeBlockHash) (node : Ptr) (key1 : List Hash) (remainValue : List BlockId) :
    Option RadixTreeBlockHash := do
  let n ← t.heap.read node
  let grown : Node := ⟨n.children,n.value++key1,n.payload++remainValue.map fun b => [b]⟩
  let t := {t with heap := t.heap.write node grown}
  let index ← repoint (fun slot => slot == none || slot == some node) node remainValue t.blockToNode
  return {t with blockToNode := index}

-- The rest of `insert_inner` below a first-level node, with `key1` not matched.
def insertBelow (t : RadixTreeBlockHash) (key : List Hash) (value : List BlockId) (key1 : List Hash) :
    CommonPrefixInner → Option (RadixTreeBlockHash × Nat)
  | .fullMatch node => do
    let fullMatchLen := key.length-key1.length
    if key1 = [] then
      let t ← t.aliasPath key value
      return (t,0)
    else
      if fullMatchLen ≤ value.length ∧ key1.length = (value.drop fullMatchLen).length then
        let t ← t.aliasPath (key.take fullMatchLen) (value.take fullMatchLen)
        let n ← t.heap.read node
        let t ← if n.children.isEmpty then t.extendLeaf node key1 (value.drop fullMatchLen)
          else t.insertAsChild node key1 (value.drop fullMatchLen)
        return (t,key1.length)
      else none
  | .partialMatch node common => do
    let fullMatchLen := key.length-key1.length
    if key1.length = common then
      let t ← t.aliasPath key value
      return (t,0)
    else
      if fullMatchLen ≤ value.length ∧ key1.length = (value.drop fullMatchLen).length then
        let t ← t.aliasPath (key.take fullMatchLen) (value.take fullMatchLen)
        let t ← t.splitNodeAtInsert node common key1 (value.drop fullMatchLen)
        return (t,key1.length-common)
      else none
  | .noMatch _ => none

def insertInner (t : RadixTreeBlockHash) (key : List Hash) (value : List BlockId) :
    Option (RadixTreeBlockHash × Nat) := do
  if key = [] then return (t,0)
  let (t,hit) ← t.rootMatch key
  match hit with
  | .fullMatch node =>
    let c ← t.heap.read node
    let (t,inner,key1) ← commonPrefixFullCombo (key.length+1) t node (key.drop c.value.length)
    t.insertBelow key value key1 inner
  | .partialMatch node common =>
    if key.length = common then
      let t ← t.aliasPath key value
      return (t,0)
    else
      let t ← t.splitNodeAtInsert node common key value
      return (t,key.length-common)
  | .noMatch node =>
    if node = t.root then
      let t ← t.insertAsChild t.root key value
      return (t,key.length)
    else none

def getChild (t : RadixTreeBlockHash) (key : List Hash) : List Ptr → Option (Option (Ptr × Nat))
  | [] => some none
  | child::rest => do
    let n ← t.heap.read child
    let i := CommonPrefix.commonLen n.value key
    if i = 0 then getChild t key rest else return some (child,i)

-- One level of the descent: the child that shares a symbol with `key`, if any.
def nextChild (t : RadixTreeBlockHash) (key : List Hash) (first : Hash) : Children → Option (Option (Ptr × Nat))
  | .small v => t.getChild key v
  | .large m =>
    match m.lookup first with
    | none => some none
    | some child => do
      let c ← t.heap.read child
      if c.isEmpty then some none
      else some (some (child,CommonPrefix.commonLen c.value key))

-- `prefix_len` is carried by the caller: the loop returns how much further it matches.
def getLoop : Nat → RadixTreeBlockHash → Ptr → List Hash → Option Nat
  | 0,_,_,_ => none
  | fuel+1,t,cur,key => do
    let n ← t.heap.read cur
    match key with
    | [] => return 0
    | first::_ =>
      match ← t.nextChild key first n.children with
      | none => return 0
      | some (child,i) =>
        let c ← t.heap.read child
        if i < c.value.length then return i
        else return i+(← getLoop fuel t child (key.drop i))

def getInner (t : RadixTreeBlockHash) (blockHashes : List Hash) : Option Nat :=
  getLoop (blockHashes.length+1) t t.root blockHashes

def clearInner : Nat → RadixTreeBlockHash → Ptr → Bool → Option (RadixTreeBlockHash × Nat)
  | 0,_,_,_ => none
  | fuel+1,t,node,toDrop => do
    let n ← t.heap.read node
    if n.isEmpty then
      let t ← if toDrop then t.lazyGc node else some t
      return (t,0)
    else
      let index ← unregister n.payload.flatten t.blockToNode
      let t := {t with blockToNode := index,heap := t.heap.write node {n with value := [],payload := []}}
      let (t,cleared) ← n.children.ptrs.foldlM (fun (t,cleared) child => do
        let (t,more) ← clearInner fuel t child toDrop
        return (t,cleared+more)) (t,n.payload.flatten.length)
      let t ← if toDrop then t.lazyGc node else some t
      return (t,cleared)

-- No path is longer than the number of blocks, so this is fuel enough.
def clearFuel (t : RadixTreeBlockHash) : Nat := t.blockToNode.length+2

def clearChildren (t : RadixTreeBlockHash) (children : List Ptr) : Option (RadixTreeBlockHash × Nat) :=
  children.foldlM (fun (u,cleared) child => do
    let (u,more) ← clearInner t.clearFuel u child true
    return (u,cleared+more)) (t,0)

-- Cuts a node at `pos` and evicts everything that hangs below it. The node stays:
-- its parent collects it on a later scan.
def truncateAt (t : RadixTreeBlockHash) (node : Ptr) (n : Node) (pos : Nat) : Option (RadixTreeBlockHash × Nat) := do
  let tail := (n.payload.drop (pos+1)).flatten
  let index ← unregister tail t.blockToNode
  let t := {t with
    heap := t.heap.write node {n with value := n.value.take pos,payload := n.payload.take pos}
    blockToNode := index}
  if n.children.isEmpty then return (t,tail.length)
  else
    let (t,cleared) ← t.clearChildren n.children.ptrs
    let t ← t.setChildren node n.children.clear
    return (t,tail.length+cleared)

def removeBlock (t : RadixTreeBlockHash) (blockId : BlockId) : Option (RadixTreeBlockHash × Nat) := do
  let slot ← t.blockToNode[blockId]?
  match slot with
  | none => return (t,0)
  | some node =>
    let n ← t.heap.read node
    let pos ← n.payload.findIdx? fun bids => bids.contains blockId
    let bids ← n.payload[pos]?
    let kept := bids.erase blockId
    let t := {t with
      heap := t.heap.write node {n with payload := n.payload.set pos kept}
      blockToNode := t.blockToNode.set blockId none}
    if kept ≠ [] then return (t,1)
    else
      let (t,more) ← t.truncateAt node n pos
      return (t,1+more)

def removeInner (t : RadixTreeBlockHash) (blockIndices : List BlockId) : Option (RadixTreeBlockHash × Nat) :=
  blockIndices.reverse.foldlM (fun (t,nblockCanary) blockId => do
    let (t,removed) ← t.removeBlock blockId
    return (t,nblockCanary+removed)) (t,0)

def new (numBlocks : Nat) : RadixTreeBlockHash where
  heap := ⟨[some ⟨.small [],[],[]⟩]⟩
  root := 0
  size := 0
  nodes := 1
  blockToNode := List.replicate numBlocks none
  epoch := 0

def len (t : RadixTreeBlockHash) : Nat := t.size

def isEmpty (t : RadixTreeBlockHash) : Bool := t.size == 0

def insert (t : RadixTreeBlockHash) (blockHashes : List Hash) (blockIndices : List BlockId) :
    Option (RadixTreeBlockHash × Nat) := do
  let (t,n) ← t.insertInner blockHashes blockIndices
  return ({t with size := t.size+n,epoch := t.epoch+1},n)

def get (t : RadixTreeBlockHash) (blockHashes : List Hash) : Option Nat := t.getInner blockHashes

def remove (t : RadixTreeBlockHash) (blockIndices : List BlockId) : Option RadixTreeBlockHash := do
  let (t,removed) ← {t with epoch := t.epoch+1}.removeInner blockIndices
  return {t with size := t.size-removed}

end RadixTreeBlockHash

instance : BlockHash RadixTreeBlockHash where
  new := RadixTreeBlockHash.new
  len := RadixTreeBlockHash.len
  isEmpty := RadixTreeBlockHash.isEmpty
  insert := RadixTreeBlockHash.insert
  get := RadixTreeBlockHash.get
  remove := RadixTreeBlockHash.remove
  epoch := fun t => t.epoch

end BlitzRouter.Radix
