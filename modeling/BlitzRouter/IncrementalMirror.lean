import BlitzRouter.SchedSnapshot

namespace BlitzRouter
open Radix

-- One hash an edge; `owners` are the requests whose sequence passes through.
inductive TrieNode where
  | node (children : List (Hash × TrieNode)) (owners : List RequestId)

namespace TrieNode

def children : TrieNode → List (Hash × TrieNode)
  | .node children _ => children

def owners : TrieNode → List RequestId
  | .node _ owners => owners

def empty : TrieNode := .node [] []

def isEmpty (n : TrieNode) : Bool := n.owners.isEmpty && n.children.isEmpty

def child (n : TrieNode) (h : Hash) : Option TrieNode := n.children.lookup h

def removeChild (n : TrieNode) (h : Hash) : TrieNode := .node (n.children.filter fun c => c.1 != h) n.owners

def setChild (n : TrieNode) (h : Hash) (c : TrieNode) : TrieNode := .node ((h,c)::(n.removeChild h).children) n.owners

def setOwners (n : TrieNode) (owners : List RequestId) : TrieNode := .node n.children owners

def claim (rid : RequestId) : TrieNode → List Hash → TrieNode
  | n,[] => n
  | n,h::rest =>
    let c := (n.child h).getD empty
    n.setChild h (claim rid (c.setOwners (c.owners.insert rid)) rest)

def stripOwnerAlongPath (rid : RequestId) : TrieNode → List Hash → TrieNode
  | n,[] => n
  | n,h::rest =>
    match n.child h with
    | none => n
    | some c => n.setChild h (stripOwnerAlongPath rid (c.setOwners (c.owners.erase rid)) rest)

def pruneEmpty : TrieNode → List Hash → TrieNode
  | n,[] => n
  | n,h::rest =>
    match n.child h with
    | none => n
    | some c =>
      let c := pruneEmpty c rest
      if c.isEmpty then n.removeChild h else n.setChild h c

def get : TrieNode → List Hash → Nat
  | _,[] => 0
  | n,h::rest =>
    match n.child h with
    | none => 0
    | some c => get c rest+1

end TrieNode

structure RadixTreeReqIdHash where
  root : TrieNode
  hashOwners : Table Hash (List RequestId)
  epoch : Nat

namespace RadixTreeReqIdHash

def new : RadixTreeReqIdHash := ⟨TrieNode.empty,∅,0⟩

def insertHashes (t : RadixTreeReqIdHash) (hashes : List Hash) (rid : RequestId) : RadixTreeReqIdHash :=
  if hashes = [] then t
  else ⟨t.root.claim rid hashes,
    hashes.foldl (fun owners h => owners.insert h (((owners.lookup h).getD []).insert rid)) t.hashOwners,t.epoch+1⟩

def disown (rid : RequestId) (owners : Table Hash (List RequestId)) (h : Hash) : Table Hash (List RequestId) :=
  match owners.lookup h with
  | none => owners
  | some set => if (set.erase rid).isEmpty then owners.erase h else owners.insert h (set.erase rid)

def removeByHashes (t : RadixTreeReqIdHash) (hashes : List Hash) (rid : RequestId) : RadixTreeReqIdHash :=
  if hashes = [] then t
  else ⟨(t.root.stripOwnerAlongPath rid hashes).pruneEmpty hashes,hashes.foldl (disown rid) t.hashOwners,t.epoch+1⟩

def get (t : RadixTreeReqIdHash) (hashes : List Hash) : Nat := t.root.get hashes

def ownersOf (t : RadixTreeReqIdHash) (h : Hash) : List RequestId := (t.hashOwners.lookup h).getD []

-- Only a child of the root is dropped, whatever the depth of the hash.
def evictOrphanHash (t : RadixTreeReqIdHash) (h : Hash) : RadixTreeReqIdHash :=
  match t.root.child h with
  | none => t
  | some _ => ⟨t.root.removeChild h,t.hashOwners.erase h,t.epoch+1⟩

end RadixTreeReqIdHash

structure IncrementalMirror where
  tree : RadixTreeReqIdHash
  byRequest : Table RequestId (List Hash)

namespace IncrementalMirror

def new : IncrementalMirror := ⟨RadixTreeReqIdHash.new,∅⟩

def removeRequest (x : IncrementalMirror) (rid : RequestId) : IncrementalMirror :=
  match x.byRequest.lookup rid with
  | none => x
  | some prev => ⟨x.tree.removeByHashes prev rid,x.byRequest.erase rid⟩

def insertRequest (x : IncrementalMirror) (rid : RequestId) (hashes : List Hash) : IncrementalMirror :=
  if hashes = [] then x
  else
    let x := x.removeRequest rid
    ⟨x.tree.insertHashes hashes rid,x.byRequest.insert rid hashes⟩

-- The first word of a backend hash; the array is never empty.
def backendHashToKey (h : List Hash) : Hash := h.headD 0

def evict (sched : SchedSnapshot) (x : IncrementalMirror) (evictedHash : List Hash) : IncrementalMirror :=
  let key := backendHashToKey evictedHash
  if (x.tree.ownersOf key).any sched.isInFlight then x else {x with tree := x.tree.evictOrphanHash key}

def applySse (x : IncrementalMirror) (m : EngineStepOutput) (sched : SchedSnapshot) : IncrementalMirror :=
  let x := m.evictedBlockHashes.foldl (evict sched) x
  let x := (m.outputs.filter fun o => o.isFinished).foldl (fun x o => x.removeRequest o.requestId) x
  let x := m.abortedRequests.foldl removeRequest x
  m.preemptedIds.foldl removeRequest x

def prefixMatch (x : IncrementalMirror) (hashes : List Hash) : Nat := x.tree.get hashes

end IncrementalMirror
end BlitzRouter
