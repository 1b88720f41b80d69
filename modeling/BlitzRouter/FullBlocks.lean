import Mathlib.Data.List.Basic
import Mathlib.Data.List.Range

namespace BlitzRouter

-- A sequence cut into blocks of one size, and a digest chained along them: each
-- block is digested under the digest of the one before it.
namespace FullBlocks
variable {α β : Type}

def firstBlocks (size count : Nat) (xs : List α) : List (List α) :=
  (List.range count).map fun i => (xs.drop (i*size)).take size

def fullBlocks (size : Nat) (xs : List α) : List (List α) := firstBlocks size (xs.length/size) xs

def leftOver (size : Nat) (xs : List α) : List α := xs.drop (xs.length/size*size)

def chain (digest : List α → β → β) : β → List (List α) → List β
  | _,[] => []
  | seed,block::rest => digest block seed::chain digest (digest block seed) rest

def lastDigest (digest : List α → β → β) (seed : β) (blocks : List (List α)) : β :=
  blocks.foldl (fun seed block => digest block seed) seed

def seedAt (digests : List β) (seed : β) : Nat → β
  | 0 => seed
  | i+1 => digests[i]?.getD seed

section Blocks
variable {size count : Nat} {xs ys : List α}

@[simp] theorem firstBlocks_length : (firstBlocks size count xs).length = count := by simp [firstBlocks]

@[simp] theorem firstBlocks_zero : firstBlocks size 0 xs = [] := rfl

theorem firstBlocks_succ : firstBlocks size (count+1) xs = firstBlocks size count xs++[(xs.drop (count*size)).take size] := by
  simp [firstBlocks,List.range_succ]

theorem firstBlocks_getElem? (inside : i < count) : (firstBlocks size count xs)[i]? = some ((xs.drop (i*size)).take size) := by
  simp [firstBlocks,inside]

theorem firstBlocks_append (fits : count*size ≤ xs.length) : firstBlocks size count (xs++ys) = firstBlocks size count xs := by
  refine List.map_congr_left fun i member => ?_
  have inside : i+1 ≤ count := List.mem_range.mp member
  have reach : (i+1)*size ≤ xs.length := Nat.le_trans (Nat.mul_le_mul_right size inside) fits
  rw [Nat.succ_mul] at reach
  rw [List.drop_append_of_le_length (by omega),List.take_append_of_le_length (by rw [List.length_drop]; omega)]

theorem full_of_mem (fits : count*size ≤ xs.length) (member : block ∈ firstBlocks size count xs) : block.length = size := by
  obtain ⟨i,inside,rfl⟩ := List.mem_map.mp member
  have next : i+1 ≤ count := List.mem_range.mp inside
  have reach : (i+1)*size ≤ xs.length := Nat.le_trans (Nat.mul_le_mul_right size next) fits
  rw [Nat.succ_mul] at reach
  rw [List.length_take,List.length_drop]
  omega

theorem leftOver_length : (leftOver size xs).length = xs.length%size := by
  have division := Nat.div_add_mod' xs.length size
  rw [leftOver,List.length_drop]
  omega

end Blocks

section Chain
variable {digest : List α → β → β} {seed : β} {blocks more : List (List α)} {block : List α}

@[simp] theorem chain_length : (chain digest seed blocks).length = blocks.length := by
  induction blocks generalizing seed with
  | nil => rfl
  | cons block rest ih => simp [chain,ih]

theorem chain_append : chain digest seed (blocks++more) =
    chain digest seed blocks++chain digest (lastDigest digest seed blocks) more := by
  induction blocks generalizing seed with
  | nil => rfl
  | cons block rest ih => simp [chain,lastDigest,ih]

theorem chain_snoc : chain digest seed (blocks++[block]) =
    chain digest seed blocks++[digest block (lastDigest digest seed blocks)] := by
  rw [chain_append]
  rfl

theorem lastDigest_snoc : lastDigest digest seed (blocks++[block]) = digest block (lastDigest digest seed blocks) := by
  simp [lastDigest]

-- Each digest of a chain is that of its block under the digest before it.
theorem chain_linked (found : blocks[i]? = some block) :
    (chain digest seed blocks)[i]? = some (digest block (seedAt (chain digest seed blocks) seed i)) := by
  induction blocks generalizing seed i with
  | nil => simp at found
  | cons first rest ih =>
    cases i with
    | zero =>
      have same : first = block := by simpa using found
      simp [chain,seedAt,same]
    | succ i =>
      have later : rest[i]? = some block := by simpa using found
      have linked : (chain digest (digest first seed) rest)[i]? =
          some (digest block (seedAt (chain digest (digest first seed) rest) (digest first seed) i)) := ih later
      rw [chain,List.getElem?_cons_succ,linked]
      cases i with
      | zero => simp [seedAt]
      | succ i =>
        have inside : i < (chain digest (digest first seed) rest).length := by
          have bound := (List.getElem?_eq_some_iff.mp later).1
          rw [chain_length]
          omega
        simp [seedAt,List.getElem?_eq_getElem inside]

end Chain
end FullBlocks
end BlitzRouter
