import Mathlib.Data.List.Basic
import Mathlib.Order.Lattice

namespace BlitzRouter
variable {κ : Type} [LinearOrder κ] {keys : List κ} {target : κ}

-- The loop of `binary_search_by` in the standard library. `probe` reads the key
-- at a position; where it panics so does the search.
def narrow (probe : Nat → Option κ) (target : κ) (size base : Nat) : Option Nat :=
  if 1 < size then do
    let key ← probe (base+size/2)
    narrow probe target (size-size/2) (if target < key then base else base+size/2)
  else some base
termination_by size

-- `.ok` is the position of the target, `.error` the one where it belongs.
def binarySearch (probe : Nat → Option κ) (target : κ) (size : Nat) : Option (Except Nat Nat) :=
  if size = 0 then some (.error 0)
  else do
    let base ← narrow probe target size 0
    let key ← probe base
    return if key = target then .ok base else .error (if key < target then base+1 else base)

def Located (keys : List κ) (target : κ) : Except Nat Nat → Prop
  | .ok i => keys[i]? = some target
  | .error i => i ≤ keys.length ∧ (∀ key ∈ keys.take i, key < target) ∧ ∀ key ∈ keys.drop i, target < key

theorem sorted_at (sorted : keys.Pairwise (· < ·)) {i j : Nat} {x y : κ} (before : i < j) (left : keys[i]? = some x)
    (right : keys[j]? = some y) : x < y := by
  obtain ⟨bound₁,here⟩ := List.getElem?_eq_some_iff.mp left
  obtain ⟨bound₂,there⟩ := List.getElem?_eq_some_iff.mp right
  rw [← here,← there]
  exact List.pairwise_iff_getElem.mp sorted i j bound₁ bound₂ before

-- What the loop knows of the window that begins at `base` and has `size` positions.
structure Window (keys : List κ) (target : κ) (size base : Nat) : Prop where
  fits : base+size ≤ keys.length
  above : ∀ i key, base+size ≤ i → keys[i]? = some key → target < key
  below : base = 0 ∨ ∀ key, keys[base]? = some key → key ≤ target

-- Induction on the size of the window: it loses half of it each turn.
theorem narrow_window {probe : Nat → Option κ} (sorted : keys.Pairwise (· < ·)) (read : ∀ i, i < keys.length → probe i = keys[i]?)
    {size base : Nat} (some_left : 0 < size) (window : Window keys target size base) :
    ∃ last, narrow probe target size base = some last ∧ Window keys target 1 last := by
  induction size using Nat.strongRecOn generalizing base with
  | _ size ih =>
    have fits := window.fits
    rw [narrow]
    by_cases more : 1 < size
    · have inside : base+size/2 < keys.length := by omega
      have here : keys[base+size/2]? = some (keys[base+size/2]) := List.getElem?_eq_getElem inside
      rw [if_pos more,read _ inside,here]
      refine ih (size-size/2) (by omega) (by omega) ?_
      by_cases less : target < keys[base+size/2]
      · rw [if_pos less]
        refine ⟨by omega,fun i key from_ found => ?_,window.below⟩
        rcases Nat.eq_or_lt_of_le (show base+size/2 ≤ i by omega) with same | later
        · rw [← same,here] at found
          cases found
          exact less
        · exact lt_trans less (sorted_at sorted later here found)
      · rw [if_neg less]
        refine ⟨by omega,fun i key from_ found => window.above i key (by omega) found,.inr fun key found => ?_⟩
        rw [here] at found
        cases found
        exact le_of_not_gt less
    · have single : size = 1 := by omega
      rw [if_neg more]
      rw [single] at window
      exact ⟨base,rfl,window⟩

theorem binarySearch_located {probe : Nat → Option κ} (sorted : keys.Pairwise (· < ·))
    (read : ∀ i, i < keys.length → probe i = keys[i]?) (target : κ) :
    ∃ result, binarySearch probe target keys.length = some result ∧ Located keys target result := by
  rw [binarySearch]
  by_cases nothing : keys.length = 0
  · rw [if_pos nothing]
    rw [List.length_eq_zero_iff.mp nothing]
    exact ⟨_,rfl,Nat.le_refl _,nofun,nofun⟩
  · have start : Window keys target keys.length 0 := by
      refine ⟨by omega,fun i key from_ found => ?_,.inl rfl⟩
      rw [List.getElem?_eq_none (by omega)] at found
      cases found
    obtain ⟨last,narrowed,window⟩ := narrow_window sorted read (Nat.pos_of_ne_zero nothing) start
    have inside : last < keys.length := window.fits
    have here : keys[last]? = some (keys[last]) := List.getElem?_eq_getElem inside
    rw [if_neg nothing,narrowed,Option.bind_eq_bind,Option.bind_some,read last inside,here]
    refine ⟨_,rfl,?_⟩
    by_cases hit : keys[last] = target
    · rw [if_pos hit]
      rw [← hit]
      exact here
    · rw [if_neg hit]
      by_cases less : keys[last] < target
      · rw [if_pos less]
        refine ⟨inside,fun key member => ?_,fun key member => ?_⟩
        · obtain ⟨i,bound,found⟩ := List.mem_take_iff_getElem.mp member
          have found' : keys[i]? = some key := by rw [List.getElem?_eq_getElem (by omega),found]
          rcases Nat.eq_or_lt_of_le (show i ≤ last by omega) with same | earlier
          · rw [same,here] at found'
            cases found'
            exact less
          · exact lt_trans (sorted_at sorted earlier found' here) less
        · obtain ⟨i,bound,found⟩ := List.mem_drop_iff_getElem.mp member
          exact window.above (last+1+i) key (by omega) (by rw [List.getElem?_eq_getElem (by omega),found])
      · rw [if_neg less]
        have first : last = 0 := window.below.resolve_right fun small => hit (le_antisymm (small _ here) (le_of_not_gt less))
        refine ⟨Nat.le_of_lt inside,?_,fun key member => ?_⟩
        · rw [first]
          nofun
        · obtain ⟨i,bound,found⟩ := List.mem_drop_iff_getElem.mp member
          have found' : keys[last+i]? = some key := by rw [List.getElem?_eq_getElem (by omega),found]
          rcases Nat.eq_zero_or_pos i with zero | later
          · rw [zero,Nat.add_zero,here] at found'
            cases found'
            exact lt_of_le_of_ne (le_of_not_gt less) (Ne.symm hit)
          · exact window.above (last+i) key (by omega) found'

theorem Located.absent {ins : Nat} (located : Located keys target (.error ins)) : ∀ key ∈ keys, key ≠ target := by
  obtain ⟨_,smaller,larger⟩ := located
  intro key member
  rw [← List.take_append_drop ins keys,List.mem_append] at member
  rcases member with before | behind
  · exact ne_of_lt (smaller key before)
  · exact ne_of_gt (larger key behind)

theorem insertIdx_eq {α : Type} {l : List α} {ins : Nat} (bound : ins ≤ l.length) (a : α) : l.insertIdx ins a = l.take ins++a::l.drop ins := by
  induction l generalizing ins with
  | nil =>
    rw [Nat.le_zero.mp bound]
    rfl
  | cons x l ih =>
    cases ins with
    | zero => rfl
    | succ ins => rw [List.insertIdx_succ_cons,ih (Nat.le_of_succ_le_succ bound),List.take_succ_cons,List.drop_succ_cons,List.cons_append]

-- The key goes where the failed search pointed.
theorem Located.sorted_insertIdx {ins : Nat} (sorted : keys.Pairwise (· < ·)) (located : Located keys target (.error ins)) :
    (keys.insertIdx ins target).Pairwise (· < ·) := by
  obtain ⟨bound,smaller,larger⟩ := located
  have parts : (keys.take ins++keys.drop ins).Pairwise (· < ·) := by rwa [List.take_append_drop]
  obtain ⟨front,back,across⟩ := List.pairwise_append.mp parts
  rw [insertIdx_eq bound,List.pairwise_append]
  refine ⟨front,List.pairwise_cons.mpr ⟨larger,back⟩,fun x before y behind => ?_⟩
  rcases List.mem_cons.mp behind with rfl | later
  · exact smaller x before
  · exact across x before y later

end BlitzRouter
