import Mathlib.Data.List.AList
import Mathlib.Algebra.BigOperators.Group.List.Basic
import Mathlib.Algebra.Order.BigOperators.Group.List
import Mathlib.Algebra.Order.Group.Int

namespace BlitzRouter

-- A finite table and the sum of what its rows are worth. Rows enter, change
-- and leave one at a time; each law says what that does to the sum.
abbrev Table (K V : Type) := AList fun _ : K => V

namespace Ledger

def total {K V M : Type} [AddCommMonoid M] (worth : K → V → M) (t : Table K V) : M :=
  (t.entries.map fun row => worth row.1 row.2).sum

section Laws
variable {K V M : Type} [AddCommMonoid M] {worth other : K → V → M} {t : Table K V} {k : K} {v new : V}

@[simp] theorem total_empty : total worth (∅ : Table K V) = 0 := rfl

theorem total_zero (worthless : ∀ k v, worth k v = 0) : total worth t = 0 := by
  apply List.sum_eq_zero
  intro value member
  obtain ⟨row,_,rfl⟩ := List.mem_map.mp member
  exact worthless row.1 row.2

variable [DecidableEq K]

theorem total_erase (worth : K → V → M) (found : t.lookup k = some v) : total worth t = worth k v+total worth (t.erase k) := by
  have present : k ∈ t.entries.keys := AList.mem_keys.mp (AList.lookup_isSome.mp (by simp [found]))
  obtain ⟨held,before,after,_,split,rest⟩ := List.exists_of_kerase present
  have known : held = v := by
    have inside : (⟨k,held⟩ : Sigma fun _ : K => V) ∈ t.entries := by simp [split]
    exact Option.some.inj ((AList.mem_lookup_iff.mpr inside).symm.trans found)
  subst known
  have shrunk : (t.erase k).entries = before++after := rest
  simp only [total,split,shrunk,List.map_append,List.map_cons,List.sum_append,List.sum_cons]
  exact add_left_comm _ _ _

theorem erase_absent (absent : t.lookup k = none) : t.erase k = t := by
  apply AList.ext
  exact List.kerase_of_notMem_keys fun present => by
    have found : (t.lookup k).isSome := AList.lookup_isSome.mpr (AList.mem_keys.mpr present)
    rw [absent] at found
    cases found

theorem total_insert : total worth (t.insert k v) = worth k v+total worth (t.erase k) := by
  have front : (t.insert k v).entries = ⟨k,v⟩::(t.erase k).entries := rfl
  simp only [total,front,List.map_cons,List.sum_cons]

theorem total_insert_fresh (worth : K → V → M) (v : V) (absent : t.lookup k = none) : total worth (t.insert k v) = worth k v+total worth t := by
  rw [total_insert,erase_absent absent]

-- The old worth of the row on one side, the new one on the other.
theorem total_insert_over (worth : K → V → M) (new : V) (found : t.lookup k = some v) :
    worth k v+total worth (t.insert k new) = worth k new+total worth t := by
  rw [total_insert,total_erase worth found]
  exact add_left_comm _ _ _

theorem total_congr (same : ∀ k v, t.lookup k = some v → worth k v = other k v) : total worth t = total other t := by
  unfold total
  congr 1
  apply List.map_congr_left
  intro row present
  exact same row.1 row.2 (AList.mem_lookup_iff.mpr present)

theorem total_insert_same (worth : K → V → M) (new : V) (found : t.lookup k = some v) (equal : worth k new = worth k v) :
    total worth (t.insert k new) = total worth t := by
  rw [total_insert,equal,← total_erase worth found]

end Laws

-- Keyed lists: a replaced or removed record is found again under its own key only.
section Keyed
variable {K V : Type} [DecidableEq K] {k other : K} {v : V} {rows : List (Sigma fun _ : K => V)}

theorem dlookup_kreplace (found : (rows.dlookup k).isSome) : (rows.kreplace k v).dlookup k = some v := by
  induction rows with
  | nil => cases found
  | cons row rest ih =>
    obtain ⟨key,value⟩ := row
    by_cases equal : k = key
    · subst equal
      simp [List.kreplace,List.lookmap_cons_some]
    · rw [List.dlookup_cons_ne _ _ equal] at found
      have kept : List.kreplace k v (⟨key,value⟩::rest) = ⟨key,value⟩::List.kreplace k v rest :=
        List.lookmap_cons_none _ _ (by simp [equal])
      rw [kept,List.dlookup_cons_ne _ _ equal]
      exact ih found

theorem dlookup_kreplace_ne (differs : other ≠ k) : (rows.kreplace k v).dlookup other = rows.dlookup other := by
  induction rows with
  | nil => rfl
  | cons row rest ih =>
    obtain ⟨key,value⟩ := row
    by_cases equal : k = key
    · subst equal
      have replaced : List.kreplace k v (⟨k,value⟩::rest) = ⟨k,v⟩::rest := List.lookmap_cons_some _ _ (by simp)
      rw [replaced,List.dlookup_cons_ne _ _ differs,List.dlookup_cons_ne _ _ differs]
    · have kept : List.kreplace k v (⟨key,value⟩::rest) = ⟨key,value⟩::List.kreplace k v rest :=
        List.lookmap_cons_none _ _ (by simp [equal])
      rw [kept]
      by_cases here : other = key
      · subst here
        rw [List.dlookup_cons_eq,List.dlookup_cons_eq]
      · rw [List.dlookup_cons_ne _ _ here,List.dlookup_cons_ne _ _ here,ih]

theorem dlookup_concat_self (fresh : rows.dlookup k = none) : (rows++[(⟨k,v⟩ : Sigma fun _ : K => V)]).dlookup k = some v := by
  rw [List.dlookup_append,fresh,List.dlookup_cons_eq]
  rfl

theorem dlookup_concat_ne (differs : other ≠ k) : (rows++[(⟨k,v⟩ : Sigma fun _ : K => V)]).dlookup other = rows.dlookup other := by
  rw [List.dlookup_append,List.dlookup_cons_ne _ _ differs,List.dlookup_nil,Option.or_none]

theorem nodupKeys_concat (single : rows.NodupKeys) (fresh : rows.dlookup k = none) : (rows++[(⟨k,v⟩ : Sigma fun _ : K => V)]).NodupKeys := by
  have absent : k ∉ rows.keys := List.dlookup_eq_none.mp fresh
  unfold List.NodupKeys at single ⊢
  rw [List.keys_append,List.keys_cons,List.keys_nil]
  exact List.Nodup.append single (List.nodup_singleton k) (by simpa using absent)

end Keyed

section Counting
variable {K V : Type} {t : Table K V}

theorem total_one : total (fun _ _ => (1 : Int)) t = t.keys.length := by
  simp [total,AList.keys,List.keys]

theorem total_count [DecidableEq K] (key : K) : total (fun k _ => if k = key then (1 : Int) else 0) t = t.keys.count key := by
  unfold total AList.keys List.keys
  induction t.entries with
  | nil => rfl
  | cons row rest ih =>
    rw [List.map_cons,List.sum_cons,List.map_cons,List.count_cons,ih]
    by_cases same : row.1 = key
    · simp [same,add_comm]
    · simp [same]

theorem total_nonneg {worth : K → V → Int} (positive : ∀ k v, 0 ≤ worth k v) : 0 ≤ total worth t := by
  apply List.sum_nonneg
  intro value member
  obtain ⟨row,_,rfl⟩ := List.mem_map.mp member
  exact positive row.1 row.2

end Counting
end Ledger
end BlitzRouter
