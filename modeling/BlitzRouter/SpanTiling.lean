import Mathlib.Algebra.BigOperators.Group.List.Basic
import Mathlib.Algebra.GroupWithZero.Nat

namespace BlitzRouter

variable {ι α : Type}

-- Spans, each with its start and its length, laid end to end.
inductive Tiles [Add α] : α → List (α × α) → α → Prop where
  | nil {a : α} : Tiles a [] a
  | cons {a len b : α} {rest : List (α × α)} : Tiles (a+len) rest b → Tiles a ((a,len)::rest) b

theorem Tiles.append [Add α] {a b c : α} {xs ys : List (α × α)} (first : Tiles a xs b) (second : Tiles b ys c) : Tiles a (xs++ys) c := by
  induction first with
  | nil => exact second
  | cons _ ih => exact .cons (ih second)

theorem Tiles.sum [AddMonoid α] {a b : α} {xs : List (α × α)} (tiles : Tiles a xs b) : b = a+(xs.map Prod.snd).sum := by
  induction tiles with
  | nil => simp
  | cons _ ih => rw [ih,List.map_cons,List.sum_cons,add_assoc]

-- The spans of one owner among those of all.
def spansOf [DecidableEq ι] (i : ι) (spans : List (ι × α × α)) : List (α × α) := (spans.filter fun span => span.1 = i).map Prod.snd

section Owners
variable [DecidableEq ι] {i j : ι} {spans : List (ι × α × α)}

@[simp] theorem spansOf_nil : spansOf i ([] : List (ι × α × α)) = [] := rfl

@[simp] theorem spansOf_same (span : α × α) : spansOf i ((i,span)::spans) = span::spansOf i spans := by simp [spansOf]

@[simp] theorem spansOf_other (differs : j ≠ i) (span : α × α) : spansOf i ((j,span)::spans) = spansOf i spans := by
  simp [spansOf,differs]

@[simp] theorem spansOf_append (more : List (ι × α × α)) : spansOf i (spans++more) = spansOf i spans++spansOf i more := by
  simp [spansOf]

theorem spansOf_eq_nil : spansOf i spans = [] ↔ i ∉ spans.map Prod.fst := by
  rw [spansOf,List.map_eq_nil_iff,List.filter_eq_nil_iff]
  constructor
  · intro none member
    obtain ⟨span,inside,here⟩ := List.mem_map.mp member
    exact none span inside (decide_eq_true here)
  · intro outside span inside here
    exact outside (of_decide_eq_true here ▸ List.mem_map_of_mem inside)

end Owners

-- A job of which `start` is done: the spans go on from there and ask for no more
-- than is left.
structure Drains (total start : Nat) (spans : List (Nat × Nat)) (stop : Nat) : Prop where
  tiles : Tiles start spans stop
  fits : (spans.map Prod.snd).sum ≤ total-start

namespace Drains
variable {total start middle stop len : Nat} {spans more : List (Nat × Nat)}

theorem nil : Drains total start [] start := ⟨.nil,Nat.zero_le _⟩

theorem stop_eq (drains : Drains total start spans stop) : stop = start+(spans.map Prod.snd).sum := drains.tiles.sum

theorem cons (fits : len ≤ total-start) (rest : Drains total (start+len) spans stop) : Drains total start ((start,len)::spans) stop := by
  have later := rest.fits
  refine ⟨.cons rest.tiles,?_⟩
  rw [List.map_cons,List.sum_cons]
  omega

theorem trans (first : Drains total start spans middle) (second : Drains total middle more stop) :
    Drains total start (spans++more) stop := by
  have reached := first.stop_eq
  have early := first.fits
  have late := second.fits
  refine ⟨first.tiles.append second.tiles,?_⟩
  rw [List.map_append,List.sum_append]
  omega

-- A job that is done gets nothing more.
theorem done (drains : Drains total start spans stop) (whole : total ≤ start) (positive : ∀ span ∈ spans, 0 < span.2) : spans = [] := by
  have fits := drains.fits
  cases spans with
  | nil => rfl
  | cons span rest =>
    have first := positive span List.mem_cons_self
    rw [List.map_cons,List.sum_cons] at fits
    omega

end Drains
end BlitzRouter
