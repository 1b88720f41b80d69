import Mathlib.Data.List.Basic
import Mathlib.Logic.Function.Basic
import Mathlib.Data.Set.Card

namespace BlitzRouter

-- Heap cells addressed by allocation order. A freed cell stays behind as
-- `none`, so an address is never handed out twice and a dangling one reads nothing.
structure Arena (β : Type*) where
  cells : List (Option β)
deriving DecidableEq, Repr

namespace Arena
variable {β : Type*} {p : Nat} (a : Arena β)

def read (p : Nat) : Option β := a.cells[p]?.join
def next : Nat := a.cells.length
def alloc (value : β) : Arena β := ⟨a.cells++[some value]⟩
def write (p : Nat) (value : β) : Arena β := ⟨a.cells.set p (some value)⟩
def free (p : Nat) : Arena β := ⟨a.cells.set p none⟩

theorem read_bound {a : Arena β} {p : Nat} {value : β} (found : a.read p = some value) : p < a.next := by
  apply Classical.byContradiction
  intro outside
  have absent : a.cells[p]? = none := List.getElem?_eq_none (Nat.le_of_not_gt outside)
  simp [read,absent] at found

@[simp] theorem read_next : a.read a.next = none := by simp [read,next]

theorem read_alloc (value : β) : (a.alloc value).read = Function.update a.read a.next (some value) := by
  funext p
  by_cases same : p = a.next
  · subst p; simp [read,alloc,next]
  · simp only [Function.update_of_ne same]
    simp only [read,alloc]
    by_cases bound : p < a.cells.length
    · rw [List.getElem?_append_left bound]
    · have beyond : a.cells.length < p := by
        have different : p ≠ a.cells.length := same
        omega
      rw [List.getElem?_eq_none (by simp; omega),List.getElem?_eq_none (Nat.le_of_lt beyond)]

theorem read_write {value old : β} {p : Nat} (present : a.read p = some old) :
    (a.write p value).read = Function.update a.read p (some value) := by
  have bound : p < a.cells.length := read_bound present
  funext q
  by_cases same : q = p
  · subst q; simp [read,write,bound]
  · simp [read,write,Function.update_of_ne same,List.getElem?_set_ne (Ne.symm same)]

theorem read_write_ne {value old : β} {p q : Nat} (present : a.read p = some old) (other : q ≠ p) :
    (a.write p value).read q = a.read q := by
  rw [read_write a present,Function.update_of_ne other]

theorem read_free (p : Nat) : (a.free p).read = Function.update a.read p none := by
  funext q
  by_cases same : q = p
  · subst same
    simp only [Function.update_self,read,free,List.getElem?_set_self']
    cases a.cells[q]? <;> rfl
  · simp [read,free,Function.update_of_ne same,List.getElem?_set_ne (Ne.symm same)]

@[simp] theorem next_alloc (value : β) : (a.alloc value).next = a.next+1 := by simp [next,alloc]
@[simp] theorem next_write (p : Nat) (value : β) : (a.write p value).next = a.next := by simp [next,write]
@[simp] theorem next_free (p : Nat) : (a.free p).next = a.next := by simp [next,free]

-- The cells that hold a value.
def live : Nat := a.cells.countP Option.isSome

theorem live_alloc (value : β) : (a.alloc value).live = a.live+1 := by simp [live,alloc]

theorem cell_of_read {a : Arena β} {value : β} (present : a.read p = some value) : a.cells[p]? = some (some value) := by
  unfold read at present
  cases cell : a.cells[p]? with
  | none => rw [cell] at present; cases present
  | some held => rw [cell] at present; exact congrArg some present

theorem split_of_read {a : Arena β} {value : β} (present : a.read p = some value) :
    ∃ before after, a.cells = before++some value::after ∧ before.length = p := by
  obtain ⟨bound,cell⟩ := List.getElem?_eq_some_iff.mp (cell_of_read present)
  refine ⟨a.cells.take p,a.cells.drop (p+1),?_,by rw [List.length_take]; omega⟩
  rw [← cell,List.getElem_cons_drop,List.take_append_drop]

theorem live_write {value old : β} (present : a.read p = some old) : (a.write p value).live = a.live := by
  obtain ⟨before,after,cells,rfl⟩ := split_of_read present
  simp [live,write,cells]

theorem live_free {value : β} (present : a.read p = some value) : (a.free p).live+1 = a.live := by
  obtain ⟨before,after,cells,rfl⟩ := split_of_read present
  simp [live,free,cells]
  omega

-- Induction on the cells from the last one: it adds its own address or nothing.
theorem ncard_live : {p | ∃ value, a.read p = some value}.ncard = a.live := by
  obtain ⟨cells⟩ := a
  induction cells using List.reverseRecOn with
  | nil => simp [read,live]
  | append_singleton cells last ih =>
    have inside : {p | ∃ value, (⟨cells⟩ : Arena β).read p = some value} ⊆ Set.Iio cells.length :=
      fun p ⟨_,present⟩ => read_bound present
    cases last with
    | none =>
      have same : {p | ∃ value, (⟨cells++[none]⟩ : Arena β).read p = some value} = {p | ∃ value, (⟨cells⟩ : Arena β).read p = some value} := by
        ext p
        simp only [Set.mem_ofPred_eq,read,List.getElem?_append]
        split
        · rfl
        · rename_i beyond
          rw [List.getElem?_eq_none (Nat.le_of_not_gt beyond)]
          cases p-cells.length <;> simp
      rw [same,ih]
      simp [live]
    | some value =>
      have more : {p | ∃ held, (⟨cells++[some value]⟩ : Arena β).read p = some held} =
          insert cells.length {p | ∃ held, (⟨cells⟩ : Arena β).read p = some held} := by
        have grown := read_alloc (⟨cells⟩ : Arena β) value
        ext p
        simp only [Set.mem_ofPred_eq,Set.mem_insert_iff]
        rw [show (⟨cells++[some value]⟩ : Arena β).read = _ from grown]
        by_cases here : p = cells.length
        · subst here
          simp [next]
        · rw [Function.update_of_ne (show p ≠ next ⟨cells⟩ from here)]
          simp [here]
      have fresh : cells.length ∉ {p | ∃ held, (⟨cells⟩ : Arena β).read p = some held} :=
        fun present => Nat.lt_irrefl _ (inside present)
      rw [more,Set.ncard_insert_of_notMem fresh ((Set.finite_lt_nat cells.length).subset inside),ih]
      simp [live]

end Arena
end BlitzRouter
