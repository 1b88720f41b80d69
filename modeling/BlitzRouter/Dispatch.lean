import Mathlib.Data.List.Nodup
import Mathlib.Data.List.Perm.Basic
import Mathlib.Data.List.Range

namespace BlitzRouter

-- What a log of labelled values holds for one label.
def lane {κ α : Type} [DecidableEq κ] (k : κ) (log : List (κ × α)) : List α := (log.filter (·.1 = k)).map Prod.snd

section
variable {κ α : Type} [DecidableEq κ]

theorem lane_snoc (k j : κ) (a : α) (log : List (κ × α)) : lane k (log++[(j,a)]) = lane k log++(if j = k then [a] else []) := by
  by_cases same : j = k <;> simp [lane,List.filter_append,same]

theorem mem_of_lane {k : κ} {a : α} {log : List (κ × α)} (member : a ∈ lane k log) : (k,a) ∈ log := by
  obtain ⟨⟨j,b⟩,found,rfl⟩ := List.mem_map.mp member
  obtain ⟨inside,same⟩ := List.mem_filter.mp found
  obtain rfl : j = k := by simpa using same
  exact inside

theorem lane_of_mem {k : κ} {a : α} {log : List (κ × α)} (member : (k,a) ∈ log) : a ∈ lane k log :=
  List.mem_map.mpr ⟨(k,a),List.mem_filter.mpr ⟨member,by simp⟩,rfl⟩

theorem lane_sublist (k : κ) (log : List (κ × α)) : (lane k log).Sublist (log.map Prod.snd) := List.filter_sublist.map _

-- Lanes of distinct labels share nothing, and all lanes together hold the log.
theorem lanes_perm (keys : List κ) (log : List (κ × α)) (distinct : keys.Nodup) (labelled : ∀ x ∈ log, x.1 ∈ keys) :
    (keys.flatMap fun k => lane k log).Perm (log.map Prod.snd) := by
  induction keys generalizing log with
  | nil =>
    have empty : log = [] := List.eq_nil_iff_forall_not_mem.mpr fun x member => by simpa using labelled x member
    simp [empty]
  | cons k keys ih =>
    obtain ⟨absent,distinct⟩ := List.nodup_cons.mp distinct
    let others := log.filter fun x => !decide (x.1 = k)
    have apart : ∀ j ∈ keys, lane j log = lane j others := by
      intro j member
      have differs : j ≠ k := fun same => absent (same ▸ member)
      unfold lane
      congr 1
      rw [List.filter_filter]
      refine List.filter_congr fun x _ => ?_
      by_cases same : x.1 = j
      · simp [same,differs]
      · simp [same]
    have rest := ih others distinct (by
      intro x member
      obtain ⟨inside,differs⟩ := List.mem_filter.mp member
      rcases List.mem_cons.mp (labelled x inside) with same | inside
      · simp [same] at differs
      · exact inside)
    rw [List.flatMap_cons,List.flatMap_congr apart]
    have halves := (List.filter_append_perm (fun x : κ × α => decide (x.1 = k)) log).map Prod.snd
    rw [List.map_append] at halves
    exact (rest.append_left _).trans halves

end

-- First in, first out through lanes: what arrives is assigned to lanes in the
-- order it came, and taken from a lane in the order it was assigned to it.
structure Dispatch (κ α : Type) [DecidableEq κ] where
  arrived : List α
  assigned : List (κ × α)
  taken : List (κ × α)
  in_order : assigned.map Prod.snd <+: arrived
  from_lane : ∀ k, lane k taken <+: lane k assigned

namespace Dispatch
variable {κ α : Type} [DecidableEq κ] (d : Dispatch κ α)

def empty : Dispatch κ α := ⟨[],[],[],List.prefix_rfl,fun _ => List.prefix_rfl⟩

def waiting : List α := d.arrived.drop d.assigned.length

def buffered (k : κ) : List α := (lane k d.assigned).drop (lane k d.taken).length

theorem assigned_waiting : d.assigned.map Prod.snd++d.waiting = d.arrived := by
  obtain ⟨rest,equal⟩ := d.in_order
  rw [waiting,← equal,List.drop_left' (List.length_map _)]

theorem taken_buffered (k : κ) : lane k d.taken++d.buffered k = lane k d.assigned := by
  obtain ⟨rest,equal⟩ := d.from_lane k
  rw [buffered,← equal,List.drop_left]

theorem waiting_of {rest : List α} (equal : d.assigned.map Prod.snd++rest = d.arrived) : d.waiting = rest :=
  List.append_cancel_left (d.assigned_waiting.trans equal.symm)

theorem buffered_of {k : κ} {rest : List α} (equal : lane k d.taken++rest = lane k d.assigned) : d.buffered k = rest :=
  List.append_cancel_left ((d.taken_buffered k).trans equal.symm)

def arrive (a : α) : Dispatch κ α :=
  {d with arrived := d.arrived++[a],in_order := d.in_order.trans (List.prefix_append _ _)}

@[simp] theorem waiting_arrive (a : α) : (d.arrive a).waiting = d.waiting++[a] :=
  waiting_of _ (by simp only [arrive,← List.append_assoc,d.assigned_waiting])

@[simp] theorem buffered_arrive (a : α) (k : κ) : (d.arrive a).buffered k = d.buffered k := rfl

variable {d} {a : α} {rest : List α} {k : κ}

theorem assign_arrived (found : d.waiting = a::rest) (k : κ) : (d.assigned++[(k,a)]).map Prod.snd++rest = d.arrived := by
  rw [← d.assigned_waiting,found]
  simp

def assign (k : κ) (found : d.waiting = a::rest) : Dispatch κ α :=
  {d with
    assigned := d.assigned++[(k,a)]
    in_order := ⟨rest,assign_arrived found k⟩
    from_lane := fun j => (d.from_lane j).trans ⟨_,(lane_snoc j k a d.assigned).symm⟩}

@[simp] theorem waiting_assign (found : d.waiting = a::rest) : (assign k found).waiting = rest :=
  waiting_of _ (assign_arrived found k)

@[simp] theorem buffered_assign (found : d.waiting = a::rest) (j : κ) :
    (assign k found).buffered j = d.buffered j++(if k = j then [a] else []) := by
  refine buffered_of _ ?_
  simp only [assign,lane_snoc,← d.taken_buffered j,List.append_assoc]

def take (found : d.buffered k = a::rest) : Dispatch κ α :=
  {d with
    taken := d.taken++[(k,a)]
    from_lane := by
      intro j
      rw [lane_snoc,← d.taken_buffered j]
      split
      · rename_i same
        subst same
        rw [found]
        exact ⟨rest,by simp⟩
      · simp}

@[simp] theorem waiting_take (found : d.buffered k = a::rest) : (take found).waiting = d.waiting := rfl

@[simp] theorem buffered_take (found : d.buffered k = a::rest) (j : κ) :
    (take found).buffered j = if k = j then rest else d.buffered j := by
  refine buffered_of _ ?_
  simp only [take,lane_snoc,← d.taken_buffered j]
  split
  · rename_i same
    subst same
    rw [found]
    simp
  · simp

theorem taken_assigned {x : κ × α} (member : x ∈ d.taken) : x ∈ d.assigned :=
  mem_of_lane ((d.from_lane x.1).subset (lane_of_mem member))

theorem taken_in_order (k : κ) : (lane k d.taken).Sublist d.arrived :=
  ((d.from_lane k).sublist.trans (lane_sublist k d.assigned)).trans d.in_order.sublist

-- Whatever arrived is in one place: it waits, is buffered in a lane, or is taken.
theorem places {keys : List κ} (distinct : keys.Nodup) (labelled : ∀ x ∈ d.assigned, x.1 ∈ keys) :
    (d.waiting++keys.flatMap d.buffered++d.taken.map Prod.snd).Perm d.arrived := by
  have taken := lanes_perm keys d.taken distinct fun x member => labelled x (taken_assigned member)
  have assigned := lanes_perm keys d.assigned distinct labelled
  have split : (keys.flatMap fun k => lane k d.assigned).Perm (keys.flatMap (fun k => lane k d.taken)++keys.flatMap d.buffered) := by
    rw [← List.flatMap_congr fun k _ => d.taken_buffered k]
    exact (List.flatMap_append_perm keys _ _).symm
  have served : (keys.flatMap d.buffered++d.taken.map Prod.snd).Perm (d.assigned.map Prod.snd) :=
    List.perm_append_comm.trans ((taken.symm.append_right _).trans (split.symm.trans assigned))
  rw [List.append_assoc,← d.assigned_waiting]
  exact (served.append_left _).trans List.perm_append_comm

end Dispatch
end BlitzRouter
