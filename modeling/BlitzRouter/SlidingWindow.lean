import Mathlib.Algebra.Group.Basic
import Mathlib.Data.List.Basic
import Mathlib.Data.List.Induction
import Mathlib.Data.List.TakeWhile
import Mathlib.Tactic.Abel

namespace BlitzRouter

class Aggregate (A : Type) (T : outParam Type) where
  add : A → T → A
  sub : A → T → A

-- `add` followed by `sub` of the same item is a no-op. Items leave a window in the
-- order in which they entered it, with others in between.
class LawfulAggregate (A : Type) (T : outParam Type) [Aggregate A T] : Prop where
  cancels : ∀ (agg : A) (x : T) (items : List T),
    Aggregate.sub (items.foldl Aggregate.add (Aggregate.add agg x)) x = items.foldl Aggregate.add agg

namespace Window

structure Sum (K : Type) where
  value : K
deriving DecidableEq,Repr

instance {K : Type} [Add K] [Sub K] : Aggregate (Sum K) K := ⟨fun agg x => ⟨agg.value+x⟩,fun agg x => ⟨agg.value-x⟩⟩

theorem sum_value {K : Type} [AddCommGroup K] (items : List K) (agg : Sum K) :
    (items.foldl Aggregate.add agg).value = agg.value+items.sum := by
  induction items generalizing agg with
  | nil => simp
  | cons x items ih =>
    rw [List.foldl_cons,ih,List.sum_cons,← add_assoc]
    rfl

instance {K : Type} [AddCommGroup K] : LawfulAggregate (Sum K) K where
  cancels agg x items := by
    have value : (items.foldl Aggregate.add (Aggregate.add agg x)).value-x = (items.foldl Aggregate.add agg).value := by
      rw [sum_value,sum_value]
      change agg.value+x+items.sum-x = agg.value+items.sum
      abel
    exact congrArg Sum.mk value

inductive Count where
  | count
deriving DecidableEq,Repr

instance : Aggregate Count Unit := ⟨fun agg _ => agg,fun agg _ => agg⟩

instance : LawfulAggregate Count Unit := ⟨fun _ _ _ => rfl⟩

end Window

-- Times are nanoseconds.
structure SlidingWindow (T A : Type) where
  entries : List (Nat × T)
  agg : A
  duration : Nat
deriving DecidableEq,Repr

namespace SlidingWindow
variable {T A : Type} [Aggregate A T]

def new (duration : Nat) (aggInit : A) : SlidingWindow T A := ⟨[],aggInit,duration⟩

def push (w : SlidingWindow T A) (t : Nat) (item : T) : SlidingWindow T A :=
  {w with agg := Aggregate.add w.agg item,entries := w.entries++[(t,item)]}

def expireFrom (now duration : Nat) : List (Nat × T) → A → List (Nat × T) × A
  | [],agg => ([],agg)
  | (t,item)::rest,agg => if duration < now-t then expireFrom now duration rest (Aggregate.sub agg item) else ((t,item)::rest,agg)

def expire (w : SlidingWindow T A) (now : Nat) : SlidingWindow T A :=
  let (entries,agg) := expireFrom now w.duration w.entries w.agg
  {w with entries,agg}

def len (w : SlidingWindow T A) : Nat := w.entries.length

def aggregateAt (w : SlidingWindow T A) (now : Nat) : SlidingWindow T A × A := (w.expire now,(w.expire now).agg)

def lenAt (w : SlidingWindow T A) (now : Nat) : SlidingWindow T A × Nat := (w.expire now,(w.expire now).len)

end SlidingWindow

inductive WindowOp (T : Type) where
  | push (t : Nat) (item : T)
  | expire (now : Nat)
deriving DecidableEq,Repr

namespace WindowOp
variable {T A : Type} [Aggregate A T]

def apply (w : SlidingWindow T A) : WindowOp T → SlidingWindow T A
  | .push t item => w.push t item
  | .expire now => w.expire now

def pushed : WindowOp T → Option (Nat × T)
  | .push t item => some (t,item)
  | .expire _ => none

def expired : WindowOp T → Option Nat
  | .push _ _ => none
  | .expire now => some now

end WindowOp

namespace SlidingWindow
variable {T A : Type} [Aggregate A T] {agg : A} {duration now : Nat} {ops : List (WindowOp T)} {w : SlidingWindow T A}

def run (w : SlidingWindow T A) (ops : List (WindowOp T)) : SlidingWindow T A := ops.foldl WindowOp.apply w

def pushes (ops : List (WindowOp T)) : List (Nat × T) := ops.filterMap WindowOp.pushed

def expiries (ops : List (WindowOp T)) : List Nat := ops.filterMap WindowOp.expired

-- Not older than the window is long.
def Fresh (duration now : Nat) (entry : Nat × T) : Prop := now-entry.1 ≤ duration

instance (duration now : Nat) (entry : Nat × T) : Decidable (Fresh duration now entry) := inferInstanceAs (Decidable (_ ≤ _))

def total (agg : A) (entries : List (Nat × T)) : A := (entries.map Prod.snd).foldl Aggregate.add agg

-- The window after some pushes and expiries: the last pushes, behind those that
-- some expiry found too old.
structure Holds (agg : A) (duration : Nat) (ops : List (WindowOp T)) (w : SlidingWindow T A) : Prop where
  lasts : w.duration = duration
  agg : w.agg = total agg w.entries
  split : ∃ gone, pushes ops = gone++w.entries ∧ ∀ entry ∈ gone, ∃ now ∈ expiries ops, ¬Fresh duration now entry

theorem expireFrom_eq [LawfulAggregate A T] (now duration : Nat) (entries : List (Nat × T)) (agg : A) :
    expireFrom now duration entries (total agg entries) = (entries.dropWhile (fun e => ¬Fresh duration now e),
      total agg (entries.dropWhile fun e => ¬Fresh duration now e)) := by
  induction entries with
  | nil => rfl
  | cons entry rest ih =>
    obtain ⟨t,item⟩ := entry
    by_cases old : duration < now-t
    · have stale : ¬Fresh duration now (t,item) := Nat.not_le.mpr old
      have cancels : Aggregate.sub (total agg ((t,item)::rest)) item = total agg rest := LawfulAggregate.cancels agg item (rest.map Prod.snd)
      rw [expireFrom,if_pos old,cancels,ih,List.dropWhile_cons_of_pos (by simpa using stale)]
    · have fresh : Fresh duration now (t,item) := Nat.not_lt.mp old
      rw [expireFrom,if_neg old,List.dropWhile_cons_of_neg (by simpa using fresh)]

theorem Holds.push (holds : Holds agg duration ops w) (t : Nat) (item : T) : Holds agg duration (ops++[.push t item]) (w.push t item) := by
  obtain ⟨gone,split,old⟩ := holds.split
  refine ⟨holds.lasts,?_,gone,?_,fun entry member => ?_⟩
  · simp [SlidingWindow.push,total,holds.agg]
  · simp only [pushes] at split
    simp [pushes,SlidingWindow.push,WindowOp.pushed,split]
  · obtain ⟨now,past,stale⟩ := old entry member
    exact ⟨now,by simp only [expiries,List.filterMap_append,List.mem_append]; exact .inl past,stale⟩

theorem Holds.expire [LawfulAggregate A T] (holds : Holds agg duration ops w) (now : Nat) :
    Holds agg duration (ops++[.expire now]) (w.expire now) ∧ (w.expire now).entries = w.entries.dropWhile fun e => ¬Fresh duration now e := by
  obtain ⟨gone,split,old⟩ := holds.split
  have expires : w.expire now = {w with
      entries := w.entries.dropWhile (fun e => ¬Fresh duration now e)
      agg := total agg (w.entries.dropWhile fun e => ¬Fresh duration now e)} := by
    simp only [SlidingWindow.expire,holds.agg,holds.lasts,expireFrom_eq]
  rw [expires]
  refine ⟨⟨holds.lasts,rfl,gone++w.entries.takeWhile (fun e => ¬Fresh duration now e),?_,fun entry member => ?_⟩,rfl⟩
  · rw [List.append_assoc,List.takeWhile_append_dropWhile,← split]
    simp [pushes,WindowOp.pushed]
  · rcases List.mem_append.mp member with before | here
    · obtain ⟨past,inside,stale⟩ := old entry before
      exact ⟨past,by simp only [expiries,List.filterMap_append,List.mem_append]; exact .inl inside,stale⟩
    · exact ⟨now,by simp [expiries,WindowOp.expired],by simpa using List.mem_takeWhile_imp here⟩

theorem run_holds [LawfulAggregate A T] (duration : Nat) (agg : A) (ops : List (WindowOp T)) :
    Holds agg duration ops ((new duration agg).run ops) := by
  induction ops using List.reverseRecOn with
  | nil => exact ⟨rfl,rfl,[],rfl,by simp⟩
  | append_singleton ops op ih =>
    rw [run,List.foldl_append]
    cases op with
    | push t item => exact ih.push t item
    | expire now => exact (ih.expire now).1

-- In the order of time the old entries are all in front.
theorem dropWhile_fresh {entries : List (Nat × T)} (ordered : entries.Pairwise fun a b => a.1 ≤ b.1) (duration now : Nat) :
    (entries.dropWhile fun e => ¬Fresh duration now e) = entries.filter fun e => Fresh duration now e := by
  induction entries with
  | nil => rfl
  | cons entry rest ih =>
    obtain ⟨before,ordered⟩ := List.pairwise_cons.mp ordered
    by_cases fresh : Fresh duration now entry
    · have others : ∀ e ∈ entry::rest, Fresh duration now e := by
        intro e member
        rcases List.mem_cons.mp member with rfl | later
        · exact fresh
        · exact (Nat.sub_le_sub_left (before e later) now).trans fresh
      rw [List.dropWhile_cons_of_neg (by simpa using fresh),List.filter_eq_self.mpr fun e member => by simpa using others e member]
    · rw [List.dropWhile_cons_of_pos (by simpa using fresh),List.filter_cons_of_neg (by simpa using fresh),ih ordered]

-- After an expiry a window is exactly the fresh ones of all its pushes.
theorem Holds.exact [LawfulAggregate A T] (holds : Holds agg duration ops w) (pushed : (pushes ops).Pairwise fun a b => a.1 ≤ b.1)
    (later : ∀ past ∈ expiries ops, past ≤ now) :
    (w.expire now).entries = (pushes ops).filter (fun e => Fresh duration now e) ∧
      (w.expire now).agg = total agg ((pushes ops).filter fun e => Fresh duration now e) := by
  obtain ⟨expired,dropped⟩ := holds.expire now
  obtain ⟨gone,split,old⟩ := holds.split
  have stale : gone.filter (fun e => Fresh duration now e) = [] := by
    refine List.filter_eq_nil_iff.mpr fun entry member => ?_
    obtain ⟨past,inside,stale⟩ := old entry member
    have nearer : past-entry.1 ≤ now-entry.1 := Nat.sub_le_sub_right (later past inside) entry.1
    have ages : ¬Fresh duration now entry := fun fresh => stale (nearer.trans fresh)
    simpa using ages
  have entries : (w.expire now).entries = (pushes ops).filter fun e => Fresh duration now e := by
    rw [split] at pushed ⊢
    rw [dropped,dropWhile_fresh (List.pairwise_append.mp pushed).2.1,List.filter_append,stale,List.nil_append]
  exact ⟨entries,entries ▸ expired.agg⟩

end SlidingWindow

end BlitzRouter
